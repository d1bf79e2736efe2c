import SteampunkGame.Lib.BitMask
import SteampunkGame.Sched.RunnerCalls

/-!
`next_affinity_mask` for masks of any width, called again and again with
nobody else at the mask. The width of `platform::affinity_mask` is that of a
pointer.
-/
namespace SchedCoreOrder
open BitMask SchedPool
variable {w : Nat}

def nextAffinityMask (unusedCores : BitVec w) : Except String (BitVec w) × BitVec w :=
  if unusedCores = 0 then (.error "No more cores available", unusedCores)
  else
    let workerAffinity := unusedCores &&& ~~~(unusedCores - 1)
    (.ok workerAffinity, unusedCores &&& ~~~workerAffinity)

/-- What a number of calls return or throw, and what they leave. -/
def calls : Nat → BitVec w → List (Except String (BitVec w)) × BitVec w
  | 0, unusedCores => ([], unusedCores)
  | count + 1, unusedCores =>
      let first := nextAffinityMask unusedCores
      let later := calls count first.2
      (first.1 :: later.1, later.2)

/-- The runner's own call is the one of 64 bits. -/
theorem nextAffinityMask_runner (pool : WorkerPool) :
    SchedRunnerCalls.nextAffinityMask pool =
      ((nextAffinityMask pool.unusedCores.toBitVec).1.map UInt64.ofBitVec,
        { pool with unusedCores := .ofBitVec (nextAffinityMask pool.unusedCores.toBitVec).2 }) := by
  by_cases spent : pool.unusedCores = 0
  · have zero : pool.unusedCores.toBitVec = 0 := by rw [spent]; rfl
    rw [SchedRunnerCalls.nextAffinityMask, if_pos spent, nextAffinityMask, if_pos zero]
    rfl
  · have unspent : pool.unusedCores.toBitVec ≠ 0 :=
      fun zero => spent (UInt64.toBitVec_inj.mp zero)
    rw [SchedRunnerCalls.nextAffinityMask, if_neg spent, nextAffinityMask, if_neg unspent]
    rfl

theorem nextAffinityMask_zero :
    nextAffinityMask (0 : BitVec w) = (.error "No more cores available", 0) := by
  simp [nextAffinityMask]

/-- A call takes the lowest core. -/
theorem nextAffinityMask_lowest {unusedCores : BitVec w} {i : Fin w} (low : Lowest unusedCores i) :
    ∃ left, nextAffinityMask unusedCores = (.ok (BitVec.twoPow w i), left) ∧
      bits left = bits unusedCores \ {i} := by
  have single : unusedCores &&& ~~~(unusedCores - 1) = BitVec.twoPow w i := by
    apply bits_injective
    rw [bits_lowest low, bits_twoPow]
  refine ⟨unusedCores &&& ~~~(BitVec.twoPow w i), ?_, ?_⟩
  · simp only [nextAffinityMask, lowest_not_zero low, if_false, single]
  · rw [bits_andNot, bits_twoPow]

theorem calls_zero (count : Nat) : calls count (0 : BitVec w) =
    (List.replicate count (.error "No more cores available"), 0) := by
  induction count with
  | zero => rfl
  | succ count ih => simp only [calls, nextAffinityMask_zero, ih, List.replicate_succ]

theorem ones_zero : ones (0 : BitVec w) = [] := by
  unfold ones
  rw [bits_zero, Finset.sort_empty]

/-- The cores come one by one from the list of one bits, and then the calls
    throw. -/
theorem calls_ones (count : Nat) (m : BitVec w) :
    (calls count m).1 = ((ones m).take count).map (fun i => .ok (BitVec.twoPow w i)) ++
        List.replicate (count - (ones m).length) (.error "No more cores available") ∧
      ones (calls count m).2 = (ones m).drop count := by
  induction count generalizing m with
  | zero => simp [calls]
  | succ count ih =>
    by_cases spent : m = 0
    · subst spent
      simp only [calls_zero, ones_zero, List.take_nil, List.map_nil, List.nil_append,
        List.length_nil, Nat.sub_zero, List.drop_nil, and_self]
    · obtain ⟨i, low⟩ := exists_lowest spent
      obtain ⟨left, run, rest⟩ := nextAffinityMask_lowest low
      obtain ⟨results, remaining⟩ := ih left
      simp only [calls, run, results, remaining, ones_lowest low rest, List.length_cons,
        List.take_succ_cons, List.map_cons, List.cons_append, List.drop_succ_cons,
        Nat.add_sub_add_right, and_self]

theorem mem_ones {m : BitVec w} {i : Fin w} : i ∈ ones m ↔ m.getLsbD i = true := by
  rw [ones, Finset.mem_sort, mem_bits]

/-- The masks that the calls return are the one bits of the initial mask in
    increasing order, each by itself; the mask that is left is the initial one
    without them, and when there are no more the calls throw and leave zero. -/
theorem core_enumeration (m : BitVec w) :
    (ones m).Pairwise (· < ·) ∧ (∀ i, i ∈ ones m ↔ m.getLsbD i = true) ∧
    ∀ count, (calls count m).1 =
          ((ones m).take count).map (fun i => .ok (BitVec.twoPow w i)) ++
            List.replicate (count - (ones m).length) (.error "No more cores available") ∧
        (∀ i : Fin w, (calls count m).2.getLsbD i = true ↔ i ∈ (ones m).drop count) ∧
        ((nextAffinityMask (calls count m).2).1 = .error "No more cores available" ↔
          (bits m).card ≤ count) ∧
        ((bits m).card ≤ count → (calls count m).2 = 0) := by
  refine ⟨(Finset.sortedLT_sort _).pairwise, fun i => mem_ones, ?_⟩
  intro count
  obtain ⟨results, remaining⟩ := calls_ones count m
  have spent : (calls count m).2 = 0 ↔ (bits m).card ≤ count := by
    rw [← bits_eq_empty, ← Finset.card_eq_zero, ← Finset.length_sort (· ≤ ·)]
    change (ones (calls count m).2).length = 0 ↔ _
    rw [remaining, List.length_drop, ones, Finset.length_sort]
    omega
  refine ⟨results, ?_, ?_, spent.mpr⟩
  · intro i
    rw [← mem_ones, remaining]
  · rw [← spent]
    constructor
    · intro threw
      by_contra unspent
      obtain ⟨i, low⟩ := exists_lowest unspent
      obtain ⟨left, run, _⟩ := nextAffinityMask_lowest low
      rw [run] at threw
      cases threw
    · intro zero
      rw [zero, nextAffinityMask_zero]

end SchedCoreOrder
