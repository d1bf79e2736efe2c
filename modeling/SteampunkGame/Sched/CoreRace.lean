import SteampunkGame.Sched.CoreConservation
import SteampunkGame.Sched.PoolCalls

/-!
What the calls of `next_affinity_mask` take when they are in progress together.
The zero test, the two operands of the bit trick and the removal are separate
accesses to `_unused_cores`, and other calls may come in between.
-/
namespace SchedCoreRace
open BitMask SchedPool SchedPoolCalls SchedCores Runs

/-- `rights` has the value that each call loaded for the right operand, and
    `masks` the masks that were returned; no step reads them. -/
structure Racing where
  runner : Runner
  rights : List UInt64
  masks : List UInt64

def start (initial : UInt64) : Racing := ⟨fresh initial, [], []⟩

abbrev Racing.unused (s : Racing) : UInt64 := s.runner.pool.unusedCores

/-- The records of the calls stand in the order of the calls. -/
def Racing.rightsAfter (s : Racing) (k : Nat) (rightFirst : Bool) : Call → List UInt64
  | .testCores _ => if s.unused = 0 then s.rights.eraseIdx k else s.rights
  | .loadCores _ => s.rights
  | .maskCores _ first => s.rights.set k (if rightFirst then first else s.unused)
  | .clearCore (some _) _ => s.rights
  | .clearCore none _ | .emplace _ _ | .popLocked _ => s.rights.eraseIdx k

def Racing.masksAfter (s : Racing) : Call → List UInt64
  | .clearCore _ affinity => s.masks ++ [affinity]
  | _ => s.masks

def step (s : Racing) (a : Action) : Option Racing :=
  match a with
  | .advance k rightFirst =>
      match s.runner.calls[k]? with
      | none => none
      | some call => some ⟨advance s.runner k rightFirst call, s.rightsAfter k rightFirst call,
          s.masksAfter call⟩
  | a =>
      match SchedPoolCalls.step s.runner a with
      | none => none
      | some runner => some ⟨runner, s.rights ++ [0], s.masks⟩

/-- The records do not stand in the way of any step. -/
theorem step_runner (s : Racing) (a : Action) :
    (step s a).map Racing.runner = SchedPoolCalls.step s.runner a := by
  cases a with
  | advance k rightFirst =>
    simp only [step, SchedPoolCalls.step]
    cases s.runner.calls[k]? with
    | none => rfl
    | some call => rfl
  | push => rfl
  | pop => rfl
  | pinArbiter => rfl

/-- When a call removes its core, `_unused_cores` is not empty and has not
    changed since the call loaded the right operand. -/
def StepOk (s : Racing) : Action → Prop
  | .advance k _ =>
      match s.runner.calls[k]? with
      | some (.clearCore _ _) => s.rights[k]? = some s.unused ∧ s.unused ≠ 0
      | _ => True
  | _ => True

/-- The returned masks are single cores of the initial mask, all different, and
    no other core has gone. -/
structure Allocated (initial : UInt64) (s : Racing) : Prop where
  apart : s.masks.Pairwise fun a b => Disjoint (cores a) (cores b)
  single : ∀ mask ∈ s.masks, ∃ c ∈ cores initial, cores mask = {c}
  kept : ∀ c ∈ cores initial, c ∉ cores s.unused → ∃ mask ∈ s.masks, c ∈ cores mask

/-- An earlier value of `_unused_cores`. -/
structure Earlier (initial unused value : UInt64) : Prop where
  upper : UpperPart (cores initial) (cores value)
  more : cores unused ⊆ cores value

/-- What a call in progress has computed from what it loaded. -/
def CallOk (initial unused right : UInt64) : Call → Prop
  | .maskCores _ first => Earlier initial unused first
  | .clearCore _ affinity => ∃ left, affinity = left &&& ~~~(right - 1) ∧
      Earlier initial unused left ∧ Earlier initial unused right
  | _ => True

def Tracked (initial unused : UInt64) (calls : List Call) (rights : List UInt64) : Prop :=
  rights.length = calls.length ∧ ∀ (k : Nat) call right, calls[k]? = some call →
    rights[k]? = some right → CallOk initial unused right call

/-- What holds in all runs: cores go from the lowest upwards, and only into
    masks that are returned. -/
structure Racy (initial : UInt64) (s : Racing) : Prop where
  upper : UpperPart (cores initial) (cores s.unused)
  tracked : Tracked initial s.unused s.runner.calls s.rights
  gone : ∀ mask ∈ s.masks, Disjoint (cores mask) (cores s.unused)
  kept : ∀ c ∈ cores initial, c ∉ cores s.unused → ∃ mask ∈ s.masks, c ∈ cores mask

theorem cores_andNot (x y : UInt64) : cores (x &&& ~~~y) = cores x \ cores y :=
  bits_andNot x.toBitVec y.toBitVec

theorem cores_injective {x y : UInt64} (same : cores x = cores y) : x = y :=
  UInt64.toBitVec_inj.mp (bits_injective same)

theorem exists_lowestCore {x : UInt64} (some : x ≠ 0) : ∃ i, Lowest x.toBitVec i :=
  exists_lowest fun zero => some (UInt64.toBitVec_inj.mp zero)

/-- Without a right operand the mask is empty. -/
theorem cores_mask_zero (left : UInt64) : cores (left &&& ~~~((0 : UInt64) - 1)) = ∅ := by
  have zero : left &&& ~~~((0 : UInt64) - 1) = 0 := by simp
  rw [zero]
  exact bits_zero

/-- Otherwise it is the lowest core of the right operand, if the left one has
    it. -/
theorem mem_mask {initial unused left right : UInt64} {i : Fin 64}
    (first : Earlier initial unused left) (second : Earlier initial unused right)
    (low : Lowest right.toBitVec i) (c : Fin 64) :
    c ∈ cores (left &&& ~~~(right - 1)) ↔ c = i ∧ c ∈ cores left := by
  have bit := mem_andNotPred low left.toBitVec c
  constructor
  · intro among
    obtain ⟨inLeft, same | ⟨above, zero⟩⟩ := bit.mp among
    · exact ⟨same, inLeft⟩
    · exact absurd (second.upper.upward i low.1 c (first.upper.inside inLeft) above) zero
  · rintro ⟨same, inLeft⟩
    exact bit.mpr ⟨inLeft, Or.inl same⟩

theorem earlier_now {initial unused : UInt64} (upper : UpperPart (cores initial) (cores unused)) :
    Earlier initial unused unused := ⟨upper, Finset.Subset.refl _⟩

theorem earlier_less {initial unused less value : UInt64} (earlier : Earlier initial unused value)
    (fewer : cores less ⊆ cores unused) : Earlier initial less value :=
  ⟨earlier.upper, fewer.trans earlier.more⟩

theorem callOk_less {initial unused less right : UInt64} {call : Call}
    (ok : CallOk initial unused right call) (fewer : cores less ⊆ cores unused) :
    CallOk initial less right call := by
  cases call with
  | maskCores id first => exact earlier_less ok fewer
  | clearCore id affinity =>
    obtain ⟨left, shape, first, second⟩ := ok
    exact ⟨left, shape, earlier_less first fewer, earlier_less second fewer⟩
  | _ => trivial

section Lists
variable {initial unused : UInt64} {calls : List Call} {rights : List UInt64}

theorem tracked_less {less : UInt64} (tracked : Tracked initial unused calls rights)
    (fewer : cores less ⊆ cores unused) : Tracked initial less calls rights :=
  ⟨tracked.1, fun k call right here there => callOk_less (tracked.2 k call right here there) fewer⟩

theorem tracked_begin {call : Call} (tracked : Tracked initial unused calls rights)
    (ok : CallOk initial unused 0 call) :
    Tracked initial unused (calls ++ [call]) (rights ++ [0]) := by
  obtain ⟨same, each⟩ := tracked
  refine ⟨by simp [same], ?_⟩
  intro k other right here there
  by_cases old : k < calls.length
  · rw [List.getElem?_append_left old] at here
    rw [List.getElem?_append_left (by omega)] at there
    exact each k other right here there
  · rw [List.getElem?_append_right (by omega)] at here
    rw [List.getElem?_append_right (by omega), same] at there
    rw [List.getElem?_singleton] at here there
    split at here
    · cases here
      simp_all
    · cases here

theorem tracked_load {k : Nat} {next : Call} {loaded : UInt64}
    (tracked : Tracked initial unused calls rights) (ok : CallOk initial unused loaded next) :
    Tracked initial unused (calls.set k next) (rights.set k loaded) := by
  obtain ⟨same, each⟩ := tracked
  refine ⟨by simp [same], ?_⟩
  intro j other right here there
  by_cases this : k = j
  · subst this
    rw [List.getElem?_set] at here there
    simp only [if_true] at here there
    split at here
    · split at there
      · cases here
        cases there
        exact ok
      · cases there
    · cases here
  · rw [List.getElem?_set_ne this] at here there
    exact each j other right here there

/-- The call goes on with the right operand that it has. -/
theorem tracked_next {k : Nat} {next : Call} (tracked : Tracked initial unused calls rights)
    (ok : ∀ right, rights[k]? = some right → CallOk initial unused right next) :
    Tracked initial unused (calls.set k next) rights := by
  cases there : rights[k]? with
  | none =>
    rw [List.getElem?_eq_none_iff, tracked.1] at there
    rw [List.set_eq_of_length_le there]
    exact tracked
  | some right =>
    obtain ⟨inside, here⟩ := List.getElem?_eq_some_iff.mp there
    have kept := tracked_load (k := k) tracked (ok right there)
    rwa [← here, List.set_getElem_self] at kept

theorem tracked_end (k : Nat) (tracked : Tracked initial unused calls rights) :
    Tracked initial unused (calls.eraseIdx k) (rights.eraseIdx k) := by
  obtain ⟨same, each⟩ := tracked
  refine ⟨by simp [List.length_eraseIdx, same], ?_⟩
  intro j other right here there
  rw [List.getElem?_eraseIdx] at here there
  by_cases before : j < k
  · rw [if_pos before] at here there
    exact each j other right here there
  · rw [if_neg before] at here there
    exact each (j + 1) other right here there

end Lists

theorem racy_start (initial : UInt64) : Racy initial (start initial) := by
  refine ⟨upperPart_self _, ⟨rfl, ?_⟩, ?_, ?_⟩
  · intro k call right here
    cases here
  · intro mask among
    cases among
  · intro c inside outside
    exact absurd inside outside

/-- A mask has no core above one that is left. -/
theorem mask_least {initial unused right affinity : UInt64} {id : Option UInt32}
    (ok : CallOk initial unused right (.clearCore id affinity)) :
    ∀ b ∈ cores affinity, ∀ c ∈ cores unused, b ≤ c := by
  obtain ⟨left, rfl, first, second⟩ := ok
  intro b taken c still
  by_cases zero : right = 0
  · rw [zero, cores_mask_zero] at taken
    cases taken
  · obtain ⟨i, low⟩ := exists_lowestCore zero
    rw [((mem_mask first second low b).mp taken).1]
    exact low.2 c (second.more still)

theorem tracked_right {initial : UInt64} {s : Racing} {k : Nat} {call : Call}
    (racy : Racy initial s) (found : s.runner.calls[k]? = some call) :
    ∃ right, s.rights[k]? = some right ∧ CallOk initial s.unused right call := by
  obtain ⟨same, each⟩ := racy.tracked
  obtain ⟨inside, _⟩ := List.getElem?_eq_some_iff.mp found
  have within : k < s.rights.length := by omega
  have there := List.getElem?_eq_getElem within
  exact ⟨_, there, each k call _ found there⟩

/-- The removal of a mask, wherever the call goes on. -/
theorem racy_clear {initial : UInt64} {s t : Racing} {k : Nat} {id : Option UInt32}
    {affinity : UInt64} (racy : Racy initial s)
    (found : s.runner.calls[k]? = some (.clearCore id affinity))
    (unused : t.unused = s.unused &&& ~~~affinity) (masks : t.masks = s.masks ++ [affinity])
    (tracked : cores t.unused ⊆ cores s.unused → Tracked initial t.unused t.runner.calls t.rights) :
    Racy initial t := by
  obtain ⟨right, there, ok⟩ := tracked_right racy found
  have rest : cores t.unused = cores s.unused \ cores affinity := by rw [unused, cores_andNot]
  have fewer : cores t.unused ⊆ cores s.unused := by
    rw [rest]
    exact Finset.sdiff_subset
  refine ⟨?_, tracked fewer, ?_, ?_⟩
  · rw [rest]
    exact upperPart_take racy.upper (mask_least ok)
  · intro mask among
    rw [masks, List.mem_append, List.mem_singleton] at among
    rcases among with old | rfl
    · exact (racy.gone mask old).mono_right fewer
    · rw [rest]
      exact Finset.disjoint_sdiff
  · intro c inside outside
    rw [masks]
    by_cases taken : c ∈ cores affinity
    · exact ⟨affinity, by simp, taken⟩
    · have before : c ∉ cores s.unused := by
        intro still
        rw [rest, Finset.mem_sdiff] at outside
        exact outside ⟨still, taken⟩
      obtain ⟨mask, old, holds⟩ := racy.kept c inside before
      exact ⟨mask, List.mem_append_left _ old, holds⟩

theorem racy_step {initial : UInt64} {s t : Racing} {a : Action} (racy : Racy initial s)
    (run : step s a = some t) : Racy initial t := by
  obtain ⟨upper, tracked, gone, kept⟩ := racy
  cases a with
  | push | pop | pinArbiter =>
    cases run
    exact ⟨upper, tracked_begin tracked trivial, gone, kept⟩
  | advance k rightFirst =>
    simp only [step] at run
    split at run
    · cases run
    · rename_i call found
      cases run
      cases call with
      | testCores id =>
        simp only [advance, Racing.rightsAfter, Racing.masksAfter]
        split
        · cases id with
          | some id => exact ⟨upper, tracked_end k tracked, gone, kept⟩
          | none => exact ⟨upper, tracked_end k tracked, gone, kept⟩
        · exact ⟨upper, tracked_next tracked fun _ _ => trivial, gone, kept⟩
      | loadCores id =>
        exact ⟨upper, tracked_next tracked fun _ _ => earlier_now upper, gone, kept⟩
      | maskCores id first =>
        have loaded := (tracked_right ⟨upper, tracked, gone, kept⟩ found).choose_spec.2
        have now := earlier_now upper
        cases rightFirst with
        | true => exact ⟨upper, tracked_load tracked ⟨_, rfl, now, loaded⟩, gone, kept⟩
        | false => exact ⟨upper, tracked_load tracked ⟨_, rfl, loaded, now⟩, gone, kept⟩
      | clearCore id affinity =>
        refine racy_clear ⟨upper, tracked, gone, kept⟩ found ?_ rfl ?_
        · cases id <;> rfl
        · intro fewer
          cases id with
          | some id => exact tracked_next (tracked_less tracked fewer) fun _ _ => trivial
          | none => exact tracked_end k (tracked_less tracked fewer)
      | emplace id affinity =>
        simp only [advance, Racing.rightsAfter, Racing.masksAfter]
        split
        · exact ⟨upper, tracked_end k tracked, gone, kept⟩
        · exact ⟨upper, tracked_end k tracked, gone, kept⟩
      | popLocked id =>
        simp only [advance, Racing.rightsAfter, Racing.masksAfter]
        split
        · exact ⟨upper, tracked_end k tracked, gone, kept⟩
        · exact ⟨upper, tracked_end k tracked, gone, kept⟩

/-- Only a removal returns a mask. -/
theorem step_masks {s t : Racing} {a : Action} (run : step s a = some t) :
    t.masks = s.masks ∨ ∃ k rightFirst id affinity, a = .advance k rightFirst ∧
      s.runner.calls[k]? = some (.clearCore id affinity) ∧ t.masks = s.masks ++ [affinity] := by
  cases a with
  | advance k rightFirst =>
    simp only [step] at run
    split at run
    · cases run
    · rename_i call found
      cases run
      cases call with
      | clearCore id affinity => exact Or.inr ⟨k, rightFirst, id, affinity, rfl, found, rfl⟩
      | _ => exact Or.inl rfl
  | _ =>
    cases run
    exact Or.inl rfl

/-- The right operand is still the current value, and so the mask is its lowest
    core. -/
theorem mask_current {initial : UInt64} {unused affinity : UInt64} {id : Option UInt32}
    (ok : CallOk initial unused unused (.clearCore id affinity)) (some : unused ≠ 0) :
    ∃ i ∈ cores unused, cores affinity = {i} := by
  obtain ⟨left, rfl, first, second⟩ := ok
  obtain ⟨i, low⟩ := exists_lowestCore some
  refine ⟨i, low.1, ?_⟩
  ext c
  rw [mem_mask first second low, Finset.mem_singleton]
  constructor
  · exact fun both => both.1
  · rintro rfl
    exact ⟨rfl, first.more low.1⟩

theorem allocated_step {initial : UInt64} {s t : Racing} {a : Action} (racy : Racy initial s)
    (allocated : Allocated initial s) (allowed : StepOk s a) (run : step s a = some t) :
    Allocated initial t := by
  have after := racy_step racy run
  rcases step_masks run with masks | ⟨k, rightFirst, id, affinity, rfl, found, masks⟩
  · refine ⟨?_, ?_, after.kept⟩
    · rw [masks]
      exact allocated.apart
    · rw [masks]
      exact allocated.single
  · simp only [StepOk, found] at allowed
    obtain ⟨right, there, ok⟩ := tracked_right racy found
    rw [allowed.1] at there
    cases there
    obtain ⟨i, still, one⟩ := mask_current ok allowed.2
    refine ⟨?_, ?_, after.kept⟩
    · rw [masks, List.pairwise_append]
      refine ⟨allocated.apart, List.pairwise_singleton _ _, ?_⟩
      intro mask old last new
      rw [List.mem_singleton.mp new, one]
      exact (racy.gone mask old).mono_right (Finset.singleton_subset_iff.mpr still)
    · intro mask among
      rw [masks, List.mem_append, List.mem_singleton] at among
      rcases among with old | rfl
      · exact allocated.single mask old
      · exact ⟨i, racy.upper.inside still, one⟩

/-- A removal of a mask that is not up to date breaks the allocation at once. -/
theorem stale_breaks {initial : UInt64} {s t : Racing} {a : Action} (racy : Racy initial s)
    (broken : ¬ StepOk s a) (run : step s a = some t) : ¬ Allocated initial t := by
  intro allocated
  cases a with
  | advance k rightFirst =>
    cases found : s.runner.calls[k]? with
    | none => simp [StepOk, found] at broken
    | some call =>
      cases call with
      | clearCore id affinity =>
        simp only [StepOk, found] at broken
        obtain ⟨right, there, left, rfl, first, second⟩ := tracked_right racy found
        simp only [step, found] at run
        cases run
        obtain ⟨c, inside, one⟩ := allocated.single (left &&& ~~~(right - 1))
          (by simp [Racing.masksAfter])
        have taken : c ∈ cores (left &&& ~~~(right - 1)) := by
          rw [one]
          exact Finset.mem_singleton_self c
        have nonzero : right ≠ 0 := by
          intro zero
          rw [zero, cores_mask_zero] at taken
          cases taken
        obtain ⟨i, low⟩ := exists_lowestCore nonzero
        obtain ⟨rfl, _⟩ := (mem_mask first second low c).mp taken
        -- an earlier call has it already, or no core has gone since the load
        by_cases still : c ∈ cores s.unused
        · have same := upperPart_eq racy.upper second.upper second.more still low.2
          have current := cores_injective same
          subst current
          exact broken ⟨there, nonzero⟩
        · obtain ⟨mask, old, holds⟩ := racy.kept c inside still
          have apart := (List.pairwise_append.mp allocated.apart).2.2 mask old
            (left &&& ~~~(right - 1)) (by simp)
          exact Finset.disjoint_left.mp apart holds taken
      | _ => simp [StepOk, found] at broken
  | _ => exact broken trivial

theorem racy_reaches {initial : UInt64} {s : Racing}
    (walk : Reaches step anyAction (start initial) s) : Racy initial s :=
  reaches_invariant (fun _ _ _ before _ run => racy_step before run) walk (racy_start initial)

/-- Any number of concurrent calls: as long as every call removes its mask while
    `_unused_cores` is as it was when the right operand was loaded, the cores
    are allocated one by one, and the first call that does not breaks this. -/
theorem core_race (initial : UInt64) :
    (∀ s, Reaches step StepOk (start initial) s → Allocated initial s) ∧
    ∀ s a t, Reaches step anyAction (start initial) s → ¬ StepOk s a → step s a = some t →
      ¬ Allocated initial t := by
  constructor
  · intro s walk
    have both := reaches_invariant (I := fun s => Racy initial s ∧ Allocated initial s) ?_ walk
      ⟨racy_start initial, ?_⟩
    · exact both.2
    · rintro s a t ⟨racy, allocated⟩ allowed run
      exact ⟨racy_step racy run, allocated_step racy allocated allowed run⟩
    · exact ⟨.nil, fun mask among => (by cases among), (racy_start initial).kept⟩
  · intro s a t walk broken run
    exact stale_breaks (racy_reaches walk) broken run

/-- Two pushes, the second of which loads its left operand before and its right
    one after the first has removed a core. -/
theorem core_race_overlapping : ∃ s, Allocated 3 s ∧ s.masks = [1, 2] ∧ s.unused = 0 := by
  have run : ∃ s, Reaches step StepOk (start 3) s ∧ s.masks = [1, 2] ∧ s.unused = 0 := by
    refine ⟨_, .head ⟨.push, trivial, rfl⟩ (.head ⟨.push, trivial, rfl⟩
      (.head ⟨.advance 0 false, trivial, rfl⟩ (.head ⟨.advance 1 false, trivial, rfl⟩
      (.head ⟨.advance 0 false, trivial, rfl⟩ (.head ⟨.advance 1 false, trivial, rfl⟩
      (.head ⟨.advance 0 false, trivial, rfl⟩ (.head ⟨.advance 0 false, ⟨rfl, ?_⟩, rfl⟩
      (.head ⟨.advance 1 false, trivial, rfl⟩
        (.single ⟨.advance 1 false, ⟨rfl, ?_⟩, rfl⟩))))))))), rfl, rfl⟩
    · decide
    · decide
  obtain ⟨s, walk, masks, unused⟩ := run
  exact ⟨s, (core_race 3).1 s walk, masks, unused⟩

/-- Step by step at the same time both pushes take core 0. With the right
    operand loaded first and a core removed in between a push takes none. -/
theorem core_taken_twice : (∃ s, Reaches step anyAction (start 3) s ∧ s.masks = [1, 1] ∧
      s.unused = 2 ∧ ¬ Allocated 3 s) ∧
    ∃ s, Reaches step anyAction (start 3) s ∧ s.masks = [1, 0] ∧ ¬ Allocated 3 s := by
  have twice : ∃ s, runActions step [.push, .push, .advance 0 false, .advance 1 false,
      .advance 0 false, .advance 1 false, .advance 0 false, .advance 1 false, .advance 0 false,
      .advance 1 false] (start 3) = some s ∧ s.masks = [1, 1] ∧ s.unused = 2 := ⟨_, rfl, rfl, rfl⟩
  have never : ∃ s, runActions step [.push, .push, .advance 0 false, .advance 1 false,
      .advance 0 false, .advance 1 false, .advance 0 false, .advance 0 false, .advance 1 true,
      .advance 1 false] (start 3) = some s ∧ s.masks = [1, 0] := ⟨_, rfl, rfl⟩
  constructor
  · obtain ⟨s, taken, masks, unused⟩ := twice
    refine ⟨s, runActions_reaches taken, masks, unused, ?_⟩
    intro allocated
    have apart := allocated.apart
    rw [masks, List.pairwise_pair] at apart
    have core : (0 : Fin 64) ∈ cores 1 := mem_bits.mpr rfl
    exact Finset.disjoint_left.mp apart core core
  · obtain ⟨s, taken, masks⟩ := never
    refine ⟨s, runActions_reaches taken, masks, ?_⟩
    intro allocated
    obtain ⟨c, _, one⟩ := allocated.single 0 (by simp [masks])
    have none : cores 0 = ∅ := bits_zero
    rw [none] at one
    exact Finset.singleton_ne_empty c one.symm

end SchedCoreRace
