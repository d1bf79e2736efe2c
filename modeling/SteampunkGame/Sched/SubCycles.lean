import SteampunkGame.Sched.CallOrder

/-!
The calls of whole sub-cycles and the phases they lead a worker through. A
worker that gets at most one job in every sub-cycle is never crowded.
-/
namespace SchedSubCycle
open SchedWorker SchedTracking
variable {W J : Type}

/-- The calls that hand out the jobs of a sub-cycle. -/
def handOut (jobs : List (W × J)) : List (Command W J) :=
  jobs.flatMap fun x => [.assign x.1 x.2, .wake x.1]

def waitForAll (pool : List W) : List (Command W J) := pool.map .waitCycleFinish

def subCycle (pool : List W) (jobs : List (W × J)) : List (Command W J) :=
  handOut jobs ++ waitForAll pool

def subCycles (pool : List W) (work : List (List (W × J))) : List (Command W J) :=
  work.flatMap (subCycle pool)

theorem handOut_cons (x : W × J) (jobs : List (W × J)) :
    handOut (x :: jobs) = .assign x.1 x.2 :: .wake x.1 :: handOut jobs := rfl

theorem handOut_append (xs ys : List (W × J)) : handOut (xs ++ ys) = handOut xs ++ handOut ys :=
  List.flatMap_append

theorem subCycles_split (pool : List W) (work : List (List (W × J))) (k : Nat) :
    subCycles pool (work.take k) ++ subCycles pool (work.drop k) = subCycles pool work := by
  rw [subCycles, subCycles, ← List.flatMap_append, List.take_append_drop]
  rfl

variable [DecidableEq W]

/-- No prefix of the calls crowds the worker. -/
def Uncrowded (w : W) (p : Phase) : List (Command W J) → Prop
  | [] => p ≠ .crowded
  | call :: rest => p ≠ .crowded ∧ Uncrowded w (p.after w call) rest

theorem uncrowded_append {w : W} {p : Phase} {xs ys : List (Command W J)} :
    Uncrowded w p (xs ++ ys) ↔
      Uncrowded w p xs ∧ Uncrowded w (xs.foldl (Phase.after w) p) ys := by
  induction xs generalizing p with
  | nil =>
    constructor
    · intro free
      cases ys with
      | nil => exact ⟨free, free⟩
      | cons call rest => exact ⟨free.1, free⟩
    · exact fun free => free.2
  | cons call rest ih =>
    simp only [List.cons_append, Uncrowded, ih, List.foldl_cons, and_assoc]

theorem uncrowded_mono {w : W} {p : Phase} {xs calls : List (Command W J)}
    (free : Uncrowded w p calls) (made : xs <+: calls) : xs.foldl (Phase.after w) p ≠ .crowded := by
  obtain ⟨rest, eq⟩ := made
  rw [← eq, uncrowded_append] at free
  cases rest with
  | nil => exact free.2
  | cons call rest => exact free.2.1

theorem passed_idle (p : Phase) : ∃ drained, p.passed = .idle drained := by
  cases p with
  | idle drained => exact ⟨drained, rfl⟩
  | alone => exact ⟨true, rfl⟩
  | _ => exact ⟨false, rfl⟩

theorem passed_passed (p : Phase) : p.passed.passed = p.passed := by
  obtain ⟨drained, idle⟩ := passed_idle p
  rw [idle]
  rfl

theorem phase_waitForAll (w : W) (pool : List W) (p : Phase) :
    (waitForAll (J := J) pool).foldl (Phase.after w) p = if w ∈ pool then p.passed else p := by
  induction pool generalizing p with
  | nil => rfl
  | cons v rest ih =>
    rw [waitForAll, List.map_cons, List.foldl_cons, ← waitForAll, ih]
    by_cases same : v = w
    · subst same
      simp [Phase.after, passed_passed]
    · simp [Phase.after, same, Ne.symm same]

theorem uncrowded_waitForAll (w : W) (pool : List W) {p : Phase} (free : p ≠ .crowded) :
    Uncrowded w p (waitForAll (J := J) pool) := by
  induction pool generalizing p with
  | nil => exact free
  | cons v rest ih =>
    refine ⟨free, ih ?_⟩
    unfold Phase.after
    dsimp only
    split
    · obtain ⟨drained, idle⟩ := passed_idle p
      rw [idle]
      exact Phase.noConfusion
    · exact free

theorem phase_handOut_other {w : W} {jobs : List (W × J)} (other : w ∉ jobs.map Prod.fst)
    (p : Phase) : (handOut jobs).foldl (Phase.after w) p = p := by
  induction jobs with
  | nil => rfl
  | cons x rest ih =>
    simp only [List.map_cons, List.mem_cons, not_or] at other
    have away : x.1 ≠ w := Ne.symm other.1
    rw [handOut_cons, List.foldl_cons, List.foldl_cons, after_other (.assign x.1 x.2) away,
      after_other (.wake x.1) away]
    exact ih other.2

theorem uncrowded_handOut_other {w : W} {jobs : List (W × J)} (other : w ∉ jobs.map Prod.fst)
    {p : Phase} (free : p ≠ .crowded) : Uncrowded w p (handOut jobs) := by
  induction jobs with
  | nil => exact free
  | cons x rest ih =>
    simp only [List.map_cons, List.mem_cons, not_or] at other
    have away : x.1 ≠ w := Ne.symm other.1
    rw [handOut_cons, Uncrowded, Uncrowded, after_other (.assign x.1 x.2) away,
      after_other (.wake x.1) away]
    exact ⟨free, free, ih other.2⟩

/-- One job for a waiting worker: handed, then alone. -/
theorem handOut_once {w : W} {jobs : List (W × J)} (once : (jobs.map Prod.fst).Nodup)
    (drained : Bool) : Uncrowded w (.idle drained) (handOut jobs) ∧
      (handOut jobs).foldl (Phase.after w) (.idle drained) =
        if w ∈ jobs.map Prod.fst then .alone else .idle drained := by
  induction jobs with
  | nil => exact ⟨Phase.noConfusion, rfl⟩
  | cons x rest ih =>
    simp only [List.map_cons, List.nodup_cons] at once
    by_cases same : x.1 = w
    · subst same
      rw [handOut_cons, Uncrowded, Uncrowded, List.foldl_cons, List.foldl_cons]
      simp only [Phase.after, if_true, Phase.assigned, Phase.woken]
      rw [phase_handOut_other once.1, if_pos (by simp)]
      exact ⟨⟨Phase.noConfusion, Phase.noConfusion,
        uncrowded_handOut_other once.1 Phase.noConfusion⟩, rfl⟩
    · obtain ⟨free, ends⟩ := ih once.2
      rw [handOut_cons, Uncrowded, Uncrowded, List.foldl_cons, List.foldl_cons,
        after_other (.assign x.1 x.2) same, after_other (.wake x.1) same, ends]
      have still : w ∈ (x :: rest).map Prod.fst ↔ w ∈ rest.map Prod.fst := by
        rw [List.map_cons, List.mem_cons, or_iff_right (Ne.symm same)]
      simp only [still]
      exact ⟨⟨Phase.noConfusion, Phase.noConfusion, free⟩, trivial⟩

theorem phase_subCycle {w : W} {pool : List W} (member : w ∈ pool) (jobs : List (W × J))
    (p : Phase) : ∃ drained, (subCycle pool jobs).foldl (Phase.after w) p = .idle drained := by
  rw [subCycle, List.foldl_append, phase_waitForAll, if_pos member]
  exact passed_idle _

theorem phase_subCycles {w : W} {pool : List W} (member : w ∈ pool) (work : List (List (W × J)))
    (before : Bool) :
    ∃ drained, (subCycles pool work).foldl (Phase.after w) (.idle before) = .idle drained := by
  induction work generalizing before with
  | nil => exact ⟨before, rfl⟩
  | cons jobs rest ih =>
    obtain ⟨between, idle⟩ := phase_subCycle member jobs (.idle before)
    rw [subCycles, List.flatMap_cons, List.foldl_append, idle]
    exact ih between

/-- Once the waits have returned, a worker that got just one job is drained,
    and one that got none is as it was. -/
theorem subCycle_drains {w : W} {pool : List W} (member : w ∈ pool) {jobs : List (W × J)}
    (once : (jobs.map Prod.fst).Nodup) (drained : Bool) :
    (subCycle pool jobs).foldl (Phase.after w) (.idle drained) =
      .idle (decide (w ∈ jobs.map Prod.fst) || drained) := by
  rw [subCycle, List.foldl_append, phase_waitForAll, if_pos member, (handOut_once once drained).2]
  by_cases given : w ∈ jobs.map Prod.fst
  · simp only [given, if_true, decide_true, Bool.true_or]
    rfl
  · simp only [given, if_false, decide_false, Bool.false_or]
    rfl

/-- A sub-cycle that gives every worker at most one job does not crowd any. -/
theorem subCycle_once {w : W} {pool : List W} {jobs : List (W × J)}
    (once : (jobs.map Prod.fst).Nodup) (drained : Bool) :
    Uncrowded w (.idle drained) (subCycle pool jobs) := by
  obtain ⟨free, ends⟩ := handOut_once (w := w) once drained
  rw [subCycle, uncrowded_append, ends]
  refine ⟨free, uncrowded_waitForAll w pool ?_⟩
  split
  · exact Phase.noConfusion
  · exact Phase.noConfusion

theorem subCycles_once {w : W} {pool : List W} (member : w ∈ pool) {work : List (List (W × J))}
    (once : ∀ jobs ∈ work, (jobs.map Prod.fst).Nodup) (drained : Bool) :
    Uncrowded w (.idle drained) (subCycles pool work) := by
  induction work generalizing drained with
  | nil => exact Phase.noConfusion
  | cons jobs rest ih =>
    obtain ⟨between, idle⟩ := phase_subCycle member jobs (.idle drained)
    rw [subCycles, List.flatMap_cons, uncrowded_append, idle]
    exact ⟨subCycle_once (once jobs List.mem_cons_self) drained,
      ih (fun later among => once later (List.mem_cons_of_mem _ among)) between⟩

end SchedSubCycle
