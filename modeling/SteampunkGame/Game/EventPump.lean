import Mathlib.Data.List.Nodup

/-!
`game::event_pump` run once a frame by a worker that catches exceptions. A
request is popped only after its callback has returned.
-/
namespace GameEventPump
variable {R : Type}

/-- `invoked` records the callbacks that were called; the code has no such list. -/
structure EventPump (R : Type) where
  requests : List R
  invoked : List R
  deriving DecidableEq, Repr

def EventPump.enqueue (p : EventPump R) (req : R) : EventPump R :=
  { p with requests := p.requests ++ [req] }

/-- The loop of `execute`. An exception leaves it with the pump as it is then. -/
def drain (throws : R → Bool) : List R → List R → Except (EventPump R) (EventPump R)
  | [], invoked => .ok ⟨[], invoked⟩
  | req :: rest, invoked =>
      if throws req then .error ⟨req :: rest, invoked ++ [req]⟩
      else drain throws rest (invoked ++ [req])

def EventPump.execute (throws : R → Bool) (p : EventPump R) :
    Except (EventPump R) (EventPump R) :=
  drain throws p.requests p.invoked

/-- `execute` inside the `try` of `worker_main`. -/
def runOnWorker (throws : R → Bool) (p : EventPump R) : EventPump R :=
  match p.execute throws with
  | .ok p => p
  | .error p => p

def frames (throws : R → Bool) : Nat → EventPump R → EventPump R
  | 0, p => p
  | k + 1, p => runOnWorker throws (frames throws k p)

/-- A pump on which nothing was run yet. -/
def pending (queue : List R) : EventPump R := queue.foldl EventPump.enqueue ⟨[], []⟩

theorem pending_eq (queue : List R) : pending queue = ⟨queue, []⟩ := by
  have general : ∀ before : List R,
      queue.foldl EventPump.enqueue ⟨before, []⟩ = ⟨before ++ queue, []⟩ := by
    induction queue with
    | nil => intro before; rw [List.append_nil]; rfl
    | cons req rest ih => intro before; exact (ih _).trans (by simp)
  exact general []

theorem drain_quiet {throws : R → Bool} {queue : List R} (quiet : ∀ r ∈ queue, throws r = false)
    (rest invoked : List R) :
    drain throws (queue ++ rest) invoked = drain throws rest (invoked ++ queue) := by
  induction queue generalizing invoked with
  | nil => rw [List.nil_append, List.append_nil]
  | cons req later ih =>
    have silent := quiet req List.mem_cons_self
    rw [List.cons_append, drain, silent, if_neg Bool.false_ne_true,
      ih (fun r among => quiet r (List.mem_cons_of_mem req among)), List.append_assoc]
    rfl

/-- Without an exception every frame leaves the queue empty. -/
theorem frames_quiet {throws : R → Bool} {queue : List R} (quiet : ∀ r ∈ queue, throws r = false)
    (k : Nat) : frames throws (k + 1) (pending queue) = ⟨[], queue⟩ := by
  rw [pending_eq]
  induction k with
  | zero =>
    have whole := drain_quiet quiet [] []
    rw [List.append_nil, List.nil_append] at whole
    rw [frames, frames, runOnWorker, EventPump.execute, whole, drain]
  | succ k ih =>
    rw [frames, ih]
    rfl

/-- The first request that throws stays in front and is called in every
    frame, and nothing behind it ever is. -/
theorem frames_blocked {throws : R → Bool} {before behind : List R} {r : R}
    (quiet : ∀ x ∈ before, throws x = false) (fails : throws r = true) (k : Nat) :
    frames throws (k + 1) (pending (before ++ r :: behind)) =
      ⟨r :: behind, before ++ List.replicate (k + 1) r⟩ := by
  rw [pending_eq]
  induction k with
  | zero =>
    rw [frames, frames, runOnWorker, EventPump.execute, drain_quiet quiet, drain, if_pos fails]
    rfl
  | succ k ih =>
    rw [frames, ih, runOnWorker, EventPump.execute, drain, if_pos fails, List.append_assoc,
      ← List.replicate_succ']

theorem first_throwing {throws : R → Bool} {queue : List R} {r : R} (among : r ∈ queue)
    (fails : throws r = true) : ∃ before x behind, queue = before ++ x :: behind ∧
      (∀ y ∈ before, throws y = false) ∧ throws x = true := by
  have found : (queue.find? throws).isSome := by
    rw [List.find?_isSome]
    exact ⟨r, among, fails⟩
  obtain ⟨x, first⟩ := Option.isSome_iff_exists.mp found
  obtain ⟨here, before, behind, split, quiet⟩ := List.find?_eq_some_iff_append.mp first
  exact ⟨before, x, behind, split, fun y mem => by simpa using quiet y mem, here⟩

variable [DecidableEq R]

/-- No callback is called twice, however many frames are run. -/
def AtMostOnce (throws : R → Bool) (queue : List R) : Prop :=
  ∀ k r, (frames throws k (pending queue)).invoked.count r ≤ 1

/-- What stands behind a throwing request is called once, in order, in the
    frames that follow. -/
def NotBlocked (throws : R → Bool) (queue : List R) : Prop :=
  ∀ before r behind, queue = before ++ r :: behind → throws r = true →
    ∃ k, (frames throws k (pending queue)).invoked.filter (· ∈ behind) = behind

theorem atMostOnce_iff {throws : R → Bool} {queue : List R} (distinct : queue.Nodup) :
    AtMostOnce throws queue ↔ ∀ r ∈ queue, throws r = false := by
  constructor
  · intro once r among
    by_contra fails
    obtain ⟨before, x, behind, split, quiet, here⟩ :=
      first_throwing among (by simpa using fails)
    have twice := once 2 x
    rw [split, frames_blocked quiet here 1, List.count_append, List.count_replicate_self] at twice
    omega
  · intro quiet k r
    cases k with
    | zero => rw [frames, pending_eq]; exact Nat.zero_le _
    | succ k =>
      rw [frames_quiet quiet]
      exact List.nodup_iff_count_le_one.mp distinct r

/-- Nothing that stands behind a throwing request is ever called. -/
theorem notBlocked_iff {throws : R → Bool} {queue : List R} (distinct : queue.Nodup) :
    NotBlocked throws queue ↔
      ∀ before r behind, queue = before ++ r :: behind → throws r = true → behind = [] := by
  constructor
  · intro free before r behind split fails
    have among : r ∈ queue := by simp [split]
    obtain ⟨early, x, late, first, quiet, here⟩ := first_throwing among fails
    obtain ⟨k, reached⟩ := free early x late first here
    have apart : ∀ y ∈ early ++ [x], y ∉ late := by
      rw [first, show early ++ x :: late = early ++ [x] ++ late by simp] at distinct
      exact fun y mem later => (List.nodup_append.mp distinct).2.2 y mem y later rfl
    have none : (frames throws k (pending queue)).invoked.filter (· ∈ late) = [] := by
      rw [List.filter_eq_nil_iff]
      intro y called
      cases k with
      | zero => rw [frames, pending_eq] at called; cases called
      | succ k =>
        rw [first, frames_blocked quiet here k, List.mem_append, List.mem_replicate] at called
        have inside : y ∈ early ++ [x] := by
          rw [List.mem_append, List.mem_singleton]
          exact called.imp_right fun same => same.2
        simpa using apart y inside
    -- so the first throwing request is the last of the queue, and `r` is it
    rw [none] at reached
    rw [← reached] at first apart
    cases behind with
    | nil => rfl
    | cons y more =>
      have position : r ∈ early := by
        have lengths := congrArg List.dropLast (split.symm.trans first)
        rw [List.dropLast_concat, List.dropLast_append_of_ne_nil (List.cons_ne_nil _ _)] at lengths
        rw [← lengths]
        simp
      rw [quiet r position] at fails
      cases fails
  · intro last before r behind split fails
    have nothing := last before r behind split fails
    refine ⟨0, ?_⟩
    rw [nothing, frames, pending_eq]
    rfl

/-- The pump meets the requirements for throwing callbacks exactly if none
    throws; requests are only held up when they stand behind one that does. -/
theorem pump_iff {throws : R → Bool} {queue : List R} (distinct : queue.Nodup) :
    (AtMostOnce throws queue ∧ NotBlocked throws queue ↔ ∀ r ∈ queue, throws r = false) ∧
    (NotBlocked throws queue ↔
      ∀ before r behind, queue = before ++ r :: behind → throws r = true → behind = []) := by
  have once : AtMostOnce throws queue ↔ ∀ r ∈ queue, throws r = false := atMostOnce_iff distinct
  constructor
  · constructor
    · intro both
      exact once.mp both.1
    · intro quiet
      refine ⟨once.mpr quiet, (notBlocked_iff distinct).mpr ?_⟩
      intro before r behind split fails
      rw [quiet r (by rw [split]; simp)] at fails
      cases fails
  · exact notBlocked_iff distinct

theorem pump_iff_two : AtMostOnce (fun _ => false) [0, 1] ∧ NotBlocked (fun _ => false) [0, 1] :=
  (pump_iff (by decide)).1.mpr fun _ _ => rfl

/-- A failing request in front of another one: it is called in every frame. -/
theorem failing_request_repeats :
    ¬ (AtMostOnce (fun r => r = 0) [0, 1] ∧ NotBlocked (fun r => r = 0) [0, 1]) := by
  intro both
  have twice := both.1 2 0
  revert twice
  decide

end GameEventPump
