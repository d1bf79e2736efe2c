import SteampunkGame.Lib.Runs
import SteampunkGame.Sched.Runner

/-!
A frame in which the bodies run while it is being assigned. `assign_job` wakes
the worker before it reads the child list, so the body and the read race. The
wait between two sub-cycles is left out, so that bodies may also run late.
-/
namespace SchedTiming
open SchedJob SchedPool SchedWorker SchedRunner Runs
variable {J : Type}

inductive ChildCall (J : Type) where
  | schedule (child : J)
  | erase (child : J)
  deriving DecidableEq, Repr

/-- The next call that a body makes on its own job, from what it sees of the
    graph and the calls it has made. -/
abbrev Bodies (J : Type) := J → JobGraph J → List (ChildCall J) → Option (ChildCall J)

/-- `reading` is a job whose worker was woken and whose children are still to
    be read. `running` holds the bodies under way, `made` what the bodies of
    a job have called, and `reads` counts the reads; no step reads them except
    to extend them. -/
structure Frame (J : Type) where
  st : Assigning J
  todo : List J
  reading : Option J
  running : List (J × List (ChildCall J))
  made : J → List (ChildCall J)
  reads : Nat
  subCycles : List (List J)
  ended : Bool

inductive Action where
  | assign
  | read
  | body (k : Nat)
  | nextSubCycle
  deriving DecidableEq, Repr

abbrev Frame.graph (s : Frame J) : JobGraph J := s.st.runner.graph

/-- The root jobs were copied and none is assigned yet. -/
def start (runner : Runner J) (nextWorkerId : UInt32) : Frame J where
  st := ⟨runner, nextWorkerId, [], []⟩
  todo := runner.rootJobs
  reading := none
  running := []
  made := fun _ => []
  reads := 0
  subCycles := []
  ended := false

/-- The worker lookup of `assign_job`; `none` where the job is dropped. -/
def lookupWorker (pool : WorkerPool) : Nat → UInt32 → Except Fault (UInt32 × Option UInt32)
  | 0, _ => .error .poolMutexHeld
  | free + 1, nextWorkerId =>
      let found := if nextWorkerId = pool.workerIdCounter then 0 else nextWorkerId
      match pool.workers.lookup found with
      | none =>
          if pool.workers = ∅ ∨ found + 1 = 1 then .ok (found + 1, none)
          else lookupWorker pool free (found + 1 - 2)
      | some none => .error .nullWorker
      | some (some _) => .ok (found + 1, some found)

/-- The jobs of a list that the arbiter will assign. -/
def unexited (exited : J → Bool) (jobs : List J) : List J := jobs.filter fun j => !exited j

theorem unexited_append (exited : J → Bool) (xs ys : List J) :
    unexited exited (xs ++ ys) = unexited exited xs ++ unexited exited ys :=
  List.filter_append ..

theorem unexited_cons (exited : J → Bool) {job : J} (rest : List J) (live : exited job = false) :
    unexited exited (job :: rest) = job :: unexited exited rest :=
  List.filter_cons_of_pos (by simp [live])

theorem unexited_skip (exited : J → Bool) {job : J} (rest : List J) (gone : exited job = true) :
    unexited exited (job :: rest) = unexited exited rest :=
  List.filter_cons_of_neg (by simp [gone])

theorem padded_getD (xs : List (List J)) (n k : Nat) :
    (xs ++ List.replicate n []).getD k [] = xs.getD k [] := by
  simp only [List.getD_eq_getElem?_getD, List.getElem?_append, List.getElem?_replicate]
  split
  · rfl
  · rename_i past
    rw [List.getElem?_eq_none (by omega)]
    split <;> rfl

variable [DecidableEq J]

/-- `assign_job` up to the read of the children, with the job that is handed
    to a worker. -/
def assignUntilRead (job : J) (st : Assigning J) : Except Fault (Assigning J × Option J) :=
  if st.runner.graph.exited job then
    match st.runner.erase job with
    | .ok runner => .ok ({ st with runner := runner }, none)
    | .error what => .error (.terminate what)
  else
    match lookupWorker st.runner.pool 1 st.nextWorkerId with
    | .error fault => .error fault
    | .ok (nextWorkerId, none) => .ok ({ st with nextWorkerId := nextWorkerId }, none)
    | .ok (nextWorkerId, some id) => .ok ({ st with
        nextWorkerId := nextWorkerId
        calls := st.calls ++ [.assign id job, .wake id] }, some job)

def readChildren (job : J) (st : Assigning J) : Assigning J :=
  { st with runNext := st.runNext ++ st.runner.graph.children job }

theorem assignJob_lookup (free : Nat) (job : J) (st : Assigning J)
    (running : st.runner.graph.exited job = false) :
    assignJob free job st = match lookupWorker st.runner.pool free st.nextWorkerId with
      | .error fault => .error fault
      | .ok (nextWorkerId, none) => .ok { st with nextWorkerId := nextWorkerId }
      | .ok (nextWorkerId, some id) => .ok (readChildren job { st with
          nextWorkerId := nextWorkerId
          calls := st.calls ++ [.assign id job, .wake id] }) := by
  induction free generalizing st with
  | zero => simp [assignJob, lookupWorker, running]
  | succ free ih =>
    unfold assignJob lookupWorker
    rw [running]
    simp only [Bool.false_eq_true, if_false]
    generalize (if st.nextWorkerId = st.runner.pool.workerIdCounter then (0 : UInt32)
      else st.nextWorkerId) = found
    cases st.runner.pool.workers.lookup found with
    | none =>
      dsimp only
      split
      · rfl
      · exact ih { st with nextWorkerId := found + 1 - 2 } running
    | some entry => cases entry <;> rfl

/-- With nothing between them the two halves are the call. -/
theorem assignJob_halves (job : J) (st : Assigning J) :
    assignJob 1 job st = match assignUntilRead job st with
      | .error fault => .error fault
      | .ok (st, none) => .ok st
      | .ok (st, some job) => .ok (readChildren job st) := by
  unfold assignUntilRead
  cases exited : st.runner.graph.exited job with
  | true =>
    unfold assignJob
    rw [exited]
    simp only [if_true]
    cases st.runner.erase job <;> rfl
  | false =>
    rw [assignJob_lookup 1 job st exited]
    simp only [Bool.false_eq_true, if_false]
    cases lookupWorker st.runner.pool 1 st.nextWorkerId with
    | error fault => rfl
    | ok found =>
      obtain ⟨nextWorkerId, id⟩ := found
      cases id <;> rfl

/-- One call of a body; an exception ends the body. -/
def ChildCall.apply (g : JobGraph J) (self : J) : ChildCall J → Except String (JobGraph J)
  | .schedule child => g.schedule self child
  | .erase child => .ok (g.erase self child)

def bodyStep (bodies : Bodies J) (s : Frame J) (k : Nat) : Option (Frame J) :=
  match s.running[k]? with
  | none => none
  | some (self, calls) =>
      match bodies self s.graph calls with
      | none => some { s with running := s.running.eraseIdx k }
      | some call =>
          match call.apply s.graph self with
          | .error _ => some { s with running := s.running.eraseIdx k }
          | .ok graph => some { s with
              st := { s.st with runner := { s.st.runner with graph := graph } }
              running := s.running.set k (self, calls ++ [call])
              made := Function.update s.made self (s.made self ++ [call]) }

def step (bodies : Bodies J) (s : Frame J) : Action → Option (Frame J)
  | .assign =>
      match s.reading, s.todo with
      | none, job :: rest =>
          match assignUntilRead job s.st with
          | .error _ => none
          | .ok (st, none) => some { s with st := st, todo := rest }
          | .ok (st, some job) => some { s with
              st := st
              todo := rest
              reading := some job
              running := s.running ++ [(job, [])] }
      | _, _ => none
  | .read =>
      match s.reading with
      | none => none
      | some job => some { s with
          st := readChildren job s.st
          reading := none
          reads := s.reads + 1 }
  | .body k => bodyStep bodies s k
  | .nextSubCycle =>
      match s.reading, s.todo, s.ended with
      | none, [], false => some { s with
          st := { s.st with runNext := [], calls := [] }
          todo := s.st.runNext
          subCycles := s.subCycles ++ [assignedJobs s.st.calls]
          ended := s.st.runNext.isEmpty }
      | _, _, _ => none

/-- The children of the job are read after just these calls of its bodies. -/
def ReadAfter (seen : Nat → List (ChildCall J)) (s : Frame J) : Action → Prop
  | .read => ∀ job ∈ s.reading, s.made job = seen s.reads
  | _ => True

instance (seen : Nat → List (ChildCall J)) (s : Frame J) : (a : Action) →
    Decidable (ReadAfter seen s a)
  | .read => inferInstanceAs (Decidable (∀ job ∈ s.reading, s.made job = seen s.reads))
  | .assign | .body _ | .nextSubCycle => inferInstanceAs (Decidable True)

def ChildCall.effect (children : List J) : ChildCall J → List J
  | .schedule child => children ++ [child]
  | .erase child => children.filter (· ≠ child)

/-- A child list after some calls of its job's bodies. -/
def afterCalls (children : List J) (calls : List (ChildCall J)) : List J :=
  calls.foldl ChildCall.effect children

/-- What is known at any time of a frame that a runner began. -/
structure Timed (r : Runner J) (s : Frame J) : Prop where
  exited : s.graph.exited = r.graph.exited
  pool : s.st.runner.pool = r.pool
  children : ∀ j, unexited r.graph.exited (s.graph.children j) =
    unexited r.graph.exited (afterCalls (r.graph.children j) (s.made j))
  ceased : s.ended = true →
    s.todo = [] ∧ s.reading = none ∧ s.st.runNext = [] ∧ s.st.calls = []

/-- The arbiter without the exited jobs it meets. -/
structure View (J : Type) where
  nextWorkerId : UInt32
  calls : List (Command UInt32 J)
  todo : List J
  runNext : List J
  reading : Option J
  reads : Nat
  subCycles : List (List J)

def view (exited : J → Bool) (s : Frame J) : View J where
  nextWorkerId := s.st.nextWorkerId
  calls := s.st.calls
  todo := unexited exited s.todo
  runNext := unexited exited s.st.runNext
  reading := s.reading
  reads := s.reads
  subCycles := s.subCycles

/-- The next step of the arbiter, as far as it depends on what the reads see.
    Past the end of the frame all sub-cycles are empty. -/
def View.next (r : Runner J) (seen : Nat → List (ChildCall J)) (v : View J) : View J :=
  match v.reading with
  | some job => { v with
      runNext := v.runNext ++
        unexited r.graph.exited (afterCalls (r.graph.children job) (seen v.reads))
      reading := none
      reads := v.reads + 1 }
  | none =>
      match v.todo with
      | job :: rest =>
          match lookupWorker r.pool 1 v.nextWorkerId with
          | .error _ => v
          | .ok (nextWorkerId, none) => { v with nextWorkerId := nextWorkerId, todo := rest }
          | .ok (nextWorkerId, some id) => { v with
              nextWorkerId := nextWorkerId
              calls := v.calls ++ [.assign id job, .wake id]
              todo := rest
              reading := some job }
      | [] => { v with
          calls := []
          todo := v.runNext
          runNext := []
          subCycles := v.subCycles ++ [assignedJobs v.calls] }

theorem unexited_effect {exited : J → Bool} {xs ys : List J} (call : ChildCall J)
    (same : unexited exited xs = unexited exited ys) :
    unexited exited (call.effect xs) = unexited exited (call.effect ys) := by
  cases call with
  | schedule child =>
    simp only [ChildCall.effect, unexited_append]
    rw [same]
  | erase child =>
    have swap : ∀ zs : List J, unexited exited (zs.filter (· ≠ child)) =
        (unexited exited zs).filter (· ≠ child) := fun zs => List.filter_comm ..
    simp only [ChildCall.effect, swap]
    rw [same]

/-- An exited job that is removed was none of those to be assigned. -/
theorem unexited_removed {exited : J → Bool} {c : J} (gone : exited c = true) (xs : List J) :
    unexited exited (xs.filter (· ≠ c)) = unexited exited xs := by
  unfold unexited
  rw [List.filter_filter]
  apply List.filter_congr
  intro x _
  by_cases same : x = c
  · simp [same, gone]
  · simp [same]

theorem erase_unexited {exited : J → Bool} {r after : Runner J} {c : J}
    (gone : exited c = true) (run : r.erase c = .ok after) :
    after.graph.exited = r.graph.exited ∧ after.pool = r.pool ∧
      ∀ j, unexited exited (after.graph.children j) = unexited exited (r.graph.children j) := by
  unfold Runner.erase at run
  split at run
  · rename_i p up
    cases run
    refine ⟨rfl, rfl, fun j => ?_⟩
    by_cases same : j = p
    · subst same
      simp only [JobGraph.erase, Function.update_self]
      exact unexited_removed gone _
    · simp only [JobGraph.erase, Function.update_of_ne same]
  · split at run <;> cases run
    exact ⟨rfl, rfl, fun _ => rfl⟩

theorem apply_children {g after : JobGraph J} {self : J} {call : ChildCall J}
    (run : call.apply g self = .ok after) : after.exited = g.exited ∧
      after.children = Function.update g.children self (call.effect (g.children self)) := by
  cases call with
  | schedule child =>
    obtain ⟨_, _, children, exited⟩ := schedule_ok run
    exact ⟨exited, children⟩
  | erase child => cases run; exact ⟨rfl, rfl⟩

theorem timed_start (runner : Runner J) (nextWorkerId : UInt32) :
    Timed runner (start runner nextWorkerId) :=
  ⟨rfl, rfl, fun _ => rfl, fun no => (by cases no)⟩

theorem timed_body {bodies : Bodies J} {r : Runner J} {s t : Frame J} {k : Nat}
    (timed : Timed r s) (run : bodyStep bodies s k = some t) :
    Timed r t ∧ view r.graph.exited t = view r.graph.exited s := by
  obtain ⟨exited, pool, children, ceased⟩ := timed
  unfold bodyStep at run
  split at run
  · cases run
  · rename_i self calls under
    split at run
    · cases run
      exact ⟨⟨exited, pool, children, ceased⟩, rfl⟩
    · rename_i call next
      split at run
      · cases run
        exact ⟨⟨exited, pool, children, ceased⟩, rfl⟩
      · rename_i graph made
        obtain ⟨exits, lists⟩ := apply_children made
        cases run
        refine ⟨⟨exits.trans exited, pool, fun j => ?_, ceased⟩, rfl⟩
        change unexited _ (graph.children j) = _
        rw [lists]
        dsimp only
        by_cases same : j = self
        · subst same
          rw [Function.update_self, Function.update_self, afterCalls, List.foldl_concat]
          exact unexited_effect call (children j)
        · rw [Function.update_of_ne same, Function.update_of_ne same]
          exact children j

/-- All that a returning call does before it reads. -/
theorem assignUntilRead_cases {job : J} {st after : Assigning J} {handed : Option J}
    (run : assignUntilRead job st = .ok (after, handed)) :
    (st.runner.graph.exited job = true ∧ handed = none ∧
      ∃ runner, st.runner.erase job = .ok runner ∧ after = { st with runner := runner }) ∨
    (st.runner.graph.exited job = false ∧ handed = none ∧
      ∃ next, lookupWorker st.runner.pool 1 st.nextWorkerId = .ok (next, none) ∧
        after = { st with nextWorkerId := next }) ∨
    (st.runner.graph.exited job = false ∧ handed = some job ∧
      ∃ next id, lookupWorker st.runner.pool 1 st.nextWorkerId = .ok (next, some id) ∧
        after = { st with
          nextWorkerId := next
          calls := st.calls ++ [.assign id job, .wake id] }) := by
  unfold assignUntilRead at run
  split at run
  · rename_i exited
    split at run <;> cases run
    rename_i runner erased
    exact Or.inl ⟨exited, rfl, runner, erased, rfl⟩
  · rename_i live
    have live : st.runner.graph.exited job = false := by simpa using live
    split at run <;> cases run
    · rename_i next found
      exact Or.inr (Or.inl ⟨live, rfl, next, found, rfl⟩)
    · rename_i next id found
      exact Or.inr (Or.inr ⟨live, rfl, next, id, found, rfl⟩)

theorem timed_assign {bodies : Bodies J} {r : Runner J} {seen : Nat → List (ChildCall J)}
    {s t : Frame J} (timed : Timed r s) (run : step bodies s .assign = some t) :
    Timed r t ∧ (view r.graph.exited t = view r.graph.exited s ∨
      view r.graph.exited t = (view r.graph.exited s).next r seen) := by
  obtain ⟨exited, pool, children, ceased⟩ := timed
  simp only [step] at run
  split at run
  · rename_i job rest reading todo
    have open_ : s.ended ≠ true := fun ended => by
      rw [(ceased ended).1] at todo
      cases todo
    split at run
    · cases run
    · rename_i st assigned
      cases run
      obtain ⟨gone, _, runner, erased, after⟩ | ⟨live, _, next, found, after⟩ | ⟨_, no, _⟩ :=
        assignUntilRead_cases assigned
      · -- an exited job is erased and not seen
        subst after
        rw [show s.st.runner.graph.exited = r.graph.exited from exited] at gone
        obtain ⟨exits, same, lists⟩ := erase_unexited gone erased
        constructor
        · exact ⟨exits.trans exited, same.trans pool, fun j => (lists j).trans (children j),
            fun ended => absurd ended open_⟩
        · left
          simp only [view, todo, unexited_skip _ rest gone]
      · subst after
        constructor
        · exact ⟨exited, pool, children, fun ended => absurd ended open_⟩
        · right
          rw [show s.st.runner.graph.exited = r.graph.exited from exited] at live
          rw [pool] at found
          simp only [view, View.next, reading, todo, unexited_cons _ rest live, found]
      · cases no
    · rename_i st handed assigned
      cases run
      obtain ⟨_, no, _⟩ | ⟨_, no, _⟩ | ⟨live, same, next, id, found, after⟩ :=
        assignUntilRead_cases assigned
      · cases no
      · cases no
      · subst after
        cases same
        constructor
        · exact ⟨exited, pool, children, fun ended => absurd ended open_⟩
        · right
          rw [show s.st.runner.graph.exited = r.graph.exited from exited] at live
          rw [pool] at found
          simp only [view, View.next, reading, todo, unexited_cons _ rest live, found]
  · cases run

theorem timed_read {bodies : Bodies J} {r : Runner J} {seen : Nat → List (ChildCall J)}
    {s t : Frame J} (timed : Timed r s) (ok : ReadAfter seen s .read)
    (run : step bodies s .read = some t) :
    Timed r t ∧ view r.graph.exited t = (view r.graph.exited s).next r seen := by
  obtain ⟨exited, pool, children, ceased⟩ := timed
  simp only [step] at run
  split at run
  · cases run
  · rename_i job reading
    cases run
    constructor
    · refine ⟨exited, pool, children, fun ended => ?_⟩
      rw [(ceased ended).2.1] at reading
      cases reading
    · have read := children job
      rw [ok job reading] at read
      simp only [view, View.next, reading, readChildren, unexited_append, read]

theorem timed_nextSubCycle {bodies : Bodies J} {r : Runner J} {seen : Nat → List (ChildCall J)}
    {s t : Frame J} (timed : Timed r s) (run : step bodies s .nextSubCycle = some t) :
    Timed r t ∧ view r.graph.exited t = (view r.graph.exited s).next r seen := by
  obtain ⟨exited, pool, children, ceased⟩ := timed
  simp only [step] at run
  split at run
  · rename_i reading todo running
    cases run
    constructor
    · refine ⟨exited, pool, children, fun ended => ?_⟩
      have last : s.st.runNext = [] := List.isEmpty_iff.mp ended
      exact ⟨last, reading, rfl, rfl⟩
    · simp only [view, View.next, reading, todo, unexited, List.filter_nil]
  · cases run

theorem timed_step {bodies : Bodies J} {r : Runner J} {seen : Nat → List (ChildCall J)}
    {s t : Frame J} {a : Action} (timed : Timed r s) (ok : ReadAfter seen s a)
    (run : step bodies s a = some t) : Timed r t ∧
      (view r.graph.exited t = view r.graph.exited s ∨
        view r.graph.exited t = (view r.graph.exited s).next r seen) := by
  cases a with
  | assign => exact timed_assign timed run
  | read => exact (timed_read timed ok run).imp_right Or.inr
  | body k => exact (timed_body timed run).imp_right Or.inl
  | nextSubCycle => exact (timed_nextSubCycle timed run).imp_right Or.inr

theorem next_subCycles (r : Runner J) (seen : Nat → List (ChildCall J)) (v : View J) :
    v.subCycles <+: (v.next r seen).subCycles := by
  unfold View.next
  split
  · exact List.prefix_refl _
  · split
    · split <;> exact List.prefix_refl _
    · exact List.prefix_append _ _

theorem iterate_subCycles (r : Runner J) (seen : Nat → List (ChildCall J)) (v : View J) (n : Nat) :
    v.subCycles <+: ((View.next r seen)^[n] v).subCycles := by
  induction n with
  | zero => exact List.prefix_refl _
  | succ n ih =>
    rw [Function.iterate_succ_apply']
    exact ih.trans (next_subCycles r seen _)

/-- A view with nothing left, apart from the sub-cycles it counts. -/
def Spent (v : View J) : Prop :=
  v.todo = [] ∧ v.reading = none ∧ v.runNext = [] ∧ v.calls = []

theorem spent_next (r : Runner J) (seen : Nat → List (ChildCall J)) {v : View J}
    (spent : Spent v) :
    Spent (v.next r seen) ∧ (v.next r seen).subCycles = v.subCycles ++ [[]] := by
  obtain ⟨todo, reading, runNext, calls⟩ := spent
  simp [View.next, Spent, todo, reading, runNext, calls, assignedJobs]

theorem spent_iterate {r : Runner J} {seen : Nat → List (ChildCall J)} {v : View J}
    (spent : Spent v) (n : Nat) : Spent ((View.next r seen)^[n] v) ∧
      ((View.next r seen)^[n] v).subCycles = v.subCycles ++ List.replicate n [] := by
  induction n with
  | zero => exact ⟨spent, (List.append_nil _).symm⟩
  | succ n ih =>
    rw [Function.iterate_succ_apply']
    obtain ⟨still, grown⟩ := spent_next r seen ih.1
    refine ⟨still, ?_⟩
    rw [grown, ih.2, List.append_assoc, ← List.replicate_succ']

theorem timed_spent {r : Runner J} {s : Frame J} (timed : Timed r s) (ended : s.ended = true) :
    Spent (view r.graph.exited s) := by
  obtain ⟨todo, reading, runNext, calls⟩ := timed.ceased ended
  exact ⟨by rw [view, todo]; rfl, reading, by rw [view, runNext]; rfl, calls⟩

/-- One run is at least as far as the other. -/
theorem ahead_subCycles {r : Runner J} {seen : Nat → List (ChildCall J)} {s t : Frame J} {n : Nat}
    (timed : Timed r s)
    (ahead : view r.graph.exited t = (View.next r seen)^[n] (view r.graph.exited s)) :
    s.subCycles <+: t.subCycles ∧
      (s.ended = true → ∀ k, s.subCycles.getD k [] = t.subCycles.getD k []) := by
  have lists : t.subCycles = ((View.next r seen)^[n] (view r.graph.exited s)).subCycles :=
    congrArg View.subCycles ahead
  constructor
  · rw [lists]
    exact iterate_subCycles r seen (view r.graph.exited s) n
  · intro ended k
    rw [lists, (spent_iterate (timed_spent timed ended) n).2]
    exact (padded_getD s.subCycles n k).symm

/-- Two interleavings of one frame in which each read of children comes after
    the same calls of the job's own bodies. Of the jobs that are assigned, the
    calls before a read and no others decide which it finds. -/
theorem same_subCycles {bodies : Bodies J} {seen : Nat → List (ChildCall J)} {runner : Runner J}
    {nextWorkerId : UInt32} {s t : Frame J}
    (first : Reaches (step bodies) (ReadAfter seen) (start runner nextWorkerId) s)
    (second : Reaches (step bodies) (ReadAfter seen) (start runner nextWorkerId) t) :
    (s.subCycles <+: t.subCycles ∨ t.subCycles <+: s.subCycles) ∧
      (s.ended = true → t.ended = true →
        ∀ k, s.subCycles.getD k [] = t.subCycles.getD k []) ∧
      ∀ job, unexited runner.graph.exited (s.graph.children job) =
        unexited runner.graph.exited (afterCalls (runner.graph.children job) (s.made job)) := by
  have begun := timed_start runner nextWorkerId
  have keep : ∀ (u : Frame J) a v, Timed runner u → ReadAfter seen u a → step bodies u a = some v →
      Timed runner v := fun u a v timed ok run => (timed_step timed ok run).1
  have each : ∀ (u : Frame J) a v, Timed runner u → ReadAfter seen u a → step bodies u a = some v →
      view runner.graph.exited v = view runner.graph.exited u ∨
        view runner.graph.exited v = (view runner.graph.exited u).next runner seen :=
    fun u a v timed ok run => (timed_step timed ok run).2
  have here := reaches_invariant keep first begun
  have there := reaches_invariant keep second begun
  have orbit := iterate_comparable (reaches_iterate keep each first begun)
    (reaches_iterate keep each second begun)
  refine ⟨?_, ?_, here.children⟩
  · cases orbit with
    | inl ahead =>
      obtain ⟨n, ahead⟩ := ahead
      exact Or.inl (ahead_subCycles here ahead).1
    | inr behind =>
      obtain ⟨n, behind⟩ := behind
      exact Or.inr (ahead_subCycles there behind).1
  · intro ceased done k
    cases orbit with
    | inl ahead =>
      obtain ⟨n, ahead⟩ := ahead
      exact (ahead_subCycles here ahead).2 ceased k
    | inr behind =>
      obtain ⟨n, behind⟩ := behind
      exact ((ahead_subCycles there behind).2 done k).symm

/-- One root job, whose body schedules a child. -/
def scheduling : Bodies Nat := fun self _ calls =>
  if self = 0 ∧ calls = [] then some (.schedule 1) else none

def oneRoot : Runner Nat := ⟨.initial, [0], filledPool 1⟩

/-- The first read comes after the call. -/
def readLate (k : Nat) : List (ChildCall Nat) := if k = 0 then [.schedule 1] else []

/-- Both times the call comes before the read; the body itself ends before it
    in one run and after it in the other. -/
theorem same_subCycles_scheduling : ∃ s t : Frame Nat,
    Reaches (step scheduling) (ReadAfter readLate) (start oneRoot 0) s ∧
      Reaches (step scheduling) (ReadAfter readLate) (start oneRoot 0) t ∧ s.ended = true ∧
      t.ended = true ∧ s.subCycles = [[0], [1]] ∧
      ∀ k, s.subCycles.getD k [] = t.subCycles.getD k [] := by
  have early : ∃ s, runWithin (step scheduling) (ReadAfter readLate)
      [.assign, .body 0, .body 0, .read, .nextSubCycle, .assign, .read, .nextSubCycle]
      (start oneRoot 0) = some s ∧ s.ended = true ∧ s.subCycles = [[0], [1]] :=
    ⟨_, rfl, rfl, rfl⟩
  have late : ∃ s, runWithin (step scheduling) (ReadAfter readLate)
      [.assign, .body 0, .read, .body 0, .nextSubCycle, .assign, .read, .body 0, .nextSubCycle]
      (start oneRoot 0) = some s ∧ s.ended = true := ⟨_, rfl, rfl⟩
  obtain ⟨s, took, ceased, lists⟩ := early
  obtain ⟨t, taken, done⟩ := late
  have first := runWithin_reaches took
  have second := runWithin_reaches taken
  exact ⟨s, t, first, second, ceased, done, lists, (same_subCycles first second).2.1 ceased done⟩

/-- The body runs once before and once after the read. -/
theorem read_races_body : ∃ s t : Frame Nat,
    Reaches (step scheduling) anyAction (start oneRoot 0) s ∧
      Reaches (step scheduling) anyAction (start oneRoot 0) t ∧ s.ended = true ∧
      t.ended = true ∧ s.running = [] ∧ t.running = [] ∧ s.subCycles = [[0], [1]] ∧
      t.subCycles = [[0]] := by
  have before : ∃ s, runActions (step scheduling) [.assign, .body 0, .body 0, .read, .nextSubCycle,
      .assign, .read, .body 0, .nextSubCycle] (start oneRoot 0) = some s ∧ s.ended = true ∧
      s.running = [] ∧ s.subCycles = [[0], [1]] := ⟨_, rfl, rfl, rfl, rfl⟩
  have after : ∃ t, runActions (step scheduling) [.assign, .read, .body 0, .body 0, .nextSubCycle]
      (start oneRoot 0) = some t ∧ t.ended = true ∧ t.running = [] ∧ t.subCycles = [[0]] :=
    ⟨_, rfl, rfl, rfl, rfl⟩
  obtain ⟨s, took, ceased, idle, lists⟩ := before
  obtain ⟨t, taken, done, rests, short⟩ := after
  exact ⟨s, t, runActions_reaches took, runActions_reaches taken, ceased, done, idle, rests, lists,
    short⟩

end SchedTiming
