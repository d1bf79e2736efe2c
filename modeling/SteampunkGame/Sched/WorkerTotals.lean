import Mathlib.Algebra.BigOperators.Group.Finset.Piecewise
import Mathlib.Algebra.Order.BigOperators.Group.Finset
import SteampunkGame.Sched.SubCycles

/-!
From what single workers did to what the pool did: how often a job was handed
out, started and ended, and runs in which every worker that is waited for
twice in a row is drained.
-/
namespace SchedTotals
open SchedWorker SchedSystem SchedTracking SchedOrder SchedSubCycle Runs
variable {W J : Type}

def Event.worker : Event W J → W
  | .started w _ => w
  | .ended w _ _ => w

theorem eventsOf_worker {w : W} {effect : Effect J} {e : Event W J}
    (among : e ∈ eventsOf w effect) : Event.worker e = w := by
  cases effect with
  | started job => rw [List.mem_singleton.mp among]; rfl
  | ended job threw => rw [List.mem_singleton.mp among]; rfl
  | _ => cases among

section Counting
variable [DecidableEq J]

def startsOf (job : J) (log : List (Event W J)) : Nat :=
  log.countP fun
    | .started _ j => j = job
    | .ended _ _ _ => false

def endsOf (job : J) (log : List (Event W J)) : Nat :=
  log.countP fun
    | .started _ _ => false
    | .ended _ j _ => j = job

def callsFor (job : J) (calls : List (Command W J)) : Nat := (assignedJobs calls).count job

theorem callsFor_append (job : J) (xs ys : List (Command W J)) :
    callsFor job (xs ++ ys) = callsFor job xs + callsFor job ys := by
  rw [callsFor, assignedJobs, List.filterMap_append, List.count_append]
  rfl

theorem startsOf_append (job : J) (xs ys : List (Event W J)) :
    startsOf job (xs ++ ys) = startsOf job xs + startsOf job ys := List.countP_append

theorem endsOf_append (job : J) (xs ys : List (Event W J)) :
    endsOf job (xs ++ ys) = endsOf job xs + endsOf job ys := List.countP_append

variable [DecidableEq W]

/-- Every element of `xs` counts for exactly one worker of the pool. -/
theorem countP_workers {α : Type} {pool : Finset W} {worker : α → W} (p : α → Bool) {xs : List α}
    (inside : ∀ x ∈ xs, worker x ∈ pool) :
    xs.countP p = ∑ w ∈ pool, xs.countP fun x => decide (worker x = w) && p x := by
  induction xs with
  | nil => simp
  | cons x rest ih =>
    have later := ih fun y among => inside y (List.mem_cons_of_mem x among)
    have once : (∑ w ∈ pool, if (decide (worker x = w) && p x) = true then 1 else 0) =
        if p x then 1 else 0 := by
      have member := inside x List.mem_cons_self
      cases p x with
      | false => simp
      | true => simp [member]
    simp only [List.countP_cons, Finset.sum_add_distrib, ← later, once]

theorem startsOf_workers {pool : Finset W} (job : J) {log : List (Event W J)}
    (inside : ∀ e ∈ log, Event.worker e ∈ pool) :
    startsOf job log = ∑ w ∈ pool, (startedBy w log).count job := by
  rw [startsOf, countP_workers _ inside]
  apply Finset.sum_congr rfl
  intro w _
  rw [startedBy, List.count_filterMap]
  apply List.countP_congr
  intro e _
  cases e with
  | started v j => by_cases same : v = w <;> simp [Event.worker, same]
  | ended v j threw => simp

theorem endsOf_workers {pool : Finset W} (job : J) {log : List (Event W J)}
    (inside : ∀ e ∈ log, Event.worker e ∈ pool) :
    endsOf job log = ∑ w ∈ pool, (endedBy w log).count job := by
  rw [endsOf, countP_workers _ inside]
  apply Finset.sum_congr rfl
  intro w _
  rw [endedBy, List.count_filterMap]
  apply List.countP_congr
  intro e _
  cases e with
  | started v j => simp
  | ended v j threw => by_cases same : v = w <;> simp [Event.worker, same]

theorem callsFor_workers {pool : Finset W} (job : J) {calls : List (Command W J)}
    (inside : ∀ call ∈ calls, call.target ∈ pool) :
    callsFor job calls = ∑ w ∈ pool, (assignedTo w calls).count job := by
  rw [callsFor, assignedJobs, List.count_filterMap, countP_workers _ inside]
  apply Finset.sum_congr rfl
  intro w _
  rw [assignedTo, List.count_filterMap]
  apply List.countP_congr
  intro call _
  cases call with
  | assign v j => by_cases same : v = w <;> simp [Command.target, same]
  | _ => simp

end Counting

variable [DecidableEq W]

/-- Runs without restriction, seen from the phases of the workers. -/
structure Followed (pool : List W) (program : List (Command W J)) (s : System W J) : Prop where
  coupled : Coupled pool program s
  ordered : Ordered (fun w done => phase w done = .idle true) pool s
  inside : ∀ e ∈ s.log, Event.worker e ∈ pool

theorem followed_stepped {pool : List W} {program : List (Command W J)} {s t : System W J}
    {a : Action W} (followed : Followed pool program s) (stepped : Stepped pool s a t) :
    Followed pool program t := by
  have coupled := coupled_stepped stepped followed.coupled
  constructor
  · exact coupled
  · apply ordered_stepped stepped followed.ordered coupled.tracks
    intro w member idle
    exact tracks_idle (coupled.tracks w member) idle
  · intro e among
    cases stepped with
    | worker w threw thread effect action member run threads past log remaining =>
      rw [log, List.mem_append] at among
      cases among with
      | inl earlier => exact followed.inside e earlier
      | inr new =>
        rw [eventsOf_worker new]
        exact member
    | assigned w job threads past log remaining => exact followed.inside e (by rwa [← log])
    | woken w threads past log remaining => exact followed.inside e (by rwa [← log])
    | passed w asleep threads past log remaining => exact followed.inside e (by rwa [← log])
    | calm threads past log remaining => exact followed.inside e (by rwa [← log])

theorem followed_reaches {pool : List W} {threads : W → Thread J} {program : List (Command W J)}
    {s : System W J} (quiescent : ∀ w ∈ pool, Quiescent (threads w))
    (walk : Reaches (step pool) anyAction (launch threads program) s) :
    Followed pool program s := by
  apply reaches_invariant _ walk
  · constructor
    · exact coupled_launch quiescent program
    · exact ordered_launch threads program
    · intro e among
      cases among
  · intro _ _ _ followed _ run
    exact followed_stepped followed (step_stepped run)

theorem stepped_log {pool : List W} {s t : System W J} {a : Action W}
    (stepped : Stepped pool s a t) : t.log = s.log ∨ ∃ e, t.log = s.log ++ [e] := by
  cases stepped with
  | worker w threw thread effect action member run threads past log remaining =>
    cases effect with
    | started job => exact Or.inr ⟨_, log⟩
    | ended job threw => exact Or.inr ⟨_, log⟩
    | _ => exact Or.inl (log.trans (List.append_nil _))
  | assigned w job threads past log remaining => exact Or.inl log
  | woken w threads past log remaining => exact Or.inl log
  | passed w asleep threads past log remaining => exact Or.inl log
  | calm threads past log remaining => exact Or.inl log

/-- Every prefix of the log was the log of an earlier state. -/
theorem log_history {pool : List W} {threads : W → Thread J} {program : List (Command W J)}
    {s : System W J} {before : List (Event W J)}
    (walk : Reaches (step pool) anyAction (launch threads program) s)
    (prefixed : before <+: s.log) :
    ∃ t, Reaches (step pool) anyAction (launch threads program) t ∧ t.log = before := by
  induction walk with
  | refl => exact ⟨_, .refl, (List.prefix_nil.mp prefixed).symm⟩
  | tail walk move ih =>
    obtain ⟨a, _, run⟩ := move
    cases stepped_log (step_stepped run) with
    | inl same => exact ih (by rwa [← same])
    | inr grown =>
      obtain ⟨e, log⟩ := grown
      rw [log, List.prefix_concat_iff, ← log] at prefixed
      cases prefixed with
      | inl now => exact ⟨_, walk.tail ⟨a, trivial, run⟩, now.symm⟩
      | inr earlier => exact ih earlier

theorem tracks_quiescent {w : W} {s : System W J} (tracks : Tracks w s)
    (idle : phase w s.past = .idle true) : Quiescent (s.threads w) := by
  have asleep := tracks_asleep tracks idle
  constructor
  · exact tracks.running.active
  · exact asleep
  · exact (tracks_idle tracks idle).jobs
  · cases busy : (s.threads w).pc.busy with
    | false => rfl
    | true => rw [tracks.running.awake busy] at asleep; cases asleep
  · exact tracks.running.looping

/-- A running job was handed over after the calls whose jobs have all ended. -/
theorem inHand_current {w : W} {s : System W J} {done part : List (Command W J)} {job : J}
    (tracks : Tracks w s) (past : s.past = done ++ part)
    (ended : assignedTo w done <+: endedBy w s.log) (running : (s.threads w).pc = .executing job) :
    job ∈ assignedTo w part := by
  obtain ⟨more, eq⟩ := ended
  have finished := tracks.finished
  rw [past, assignedTo_append, ← eq, running, List.append_assoc, List.append_assoc] at finished
  rw [← List.append_cancel_left finished]
  simp [WorkerPc.inHand]

variable {pool : List W} {program : List (Command W J)} {s : System W J}

theorem inside_toFinset (followed : Followed pool program s) :
    ∀ e ∈ s.log, Event.worker e ∈ pool.toFinset := fun e among =>
  List.mem_toFinset.mpr (followed.inside e among)

variable [DecidableEq J]

theorem starts_le_calls (followed : Followed pool program s)
    (targets : ∀ call ∈ program, call.target ∈ pool) (job : J) :
    startsOf job s.log ≤ callsFor job s.past := by
  have past : ∀ call ∈ s.past, call.target ∈ pool.toFinset := by
    intro call among
    apply List.mem_toFinset.mpr (targets call _)
    rw [← followed.coupled.split]
    exact List.mem_append_left _ among
  rw [startsOf_workers job (inside_toFinset followed), callsFor_workers job past]
  apply Finset.sum_le_sum
  intro w member
  have tracks := followed.coupled.tracks w (List.mem_toFinset.mp member)
  have whole := congrArg (List.count job) tracks.finished
  rw [List.count_append] at whole
  rw [tracks.started]
  omega

theorem calls_le_ends (followed : Followed pool program s) {done : List (Command W J)}
    (targets : ∀ call ∈ done, call.target ∈ pool)
    (ended : ∀ w ∈ pool, assignedTo w done <+: endedBy w s.log) (job : J) :
    callsFor job done ≤ endsOf job s.log := by
  rw [endsOf_workers job (inside_toFinset followed),
    callsFor_workers job fun call among => List.mem_toFinset.mpr (targets call among)]
  apply Finset.sum_le_sum
  intro w member
  exact (ended w (List.mem_toFinset.mp member)).count_le job

theorem drained_counts (followed : Followed pool program s)
    (targets : ∀ call ∈ s.past, call.target ∈ pool)
    (drained : ∀ w ∈ pool, Drained (s.threads w)) (job : J) :
    startsOf job s.log = callsFor job s.past ∧ endsOf job s.log = callsFor job s.past := by
  have inside := inside_toFinset followed
  have ended : endsOf job s.log = callsFor job s.past := by
    rw [endsOf_workers job inside,
      callsFor_workers job fun call among => List.mem_toFinset.mpr (targets call among)]
    apply Finset.sum_congr rfl
    intro w member
    have among := List.mem_toFinset.mp member
    rw [tracks_drained (followed.coupled.tracks w among) (drained w among)]
  constructor
  · rw [← ended, startsOf_workers job inside, endsOf_workers job inside]
    apply Finset.sum_congr rfl
    intro w member
    have among := List.mem_toFinset.mp member
    rw [(followed.coupled.tracks w among).started, (drained w among).inHand, List.append_nil]
  · exact ended

end SchedTotals
