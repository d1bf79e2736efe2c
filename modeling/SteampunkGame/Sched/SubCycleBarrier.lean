import SteampunkGame.Sched.SubCycles

/-!
The sub-cycle barrier. It holds in every run in which no worker clears its
flag over a job that it was already woken for. Such a run may fail to be the
only one as soon as one sub-cycle gives a worker two jobs.
-/
namespace SchedBarrier
open SchedWorker SchedSystem SchedTracking SchedOrder SchedSubCycle Runs
variable {W J : Type}

/-- A started worker thread that waits for its first cycle. -/
def suspended : Thread J := ⟨⟨true, false, [], false⟩, .parked⟩

def start (pool : List W) (work : List (List (W × J))) : System W J :=
  launch (fun _ => suspended) (subCycles pool work)

/-- The arbiter has returned from the waits of the first `k` sub-cycles. -/
structure AtBarrier (pool : List W) (work : List (List (W × J))) (k : Nat)
    (s : System W J) : Prop where
  pc : s.pc = .ready
  program : s.program = subCycles pool (work.drop k)

variable [DecidableEq W]

/-- Whenever the waits return, all jobs so far have ended. -/
def Barrier (pool : List W) (work : List (List (W × J))) (s : System W J) : Prop :=
  ∀ k, AtBarrier pool work k s → ∀ w ∈ pool, (s.threads w).worker.jobs = [] ∧
    (s.threads w).pc.inHand = [] ∧ endedBy w s.log = assignedTo w (subCycles pool (work.take k))

/-- Before any start of a job that is not among the first `k` sub-cycles, all
    jobs of these have ended. Workers take their jobs in order, so the number
    of starts before tells to which sub-cycle a job belongs. -/
def InOrder (pool : List W) (work : List (List (W × J))) (s : System W J) : Prop :=
  ∀ k, ∀ w ∈ pool, ∀ before job, before ++ [.started w job] <+: s.log →
    (assignedTo w (subCycles pool (work.take k))).length ≤ (startedBy w before).length →
    ∀ v ∈ pool, assignedTo v (subCycles pool (work.take k)) <+: endedBy v before

def unwokenAfter (w : W) (n : Nat) : Command W J → Nat
  | .assign v _ => if v = w then n + 1 else n
  | .wake v => if v = w then 0 else n
  | .waitCycleFinish _ => n

/-- How many jobs were pushed since the last wake-up store. -/
def unwoken (w : W) (past : List (Command W J)) : Nat := past.foldl (unwokenAfter w) 0

/-- A worker that is about to clear its flag was not yet woken for the jobs
    that are in its queue. -/
def ClearOk (pool : List W) (s : System W J) (a : Action W) : Prop :=
  ∀ w ∈ pool, ∀ threw, a = .worker w threw → (s.threads w).pc = .clearAwake →
    (s.threads w).worker.jobs.length ≤ unwoken w s.past

instance [DecidableEq J] (pool : List W) (s : System W J) (a : Action W) :
    Decidable (ClearOk pool s a) :=
  inferInstanceAs (Decidable (∀ w ∈ pool, ∀ threw, a = .worker w threw →
    (s.threads w).pc = .clearAwake → (s.threads w).worker.jobs.length ≤ unwoken w s.past))

/-- Queued jobs will still be taken. -/
def Woken (w : W) (s : System W J) : Prop :=
  (s.threads w).worker.awake = true ∨ (s.threads w).worker.jobs.length ≤ unwoken w s.past

theorem unwoken_concat (w : W) (past : List (Command W J)) (call : Command W J) :
    unwoken w (past ++ [call]) = unwokenAfter w (unwoken w past) call :=
  List.foldl_concat _ _ _ _

theorem woken_moved {t t' : Thread J} {e : Effect J} {n : Nat} (running : Running t)
    (moved : Moved t t' e) (woken : t.worker.awake = true ∨ t.worker.jobs.length ≤ n)
    (clears : t.pc = .clearAwake → t.worker.jobs.length ≤ n) :
    t'.worker.awake = true ∨ t'.worker.jobs.length ≤ n := by
  cases moved with
  | quiet awake jobs before after drained effect =>
    rw [awake, jobs]
    exact woken
  | popped job rest pc head => exact Or.inl (running.awake (by rw [pc]; rfl))
  | ended job threw pc => exact woken
  | cleared pc => exact Or.inr (clears pc)

theorem woken_stepped {pool : List W} {w : W} {s t : System W J} {a : Action W}
    (running : Running (s.threads w)) (woken : Woken w s) (clearOk : ClearOk pool s a)
    (stepped : Stepped pool s a t) : Woken w t := by
  cases stepped with
  | worker v threw thread effect action member run threads past log remaining =>
    by_cases same : v = w
    · subst same
      obtain ⟨_, moved⟩ := workerMain_moved running run
      have now : t.threads v = thread := by simp [threads]
      unfold Woken
      rw [now, past]
      exact woken_moved running moved woken (clearOk v member threw action)
    · have still : t.threads w = s.threads w := by simp [threads, Ne.symm same]
      unfold Woken
      rw [still, past]
      exact woken
  | assigned v job threads past log remaining =>
    unfold Woken at woken ⊢
    rw [past, unwoken_concat, threads]
    by_cases same : v = w
    · subst same
      simpa [Thread.push, unwokenAfter] using woken
    · simpa [unwokenAfter, same, Ne.symm same] using woken
  | woken v threads past log remaining =>
    unfold Woken at woken ⊢
    rw [past, unwoken_concat, threads]
    by_cases same : v = w
    · subst same
      simp [Thread.setAwake]
    · simpa [unwokenAfter, same, Ne.symm same] using woken
  | passed v asleep threads past log remaining =>
    unfold Woken at woken ⊢
    rw [past, unwoken_concat, threads]
    exact woken
  | calm threads past log remaining =>
    unfold Woken at woken ⊢
    rw [past, (threads w).awake, (threads w).jobs]
    exact woken

theorem unwoken_handOut (w : W) (jobs : List (W × J)) :
    (handOut jobs).foldl (unwokenAfter w) 0 = 0 := by
  induction jobs with
  | nil => rfl
  | cons x rest ih =>
    have pair :
        unwokenAfter w (unwokenAfter w 0 (.assign x.1 x.2)) (.wake x.1 : Command W J) = 0 := by
      by_cases same : x.1 = w
      · simp [unwokenAfter, same]
      · simp [unwokenAfter, same]
    rw [handOut_cons, List.foldl_cons, List.foldl_cons, pair, ih]

theorem unwoken_waitForAll (w : W) (pool : List W) (n : Nat) :
    (waitForAll (J := J) pool).foldl (unwokenAfter w) n = n := by
  induction pool with
  | nil => rfl
  | cons v rest ih => exact ih

theorem unwoken_subCycles (w : W) (pool : List W) (work : List (List (W × J))) :
    unwoken w (subCycles pool work) = 0 := by
  unfold unwoken
  induction work with
  | nil => rfl
  | cons jobs rest ih =>
    rw [subCycles, List.flatMap_cons, ← subCycles, List.foldl_append, subCycle, List.foldl_append,
      unwoken_handOut, unwoken_waitForAll, ih]

/-- After these calls a worker that was woken for all its jobs is drained. -/
def Settled (w : W) (done : List (Command W J)) : Prop :=
  (∃ drained, phase w done = .idle drained) ∧ unwoken w done = 0

theorem settled_drained {w : W} {s : System W J} (tracks : Tracks w s) (woken : Woken w s)
    (settled : Settled w s.past) : Drained (s.threads w) := by
  obtain ⟨⟨drained, idle⟩, none⟩ := settled
  have asleep := tracks_asleep tracks idle
  constructor
  · exact asleep_inHand tracks.running asleep
  · cases woken with
    | inl awake => rw [asleep] at awake; cases awake
    | inr few =>
      rw [none] at few
      exact List.length_eq_zero_iff.mp (Nat.le_zero.mp few)

theorem subCycles_settled {pool : List W} (work : List (List (W × J))) {w : W} (member : w ∈ pool) :
    Settled w (subCycles pool work) :=
  ⟨phase_subCycles member work true, unwoken_subCycles w pool work⟩

/-- What holds in every state of a run whose steps are all `ClearOk`. -/
structure Barred (pool : List W) (program : List (Command W J)) (s : System W J) : Prop where
  coupled : Coupled pool program s
  woken : ∀ w ∈ pool, Woken w s
  ordered : Ordered Settled pool s

theorem barred_stepped {pool : List W} {program : List (Command W J)} {s t : System W J}
    {a : Action W} (barred : Barred pool program s) (clearOk : ClearOk pool s a)
    (stepped : Stepped pool s a t) : Barred pool program t := by
  have coupled := coupled_stepped stepped barred.coupled
  have woken : ∀ w ∈ pool, Woken w t := fun w member =>
    woken_stepped (barred.coupled.tracks w member).running (barred.woken w member) clearOk stepped
  constructor
  · exact coupled
  · exact woken
  · apply ordered_stepped stepped barred.ordered coupled.tracks
    intro w member settled
    exact settled_drained (coupled.tracks w member) (woken w member) settled

theorem suspended_quiescent : Quiescent (suspended : Thread J) := ⟨rfl, rfl, rfl, rfl, rfl⟩

theorem barred_start (pool : List W) (work : List (List (W × J))) :
    Barred pool (subCycles pool work) (start pool work) := by
  constructor
  · exact coupled_launch (fun w _ => suspended_quiescent) _
  · intro w _
    exact Or.inr (Nat.zero_le _)
  · exact ordered_launch _ _

theorem barred_reaches {pool : List W} {work : List (List (W × J))} {s : System W J}
    (walk : Reaches (step pool) (ClearOk pool) (start pool work) s) :
    Barred pool (subCycles pool work) s :=
  reaches_invariant (fun _ _ _ barred clearOk run =>
    barred_stepped barred clearOk (step_stepped run)) walk (barred_start pool work)

theorem barred_barrier {pool : List W} {work : List (List (W × J))} {s : System W J}
    (barred : Barred pool (subCycles pool work) s) : Barrier pool work s := by
  intro k barrier w member
  have past : s.past = subCycles pool (work.take k) := by
    have split := barred.coupled.split
    rw [System.remaining, barrier.pc, barrier.program, ← subCycles_split pool work k] at split
    exact List.append_cancel_right split
  have tracks := barred.coupled.tracks w member
  have drained := settled_drained tracks (barred.woken w member)
    (by rw [past]; exact subCycles_settled _ member)
  rw [← past]
  exact ⟨drained.jobs, drained.inHand, tracks_drained tracks drained⟩

theorem barred_inOrder {pool : List W} {work : List (List (W × J))} {s : System W J}
    (barred : Barred pool (subCycles pool work) s) : InOrder pool work s := by
  intro k w member before job prefixed reached v other
  exact ordered_program barred.ordered barred.coupled member prefixed
    ⟨_, subCycles_split pool work k⟩ reached other (subCycles_settled _ other)

/-- When no worker is crowded, the flag is only cleared over an empty queue. -/
theorem uncrowded_clearOk {pool : List W} {program : List (Command W J)} {s : System W J}
    (coupled : Coupled pool program s) (free : ∀ w ∈ pool, Uncrowded w (.idle true) program)
    (a : Action W) : ClearOk pool s a := by
  intro w member threw _ clears
  have tracks := coupled.tracks w member
  have fits := tracks.fits
  have open_ : phase w s.past ≠ .crowded :=
    uncrowded_mono (free w member) ⟨s.remaining, coupled.split⟩
  have awake := tracks.running.awake (by rw [clears]; rfl)
  cases at_ : phase w s.past with
  | idle drained => rw [tracks_asleep tracks at_] at awake; cases awake
  | handed =>
    rw [at_] at fits
    rw [show (s.threads w).worker.awake = false from fits] at awake
    cases awake
  | alone =>
    rw [at_] at fits
    rw [fits.1 clears]
    exact Nat.zero_le _
  | crowded => exact absurd at_ open_

theorem uncrowded_reaches {pool : List W} {work : List (List (W × J))} {s : System W J}
    (once : ∀ jobs ∈ work, (jobs.map Prod.fst).Nodup)
    (walk : Reaches (step pool) anyAction (start pool work) s) :
    Reaches (step pool) (ClearOk pool) (start pool work) s := by
  have coupled : Coupled pool (subCycles pool work) (start pool work) :=
    coupled_launch (fun w _ => suspended_quiescent) _
  apply reaches_guarded _ _ walk coupled
  · intro _ _ _ coupled _ run
    exact coupled_stepped (step_stepped run) coupled
  · intro _ a coupled _
    exact uncrowded_clearOk coupled (fun w member => subCycles_once member once true) a

end SchedBarrier
