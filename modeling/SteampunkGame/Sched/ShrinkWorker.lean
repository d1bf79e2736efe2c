import SteampunkGame.Sched.PoolShrink

/-!
What a worker that is being popped still does. It is dead when the caller of
`stop` finds its flag cleared, provided that nothing was left behind when
`_active` was cleared.
-/
namespace SchedShrinkWorker
open SchedWorker SchedTracking SchedSteps SchedShrink
open SchedSystem (Calm eventsOf)
open SchedStop (StopPc stop)
variable {J : Type}

/-- A thread that is on its way through a cycle has its flag set, unless it is
    on its way out. -/
def Wakeful (t : Thread J) : Prop :=
  t.pc.busy = true →
    t.worker.awake = true ∨ t.worker.active = false ∧ inCycle t.pc = false

/-- `_active` is cleared and nothing will be left in the queue. -/
def Closing (t : Thread J) : Prop :=
  t.worker.active = false ∧ (t.worker.jobs = [] ∨ draining t.pc = true)

/-- Nothing is left to do and no cycle will begin. -/
structure Dead (t : Thread J) : Prop where
  inactive : t.worker.active = false
  idle : inCycle t.pc = false
  empty : t.worker.jobs = []

/-- A thread that was at most woken. -/
structure Nudged (t t' : Thread J) : Prop where
  active : t'.worker.active = t.worker.active
  awake : t'.worker.awake = t.worker.awake ∨ t'.worker.awake = true
  jobs : t'.worker.jobs = t.worker.jobs
  pc : t'.pc = t.pc ∨ t.pc = .parked ∧ t'.pc = .reacquire

theorem calm_nudged {t t' : Thread J} (calm : Calm t t') : Nudged t t' :=
  ⟨calm.active, Or.inl calm.awake, calm.jobs, calm.pc⟩

theorem nudged_setAwake (t : Thread J) : Nudged t t.setAwake :=
  ⟨rfl, Or.inr rfl, rfl, Or.inl rfl⟩

theorem nudged_refl (t : Thread J) : Nudged t t := calm_nudged (SchedSystem.calm_refl t)

theorem nudged_wakeful {t t' : Thread J} (nudged : Nudged t t') (wakeful : Wakeful t) :
    Wakeful t' := by
  intro busy
  cases nudged.pc with
  | inl same =>
    rw [same] at busy ⊢
    rw [nudged.active]
    cases nudged.awake with
    | inl kept => rw [kept]; exact wakeful busy
    | inr set => exact Or.inl set
  | inr notified => rw [notified.2] at busy; cases busy

theorem nudged_closing {t t' : Thread J} (nudged : Nudged t t') (closing : Closing t) :
    Closing t' := by
  unfold Closing at closing ⊢
  rw [nudged.active, nudged.jobs]
  cases nudged.pc with
  | inl same => rw [same]; exact closing
  | inr notified =>
    rw [notified.1] at closing
    exact ⟨closing.1, closing.2.imp id fun no => (by cases no)⟩

theorem nudged_dead {t t' : Thread J} (nudged : Nudged t t') (dead : Dead t) : Dead t' := by
  obtain ⟨inactive, idle, empty⟩ := dead
  constructor
  · rw [nudged.active]; exact inactive
  · cases nudged.pc with
    | inl same => rw [same]; exact idle
    | inr notified => rw [notified.2]; rfl
  · rw [nudged.jobs]; exact empty

theorem nudged_inHand {t t' : Thread J} (nudged : Nudged t t') : t'.pc.inHand = t.pc.inHand := by
  cases nudged.pc with
  | inl same => rw [same]
  | inr notified => rw [notified.1, notified.2]; rfl

theorem workerMain_wakeful {threw : Bool} {t t' : Thread J} {e : Effect J}
    (run : workerMain threw t = some (t', e)) (wakeful : Wakeful t) : Wakeful t' := by
  obtain ⟨⟨active, awake, jobs, locked⟩, pc⟩ := t
  cases pc with
  | acquire | reacquire | notifyAcquire | exitAcquire =>
    cases locked <;> cases run
    exact fun no => (by cases no)
  | loadAwake =>
    cases awake with
    | true => cases run; exact fun _ => Or.inl rfl
    | false => cases run; exact fun no => (by cases no)
  | loadActive =>
    cases active with
    | true => cases run; exact fun no => (by cases no)
    | false => cases run; exact fun _ => Or.inr ⟨rfl, rfl⟩
  | release => cases run; exact wakeful
  | checkActive =>
    cases active with
    | true =>
      cases run
      exact fun _ => (wakeful rfl).elim Or.inl fun no => (by cases no.1)
    | false => cases run; exact fun no => (by cases no)
  | tryPop =>
    have set : awake = true := (wakeful rfl).elim id fun no => (by cases no.2)
    cases jobs <;> cases run <;> exact fun _ => Or.inl set
  | executing =>
    have set : awake = true := (wakeful rfl).elim id fun no => (by cases no.2)
    cases run
    exact fun _ => Or.inl set
  | parked | terminated => cases run
  | _ => cases run; exact fun no => (by cases no)

/-- What leaves the queue or the hand has ended. -/
theorem workerMain_accounts (id : UInt32) {threw : Bool} {t t' : Thread J} {e : Effect J}
    (run : workerMain threw t = some (t', e)) :
    t.pc.inHand ++ t.worker.jobs =
      endedBy id (eventsOf id e) ++ t'.pc.inHand ++ t'.worker.jobs := by
  obtain ⟨⟨active, awake, jobs, locked⟩, pc⟩ := t
  cases pc with
  | acquire | reacquire | notifyAcquire | exitAcquire => cases locked <;> cases run; rfl
  | loadAwake => cases awake <;> cases run <;> rfl
  | loadActive | checkActive => cases active <;> cases run <;> rfl
  | tryPop => cases jobs <;> cases run <;> rfl
  | executing job =>
    cases run
    simp [eventsOf, endedBy, WorkerPc.inHand]
  | parked | terminated => cases run
  | _ => cases run; rfl

theorem workerMain_closing {threw : Bool} {t t' : Thread J} {e : Effect J}
    (run : workerMain threw t = some (t', e)) (closing : Closing t) : Closing t' := by
  obtain ⟨inactive, emptied⟩ := closing
  refine ⟨(workerMain_active run).trans inactive, ?_⟩
  obtain ⟨⟨active, awake, jobs, locked⟩, pc⟩ := t
  cases pc with
  | tryPop =>
    cases jobs with
    | nil => cases run; exact Or.inl rfl
    | cons job rest => cases run; exact Or.inr rfl
  | executing => cases run; exact Or.inr rfl
  | acquire | reacquire | notifyAcquire | exitAcquire =>
    cases locked <;> cases run
    exact Or.inl (emptied.elim id fun no => (by cases no))
  | parked | terminated => cases run
  | _ => cases run; exact Or.inl (emptied.elim id fun no => (by cases no))

theorem workerMain_dead {threw : Bool} {t t' : Thread J} {e : Effect J}
    (run : workerMain threw t = some (t', e)) (dead : Dead t) : Dead t' := by
  obtain ⟨inactive, idle, empty⟩ := dead
  have still : inCycle t'.pc = false := by
    cases cycles : inCycle t'.pc with
    | false => rfl
    | true =>
      cases workerMain_inCycle run cycles with
      | inl before => exact absurd (idle.symm.trans before) Bool.noConfusion
      | inr checked => exact absurd (inactive.symm.trans checked.2) Bool.noConfusion
  have left := workerMain_accounts 0 run
  rw [empty, List.append_nil] at left
  refine ⟨(workerMain_active run).trans inactive, still, ?_⟩
  cases pc : t.pc with
  | executing job => rw [pc] at idle; cases idle
  | _ =>
    rw [pc] at left
    exact (List.append_eq_nil_iff.mp left.symm).2

theorem dead_inHand {t : Thread J} (dead : Dead t) : t.pc.inHand = [] := by
  cases pc : t.pc with
  | executing job =>
    have idle := dead.idle
    rw [pc] at idle
    cases idle
  | _ => rfl

/-- The caller of `stop` finds the flag cleared only when the thread is past
    its last cycle. -/
theorem asleep_dead {t : Thread J} (wakeful : Wakeful t) (closing : Closing t)
    (asleep : t.worker.awake = false) : Dead t := by
  obtain ⟨inactive, emptied⟩ := closing
  have idle : inCycle t.pc = false := by
    cases cycles : inCycle t.pc with
    | false => rfl
    | true =>
      have busy : t.pc.busy = true := by
        cases pc : t.pc with
        | tryPop | executing | clearAwake => rfl
        | _ => rw [pc] at cycles; cases cycles
      cases wakeful busy with
      | inl set => exact absurd (asleep.symm.trans set) Bool.noConfusion
      | inr out => exact absurd (out.2.symm.trans cycles) Bool.noConfusion
  refine ⟨inactive, idle, emptied.elim id fun drains => ?_⟩
  cases pc : t.pc with
  | tryPop | executing => rw [pc] at idle; cases idle
  | _ => rw [pc] at drains; cases drains

/-- Program points of `stop` behind its first store. -/
def shut : StopPc → Bool
  | .test | .clearActive | .threw _ => false
  | _ => true

/-- Program points of `stop` behind its wait. -/
def waited : StopPc → Bool
  | .release | .returned => true
  | _ => false

theorem stop_nudged {t : Thread J} {w : Worker J} {pc pc' : StopPc} {e : Effect J}
    (run : stop t.worker pc = some (w, pc', e)) (other : pc ≠ .clearActive) :
    Nudged t ⟨w, t.pc⟩ := by
  obtain ⟨⟨active, awake, jobs, locked⟩, at_⟩ := t
  cases pc with
  | clearActive => exact absurd rfl other
  | setAwake => cases run; exact ⟨rfl, Or.inr rfl, rfl, Or.inl rfl⟩
  | acquire | reacquire =>
    cases locked <;> cases run
    exact ⟨rfl, Or.inl rfl, rfl, Or.inl rfl⟩
  | parked | returned | threw => cases run
  | _ => cases run; exact ⟨rfl, Or.inl rfl, rfl, Or.inl rfl⟩

theorem stop_shut {w w' : Worker J} {pc pc' : StopPc} {e : Effect J}
    (run : stop w pc = some (w', pc', e)) (late : shut pc' = true) :
    shut pc = true ∨ pc = .clearActive := by
  cases pc with
  | test =>
    simp only [stop] at run
    split at run <;> cases run <;> cases late
  | clearActive => exact Or.inr rfl
  | threw => cases run
  | _ => exact Or.inl rfl

theorem stop_over {w w' : Worker J} {pc pc' : StopPc} {e : Effect J}
    (run : stop w pc = some (w', pc', e)) (late : waited pc' = true) :
    waited pc = true ∨ pc = .load ∧ w.awake = false := by
  obtain ⟨active, awake, jobs, locked⟩ := w
  cases pc with
  | load =>
    cases awake with
    | true => cases run; cases late
    | false => exact Or.inr ⟨rfl, rfl⟩
  | test => cases active <;> cases run <;> cases late
  | acquire | reacquire => cases locked <;> cases run; cases late
  | release | returned => exact Or.inl rfl
  | parked | threw => cases run
  | _ => cases run; cases late

/-- The first store clears the flag, every other step at most wakes. -/
theorem stop_cases {t : Thread J} {w : Worker J} {pc pc' : StopPc} {e : Effect J}
    (run : stop t.worker pc = some (w, pc', e)) :
    pc = .clearActive ∧ w = { t.worker with active := false } ∨
      pc ≠ .clearActive ∧ Nudged t ⟨w, t.pc⟩ := by
  by_cases first : pc = .clearActive
  · subst first
    cases run
    exact Or.inl ⟨rfl, rfl⟩
  · exact Or.inr ⟨first, stop_nudged run first⟩

theorem stop_jobs {t : Thread J} {w : Worker J} {pc pc' : StopPc} {e : Effect J}
    (run : stop t.worker pc = some (w, pc', e)) : w.jobs = t.worker.jobs := by
  obtain ⟨_, store⟩ | ⟨_, nudged⟩ := stop_cases run
  · rw [store]
  · exact nudged.jobs

theorem stop_wakeful {t : Thread J} {w : Worker J} {pc pc' : StopPc} {e : Effect J}
    (run : stop t.worker pc = some (w, pc', e)) (wakeful : Wakeful t) : Wakeful ⟨w, t.pc⟩ := by
  obtain ⟨_, store⟩ | ⟨_, nudged⟩ := stop_cases run
  · rw [store]
    exact fun busy => (wakeful busy).imp_right fun out => ⟨rfl, out.2⟩
  · exact nudged_wakeful nudged wakeful

theorem stop_dead {t : Thread J} {w : Worker J} {pc pc' : StopPc} {e : Effect J}
    (run : stop t.worker pc = some (w, pc', e)) (dead : Dead t) : Dead ⟨w, t.pc⟩ := by
  obtain ⟨_, store⟩ | ⟨_, nudged⟩ := stop_cases run
  · rw [store]
    exact ⟨rfl, dead.idle, dead.empty⟩
  · exact nudged_dead nudged dead

theorem stop_closing {t : Thread J} {w : Worker J} {pc pc' : StopPc} {e : Effect J}
    (run : stop t.worker pc = some (w, pc', e))
    (safe : pc = .clearActive → t.worker.jobs = [] ∨ draining t.pc = true)
    (closing : shut pc = true → Closing t) (late : shut pc' = true) : Closing ⟨w, t.pc⟩ := by
  obtain ⟨first, store⟩ | ⟨other, nudged⟩ := stop_cases run
  · rw [store]
    exact ⟨rfl, safe first⟩
  · exact nudged_closing nudged (closing ((stop_shut run late).resolve_right other))

theorem stop_waited {t : Thread J} {w : Worker J} {pc pc' : StopPc} {e : Effect J}
    (run : stop t.worker pc = some (w, pc', e)) (wakeful : Wakeful t)
    (closing : shut pc = true → Closing t) (stopped : waited pc = true → Dead t)
    (late : waited pc' = true) : Dead ⟨w, t.pc⟩ := by
  apply stop_dead run
  cases stop_over run late with
  | inl before => exact stopped before
  | inr seen => exact asleep_dead wakeful (closing (by rw [seen.1]; rfl)) seen.2

end SchedShrinkWorker
