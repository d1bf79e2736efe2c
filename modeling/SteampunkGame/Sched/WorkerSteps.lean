import SteampunkGame.Sched.Worker

/-!
What a single step of `worker_main` does to the flags and the mutex, whoever
else uses the worker and whether or not it has been asked to stop.
-/
namespace SchedSteps
open SchedWorker
variable {J : Type}

/-- Program points at which the thread owns the worker's mutex. -/
def holds : WorkerPc J → Bool
  | .loadAwake | .loadActive | .park | .release | .notify | .notifyRelease | .exitNotify
  | .exitRelease => true
  | _ => false

/-- From reading a cleared flag to being notified. -/
def suspending : WorkerPc J → Bool
  | .loadActive | .park | .parked => true
  | _ => false

/-- Between a write of `_awake` and the `notify_one` after it. -/
def notifying : WorkerPc J → Bool
  | .notifyAcquire | .notify | .exitAcquire | .exitNotify => true
  | _ => false

/-- Past the last write of `_awake`. -/
def finished : WorkerPc J → Bool
  | .exitAcquire | .exitNotify | .exitRelease | .terminated => true
  | _ => false

/-- Between the activity check and the write that ends a cycle. -/
def inCycle : WorkerPc J → Bool
  | .tryPop | .executing _ | .clearAwake => true
  | _ => false

/-- The mutex is owned by the thread, by others or by nobody. -/
structure Mutex (t : Thread J) (others : Prop) : Prop where
  locked : t.worker.locked = true ↔ holds t.pc = true ∨ others
  apart : holds t.pc = true → ¬ others

theorem mutex_congr {t : Thread J} {others others' : Prop} (mutex : Mutex t others)
    (same : others' ↔ others) : Mutex t others' := by
  rw [propext same]
  exact mutex

theorem mutex_free {t : Thread J} {others : Prop} (mutex : Mutex t others)
    (away : holds t.pc = false) (free : ¬ others) : t.worker.locked = false := by
  cases locked : t.worker.locked with
  | false => rfl
  | true =>
    cases mutex.locked.mp locked with
    | inl held => exact absurd (held.symm.trans away) Bool.noConfusion
    | inr owned => exact absurd owned free

theorem inCycle_holds {pc : WorkerPc J} (cycles : inCycle pc = true) : holds pc = false := by
  cases pc with
  | tryPop | executing | clearAwake => rfl
  | _ => cases cycles

theorem mutex_acquire {t : Thread J} {others owned : Prop} (mutex : Mutex t others)
    (free : t.worker.locked = false) (takes : owned) : Mutex (t.setLocked true) owned := by
  constructor
  · exact ⟨fun _ => Or.inr takes, fun _ => rfl⟩
  · intro held
    have locked := mutex.locked.mpr (Or.inl held)
    rw [free] at locked
    cases locked

theorem mutex_release {t : Thread J} {others owned : Prop} (mutex : Mutex t others)
    (owns : others) (gives : ¬ owned) : Mutex (t.setLocked false) owned := by
  have away : holds t.pc = false := by
    cases held : holds t.pc with
    | false => rfl
    | true => exact absurd owns (mutex.apart held)
  constructor
  · constructor
    · exact fun no => (by cases no)
    · intro taken
      cases taken with
      | inl held =>
        rw [show holds (t.setLocked false).pc = false from away] at held
        cases held
      | inr keeps => exact absurd keeps gives
  · exact fun _ => gives

theorem workerMain_mutex {threw : Bool} {t t' : Thread J} {e : Effect J} {others : Prop}
    (mutex : Mutex t others) (run : workerMain threw t = some (t', e)) : Mutex t' others := by
  obtain ⟨⟨active, awake, jobs, lock⟩, pc⟩ := t
  obtain ⟨locked, apart⟩ := mutex
  cases pc with
  | acquire | reacquire | notifyAcquire | exitAcquire =>
    -- the step is possible only while nobody owns the mutex
    cases lock with
    | true => cases run
    | false =>
      cases run
      have alone : ¬ others := fun owned => by simpa using locked.mpr (Or.inr owned)
      exact ⟨⟨fun _ => Or.inl rfl, fun _ => rfl⟩, fun _ => alone⟩
  | release | park | notifyRelease | exitRelease =>
    cases run
    have alone : ¬ others := apart rfl
    exact ⟨⟨fun no => (by cases no), fun owned => owned.elim (fun no => (by cases no))
      fun no => absurd no alone⟩, fun no => (by cases no)⟩
  | loadAwake =>
    cases awake <;> cases run <;> exact ⟨locked, apart⟩
  | loadActive =>
    cases active <;> cases run <;> exact ⟨locked, apart⟩
  | checkActive =>
    cases active <;> cases run <;> exact ⟨locked, apart⟩
  | tryPop =>
    cases jobs <;> cases run <;> exact ⟨locked, apart⟩
  | notify | exitNotify | executing | clearAwake | exitClear =>
    cases run
    exact ⟨locked, apart⟩
  | parked | terminated => cases run

/-- Only the wait, the mutex and the end of the thread can stop it. -/
theorem workerMain_enabled {t : Thread J} {others : Prop} (mutex : Mutex t others)
    (free : ¬ others) (runs : t.pc ≠ .parked ∧ t.pc ≠ .terminated) (threw : Bool) :
    ∃ t' e, workerMain threw t = some (t', e) := by
  obtain ⟨⟨active, awake, jobs, lock⟩, pc⟩ := t
  have unlocked : holds pc = false → lock = false := fun away => mutex_free mutex away free
  cases pc with
  | acquire | reacquire | notifyAcquire | exitAcquire =>
    cases unlocked rfl
    exact ⟨_, _, rfl⟩
  | tryPop => cases jobs <;> exact ⟨_, _, rfl⟩
  | parked => exact absurd rfl runs.1
  | terminated => exact absurd rfl runs.2
  | _ => exact ⟨_, _, rfl⟩

theorem unpark_mutex {t : Thread J} {others : Prop} (mutex : Mutex t others) :
    Mutex t.unpark others := by
  obtain ⟨worker, pc⟩ := t
  cases pc <;> exact ⟨mutex.locked, mutex.apart⟩

/-- A notified thread is suspending only on its way to the wait. -/
theorem unpark_suspending {t : Thread J} (sleeps : suspending t.unpark.pc = true) :
    holds t.pc = true := by
  obtain ⟨worker, pc⟩ := t
  cases pc with
  | loadActive | park => rfl
  | _ => cases sleeps

theorem workerMain_active {threw : Bool} {t t' : Thread J} {e : Effect J}
    (run : workerMain threw t = some (t', e)) : t'.worker.active = t.worker.active := by
  obtain ⟨⟨active, awake, jobs, lock⟩, pc⟩ := t
  cases pc with
  | acquire | reacquire | notifyAcquire | exitAcquire =>
    cases lock <;> cases run
    rfl
  | tryPop => cases jobs <;> cases run <;> rfl
  | parked | terminated => cases run
  | _ => cases run; rfl

/-- The flag is kept or cleared, and a thread that clears it will notify. -/
theorem workerMain_awake {threw : Bool} {t t' : Thread J} {e : Effect J}
    (run : workerMain threw t = some (t', e)) :
    t'.worker.awake = t.worker.awake ∨
      t'.worker.awake = false ∧
        (t.pc = .clearAwake ∧ t'.pc = .notifyAcquire ∨
          t.pc = .exitClear ∧ t'.pc = .exitAcquire) := by
  obtain ⟨⟨active, awake, jobs, lock⟩, pc⟩ := t
  cases pc with
  | acquire | reacquire | notifyAcquire | exitAcquire =>
    cases lock <;> cases run
    exact Or.inl rfl
  | tryPop => cases jobs <;> cases run <;> exact Or.inl rfl
  | clearAwake => cases run; exact Or.inr ⟨rfl, Or.inl ⟨rfl, rfl⟩⟩
  | exitClear => cases run; exact Or.inr ⟨rfl, Or.inr ⟨rfl, rfl⟩⟩
  | parked | terminated => cases run
  | _ => cases run; exact Or.inl rfl

theorem workerMain_notifying {threw : Bool} {t t' : Thread J} {e : Effect J}
    (run : workerMain threw t = some (t', e)) (pending : notifying t.pc = true) :
    t'.worker.awake = t.worker.awake ∧
      (notifying t'.pc = true ∨ holds t.pc = true ∧ e = .notifyOne) := by
  obtain ⟨⟨active, awake, jobs, lock⟩, pc⟩ := t
  cases pc with
  | notifyAcquire | exitAcquire =>
    cases lock <;> cases run
    exact ⟨rfl, Or.inl rfl⟩
  | notify | exitNotify => cases run; exact ⟨rfl, Or.inr ⟨rfl, rfl⟩⟩
  | _ => cases pending

/-- Only a thread that read a cleared flag goes to sleep. -/
theorem workerMain_suspending {threw : Bool} {t t' : Thread J} {e : Effect J}
    (run : workerMain threw t = some (t', e)) (sleeps : suspending t'.pc = true) :
    t'.worker.awake = t.worker.awake ∧
      (suspending t.pc = true ∨ holds t.pc = true ∧ t.worker.awake = false) := by
  obtain ⟨⟨active, awake, jobs, lock⟩, pc⟩ := t
  cases pc with
  | loadAwake =>
    cases awake with
    | true => cases run; cases sleeps
    | false => cases run; exact ⟨rfl, Or.inr ⟨rfl, rfl⟩⟩
  | loadActive | park => cases run; exact ⟨rfl, Or.inl rfl⟩
  | acquire | reacquire | notifyAcquire | exitAcquire =>
    cases lock <;> cases run
    cases sleeps
  | tryPop => cases jobs <;> cases run <;> cases sleeps
  | checkActive => cases active <;> cases run <;> cases sleeps
  | parked | terminated => cases run
  | _ => cases run; cases sleeps

/-- The loop is left only over a cleared `_active`. -/
theorem workerMain_gone {threw : Bool} {t t' : Thread J} {e : Effect J}
    (run : workerMain threw t = some (t', e)) (left : t'.pc.gone = true) :
    t.pc.gone = true ∨ t.pc = .checkActive ∧ t.worker.active = false := by
  obtain ⟨⟨active, awake, jobs, lock⟩, pc⟩ := t
  cases pc with
  | checkActive =>
    cases active with
    | true => cases run; cases left
    | false => exact Or.inr ⟨rfl, rfl⟩
  | acquire | reacquire | notifyAcquire =>
    cases lock <;> cases run
    cases left
  | loadAwake => cases awake <;> cases run <;> cases left
  | loadActive => cases active <;> cases run <;> cases left
  | tryPop => cases jobs <;> cases run <;> cases left
  | exitClear | exitAcquire | exitNotify | exitRelease | terminated => exact Or.inl rfl
  | parked => cases run
  | _ => cases run; cases left

/-- The flag is as the last write left it. -/
theorem workerMain_finished {threw : Bool} {t t' : Thread J} {e : Effect J}
    (run : workerMain threw t = some (t', e)) (ceased : finished t'.pc = true) :
    finished t.pc = true ∧ t'.worker.awake = t.worker.awake ∨
      t.pc = .exitClear ∧ t'.worker.awake = false := by
  obtain ⟨⟨active, awake, jobs, lock⟩, pc⟩ := t
  cases pc with
  | exitClear => cases run; exact Or.inr ⟨rfl, rfl⟩
  | exitAcquire =>
    cases lock <;> cases run
    exact Or.inl ⟨rfl, rfl⟩
  | exitNotify | exitRelease => cases run; exact Or.inl ⟨rfl, rfl⟩
  | acquire | reacquire | notifyAcquire =>
    cases lock <;> cases run
    cases ceased
  | loadAwake => cases awake <;> cases run <;> cases ceased
  | loadActive | checkActive => cases active <;> cases run <;> cases ceased
  | tryPop => cases jobs <;> cases run <;> cases ceased
  | parked | terminated => cases run
  | _ => cases run; cases ceased

theorem workerMain_over {threw : Bool} {t t' : Thread J} {e : Effect J}
    (run : workerMain threw t = some (t', e)) (ceased : finished t.pc = true) :
    finished t'.pc = true ∧ t'.worker.awake = t.worker.awake := by
  obtain ⟨⟨active, awake, jobs, lock⟩, pc⟩ := t
  cases pc with
  | exitAcquire =>
    cases lock <;> cases run
    exact ⟨rfl, rfl⟩
  | exitNotify | exitRelease => cases run; exact ⟨rfl, rfl⟩
  | terminated => cases run
  | _ => cases ceased

theorem workerMain_check {threw : Bool} {t t' : Thread J} {e : Effect J}
    (run : workerMain threw t = some (t', e)) (checks : t.pc = .checkActive)
    (off : t.worker.active = false) : t'.pc.gone = true := by
  obtain ⟨⟨active, awake, jobs, lock⟩, pc⟩ := t
  cases checks
  cases off
  cases run
  rfl

theorem workerMain_leaves {threw : Bool} {t t' : Thread J} {e : Effect J}
    (run : workerMain threw t = some (t', e)) (left : t.pc.gone = true) : t'.pc.gone = true := by
  obtain ⟨⟨active, awake, jobs, lock⟩, pc⟩ := t
  cases pc with
  | exitAcquire =>
    cases lock <;> cases run
    rfl
  | exitClear | exitNotify | exitRelease => cases run; rfl
  | terminated => cases run
  | _ => cases left

theorem finished_gone {pc : WorkerPc J} (ceased : finished pc = true) : pc.gone = true := by
  cases pc with
  | exitAcquire | exitNotify | exitRelease | terminated => rfl
  | _ => cases ceased

theorem unpark_gone (t : Thread J) : t.unpark.pc.gone = t.pc.gone := by
  obtain ⟨worker, pc⟩ := t
  cases pc <;> rfl

theorem unpark_finished (t : Thread J) : finished t.unpark.pc = finished t.pc := by
  obtain ⟨worker, pc⟩ := t
  cases pc <;> rfl

/-- A cycle begins only over a set `_active`. -/
theorem workerMain_inCycle {threw : Bool} {t t' : Thread J} {e : Effect J}
    (run : workerMain threw t = some (t', e)) (cycles : inCycle t'.pc = true) :
    inCycle t.pc = true ∨ t.pc = .checkActive ∧ t.worker.active = true := by
  obtain ⟨⟨active, awake, jobs, lock⟩, pc⟩ := t
  cases pc with
  | checkActive =>
    cases active with
    | true => exact Or.inr ⟨rfl, rfl⟩
    | false => cases run; cases cycles
  | tryPop | executing | clearAwake => exact Or.inl rfl
  | acquire | reacquire | notifyAcquire | exitAcquire =>
    cases lock <;> cases run
    cases cycles
  | loadAwake => cases awake <;> cases run <;> cases cycles
  | loadActive => cases active <;> cases run <;> cases cycles
  | parked | terminated => cases run
  | _ => cases run; cases cycles

theorem unpark_inCycle (t : Thread J) : inCycle t.unpark.pc = inCycle t.pc := by
  obtain ⟨worker, pc⟩ := t
  cases pc <;> rfl

end SchedSteps
