import Mathlib.Logic.Function.Basic
import SteampunkGame.Lib.Runs
import SteampunkGame.Sched.Worker

/-!
The arbiter thread together with the worker threads of a pool. A step is one
atomic load or store, queue operation, mutex operation or condition variable
operation of one thread, and any thread that is not blocked may take the next.
-/
namespace SchedSystem
open SchedWorker Runs
variable {W J : Type}

/-- The next step of the arbiter. When it is `ready`, it begins its next call. -/
inductive ArbiterPc (W : Type) where
  | ready
  | wakeAcquire (worker : W)
  | wakeNotify (worker : W)
  | wakeRelease (worker : W)
  | waitLoad (worker : W)
  | waitPark (worker : W)
  | waitParked (worker : W)
  | waitReacquire (worker : W)
  | waitRelease (worker : W)
  deriving DecidableEq, Repr

inductive Event (W J : Type) where
  | started (worker : W) (job : J)
  | ended (worker : W) (job : J) (threw : Bool)
  deriving DecidableEq, Repr

/-- `past` holds the calls that have taken effect and `log` what the workers
    did, both in time order. No step reads them. -/
structure System (W J : Type) where
  threads : W → Thread J
  program : List (Command W J)
  pc : ArbiterPc W
  past : List (Command W J)
  log : List (Event W J)

inductive Action (W : Type) where
  | worker (worker : W) (threw : Bool)
  | spurious (worker : W)
  | arbiter
  | arbiterSpurious
  deriving DecidableEq, Repr

/-- The part of the current call that has not yet taken effect. -/
def ArbiterPc.inFlight : ArbiterPc W → List (Command W J)
  | .waitLoad w | .waitPark w | .waitParked w | .waitReacquire w => [.waitCycleFinish w]
  | _ => []

/-- Calls that have not yet taken effect. -/
def System.remaining (s : System W J) : List (Command W J) := s.pc.inFlight ++ s.program

def eventsOf (w : W) : Effect J → List (Event W J)
  | .started job => [.started w job]
  | .ended job threw => [.ended w job threw]
  | .silent | .notifyOne => []

variable [DecidableEq W]

def ArbiterPc.unpark (w : W) : ArbiterPc W → ArbiterPc W
  | .waitParked v => if v = w then .waitReacquire v else .waitParked v
  | pc => pc

def System.setThread (s : System W J) (w : W) (t : Thread J) : System W J :=
  { s with threads := Function.update s.threads w t }

/-- `worker::assign`, `worker::wake` and `worker::wait_cycle_finish`. -/
def arbiterStep (s : System W J) : Option (System W J) :=
  match s.pc with
  | .ready =>
      match s.program with
      | [] => none
      | .assign w job :: rest => some { s.setThread w ((s.threads w).push job) with
          program := rest
          past := s.past ++ [.assign w job] }
      | .wake w :: rest => some { s.setThread w (s.threads w).setAwake with
          program := rest
          pc := .wakeAcquire w
          past := s.past ++ [.wake w] }
      | .waitCycleFinish w :: rest =>
          if (s.threads w).worker.locked then none
          else some { s.setThread w ((s.threads w).setLocked true) with
            program := rest
            pc := .waitLoad w }
  | .wakeAcquire w =>
      if (s.threads w).worker.locked then none
      else some { s.setThread w ((s.threads w).setLocked true) with pc := .wakeNotify w }
  | .wakeNotify w => some { s.setThread w (s.threads w).unpark with pc := .wakeRelease w }
  | .wakeRelease w =>
      some { s.setThread w ((s.threads w).setLocked false) with pc := .ready }
  | .waitLoad w =>
      if (s.threads w).worker.awake then some { s with pc := .waitPark w }
      else some { s with
        pc := .waitRelease w
        past := s.past ++ [.waitCycleFinish w] }
  | .waitPark w =>
      some { s.setThread w ((s.threads w).setLocked false) with pc := .waitParked w }
  | .waitParked _ => none
  | .waitReacquire w =>
      if (s.threads w).worker.locked then none
      else some { s.setThread w ((s.threads w).setLocked true) with pc := .waitLoad w }
  | .waitRelease w =>
      some { s.setThread w ((s.threads w).setLocked false) with pc := .ready }

def workerStep (w : W) (threw : Bool) (s : System W J) : Option (System W J) :=
  match workerMain threw (s.threads w) with
  | none => none
  | some (t, effect) => some { s.setThread w t with
      pc := if effect matches .notifyOne then s.pc.unpark w else s.pc
      log := s.log ++ eventsOf w effect }

/-- Only the workers of the pool have threads. -/
def step (pool : List W) (s : System W J) : Action W → Option (System W J)
  | .worker w threw => if w ∈ pool then workerStep w threw s else none
  | .spurious w => if w ∈ pool then some (s.setThread w (s.threads w).unpark) else none
  | .arbiter => arbiterStep s
  | .arbiterSpurious =>
      match s.pc with
      | .waitParked w => some { s with pc := .waitReacquire w }
      | _ => none

/-- A thread of which only the lock changed, or which was notified. -/
structure Calm (t t' : Thread J) : Prop where
  active : t'.worker.active = t.worker.active
  awake : t'.worker.awake = t.worker.awake
  jobs : t'.worker.jobs = t.worker.jobs
  pc : t'.pc = t.pc ∨ t.pc = .parked ∧ t'.pc = .reacquire

theorem calm_refl (t : Thread J) : Calm t t := ⟨rfl, rfl, rfl, Or.inl rfl⟩

theorem calm_locked (t : Thread J) (locked : Bool) : Calm t (t.setLocked locked) :=
  ⟨rfl, rfl, rfl, Or.inl rfl⟩

theorem calm_unpark (t : Thread J) : Calm t t.unpark := by
  constructor
  · rw [unpark_worker]
  · rw [unpark_worker]
  · rw [unpark_worker]
  · exact unpark_pc t

theorem calm_inHand {t t' : Thread J} (calm : Calm t t') : t'.pc.inHand = t.pc.inHand := by
  cases calm.pc with
  | inl same => rw [same]
  | inr notified => rw [notified.1, notified.2]; rfl

theorem calm_clearAwake {t t' : Thread J} (calm : Calm t t') (clears : t'.pc = .clearAwake) :
    t.pc = .clearAwake := by
  cases calm.pc with
  | inl same => rw [← same, clears]
  | inr notified => rw [notified.2] at clears; cases clears

theorem calm_running {t t' : Thread J} (calm : Calm t t') (running : Running t) : Running t' := by
  obtain ⟨active, looping, awake⟩ := running
  constructor
  · rw [calm.active, active]
  · cases calm.pc with
    | inl same => rw [same, looping]
    | inr notified => rw [notified.2]; rfl
  · cases calm.pc with
    | inl same => rw [same, calm.awake]; exact awake
    | inr notified =>
      intro busy
      rw [notified.2] at busy
      cases busy

/-- All that a step can do: a worker moves, one call takes effect, or
    nothing changes but locks and notifications. -/
inductive Stepped (pool : List W) (s : System W J) (a : Action W) (t : System W J) : Prop where
  | worker (w : W) (threw : Bool) (thread : Thread J) (effect : Effect J)
      (action : a = .worker w threw) (member : w ∈ pool)
      (run : workerMain threw (s.threads w) = some (thread, effect))
      (threads : t.threads = Function.update s.threads w thread)
      (past : t.past = s.past) (log : t.log = s.log ++ eventsOf w effect)
      (remaining : t.remaining = s.remaining)
  | assigned (w : W) (job : J)
      (threads : t.threads = Function.update s.threads w ((s.threads w).push job))
      (past : t.past = s.past ++ [.assign w job]) (log : t.log = s.log)
      (remaining : s.remaining = .assign w job :: t.remaining)
  | woken (w : W)
      (threads : t.threads = Function.update s.threads w (s.threads w).setAwake)
      (past : t.past = s.past ++ [.wake w]) (log : t.log = s.log)
      (remaining : s.remaining = .wake w :: t.remaining)
  | passed (w : W) (asleep : (s.threads w).worker.awake = false) (threads : t.threads = s.threads)
      (past : t.past = s.past ++ [.waitCycleFinish w]) (log : t.log = s.log)
      (remaining : s.remaining = .waitCycleFinish w :: t.remaining)
  | calm (threads : ∀ v, Calm (s.threads v) (t.threads v)) (past : t.past = s.past)
      (log : t.log = s.log) (remaining : t.remaining = s.remaining)

theorem unpark_inFlight (w : W) (pc : ArbiterPc W) :
    (pc.unpark w).inFlight (J := J) = pc.inFlight := by
  cases pc with
  | waitParked v =>
    by_cases same : v = w
    · simp [ArbiterPc.unpark, ArbiterPc.inFlight, same]
    · simp [ArbiterPc.unpark, same]
  | _ => rfl

theorem calm_update {threads : W → Thread J} {w : W} {t : Thread J} (calm : Calm (threads w) t)
    (v : W) : Calm (threads v) (Function.update threads w t v) := by
  by_cases same : v = w
  · subst same
    simpa using calm
  · simpa [same] using calm_refl (threads v)

theorem workerStep_stepped {pool : List W} {w : W} {threw : Bool} {s t : System W J}
    (member : w ∈ pool) (run : workerStep w threw s = some t) :
    Stepped pool s (.worker w threw) t := by
  unfold workerStep at run
  split at run
  · cases run
  · rename_i thread effect main
    cases run
    refine .worker w threw thread effect rfl member main rfl rfl rfl ?_
    unfold System.remaining System.setThread
    dsimp only
    split <;> simp [unpark_inFlight]

theorem arbiterStep_stepped {pool : List W} {s t : System W J} (run : arbiterStep s = some t) :
    Stepped pool s .arbiter t := by
  obtain ⟨threads, program, pc, past, log⟩ := s
  cases pc with
  | ready =>
    cases program with
    | nil => cases run
    | cons call rest =>
      cases call with
      | assign w job =>
        cases run
        exact .assigned w job rfl rfl rfl rfl
      | wake w =>
        cases run
        exact .woken w rfl rfl rfl rfl
      | waitCycleFinish w =>
        simp only [arbiterStep] at run
        split at run
        · cases run
        · cases run
          exact .calm (calm_update (calm_locked _ true)) rfl rfl rfl
  | wakeAcquire w | waitReacquire w =>
    simp only [arbiterStep] at run
    split at run
    · cases run
    · cases run
      exact .calm (calm_update (calm_locked _ true)) rfl rfl rfl
  | wakeNotify w =>
    cases run
    exact .calm (calm_update (calm_unpark _)) rfl rfl rfl
  | wakeRelease w | waitPark w | waitRelease w =>
    cases run
    exact .calm (calm_update (calm_locked _ false)) rfl rfl rfl
  | waitLoad w =>
    simp only [arbiterStep] at run
    split at run
    · cases run
      exact .calm (fun v => calm_refl _) rfl rfl rfl
    · rename_i asleep
      cases run
      exact .passed w (by simpa using asleep) rfl rfl rfl rfl
  | waitParked w => cases run

theorem step_stepped {pool : List W} {s t : System W J} {a : Action W}
    (run : step pool s a = some t) : Stepped pool s a t := by
  cases a with
  | worker w threw =>
    simp only [step] at run
    split at run
    · rename_i member
      exact workerStep_stepped member run
    · cases run
  | spurious w =>
    simp only [step] at run
    split at run
    · cases run
      exact .calm (calm_update (calm_unpark _)) rfl rfl rfl
    · cases run
  | arbiter => exact arbiterStep_stepped run
  | arbiterSpurious =>
    simp only [step] at run
    split at run
    · rename_i w waiting
      cases run
      refine .calm (fun v => calm_refl _) rfl rfl ?_
      simp [System.remaining, waiting, ArbiterPc.inFlight]
    · cases run

end SchedSystem
