/-!
`sched::worker` at the granularity of single atomic loads and stores, queue
operations, mutex operations and condition variable operations. The condition
variable has no state of its own: who waits on it is read off the program
points, and a spurious wake-up is always possible.
-/
namespace SchedWorker
variable {J : Type}

/-- Members shared between the worker thread and its controllers. -/
structure Worker (J : Type) where
  active : Bool
  awake : Bool
  jobs : List J
  locked : Bool
  deriving DecidableEq, Repr

/-- The next step of the thread in `worker_main`. -/
inductive WorkerPc (J : Type) where
  | acquire
  | loadAwake
  | loadActive
  | park
  | parked
  | reacquire
  | release
  | checkActive
  | tryPop
  | executing (job : J)
  | clearAwake
  | notifyAcquire
  | notify
  | notifyRelease
  | exitClear
  | exitAcquire
  | exitNotify
  | exitRelease
  | terminated
  deriving DecidableEq, Repr

/-- What a step of the thread does outside the worker's own members. -/
inductive Effect (J : Type) where
  | silent
  | notifyOne
  | started (job : J)
  | ended (job : J) (threw : Bool)
  deriving DecidableEq, Repr

structure Thread (J : Type) where
  worker : Worker J
  pc : WorkerPc J
  deriving DecidableEq, Repr

/-- One step of `worker_main`. A blocked thread has none. The flag says how a
    running job returns; an exception is caught around `execute`, so both
    outcomes go on with the next `try_pop`. -/
def workerMain (threw : Bool) (t : Thread J) : Option (Thread J × Effect J) :=
  let w := t.worker
  match t.pc with
  | .acquire | .reacquire =>
      if w.locked then none else some (⟨{ w with locked := true }, .loadAwake⟩, .silent)
  | .loadAwake => some (⟨w, if w.awake then .release else .loadActive⟩, .silent)
  | .loadActive => some (⟨w, if w.active then .park else .release⟩, .silent)
  | .park => some (⟨{ w with locked := false }, .parked⟩, .silent)
  | .parked => none
  | .release => some (⟨{ w with locked := false }, .checkActive⟩, .silent)
  | .checkActive => some (⟨w, if w.active then .tryPop else .exitClear⟩, .silent)
  | .tryPop =>
      match w.jobs with
      | [] => some (⟨w, .clearAwake⟩, .silent)
      | job :: rest => some (⟨{ w with jobs := rest }, .executing job⟩, .started job)
  | .executing job => some (⟨w, .tryPop⟩, .ended job threw)
  | .clearAwake => some (⟨{ w with awake := false }, .notifyAcquire⟩, .silent)
  | .notifyAcquire =>
      if w.locked then none else some (⟨{ w with locked := true }, .notify⟩, .silent)
  | .notify => some (⟨w, .notifyRelease⟩, .notifyOne)
  | .notifyRelease => some (⟨{ w with locked := false }, .acquire⟩, .silent)
  | .exitClear => some (⟨{ w with awake := false }, .exitAcquire⟩, .silent)
  | .exitAcquire =>
      if w.locked then none else some (⟨{ w with locked := true }, .exitNotify⟩, .silent)
  | .exitNotify => some (⟨w, .exitRelease⟩, .notifyOne)
  | .exitRelease => some (⟨{ w with locked := false }, .terminated⟩, .silent)
  | .terminated => none

/-- A waiting thread goes on when it is notified or wakes spuriously. -/
def Thread.unpark (t : Thread J) : Thread J :=
  if t.pc matches .parked then { t with pc := .reacquire } else t

def Thread.setLocked (t : Thread J) (locked : Bool) : Thread J :=
  { t with worker := { t.worker with locked := locked } }

def Thread.push (t : Thread J) (job : J) : Thread J :=
  { t with worker := { t.worker with jobs := t.worker.jobs ++ [job] } }

def Thread.setAwake (t : Thread J) : Thread J :=
  { t with worker := { t.worker with awake := true } }

/-- Calls on a worker, in the order in which one controlling thread makes them. -/
inductive Command (W J : Type) where
  | assign (worker : W) (job : J)
  | wake (worker : W)
  | waitCycleFinish (worker : W)
  deriving DecidableEq, Repr

def Command.target {W : Type} : Command W J → W
  | .assign w _ => w
  | .wake w => w
  | .waitCycleFinish w => w

/-- Jobs handed to any worker, in call order. -/
def assignedJobs {W : Type} (calls : List (Command W J)) : List J :=
  calls.filterMap fun
    | .assign _ job => some job
    | _ => none

/-- Between a successful wait and the end of the cycle. -/
def WorkerPc.busy : WorkerPc J → Bool
  | .release | .checkActive | .tryPop | .executing _ | .clearAwake => true
  | _ => false

/-- Past the loop. -/
def WorkerPc.gone : WorkerPc J → Bool
  | .exitClear | .exitAcquire | .exitNotify | .exitRelease | .terminated => true
  | _ => false

/-- The job that is running, if there is one. -/
def WorkerPc.inHand : WorkerPc J → List J
  | .executing job => [job]
  | _ => []

/-- A thread that nobody has asked to stop. While it is in a cycle its flag
    stays set, since only the thread itself clears it. -/
structure Running (t : Thread J) : Prop where
  active : t.worker.active = true
  looping : t.pc.gone = false
  awake : t.pc.busy = true → t.worker.awake = true

/-- What one step of a running thread changes, locks left aside. -/
inductive Moved (t : Thread J) : Thread J → Effect J → Prop where
  | quiet {t' : Thread J} {e : Effect J} (awake : t'.worker.awake = t.worker.awake)
      (jobs : t'.worker.jobs = t.worker.jobs)
      (before : t.pc.inHand = []) (after : t'.pc.inHand = [])
      (drained : t'.pc = .clearAwake → t.worker.jobs = [])
      (effect : e = .silent ∨ e = .notifyOne) : Moved t t' e
  | popped (job : J) (rest : List J) (pc : t.pc = .tryPop) (head : t.worker.jobs = job :: rest) :
      Moved t ⟨{ t.worker with jobs := rest }, .executing job⟩ (.started job)
  | ended (job : J) (threw : Bool) (pc : t.pc = .executing job) :
      Moved t ⟨t.worker, .tryPop⟩ (.ended job threw)
  | cleared (pc : t.pc = .clearAwake) :
      Moved t ⟨{ t.worker with awake := false }, .notifyAcquire⟩ .silent

theorem workerMain_moved {threw : Bool} {t t' : Thread J} {e : Effect J} (running : Running t)
    (run : workerMain threw t = some (t', e)) : Running t' ∧ Moved t t' e := by
  obtain ⟨⟨active, awake, jobs, locked⟩, pc⟩ := t
  obtain ⟨on, looping, busy⟩ := running
  simp only at on looping busy
  subst on
  cases pc with
  | tryPop =>
    cases jobs with
    | nil =>
      cases run
      exact ⟨⟨rfl, rfl, fun _ => busy rfl⟩, .quiet rfl rfl rfl rfl (fun _ => rfl) (Or.inl rfl)⟩
    | cons job rest =>
      cases run
      exact ⟨⟨rfl, rfl, fun _ => busy rfl⟩, .popped job rest rfl rfl⟩
  | executing job =>
    cases run
    exact ⟨⟨rfl, rfl, fun _ => busy rfl⟩, .ended job threw rfl⟩
  | clearAwake =>
    cases run
    exact ⟨⟨rfl, rfl, fun h => by cases h⟩, .cleared rfl⟩
  | acquire | reacquire | notifyAcquire =>
    cases locked with
    | true => cases run
    | false =>
      cases run
      exact ⟨⟨rfl, rfl, fun h => by cases h⟩, .quiet rfl rfl rfl rfl (fun h => by cases h)
        (Or.inl rfl)⟩
  | loadAwake =>
    cases awake with
    | true =>
      cases run
      exact ⟨⟨rfl, rfl, fun _ => rfl⟩, .quiet rfl rfl rfl rfl (fun h => by cases h) (Or.inl rfl)⟩
    | false =>
      cases run
      exact ⟨⟨rfl, rfl, fun h => by cases h⟩, .quiet rfl rfl rfl rfl (fun h => by cases h)
        (Or.inl rfl)⟩
  | release | checkActive =>
    cases run
    exact ⟨⟨rfl, rfl, fun _ => busy rfl⟩, .quiet rfl rfl rfl rfl (fun h => by cases h) (Or.inl rfl)⟩
  | loadActive | park | notifyRelease =>
    cases run
    exact ⟨⟨rfl, rfl, fun h => by cases h⟩, .quiet rfl rfl rfl rfl (fun h => by cases h)
      (Or.inl rfl)⟩
  | notify =>
    cases run
    exact ⟨⟨rfl, rfl, fun h => by cases h⟩, .quiet rfl rfl rfl rfl (fun h => by cases h)
      (Or.inr rfl)⟩
  | parked => cases run
  | exitClear | exitAcquire | exitNotify | exitRelease | terminated => cases looping

/-- A notification leaves everything but the program point of a waiting thread. -/
theorem unpark_worker (t : Thread J) : t.unpark.worker = t.worker := by
  unfold Thread.unpark
  split <;> rfl

theorem unpark_pc (t : Thread J) :
    t.unpark.pc = t.pc ∨ t.pc = .parked ∧ t.unpark.pc = .reacquire := by
  unfold Thread.unpark
  split
  · rename_i waiting
    cases pc : t.pc with
    | parked => exact Or.inr ⟨rfl, rfl⟩
    | _ => simp [pc] at waiting
  · exact Or.inl rfl

end SchedWorker
