import SteampunkGame.Sched.LostWakeup
import SteampunkGame.Sched.WorkerPool
import SteampunkGame.Sched.WorkerStop

/-!
`runner::pop_worker` on one thread beside the frames of a running arbiter and
the worker loops. The two share the pool, its mutex and the worker counter;
the members of a worker are also shared with its thread.
-/
namespace SchedShrink
open SchedWorker SchedSystem SchedTracking SchedPool SchedStop
variable {J : Type}

inductive Party where
  | arbiter
  | popper
  deriving DecidableEq, Repr

inductive FrameCall (J : Type) where
  | assignJob (job : J)
  | waitForWorkers
  deriving DecidableEq, Repr

/-- The next step of the arbiter. In `guarded` it makes the worker calls that
    are left in the scope of the lock guard, in `waiting` the call on the
    pointer it got from the pool. -/
inductive FramePc (J : Type) where
  | ready
  | assignTest (job : J)
  | assignCounter (job : J)
  | assignLock (job : J)
  | assignFind (job : J)
  | guarded
  | waitCounter (id : UInt32)
  | waitLock (id : UInt32)
  | waitFind (id : UInt32)
  | waitUnlock (id : UInt32)
  | waiting (id : UInt32)
  deriving DecidableEq, Repr

/-- The next step of the thread that calls `pop_worker`. -/
inductive PopPc where
  | ready
  | lock (id : UInt32)
  | take (id : UInt32)
  | stopping (id : UInt32) (pc : StopPc)
  | unlock
  deriving DecidableEq, Repr

/-- `sys` holds the workers and the part of the current call that is made on
    one of them. -/
structure Popping (J : Type) where
  sys : System UInt32 J
  pool : WorkerPool
  poolMutex : Option Party
  nextWorkerId : UInt32
  program : List (FrameCall J)
  frame : FramePc J
  popper : PopPc
  destroyed : UInt32 → Bool

/-- Neither inside a call on a worker nor about to make one. -/
def returned (sys : System UInt32 J) : Bool :=
  match sys.pc, sys.program with
  | .ready, [] => true
  | _, _ => false

def Popping.calling (s : Popping J) (calls : List (Command UInt32 J)) (pc : FramePc J) :
    Popping J :=
  { s with sys := { s.sys with program := calls }, frame := pc }

/-- A step of `worker::assign`, `wake` or `wait_cycle_finish`. -/
def Popping.called (s : Popping J) : Option (Popping J) :=
  match arbiterStep s.sys with
  | none => none
  | some sys => some { s with sys := sys }

/-- `runner::assign_job` and `runner::wait_for_workers`. The flag is what the
    job says of itself. -/
def frameStep (exited : Bool) (s : Popping J) : Option (Popping J) :=
  match s.frame with
  | .ready =>
      match s.program with
      | [] => none
      | .assignJob job :: rest => some { s with program := rest, frame := .assignTest job }
      | .waitForWorkers :: rest => some { s with program := rest, frame := .waitCounter 0 }
  | .assignTest job =>
      if exited then
        -- the erased job concerns no worker; an outer call still owns the mutex
        if s.poolMutex = some .arbiter then some (s.calling [] .guarded)
        else some { s with frame := .ready }
      else some { s with frame := .assignCounter job }
  | .assignCounter job =>
      some { s with
        nextWorkerId := if s.nextWorkerId = s.pool.workerIdCounter then 0 else s.nextWorkerId
        frame := .assignLock job }
  | .assignLock job =>
      if s.poolMutex = none then
        some { s with poolMutex := some .arbiter, frame := .assignFind job }
      else none
  | .assignFind job =>
      let id := s.nextWorkerId
      match s.pool.workers.lookup id with
      | some _ =>
          some { s.calling [.assign id job, .wake id] .guarded with nextWorkerId := id + 1 }
      | none =>
          if s.pool.workers = ∅ ∨ id + 1 = 1 then
            some { s.calling [] .guarded with nextWorkerId := id + 1 }
          -- the inner call will ask for a mutex that this thread owns
          else some { s with nextWorkerId := id + 1 - 2, frame := .assignTest job }
  | .guarded =>
      if returned s.sys then some { s with poolMutex := none, frame := .ready } else s.called
  | .waitCounter id =>
      some { s with frame := if id < s.pool.workerIdCounter then .waitLock id else .ready }
  | .waitLock id =>
      if s.poolMutex = none then
        some { s with poolMutex := some .arbiter, frame := .waitFind id }
      else none
  | .waitFind id =>
      match s.pool.workers.lookup id with
      | some _ => some { s with frame := .waitUnlock id }
      | none => some (s.calling [] .guarded)
  | .waitUnlock id =>
      some { s.calling [.waitCycleFinish id] (.waiting id) with poolMutex := none }
  | .waiting id =>
      if returned s.sys then some { s with frame := .waitCounter (id + 1) } else s.called

def Popping.tellThread (s : Popping J) (id : UInt32) : Popping J :=
  { s with sys := s.sys.setThread id (s.sys.threads id).unpark }

def Popping.tellArbiter (s : Popping J) (id : UInt32) : Popping J :=
  { s with sys := { s.sys with pc := s.sys.pc.unpark id } }

def PopPc.unpark (id : UInt32) : PopPc → PopPc
  | .stopping v pc => if v = id then .stopping v pc.unpark else .stopping v pc
  | pc => pc

def Popping.tellPopper (s : Popping J) (id : UInt32) : Popping J :=
  { s with popper := s.popper.unpark id }

def parked : WorkerPc J → Bool
  | .parked => true
  | _ => false

/-- `notify_one` of the worker's thread. Where two wait, either may be woken. -/
def Popping.threadNotifies (s : Popping J) (id : UInt32) (other : Bool) : Popping J :=
  if s.sys.pc = .waitParked id ∧ (other = false ∨ s.popper ≠ .stopping id .parked) then
    s.tellArbiter id
  else s.tellPopper id

/-- `notify_one` of `worker::stop`. -/
def Popping.stopNotifies (s : Popping J) (id : UInt32) (other : Bool) : Popping J :=
  if s.sys.pc = .waitParked id ∧ (other = false ∨ parked (s.sys.threads id).pc = false) then
    s.tellArbiter id
  else s.tellThread id

/-- A step of `worker::stop`, called from the destructor. -/
def Popping.stops (s : Popping J) (id : UInt32) (pc : StopPc) (other : Bool) : Option (Popping J) :=
  match stop (s.sys.threads id).worker pc with
  | none => none
  | some (w, pc, effect) =>
      let t := { s with
        sys := s.sys.setThread id ⟨w, (s.sys.threads id).pc⟩
        popper := .stopping id pc }
      some (if effect matches .notifyOne then t.stopNotifies id other else t)

/-- `runner::pop_worker`. The worker is destroyed at the end of the scope, before
    the lock guard. -/
def popStep (other : Bool) (s : Popping J) : Option (Popping J) :=
  match s.popper with
  | .ready =>
      let id := s.pool.workerIdCounter - 1
      some { s with pool := { s.pool with workerIdCounter := id }, popper := .lock id }
  | .lock id =>
      if s.poolMutex = none then
        some { s with poolMutex := some .popper, popper := .take id }
      else none
  | .take id =>
      if s.pool.workers = ∅ then some { s with popper := .unlock }
      else some { s with
        pool := { s.pool with workers := s.pool.workers.erase id }
        popper :=
          match s.pool.workers.lookup id with
          | some (some _) => .stopping id .test
          | _ => .unlock }
  | .stopping id .returned =>
      some { s with popper := .unlock, destroyed := Function.update s.destroyed id true }
  | .stopping id pc => s.stops id pc other
  | .unlock => some { s with poolMutex := none, popper := .ready }

def workerStep (id : UInt32) (threw other : Bool) (s : Popping J) : Option (Popping J) :=
  match workerMain threw (s.sys.threads id) with
  | none => none
  | some (thread, effect) =>
      let t := { s with
        sys := { s.sys.setThread id thread with log := s.sys.log ++ eventsOf id effect } }
      some (if effect matches .notifyOne then t.threadNotifies id other else t)

inductive Action where
  | worker (id : UInt32) (threw other : Bool)
  | spurious (id : UInt32)
  | arbiter (exited : Bool)
  | arbiterSpurious (id : UInt32)
  | pop (other : Bool)
  | popSpurious (id : UInt32)
  deriving DecidableEq, Repr

/-- Only the `n` workers of the pool have threads; those of destroyed workers
    run on. -/
def step (n : UInt32) (s : Popping J) : Action → Option (Popping J)
  | .worker id threw other => if id < n then workerStep id threw other s else none
  | .spurious id => if id < n then some (s.tellThread id) else none
  | .arbiter exited => frameStep exited s
  | .arbiterSpurious id => some (s.tellArbiter id)
  | .pop other => popStep other s
  | .popSpurious id => some (s.tellPopper id)

/-- Between two frames, with no `pop_worker` begun. -/
def start (pool : WorkerPool) (threads : UInt32 → Thread J) (nextWorkerId : UInt32)
    (program : List (FrameCall J)) : Popping J where
  sys := ⟨threads, [], .ready, [], []⟩
  pool := pool
  poolMutex := none
  nextWorkerId := nextWorkerId
  program := program
  frame := .ready
  popper := .ready
  destroyed := fun _ => false

/-- The loop that takes the jobs off the queue. -/
def draining : WorkerPc J → Bool
  | .tryPop | .executing _ => true
  | _ => false

/-- The arbiter has the worker's address and has not yet called it. -/
def Popping.Holding (s : Popping J) (id : UInt32) : Prop :=
  s.frame = .waiting id ∧ s.sys.program ≠ []

/-- `_active` is cleared only when the queue is empty or the thread is emptying
    it, and no worker is removed from the pool while the arbiter holds its
    address for a call it has not made. -/
def PopSafe (s : Popping J) : PopPc → Prop
  | .stopping id pc => pc = .clearActive →
      (s.sys.threads id).worker.jobs = [] ∨ draining (s.sys.threads id).pc = true
  | .take id => ¬ s.Holding id
  | .ready | .lock _ | .unlock => True

def PopOk (s : Popping J) : Action → Prop
  | .pop _ => PopSafe s s.popper
  | _ => True

instance [DecidableEq J] (s : Popping J) : (pc : PopPc) → Decidable (PopSafe s pc)
  | .stopping _ _ => inferInstanceAs (Decidable (_ → _))
  | .take _ => inferInstanceAs (Decidable (¬ (_ ∧ _)))
  | .ready | .lock _ | .unlock => inferInstanceAs (Decidable True)

instance [DecidableEq J] (s : Popping J) : (a : Action) → Decidable (PopOk s a)
  | .pop _ => inferInstanceAs (Decidable (PopSafe s s.popper))
  | .worker _ _ _ | .spurious _ | .arbiter _ | .arbiterSpurious _ | .popSpurious _ =>
      inferInstanceAs (Decidable True)

end SchedShrink
