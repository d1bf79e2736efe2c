import Mathlib.Logic.Function.Basic
import SteampunkGame.Sched.PoolCalls

/-!
`start`, `stop` and `signal_stop` of the runner, made by any number of threads,
and the arbiter threads that `start` creates. All phases of a frame are one
program point here: none of them touches what these calls share.
-/
namespace SchedLifecycle
open SchedPool SchedPoolCalls
variable {K : Type}

/-- `runner::_core_count`. -/
def coreCount : UInt32 := 2

inductive Request where
  | start (floating : Bool) (threadCount : Option UInt32)
  | stop
  | signalStop
  deriving DecidableEq, Repr

/-- The next step of a thread in one of the three calls. `pushing` is inside
    `push_worker` and `pinning` inside `next_affinity_mask` for the arbiter. -/
inductive CallerPc where
  | startTest (floating : Bool) (threadCount : Option UInt32)
  | startLoop (floating : Bool) (remaining : UInt32)
  | pushing (floating : Bool) (remaining : UInt32) (call : Call)
  | startActive (floating : Bool)
  | startCreate (floating : Bool)
  | pinning (call : Call)
  | startJoin
  | startReturned
  | startThrew (what : String)
  | terminate
  | stopTest
  | stopClear
  | stopAcquire
  | stopWait
  | stopParked
  | stopReacquire
  | stopRelease
  | stopReturned
  | signalTest
  | signalClear
  | signalReturned
  deriving DecidableEq, Repr

def Request.entry : Request → CallerPc
  | .start floating threadCount => .startTest floating threadCount
  | .stop => .stopTest
  | .signalStop => .signalTest

/-- The next step of an arbiter thread. -/
inductive ArbiterPc where
  | absent
  | test
  | frame
  | popCounter
  | popping (call : Call)
  | closeAcquire
  | notifyAll
  | closeRelease
  | finished
  deriving DecidableEq, Repr

inductive Owner (K : Type) where
  | caller (k : K)
  | arbiter (k : K)
  deriving DecidableEq, Repr

/-- The arbiter thread created by the call of `k` is named after it. -/
structure Life (K : Type) where
  active : Bool
  closeMutex : Option (Owner K)
  pool : WorkerPool
  caller : K → CallerPc
  arbiter : K → ArbiterPc

/-- One step of a call on the pool, alone. -/
def advanceCall (pool : WorkerPool) (call : Call) (rightFirst : Bool) :
    WorkerPool × (Call ⊕ Return) :=
  let after := advance ⟨pool, [call], []⟩ 0 rightFirst call
  match after.returns with
  | [] => (after.pool, .inl (after.calls.headD call))
  | result :: _ => (after.pool, .inr result)

/-- `worker_count` of `start`; the decrement wraps. -/
def workerCount (floating : Bool) (threadCount : Option UInt32) : UInt32 :=
  let count := threadCount.getD coreCount
  if floating then count - 1 else count

variable [DecidableEq K]

def Life.setCaller (s : Life K) (k : K) (pc : CallerPc) : Life K :=
  { s with caller := Function.update s.caller k pc }

def Life.setArbiter (s : Life K) (k : K) (pc : ArbiterPc) : Life K :=
  { s with arbiter := Function.update s.arbiter k pc }

@[simp] theorem setCaller_self (s : Life K) (k : K) (pc : CallerPc) :
    (s.setCaller k pc).caller k = pc := by
  simp [Life.setCaller]

@[simp] theorem setCaller_other (s : Life K) {j k : K} (other : j ≠ k) (pc : CallerPc) :
    (s.setCaller k pc).caller j = s.caller j := by
  simp [Life.setCaller, other]

@[simp] theorem setArbiter_self (s : Life K) (k : K) (pc : ArbiterPc) :
    (s.setArbiter k pc).arbiter k = pc := by
  simp [Life.setArbiter]

@[simp] theorem setCaller_arbiter (s : Life K) (k : K) (pc : CallerPc) :
    (s.setCaller k pc).arbiter = s.arbiter := rfl

@[simp] theorem setArbiter_caller (s : Life K) (k : K) (pc : ArbiterPc) :
    (s.setArbiter k pc).caller = s.caller := rfl

def callerStep (rightFirst : Bool) (s : Life K) (k : K) : Option (Life K) :=
  match s.caller k with
  | .startTest floating threadCount =>
      if s.active then some (s.setCaller k (.startThrew "Scheduler is already running"))
      else some (s.setCaller k (.startLoop floating (workerCount floating threadCount)))
  | .startLoop floating remaining =>
      if remaining = 0 then some (s.setCaller k (.startActive floating))
      else
        let id := s.pool.workerIdCounter
        some { s.setCaller k (.pushing floating remaining (.testCores (some id))) with
          pool := { s.pool with workerIdCounter := id + 1 } }
  | .pushing floating remaining call =>
      match advanceCall s.pool call rightFirst with
      | (pool, .inl call) =>
          some { s.setCaller k (.pushing floating remaining call) with pool := pool }
      | (pool, .inr (.pushThrew _)) =>
          some { s.setCaller k (.startThrew "No more cores available") with pool := pool }
      | (pool, .inr _) =>
          some { s.setCaller k (.startLoop floating (remaining - 1)) with pool := pool }
  | .startActive floating => some { s.setCaller k (.startCreate floating) with active := true }
  | .startCreate floating =>
      some ((s.setArbiter k .test).setCaller k
        (if floating then .pinning (.testCores none) else .startJoin))
  | .pinning call =>
      match advanceCall s.pool call rightFirst with
      | (pool, .inl call) => some { s.setCaller k (.pinning call) with pool := pool }
      -- the exception destroys the joinable thread object
      | (pool, .inr .startThrew) => some { s.setCaller k .terminate with pool := pool }
      | (pool, .inr _) => some { s.setCaller k .startReturned with pool := pool }
  | .startJoin => if s.arbiter k = .finished then some (s.setCaller k .startReturned) else none
  | .stopTest => some (s.setCaller k (if s.active then .stopClear else .stopReturned))
  | .stopClear => some { s.setCaller k .stopAcquire with active := false }
  | .stopAcquire | .stopReacquire =>
      if s.closeMutex = none then
        some { s.setCaller k (if s.caller k = .stopAcquire then .stopWait else .stopRelease) with
          closeMutex := some (.caller k) }
      else none
  | .stopWait => some { s.setCaller k .stopParked with closeMutex := none }
  | .stopRelease => some { s.setCaller k .stopReturned with closeMutex := none }
  | .signalTest => some (s.setCaller k (if s.active then .signalClear else .signalReturned))
  | .signalClear => some { s.setCaller k .signalReturned with active := false }
  | .stopParked | .startReturned | .startThrew _ | .terminate | .stopReturned
  | .signalReturned => none

/-- A waiting `stop` goes on when it is notified or wakes spuriously. -/
def CallerPc.unpark : CallerPc → CallerPc
  | .stopParked => .stopReacquire
  | pc => pc

def arbiterStep (s : Life K) (k : K) : Option (Life K) :=
  match s.arbiter k with
  | .absent | .finished => none
  | .test => some (s.setArbiter k (if s.active then .frame else .popCounter))
  | .frame => some (s.setArbiter k .test)
  | .popCounter =>
      let id := s.pool.workerIdCounter - 1
      some { s.setArbiter k (.popping (.popLocked id)) with
        pool := { s.pool with workerIdCounter := id } }
  | .popping call =>
      match advanceCall s.pool call false with
      | (pool, .inl call) => some { s.setArbiter k (.popping call) with pool := pool }
      | (pool, .inr (.popFalse _)) => some { s.setArbiter k .closeAcquire with pool := pool }
      | (pool, .inr _) => some { s.setArbiter k .popCounter with pool := pool }
  | .closeAcquire =>
      if s.closeMutex = none then
        some { s.setArbiter k .notifyAll with closeMutex := some (.arbiter k) }
      else none
  | .notifyAll =>
      some { s.setArbiter k .closeRelease with caller := fun j => (s.caller j).unpark }
  | .closeRelease => some { s.setArbiter k .finished with closeMutex := none }

inductive Action (K : Type) where
  | caller (k : K) (rightFirst : Bool)
  | spurious (k : K)
  | arbiter (k : K)
  deriving DecidableEq, Repr

def step (s : Life K) : Action K → Option (Life K)
  | .caller k rightFirst => callerStep rightFirst s k
  | .spurious k => some (s.setCaller k (s.caller k).unpark)
  | .arbiter k => arbiterStep s k

/-- Threads about to make their calls on a runner that is not running. -/
def idle (pool : WorkerPool) (requests : K → Request) : Life K where
  active := false
  closeMutex := none
  pool := pool
  caller := fun k => (requests k).entry
  arbiter := fun _ => .absent

/-- A runner that the call of `k` has started, and threads about to call
    `stop`, or else `signal_stop`. -/
def started (k : K) (floating : Bool) (pool : WorkerPool) (stops : K → Bool) : Life K where
  active := true
  closeMutex := none
  pool := pool
  caller := fun j =>
    if j = k then (if floating then .startReturned else .startJoin)
    else if stops j then .stopTest else .signalTest
  arbiter := fun j => if j = k then .test else .absent

/-- Inside the frame loop or still to test `_active`. -/
def ArbiterPc.inLoop : ArbiterPc → Bool
  | .test | .frame => true
  | _ => false

end SchedLifecycle
