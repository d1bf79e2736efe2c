import SteampunkGame.Lib.WhileLoop
import SteampunkGame.Sched.Lifecycle

/-!
The calls on the runner that take and give cores, each made when no other one
is in progress.
-/
namespace SchedRunnerCalls
open SchedPool SchedLifecycle WhileLoop

/-- The pool keeps what a call had changed when it threw. -/
def nextAffinityMask (pool : WorkerPool) : Except String UInt64 × WorkerPool :=
  if pool.unusedCores = 0 then (.error "No more cores available", pool)
  else
    let workerAffinity := pool.unusedCores &&& ~~~(pool.unusedCores - 1)
    (.ok workerAffinity, { pool with unusedCores := pool.unusedCores &&& ~~~workerAffinity })

/-- `emplace` destroys the new worker if there is one with its id. -/
def pushWorker (pool : WorkerPool) : Except String Unit × WorkerPool :=
  let nextWorkerId := pool.workerIdCounter
  match nextAffinityMask { pool with workerIdCounter := nextWorkerId + 1 } with
  | (.error what, pool) => (.error what, pool)
  | (.ok affinity, pool) =>
      if nextWorkerId ∈ pool.workers then (.ok (), pool)
      else (.ok (), { pool with
        workers := pool.workers.insert nextWorkerId (some ⟨nextWorkerId, affinity⟩) })

def popWorker (pool : WorkerPool) : Bool × WorkerPool :=
  let workerId := pool.workerIdCounter - 1
  let pool := { pool with workerIdCounter := workerId }
  if pool.workers = ∅ then (false, pool)
  else (true, { pool with workers := pool.workers.erase workerId })

/-- The loop of `start`. -/
def pushWorkers : Nat → WorkerPool → Except String Unit × WorkerPool
  | 0, pool => (.ok (), pool)
  | count + 1, pool =>
      match pushWorker pool with
      | (.ok (), pool) => pushWorkers count pool
      | (.error what, pool) => (.error what, pool)

/-- Another turn of the loop of the arbiter, after a pop that returned true. -/
def popAgain (popped : Bool × WorkerPool) : Except Empty (Bool × WorkerPool) :=
  .ok (popWorker popped.2)

/-- The loop of the arbiter. Every id comes up within the fuel. -/
def popWorkers (pool : WorkerPool) : Option (Except Empty (Bool × WorkerPool)) :=
  whileLoop Prod.fst popAgain (2 ^ 32 + 1) (popWorker pool)

/-- The arbiter threads are numbered. One that runs has a mask if it floats. -/
structure RunnerState where
  active : Bool
  pool : WorkerPool
  arbiters : Nat → Option (Option UInt64)
  created : Nat

/-- How `start` ends, or how far it comes if it joins the arbiter. -/
inductive StartResult where
  | running
  | threw (what : String)
  | terminated
  deriving DecidableEq, Repr

/-- Without a core for the arbiter the exception destroys the joinable thread
    object, and the process ends. -/
def start (s : RunnerState) (floating : Bool) (threadCount : Option UInt32) :
    StartResult × RunnerState :=
  if s.active then (.threw "Scheduler is already running", s)
  else
    match pushWorkers (workerCount floating threadCount).toNat s.pool with
    | (.error what, pool) => (.threw what, { s with pool := pool })
    | (.ok (), pool) =>
        let run := fun (pool : WorkerPool) (affinity : Option UInt64) =>
          (⟨true, pool, Function.update s.arbiters s.created (some affinity), s.created + 1⟩ :
            RunnerState)
        if floating then
          match nextAffinityMask pool with
          | (.error _, pool) => (.terminated, run pool none)
          | (.ok affinity, pool) => (.running, run pool (some affinity))
        else (.running, run pool none)

inductive Operation where
  | start (floating : Bool) (threadCount : Option UInt32)
  | pushWorker
  | popWorker
  | stop
  | signalStop
  | arbiterShutdown (arbiter : Nat)
  deriving DecidableEq, Repr

/-- The runner after an operation. What `stop` then waits for is the shutdown
    of an arbiter, which has read that the runner is not active. -/
def operate (s : RunnerState) : Operation → Option RunnerState
  | .start floating threadCount =>
      match start s floating threadCount with
      | (.terminated, _) => none
      | (_, s) => some s
  | .pushWorker => some { s with pool := (pushWorker s.pool).2 }
  | .popWorker => some { s with pool := (popWorker s.pool).2 }
  | .stop | .signalStop => some { s with active := false }
  | .arbiterShutdown arbiter =>
      if s.active = false ∧ s.arbiters arbiter ≠ none then
        match popWorkers s.pool with
        | some (.ok (_, pool)) =>
            some { s with pool := pool, arbiters := Function.update s.arbiters arbiter none }
        | _ => none
      else none

/-- The initial value of `_unused_cores`. -/
def initialMask : UInt64 := (1 <<< coreCount.toUInt64) - 1

def newRunner (unusedCores : UInt64) : RunnerState where
  active := false
  pool := ⟨unusedCores, 0, ∅⟩
  arbiters := fun _ => none
  created := 0

end SchedRunnerCalls
