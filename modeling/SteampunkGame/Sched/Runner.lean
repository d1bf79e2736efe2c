import SteampunkGame.Lib.WhileLoop
import SteampunkGame.Sched.Job
import SteampunkGame.Sched.Worker
import SteampunkGame.Sched.WorkerPool

/-!
`sched::runner` as the arbiter thread executes it: one frame over the job
graph, with the calls it makes on the workers recorded sub-cycle by
sub-cycle. What the workers do with these calls is modelled separately.
-/
namespace SchedRunner
open SchedJob SchedPool SchedWorker WhileLoop
variable {J : Type}

structure Runner (J : Type) where
  graph : JobGraph J
  rootJobs : List J
  pool : WorkerPool

/-- Ways in which the arbiter thread cannot go on: an exception leaves a
    `noexcept` function, the pool mutex is locked again by its owner, or a
    null worker is used. -/
inductive Fault where
  | terminate (what : String)
  | poolMutexHeld
  | nullWorker
  deriving DecidableEq, Repr

/-- What `assign_job` reads and writes. -/
structure Assigning (J : Type) where
  runner : Runner J
  nextWorkerId : UInt32
  runNext : List J
  calls : List (Command UInt32 J)

/-- The locals of `runner_arbiter` and the calls of the finished sub-cycles. -/
structure Arbiter (J : Type) where
  runner : Runner J
  nextWorkerId : UInt32
  jobs1 : List J
  jobs2 : List J
  calls : List (Command UInt32 J)
  subCycles : List (List (Command UInt32 J))

def Runner.schedule (r : Runner J) (toSchedule : J) : Runner J :=
  { r with rootJobs := r.rootJobs ++ [toSchedule] }

variable [DecidableEq J]

def Runner.erase (r : Runner J) (toErase : J) : Except String (Runner J) :=
  match r.graph.parent toErase with
  | some parent => .ok { r with graph := r.graph.erase parent toErase }
  | none =>
      if toErase ∈ r.rootJobs then .ok { r with rootJobs := r.rootJobs.erase toErase }
      else .error "Cannot find job"

/-- `free` counts how often the pool mutex can still be locked: it is not
    recursive, so the retry runs with none left. -/
def assignJob (free : Nat) (job : J) (st : Assigning J) : Except Fault (Assigning J) :=
  if st.runner.graph.exited job then
    match st.runner.erase job with
    | .ok runner => .ok { st with runner := runner }
    | .error what => .error (.terminate what)
  else
    let found := if st.nextWorkerId = st.runner.pool.workerIdCounter then 0 else st.nextWorkerId
    match free with
    | 0 => .error .poolMutexHeld
    | free + 1 =>
        match st.runner.pool.workers.lookup found with
        | none =>
            if st.runner.pool.workers = ∅ ∨ found + 1 = 1 then
              .ok { st with nextWorkerId := found + 1 }
            else assignJob free job { st with nextWorkerId := found + 1 - 2 }
        | some none => .error .nullWorker
        | some (some _) => .ok { st with
            nextWorkerId := found + 1
            calls := st.calls ++ [.assign found job, .wake found]
            runNext := st.runNext ++ st.runner.graph.children job }

/-- All that a returning call can do: erase an exited job, drop the job for
    want of a worker, or hand it to one. The first id of a retry is lost. -/
theorem assignJob_cases {free : Nat} {job : J} {st after : Assigning J}
    (run : assignJob free job st = .ok after) :
    (st.runner.graph.exited job = true ∧ ∃ runner, st.runner.erase job = .ok runner ∧
      after.runner = runner ∧ after.runNext = st.runNext ∧ after.calls = st.calls) ∨
    (st.runner.graph.exited job = false ∧ after.runner = st.runner ∧
      after.runNext = st.runNext ∧ after.calls = st.calls) ∨
    (st.runner.graph.exited job = false ∧ after.runner = st.runner ∧
      after.runNext = st.runNext ++ st.runner.graph.children job ∧
      ∃ id, after.calls = st.calls ++ [.assign id job, .wake id]) := by
  induction free generalizing st with
  | zero =>
    unfold assignJob at run
    split at run
    · rename_i exited
      split at run
      · rename_i runner erased
        cases run
        exact Or.inl ⟨exited, runner, erased, rfl, rfl, rfl⟩
      · cases run
    · cases run
  | succ free ih =>
    unfold assignJob at run
    split at run
    · rename_i exited
      split at run
      · rename_i runner erased
        cases run
        exact Or.inl ⟨exited, runner, erased, rfl, rfl, rfl⟩
      · cases run
    · rename_i live
      have live : st.runner.graph.exited job = false := by simpa using live
      generalize (if st.nextWorkerId = st.runner.pool.workerIdCounter then (0 : UInt32)
        else st.nextWorkerId) = found at run
      dsimp only at run
      split at run
      · split at run
        · cases run
          exact Or.inr (Or.inl ⟨live, rfl, rfl, rfl⟩)
        · exact @ih { st with nextWorkerId := found + 1 - 2 } run
      · cases run
      · cases run
        exact Or.inr (Or.inr ⟨live, rfl, rfl, found, rfl⟩)

/-- The `for` loop over one of the buffers. -/
def assignAll (jobs : List J) (st : Assigning J) : Except Fault (Assigning J) :=
  jobs.foldlM (fun st job => assignJob 1 job st) st

/-- The loop over the ids below the counter stops at the first missing one. -/
def waitFrom (pool : WorkerPool) : List UInt32 → Except Fault (List (Command UInt32 J))
  | [] => .ok []
  | id :: rest =>
      match pool.workers.lookup id with
      | none => .ok []
      | some none => .error .nullWorker
      | some (some _) =>
          match waitFrom pool rest with
          | .ok waits => .ok (.waitCycleFinish id :: waits)
          | .error fault => .error fault

def waitForWorkers (pool : WorkerPool) : Except Fault (List (Command UInt32 J)) :=
  waitFrom pool (workerIds pool.workerIdCounter)

/-- The calls since the last sub-cycle together with the waits end this one. -/
def Arbiter.waitForWorkers (a : Arbiter J) : Except Fault (Arbiter J) :=
  match SchedRunner.waitForWorkers a.runner.pool with
  | .ok waits => .ok { a with calls := [], subCycles := a.subCycles ++ [a.calls ++ waits] }
  | .error fault => .error fault

def Arbiter.copyRoots (a : Arbiter J) : Arbiter J :=
  { a with jobs1 := a.jobs1 ++ a.runner.rootJobs }

def Arbiter.clearJobs1 (a : Arbiter J) : Arbiter J := { a with jobs1 := [] }
def Arbiter.clearJobs2 (a : Arbiter J) : Arbiter J := { a with jobs2 := [] }
def Arbiter.swapJobs (a : Arbiter J) : Arbiter J := { a with jobs1 := a.jobs2, jobs2 := a.jobs1 }

/-- Assign the first buffer, collecting children in the second. -/
def Arbiter.assignJobs1 (a : Arbiter J) : Except Fault (Arbiter J) :=
  match assignAll a.jobs1 ⟨a.runner, a.nextWorkerId, a.jobs2, a.calls⟩ with
  | .ok st => .ok { a with
      runner := st.runner
      nextWorkerId := st.nextWorkerId
      jobs2 := st.runNext
      calls := st.calls }
  | .error fault => .error fault

/-- Assign the second buffer, collecting children in the first. -/
def Arbiter.assignJobs2 (a : Arbiter J) : Except Fault (Arbiter J) :=
  match assignAll a.jobs2 ⟨a.runner, a.nextWorkerId, a.jobs1, a.calls⟩ with
  | .ok st => .ok { a with
      runner := st.runner
      nextWorkerId := st.nextWorkerId
      jobs1 := st.runNext
      calls := st.calls }
  | .error fault => .error fault

def zerothSubCycle (a : Arbiter J) : Except Fault (Arbiter J) := do
  let a ← a.copyRoots.assignJobs1
  a.clearJobs1.waitForWorkers

def nthSubCycle (a : Arbiter J) : Except Fault (Arbiter J) := do
  let a ← a.assignJobs2
  a.clearJobs2.swapJobs.waitForWorkers

def subCycleLoop (fuel : Nat) (a : Arbiter J) : Option (Except Fault (Arbiter J)) :=
  whileLoop (fun a => !a.jobs2.isEmpty) nthSubCycle fuel a

/-- One iteration of the `while (_active)` loop, without its timing. -/
def frame (fuel : Nat) (a : Arbiter J) : Option (Except Fault (Arbiter J)) :=
  match zerothSubCycle a with
  | .error fault => some (.error fault)
  | .ok a =>
      match subCycleLoop fuel a with
      | none => none
      | some (.error fault) => some (.error fault)
      | some (.ok a) => some (.ok a.clearJobs2.swapJobs)

/-- The depth-first walk of `job_count`, with the stack's top at the head. -/
structure Counting (J : Type) where
  size : Nat
  subJobs : List J

def countRoots (g : JobGraph J) (rootJobs : List J) : Counting J :=
  rootJobs.foldl (fun c job => ⟨c.size + (g.children job).length, job :: c.subJobs⟩)
    ⟨rootJobs.length, []⟩

def countStep (g : JobGraph J) (c : Counting J) : Except Empty (Counting J) :=
  match c.subJobs with
  | [] => .ok c
  | current :: rest => .ok ((g.children current).foldl
      (fun c job => ⟨c.size + (g.children job).length, job :: c.subJobs⟩) ⟨c.size, rest⟩)

def jobCount (fuel : Nat) (r : Runner J) : Option Nat :=
  match whileLoop (fun c => !c.subJobs.isEmpty) (countStep r.graph) fuel
      (countRoots r.graph r.rootJobs) with
  | some (.ok c) => some c.size
  | some (.error fault) => nomatch fault
  | none => none

end SchedRunner
