import SteampunkGame.Sched.RunnerCalls

/-!
Each call that is made while no other one is in progress changes the runner as
the interleaved steps of the same call do when nothing disturbs them.
-/
namespace SchedCallsAlone
open SchedPool SchedPoolCalls SchedLifecycle SchedRunnerCalls Runs WhileLoop

/-- A call on the pool while no other one is made. -/
def callAlone (rightFirst : Bool) : Nat → WorkerPool → Call → Option (WorkerPool × Return)
  | 0, _, _ => none
  | steps + 1, pool, call =>
      match advanceCall pool call rightFirst with
      | (pool, .inl call) => callAlone rightFirst steps pool call
      | (pool, .inr result) => some (pool, result)

theorem pin_alone (rightFirst : Bool) (pool : WorkerPool) :
    callAlone rightFirst 4 pool (.testCores none) = some ((nextAffinityMask pool).2,
      match (nextAffinityMask pool).1 with
      | .error _ => .startThrew
      | .ok _ => .pinned) := by
  by_cases none : pool.unusedCores = 0
  · simp [callAlone, advanceCall, advance, nextAffinityMask, none, Runner.finish]
  · cases rightFirst <;>
      simp [callAlone, advanceCall, advance, nextAffinityMask, none, Runner.finish,
        Runner.continue, Runner.setCores]

theorem push_alone (rightFirst : Bool) (pool : WorkerPool) :
    callAlone rightFirst 5 { pool with workerIdCounter := pool.workerIdCounter + 1 }
      (.testCores (some pool.workerIdCounter)) = some ((pushWorker pool).2,
        match (pushWorker pool).1 with
        | .error _ => .pushThrew 1
        | .ok () => .pushed (pool.workerIdCounter ∉ pool.workers)) := by
  by_cases none : pool.unusedCores = 0
  · simp [callAlone, advanceCall, advance, pushWorker, nextAffinityMask, none, Runner.finish]
  · by_cases taken : pool.workerIdCounter ∈ pool.workers <;> cases rightFirst <;>
      simp [callAlone, advanceCall, advance, pushWorker, nextAffinityMask, none, taken,
        Runner.finish, Runner.continue, Runner.setCores, Runner.setWorkers]

theorem pop_alone (rightFirst : Bool) (pool : WorkerPool) : ∃ removed,
    advanceCall { pool with workerIdCounter := pool.workerIdCounter - 1 }
      (.popLocked (pool.workerIdCounter - 1)) rightFirst = ((popWorker pool).2,
        .inr (if (popWorker pool).1 then .popTrue removed else .popFalse (-1))) := by
  by_cases empty : pool.workers = ∅
  · exact ⟨0, by simp [advanceCall, advance, popWorker, empty, Runner.finish]⟩
  · cases found : pool.workers.lookup (pool.workerIdCounter - 1) with
    | none =>
      exact ⟨0, by
        simp [advanceCall, advance, popWorker, empty, found, Runner.finish, Runner.setWorkers]⟩
    | some entry =>
      refine ⟨if entry.isSome then 1 else 0, ?_⟩
      cases entry <;>
        simp [advanceCall, advance, popWorker, empty, found, Runner.finish, Runner.setWorkers]

section
variable {K : Type} [DecidableEq K]

/-- A caller alone makes a step. -/
def only (k : K) (rightFirst : Bool) (_ : Life K) (a : SchedLifecycle.Action K) : Prop :=
  a = .caller k rightFirst

/-- The state in which the caller `k` has come to a point of its call. -/
def put (s : Life K) (k : K) (pc : CallerPc) (pool : WorkerPool) : Life K :=
  { s.setCaller k pc with pool := pool }

@[simp] theorem put_caller (s : Life K) (k : K) (pc : CallerPc) (pool : WorkerPool) :
    (put s k pc pool).caller k = pc := setCaller_self s k pc

@[simp] theorem put_pool (s : Life K) (k : K) (pc : CallerPc) (pool : WorkerPool) :
    (put s k pc pool).pool = pool := rfl

@[simp] theorem put_put (s : Life K) (k : K) (pc next : CallerPc) (pool after : WorkerPool) :
    put (put s k pc pool) k next after = put s k next after := by
  simp [put, Life.setCaller]

theorem put_step {s t : Life K} {k : K} {rightFirst : Bool} {pc next : CallerPc}
    {pool after : WorkerPool}
    (move : callerStep rightFirst (put s k pc pool) k = some (put s k next after))
    (rest : Reaches SchedLifecycle.step (only k rightFirst) (put s k next after) t) :
    Reaches SchedLifecycle.step (only k rightFirst) (put s k pc pool) t :=
  .head ⟨.caller k rightFirst, rfl, move⟩ rest

/-- How `start` goes on after a call of `push_worker`. -/
def pushed (floating : Bool) (remaining : UInt32) : Return → CallerPc
  | .pushThrew _ => .startThrew "No more cores available"
  | _ => .startLoop floating (remaining - 1)

theorem pushing_alone {s : Life K} {k : K} {rightFirst floating : Bool} {remaining : UInt32}
    {steps : Nat} {pool after : WorkerPool} {call : Call} {result : Return}
    (alone : callAlone rightFirst steps pool call = some (after, result)) :
    Reaches SchedLifecycle.step (only k rightFirst)
      (put s k (.pushing floating remaining call) pool)
      (put s k (pushed floating remaining result) after) := by
  induction steps generalizing pool call with
  | zero => cases alone
  | succ steps ih =>
    simp only [callAlone] at alone
    cases advanced : advanceCall pool call rightFirst with
    | mk middle next =>
      rw [advanced] at alone
      cases next with
      | inl call =>
        apply put_step _ (ih alone)
        simp only [callerStep, put_caller, put_pool, advanced]
        exact congrArg some (put_put s k _ _ pool middle)
      | inr ended =>
        cases alone
        apply put_step _ .refl
        cases result <;> simp only [callerStep, put_caller, put_pool, advanced, pushed] <;>
          exact congrArg some (put_put s k _ _ pool after)

theorem pinning_alone {s : Life K} {k : K} {rightFirst : Bool} {steps : Nat}
    {pool after : WorkerPool} {call : Call} {result : Return}
    (alone : callAlone rightFirst steps pool call = some (after, result)) :
    Reaches SchedLifecycle.step (only k rightFirst) (put s k (.pinning call) pool)
      (put s k (if result = .startThrew then .terminate else .startReturned) after) := by
  induction steps generalizing pool call with
  | zero => cases alone
  | succ steps ih =>
    simp only [callAlone] at alone
    cases advanced : advanceCall pool call rightFirst with
    | mk middle next =>
      rw [advanced] at alone
      cases next with
      | inl call =>
        apply put_step _ (ih alone)
        simp only [callerStep, put_caller, put_pool, advanced]
        exact congrArg some (put_put s k _ _ pool middle)
      | inr ended =>
        cases alone
        apply put_step _ .refl
        cases result <;> simp [callerStep, advanced] <;>
          exact put_put s k _ _ pool after

theorem pushWorker_error {pool after : WorkerPool} {what : String}
    (run : pushWorker pool = (.error what, after)) : what = "No more cores available" := by
  unfold pushWorker nextAffinityMask at run
  by_cases none : pool.unusedCores = 0
  · simp only [none, if_true] at run
    cases run
    rfl
  · simp only [none, if_false] at run
    split at run <;> cases run

/-- The loop of `start`, alone. -/
theorem loop_alone (s : Life K) (k : K) (rightFirst floating : Bool) (count : Nat)
    (remaining : UInt32) (same : remaining.toNat = count) (pool : WorkerPool) :
    Reaches SchedLifecycle.step (only k rightFirst) (put s k (.startLoop floating remaining) pool)
      (put s k (match (pushWorkers count pool).1 with
        | .error what => .startThrew what
        | .ok () => .startActive floating) (pushWorkers count pool).2) := by
  induction count generalizing remaining pool with
  | zero =>
    have zero : remaining = 0 := UInt32.toNat_inj.mp same
    apply put_step _ .refl
    simp only [callerStep, put_caller, zero, if_true, pushWorkers]
    exact congrArg some (put_put s k _ _ pool pool)
  | succ count ih =>
    have more : remaining ≠ 0 := by
      rintro rfl
      simp at same
    have less : (remaining - 1).toNat = count := by
      have one : (1 : UInt32) ≤ remaining := by
        rw [UInt32.le_iff_toNat_le, UInt32.toNat_one]
        omega
      rw [UInt32.toNat_sub_of_le _ _ one, UInt32.toNat_one]
      omega
    have taken : callerStep rightFirst (put s k (.startLoop floating remaining) pool) k =
        some (put s k (.pushing floating remaining (.testCores (some pool.workerIdCounter)))
          { pool with workerIdCounter := pool.workerIdCounter + 1 }) := by
      simp only [callerStep, put_caller, put_pool, more, if_false]
      exact congrArg some (put_put s k _ _ pool _)
    apply put_step taken
    refine (pushing_alone (push_alone rightFirst pool)).trans ?_
    cases ran : pushWorker pool with
    | mk outcome after =>
      simp only [pushWorkers, ran]
      cases outcome with
      | error what => rw [pushWorker_error ran]; exact .refl
      | ok _ => exact ih (remaining - 1) less after

/-- The program point at which `start` stays, with the arbiter still running if
    there is one. -/
def startEnds (floating : Bool) : StartResult → CallerPc
  | .running => if floating then .startReturned else .startJoin
  | .threw what => .startThrew what
  | .terminated => .terminate

/-- Setting the flag and creating the arbiter. -/
theorem launch_alone (life : Life K) (k : K) (rightFirst floating : Bool) (pool : WorkerPool) :
    Reaches SchedLifecycle.step (only k rightFirst) (put life k (.startActive floating) pool)
      (put ({ life with active := true }.setArbiter k .test) k
        (if floating then .pinning (.testCores none) else .startJoin) pool) := by
  have first : SchedLifecycle.step (put life k (.startActive floating) pool)
      (.caller k rightFirst) =
        some (put { life with active := true } k (.startCreate floating) pool) := by
    simp [SchedLifecycle.step, callerStep, put, Life.setCaller]
  refine .head ⟨.caller k rightFirst, rfl, first⟩ (.single ⟨.caller k rightFirst, rfl, ?_⟩)
  simp [SchedLifecycle.step, callerStep, put, Life.setCaller, Life.setArbiter]

/-- A call of `start` that nothing disturbs. -/
theorem start_alone {s : RunnerState} {life : Life K} (k : K) (rightFirst floating : Bool)
    (threadCount : Option UInt32) (active : life.active = s.active) (pool : life.pool = s.pool)
    (entry : life.caller k = .startTest floating threadCount) :
    ∃ t, Reaches SchedLifecycle.step (only k rightFirst) life t ∧
      t.active = (start s floating threadCount).2.active ∧
      t.pool = (start s floating threadCount).2.pool ∧
      t.caller k = startEnds floating (start s floating threadCount).1 ∧
      t.arbiter = if (start s floating threadCount).2.created = s.created then life.arbiter
        else Function.update life.arbiter k .test := by
  by_cases running : s.active = true
  · refine ⟨put life k (.startThrew "Scheduler is already running") life.pool, ?_, ?_, ?_, ?_, ?_⟩
    · refine .single ⟨.caller k rightFirst, rfl, ?_⟩
      simp [SchedLifecycle.step, callerStep, entry, active, running, put, Life.setCaller]
    all_goals simp [start, running, startEnds, put, Life.setCaller, active, pool]
  · have begun : Reaches SchedLifecycle.step (only k rightFirst) life
        (put life k (.startLoop floating (workerCount floating threadCount)) life.pool) := by
      refine .single ⟨.caller k rightFirst, rfl, ?_⟩
      simp [SchedLifecycle.step, callerStep, entry, active, running, put, Life.setCaller]
    have looped := begun.trans (loop_alone life k rightFirst floating _ _ rfl life.pool)
    simp only [start, running, ← pool]
    cases pushes : pushWorkers (workerCount floating threadCount).toNat life.pool with
    | mk outcome after =>
      rw [pushes] at looped
      cases outcome with
      | error what =>
        exact ⟨_, looped, by simp [put, Life.setCaller, active, running], rfl, by simp [startEnds],
          by simp [put, Life.setCaller]⟩
      | ok _ =>
        have launched := looped.trans (launch_alone life k rightFirst floating after)
        have arbiter : ({ life with active := true }.setArbiter k .test).arbiter =
            Function.update life.arbiter k .test := rfl
        cases floating with
        | false => exact ⟨_, launched, rfl, rfl, put_caller _ _ _ _, by simp [put, arbiter]⟩
        | true =>
          have pinned := launched.trans (pinning_alone (pin_alone rightFirst after))
          cases pins : nextAffinityMask after with
          | mk outcome last =>
            rw [pins] at pinned
            cases outcome <;>
              exact ⟨_, pinned, by simp [pins, put, Life.setCaller, Life.setArbiter],
                by simp [pins], by simp [pins, startEnds], by simp [pins, put, arbiter]⟩

def putArbiter (s : Life K) (k : K) (pc : ArbiterPc) (pool : WorkerPool) : Life K :=
  { s.setArbiter k pc with pool := pool }

theorem popping_alone (s : Life K) (k : K) (pool : WorkerPool) :
    Reaches SchedLifecycle.step (fun _ a => a = .arbiter k) (putArbiter s k .popCounter pool)
      (putArbiter s k (if (popWorker pool).1 then .popCounter else .closeAcquire)
        (popWorker pool).2) := by
  obtain ⟨removed, advanced⟩ := pop_alone false pool
  have counted : SchedLifecycle.step (putArbiter s k .popCounter pool) (.arbiter k) =
      some (putArbiter s k (.popping (.popLocked (pool.workerIdCounter - 1)))
        { pool with workerIdCounter := pool.workerIdCounter - 1 }) := by
    simp [SchedLifecycle.step, arbiterStep, putArbiter, Life.setArbiter]
  have locked : SchedLifecycle.step
      (putArbiter s k (.popping (.popLocked (pool.workerIdCounter - 1)))
        { pool with workerIdCounter := pool.workerIdCounter - 1 }) (.arbiter k) =
      some (putArbiter s k (if (popWorker pool).1 then .popCounter else .closeAcquire)
        (popWorker pool).2) := by
    cases more : (popWorker pool).1 <;>
      simp [SchedLifecycle.step, arbiterStep, putArbiter, Life.setArbiter, advanced, more]
  exact .head ⟨.arbiter k, rfl, counted⟩ (.single ⟨.arbiter k, rfl, locked⟩)

/-- An arbiter that leaves its frame loop while nothing disturbs it. -/
theorem shutdown_alone (s : Life K) (k : K) {fuel : Nat} {pool : WorkerPool}
    {popped : Bool × WorkerPool}
    (run : whileLoop Prod.fst popAgain fuel (popWorker pool) = some (.ok popped)) :
    Reaches SchedLifecycle.step (fun _ a => a = .arbiter k) (putArbiter s k .popCounter pool)
      (putArbiter s k .closeAcquire popped.2) := by
  have once := popping_alone s k pool
  induction fuel generalizing pool with
  | zero =>
    cases more : (popWorker pool).1 with
    | true => simp [whileLoop, more] at run
    | false =>
      rw [whileLoop_exit more, Option.some.injEq, Except.ok.injEq] at run
      rwa [more, run] at once
  | succ fuel ih =>
    cases more : (popWorker pool).1 with
    | true =>
      have again : popAgain (popWorker pool) = .ok (popWorker (popWorker pool).2) := rfl
      rw [whileLoop_step more again] at run
      rw [more] at once
      exact once.trans (ih run (popping_alone s k _))
    | false =>
      rw [whileLoop_exit more, Option.some.injEq, Except.ok.injEq] at run
      rwa [more, run] at once

end

end SchedCallsAlone
