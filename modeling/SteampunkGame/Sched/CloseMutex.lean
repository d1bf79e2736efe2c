import SteampunkGame.Lib.Runs
import SteampunkGame.Sched.Lifecycle

/-!
`runner::stop` and `runner::signal_stop` of any number of threads against the
one arbiter of a started runner. `stop` returns at once when `_active` is
already clear, and otherwise waits without a predicate.
-/
namespace SchedClose
open SchedPool SchedLifecycle Runs
variable {K : Type}

/-- Calls of `stop` and `signal_stop`, and a `start` that waits or is done. -/
def plain : CallerPc → Bool
  | .startTest _ _ | .startLoop _ _ | .pushing _ _ _ | .startActive _ | .startCreate _
  | .pinning _ | .startThrew _ | .terminate => false
  | _ => true

/-- Inside `stop`, or returned from it. -/
def inStop : CallerPc → Bool
  | .stopTest | .stopClear | .stopAcquire | .stopWait | .stopParked | .stopReacquire
  | .stopRelease | .stopReturned => true
  | _ => false

/-- The arbiter has emptied the pool. -/
def drained : ArbiterPc → Bool
  | .closeAcquire | .notifyAll | .closeRelease | .finished => true
  | _ => false

/-- The arbiter has nothing left to do but to release the close mutex. -/
def notified : ArbiterPc → Bool
  | .closeRelease | .finished => true
  | _ => false

/-- What a call that is not a `start` changes, apart from its own place. -/
structure Frame (s t : Life K) (k : K) : Prop where
  arbiter : t.arbiter = s.arbiter
  pool : t.pool = s.pool
  active : t.active = true → s.active = true
  others : ∀ j, j ≠ k → t.caller j = s.caller j

/-- The steps of such a call, with what they do to the close mutex. -/
inductive Called (s t : Life K) (k : K) : Prop where
  | outside (mutex : t.closeMutex = s.closeMutex) (start : inStop (s.caller k) = false)
      (pc : inStop (t.caller k) = false) (plain : plain (t.caller k) = true)
  | entered (mutex : t.closeMutex = s.closeMutex) (on : s.active = true)
      (start : s.caller k = .stopTest) (pc : t.caller k = .stopClear)
  | skipped (mutex : t.closeMutex = s.closeMutex) (off : s.active = false)
      (start : s.caller k = .stopTest) (pc : t.caller k = .stopReturned)
  | cleared (mutex : t.closeMutex = s.closeMutex) (start : s.caller k = .stopClear)
      (pc : t.caller k = .stopAcquire)
  | locked (free : s.closeMutex = none) (mutex : t.closeMutex = some (.caller k))
      (start : s.caller k = .stopAcquire) (pc : t.caller k = .stopWait)
  | parked (mutex : t.closeMutex = none) (start : s.caller k = .stopWait)
      (pc : t.caller k = .stopParked)
  | relocked (free : s.closeMutex = none) (mutex : t.closeMutex = some (.caller k))
      (start : s.caller k = .stopReacquire) (pc : t.caller k = .stopRelease)
  | returned (mutex : t.closeMutex = none) (start : s.caller k = .stopRelease)
      (pc : t.caller k = .stopReturned)

/-- The steps of the arbiter of `k`. -/
inductive Arbiter (s t : Life K) (k : K) : Prop where
  | loops (on : s.active = true) (start : s.arbiter k = .test) (pc : t.arbiter k = .frame)
      (mutex : t.closeMutex = s.closeMutex) (caller : t.caller = s.caller)
  | leaves (off : s.active = false) (start : s.arbiter k = .test) (pc : t.arbiter k = .popCounter)
      (mutex : t.closeMutex = s.closeMutex) (caller : t.caller = s.caller)
  | framed (start : s.arbiter k = .frame) (pc : t.arbiter k = .test)
      (mutex : t.closeMutex = s.closeMutex) (caller : t.caller = s.caller)
  | pops (start : s.arbiter k = .popCounter ∨ ∃ call, s.arbiter k = .popping call)
      (pc : t.arbiter k = .popCounter ∨ ∃ call, t.arbiter k = .popping call)
      (mutex : t.closeMutex = s.closeMutex) (caller : t.caller = s.caller)
  | emptied (start : ∃ call, s.arbiter k = .popping call) (pc : t.arbiter k = .closeAcquire)
      (empty : t.pool.workers = ∅)
      (mutex : t.closeMutex = s.closeMutex) (caller : t.caller = s.caller)
  | locked (free : s.closeMutex = none) (start : s.arbiter k = .closeAcquire)
      (pc : t.arbiter k = .notifyAll) (mutex : t.closeMutex = some (.arbiter k))
      (pool : t.pool = s.pool) (caller : t.caller = s.caller)
  | notifies (start : s.arbiter k = .notifyAll) (pc : t.arbiter k = .closeRelease)
      (mutex : t.closeMutex = s.closeMutex) (pool : t.pool = s.pool)
      (caller : t.caller = fun j => (s.caller j).unpark)
  | finishes (start : s.arbiter k = .closeRelease) (pc : t.arbiter k = .finished)
      (mutex : t.closeMutex = none) (pool : t.pool = s.pool) (caller : t.caller = s.caller)

/-- Who is inside the close mutex owns it, and nobody else. -/
structure Owned (k : K) (s : Life K) : Prop where
  caller : ∀ j, s.caller j = .stopWait ∨ s.caller j = .stopRelease ↔
    s.closeMutex = some (.caller j)
  arbiter : ∀ j, j = k ∧ (s.arbiter k = .notifyAll ∨ s.arbiter k = .closeRelease) ↔
    s.closeMutex = some (.arbiter j)

/-- What holds in every run of a started runner. -/
structure Closing (k : K) (s : Life K) : Prop where
  alone : ∀ j, j ≠ k → s.arbiter j = .absent
  plain : ∀ j, plain (s.caller j) = true
  looping : s.active = true → (s.arbiter k).inLoop = true
  emptied : drained (s.arbiter k) = true → s.pool.workers = ∅
  owned : Owned k s

theorem unpark_eq {pc : CallerPc} {target : CallerPc} (there : pc.unpark = target)
    (other : target ≠ .stopReacquire) : pc = target := by
  cases pc with
  | stopParked => exact absurd there.symm other
  | _ => exact there

theorem called_plain {s t : Life K} {j : K} (called : Called s t j) :
    SchedClose.plain (t.caller j) = true := by
  cases called with
  | outside mutex start pc still => exact still
  | entered mutex on start pc | skipped mutex off start pc | cleared mutex start pc
  | locked free mutex start pc | relocked free mutex start pc | parked mutex start pc
  | returned mutex start pc => rw [pc]; rfl

theorem unpark_plain (pc : CallerPc) : SchedClose.plain pc.unpark = SchedClose.plain pc := by
  cases pc <;> rfl

/-- Notified callers own nothing yet. -/
theorem owned_unpark {s t : Life K} {k : K} (owned : Owned k s)
    (caller : ∀ j, t.caller j = s.caller j ∨ t.caller j = (s.caller j).unpark)
    (arbiter : t.arbiter k = s.arbiter k ∨
      s.arbiter k = .notifyAll ∧ t.arbiter k = .closeRelease)
    (mutex : t.closeMutex = s.closeMutex) : Owned k t := by
  constructor
  · intro j
    rw [mutex, ← owned.caller j]
    cases caller j with
    | inl same => rw [same]
    | inr woken =>
      rw [woken]
      cases s.caller j <;> simp [CallerPc.unpark]
  · intro j
    rw [mutex, ← owned.arbiter j]
    cases arbiter with
    | inl same => rw [same]
    | inr notifies => simp [notifies.1, notifies.2]

theorem owned_arbiter {s t : Life K} {k : K} (owned : Owned k s) (arbiter : Arbiter s t k) :
    Owned k t := by
  have kept (mutex : t.closeMutex = s.closeMutex) (caller : t.caller = s.caller)
      (before : s.arbiter k ≠ .notifyAll ∧ s.arbiter k ≠ .closeRelease)
      (after : t.arbiter k ≠ .notifyAll ∧ t.arbiter k ≠ .closeRelease) : Owned k t := by
    constructor
    · rw [mutex, caller]
      exact owned.caller
    · intro j
      rw [mutex, ← owned.arbiter j]
      simp [before, after]
  cases arbiter with
  | loops on start pc mutex caller | leaves off start pc mutex caller
  | framed start pc mutex caller =>
    exact kept mutex caller (by simp [start]) (by simp [pc])
  | emptied start pc empty mutex caller =>
    obtain ⟨call, start⟩ := start
    exact kept mutex caller (by simp [start]) (by simp [pc])
  | pops start pc mutex caller =>
    apply kept mutex caller
    · obtain start | ⟨call, start⟩ := start <;> simp [start]
    · obtain pc | ⟨call, pc⟩ := pc <;> simp [pc]
  | locked free start pc mutex pool caller =>
    constructor
    · intro j
      rw [caller, owned.caller j, free, mutex]
      simp
    · intro j
      rw [mutex, pc]
      simp [eq_comm]
  | notifies start pc mutex pool caller =>
    exact owned_unpark owned (fun j => Or.inr (by rw [caller])) (Or.inr ⟨start, pc⟩) mutex
  | finishes start pc mutex pool caller =>
    have owner := (owned.arbiter k).mp ⟨rfl, Or.inr start⟩
    constructor
    · intro j
      rw [caller, owned.caller j, owner, mutex]
      simp
    · intro j
      rw [mutex, pc]
      simp

variable [DecidableEq K]

theorem callerStep_called {rightFirst : Bool} {s t : Life K} {k : K}
    (quiet : plain (s.caller k) = true) (run : callerStep rightFirst s k = some t) :
    Frame s t k ∧ Called s t k := by
  have frame {pc : CallerPc} (arbiter : t.arbiter = s.arbiter) (pool : t.pool = s.pool)
      (active : t.active = true → s.active = true)
      (caller : t.caller = Function.update s.caller k pc) : Frame s t k ∧ t.caller k = pc := by
    refine ⟨⟨arbiter, pool, active, fun j other => ?_⟩, ?_⟩
    · rw [caller, Function.update_of_ne other]
    · rw [caller, Function.update_self]
  cases at_ : s.caller k with
  | startJoin =>
    simp only [callerStep, at_] at run
    split at run
    · cases run
      obtain ⟨frame, pc⟩ := frame rfl rfl id rfl
      exact ⟨frame, .outside rfl (by rw [at_]; rfl) (by rw [pc]; rfl) (by rw [pc]; rfl)⟩
    · cases run
  | stopTest =>
    cases on : s.active <;> simp only [callerStep, at_, on] at run <;> cases run
    · obtain ⟨frame, pc⟩ := frame rfl rfl id rfl
      exact ⟨frame, .skipped rfl on at_ pc⟩
    · obtain ⟨frame, pc⟩ := frame rfl rfl id rfl
      exact ⟨frame, .entered rfl on at_ pc⟩
  | signalTest =>
    cases on : s.active <;> simp only [callerStep, at_, on] at run <;> cases run <;>
    · obtain ⟨frame, pc⟩ := frame rfl rfl id rfl
      exact ⟨frame, .outside rfl (by rw [at_]; rfl) (by rw [pc]; rfl) (by rw [pc]; rfl)⟩
  | stopClear =>
    simp only [callerStep, at_] at run
    cases run
    obtain ⟨frame, pc⟩ := frame rfl rfl (fun no => (by cases no)) rfl
    exact ⟨frame, .cleared rfl at_ pc⟩
  | signalClear =>
    simp only [callerStep, at_] at run
    cases run
    obtain ⟨frame, pc⟩ := frame rfl rfl (fun no => (by cases no)) rfl
    exact ⟨frame, .outside rfl (by rw [at_]; rfl) (by rw [pc]; rfl) (by rw [pc]; rfl)⟩
  | stopAcquire =>
    simp only [callerStep, at_] at run
    split at run
    · rename_i free
      cases run
      obtain ⟨frame, pc⟩ := frame rfl rfl id rfl
      exact ⟨frame, .locked free rfl at_ pc⟩
    · cases run
  | stopReacquire =>
    simp only [callerStep, at_] at run
    split at run
    · rename_i free
      cases run
      obtain ⟨frame, pc⟩ := frame rfl rfl id rfl
      exact ⟨frame, .relocked free rfl at_ pc⟩
    · cases run
  | stopWait =>
    simp only [callerStep, at_] at run
    cases run
    obtain ⟨frame, pc⟩ := frame rfl rfl id rfl
    exact ⟨frame, .parked rfl at_ pc⟩
  | stopRelease =>
    simp only [callerStep, at_] at run
    cases run
    obtain ⟨frame, pc⟩ := frame rfl rfl id rfl
    exact ⟨frame, .returned rfl at_ pc⟩
  | startReturned | stopParked | stopReturned | signalReturned =>
    simp only [callerStep, at_] at run
    cases run
  | startTest | startLoop | pushing | startActive | startCreate | pinning | startThrew
  | terminate =>
    rw [at_] at quiet
    cases quiet

/-- A pop reports an empty pool only when it is. -/
theorem popFalse_empty {pool after : WorkerPool} {call : SchedPoolCalls.Call} {rightFirst : Bool}
    {change : Int} (run : advanceCall pool call rightFirst = (after, .inr (.popFalse change))) :
    after.workers = ∅ := by
  unfold advanceCall SchedPoolCalls.advance at run
  cases call with
  | popLocked id =>
    by_cases empty : pool.workers = ∅
    · simp [empty, SchedPoolCalls.Runner.finish] at run
      rw [← run.1, empty]
    · simp [empty, SchedPoolCalls.Runner.finish, SchedPoolCalls.Runner.setWorkers] at run
  | testCores id =>
    by_cases none : pool.unusedCores = 0
    · cases id <;> simp [none, SchedPoolCalls.Runner.finish] at run
    · simp [none, SchedPoolCalls.Runner.continue] at run
  | loadCores id => simp [SchedPoolCalls.Runner.continue] at run
  | maskCores id first =>
    cases rightFirst <;> simp [SchedPoolCalls.Runner.continue] at run
  | clearCore id affinity =>
    cases id <;> simp [SchedPoolCalls.Runner.continue, SchedPoolCalls.Runner.finish,
      SchedPoolCalls.Runner.setCores] at run
  | emplace id affinity =>
    by_cases there : id ∈ pool.workers <;>
      simp [there, SchedPoolCalls.Runner.finish, SchedPoolCalls.Runner.setWorkers] at run

theorem arbiterStep_arbiter {s t : Life K} {k : K} (run : arbiterStep s k = some t) :
    t.active = s.active ∧ (∀ j, j ≠ k → t.arbiter j = s.arbiter j) ∧ Arbiter s t k := by
  have frame {pc : ArbiterPc} (active : t.active = s.active)
      (arbiter : t.arbiter = Function.update s.arbiter k pc) :
      (t.active = s.active ∧ ∀ j, j ≠ k → t.arbiter j = s.arbiter j) ∧ t.arbiter k = pc := by
    refine ⟨⟨active, fun j other => ?_⟩, ?_⟩
    · rw [arbiter, Function.update_of_ne other]
    · rw [arbiter, Function.update_self]
  rw [← and_assoc]
  cases at_ : s.arbiter k with
  | absent | finished =>
    simp only [arbiterStep, at_] at run
    cases run
  | test =>
    by_cases on : s.active = true
    · simp only [arbiterStep, at_, if_pos on] at run
      cases run
      obtain ⟨frame, pc⟩ := frame rfl rfl
      exact ⟨frame, .loops on at_ pc rfl rfl⟩
    · simp only [arbiterStep, at_, if_neg on] at run
      cases run
      obtain ⟨frame, pc⟩ := frame rfl rfl
      exact ⟨frame, .leaves (by simpa using on) at_ pc rfl rfl⟩
  | frame =>
    simp only [arbiterStep, at_] at run
    cases run
    obtain ⟨frame, pc⟩ := frame rfl rfl
    exact ⟨frame, .framed at_ pc rfl rfl⟩
  | popCounter =>
    simp only [arbiterStep, at_] at run
    cases run
    obtain ⟨frame, pc⟩ := frame rfl rfl
    exact ⟨frame, .pops (Or.inl at_) (Or.inr ⟨_, pc⟩) rfl rfl⟩
  | popping call =>
    simp only [arbiterStep, at_] at run
    split at run
    · cases run
      obtain ⟨frame, pc⟩ := frame rfl rfl
      exact ⟨frame, .pops (Or.inr ⟨_, at_⟩) (Or.inr ⟨_, pc⟩) rfl rfl⟩
    · rename_i failed
      cases run
      obtain ⟨frame, pc⟩ := frame rfl rfl
      exact ⟨frame, .emptied ⟨_, at_⟩ pc (popFalse_empty failed) rfl rfl⟩
    · cases run
      obtain ⟨frame, pc⟩ := frame rfl rfl
      exact ⟨frame, .pops (Or.inr ⟨_, at_⟩) (Or.inl pc) rfl rfl⟩
  | closeAcquire =>
    simp only [arbiterStep, at_] at run
    split at run
    · rename_i free
      cases run
      obtain ⟨frame, pc⟩ := frame rfl rfl
      exact ⟨frame, .locked free at_ pc rfl rfl rfl⟩
    · cases run
  | notifyAll =>
    simp only [arbiterStep, at_] at run
    cases run
    obtain ⟨frame, pc⟩ := frame rfl rfl
    exact ⟨frame, .notifies at_ pc rfl rfl rfl⟩
  | closeRelease =>
    simp only [arbiterStep, at_] at run
    cases run
    obtain ⟨frame, pc⟩ := frame rfl rfl
    exact ⟨frame, .finishes at_ pc rfl rfl rfl⟩

theorem owned_kept {s t : Life K} {k j : K} (owned : Owned k s) (frame : Frame s t j)
    (mutex : t.closeMutex = s.closeMutex)
    (before : s.caller j ≠ .stopWait ∧ s.caller j ≠ .stopRelease)
    (after : t.caller j ≠ .stopWait ∧ t.caller j ≠ .stopRelease) : Owned k t := by
  constructor
  · intro i
    rw [mutex, ← owned.caller i]
    by_cases same : i = j
    · subst same
      simp [before, after]
    · rw [frame.others i same]
  · rw [mutex, frame.arbiter]
    exact owned.arbiter

theorem owned_taken {s t : Life K} {k j : K} (owned : Owned k s) (frame : Frame s t j)
    (free : s.closeMutex = none) (mutex : t.closeMutex = some (.caller j))
    (after : t.caller j = .stopWait ∨ t.caller j = .stopRelease) : Owned k t := by
  constructor
  · intro i
    rw [mutex]
    by_cases same : i = j
    · subst same
      simp [after]
    · rw [frame.others i same, owned.caller i, free]
      simp [Ne.symm same]
  · intro i
    rw [frame.arbiter, owned.arbiter i, free, mutex]
    simp

theorem owned_given {s t : Life K} {k j : K} (owned : Owned k s) (frame : Frame s t j)
    (owner : s.closeMutex = some (.caller j)) (mutex : t.closeMutex = none)
    (after : t.caller j ≠ .stopWait ∧ t.caller j ≠ .stopRelease) : Owned k t := by
  constructor
  · intro i
    rw [mutex]
    by_cases same : i = j
    · subst same
      simp [after]
    · rw [frame.others i same, owned.caller i, owner]
      simp [Ne.symm same]
  · intro i
    rw [frame.arbiter, owned.arbiter i, owner, mutex]
    simp

theorem owned_called {s t : Life K} {k j : K} (owned : Owned k s) (frame : Frame s t j)
    (called : Called s t j) : Owned k t := by
  cases called with
  | outside mutex start pc still =>
    apply owned_kept owned frame mutex
    · constructor <;> intro here <;> rw [here] at start <;> cases start
    · constructor <;> intro here <;> rw [here] at pc <;> cases pc
  | entered mutex on start pc | skipped mutex off start pc | cleared mutex start pc =>
    exact owned_kept owned frame mutex (by simp [start]) (by simp [pc])
  | locked free mutex start pc => exact owned_taken owned frame free mutex (Or.inl pc)
  | relocked free mutex start pc => exact owned_taken owned frame free mutex (Or.inr pc)
  | parked mutex start pc =>
    exact owned_given owned frame ((owned.caller j).mp (Or.inl start)) mutex (by simp [pc])
  | returned mutex start pc =>
    exact owned_given owned frame ((owned.caller j).mp (Or.inr start)) mutex (by simp [pc])

theorem closing_called {s t : Life K} {k j : K} (closing : Closing k s) (frame : Frame s t j)
    (called : Called s t j) : Closing k t := by
  constructor
  · rw [frame.arbiter]
    exact closing.alone
  · intro i
    by_cases same : i = j
    · subst same
      exact called_plain called
    · rw [frame.others i same]
      exact closing.plain i
  · rw [frame.arbiter]
    exact fun on => closing.looping (frame.active on)
  · rw [frame.arbiter, frame.pool]
    exact closing.emptied
  · exact owned_called closing.owned frame called

theorem closing_arbiter {s t : Life K} {k j : K} (closing : Closing k s)
    (run : arbiterStep s j = some t) : Closing k t := by
  have present : j = k := by
    by_contra other
    simp [arbiterStep, closing.alone j other] at run
  subst present
  obtain ⟨active, others, arbiter⟩ := arbiterStep_arbiter run
  constructor
  · intro i other
    rw [others i other]
    exact closing.alone i other
  · intro i
    cases arbiter with
    | notifies start pc mutex pool caller =>
      rw [caller, unpark_plain]
      exact closing.plain i
    | loops on start pc mutex caller | leaves off start pc mutex caller
    | framed start pc mutex caller | pops start pc mutex caller
    | emptied start pc empty mutex caller | locked free start pc mutex pool caller
    | finishes start pc mutex pool caller => rw [caller]; exact closing.plain i
  · intro on
    rw [active] at on
    have loops := closing.looping on
    cases arbiter with
    | loops _ start pc mutex caller | framed start pc mutex caller => rw [pc]; rfl
    | leaves off start pc mutex caller => rw [on] at off; cases off
    | pops start pc mutex caller =>
      obtain start | ⟨call, start⟩ := start <;> rw [start] at loops <;> cases loops
    | emptied start pc empty mutex caller =>
      obtain ⟨call, start⟩ := start
      rw [start] at loops
      cases loops
    | locked free start pc mutex pool caller | notifies start pc mutex pool caller
    | finishes start pc mutex pool caller => rw [start] at loops; cases loops
  · intro ceased
    cases arbiter with
    | loops _ start pc mutex caller | leaves off start pc mutex caller
    | framed start pc mutex caller => rw [pc] at ceased; cases ceased
    | pops start pc mutex caller =>
      obtain pc | ⟨call, pc⟩ := pc <;> rw [pc] at ceased <;> cases ceased
    | emptied start pc empty mutex caller => exact empty
    | locked free start pc mutex pool caller | notifies start pc mutex pool caller
    | finishes start pc mutex pool caller =>
      rw [pool]
      exact closing.emptied (by rw [start]; rfl)
  · exact owned_arbiter closing.owned arbiter

theorem spurious_caller (s : Life K) (j i : K) :
    (s.setCaller j (s.caller j).unpark).caller i = s.caller i ∨
      (s.setCaller j (s.caller j).unpark).caller i = (s.caller i).unpark := by
  by_cases same : i = j
  · subst same
    exact Or.inr (setCaller_self _ _ _)
  · exact Or.inl (setCaller_other _ same _)

theorem closing_spurious {s : Life K} {k : K} (closing : Closing k s) (j : K) :
    Closing k (s.setCaller j (s.caller j).unpark) := by
  have caller := spurious_caller s j
  constructor
  · exact closing.alone
  · intro i
    cases caller i with
    | inl same => rw [same]; exact closing.plain i
    | inr woken => rw [woken, unpark_plain]; exact closing.plain i
  · exact closing.looping
  · exact closing.emptied
  · exact owned_unpark closing.owned caller (Or.inl rfl) rfl

theorem closing_step {s t : Life K} {k : K} {a : Action K} (closing : Closing k s)
    (run : step s a = some t) : Closing k t := by
  cases a with
  | caller j rightFirst =>
    obtain ⟨frame, called⟩ := callerStep_called (closing.plain j) run
    exact closing_called closing frame called
  | spurious j =>
    cases run
    exact closing_spurious closing j
  | arbiter j => exact closing_arbiter closing run

theorem closing_started (k : K) (floating : Bool) (pool : WorkerPool) (stops : K → Bool) :
    Closing k (started k floating pool stops) := by
  have caller : ∀ j, (started k floating pool stops).caller j = .startReturned ∨
      (started k floating pool stops).caller j = .startJoin ∨
      (started k floating pool stops).caller j = .stopTest ∨
      (started k floating pool stops).caller j = .signalTest := by
    intro j
    simp only [started]
    split <;> split <;> simp
  constructor
  · intro j other
    simp [started, other]
  · intro j
    obtain pc | pc | pc | pc := caller j <;> rw [pc] <;> rfl
  · exact fun _ => by simp [started, ArbiterPc.inLoop]
  · intro ceased
    simp [started, drained] at ceased
  · constructor
    · intro j
      obtain pc | pc | pc | pc := caller j <;> simp [pc] <;> simp [started]
    · intro j
      simp [started]

end SchedClose
