import Mathlib.Algebra.Ring.Int.Defs
import Mathlib.Data.List.Perm.Basic
import SteampunkGame.Lib.Runs
import SteampunkGame.Sched.WorkerPool

/-!
Any number of concurrent `push_worker` and `pop_worker` calls, step by step:
the counter and the core mask are atomics that are read and written outside
the pool mutex, and only the last part of a call runs under it.
-/
namespace SchedPoolCalls
open SchedPool Runs

/-- A call in progress, by what it does next. Without an id the core is for
    the arbiter thread, which `start` pins as well. -/
inductive Call where
  | testCores (id : Option UInt32)
  | loadCores (id : Option UInt32)
  | maskCores (id : Option UInt32) (first : UInt64)
  | clearCore (id : Option UInt32) (affinity : UInt64)
  | emplace (id : UInt32) (affinity : UInt64)
  | popLocked (id : UInt32)
  deriving DecidableEq, Repr

/-- How a call ended, with what it had changed itself by then. -/
inductive Return where
  | pushed (inserted : Bool)
  | pushThrew (counterChange : Int)
  | popTrue (removed : Nat)
  | popFalse (counterChange : Int)
  | pinned
  | startThrew
  deriving DecidableEq, Repr

/-- `returns` records the ends of calls; no step reads it. -/
structure Runner where
  pool : WorkerPool
  calls : List Call
  returns : List Return

inductive Action where
  | push
  | pop
  | pinArbiter
  | advance (call : Nat) (rightFirst : Bool)
  deriving DecidableEq, Repr

/-- A runner that no worker was pushed to. -/
def fresh (cores : UInt64) : Runner := ⟨⟨cores, 0, ∅⟩, [], []⟩

def Runner.begin (s : Runner) (call : Call) : Runner := { s with calls := s.calls ++ [call] }

def Runner.continue (s : Runner) (k : Nat) (call : Call) : Runner :=
  { s with calls := s.calls.set k call }

def Runner.finish (s : Runner) (k : Nat) (result : Return) : Runner :=
  { s with calls := s.calls.eraseIdx k, returns := s.returns ++ [result] }

def Runner.setCores (s : Runner) (cores : UInt64) : Runner :=
  { s with pool := { s.pool with unusedCores := cores } }

def Runner.setCounter (s : Runner) (counter : UInt32) : Runner :=
  { s with pool := { s.pool with workerIdCounter := counter } }

def Runner.setWorkers (s : Runner) (workers : Finmap fun _ : UInt32 => Option WorkerHandle) :
    Runner :=
  { s with pool := { s.pool with workers := workers } }

/-- The next step of a call. The two loads in the mask expression may be made
    in either order. `emplace` keeps an entry that is there, and `operator[]`
    creates a null entry, which `erase` removes again. -/
def advance (s : Runner) (k : Nat) (rightFirst : Bool) : Call → Runner
  | .testCores id =>
      if s.pool.unusedCores = 0 then
        match id with
        | some _ => s.finish k (.pushThrew 1)
        | none => s.finish k .startThrew
      else s.continue k (.loadCores id)
  | .loadCores id => s.continue k (.maskCores id s.pool.unusedCores)
  | .maskCores id first =>
      let second := s.pool.unusedCores
      if rightFirst then s.continue k (.clearCore id (second &&& ~~~(first - 1)))
      else s.continue k (.clearCore id (first &&& ~~~(second - 1)))
  | .clearCore id affinity =>
      let s := s.setCores (s.pool.unusedCores &&& ~~~affinity)
      match id with
      | some id => s.continue k (.emplace id affinity)
      | none => s.finish k .pinned
  | .emplace id affinity =>
      if id ∈ s.pool.workers then s.finish k (.pushed false)
      else (s.setWorkers (s.pool.workers.insert id (some ⟨id, affinity⟩))).finish k (.pushed true)
  | .popLocked id =>
      if s.pool.workers = ∅ then s.finish k (.popFalse (-1))
      else
        let removed := match s.pool.workers.lookup id with
          | some (some _) => 1
          | _ => 0
        (s.setWorkers (s.pool.workers.erase id)).finish k (.popTrue removed)

def step (s : Runner) : Action → Option Runner
  | .push =>
      let id := s.pool.workerIdCounter
      some ((s.setCounter (id + 1)).begin (.testCores (some id)))
  | .pop =>
      let id := s.pool.workerIdCounter - 1
      some ((s.setCounter id).begin (.popLocked id))
  | .pinArbiter => some (s.begin (.testCores none))
  | .advance k rightFirst =>
      match s.calls[k]? with
      | none => none
      | some call => some (advance s k rightFirst call)

/-- Workers are addressed by ids below the counter, and by no others. -/
def PoolAgrees (pool : WorkerPool) : Prop :=
  ∀ id, if id < pool.workerIdCounter then ∃ w, pool.workers.lookup id = some (some w)
    else pool.workers.lookup id = none

/-- A pop that returns true removed one worker, and calls that fail have
    changed nothing. -/
def Return.Faithful : Return → Prop
  | .pushThrew change => change = 0
  | .popTrue removed => removed = 1
  | .popFalse change => change = 0
  | _ => True

/-- A push finds a core and a free id, and not the last one of all; a pop
    finds the worker whose id it took. -/
def StepOk (s : Runner) : Action → Prop
  | .advance k _ =>
      match s.calls[k]? with
      | some (.testCores (some _)) => s.pool.unusedCores ≠ 0
      | some (.emplace id _) => id ∉ s.pool.workers ∧ ∃ other, other ≠ id ∧ other ∉ s.pool.workers
      | some (.popLocked id) => id ∈ s.pool.workers
      | _ => True
  | _ => True

/-- The id for which a call will add a worker. -/
def Call.pushId : Call → Option UInt32
  | .testCores id | .loadCores id | .maskCores id _ | .clearCore id _ => id
  | .emplace id _ => some id
  | .popLocked _ => none

/-- The id at which a call will remove a worker. -/
def Call.popId : Call → Option UInt32
  | .popLocked id => some id
  | _ => none

/-- What a call in progress will still do to the entry of an id. -/
def weight (id : UInt32) (call : Call) : Int :=
  (if call.pushId = some id then 1 else 0) - (if call.popId = some id then 1 else 0)

def balance (id : UInt32) (calls : List Call) : Int := (calls.map (weight id)).sum

/-- How often counting up from zero to `c` passes an id, downwards negative. -/
def rounds (c : Int) (id : UInt32) : Int := (c - id.toNat + 4294967295) / 4294967296

/-- The pool, the calls in progress and the counter agree for a counter that
    does not wrap. -/
structure Balanced (s : Runner) : Prop where
  counted : ∃ c : Int, (s.pool.workerIdCounter.toNat : Int) = c % 4294967296 ∧
    ∀ id, (if id ∈ s.pool.workers then 1 else 0) + balance id s.calls = rounds c id
  nonNull : ∀ id, s.pool.workers.lookup id ≠ some none
  spare : ∃ id, id ∉ s.pool.workers
  faithful : ∀ r ∈ s.returns, r.Faithful

theorem balance_append (id : UInt32) (calls : List Call) (call : Call) :
    balance id (calls ++ [call]) = balance id calls + weight id call := by
  simp [balance]

theorem balance_eraseIdx {calls : List Call} {k : Nat} {call : Call} (found : calls[k]? = some call)
    (id : UInt32) : balance id calls = weight id call + balance id (calls.eraseIdx k) := by
  obtain ⟨inside, here⟩ := List.getElem?_eq_some_iff.mp found
  have same := ((List.getElem_cons_eraseIdx_perm inside).map (weight id)).sum_eq
  rw [here, List.map_cons, List.sum_cons] at same
  exact same.symm

theorem balance_set {calls : List Call} {k : Nat} {call : Call} (found : calls[k]? = some call)
    {next : Call} (id : UInt32) (same : weight id next = weight id call) :
    balance id (calls.set k next) = balance id calls := by
  obtain ⟨inside, _⟩ := List.getElem?_eq_some_iff.mp found
  have moved := ((List.set_perm_cons_eraseIdx inside next).map (weight id)).sum_eq
  rw [List.map_cons, List.sum_cons] at moved
  rw [balance_eraseIdx found id, ← same]
  exact moved

theorem rounds_succ (counter id : UInt32) {c : Int} (low : (counter.toNat : Int) = c % 4294967296) :
    rounds (c + 1) id = rounds c id + if counter = id then 1 else 0 := by
  have below := id.toNat_lt
  unfold rounds
  by_cases same : counter = id
  · subst same
    rw [if_pos rfl]
    omega
  · have apart : counter.toNat ≠ id.toNat := fun eq => same (UInt32.toNat_inj.mp eq)
    rw [if_neg same]
    omega

theorem counter_succ {counter : UInt32} {c : Int} (low : (counter.toNat : Int) = c % 4294967296) :
    ((counter + 1).toNat : Int) = (c + 1) % 4294967296 := by
  rw [UInt32.toNat_add, UInt32.toNat_one]
  omega

theorem counter_pred {counter : UInt32} {c : Int} (low : (counter.toNat : Int) = c % 4294967296) :
    ((counter - 1).toNat : Int) = (c - 1) % 4294967296 := by
  have below := counter.toNat_lt
  rw [UInt32.toNat_sub, UInt32.toNat_one]
  omega

theorem balanced_push {s : Runner} (balanced : Balanced s) :
    Balanced ((s.setCounter (s.pool.workerIdCounter + 1)).begin
      (.testCores (some s.pool.workerIdCounter))) := by
  obtain ⟨⟨c, low, counts⟩, nonNull, spare, faithful⟩ := balanced
  refine ⟨⟨c + 1, counter_succ low, ?_⟩, nonNull, spare, faithful⟩
  intro id
  have added : weight id (.testCores (some s.pool.workerIdCounter)) =
      if s.pool.workerIdCounter = id then 1 else 0 := by simp [weight, Call.pushId, Call.popId]
  rw [Runner.begin, balance_append, rounds_succ s.pool.workerIdCounter id low, ← counts id, added]
  exact (Int.add_assoc _ _ _).symm

theorem balanced_pop {s : Runner} (balanced : Balanced s) :
    Balanced ((s.setCounter (s.pool.workerIdCounter - 1)).begin
      (.popLocked (s.pool.workerIdCounter - 1))) := by
  obtain ⟨⟨c, low, counts⟩, nonNull, spare, faithful⟩ := balanced
  have down := counter_pred low
  refine ⟨⟨c - 1, down, ?_⟩, nonNull, spare, faithful⟩
  intro id
  have taken : weight id (.popLocked (s.pool.workerIdCounter - 1)) =
      - if s.pool.workerIdCounter - 1 = id then 1 else 0 := by
    simp [weight, Call.pushId, Call.popId]
  have up := rounds_succ (s.pool.workerIdCounter - 1) id down
  rw [Int.sub_add_cancel, ← counts id] at up
  rw [Runner.begin, balance_append, taken]
  have here : (s.setCounter (s.pool.workerIdCounter - 1)).pool.workers = s.pool.workers := rfl
  have same : (s.setCounter (s.pool.workerIdCounter - 1)).calls = s.calls := rfl
  rw [here, same]
  omega

theorem balanced_continue {s : Runner} {k : Nat} {call next : Call} (balanced : Balanced s)
    (found : s.calls[k]? = some call) (same : ∀ id, weight id next = weight id call) :
    Balanced (s.continue k next) := by
  obtain ⟨⟨c, low, counts⟩, nonNull, spare, faithful⟩ := balanced
  refine ⟨⟨c, low, ?_⟩, nonNull, spare, faithful⟩
  intro id
  rw [Runner.continue, balance_set found id (same id)]
  exact counts id

/-- Ending a call that had no more to do to the pool. -/
theorem balanced_finish {s : Runner} {k : Nat} {call : Call} {result : Return}
    (balanced : Balanced s) (found : s.calls[k]? = some call) (none : ∀ id, weight id call = 0)
    (good : result.Faithful) : Balanced (s.finish k result) := by
  obtain ⟨⟨c, low, counts⟩, nonNull, spare, faithful⟩ := balanced
  refine ⟨⟨c, low, ?_⟩, nonNull, spare, ?_⟩
  · intro id
    have now := counts id
    rw [balance_eraseIdx found id, none id, Int.zero_add] at now
    exact now
  · intro r among
    cases List.mem_append.mp among with
    | inl earlier => exact faithful r earlier
    | inr last => rw [List.mem_singleton.mp last]; exact good

theorem balanced_emplace {s : Runner} {k : Nat} {id : UInt32} {affinity : UInt64}
    (balanced : Balanced s) (found : s.calls[k]? = some (.emplace id affinity))
    (free : id ∉ s.pool.workers) (left : ∃ other, other ≠ id ∧ other ∉ s.pool.workers) :
    Balanced ((s.setWorkers (s.pool.workers.insert id (some ⟨id, affinity⟩))).finish k
      (.pushed true)) := by
  obtain ⟨⟨c, low, counts⟩, nonNull, spare, faithful⟩ := balanced
  obtain ⟨other, apart, absent⟩ := left
  constructor
  · refine ⟨c, low, ?_⟩
    intro at_
    have now := counts at_
    rw [balance_eraseIdx found at_] at now
    rw [← now]
    have members : at_ ∈ s.pool.workers.insert id (some ⟨id, affinity⟩) ↔
        at_ = id ∨ at_ ∈ s.pool.workers := Finmap.mem_insert
    simp only [Runner.finish, Runner.setWorkers, members, weight, Call.pushId, Call.popId]
    by_cases here : at_ = id
    · subst here
      simp [free]
    · simp [here, Ne.symm here]
  · intro at_
    by_cases here : at_ = id
    · subst here
      simp [Runner.finish, Runner.setWorkers]
    · simp only [Runner.finish, Runner.setWorkers, Finmap.lookup_insert_of_ne _ here]
      exact nonNull at_
  · exact ⟨other, by
      simp only [Runner.finish, Runner.setWorkers, Finmap.mem_insert, not_or]
      exact ⟨apart, absent⟩⟩
  · intro r among
    cases List.mem_append.mp among with
    | inl earlier => exact faithful r earlier
    | inr last => rw [List.mem_singleton.mp last]; trivial

theorem balanced_popLocked {s : Runner} {k : Nat} {id : UInt32} {removed : Nat}
    (balanced : Balanced s) (found : s.calls[k]? = some (.popLocked id))
    (there : id ∈ s.pool.workers) (one : removed = 1) :
    Balanced ((s.setWorkers (s.pool.workers.erase id)).finish k (.popTrue removed)) := by
  obtain ⟨⟨c, low, counts⟩, nonNull, spare, faithful⟩ := balanced
  obtain ⟨other, absent⟩ := spare
  constructor
  · refine ⟨c, low, ?_⟩
    intro at_
    have now := counts at_
    rw [balance_eraseIdx found at_] at now
    rw [← now]
    simp only [Runner.finish, Runner.setWorkers, Finmap.mem_erase, weight, Call.pushId, Call.popId]
    by_cases here : at_ = id
    · subst here
      simp [there]
    · simp [here, Ne.symm here]
  · intro at_
    by_cases here : at_ = id
    · subst here
      simp [Runner.finish, Runner.setWorkers]
    · simp only [Runner.finish, Runner.setWorkers, Finmap.lookup_erase_ne here]
      exact nonNull at_
  · exact ⟨other, by
      simp only [Runner.finish, Runner.setWorkers, Finmap.mem_erase, not_and]
      exact fun _ => absent⟩
  · intro r among
    cases List.mem_append.mp among with
    | inl earlier => exact faithful r earlier
    | inr last => rw [List.mem_singleton.mp last]; exact one

theorem lookup_worker {s : Runner} (balanced : Balanced s) {id : UInt32}
    (there : id ∈ s.pool.workers) : ∃ w, s.pool.workers.lookup id = some (some w) := by
  obtain ⟨entry, found⟩ := Finmap.mem_iff.mp there
  cases entry with
  | none => exact absurd found (balanced.nonNull id)
  | some w => exact ⟨w, found⟩

theorem balanced_advance {s : Runner} {k : Nat} {rightFirst : Bool} {call : Call}
    (balanced : Balanced s) (found : s.calls[k]? = some call)
    (ok : StepOk s (.advance k rightFirst)) : Balanced (advance s k rightFirst call) := by
  rw [StepOk, found] at ok
  cases call with
  | testCores id =>
    cases id with
    | some id =>
      rw [advance, if_neg ok]
      exact balanced_continue balanced found fun _ => rfl
    | none =>
      rw [advance]
      split
      · exact balanced_finish balanced found (fun _ => rfl) trivial
      · exact balanced_continue balanced found fun _ => rfl
  | loadCores id => exact balanced_continue balanced found fun _ => rfl
  | maskCores id first =>
    rw [advance]
    split
    · exact balanced_continue balanced found fun _ => rfl
    · exact balanced_continue balanced found fun _ => rfl
  | clearCore id affinity =>
    have masked : Balanced (s.setCores (s.pool.unusedCores &&& ~~~affinity)) :=
      ⟨balanced.counted, balanced.nonNull, balanced.spare, balanced.faithful⟩
    cases id with
    | some id => exact balanced_continue masked found fun _ => rfl
    | none => exact balanced_finish masked found (fun _ => rfl) trivial
  | emplace id affinity =>
    rw [advance, if_neg ok.1]
    exact balanced_emplace balanced found ok.1 ok.2
  | popLocked id =>
    obtain ⟨w, entry⟩ := lookup_worker balanced ok
    have filled : s.pool.workers ≠ ∅ := by
      intro empty
      rw [empty] at ok
      exact Finmap.notMem_empty ok
    rw [advance, if_neg filled, entry]
    exact balanced_popLocked balanced found ok rfl

theorem balanced_step {s t : Runner} {a : Action} (balanced : Balanced s) (ok : StepOk s a)
    (run : step s a = some t) : Balanced t := by
  cases a with
  | push => cases run; exact balanced_push balanced
  | pop => cases run; exact balanced_pop balanced
  | pinArbiter =>
    cases run
    obtain ⟨⟨c, low, counts⟩, nonNull, spare, faithful⟩ := balanced
    refine ⟨⟨c, low, ?_⟩, nonNull, spare, faithful⟩
    intro id
    rw [Runner.begin, balance_append, ← counts id]
    exact congrArg _ (Int.add_zero _)
  | advance k rightFirst =>
    simp only [step] at run
    cases found : s.calls[k]? with
    | none => rw [found] at run; cases run
    | some call =>
      rw [found] at run
      cases run
      exact balanced_advance balanced found ok

theorem balanced_fresh (cores : UInt64) : Balanced (fresh cores) := by
  constructor
  · refine ⟨0, rfl, ?_⟩
    intro id
    have below := id.toNat_lt
    have zero : rounds 0 id = 0 := by
      unfold rounds
      omega
    rw [zero, fresh, if_neg Finmap.notMem_empty]
    rfl
  · intro id
    rw [fresh, Finmap.lookup_empty]
    exact Option.some_ne_none _ ∘ Eq.symm
  · exact ⟨0, Finmap.notMem_empty⟩
  · intro r among
    cases among

/-- With no call in progress the counter cannot have wrapped, as each id is
    in the pool at most once and one is not. -/
theorem balanced_agrees {s : Runner} (balanced : Balanced s) (quiet : s.calls = []) :
    PoolAgrees s.pool := by
  obtain ⟨c, low, counts⟩ := balanced.counted
  rw [quiet] at counts
  obtain ⟨other, absent⟩ := balanced.spare
  have entries : ∀ id, (if id ∈ s.pool.workers then (1 : Int) else 0) = rounds c id := by
    intro id
    rw [← counts id]
    exact (Int.add_zero _).symm
  have none := entries other
  rw [if_neg absent] at none
  have first := entries 0
  have last := entries 4294967295
  unfold rounds at none first last entries
  have bound := other.toNat_lt
  have zero : (0 : UInt32).toNat = 0 := rfl
  have top : (4294967295 : UInt32).toNat = 4294967295 := rfl
  rw [zero] at first
  rw [top] at last
  have unwrapped : 0 ≤ c ∧ c < 4294967296 := by
    split at first <;> split at last <;> omega
  intro id
  have entry := entries id
  have inside := id.toNat_lt
  split
  · rename_i below
    rw [UInt32.lt_iff_toNat_lt] at below
    apply lookup_worker balanced
    by_contra missing
    rw [if_neg missing] at entry
    omega
  · rename_i above
    rw [UInt32.lt_iff_toNat_lt] at above
    rw [Finmap.lookup_eq_none]
    intro there
    rw [if_pos there] at entry
    omega

/-- The worker ids in every run of calls in which no step meets the end of the
    cores, a taken id, the last id, or a missing worker. -/
theorem pool_ids {cores : UInt64} {s : Runner}
    (walk : Reaches step StepOk (fresh cores) s) :
    (s.calls = [] → PoolAgrees s.pool) ∧ ∀ r ∈ s.returns, r.Faithful := by
  have balanced := reaches_invariant (fun _ _ _ before ok run => balanced_step before ok run) walk
    (balanced_fresh cores)
  constructor
  · exact balanced_agrees balanced
  · exact balanced.faithful

/-- Two pushes that overlap, and a pop after them. -/
theorem pool_ids_popped : ∃ s, Reaches step StepOk (fresh 3) s ∧ s.calls = [] ∧
    s.pool.workerIdCounter = 1 ∧ s.returns = [.pushed true, .pushed true, .popTrue 1] ∧
    PoolAgrees s.pool ∧ ∀ r ∈ s.returns, r.Faithful := by
  have cores : (3 : UInt64) ≠ 0 := by decide
  have more : (2 : UInt64) ≠ 0 := by decide
  have first : (0 : UInt32) ∉ (fresh 3).pool.workers := Finmap.notMem_empty
  have second : (1 : UInt32) ∉
      ((fresh 3).setWorkers (.insert 0 (some ⟨0, 1⟩) ∅)).pool.workers := by decide
  have third : (2 : UInt32) ∉
      ((fresh 3).setWorkers (.insert 0 (some ⟨0, 1⟩) ∅)).pool.workers := by decide
  have pushed : (1 : UInt32) ∈ ((fresh 3).setWorkers
      (.insert 1 (some ⟨1, 2⟩) (.insert 0 (some ⟨0, 1⟩) ∅))).pool.workers := by decide
  have run : ∃ s, Reaches step StepOk (fresh 3) s ∧ s.calls = [] ∧ s.pool.workerIdCounter = 1 ∧
      s.returns = [.pushed true, .pushed true, .popTrue 1] :=
    ⟨_, .head ⟨.push, trivial, rfl⟩ (.head ⟨.push, trivial, rfl⟩
      (.head ⟨.advance 0 false, cores, rfl⟩ (.head ⟨.advance 1 false, cores, rfl⟩
      (.head ⟨.advance 0 false, trivial, rfl⟩ (.head ⟨.advance 0 false, trivial, rfl⟩
      (.head ⟨.advance 0 false, trivial, rfl⟩ (.head ⟨.advance 1 false, trivial, rfl⟩
      (.head ⟨.advance 1 false, trivial, rfl⟩ (.head ⟨.advance 1 false, trivial, rfl⟩
      (.head ⟨.advance 0 false, ⟨first, 1, by decide, Finmap.notMem_empty⟩, rfl⟩
      (.head ⟨.advance 0 false, ⟨second, 2, by decide, third⟩, rfl⟩
      (.head ⟨.pop, trivial, rfl⟩ (.head ⟨.advance 0 false, pushed, rfl⟩
      .refl))))))))))))), rfl, rfl, rfl⟩
  obtain ⟨s, walk, quiet, counter, returns⟩ := run
  have holds := pool_ids walk
  exact ⟨s, walk, quiet, counter, returns, holds.1 quiet, holds.2⟩

/-- One worker is pushed; then the loop of the shutdown pops it, and pops once
    more from the empty pool. -/
theorem shutdown_wraps_counter : ∃ s, Reaches step anyAction (fresh 3) s ∧ s.calls = [] ∧
    s.pool.workerIdCounter = 4294967295 ∧ ¬ PoolAgrees s.pool ∧
    ¬ ∀ r ∈ s.returns, r.Faithful := by
  have run : ∃ s, runActions step ([.push] ++ List.replicate 5 (.advance 0 false) ++
      [.pop, .advance 0 false, .pop, .advance 0 false]) (fresh 3) = some s ∧ s.calls = [] ∧
      s.pool.workerIdCounter = 4294967295 ∧ s.pool.workers.lookup 0 = none ∧
      s.returns = [.pushed true, .popTrue 1, .popFalse (-1)] := ⟨_, rfl, rfl, rfl, rfl, rfl⟩
  obtain ⟨s, taken, quiet, counter, empty, returns⟩ := run
  refine ⟨s, runActions_reaches taken, quiet, counter, ?_, ?_⟩
  · intro agrees
    have zero := agrees 0
    rw [counter, if_pos (by decide), empty] at zero
    obtain ⟨w, found⟩ := zero
    cases found
  · intro faithful
    have last : (-1 : Int) = 0 := faithful (.popFalse (-1)) (by rw [returns]; simp)
    cases last

end SchedPoolCalls
