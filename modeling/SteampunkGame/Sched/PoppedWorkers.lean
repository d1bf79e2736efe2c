import SteampunkGame.Sched.RoundRobin
import SteampunkGame.Sched.RunnerCalls

/-!
`assign_job` after workers were popped. The next worker id is left over from
assignments to the larger pool, and its worker may be gone.
-/
namespace SchedPopped
open SchedJob SchedPool SchedWorker SchedRunner SchedRunnerCalls SchedRoundRobin
variable {J : Type}

/-- A job was handed to one worker of the pool and its children were noted. -/
structure Served (n : UInt32) (job : J) (st after : Assigning J) : Prop where
  handed : ∃ id, id < n ∧ after.calls = st.calls ++ [.assign id job, .wake id]
  children : after.runNext = st.runNext ++ st.runner.graph.children job
  next : 1 ≤ after.nextWorkerId ∧ after.nextWorkerId ≤ n
  runner : after.runner = st.runner

theorem lookup_popped {pool : WorkerPool} (some : pool.workers ≠ ∅) (id : UInt32) :
    (popWorker pool).2.workers.lookup id =
      if id = pool.workerIdCounter - 1 then none else pool.workers.lookup id := by
  simp only [popWorker, some, if_false]
  by_cases last : id = pool.workerIdCounter - 1
  · rw [if_pos last, last, Finmap.lookup_erase]
  · rw [if_neg last, Finmap.lookup_erase_ne last]

/-- A pop takes the last worker of a static pool. -/
theorem popWorker_static {n : UInt32} {pool : WorkerPool} (static : StaticPool (n + 1) pool)
    (positive : 0 < n) : (popWorker pool).1 = true ∧ StaticPool n (popWorker pool).2 := by
  have below : ∀ id, id < n + 1 ↔ id < n ∨ id = n := by
    have room := static.positive
    intro id
    rw [UInt32.lt_iff_toNat_lt, UInt32.toNat_zero, UInt32.toNat_add, UInt32.toNat_one] at room
    rw [UInt32.lt_iff_toNat_lt, UInt32.lt_iff_toNat_lt, ← UInt32.toNat_inj, UInt32.toNat_add,
      UInt32.toNat_one]
    have top := n.toNat_lt
    omega
  have some := static_nonempty static
  have last : pool.workerIdCounter - 1 = n := by
    rw [static.counter]
    grind
  refine ⟨by simp [popWorker, some], ?_⟩
  constructor
  · simp [popWorker, some, last]
  · exact positive
  · intro id inside
    rw [lookup_popped some, last, if_neg (UInt32.ne_of_lt inside)]
    exact static.present id ((below id).mpr (Or.inl inside))
  · intro id outside
    rw [lookup_popped some, last]
    by_cases popped : id = n
    · rw [if_pos popped]
    · rw [if_neg popped]
      exact static.absent id fun inside => ((below id).mp inside).elim outside popped

variable [DecidableEq J]

/-- The call returns, and so it did not lock the pool mutex again. -/
def Survives (n : UInt32) (job : J) (st : Assigning J) : Prop :=
  ∃ after, assignJob 1 job st = .ok after ∧ Served n job st after

/-- Beyond the counter no worker is found, and the retry locks the mutex that
    the call holds. -/
theorem assignJob_beyond {n : UInt32} {st : Assigning J} {job : J}
    (static : StaticPool n st.runner.pool) (live : st.runner.graph.exited job = false)
    (beyond : n < st.nextWorkerId) : assignJob 1 job st = .error .poolMutexHeld := by
  have other : st.nextWorkerId ≠ st.runner.pool.workerIdCounter := by
    rw [static.counter]
    exact (UInt32.ne_of_lt beyond).symm
  have missing : st.runner.pool.workers.lookup
      (if st.nextWorkerId = st.runner.pool.workerIdCounter then 0 else st.nextWorkerId) = none := by
    rw [if_neg other]
    exact static.absent _ fun inside => UInt32.lt_irrefl _ (UInt32.lt_trans inside beyond)
  have some := static_nonempty static
  have behind : st.nextWorkerId + 1 ≠ 1 := by
    intro first
    have zero : st.nextWorkerId = 0 := by grind
    rw [zero] at beyond
    exact UInt32.not_lt_zero beyond
  simp [assignJob, live, other, missing, some, behind]

/-- Whatever was assigned before, a job is served exactly if the id that was
    left over is not beyond the counter. -/
theorem assign_survives_iff {n : UInt32} {st : Assigning J} {job : J}
    (static : StaticPool n st.runner.pool) (live : st.runner.graph.exited job = false) :
    Survives n job st ↔ st.nextWorkerId ≤ n := by
  constructor
  · rintro ⟨after, run, _⟩
    by_contra beyond
    rw [assignJob_beyond static live (UInt32.not_le.mp beyond)] at run
    cases run
  · intro bound
    refine ⟨_, assignJob_static static bound live, ?_⟩
    constructor
    · exact ⟨_, turn_lt static.positive bound, rfl⟩
    · rfl
    · refine ⟨?_, turn_succ_le static.positive bound⟩
      have below := turn_lt static.positive bound
      have top := n.toNat_lt
      rw [UInt32.lt_iff_toNat_lt] at below
      rw [UInt32.le_iff_toNat_le, UInt32.toNat_add, UInt32.toNat_one]
      omega
    · rfl

/-- A single worker that just got a job gets the next one, too. -/
theorem assign_survives_single :
    Survives 1 () ⟨⟨.initial, [], filledPool 1⟩, 1, [], []⟩ :=
  (assign_survives_iff (filledPool_static (n := 1) (by decide)) rfl).mpr (by decide)

/-- Two jobs go to two workers, one worker is popped, and the next job finds no
    worker under the id that was left over. -/
theorem popped_worker_relocks : ∃ st : Assigning Unit,
    assignAll [(), ()] ⟨⟨.initial, [], filledPool 2⟩, 0, [], []⟩ = .ok st ∧
      st.nextWorkerId = 2 ∧ StaticPool 1 (popWorker st.runner.pool).2 ∧
      assignJob 1 () { st with runner := { st.runner with pool := (popWorker st.runner.pool).2 } } =
        .error .poolMutexHeld ∧
      ¬ Survives 1 ()
        { st with runner := { st.runner with pool := (popWorker st.runner.pool).2 } } := by
  have static := (popWorker_static (n := 1) (filledPool_static (n := 2) (by decide))
    (by decide)).2
  have beyond : (1 : UInt32) < 2 := by decide
  refine ⟨_, rfl, rfl, static, assignJob_beyond static rfl beyond, ?_⟩
  rintro ⟨after, run, _⟩
  rw [assignJob_beyond static rfl beyond] at run
  cases run

end SchedPopped
