import SteampunkGame.Sched.Runner

/-!
Assignment over a static pool. Ids are dealt in increasing order and wrap at
the counter; the retry for a missing worker is never taken.
-/
namespace SchedRoundRobin
open SchedJob SchedPool SchedWorker SchedRunner
variable {J : Type}

/-- The worker whose turn it is, once the id is reset at the counter. -/
def turn (n next : UInt32) : UInt32 := if next = n then 0 else next

theorem turn_lt {n next : UInt32} (positive : 0 < n) (bound : next ≤ n) : turn n next < n := by
  unfold turn
  split
  · exact positive
  · rename_i ne
    exact UInt32.lt_of_le_of_ne bound ne

theorem turn_succ_le {n next : UInt32} (positive : 0 < n) (bound : next ≤ n) :
    turn n next + 1 ≤ n := by
  have below := turn_lt positive bound
  rw [UInt32.lt_iff_toNat_lt] at below
  have top := n.toNat_lt
  rw [UInt32.le_iff_toNat_le, UInt32.toNat_add]
  simp only [UInt32.toNat_one]
  omega

/-- The calls that hand a list of jobs to the workers in turn. -/
def deal (n : UInt32) : UInt32 → List J → List (Command UInt32 J)
  | _, [] => []
  | next, job :: rest =>
      .assign (turn n next) job :: .wake (turn n next) :: deal n (turn n next + 1) rest

def dealNext (n : UInt32) : UInt32 → List J → UInt32
  | next, [] => next
  | next, _ :: rest => dealNext n (turn n next + 1) rest

theorem dealNext_append (n next : UInt32) (xs ys : List J) :
    dealNext n next (xs ++ ys) = dealNext n (dealNext n next xs) ys := by
  induction xs generalizing next with
  | nil => rfl
  | cons x xs ih => exact ih _

theorem dealNext_le {n next : UInt32} (positive : 0 < n) (bound : next ≤ n) (jobs : List J) :
    dealNext n next jobs ≤ n := by
  induction jobs generalizing next with
  | nil => exact bound
  | cons job rest ih => exact ih (turn_succ_le positive bound)

@[simp] theorem assignedJobs_deal (n next : UInt32) (jobs : List J) :
    assignedJobs (deal n next jobs) = jobs := by
  induction jobs generalizing next with
  | nil => rfl
  | cons job rest ih =>
    simp only [deal, assignedJobs, List.filterMap_cons]
    exact congrArg (job :: ·) (ih _)

def waits (n : UInt32) : List (Command UInt32 J) := (workerIds n).map .waitCycleFinish

@[simp] theorem assignedJobs_waits (n : UInt32) :
    assignedJobs (waits n : List (Command UInt32 J)) = [] := by
  simp [assignedJobs, waits, List.filterMap_map]

theorem assignedJobs_append {W : Type} (xs ys : List (Command W J)) :
    assignedJobs (xs ++ ys) = assignedJobs xs ++ assignedJobs ys :=
  List.filterMap_append

theorem waitFrom_present {pool : WorkerPool} {ids : List UInt32}
    (present : ∀ id ∈ ids, ∃ w, pool.workers.lookup id = some (some w)) :
    waitFrom pool ids = .ok (ids.map (.waitCycleFinish (J := J))) := by
  induction ids with
  | nil => rfl
  | cons id rest ih =>
    obtain ⟨w, found⟩ := present id (by simp)
    have tail := ih fun later mem => present later (List.mem_cons_of_mem id mem)
    simp [waitFrom, found, tail]

theorem waitForWorkers_static {n : UInt32} {pool : WorkerPool} (static : StaticPool n pool) :
    waitForWorkers (J := J) pool = .ok (waits n) := by
  unfold waitForWorkers
  rw [static.counter]
  exact waitFrom_present fun id mem => static.present id ((mem_workerIds n id).mp mem)

variable [DecidableEq J]

theorem assignJob_static {n : UInt32} {job : J} {st : Assigning J}
    (static : StaticPool n st.runner.pool) (bound : st.nextWorkerId ≤ n)
    (live : st.runner.graph.exited job = false) :
    assignJob 1 job st = .ok { st with
      nextWorkerId := turn n st.nextWorkerId + 1
      calls := st.calls ++ [.assign (turn n st.nextWorkerId) job, .wake (turn n st.nextWorkerId)]
      runNext := st.runNext ++ st.runner.graph.children job } := by
  obtain ⟨w, found⟩ := static.present _ (turn_lt static.positive bound)
  obtain rfl := static.counter
  unfold turn at found
  simp [assignJob, live, found, turn]

theorem assignJob_exited {free : Nat} {job : J} {st : Assigning J} {after : Runner J}
    (exited : st.runner.graph.exited job = true) (erased : st.runner.erase job = .ok after) :
    assignJob free job st = .ok { st with runner := after } := by
  cases free <;> simp [assignJob, exited, erased]

theorem assignAll_cons {job : J} {rest : List J} {st next : Assigning J}
    (first : assignJob 1 job st = .ok next) :
    assignAll (job :: rest) st = assignAll rest next := by
  simp only [assignAll, List.foldlM_cons, first]
  rfl

/-- What each call keeps the whole loop keeps. -/
theorem assignAll_keeps (inv : Assigning J → Prop)
    (keep : ∀ job st after, inv st → assignJob 1 job st = .ok after → inv after) {jobs : List J}
    {st after : Assigning J} (start : inv st) (run : assignAll jobs st = .ok after) :
    inv after := by
  induction jobs generalizing st with
  | nil =>
    cases run
    exact start
  | cons job rest ih =>
    cases first : assignJob 1 job st with
    | ok next =>
      rw [assignAll_cons first] at run
      exact ih (keep job st next start first) run
    | error fault =>
      simp only [assignAll, List.foldlM_cons, first] at run
      cases run

/-- A list without exited jobs: nothing but the assignment state changes. -/
theorem assignAll_live {n : UInt32} {jobs : List J} {st : Assigning J}
    (static : StaticPool n st.runner.pool) (bound : st.nextWorkerId ≤ n)
    (live : ∀ job ∈ jobs, st.runner.graph.exited job = false) :
    assignAll jobs st = .ok { st with
      nextWorkerId := dealNext n st.nextWorkerId jobs
      calls := st.calls ++ deal n st.nextWorkerId jobs
      runNext := st.runNext ++ jobs.flatMap st.runner.graph.children } := by
  induction jobs generalizing st with
  | nil => simp [assignAll, deal, dealNext]; rfl
  | cons job rest ih =>
    rw [assignAll_cons (assignJob_static static bound (live job (by simp))), ih]
    · simp [deal, dealNext, List.append_assoc]
    · exact static
    · exact turn_succ_le static.positive bound
    · exact fun later mem => live later (List.mem_cons_of_mem job mem)

end SchedRoundRobin
