import SteampunkGame.Lib.Dealing
import SteampunkGame.Lib.Runs
import SteampunkGame.Sched.FrameTraversal

/-!
Who gets which job in a run of any length. The next worker id is carried over
from call to call, through all sub-cycles and frames, while anybody may change
the graph and the flags of the jobs in between.
-/
namespace SchedEven
open Dealing SchedJob SchedPool SchedWorker SchedRunner SchedRoundRobin SchedFrame Runs
open WhileLoop
variable {J : Type}

/-- Which worker was handed which job. -/
def assignments {W : Type} (calls : List (Command W J)) : List (W × J) :=
  calls.filterMap fun
    | .assign w job => some (w, job)
    | _ => none

theorem assignments_append {W : Type} (xs ys : List (Command W J)) :
    assignments (xs ++ ys) = assignments xs ++ assignments ys := List.filterMap_append

theorem assignments_waits (n : UInt32) :
    assignments (waits n : List (Command UInt32 J)) = [] := by
  simp [assignments, waits, List.filterMap_map]

/-- `passed` records the jobs that had not exited when they were passed to
    `assign_job`, whether or not the call returned. -/
structure Passing (J : Type) where
  st : Assigning J
  passed : List J
  fault : Option Fault

/-- `change` is anything that others do to the jobs. Each sub-cycle starts with
    an empty buffer for the next one. -/
inductive Action (J : Type) where
  | assign (job : J)
  | change (graph : JobGraph J) (rootJobs : List J)
  | clearNext

/-- As in `runner_arbiter`, before its first frame. -/
def start (r : Runner J) : Passing J := ⟨⟨r, 0, [], []⟩, [], none⟩

/-- Each worker in its turn, and the next turn is that of the next job. -/
structure InTurn (n : UInt32) (handed : List (UInt32 × J)) (passed : List J) (next : UInt32) :
    Prop where
  pairs : handed = passed.mapIdx fun k job => (UInt32.ofNat (k % n.toNat), job)
  bound : next ≤ n
  upNext : turn n next = UInt32.ofNat (passed.length % n.toNat)

/-- The `k`-th job that had not exited went to worker `k` modulo `n`, and of
    jobs in a row no worker got two more than another. -/
structure Even (n : UInt32) (handed : List (UInt32 × J)) (passed : List J) : Prop where
  inTurn : handed = passed.mapIdx fun k job => (UInt32.ofNat (k % n.toNat), job)
  balanced : ∀ front middle back, handed.map Prod.fst = front ++ middle ++ back →
    ∀ v w, v < n → w < n → middle.count v ≤ middle.count w + 1

theorem ofNat_small {n : UInt32} {k : Nat} (small : k < n.toNat) :
    (UInt32.ofNat k).toNat = k :=
  UInt32.toNat_ofNat_of_lt' (Nat.lt_trans small n.toNat_lt)

/-- After the turn of place `k` comes that of the place behind it. -/
theorem turn_next {n : UInt32} {k : Nat} (positive : 0 < n) :
    turn n (UInt32.ofNat (k % n.toNat) + 1) = UInt32.ofNat ((k + 1) % n.toNat) := by
  have room : 0 < n.toNat := by rwa [UInt32.lt_iff_toNat_lt] at positive
  have place := Nat.mod_lt k room
  have top := n.toNat_lt
  have value : (UInt32.ofNat (k % n.toNat) + 1).toNat = k % n.toNat + 1 := by
    rw [UInt32.toNat_add, ofNat_small place, UInt32.toNat_one]
    omega
  rw [← Nat.mod_add_mod, ← UInt32.toNat_inj]
  by_cases last : k % n.toNat + 1 = n.toNat
  · have wraps : UInt32.ofNat (k % n.toNat) + 1 = n := UInt32.toNat_inj.mp (value.trans last)
    rw [turn, if_pos wraps, last, Nat.mod_self]
    rfl
  · have stays : UInt32.ofNat (k % n.toNat) + 1 ≠ n := by
      intro same
      rw [same] at value
      exact last value.symm
    have inside : k % n.toNat + 1 < n.toNat := by omega
    rw [turn, if_neg stays, value, Nat.mod_eq_of_lt inside, ofNat_small inside]

theorem inTurn_start (n : UInt32) : InTurn n ([] : List (UInt32 × J)) [] 0 := by
  have low : (0 : UInt32) ≤ n := by
    rw [UInt32.le_iff_toNat_le]
    exact Nat.zero_le _
  refine ⟨rfl, low, ?_⟩
  simp [turn]

theorem inTurn_assign {n : UInt32} {handed : List (UInt32 × J)} {passed : List J}
    {next : UInt32} (positive : 0 < n) (inTurn : InTurn n handed passed next) (job : J) :
    InTurn n (handed ++ [(turn n next, job)]) (passed ++ [job]) (turn n next + 1) := by
  refine ⟨?_, turn_succ_le positive inTurn.bound, ?_⟩
  · rw [inTurn.pairs, inTurn.upNext, List.mapIdx_concat]
  · rw [inTurn.upNext, turn_next positive, List.length_append, List.length_singleton]

/-- The workers in the order of the assignments are dealt. -/
theorem inTurn_dealt {n : UInt32} {handed : List (UInt32 × J)} {passed : List J}
    (positive : 0 < n)
    (pairs : handed = passed.mapIdx fun k job => (UInt32.ofNat (k % n.toNat), job)) :
    (handed.map Prod.fst).map UInt32.toNat = dealt n.toNat passed.length := by
  have room : 0 < n.toNat := by rwa [UInt32.lt_iff_toNat_lt] at positive
  subst pairs
  induction passed using List.reverseRecOn with
  | nil => rfl
  | append_singleton passed job ih =>
    rw [List.mapIdx_concat, List.map_append, List.map_append, ih, List.length_append,
      List.length_singleton, dealt_succ]
    simp only [List.map_cons, List.map_nil, ofNat_small (Nat.mod_lt _ room)]

theorem inTurn_even {n : UInt32} {handed : List (UInt32 × J)} {passed : List J} {next : UInt32}
    (positive : 0 < n) (inTurn : InTurn n handed passed next) : Even n handed passed := by
  refine ⟨inTurn.pairs, ?_⟩
  intro front middle back split v w first second
  have numbers := inTurn_dealt positive inTurn.pairs
  rw [split, List.map_append, List.map_append] at numbers
  have row := dealt_split numbers.symm
  rw [UInt32.lt_iff_toNat_lt] at first second
  have counts : ∀ x : UInt32, (middle.map UInt32.toNat).count x.toNat = middle.count x :=
    fun x => List.count_map_of_injective middle UInt32.toNat (fun _ _ => UInt32.toNat_inj.mp) x
  rw [← counts v, ← counts w, row]
  exact window_even _ _ first second

/-- The jobs that the arbiter has assigned went to the workers in turn. -/
def Spread (n : UInt32) (a : Arbiter J) : Prop := StaticPool n a.runner.pool ∧
  ∃ passed, InTurn n (assignments (a.subCycles.flatten ++ a.calls)) passed a.nextWorkerId

theorem spread_waits {n : UInt32} {a b : Arbiter J} (spread : Spread n a)
    (run : a.waitForWorkers = .ok b) : Spread n b := by
  obtain ⟨static, passed, inTurn⟩ := spread
  rw [arbiter_waits static] at run
  cases run
  refine ⟨static, passed, ?_⟩
  simpa [assignments_append, assignments_waits] using inTurn

variable [DecidableEq J]

/-- A call that does not return leaves its fault, and the run goes no further. -/
def step (s : Passing J) (a : Action J) : Option (Passing J) :=
  match s.fault, a with
  | some _, _ => none
  | none, .assign job =>
      let passed := if s.st.runner.graph.exited job then s.passed else s.passed ++ [job]
      match assignJob 1 job s.st with
      | .ok st => some ⟨st, passed, none⟩
      | .error fault => some ⟨s.st, passed, some fault⟩
  | none, .change graph rootJobs =>
      some { s with st := { s.st with runner := ⟨graph, rootJobs, s.st.runner.pool⟩ } }
  | none, .clearNext => some { s with st := { s.st with runNext := [] } }

/-- What every run keeps. Only an exited job that is in no list ends it. -/
structure Dealt (n : UInt32) (s : Passing J) : Prop where
  static : StaticPool n s.st.runner.pool
  inTurn : InTurn n (assignments s.st.calls) s.passed s.st.nextWorkerId
  fault : ∀ fault, s.fault = some fault → ∃ job what, fault = .terminate what ∧
    s.st.runner.graph.exited job = true ∧ s.st.runner.erase job = .error what

theorem erase_pool {r after : Runner J} {job : J} (run : r.erase job = .ok after) :
    after.pool = r.pool := by
  unfold Runner.erase at run
  split at run
  · cases run
    rfl
  · split at run
    · cases run
      rfl
    · cases run

/-- One call, with what was handed out in sub-cycles that are over. -/
theorem assignJob_inTurn {n : UInt32} {before : List (UInt32 × J)} {passed : List J} {job : J}
    {st after : Assigning J} (static : StaticPool n st.runner.pool)
    (inTurn : InTurn n (before ++ assignments st.calls) passed st.nextWorkerId)
    (run : assignJob 1 job st = .ok after) :
    StaticPool n after.runner.pool ∧
      InTurn n (before ++ assignments after.calls)
        (if st.runner.graph.exited job then passed else passed ++ [job]) after.nextWorkerId := by
  cases exited : st.runner.graph.exited job with
  | true =>
    cases erased : st.runner.erase job with
    | ok runner =>
      rw [assignJob_exited exited erased] at run
      cases run
      exact ⟨by rw [erase_pool erased]; exact static, inTurn⟩
    | error what =>
      simp only [assignJob, exited, erased] at run
      cases run
  | false =>
    rw [assignJob_static static inTurn.bound exited] at run
    cases run
    refine ⟨static, ?_⟩
    have next := inTurn_assign static.positive inTurn job
    rw [List.append_assoc] at next
    rw [assignments_append]
    exact next

/-- On a static pool the call on a job that has not exited always returns. -/
theorem assignJob_fault {n : UInt32} {st : Assigning J} {job : J} {fault : Fault}
    (static : StaticPool n st.runner.pool) (bound : st.nextWorkerId ≤ n)
    (run : assignJob 1 job st = .error fault) : ∃ what, fault = .terminate what ∧
      st.runner.graph.exited job = true ∧ st.runner.erase job = .error what := by
  cases exited : st.runner.graph.exited job with
  | false =>
    rw [assignJob_static static bound exited] at run
    cases run
  | true =>
    cases erased : st.runner.erase job with
    | ok runner =>
      rw [assignJob_exited exited erased] at run
      cases run
    | error what =>
      simp only [assignJob, exited, erased, if_true, Except.error.injEq] at run
      exact ⟨what, run.symm, rfl, rfl⟩

theorem dealt_start {n : UInt32} {r : Runner J} (static : StaticPool n r.pool) :
    Dealt n (start r) := ⟨static, inTurn_start n, fun _ no => (by cases no)⟩

theorem dealt_step {n : UInt32} {s t : Passing J} {a : Action J} (dealt : Dealt n s)
    (run : step s a = some t) : Dealt n t := by
  obtain ⟨st, passed, fault⟩ := s
  obtain ⟨static, inTurn, _⟩ := dealt
  cases fault with
  | some fault => cases run
  | none =>
    cases a with
    | assign job =>
      simp only [step] at run
      split at run
      · rename_i after called
        cases run
        obtain ⟨same, next⟩ := @assignJob_inTurn _ _ _ [] _ _ _ _ static inTurn called
        exact ⟨same, next, fun _ no => (by cases no)⟩
      · rename_i fault called
        cases run
        obtain ⟨what, terminates, exited, erased⟩ := assignJob_fault static inTurn.bound called
        refine ⟨static, ?_, ?_⟩
        · dsimp only at exited ⊢
          rw [if_pos exited]
          exact inTurn
        · intro other same
          cases same
          exact ⟨job, what, terminates, exited, erased⟩
    | change graph rootJobs =>
      cases run
      exact ⟨static, inTurn, fun _ no => (by cases no)⟩
    | clearNext =>
      cases run
      exact ⟨static, inTurn, fun _ no => (by cases no)⟩

theorem assignAll_inTurn {n : UInt32} {before : List (UInt32 × J)} {jobs : List J}
    {st after : Assigning J} (static : StaticPool n st.runner.pool)
    (inTurn : ∃ passed, InTurn n (before ++ assignments st.calls) passed st.nextWorkerId)
    (run : assignAll jobs st = .ok after) : StaticPool n after.runner.pool ∧
      ∃ passed, InTurn n (before ++ assignments after.calls) passed after.nextWorkerId := by
  refine assignAll_keeps (fun st => StaticPool n st.runner.pool ∧
    ∃ passed, InTurn n (before ++ assignments st.calls) passed st.nextWorkerId) ?_
      ⟨static, inTurn⟩ run
  rintro job st after ⟨static, passed, inTurn⟩ called
  obtain ⟨same, next⟩ := assignJob_inTurn static inTurn called
  exact ⟨same, _, next⟩

/-- A sub-cycle of any jobs: their assignments, and the wait for the workers. -/
theorem spread_assigned {n : UInt32} {a b c : Arbiter J} {jobs runNext : List J}
    {st : Assigning J} (spread : Spread n a)
    (assigned : assignAll jobs ⟨a.runner, a.nextWorkerId, runNext, a.calls⟩ = .ok st)
    (waits : b.waitForWorkers = .ok c) (runner : b.runner = st.runner)
    (nextWorkerId : b.nextWorkerId = st.nextWorkerId) (calls : b.calls = st.calls)
    (subCycles : b.subCycles = a.subCycles) : Spread n c := by
  obtain ⟨static, passed, inTurn⟩ := spread
  rw [assignments_append] at inTurn
  obtain ⟨same, later, next⟩ := assignAll_inTurn static ⟨passed, inTurn⟩ assigned
  rw [← assignments_append] at next
  refine spread_waits ⟨?_, later, ?_⟩ waits
  · rw [runner]
    exact same
  · rw [nextWorkerId, calls, subCycles]
    exact next

theorem spread_zeroth {n : UInt32} {a b : Arbiter J} (spread : Spread n a)
    (run : zerothSubCycle a = .ok b) : Spread n b := by
  unfold zerothSubCycle Arbiter.assignJobs1 at run
  split at run
  · rename_i st assigned
    change (Arbiter.clearJobs1 _).waitForWorkers = .ok b at run
    exact spread_assigned spread assigned run rfl rfl rfl rfl
  · cases run

theorem spread_nth {n : UInt32} {a b : Arbiter J} (spread : Spread n a)
    (run : nthSubCycle a = .ok b) : Spread n b := by
  unfold nthSubCycle Arbiter.assignJobs2 at run
  split at run
  · rename_i st assigned
    change (Arbiter.clearJobs2 _).swapJobs.waitForWorkers = .ok b at run
    exact spread_assigned spread assigned run rfl rfl rfl rfl
  · cases run

/-- The loops of `runner_arbiter` go on where the last frame stopped. -/
theorem spread_frame {n : UInt32} {fuel : Nat} {a b : Arbiter J} (spread : Spread n a)
    (run : frame fuel a = some (.ok b)) : Spread n b := by
  unfold frame at run
  split at run
  · cases run
  · rename_i z zeroth
    have first := spread_zeroth spread zeroth
    split at run
    · cases run
    · cases run
    · rename_i last loop
      cases run
      have last := whileLoop_keeps (fun _ _ before _ called => spread_nth before called) first loop
      exact last

/-- Jobs passed to `assign_job` in any number, in any order and in any
    sub-cycles are spread evenly over a static pool. A call on a job that has not
    exited returns, and gives it to the worker whose turn it is; the only calls
    that do not return are those on an exited job that cannot be erased. -/
theorem even_distribution {n : UInt32} {r : Runner J} (static : StaticPool n r.pool)
    {s : Passing J} (walk : Reaches step anyAction (start r) s) :
    Even n (assignments s.st.calls) s.passed ∧
    (∀ fault, s.fault = some fault → ∃ job what, fault = .terminate what ∧
      s.st.runner.graph.exited job = true ∧ s.st.runner.erase job = .error what) ∧
    (s.fault = none → ∀ job, s.st.runner.graph.exited job = false →
      ∃ t, step s (.assign job) = some t ∧ t.fault = none ∧ t.passed = s.passed ++ [job] ∧
        assignments t.st.calls = assignments s.st.calls ++
          [(UInt32.ofNat (s.passed.length % n.toNat), job)]) := by
  have dealt := reaches_invariant (fun _ _ _ before _ run => dealt_step before run) walk
    (dealt_start static)
  refine ⟨inTurn_even static.positive dealt.inTurn, dealt.fault, ?_⟩
  intro returned job live
  obtain ⟨st, called, calls⟩ : ∃ st, assignJob 1 job s.st = .ok st ∧ st.calls = s.st.calls ++
      [.assign (turn n s.st.nextWorkerId) job, .wake (turn n s.st.nextWorkerId)] :=
    ⟨_, assignJob_static dealt.static dealt.inTurn.bound live, rfl⟩
  refine ⟨⟨st, s.passed ++ [job], none⟩, ?_, rfl, rfl, ?_⟩
  · simp only [step, returned, called, live, Bool.false_eq_true, if_false]
  · change assignments st.calls = _
    rw [calls, assignments_append, dealt.inTurn.upNext]
    rfl

/-- Two workers and four calls; the second job has exited by then. -/
def exitedBetween : List (Action Bool) :=
  [.assign false, .change ⟨fun _ => none, fun _ => [], fun _ => 0, fun j => j⟩ [true],
    .assign true, .clearNext, .assign false, .assign false]

theorem even_distribution_exited : ∃ s t : Passing Bool,
    Reaches step anyAction (start ⟨.initial, [], filledPool 2⟩) s ∧
      Even 2 (assignments s.st.calls) s.passed ∧
      assignments s.st.calls = [(0, false), (1, false), (0, false)] ∧
      step s (.assign false) = some t ∧ t.fault = none ∧
      assignments t.st.calls = [(0, false), (1, false), (0, false), (1, false)] := by
  obtain ⟨s, walk, seen⟩ := runActions_view
    (fun s : Passing Bool =>
      (assignments s.st.calls, s.passed, s.fault, s.st.runner.graph.exited false))
    (show (runActions step exitedBetween (start ⟨.initial, [], filledPool 2⟩)).map _ =
      some ([(0, false), (1, false), (0, false)], [false, false, false], none, false) by
        decide +kernel)
  obtain ⟨handed, passed, returned, live⟩ := by simpa only [Prod.mk.injEq] using seen
  obtain ⟨even, _, next⟩ := even_distribution (filledPool_static (n := 2) (by decide)) walk
  obtain ⟨t, run, returns, _, more⟩ := next returned false live
  refine ⟨s, t, walk, even, handed, run, returns, ?_⟩
  rw [more, handed, passed]
  rfl

end SchedEven
