import SteampunkGame.Sched.RoundRobin

/-!
One frame is a level-order expansion. The loop over the double buffer is
verified once, from a specification of what a single sub-cycle does to the
runner; graphs without exited jobs and forests with exited jobs are the two
instances of it.
-/
namespace SchedFrame
open LevelOrder WhileLoop SchedJob SchedPool SchedWorker SchedRunner SchedRoundRobin
variable {J : Type}

/-- The jobs that run in sub-cycle `d`. -/
def runs (roots : List J) (ch : J → List J) (live : J → Bool) (d : Nat) : List J :=
  (level ch d roots).filter live

/-- The worker id with which sub-cycle `d` starts. -/
def startId (n next : UInt32) (lv : Nat → List J) (d : Nat) : UInt32 :=
  dealNext n next ((List.range d).flatMap lv)

theorem runs_live {r : Runner J} {verts : Finset J}
    (spans : Spans r.graph.children r.rootJobs verts)
    (active : ∀ j ∈ verts, r.graph.exited j = false) (d : Nat) :
    runs r.rootJobs r.graph.children (fun j => !r.graph.exited j) d =
      level r.graph.children d r.rootJobs :=
  List.filter_eq_self.mpr fun j mem => by simp [active j (level_members spans d j mem)]

/-- The calls of the first `count` sub-cycles. -/
def frameCalls (n next : UInt32) (lv : Nat → List J) (count : Nat) :
    List (List (Command UInt32 J)) :=
  (List.range count).map fun d => deal n (startId n next lv d) (lv d) ++ waits n

theorem startId_succ (n next : UInt32) (lv : Nat → List J) (d : Nat) :
    startId n next lv (d + 1) = dealNext n (startId n next lv d) (lv d) := by
  simp [startId, List.range_succ, List.flatMap_append, dealNext_append]

theorem frameCalls_succ (n next : UInt32) (lv : Nat → List J) (count : Nat) :
    frameCalls n next lv (count + 1) =
      frameCalls n next lv count ++ [deal n (startId n next lv count) (lv count) ++ waits n] := by
  simp [frameCalls, List.range_succ]

/-- The arbiter after `d` sub-cycles of a frame that it entered as `a`. -/
structure Between (n : UInt32) (roots : List J) (ch : J → List J) (live : J → Bool)
    (inv : Nat → Runner J → Prop) (a : Arbiter J) (d : Nat) (b : Arbiter J) : Prop where
  runner : inv d b.runner
  jobs1 : b.jobs1 = []
  jobs2 : b.jobs2 = level ch d roots
  calls : b.calls = []
  next : b.nextWorkerId = startId n a.nextWorkerId (runs roots ch live) d
  done : b.subCycles = a.subCycles ++ frameCalls n a.nextWorkerId (runs roots ch live) d
  expanded : ∀ e, 0 < e → e < d → level ch e roots ≠ []

/-- Jobs of sub-cycle `d`; past the last sub-cycle there are none. -/
theorem frameCalls_assigned {n next : UInt32} {lv : Nat → List J} {count : Nat}
    (rest : ∀ d, count ≤ d → lv d = []) (d : Nat) :
    assignedJobs ((frameCalls n next lv count).getD d []) = lv d := by
  by_cases within : d < count
  · simp [frameCalls, List.getD, within, assignedJobs_append]
  · simp [frameCalls, List.getD, within, rest d (by omega), assignedJobs]

theorem frameCalls_flat (n next : UInt32) (lv : Nat → List J) (count : Nat) :
    (frameCalls n next lv count).flatMap assignedJobs = (List.range count).flatMap lv := by
  simp [frameCalls, List.flatMap_map, assignedJobs_append]

variable {n : UInt32} {roots : List J} {ch : J → List J} {live : J → Bool}
  {inv : Nat → Runner J → Prop}

theorem arbiter_waits {b : Arbiter J} (static : StaticPool n b.runner.pool) :
    b.waitForWorkers = .ok { b with
      calls := []
      subCycles := b.subCycles ++ [b.calls ++ waits n] } := by
  simp [Arbiter.waitForWorkers, waitForWorkers_static static]

variable [DecidableEq J]

/-- What assigning the `d`-th level does. The successor lists `ch` need not be
    the child lists of the runner, and `live` picks the jobs that run. -/
structure SubCycles (n : UInt32) (roots : List J) (ch : J → List J) (live : J → Bool)
    (inv : Nat → Runner J → Prop) : Prop where
  static : ∀ d r, inv d r → StaticPool n r.pool
  start : ∀ r, inv 0 r → r.rootJobs = roots
  assign : ∀ d (st : Assigning J), inv d st.runner → st.nextWorkerId ≤ n →
    ∃ r, inv (d + 1) r ∧ assignAll (level ch d roots) st = .ok {
      runner := r
      nextWorkerId := dealNext n st.nextWorkerId ((level ch d roots).filter live)
      runNext := st.runNext ++ level ch (d + 1) roots
      calls := st.calls ++ deal n st.nextWorkerId ((level ch d roots).filter live) }

/-- The zeroth sub-cycle around a given run of its `for` loop. -/
theorem zeroth_eq {a : Arbiter J} {st : Assigning J} (empty1 : a.jobs1 = [])
    (static : StaticPool n st.runner.pool)
    (run : assignAll a.runner.rootJobs ⟨a.runner, a.nextWorkerId, a.jobs2, a.calls⟩ = .ok st) :
    zerothSubCycle a = .ok ⟨st.runner, st.nextWorkerId, [], st.runNext, [],
      a.subCycles ++ [st.calls ++ waits n]⟩ := by
  simp only [zerothSubCycle, Arbiter.copyRoots, Arbiter.assignJobs1, empty1, List.nil_append, run,
    Arbiter.clearJobs1, bind, Except.bind]
  exact arbiter_waits static

/-- A later sub-cycle around a given run of its `for` loop. -/
theorem nth_eq {a : Arbiter J} {st : Assigning J} (static : StaticPool n st.runner.pool)
    (run : assignAll a.jobs2 ⟨a.runner, a.nextWorkerId, a.jobs1, a.calls⟩ = .ok st) :
    nthSubCycle a = .ok ⟨st.runner, st.nextWorkerId, [], st.runNext, [],
      a.subCycles ++ [st.calls ++ waits n]⟩ := by
  simp only [nthSubCycle, Arbiter.assignJobs2, run, Arbiter.clearJobs2, Arbiter.swapJobs, bind,
    Except.bind]
  exact arbiter_waits static

theorem zeroth_between (spec : SubCycles n roots ch live inv) {a : Arbiter J}
    (start : inv 0 a.runner) (bound : a.nextWorkerId ≤ n)
    (empty1 : a.jobs1 = []) (empty2 : a.jobs2 = []) (quiet : a.calls = []) :
    ∃ b, zerothSubCycle a = .ok b ∧ Between n roots ch live inv a 1 b := by
  obtain ⟨r, after, run⟩ := spec.assign 0 ⟨a.runner, a.nextWorkerId, a.jobs2, a.calls⟩ start bound
  rw [level_zero, ← spec.start _ start] at run
  refine ⟨_, zeroth_eq empty1 (spec.static 1 r after) run, ?_⟩
  constructor
  · exact after
  · rfl
  · simp [empty2, spec.start _ start]
  · rfl
  · simp [startId, runs, spec.start _ start]
  · simp [frameCalls, startId, runs, dealNext, quiet, spec.start _ start]
  · omega

theorem nth_between (spec : SubCycles n roots ch live inv) {a b : Arbiter J} {d : Nat}
    (bound : a.nextWorkerId ≤ n) (at_d : Between n roots ch live inv a d b)
    (more : level ch d roots ≠ []) :
    ∃ c, nthSubCycle b = .ok c ∧ Between n roots ch live inv a (d + 1) c := by
  have positive := (spec.static d b.runner at_d.runner).positive
  have next : b.nextWorkerId ≤ n := by
    rw [at_d.next]
    exact dealNext_le positive bound _
  obtain ⟨r, after, run⟩ :=
    spec.assign d ⟨b.runner, b.nextWorkerId, b.jobs1, b.calls⟩ at_d.runner next
  rw [← at_d.jobs2] at run
  refine ⟨_, nth_eq (spec.static (d + 1) r after) run, ?_⟩
  constructor
  · exact after
  · rfl
  · simp [at_d.jobs1]
  · rfl
  · simp [startId_succ, at_d.next, at_d.jobs2, runs]
  · simp [frameCalls_succ, at_d.done, at_d.next, at_d.calls, at_d.jobs2, runs]
  · intro e pos before
    by_cases same : e = d
    · exact same ▸ more
    · exact at_d.expanded e pos (by omega)

theorem frame_more_fuel {fuel : Nat} {a : Arbiter J} {r : Except Fault (Arbiter J)}
    (run : frame fuel a = some r) (extra : Nat) : frame (fuel + extra) a = some r := by
  unfold frame at run ⊢
  cases zeroth : zerothSubCycle a with
  | error fault => simpa [zeroth] using run
  | ok z =>
    simp only [zeroth] at run ⊢
    cases loop : subCycleLoop fuel z with
    | none => simp [loop] at run
    | some out =>
      have more : subCycleLoop (fuel + extra) z = some out := whileLoop_more_fuel loop extra
      rw [more]
      rw [loop] at run
      exact run

/-- The loop over the double buffer runs once per nonempty level and leaves
    both buffers empty. -/
theorem frame_between (spec : SubCycles n roots ch live inv) {a : Arbiter J}
    (start : inv 0 a.runner) (bound : a.nextWorkerId ≤ n)
    (empty1 : a.jobs1 = []) (empty2 : a.jobs2 = []) (quiet : a.calls = [])
    {height : Nat} (exhausted : level ch height roots = []) :
    ∃ b d, (∀ fuel, height ≤ fuel → frame fuel a = some (.ok b)) ∧ 0 < d ∧
      level ch d roots = [] ∧ Between n roots ch live inv a d b := by
  obtain ⟨z, zeroth, first⟩ := zeroth_between spec start bound empty1 empty2 quiet
  obtain ⟨b, loop, ⟨d, pos, last⟩, stop⟩ := whileLoop_total
    (fun b : Arbiter J => !b.jobs2.isEmpty) nthSubCycle
    (fun b => ∃ d, 0 < d ∧ Between n roots ch live inv a d b)
    (fun b => a.subCycles.length + height - b.subCycles.length)
    (by
      rintro b ⟨d, pos, at_d⟩ go
      have more : level ch d roots ≠ [] := by
        rw [← at_d.jobs2]
        simpa using go
      have shallow : d < height := by
        by_contra deep
        exact more (by
          have := level_empty_mono exhausted (d - height)
          rwa [Nat.add_sub_cancel' (by omega)] at this)
      obtain ⟨c, run, next⟩ := nth_between spec bound at_d more
      refine ⟨c, run, ⟨d + 1, by omega, next⟩, ?_⟩
      simp only [next.done, at_d.done, frameCalls, List.length_append, List.length_map,
        List.length_range]
      omega)
    ⟨1, by omega, first⟩
    (show _ ≤ height by
      simp only [first.done, frameCalls, List.length_append, List.length_map, List.length_range]
      omega)
  have none_left : level ch d roots = [] := by
    rw [← last.jobs2]
    simpa using stop
  refine ⟨b.clearJobs2.swapJobs, d, ?_, pos, none_left, ?_⟩
  · intro fuel enough
    have run : frame height a = some (.ok b.clearJobs2.swapJobs) := by
      simp only [frame, zeroth, subCycleLoop, loop]
    have more := frame_more_fuel run (fuel - height)
    rwa [Nat.add_sub_cancel' enough] at more
  · constructor
    · exact last.runner
    · rfl
    · exact last.jobs1.trans none_left.symm
    · exact last.calls
    · exact last.next
    · exact last.done
    · exact last.expanded

/-- Without exited jobs a frame leaves the runner as it was. -/
theorem subCycles_live {r : Runner J} {verts : Finset J} (static : StaticPool n r.pool)
    (spans : Spans r.graph.children r.rootJobs verts)
    (active : ∀ j ∈ verts, r.graph.exited j = false) :
    SubCycles n r.rootJobs r.graph.children (fun j => !r.graph.exited j) (fun _ s => s = r) where
  static := fun _ s same => same ▸ static
  start := fun s same => same ▸ rfl
  assign := by
    intro d st same bound
    have live : ∀ j ∈ level r.graph.children d r.rootJobs, r.graph.exited j = false :=
      fun j mem => active j (level_members spans d j mem)
    have keep : (level r.graph.children d r.rootJobs).filter (fun j => !r.graph.exited j) =
        level r.graph.children d r.rootJobs :=
      List.filter_eq_self.mpr fun j mem => by simp [live j mem]
    refine ⟨r, rfl, ?_⟩
    rw [assignAll_live (by rw [same]; exact static) bound (by rw [same]; exact live), keep, same,
      level_succ]

/-- A finite acyclic graph without exited jobs, in the terms of the loop. -/
theorem frame_live {a : Arbiter J} {verts : Finset J}
    (static : StaticPool n a.runner.pool) (bound : a.nextWorkerId ≤ n)
    (empty1 : a.jobs1 = []) (empty2 : a.jobs2 = []) (quiet : a.calls = [])
    (spans : Spans a.runner.graph.children a.runner.rootJobs verts)
    (acyclic : AcyclicOn a.runner.graph.children verts)
    (active : ∀ j ∈ verts, a.runner.graph.exited j = false) :
    ∃ b count, (∀ fuel, verts.card ≤ fuel → frame fuel a = some (.ok b)) ∧
      b.runner = a.runner ∧ b.jobs1 = [] ∧ b.jobs2 = [] ∧ b.calls = [] ∧
      b.nextWorkerId = startId n a.nextWorkerId
        (fun d => level a.runner.graph.children d a.runner.rootJobs) count ∧
      b.subCycles = a.subCycles ++ frameCalls n a.nextWorkerId
        (fun d => level a.runner.graph.children d a.runner.rootJobs) count ∧
      (∀ e, 0 < e → e < count → level a.runner.graph.children e a.runner.rootJobs ≠ []) ∧
      0 < count ∧ level a.runner.graph.children count a.runner.rootJobs = [] := by
  have exhausted := level_exhausted spans acyclic (Nat.le_refl _)
  obtain ⟨b, count, run, pos, none_left, last⟩ := frame_between
    (subCycles_live static spans active) rfl bound empty1 empty2 quiet exhausted
  have all : runs a.runner.rootJobs a.runner.graph.children (fun j => !a.runner.graph.exited j) =
      fun d => level a.runner.graph.children d a.runner.rootJobs :=
    funext (runs_live spans active)
  exact ⟨b, count, run, last.runner, last.jobs1, last.jobs2.trans none_left, last.calls,
    all ▸ last.next, all ▸ last.done, last.expanded, pos, none_left⟩

/-- One frame over a finite acyclic graph without exited jobs terminates, runs
    the levels in order and returns with both buffers empty. -/
theorem frame_level_order {a : Arbiter J} {verts : Finset J}
    (static : StaticPool n a.runner.pool) (bound : a.nextWorkerId ≤ n)
    (empty1 : a.jobs1 = []) (empty2 : a.jobs2 = []) (quiet : a.calls = [])
    (spans : Spans a.runner.graph.children a.runner.rootJobs verts)
    (acyclic : AcyclicOn a.runner.graph.children verts)
    (active : ∀ j ∈ verts, a.runner.graph.exited j = false) :
    ∃ b cycles, (∀ fuel, verts.card ≤ fuel → frame fuel a = some (.ok b)) ∧
      b.subCycles = a.subCycles ++ cycles ∧
      (∀ d, assignedJobs (cycles.getD d []) =
        level a.runner.graph.children d a.runner.rootJobs) ∧
      b.jobs1 = [] ∧ b.jobs2 = [] ∧ b.calls = [] ∧
      b.runner = a.runner ∧ b.nextWorkerId ≤ n := by
  obtain ⟨b, count, run, same, jobs1, jobs2, calls, next, done, _, _, none_left⟩ :=
    frame_live static bound empty1 empty2 quiet spans acyclic active
  refine ⟨b, _, run, done, frameCalls_assigned ?_, jobs1, jobs2, calls, same, ?_⟩
  · intro d deep
    have := level_empty_mono none_left (d - count)
    rwa [Nat.add_sub_cancel' deep] at this
  · rw [next]
    exact dealNext_le static.positive bound _

/-- A root with one child. -/
def chainArbiter : Arbiter Bool where
  runner := {
    graph := { JobGraph.initial with children := fun j => if j then [] else [true] }
    rootJobs := [false]
    pool := filledPool 1 }
  nextWorkerId := 0
  jobs1 := []
  jobs2 := []
  calls := []
  subCycles := []

theorem frame_level_order_chain :
    ∃ b cycles, frame 2 chainArbiter = some (.ok b) ∧ b.subCycles = cycles ∧
      assignedJobs (cycles.getD 0 []) = [false] ∧ assignedJobs (cycles.getD 1 []) = [true] ∧
      b.jobs1 = [] ∧ b.jobs2 = [] := by
  obtain ⟨b, cycles, run, done, levels, empty1, empty2, _⟩ :=
    frame_level_order (a := chainArbiter) (n := 1) (filledPool_static (by decide)) (by decide)
      rfl rfl rfl (show Spans _ _ {false, true} from ⟨by decide, by decide⟩)
      (acyclic_of_rank (fun j => if j then 1 else 0) (by unfold Edge; decide) _)
      (by decide)
  exact ⟨b, cycles, run 2 (by decide), done, levels 0, levels 1, empty1, empty2⟩

end SchedFrame
