import SteampunkGame.Sched.FrameTraversal
import Mathlib.Algebra.Order.BigOperators.Group.Finset

/-!
Graphs as the public schedule calls build them, where one job may be given
several parents. The arbiter keeps no set of visited jobs, so a job runs once
for each path that leads to it.
-/
namespace SchedShared
open LevelOrder SchedJob SchedPool SchedWorker SchedRunner SchedRoundRobin SchedFrame
variable {J : Type}

inductive ScheduleCall (J : Type) where
  | root (job : J)
  | child (parent job : J)
  deriving DecidableEq, Repr

def ScheduleCall.job : ScheduleCall J → J
  | .root job => job
  | .child _ job => job

def ScheduleCall.jobs : ScheduleCall J → List J
  | .root job => [job]
  | .child parent job => [parent, job]

/-- Child-paths from the root list to a job that are shorter than `bound`. -/
def pathCount [BEq J] (children : J → List J) (roots : List J) (bound : Nat) (j : J) : Nat :=
  ∑ d ∈ Finset.range bound, (level children d roots).count j

theorem count_levels [BEq J] (children : J → List J) (roots : List J) (bound : Nat) (j : J) :
    ((List.range bound).flatMap fun d => level children d roots).count j =
      pathCount children roots bound j := by
  induction bound with
  | zero => rfl
  | succ bound ih =>
    simp only [List.range_succ, List.flatMap_append, List.flatMap_singleton, List.count_append, ih,
      pathCount, Finset.sum_range_succ]

theorem pathCount_agrees [BEq J] {children : J → List J} {roots : List J} {m n : Nat}
    (at_m : level children m roots = []) (at_n : level children n roots = []) (j : J) :
    pathCount children roots m j = pathCount children roots n j := by
  rw [← count_levels, ← count_levels, levels_agree at_m at_n]

variable [DecidableEq J]

/-- A call that throws leaves everything as it was. -/
def ScheduleCall.apply (r : Runner J) : ScheduleCall J → Runner J
  | .root job => r.schedule job
  | .child parent job =>
      match r.graph.schedule parent job with
      | .ok graph => { r with graph := graph }
      | .error _ => r

def built (pool : WorkerPool) (calls : List (ScheduleCall J)) : Runner J :=
  calls.foldl ScheduleCall.apply ⟨.initial, [], pool⟩

theorem built_snoc (pool : WorkerPool) (calls : List (ScheduleCall J)) (call : ScheduleCall J) :
    built pool (calls ++ [call]) = call.apply (built pool calls) := by
  simp [built]

theorem apply_pool (r : Runner J) (call : ScheduleCall J) : (call.apply r).pool = r.pool := by
  cases call with
  | root job => rfl
  | child parent job =>
    simp only [ScheduleCall.apply]
    split <;> rfl

theorem apply_exited (r : Runner J) (call : ScheduleCall J) :
    (call.apply r).graph.exited = r.graph.exited := by
  cases call with
  | root job => rfl
  | child parent job =>
    simp only [ScheduleCall.apply]
    split
    · rename_i graph run
      exact (schedule_ok run).2.2.2
    · rfl

theorem apply_root {r : Runner J} {call : ScheduleCall J} {j : J} :
    j ∈ (call.apply r).rootJobs → j ∈ r.rootJobs ∨ call = .root j := by
  cases call with
  | root job =>
    intro mem
    simp only [ScheduleCall.apply, Runner.schedule, List.mem_append, List.mem_singleton] at mem
    exact mem.imp_right fun eq => by rw [eq]
  | child parent job =>
    intro mem
    left
    simp only [ScheduleCall.apply] at mem
    split at mem <;> exact mem

theorem apply_child {r : Runner J} {call : ScheduleCall J} {p c : J} :
    c ∈ (call.apply r).graph.children p → c ∈ r.graph.children p ∨ call = .child p c := by
  cases call with
  | root job => exact Or.inl
  | child parent job =>
    intro mem
    simp only [ScheduleCall.apply] at mem
    split at mem
    · rename_i graph run
      rcases (schedule_edge run p c).mp mem with old | ⟨same_p, same_c⟩
      · exact Or.inl old
      · exact Or.inr (by rw [same_p, same_c])
    · exact Or.inl mem

theorem built_pool (pool : WorkerPool) (calls : List (ScheduleCall J)) :
    (built pool calls).pool = pool := by
  induction calls using List.reverseRecOn with
  | nil => rfl
  | append_singleton calls call ih => rw [built_snoc, apply_pool, ih]

theorem built_exited (pool : WorkerPool) (calls : List (ScheduleCall J)) (j : J) :
    (built pool calls).graph.exited j = false := by
  induction calls using List.reverseRecOn with
  | nil => rfl
  | append_singleton calls call ih => rw [built_snoc, apply_exited, ih]

theorem built_root {pool : WorkerPool} {calls : List (ScheduleCall J)} {j : J}
    (mem : j ∈ (built pool calls).rootJobs) : .root j ∈ calls := by
  induction calls using List.reverseRecOn with
  | nil => simp [built] at mem
  | append_singleton calls call ih =>
    rw [built_snoc] at mem
    rcases apply_root mem with old | new
    · exact List.mem_append_left _ (ih old)
    · simp [new]

theorem built_child {pool : WorkerPool} {calls : List (ScheduleCall J)} {p c : J}
    (mem : c ∈ (built pool calls).graph.children p) : .child p c ∈ calls := by
  induction calls using List.reverseRecOn with
  | nil => simp [built, JobGraph.initial] at mem
  | append_singleton calls call ih =>
    rw [built_snoc] at mem
    rcases apply_child mem with old | new
    · exact List.mem_append_left _ (ih old)
    · simp [new]

/-- The jobs named by a list of calls. -/
def named (calls : List (ScheduleCall J)) : Finset J := (calls.flatMap ScheduleCall.jobs).toFinset

theorem built_spans (pool : WorkerPool) (calls : List (ScheduleCall J)) :
    Spans (built pool calls).graph.children (built pool calls).rootJobs (named calls) where
  roots_mem := by
    intro r mem
    simp only [named, List.mem_toFinset, List.mem_flatMap]
    exact ⟨_, built_root mem, by simp [ScheduleCall.jobs]⟩
  closed := by
    intro p _ c mem
    simp only [named, List.mem_toFinset, List.mem_flatMap]
    exact ⟨_, built_child mem, by simp [ScheduleCall.jobs]⟩

/-- If every job is scheduled at most once, the graph is a forest. -/
theorem built_forest (pool : WorkerPool) {calls : List (ScheduleCall J)}
    (once : (calls.map ScheduleCall.job).Nodup) :
    Forest (built pool calls).graph.children (built pool calls).rootJobs := by
  induction calls using List.reverseRecOn with
  | nil =>
    constructor <;> simp [built, JobGraph.initial]
  | append_singleton calls call ih =>
    rw [List.map_append, List.nodup_append] at once
    obtain ⟨before, _, apart⟩ := once
    have forest := ih before
    have fresh : ∀ old ∈ calls, old.job ≠ call.job := fun old mem =>
      apart _ (List.mem_map_of_mem mem) _ (by simp)
    have fresh_root : call.job ∉ (built pool calls).rootJobs := fun mem =>
      fresh _ (built_root mem) rfl
    have fresh_child : ∀ p, call.job ∉ (built pool calls).graph.children p := fun p mem =>
      fresh _ (built_child mem) rfl
    rw [built_snoc]
    cases call with
    | root job => exact forest_add_root forest fresh_root fresh_child
    | child parent job =>
      simp only [ScheduleCall.apply]
      split
      · rename_i graph run
        rw [(schedule_ok run).2.2.1]
        exact forest_add_child forest fresh_root fresh_child parent
      · exact forest

/-- How often and when one frame runs the jobs of a graph. A job runs once for
    each child-path that leads to it, in the sub-cycle of the path's length,
    and so after each run of a job that it is scheduled under once more. -/
structure RunsPaths (children : J → List J) (roots : List J) (bound : Nat)
    (cycles : List (List (Command UInt32 J))) : Prop where
  per_level : ∀ d j, (assignedJobs (cycles.getD d [])).count j = (level children d roots).count j
  total : ∀ j, (cycles.flatMap assignedJobs).count j = pathCount children roots bound j
  reached : ∀ r ∈ roots, ∀ j, Relation.ReflTransGen (Edge children) r j →
    0 < (cycles.flatMap assignedJobs).count j
  follows : ∀ p c, c ∈ children p → ∀ d, p ∈ assignedJobs (cycles.getD d []) →
    c ∈ assignedJobs (cycles.getD (d + 1) [])
  later : ∀ j, (cycles.flatMap assignedJobs).count j = 1 → ∀ p d e, j ∈ children p →
    p ∈ assignedJobs (cycles.getD d []) → j ∈ assignedJobs (cycles.getD e []) → d < e

theorem runsPaths_of_levels {children : J → List J} {roots : List J} {bound count : Nat}
    {n next : UInt32} (at_bound : level children bound roots = [])
    (at_count : level children count roots = []) :
    RunsPaths children roots bound
      (frameCalls n next (fun d => level children d roots) count) := by
  have deep : ∀ d, count ≤ d → level children d roots = [] := by
    intro d far
    have := level_empty_mono at_count (d - count)
    rwa [Nat.add_sub_cancel' far] at this
  have per : ∀ d, assignedJobs
      ((frameCalls n next (fun d => level children d roots) count).getD d []) =
        level children d roots := frameCalls_assigned deep
  have total : ∀ j, ((frameCalls n next (fun d => level children d roots) count).flatMap
      assignedJobs).count j = pathCount children roots bound j := by
    intro j
    rw [frameCalls_flat, count_levels, pathCount_agrees at_bound at_count]
  have once : ∀ j d, j ∈ level children d roots → d < count := by
    intro j d mem
    by_contra far
    simp [deep d (by omega)] at mem
  constructor
  · intro d j
    rw [per]
  · exact total
  · intro r root j walk
    obtain ⟨d, mem⟩ := reached_level root walk
    rw [List.count_pos_iff, frameCalls_flat, List.mem_flatMap]
    exact ⟨d, List.mem_range.mpr (once j d mem), mem⟩
  · intro p c child d mem
    rw [per] at mem ⊢
    rw [level_succ, List.mem_flatMap]
    exact ⟨p, mem, child⟩
  · intro j single p d e child at_d at_e
    rw [per] at at_d at_e
    have below : j ∈ level children (d + 1) roots := by
      rw [level_succ, List.mem_flatMap]
      exact ⟨p, at_d, child⟩
    rw [frameCalls_flat, count_levels] at single
    by_contra early
    -- two different sub-cycles would both count towards the single run
    have two := Finset.add_le_sum (f := fun d => (level children d roots).count j)
      (fun _ _ => Nat.zero_le _) (Finset.mem_range.mpr (once j (d + 1) below))
      (Finset.mem_range.mpr (once j e at_e)) (by omega)
    have first := List.count_pos_iff.mpr below
    have second := List.count_pos_iff.mpr at_e
    unfold pathCount at single
    omega

theorem frame_built {n : UInt32} {a : Arbiter J} {calls : List (ScheduleCall J)}
    {pool : WorkerPool} (static : StaticPool n pool) (graph : a.runner = built pool calls)
    (bound : a.nextWorkerId ≤ n) (empty1 : a.jobs1 = []) (empty2 : a.jobs2 = [])
    (quiet : a.calls = [])
    (acyclic : ∀ j, ¬ Relation.TransGen (Edge a.runner.graph.children) j j) :
    ∃ b count, (∀ fuel, (named calls).card ≤ fuel → frame fuel a = some (.ok b)) ∧
      b.subCycles = a.subCycles ++ frameCalls n a.nextWorkerId
        (fun d => level a.runner.graph.children d a.runner.rootJobs) count ∧
      RunsPaths a.runner.graph.children a.runner.rootJobs (named calls).card
        (frameCalls n a.nextWorkerId
          (fun d => level a.runner.graph.children d a.runner.rootJobs) count) := by
  have spans : Spans a.runner.graph.children a.runner.rootJobs (named calls) := by
    rw [graph]
    exact built_spans pool calls
  obtain ⟨b, count, run, _, _, _, _, _, done, _, _, none_left⟩ := frame_live
    (by rw [graph, built_pool]; exact static) bound empty1 empty2 quiet spans
    (fun j _ => acyclic j) (fun j _ => by rw [graph, built_exited])
  exact ⟨b, count, run, done, runsPaths_of_levels
    (level_exhausted spans (fun j _ => acyclic j) (Nat.le_refl _)) none_left⟩

/-- One frame over a graph that schedule calls built. -/
theorem frame_shared {n : UInt32} {a : Arbiter J} {calls : List (ScheduleCall J)}
    {pool : WorkerPool} (static : StaticPool n pool) (graph : a.runner = built pool calls)
    (bound : a.nextWorkerId ≤ n) (empty1 : a.jobs1 = []) (empty2 : a.jobs2 = [])
    (quiet : a.calls = [])
    (acyclic : ∀ j, ¬ Relation.TransGen (Edge a.runner.graph.children) j j) :
    ∃ b cycles, (∀ fuel, (named calls).card ≤ fuel → frame fuel a = some (.ok b)) ∧
      b.subCycles = a.subCycles ++ cycles ∧
      RunsPaths a.runner.graph.children a.runner.rootJobs (named calls).card cycles ∧
      ((calls.map ScheduleCall.job).Nodup → (cycles.flatMap assignedJobs).Nodup) := by
  obtain ⟨b, count, run, done, paths⟩ := frame_built static graph bound empty1 empty2 quiet acyclic
  refine ⟨b, _, run, done, paths, fun once => ?_⟩
  rw [frameCalls_flat]
  refine forest_levels_nodup ?_ count
  rw [graph]
  exact built_forest pool once

/-- A job scheduled under the root and under the root's other child. -/
def shortcutCalls : List (ScheduleCall (Fin 3)) := [.root 0, .child 0 1, .child 0 2, .child 1 2]

def shortcut : Arbiter (Fin 3) := ⟨built (filledPool 1) shortcutCalls, 0, [], [], [], []⟩

theorem shortcut_acyclic (j : Fin 3) :
    ¬ Relation.TransGen (Edge shortcut.runner.graph.children) j j :=
  acyclic_of_rank (fun j => j.val) (by unfold Edge; decide) Finset.univ j (Finset.mem_univ j)

theorem frame_shared_shortcut :
    ∃ b cycles, frame 3 shortcut = some (.ok b) ∧ b.subCycles = cycles ∧
      RunsPaths shortcut.runner.graph.children shortcut.runner.rootJobs 3 cycles := by
  obtain ⟨b, cycles, run, done, paths, _⟩ := frame_shared (filledPool_static (n := 1) (by decide))
    (show shortcut.runner = built _ shortcutCalls from rfl) (by decide) rfl rfl rfl shortcut_acyclic
  exact ⟨b, cycles, run 3 (by decide), done, paths⟩

/-- The shared job runs twice, the first time beside one of its parents. -/
theorem shortcut_runs_twice :
    (∀ j, ¬ Relation.TransGen (Edge shortcut.runner.graph.children) j j) ∧
    2 ∈ shortcut.runner.graph.children 1 ∧
    ∃ b, frame 3 shortcut = some (.ok b) ∧
      (b.subCycles.flatMap assignedJobs).count 2 = 2 ∧
      1 ∈ assignedJobs (b.subCycles.getD 1 []) ∧ 2 ∈ assignedJobs (b.subCycles.getD 1 []) := by
  obtain ⟨b, count, run, done, paths⟩ := frame_built (filledPool_static (n := 1) (by decide))
    (show shortcut.runner = built _ shortcutCalls from rfl) (by decide) rfl rfl rfl shortcut_acyclic
  refine ⟨shortcut_acyclic, by decide, b, run 3 (by decide), ?_, ?_, ?_⟩
  · rw [done]
    exact (paths.total 2).trans (by decide)
  · rw [done]
    exact List.count_pos_iff.mp ((paths.per_level 1 1).symm ▸ by decide)
  · rw [done]
    exact List.count_pos_iff.mp ((paths.per_level 1 2).symm ▸ by decide)

end SchedShared
