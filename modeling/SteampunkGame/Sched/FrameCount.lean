import SteampunkGame.Sched.FrameTraversal
import SteampunkGame.Sched.JobCount

/-!
`job_count` and one frame over the same lists. The stack walk and the double
buffer visit a job once for each path that leads to it, and so they count
alike.
-/
namespace SchedFrameCount
open LevelOrder SchedJob SchedPool SchedWorker SchedRunner SchedFrame SchedJobCount
variable {J : Type}

theorem length_levels (children : J → List J) (roots : List J) (bound : Nat) :
    ((List.range bound).flatMap fun d => level children d roots).length =
      ∑ d ∈ Finset.range bound, (level children d roots).length := by
  induction bound with
  | zero => rfl
  | succ bound ih => simp [List.range_succ, Finset.sum_range_succ, ih]

/-- The walk returns the number of paths that start at a root. -/
theorem jobCount_paths {r : Runner J} {verts : Finset J}
    (spans : Spans r.graph.children r.rootJobs verts)
    (acyclic : AcyclicOn r.graph.children verts) {count : Nat}
    (last : level r.graph.children count r.rootJobs = []) :
    ∃ enough, ∀ fuel, enough ≤ fuel → jobCount fuel r =
      some ((List.range count).flatMap fun d => level r.graph.children d r.rootJobs).length := by
  refine ⟨sumOf (fun j => 1 + below r.graph.children verts.card j) r.rootJobs, ?_⟩
  intro fuel enough
  rw [jobCount_levels spans acyclic enough, ← length_levels,
    levels_agree (level_exhausted spans acyclic (Nat.le_refl _)) last]

/-- In a forest the paths from the roots are the jobs that can be reached. -/
theorem forest_paths [DecidableEq J] {children : J → List J} {roots : List J}
    (forest : Forest children roots) {count : Nat} (last : level children count roots = []) :
    ∃ jobs : Finset J,
      (∀ j, j ∈ jobs ↔ ∃ r ∈ roots, Relation.ReflTransGen (Edge children) r j) ∧
      ((List.range count).flatMap fun d => level children d roots).length = jobs.card := by
  refine ⟨((List.range count).flatMap fun d => level children d roots).toFinset, ?_, ?_⟩
  · intro j
    rw [List.mem_toFinset, List.mem_flatMap]
    constructor
    · rintro ⟨d, _, mem⟩
      exact level_reached mem
    · rintro ⟨r, root, walk⟩
      obtain ⟨d, mem⟩ := reached_level root walk
      refine ⟨d, List.mem_range.mpr ?_, mem⟩
      by_contra deep
      have none := level_empty_mono last (d - count)
      rw [Nat.add_sub_cancel' (by omega)] at none
      rw [none] at mem
      cases mem
  · rw [List.toFinset_card_of_nodup (forest_levels_nodup forest count)]

variable [DecidableEq J]

/-- On a finite acyclic graph `job_count` returns, and what it returns is the
    number of jobs that any frame over the same lists hands to the workers;
    for a forest these are its jobs. -/
theorem job_count_frame {r : Runner J} {verts : Finset J}
    (spans : Spans r.graph.children r.rootJobs verts)
    (acyclic : AcyclicOn r.graph.children verts) :
    ∃ total enough, (∀ fuel, enough ≤ fuel → jobCount fuel r = some total) ∧
      (∀ (n : UInt32) (a : Arbiter J), StaticPool n a.runner.pool → a.nextWorkerId ≤ n →
        a.jobs1 = [] → a.jobs2 = [] → a.calls = [] →
        a.runner.graph.children = r.graph.children → a.runner.rootJobs = r.rootJobs →
        (∀ j ∈ verts, a.runner.graph.exited j = false) →
        ∃ b cycles, (∀ fuel, verts.card ≤ fuel → frame fuel a = some (.ok b)) ∧
          b.subCycles = a.subCycles ++ cycles ∧
          (cycles.flatMap assignedJobs).length = total) ∧
      (Forest r.graph.children r.rootJobs → ∃ jobs : Finset J,
        (∀ j, j ∈ jobs ↔ ∃ root ∈ r.rootJobs,
          Relation.ReflTransGen (Edge r.graph.children) root j) ∧
        total = jobs.card) := by
  have exhausted := level_exhausted spans acyclic (Nat.le_refl _)
  obtain ⟨enough, counts⟩ := jobCount_paths spans acyclic exhausted
  refine ⟨_, enough, counts, ?_, fun forest => forest_paths forest exhausted⟩
  intro n a static bound empty1 empty2 quiet children roots active
  rw [← children, ← roots] at spans exhausted
  rw [← children] at acyclic
  obtain ⟨b, count, run, _, _, _, _, _, done, _, _, last⟩ :=
    frame_live static bound empty1 empty2 quiet spans acyclic active
  refine ⟨b, _, run, done, ?_⟩
  rw [frameCalls_flat, levels_agree last exhausted, children, roots]

/-- A chain of two jobs, the second of which is a root as well. -/
def sharedArbiter : Arbiter Bool :=
  { chainArbiter with runner := { chainArbiter.runner with rootJobs := [false, true] } }

theorem job_count_frame_shared : (∃ enough, ∀ fuel, enough ≤ fuel →
    jobCount fuel sharedArbiter.runner = some 3) ∧
    ∃ b, frame 2 sharedArbiter = some (.ok b) ∧
      b.subCycles.flatMap assignedJobs = [false, true, true] := by
  obtain ⟨total, enough, counts, frames, _⟩ := job_count_frame (r := sharedArbiter.runner)
    (show Spans _ _ {false, true} from ⟨by decide, by decide⟩)
    (acyclic_of_rank (fun j => if j then 1 else 0) (by unfold Edge; decide) _)
  obtain ⟨b, cycles, run, done, size⟩ := frames 1 sharedArbiter (filledPool_static (by decide))
    (by decide) rfl rfl rfl rfl rfl (by decide)
  have jobs : b.subCycles.flatMap assignedJobs = [false, true, true] := by
    have seen : (frame 2 sharedArbiter).map (fun out => out.map fun b =>
        b.subCycles.flatMap assignedJobs) = some (.ok [false, true, true]) := by decide +kernel
    rw [run 2 (by decide)] at seen
    exact Except.ok.inj (Option.some.inj seen)
  have three : total = 3 := by
    have same : b.subCycles = cycles := done
    rw [← size, ← same, jobs]
    rfl
  rw [three] at counts
  exact ⟨⟨enough, counts⟩, b, run 2 (by decide), jobs⟩

end SchedFrameCount
