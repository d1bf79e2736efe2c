import SteampunkGame.Sched.FrameProgram

/-!
The job graph that `world::world` builds and the calls its frames make. The
round robin goes on from frame to frame, so the workers shift.
-/
namespace GameWorld
open LevelOrder SchedJob SchedPool SchedWorker SchedRunner SchedRoundRobin SchedFrame
open SchedSubCycle SchedProgram

inductive GameJob where
  | writeJob
  | eventPump
  | renderJob
  deriving DecidableEq, Repr

open GameJob

/-- The scheduler after the constructor, over a given pool. -/
def world (pool : WorkerPool) : Except String (Runner GameJob) :=
  let scheduler : Runner GameJob := ⟨.initial, [], pool⟩
  let scheduler := scheduler.schedule writeJob
  let scheduler := scheduler.schedule eventPump
  match scheduler.graph.schedule writeJob renderJob with
  | .ok graph => .ok { scheduler with graph := graph }
  | .error what => .error what

/-- The arbiter when it enters its loop. -/
def arbiterAt {J : Type} (r : Runner J) (next : UInt32) : Arbiter J := ⟨r, next, [], [], [], []⟩

/-- Iterations of the `while (_active)` loop. -/
def frames {J : Type} [DecidableEq J] (fuel : Nat) :
    Nat → Arbiter J → Option (Except Fault (Arbiter J))
  | 0, a => some (.ok a)
  | k + 1, a =>
      match frames fuel k a with
      | some (.ok b) => frame fuel b
      | stuck => stuck

def nextFrameId (n : UInt32) (next : UInt32) : Nat → UInt32
  | 0 => next
  | k + 1 => dealNext n (nextFrameId n next k) [writeJob, eventPump, renderJob]

/-- The zeroth sub-cycle of frame `k`. -/
def rootWork (n next : UInt32) (k : Nat) : List (UInt32 × GameJob) :=
  dealt n (nextFrameId n next k) [writeJob, eventPump]

/-- The second sub-cycle of frame `k`, and its last one. -/
def renderWork (n next : UInt32) (k : Nat) : List (UInt32 × GameJob) :=
  dealt n (dealNext n (nextFrameId n next k) [writeJob, eventPump]) [renderJob]

def frameProgram (n next : UInt32) (k : Nat) : List (Command UInt32 GameJob) :=
  subCycle (workerIds n) (rootWork n next k) ++ subCycle (workerIds n) (renderWork n next k)

/-- All calls of the first `k` frames. -/
def worldProgram (n next : UInt32) (k : Nat) : List (Command UInt32 GameJob) :=
  (List.range k).flatMap (frameProgram n next)

theorem worldProgram_succ (n next : UInt32) (k : Nat) :
    worldProgram n next (k + 1) = worldProgram n next k ++ frameProgram n next k := by
  simp [worldProgram, List.range_succ]

theorem nextFrameId_le {n next : UInt32} (positive : 0 < n) (bound : next ≤ n) (k : Nat) :
    nextFrameId n next k ≤ n := by
  induction k with
  | zero => exact bound
  | succ k ih => exact dealNext_le positive ih _

/-- What the constructor leaves: two roots, and one child of the first. -/
theorem world_graph (pool : WorkerPool) : ∃ r, world pool = .ok r ∧ r.pool = pool ∧
    r.rootJobs = [writeJob, eventPump] ∧ r.graph.children writeJob = [renderJob] ∧
    r.graph.children eventPump = [] ∧ r.graph.children renderJob = [] ∧
    r.graph.parent renderJob = some writeJob ∧ r.graph.exited = fun _ => false :=
  ⟨_, rfl, rfl, rfl, rfl, rfl, rfl, rfl, rfl⟩

/-- The arbiter between frame `k` and the next. -/
structure Steady (n next : UInt32) (r : Runner GameJob) (k : Nat) (b : Arbiter GameJob) : Prop where
  runner : b.runner = r
  jobs1 : b.jobs1 = []
  jobs2 : b.jobs2 = []
  calls : b.calls = []
  nextWorkerId : b.nextWorkerId = nextFrameId n next k
  program : b.subCycles.flatten = worldProgram n next k

theorem frame_steady {n next : UInt32} {r : Runner GameJob} {k : Nat} {a : Arbiter GameJob}
    (static : StaticPool n r.pool) (bound : next ≤ n) (built : world r.pool = .ok r)
    (steady : Steady n next r k a) :
    ∃ b, (∀ fuel, 3 ≤ fuel → frame fuel a = some (.ok b)) ∧ Steady n next r (k + 1) b := by
  obtain ⟨s, same, _, roots, write, event, render, _, exited⟩ := world_graph r.pool
  rw [built] at same
  cases same
  have level0 : level r.graph.children 0 r.rootJobs = [writeJob, eventPump] := by
    rw [level_zero, roots]
  have level1 : level r.graph.children 1 r.rootJobs = [renderJob] := by
    rw [level_succ, level0]
    simp [write, event]
  have level2 : level r.graph.children 2 r.rootJobs = [] := by
    rw [level_succ, level1]
    simp [render]
  have spans : Spans r.graph.children r.rootJobs {writeJob, eventPump, renderJob} := by
    constructor
    · rw [roots]
      decide
    · intro j _ c _
      cases c <;> decide
  have acyclic : AcyclicOn r.graph.children {writeJob, eventPump, renderJob} := by
    apply acyclic_of_rank (fun j => if j = renderJob then 1 else 0)
    intro a b edge
    cases a with
    | writeJob =>
      rw [Edge, write, List.mem_singleton] at edge
      rw [edge]
      decide
    | eventPump => rw [Edge, event] at edge; cases edge
    | renderJob => rw [Edge, render] at edge; cases edge
  obtain ⟨runner, jobs1, jobs2, calls, nextWorkerId, program⟩ := steady
  obtain ⟨b, count, run, same, empty1, empty2, quiet, last, done, expanded, pos, none_left⟩ :=
    frame_live (by rw [runner]; exact static)
      (by rw [nextWorkerId]; exact nextFrameId_le static.positive bound k) jobs1 jobs2 calls
      (by rw [runner]; exact spans) (by rw [runner]; exact acyclic)
      (by rw [runner, exited]; exact fun _ _ => rfl)
  rw [runner] at same last done expanded none_left
  have two : count = 2 := by
    by_contra other
    cases Nat.lt_or_gt_of_ne other with
    | inl less =>
      have one : count = 1 := by omega
      rw [one, level1] at none_left
      cases none_left
    | inr more => exact expanded 2 (by omega) more level2
  rw [two] at last done
  refine ⟨b, fun fuel enough => run fuel enough, ?_⟩
  constructor
  · exact same
  · exact empty1
  · exact empty2
  · exact quiet
  · rw [last, startId_succ, startId_succ, startId, level0, level1, nextWorkerId, ← dealNext_append]
    rfl
  · rw [done, List.flatten_append, program, frameCalls_subCycles, worldProgram_succ, frameProgram]
    simp [List.range_succ, subCycles, startId, level0, level1, nextWorkerId, rootWork, renderWork,
      dealNext]

/-- Every number of frames terminates without a fault. -/
theorem frames_steady {n next : UInt32} {r : Runner GameJob} (static : StaticPool n r.pool)
    (bound : next ≤ n) (built : world r.pool = .ok r) (k : Nat) :
    ∃ b, (∀ fuel, 3 ≤ fuel → frames fuel k (arbiterAt r next) = some (.ok b)) ∧
      Steady n next r k b := by
  induction k with
  | zero => exact ⟨arbiterAt r next, fun _ _ => rfl, ⟨rfl, rfl, rfl, rfl, rfl, rfl⟩⟩
  | succ k ih =>
    obtain ⟨a, before, steady⟩ := ih
    obtain ⟨b, run, after⟩ := frame_steady static bound built steady
    refine ⟨b, ?_, after⟩
    intro fuel enough
    rw [frames, before fuel enough]
    exact run fuel enough

end GameWorld
