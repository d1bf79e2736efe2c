import SteampunkGame.Game.World
import SteampunkGame.Sched.BarrierGap
import SteampunkGame.Sched.CallProgress
import SteampunkGame.Sched.EvenDistribution
import SteampunkGame.Sched.FrameProgram
import SteampunkGame.Sched.WorkerTotals

/-!
Whole frames on the threads. The arbiter's loops produce the calls, the calls
come to an end in any interleaving, and when they have, every job has run once
for every path that leads to it in every frame.
-/
namespace SchedCompletion
open Dealing LevelOrder SchedJob SchedPool SchedWorker SchedRunner SchedRoundRobin SchedFrame
open SchedProgram SchedSystem SchedOrder SchedSubCycle SchedBarrier SchedTotals SchedProgress
open SchedEven SchedSteps SchedWakeup GameWorld Runs Progress
variable {J : Type}

/-- The work of some frames: a worker of the pool for every job, and never two
    jobs for one worker in a sub-cycle. -/
structure Work (n : UInt32) (jobs : List J) (work : List (List (UInt32 × J))) : Prop where
  once : ∀ part ∈ work, (part.map Prod.fst).Nodup
  members : ∀ part ∈ work, ∀ x ∈ part, x.1 ∈ workerIds n
  jobs : work.flatten.map Prod.snd = jobs

/-- The arbiter before a frame over a finite acyclic graph without exited jobs,
    no level of which has more jobs than there are workers. -/
structure Ready (n : UInt32) (verts : Finset J) (a : Arbiter J) : Prop where
  static : StaticPool n a.runner.pool
  bound : a.nextWorkerId ≤ n
  jobs1 : a.jobs1 = []
  jobs2 : a.jobs2 = []
  calls : a.calls = []
  spans : Spans a.runner.graph.children a.runner.rootJobs verts
  acyclic : AcyclicOn a.runner.graph.children verts
  active : ∀ j ∈ verts, a.runner.graph.exited j = false
  narrow : ∀ d, (level a.runner.graph.children d a.runner.rootJobs).length ≤ n.toNat

/-- The jobs of a frame, once for every path from a root. -/
def frameJobs (verts : Finset J) (r : Runner J) : List J :=
  (List.range verts.card).flatMap fun d => level r.graph.children d r.rootJobs

/-- The first sub-cycles of a frame. -/
def frameWork (n : UInt32) (a : Arbiter J) (count : Nat) : List (List (UInt32 × J)) :=
  (List.range count).map fun d =>
    let lv := fun d => level a.runner.graph.children d a.runner.rootJobs
    SchedProgram.dealt n (startId n a.nextWorkerId lv d) (lv d)

theorem dealt_window {n next : UInt32} (positive : 0 < n) {start : Nat}
    (place : turn n next = UInt32.ofNat (start % n.toNat)) (jobs : List J) :
    ((SchedProgram.dealt n next jobs).map Prod.fst).map UInt32.toNat =
      window n.toNat start jobs.length := by
  have room : 0 < n.toNat := by rwa [UInt32.lt_iff_toNat_lt] at positive
  induction jobs generalizing next start with
  | nil => rfl
  | cons job rest ih =>
    have after : turn n (turn n next + 1) = UInt32.ofNat ((start + 1) % n.toNat) := by
      rw [place]
      exact turn_next positive
    rw [SchedProgram.dealt, List.map_cons, List.map_cons, ih after, place,
      ofNat_small (Nat.mod_lt _ room)]
    simp [window, List.range'_succ]

/-- As many jobs as there are workers go to different ones. -/
theorem dealt_once {n next : UInt32} (positive : 0 < n) (bound : next ≤ n) {jobs : List J}
    (few : jobs.length ≤ n.toNat) : ((SchedProgram.dealt n next jobs).map Prod.fst).Nodup := by
  have below := turn_lt positive bound
  rw [UInt32.lt_iff_toNat_lt] at below
  have place : turn n next = UInt32.ofNat ((turn n next).toNat % n.toNat) := by
    rw [Nat.mod_eq_of_lt below, UInt32.ofNat_toNat]
  have numbers := dealt_window positive place jobs
  have distinct := window_nodup (turn n next).toNat few
  rw [← numbers] at distinct
  exact distinct.of_map

theorem work_append {n : UInt32} {jobs later : List J} {work more : List (List (UInt32 × J))}
    (first : Work n jobs work) (second : Work n later more) :
    Work n (jobs ++ later) (work ++ more) := by
  constructor
  · intro part among
    exact (List.mem_append.mp among).elim (first.once part) (second.once part)
  · intro part among
    exact (List.mem_append.mp among).elim (first.members part) (second.members part)
  · rw [List.flatten_append, List.map_append, first.jobs, second.jobs]

theorem paired_suspended {W : Type} (w : W) : Paired w (suspended : Thread J) .ready := by
  constructor
  · exact ⟨rfl, rfl, fun no => (by cases no)⟩
  · exact ⟨⟨fun no => (by cases no), fun owned => owned.elim (fun no => (by cases no)) False.elim⟩,
      fun no => (by cases no)⟩
  · exact fun _ awake => (by cases awake)
  · exact fun no => (by simp at no)

theorem subCycles_known {W : Type} {pool : List W} {work : List (List (W × J))}
    (members : ∀ part ∈ work, ∀ x ∈ part, x.1 ∈ pool) :
    ∀ call ∈ subCycles pool work, call.target ∈ pool := by
  intro call among
  simp only [subCycles, subCycle, handOut, waitForAll, List.mem_flatMap, List.mem_append,
    List.mem_map, List.mem_cons, List.not_mem_nil, or_false] at among
  obtain ⟨part, inside, given | ⟨w, member, rfl⟩⟩ := among
  · obtain ⟨x, handed, rfl | rfl⟩ := given
    · exact members part inside x handed
    · exact members part inside x handed
  · exact member

variable [DecidableEq J]

theorem frame_work {n : UInt32} {verts : Finset J} {a : Arbiter J} (ready : Ready n verts a) :
    ∃ b work, (∀ fuel, verts.card ≤ fuel → frame fuel a = some (.ok b)) ∧ Ready n verts b ∧
      b.runner = a.runner ∧
      b.subCycles.flatten = a.subCycles.flatten ++ subCycles (workerIds n) work ∧
      Work n (frameJobs verts a.runner) work := by
  obtain ⟨static, bound, jobs1, jobs2, calls, spans, acyclic, active, narrow⟩ := ready
  obtain ⟨b, count, run, same, ends1, ends2, quiet, next, done, _, _, none_left⟩ :=
    frame_live static bound jobs1 jobs2 calls spans acyclic active
  have starts : ∀ d, startId n a.nextWorkerId
      (fun d => level a.runner.graph.children d a.runner.rootJobs) d ≤ n := fun d =>
    dealNext_le static.positive bound _
  refine ⟨b, frameWork n a count, run, ?_, same, ?_, ?_, ?_, ?_⟩
  · refine ⟨?_, ?_, ends1, ends2, quiet, ?_, ?_, ?_, ?_⟩
    · rwa [same]
    · rw [next]
      exact starts count
    · rwa [same]
    · rwa [same]
    · rwa [same]
    · rwa [same]
  · rw [done, List.flatten_append, frameCalls_subCycles]
    rfl
  · intro part among
    obtain ⟨d, _, rfl⟩ := List.mem_map.mp among
    exact dealt_once static.positive (starts d) (narrow d)
  · intro part among
    obtain ⟨d, _, rfl⟩ := List.mem_map.mp among
    exact dealt_workers static.positive (starts d) _
  · rw [frameWork, List.map_flatten, List.map_map]
    simp only [Function.comp_def, dealt_jobs]
    exact levels_agree none_left (level_exhausted spans acyclic (Nat.le_refl _))

theorem frames_work {n : UInt32} {verts : Finset J} {a : Arbiter J} (ready : Ready n verts a)
    (k : Nat) : ∃ b work, (∀ fuel, verts.card ≤ fuel → frames fuel k a = some (.ok b)) ∧
      Ready n verts b ∧ b.runner = a.runner ∧
      b.subCycles.flatten = a.subCycles.flatten ++ subCycles (workerIds n) work ∧
      Work n (List.replicate k (frameJobs verts a.runner)).flatten work := by
  induction k with
  | zero =>
    refine ⟨a, [], fun _ _ => rfl, ready, rfl, by simp [subCycles], ?_⟩
    exact ⟨by simp, by simp, rfl⟩
  | succ k ih =>
    obtain ⟨b, work, runs, between, same, calls, works⟩ := ih
    obtain ⟨c, last, run, after, still, more, lasts⟩ := frame_work between
    refine ⟨c, work ++ last, ?_, after, still.trans same, ?_, ?_⟩
    · intro fuel enough
      rw [frames, runs fuel enough]
      exact run fuel enough
    · rw [more, calls, List.append_assoc, subCycles, subCycles, subCycles, List.flatMap_append]
    · rw [List.replicate_succ', List.flatten_append, List.flatten_singleton]
      rw [same] at lasts
      exact work_append works lasts

theorem callsFor_subCycles {W : Type} (pool : List W) (work : List (List (W × J))) (job : J) :
    callsFor job (subCycles pool work) = (work.flatten.map Prod.snd).count job := by
  have handed : ∀ part : List (W × J), assignedJobs (handOut part) = part.map Prod.snd := by
    intro part
    induction part with
    | nil => rfl
    | cons x rest ih =>
      rw [handOut_cons, List.map_cons, ← ih]
      rfl
  have waited : assignedJobs (waitForAll (J := J) pool) = [] := by
    simp [assignedJobs, waitForAll, List.filterMap_map]
  rw [callsFor]
  congr 1
  induction work with
  | nil => rfl
  | cons part rest ih =>
    rw [subCycles, List.flatMap_cons, assignedJobs_append, ← subCycles, ih, subCycle,
      assignedJobs_append, handed, waited, List.append_nil, List.flatten_cons, List.map_append]

/-- Once nobody can move, all that was handed out has run. -/
theorem work_done {n : UInt32} {jobs : List J} {work : List (List (UInt32 × J))}
    (planned : Work n jobs work) {s : System UInt32 J}
    (walk : Reaches (step (workerIds n)) anyAction (start (workerIds n) work) s)
    (finished : Finished (workerIds n) s) (job : J) :
    startsOf job s.log = jobs.count job ∧ endsOf job s.log = jobs.count job := by
  have quiescent : ∀ w ∈ workerIds n, SchedTracking.Quiescent (suspended : Thread J) :=
    fun _ _ => suspended_quiescent
  have followed := followed_reaches quiescent walk
  have past : s.past = subCycles (workerIds n) work := by
    have none_left : s.remaining = [] := by
      rw [System.remaining, finished.pc, finished.program]
      rfl
    have split := followed.coupled.split
    rwa [none_left, List.append_nil] at split
  have barrier := barred_barrier (barred_reaches (uncrowded_reaches planned.once walk))
  have atEnd : AtBarrier (workerIds n) work work.length s := by
    refine ⟨finished.pc, ?_⟩
    rw [finished.program, List.drop_length]
    rfl
  have drained : ∀ w ∈ workerIds n, Drained (s.threads w) := by
    intro w member
    obtain ⟨queue, hand, _⟩ := barrier _ atEnd w member
    exact ⟨hand, queue⟩
  have targets : ∀ call ∈ s.past, call.target ∈ workerIds n := by
    rw [past]
    exact subCycles_known planned.members
  have counts := drained_counts followed targets drained job
  rwa [past, callsFor_subCycles, planned.jobs] at counts

/-- Any number of frames over a graph whose levels are no wider than the pool.
    The arbiter's loops return. Interleaved with the threads their calls take
    only so many steps that are not spurious wake-ups, the end stays in reach,
    and there every job has run as often as paths lead to it. -/
theorem frames_complete {n : UInt32} {verts : Finset J} {a : Arbiter J} (ready : Ready n verts a)
    (fresh : a.subCycles = []) (k : Nat) :
    ∃ b, (∀ fuel, verts.card ≤ fuel → frames fuel k a = some (.ok b)) ∧ b.runner = a.runner ∧
      ∀ actions s, runActions (step (workerIds n)) actions
          (launch (fun _ => suspended) b.subCycles.flatten) = some s →
        steps spurious actions ≤
          21 * b.subCycles.flatten.length + 5 * actions.countP spurious ∧
        (∃ more t, (∀ a ∈ more, spurious a = false) ∧
          runActions (step (workerIds n)) more s = some t ∧ Finished (workerIds n) t) ∧
        (Stuck (step (workerIds n)) spurious s → s.program = [] ∧ ∀ job,
          startsOf job s.log = k * (frameJobs verts a.runner).count job ∧
          endsOf job s.log = k * (frameJobs verts a.runner).count job) := by
  obtain ⟨b, work, run, _, same, calls, planned⟩ := frames_work ready k
  rw [fresh, List.flatten_nil, List.nil_append] at calls
  refine ⟨b, run, same, ?_⟩
  intro actions s taken
  rw [calls] at taken ⊢
  have known := subCycles_known planned.members
  have light : ∀ w ∈ workerIds n, threadPotential (suspended : Thread J) ≤ 0 :=
    fun _ _ => Nat.le_refl 0
  obtain ⟨bound, stuck, ends⟩ := launch_ends (fun w _ => paired_suspended w) known light taken
  have few := programPotential_le (subCycles (workerIds n) work)
  refine ⟨by omega, ends, ?_⟩
  intro halted
  have finished := stuck.mp halted
  refine ⟨finished.program, fun job => ?_⟩
  have counts := work_done planned (runActions_reaches taken) finished job
  have total : (List.replicate k (frameJobs verts a.runner)).flatten.count job =
      k * (frameJobs verts a.runner).count job := by
    rw [List.count_flatten, List.map_replicate, List.sum_replicate_nat]
  rwa [total] at counts

theorem chainArbiter_ready : Ready 1 {false, true} chainArbiter := by
  have spans : Spans chainArbiter.runner.graph.children chainArbiter.runner.rootJobs
      {false, true} := ⟨by decide, by decide⟩
  have acyclic : AcyclicOn chainArbiter.runner.graph.children {false, true} :=
    acyclic_of_rank (fun j => if j then 1 else 0) (by unfold Edge; decide) _
  refine ⟨filledPool_static (by decide), by decide, rfl, rfl, rfl, spans, acyclic, by decide, ?_⟩
  intro d
  match d with
  | 0 => decide
  | 1 => decide
  | d + 2 =>
    rw [level_exhausted spans acyclic (d := d + 2) (by simp)]
    decide

/-- Two frames of a root with one child, on one worker. -/
theorem frames_complete_chain : ∃ b, frames 2 2 chainArbiter = some (.ok b) ∧ ∃ actions t,
    runActions (step (workerIds 1)) actions
      (launch (fun _ => suspended) b.subCycles.flatten) = some t ∧
    t.program = [] ∧ startsOf true t.log = 2 ∧ endsOf false t.log = 2 := by
  obtain ⟨b, run, _, whole⟩ := frames_complete chainArbiter_ready rfl 2
  obtain ⟨_, ⟨actions, t, _, taken, finished⟩, _⟩ := whole [] _ rfl
  obtain ⟨_, _, counts⟩ := whole actions t taken
  obtain ⟨done, each⟩ := counts (finished_stuck finished)
  exact ⟨b, run 2 (by decide), actions, t, taken, done, (each true).1, (each false).2⟩

end SchedCompletion
