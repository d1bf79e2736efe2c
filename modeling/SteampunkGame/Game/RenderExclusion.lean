import SteampunkGame.Game.World
import SteampunkGame.Sched.CallProgress
import SteampunkGame.Sched.WorkerTotals

/-!
The renderer never runs beside the jobs that write. With two or more workers
each sub-cycle gives a worker at most one job, so the waits separate them.
With one worker the event pump may still be queued when the renderer is
assigned, but the queue keeps the order and the last wait finds it empty.
-/
namespace GameExclusion
open SchedPool SchedWorker SchedSystem SchedTracking SchedOrder SchedSubCycle SchedTotals
open SchedRunner SchedRoundRobin SchedProgram SchedSteps SchedWakeup SchedProgress GameWorld
open Runs Progress
open GameJob

/-- The renderer runs beside neither job that writes. -/
def Exclusive (pool : List UInt32) (s : System UInt32 GameJob) : Prop :=
  ∀ w ∈ pool, (s.threads w).pc = .executing renderJob → ∀ v ∈ pool,
    (s.threads v).pc ≠ .executing writeJob ∧ (s.threads v).pc ≠ .executing eventPump

theorem turn_twice_ne {n next : UInt32} (several : 1 < n) (bound : next ≤ n) :
    turn n (turn n next + 1) ≠ turn n next := by
  have positive : 0 < n := UInt32.lt_trans (by decide) several
  have below := turn_lt positive bound
  generalize turn n next = id at below ⊢
  have top := n.toNat_lt
  have sum : (id + 1).toNat = id.toNat + 1 := by
    rw [UInt32.lt_iff_toNat_lt] at below
    rw [UInt32.toNat_add, UInt32.toNat_one]
    omega
  rw [UInt32.lt_iff_toNat_lt] at several below
  rw [UInt32.toNat_one] at several
  unfold turn
  intro same
  have equal := congrArg UInt32.toNat same
  split at equal
  · rename_i wraps
    have whole := congrArg UInt32.toNat wraps
    rw [sum] at whole
    rw [UInt32.toNat_zero] at equal
    omega
  · omega

theorem rootWork_once {n next : UInt32} (several : 1 < n) (bound : next ≤ n) (k : Nat) :
    ((rootWork n next k).map Prod.fst).Nodup := by
  have positive : 0 < n := UInt32.lt_trans (by decide) several
  have away := turn_twice_ne several (nextFrameId_le positive bound k)
  simp [rootWork, dealt, Ne.symm away]

theorem renderWork_once (n next : UInt32) (k : Nat) :
    ((renderWork n next k).map Prod.fst).Nodup := by
  simp [renderWork, dealt]

/-- With several workers all are drained when the zeroth sub-cycle is over. -/
theorem phase_roots {n next : UInt32} (several : 1 < n) (bound : next ≤ n) {w : UInt32}
    (member : w ∈ workerIds n) {done : List (Command UInt32 GameJob)}
    (idle : phase w done = .idle true) (k : Nat) :
    phase w (done ++ subCycle (workerIds n) (rootWork n next k)) = .idle true := by
  have ends := subCycle_drains member (rootWork_once several bound k) true
  rw [phase, List.foldl_append, ← phase, idle, ends, Bool.or_true]

theorem single_worker {n : UInt32} (single : ¬ 1 < n) {w : UInt32}
    (member : w ∈ workerIds n) : w = 0 := by
  have below := (mem_workerIds n w).mp member
  rw [UInt32.lt_iff_toNat_lt] at below single
  rw [UInt32.toNat_one] at single
  exact UInt32.toNat_inj.mp (by rw [UInt32.toNat_zero]; omega)

/-- After every frame all workers are drained, also a single one. -/
theorem phase_world {n next : UInt32} (positive : 0 < n) (bound : next ≤ n) {w : UInt32}
    (member : w ∈ workerIds n) (k : Nat) : phase w (worldProgram n next k) = .idle true := by
  induction k with
  | zero => rfl
  | succ k ih =>
    rw [worldProgram_succ, frameProgram, ← List.append_assoc, phase, List.foldl_append, ← phase]
    by_cases several : 1 < n
    · rw [phase_roots several bound member ih k,
        subCycle_drains member (renderWork_once n next k) true, Bool.or_true]
    · obtain ⟨between, idle⟩ := phase_subCycle member (rootWork n next k)
        (phase w (worldProgram n next k))
      rw [phase, List.foldl_append, ← phase, idle,
        subCycle_drains member (renderWork_once n next k) between]
      have given : w ∈ (renderWork n next k).map Prod.fst := by
        have next_le := dealNext_le (J := GameJob) positive (nextFrameId_le positive bound k)
          [writeJob, eventPump]
        have zero := single_worker several
          ((mem_workerIds n _).mpr (turn_lt positive next_le))
        rw [single_worker several member]
        simp [renderWork, dealt, zero]
      simp [given]

theorem assignedJobs_subCycle (pool : List UInt32) (jobs : List (UInt32 × GameJob)) :
    assignedJobs (subCycle pool jobs) = jobs.map Prod.snd := by
  rw [subCycle, assignedJobs_append]
  have none : assignedJobs (waitForAll (J := GameJob) pool) = [] := by
    simp [assignedJobs, waitForAll, List.filterMap_map]
  rw [none, List.append_nil]
  induction jobs with
  | nil => rfl
  | cons x rest ih => rw [handOut_cons, List.map_cons, ← ih]; rfl

theorem roots_jobs (n next : UInt32) (k : Nat) :
    assignedJobs (subCycle (workerIds n) (rootWork n next k)) = [writeJob, eventPump] := by
  rw [assignedJobs_subCycle, rootWork, dealt_jobs]

theorem render_jobs (n next : UInt32) (k : Nat) :
    assignedJobs (subCycle (workerIds n) (renderWork n next k)) = [renderJob] := by
  rw [assignedJobs_subCycle, renderWork, dealt_jobs]

theorem frame_jobs (n next : UInt32) (k : Nat) :
    assignedJobs (frameProgram n next k) = [writeJob, eventPump, renderJob] := by
  rw [frameProgram, assignedJobs_append, roots_jobs, render_jobs]
  rfl

/-- Every frame hands out each job once. -/
theorem callsFor_world (n next : UInt32) (k : Nat) (job : GameJob) :
    callsFor job (worldProgram n next k) = k := by
  induction k with
  | zero => rfl
  | succ k ih =>
    rw [worldProgram_succ, callsFor_append, ih, callsFor, frame_jobs]
    cases job <;> rfl

theorem subCycle_targets {pool : List UInt32} {jobs : List (UInt32 × GameJob)}
    (members : ∀ x ∈ jobs, x.1 ∈ pool) : ∀ call ∈ subCycle pool jobs, call.target ∈ pool := by
  intro call among
  rw [subCycle, List.mem_append] at among
  cases among with
  | inl handed =>
    obtain ⟨x, given, one⟩ := List.mem_flatMap.mp handed
    simp only [List.mem_cons, List.not_mem_nil, or_false] at one
    cases one with
    | inl assigned => rw [assigned]; exact members x given
    | inr woken => rw [woken]; exact members x given
  | inr waited =>
    obtain ⟨w, member, same⟩ := List.mem_map.mp waited
    rw [← same]
    exact member

theorem world_targets {n next : UInt32} (positive : 0 < n) (bound : next ≤ n) (k : Nat) :
    ∀ call ∈ worldProgram n next k, call.target ∈ workerIds n := by
  intro call among
  obtain ⟨i, _, inside⟩ := List.mem_flatMap.mp among
  rw [frameProgram, List.mem_append] at inside
  have first := nextFrameId_le positive bound i
  cases inside with
  | inl roots => exact subCycle_targets (dealt_workers positive first _) call roots
  | inr render =>
    exact subCycle_targets (dealt_workers positive (dealNext_le positive first _) _) call render

/-- Where the arbiter is: in some frame, having made part of its calls. -/
theorem world_position {n next : UInt32} {past : List (Command UInt32 GameJob)} {count : Nat}
    (made : past <+: worldProgram n next count) :
    ∃ k part, past = worldProgram n next k ++ part ∧ part <+: frameProgram n next k := by
  induction count with
  | zero =>
    rw [List.prefix_nil.mp made]
    exact ⟨0, [], rfl, List.nil_prefix⟩
  | succ k ih =>
    rw [worldProgram_succ] at made
    cases List.prefix_or_prefix_of_prefix made (List.prefix_append _ _) with
    | inl earlier => exact ih earlier
    | inr later =>
      obtain ⟨part, eq⟩ := later
      rw [← eq, List.prefix_append_right_inj] at made
      exact ⟨k, part, eq.symm, made⟩

theorem assignedTo_subset {w : UInt32} {calls : List (Command UInt32 GameJob)} {job : GameJob}
    (given : job ∈ assignedTo w calls) : job ∈ assignedJobs calls := by
  obtain ⟨call, among, same⟩ := List.mem_filterMap.mp given
  apply List.mem_filterMap.mpr ⟨call, among, _⟩
  cases call with
  | assign v j =>
    dsimp only at same ⊢
    split at same
    · exact same
    · cases same
  | wake v => cases same
  | waitCycleFinish v => cases same

theorem assignedTo_all {w : UInt32} {calls : List (Command UInt32 GameJob)}
    (only : ∀ call ∈ calls, call.target = w) : assignedTo w calls = assignedJobs calls := by
  apply List.filterMap_congr
  intro call among
  cases call with
  | assign v j => exact if_pos (only _ among)
  | _ => rfl

/-- The calls since the last moment at which all workers were drained. -/
inductive Current (n next : UInt32) (done rest : List (Command UInt32 GameJob)) : Prop where
  | roots (k : Nat) (before : done = worldProgram n next k)
      (made : rest <+: subCycle (workerIds n) (rootWork n next k))
  | render (k : Nat)
      (before : done = worldProgram n next k ++ subCycle (workerIds n) (rootWork n next k))
      (made : rest <+: subCycle (workerIds n) (renderWork n next k))

theorem world_current {n next : UInt32} {past : List (Command UInt32 GameJob)} {count : Nat}
    (made : past <+: worldProgram n next count) :
    ∃ done rest, past = done ++ rest ∧ Current n next done rest := by
  obtain ⟨k, part, eq, inside⟩ := world_position made
  rw [frameProgram] at inside
  cases List.prefix_or_prefix_of_prefix inside (List.prefix_append _ _) with
  | inl first => exact ⟨_, part, eq, .roots k rfl first⟩
  | inr second =>
    obtain ⟨rest, whole⟩ := second
    rw [← whole, List.prefix_append_right_inj] at inside
    refine ⟨_, rest, ?_, .render k rfl inside⟩
    rw [eq, ← whole, List.append_assoc]

theorem current_drained {n next : UInt32} (several : 1 < n) (bound : next ≤ n)
    {done rest : List (Command UInt32 GameJob)} (current : Current n next done rest) {w : UInt32}
    (member : w ∈ workerIds n) : phase w done = .idle true := by
  have positive : 0 < n := UInt32.lt_trans (by decide) several
  cases current with
  | roots k before made =>
    rw [before]
    exact phase_world positive bound member k
  | render k before made =>
    rw [before]
    exact phase_roots several bound member (phase_world positive bound member k) k

theorem current_targets {n next : UInt32} (positive : 0 < n) (bound : next ≤ n)
    {done rest : List (Command UInt32 GameJob)} (current : Current n next done rest) :
    ∀ call ∈ done, call.target ∈ workerIds n := by
  intro call among
  cases current with
  | roots k before made => exact world_targets positive bound k call (by rwa [← before])
  | render k before made =>
    rw [before, List.mem_append] at among
    cases among with
    | inl earlier => exact world_targets positive bound k call earlier
    | inr roots =>
      exact subCycle_targets (dealt_workers positive (nextFrameId_le positive bound k) _) call roots

theorem assignedJobs_mono {xs ys : List (Command UInt32 GameJob)} (made : xs <+: ys) :
    assignedJobs xs <+: assignedJobs ys := List.IsPrefix.filterMap _ made

/-- The other jobs have been waited for as often as renderers were handed out. -/
theorem current_counts {n next : UInt32} {done rest : List (Command UInt32 GameJob)}
    (current : Current n next done rest) {job : GameJob} (other : job ≠ renderJob) :
    callsFor renderJob (done ++ rest) ≤ callsFor job done := by
  rw [callsFor_append]
  cases current with
  | roots k before made =>
    have none := (assignedJobs_mono made).count_le renderJob
    rw [roots_jobs] at none
    rw [before, callsFor_world, callsFor_world]
    exact Nat.add_le_add_left none k
  | render k before made =>
    have one := (assignedJobs_mono made).count_le renderJob
    rw [render_jobs] at one
    have root : callsFor job (subCycle (workerIds n) (rootWork n next k)) = 1 := by
      rw [callsFor, roots_jobs]
      cases job with
      | writeJob | eventPump => rfl
      | renderJob => exact absurd rfl other
    have none : callsFor renderJob (subCycle (workerIds n) (rootWork n next k)) = 0 := by
      rw [callsFor, roots_jobs]
      rfl
    rw [before, callsFor_append, callsFor_append, callsFor_world, callsFor_world, root, none]
    exact Nat.add_le_add_left one k

variable {n next : UInt32} {count : Nat} {s : System UInt32 GameJob}

theorem exclusive_several (several : 1 < n) (bound : next ≤ n)
    (followed : Followed (workerIds n) (worldProgram n next count) s) :
    Exclusive (workerIds n) s := by
  intro w member rendering v other
  obtain ⟨done, rest, past, current⟩ := world_current ⟨s.remaining, followed.coupled.split⟩
  have inside : ∀ u ∈ workerIds n, ∀ job, (s.threads u).pc = .executing job →
      job ∈ assignedJobs rest := by
    intro u among job running
    apply assignedTo_subset (w := u)
    exact inHand_current (followed.coupled.tracks u among) past
      (followed.ordered.closed u among done (by rw [past]; exact List.prefix_append _ _)
        (current_drained several bound current among)) running
  have given := inside w member renderJob rendering
  cases current with
  | roots k before made =>
    have apart := (assignedJobs_mono made).subset given
    rw [roots_jobs] at apart
    simp at apart
  | render k before made =>
    constructor
    · intro writing
      have apart := (assignedJobs_mono made).subset (inside v other writeJob writing)
      rw [render_jobs] at apart
      simp at apart
    · intro pumping
      have apart := (assignedJobs_mono made).subset (inside v other eventPump pumping)
      rw [render_jobs] at apart
      simp at apart

theorem ended_several (several : 1 < n) (bound : next ≤ n)
    (followed : Followed (workerIds n) (worldProgram n next count) s) {job : GameJob}
    (other : job ≠ renderJob) : startsOf renderJob s.log ≤ endsOf job s.log := by
  have positive : 0 < n := UInt32.lt_trans (by decide) several
  obtain ⟨done, rest, past, current⟩ := world_current ⟨s.remaining, followed.coupled.split⟩
  have made : done <+: s.past := by
    rw [past]
    exact List.prefix_append _ _
  calc startsOf renderJob s.log
      ≤ callsFor renderJob s.past := starts_le_calls followed (world_targets positive bound _) _
    _ ≤ callsFor job done := by
      rw [past]
      exact current_counts current other
    _ ≤ endsOf job s.log :=
      calls_le_ends followed (current_targets positive bound current) (fun w member =>
        followed.ordered.closed w member done made
          (current_drained several bound current member)) _

/-- In the order in which a single worker takes the jobs no renderer comes
    before the other jobs of its frame. -/
theorem cycle_order {jobs : List GameJob} {k : Nat}
    (made : jobs <+: assignedJobs (worldProgram n next k)) {job : GameJob}
    (other : job ≠ renderJob) : jobs.count renderJob ≤ jobs.count job := by
  induction k with
  | zero =>
    rw [List.prefix_nil.mp made]
    exact Nat.le_refl _
  | succ k ih =>
    rw [worldProgram_succ, assignedJobs_append, frame_jobs] at made
    cases List.prefix_or_prefix_of_prefix made (List.prefix_append _ _) with
    | inl earlier => exact ih earlier
    | inr later =>
      obtain ⟨part, eq⟩ := later
      rw [← eq, List.prefix_append_right_inj] at made
      have whole : ∀ job, (assignedJobs (worldProgram n next k)).count job = k :=
        callsFor_world n next k
      rw [← eq, List.count_append, List.count_append, whole, whole]
      apply Nat.add_le_add_left
      rw [List.prefix_iff_eq_take.mp made]
      -- the renderer is the last of the three
      match part.length with
      | 0 | 1 | 2 => exact Nat.zero_le _
      | size + 3 =>
        rw [List.take_of_length_le (Nat.le_add_left 3 size)]
        cases job with
        | writeJob | eventPump => exact Nat.le_refl 1
        | renderJob => exact absurd rfl other

theorem exclusive_single (single : ¬ 1 < n) : Exclusive (workerIds n) s := by
  intro w member rendering v other
  rw [single_worker single member] at rendering
  rw [single_worker single other, rendering]
  decide

theorem ended_single (positive : 0 < n) (single : ¬ 1 < n) (bound : next ≤ n)
    (followed : Followed (workerIds n) (worldProgram n next count) s) {job : GameJob}
    (other : job ≠ renderJob) : startsOf renderJob s.log ≤ endsOf job s.log := by
  have zero : (0 : UInt32) ∈ workerIds n := (mem_workerIds n 0).mpr positive
  have inside : ∀ e ∈ s.log, Event.worker e ∈ ({0} : Finset UInt32) := fun e among =>
    Finset.mem_singleton.mpr (single_worker single (followed.inside e among))
  have tracks := followed.coupled.tracks 0 zero
  have order : endedBy 0 s.log ++ (s.threads 0).pc.inHand <+:
      assignedJobs (worldProgram n next count) := by
    have only : ∀ call ∈ worldProgram n next count, call.target = 0 := fun call among =>
      single_worker single (world_targets positive bound count call among)
    rw [← assignedTo_all only, ← followed.coupled.split, assignedTo_append, ← tracks.finished,
      List.append_assoc (_ ++ _)]
    exact List.prefix_append _ _
  rw [startsOf_workers _ inside, endsOf_workers _ inside, Finset.sum_singleton,
    Finset.sum_singleton, tracks.started]
  have now := cycle_order order other
  by_cases running : (s.threads 0).pc = .executing job
  · -- the job in hand is not yet counted, so look at the jobs before it
    have earlier := cycle_order ((List.prefix_append _ _).trans order) other
    have away : ([job] : List GameJob).count renderJob = 0 := by simp [other]
    rw [running, List.count_append]
    exact (congrArg (_ + ·) away).trans_le earlier
  · have none : (s.threads 0).pc.inHand.count job = 0 := by
      rw [List.count_eq_zero]
      intro held
      apply running
      cases pc : (s.threads 0).pc with
      | executing hand =>
        rw [pc] at held
        rw [← List.mem_singleton.mp held]
      | _ => rw [pc] at held; cases held
    rw [List.count_append, List.count_append, none] at now
    rw [List.count_append]
    exact now

/-- The jobs before the renderer have ended in its frame when it starts. -/
theorem world_ended (positive : 0 < n) (bound : next ≤ n)
    (followed : Followed (workerIds n) (worldProgram n next count) s) {job : GameJob}
    (other : job ≠ renderJob) : startsOf renderJob s.log ≤ endsOf job s.log := by
  by_cases several : 1 < n
  · exact ended_several several bound followed other
  · exact ended_single positive several bound followed other

theorem world_exclusive (bound : next ≤ n)
    (followed : Followed (workerIds n) (worldProgram n next count) s) :
    Exclusive (workerIds n) s := by
  by_cases several : 1 < n
  · exact exclusive_several several bound followed
  · exact exclusive_single several

/-- At the end of frame `k` every job has run `k` times and all is quiet. -/
theorem world_boundary (positive : 0 < n) (bound : next ≤ n)
    (followed : Followed (workerIds n) (worldProgram n next count) s) {k : Nat}
    (past : s.past = worldProgram n next k) :
    (∀ job, startsOf job s.log = k ∧ endsOf job s.log = k) ∧
      ∀ w ∈ workerIds n, Quiescent (s.threads w) := by
  have idle : ∀ w ∈ workerIds n, phase w s.past = .idle true := by
    intro w member
    rw [past]
    exact phase_world positive bound member k
  constructor
  · intro job
    rw [← callsFor_world n next k job, ← past]
    apply drained_counts followed
    · rw [past]
      exact world_targets positive bound k
    · intro w member
      exact tracks_idle (followed.coupled.tracks w member) (idle w member)
  · intro w member
    exact tracks_quiescent (followed.coupled.tracks w member) (idle w member)

theorem quiescent_paired {w : UInt32} {t : Thread GameJob} (quiescent : Quiescent t)
    (own : t.worker.locked = holds t.pc) : Paired w t .ready := by
  obtain ⟨active, asleep, _, resting, looping⟩ := quiescent
  constructor
  · exact ⟨active, looping, fun busy => absurd (busy.symm.trans resting) (by decide)⟩
  · exact ⟨by rw [own]; exact ⟨Or.inl, fun held => held.resolve_right id⟩, fun _ => id⟩
  · exact fun _ awake => absurd (awake.symm.trans asleep) (by decide)
  · exact fun waits => absurd waits (by simp)

theorem quiescent_potential {t : Thread GameJob} (quiescent : Quiescent t) :
    threadPotential t ≤ 11 := by
  obtain ⟨⟨active, awake, jobs, locked⟩, pc⟩ := t
  obtain ⟨_, asleep, drained, _, _⟩ := quiescent
  dsimp only at asleep drained
  rw [threadPotential, asleep, drained]
  cases pc <;> simp [rank]

theorem handOut_potential {W J : Type} (jobs : List (W × J)) :
    programPotential (handOut jobs) = 24 * jobs.length := by
  induction jobs with
  | nil => rfl
  | cons x rest ih =>
    rw [handOut_cons, programPotential, programPotential, ih, List.length_cons]
    simp only [callPotential]
    omega

theorem waitForAll_potential {W J : Type} (pool : List W) :
    programPotential (waitForAll (J := J) pool) = 5 * pool.length := by
  induction pool with
  | nil => rfl
  | cons w rest ih =>
    rw [waitForAll, List.map_cons, programPotential, ← waitForAll, ih, List.length_cons]
    simp only [callPotential]
    omega

theorem worldProgram_potential (n next : UInt32) (k : Nat) :
    programPotential (worldProgram n next k) = (72 + 10 * n.toNat) * k := by
  induction k with
  | zero => rfl
  | succ k ih =>
    have roots : (rootWork n next k).length = 2 := rfl
    have render : (renderWork n next k).length = 1 := rfl
    have pool : (workerIds n).length = n.toNat := by simp [workerIds]
    rw [worldProgram_succ, programPotential_append, ih, frameProgram, programPotential_append,
      subCycle, subCycle, programPotential_append, programPotential_append, handOut_potential,
      handOut_potential, waitForAll_potential, roots, render, pool]
    have whole : (72 + 10 * n.toNat) * (k + 1) =
        (72 + 10 * n.toNat) * k + (72 + 10 * n.toNat) := Nat.mul_succ _ _
    omega

/-- The calls of the frames come to an end, and there every job has run in
    every frame. -/
theorem world_completes {n next : UInt32} (positive : 0 < n) (bound : next ≤ n)
    {threads : UInt32 → Thread GameJob} (quiescent : ∀ w ∈ workerIds n, Quiescent (threads w))
    (own : ∀ w ∈ workerIds n, (threads w).worker.locked = holds (threads w).pc) {count : Nat}
    {actions : List (Action UInt32)} {s : System UInt32 GameJob}
    (run : runActions (step (workerIds n)) actions
      (launch threads (worldProgram n next count)) = some s) :
    steps spurious actions ≤ 11 * n.toNat + (72 + 10 * n.toNat) * count +
      5 * actions.countP spurious ∧
    (Stuck (step (workerIds n)) spurious s ↔ Finished (workerIds n) s) ∧
    ∃ more t, (∀ a ∈ more, spurious a = false) ∧ runActions (step (workerIds n)) more s = some t ∧
      Finished (workerIds n) t ∧ (∀ job, startsOf job t.log = count ∧ endsOf job t.log = count) ∧
      ∀ w ∈ workerIds n, Quiescent (t.threads w) := by
  obtain ⟨few, ends, more, t, busy, rest, finished⟩ :=
    launch_ends (fun w member => quiescent_paired (quiescent w member) (own w member))
      (world_targets positive bound count)
      (fun w member => quiescent_potential (quiescent w member)) run
  have pool : (workerIds n).length = n.toNat := by simp [workerIds]
  rw [worldProgram_potential, pool] at few
  refine ⟨few, ends, more, t, busy, rest, finished, ?_⟩
  have followed := followed_reaches quiescent
    ((runActions_reaches run).trans (runActions_reaches rest))
  have whole := followed.coupled.split
  rw [System.remaining, finished.pc, finished.program] at whole
  exact world_boundary positive bound followed ((List.append_nil _).symm.trans whole)

/-- Frames of the game's own job graph on any static pool, for any number of
    frames and any interleaving. The renderer never runs beside the jobs that
    write. When it starts, more writes have ended than renderers had started
    before. After every frame each job was executed once more, and the workers
    are quiescent again. If no mutex is held but by the thread of its worker,
    the frames come to their end: but for spurious wake-ups there are at most so
    many steps, there is a next one until then, and it can be reached. -/
theorem write_render_exclusion {n next : UInt32} {pool : WorkerPool} (static : StaticPool n pool)
    (bound : next ≤ n) {threads : UInt32 → Thread GameJob}
    (quiescent : ∀ w ∈ workerIds n, Quiescent (threads w)) :
    ∃ (r : Runner GameJob) (b : Nat → Arbiter GameJob), world pool = .ok r ∧
      (∀ fuel k, 3 ≤ fuel → frames fuel k (arbiterAt r next) = some (.ok (b k))) ∧
      (∀ count s, Reaches (step (workerIds n)) anyAction
          (launch threads (b count).subCycles.flatten) s →
        Exclusive (workerIds n) s ∧
        (∀ before w, before ++ [.started w renderJob] <+: s.log →
          startsOf renderJob before < endsOf writeJob before) ∧
        ∀ k, s.pc = .ready →
          (b k).subCycles.flatten ++ s.program = (b count).subCycles.flatten →
          (∀ job, startsOf job s.log = k ∧ endsOf job s.log = k) ∧
          ∀ w ∈ workerIds n, Quiescent (s.threads w)) ∧
      ((∀ w ∈ workerIds n, (threads w).worker.locked = holds (threads w).pc) →
        ∀ count actions s, runActions (step (workerIds n)) actions
            (launch threads (b count).subCycles.flatten) = some s →
          steps spurious actions ≤ 11 * n.toNat + (72 + 10 * n.toNat) * count +
            5 * actions.countP spurious ∧
          (Stuck (step (workerIds n)) spurious s ↔ Finished (workerIds n) s) ∧
          ∃ more t, (∀ a ∈ more, spurious a = false) ∧
            runActions (step (workerIds n)) more s = some t ∧ Finished (workerIds n) t ∧
            (∀ job, startsOf job t.log = count ∧ endsOf job t.log = count) ∧
            ∀ w ∈ workerIds n, Quiescent (t.threads w)) := by
  obtain ⟨r, built, same, _⟩ := world_graph pool
  rw [← same] at static built
  choose b run steady using frames_steady static bound built
  rw [same] at built
  refine ⟨r, b, built, fun fuel k enough => run k fuel enough, ?_, ?_⟩
  · intro count s walk
    rw [(steady count).program] at walk
    have followed := followed_reaches quiescent walk
    refine ⟨world_exclusive bound followed, ?_, ?_⟩
    · intro before w prefixed
      obtain ⟨t, reached, log⟩ := log_history walk prefixed
      have counts := world_ended static.positive bound (followed_reaches quiescent reached)
        (show writeJob ≠ renderJob by decide)
      rw [log, startsOf_append, endsOf_append] at counts
      exact counts
    · intro k ready split
      apply world_boundary static.positive bound followed
      have whole := followed.coupled.split
      rw [← (steady count).program, ← split, System.remaining, ready] at whole
      rw [← (steady k).program]
      exact List.append_cancel_right whole
  · intro own count actions s taken
    rw [(steady count).program] at taken
    exact world_completes static.positive bound quiescent own taken

/-- Two workers, the second of which is next. -/
theorem write_render_exclusion_two :
    ∃ (r : Runner GameJob) (b : Nat → Arbiter GameJob), world (filledPool 2) = .ok r ∧
      frames 3 2 (arbiterAt r 1) = some (.ok (b 2)) ∧
      ∃ s, Reaches (step (workerIds 2)) anyAction
          (launch (fun _ => ⟨⟨true, false, [], false⟩, .parked⟩) (b 2).subCycles.flatten) s ∧
        Exclusive (workerIds 2) s ∧ s.pc = .ready ∧ s.program = [] ∧
        ∀ job, startsOf job s.log = 2 ∧ endsOf job s.log = 2 := by
  obtain ⟨r, b, built, run, holds, completes⟩ := write_render_exclusion
    (filledPool_static (n := 2) (by decide)) (show (1 : UInt32) ≤ 2 by decide)
    (fun w _ => (⟨rfl, rfl, rfl, rfl, rfl⟩ :
      Quiescent (⟨⟨true, false, [], false⟩, .parked⟩ : Thread GameJob)))
  obtain ⟨_, _, actions, s, _, taken, finished, each, _⟩ := completes (fun _ _ => rfl) 2 [] _ rfl
  have walk := runActions_reaches taken
  exact ⟨r, b, built, run 3 2 (by decide), s, walk, (holds 2 s walk).1, finished.pc,
    finished.program, each⟩

end GameExclusion
