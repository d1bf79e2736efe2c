import SteampunkGame.Game.RenderExclusion

/-!
What the frames of the game are meant to be: one loop that writes and pumps in
either order or at once, then renders, then goes on with the next frame. The
log of any interleaving of the workers is a trace of this loop.
-/
namespace GameLoop
open SchedPool SchedWorker SchedSystem SchedTracking SchedOrder SchedSubCycle SchedTotals
open SchedRunner SchedRoundRobin SchedProgram GameWorld GameExclusion Runs
open GameJob

/-- How far a job of the current frame is. -/
inductive Stage where
  | waiting
  | running
  | done
  deriving DecidableEq, Repr

structure Loop where
  writing : Stage
  pumping : Stage
  rendering : Stage
  frames : Nat
  deriving DecidableEq, Repr

/-- Before the first job of a frame. -/
def Loop.between (frames : Nat) : Loop := ⟨.waiting, .waiting, .waiting, frames⟩

/-- The renderer waits for both other jobs, and its end is that of the frame. -/
def loopStep (l : Loop) : Event UInt32 GameJob → Option Loop
  | .started _ writeJob =>
      if l.writing = .waiting then some { l with writing := .running } else none
  | .ended _ writeJob _ =>
      if l.writing = .running then some { l with writing := .done } else none
  | .started _ eventPump =>
      if l.pumping = .waiting then some { l with pumping := .running } else none
  | .ended _ eventPump _ =>
      if l.pumping = .running then some { l with pumping := .done } else none
  | .started _ renderJob =>
      if l.writing = .done ∧ l.pumping = .done ∧ l.rendering = .waiting then
        some { l with rendering := .running }
      else none
  | .ended _ renderJob _ =>
      if l.rendering = .running then some (.between (l.frames + 1)) else none

/-- The stage of a job that was started and ended so often, in frame `k`. -/
def stageOf (starts ends k : Nat) : Stage :=
  if starts ≤ k then .waiting else if ends ≤ k then .running else .done

def loopOf (log : List (Event UInt32 GameJob)) : Loop :=
  let k := endsOf renderJob log
  { writing := stageOf (startsOf writeJob log) (endsOf writeJob log) k
    pumping := stageOf (startsOf eventPump log) (endsOf eventPump log) k
    rendering := stageOf (startsOf renderJob log) (endsOf renderJob log) k
    frames := k }

/-- What the counts of a log have to keep. -/
structure Paced (log : List (Event UInt32 GameJob)) : Prop where
  started : ∀ job, endsOf job log ≤ startsOf job log
  ahead : ∀ job, startsOf job log ≤ endsOf renderJob log + 1
  written : startsOf renderJob log ≤ endsOf writeJob log
  pumped : startsOf renderJob log ≤ endsOf eventPump log

theorem startsOf_started (job j : GameJob) (w : UInt32) (log : List (Event UInt32 GameJob)) :
    startsOf job (log ++ [.started w j]) = startsOf job log + if j = job then 1 else 0 := by
  by_cases same : j = job <;> simp [startsOf, same]

theorem startsOf_ended (job j : GameJob) (w : UInt32) (threw : Bool)
    (log : List (Event UInt32 GameJob)) :
    startsOf job (log ++ [.ended w j threw]) = startsOf job log := by
  simp [startsOf]

theorem endsOf_started (job j : GameJob) (w : UInt32) (log : List (Event UInt32 GameJob)) :
    endsOf job (log ++ [.started w j]) = endsOf job log := by
  simp [endsOf]

theorem endsOf_ended (job j : GameJob) (w : UInt32) (threw : Bool)
    (log : List (Event UInt32 GameJob)) :
    endsOf job (log ++ [.ended w j threw]) = endsOf job log + if j = job then 1 else 0 := by
  by_cases same : j = job <;> simp [endsOf, same]

theorem stageOf_waiting {starts ends k : Nat} (few : starts ≤ k) :
    stageOf starts ends k = .waiting := if_pos few

theorem stageOf_running {starts ends k : Nat} (more : k < starts) (few : ends ≤ k) :
    stageOf starts ends k = .running := by
  rw [stageOf, if_neg (Nat.not_le.mpr more), if_pos few]

theorem stageOf_done {starts ends k : Nat} (more : k < starts) (past : k < ends) :
    stageOf starts ends k = .done := by
  rw [stageOf, if_neg (Nat.not_le.mpr more), if_neg (Nat.not_le.mpr past)]

theorem paced_reached {log : List (Event UInt32 GameJob)} (paced : Paced log) (job : GameJob) :
    endsOf renderJob log ≤ startsOf job log := by
  have renders := paced.started renderJob
  cases job with
  | writeJob => exact renders.trans (paced.written.trans (paced.started writeJob))
  | eventPump => exact renders.trans (paced.pumped.trans (paced.started eventPump))
  | renderJob => exact renders

/-- Counts that are paced before and after an event allow it. -/
theorem paced_step {log : List (Event UInt32 GameJob)} {e : Event UInt32 GameJob}
    (before : Paced log) (after : Paced (log ++ [e])) :
    loopStep (loopOf log) e = some (loopOf (log ++ [e])) := by
  have reached := paced_reached before
  obtain ⟨started, ahead, written, pumped⟩ := before
  obtain ⟨started', ahead', written', pumped'⟩ := after
  have renders := started renderJob
  cases e with
  | started w job =>
    have next := ahead' job
    simp only [startsOf_started, endsOf_started, if_true] at next written' pumped'
    have ended := started job
    have first := reached job
    have goes : startsOf job log ≤ endsOf renderJob log := by omega
    have now : stageOf (startsOf job log + 1) (endsOf job log) (endsOf renderJob log) =
        .running := stageOf_running (by omega) (by omega)
    cases job with
    | writeJob =>
      have before : (loopOf log).writing = .waiting := stageOf_waiting goes
      rw [loopStep, if_pos before]
      simp only [loopOf, startsOf_started, endsOf_started, if_true, reduceCtorEq, if_false,
        Nat.add_zero, now]
    | eventPump =>
      have before : (loopOf log).pumping = .waiting := stageOf_waiting goes
      rw [loopStep, if_pos before]
      simp only [loopOf, startsOf_started, endsOf_started, if_true, reduceCtorEq, if_false,
        Nat.add_zero, now]
    | renderJob =>
      simp only [if_true] at written' pumped'
      have writes := started writeJob
      have pumps := started eventPump
      have others : (loopOf log).writing = .done ∧ (loopOf log).pumping = .done ∧
          (loopOf log).rendering = .waiting :=
        ⟨stageOf_done (by omega) (by omega), stageOf_done (by omega) (by omega),
          stageOf_waiting goes⟩
      rw [loopStep, if_pos others]
      simp only [loopOf, startsOf_started, endsOf_started, if_true, reduceCtorEq, if_false,
        Nat.add_zero, now]
  | ended w job threw =>
    have more := started' job
    have last := ahead job
    simp only [startsOf_ended, endsOf_ended, if_true] at more written' pumped'
    cases job with
    | writeJob =>
      have begun : endsOf renderJob log < startsOf writeJob log := by omega
      have now : stageOf (startsOf writeJob log) (endsOf writeJob log + 1)
          (endsOf renderJob log) = .done := stageOf_done begun (by omega)
      have before : (loopOf log).writing = .running := stageOf_running begun (by omega)
      rw [loopStep, if_pos before]
      simp only [loopOf, startsOf_ended, endsOf_ended, if_true, reduceCtorEq, if_false,
        Nat.add_zero, now]
    | eventPump =>
      have begun : endsOf renderJob log < startsOf eventPump log := by omega
      have now : stageOf (startsOf eventPump log) (endsOf eventPump log + 1)
          (endsOf renderJob log) = .done := stageOf_done begun (by omega)
      have before : (loopOf log).pumping = .running := stageOf_running begun (by omega)
      rw [loopStep, if_pos before]
      simp only [loopOf, startsOf_ended, endsOf_ended, if_true, reduceCtorEq, if_false,
        Nat.add_zero, now]
    | renderJob =>
      have now : (loopOf log).rendering = .running := stageOf_running (by omega) (Nat.le_refl _)
      rw [loopStep, if_pos now]
      simp only [loopOf, startsOf_ended, endsOf_ended, if_true, Loop.between]
      rw [stageOf_waiting (ahead writeJob), stageOf_waiting (ahead eventPump),
        stageOf_waiting (ahead renderJob)]

theorem ends_le_starts {pool : List UInt32} {program : List (Command UInt32 GameJob)}
    {s : System UInt32 GameJob} (followed : Followed pool program s) (job : GameJob) :
    endsOf job s.log ≤ startsOf job s.log := by
  rw [endsOf_workers job (inside_toFinset followed),
    startsOf_workers job (inside_toFinset followed)]
  apply Finset.sum_le_sum
  intro w member
  rw [(followed.coupled.tracks w (List.mem_toFinset.mp member)).started, List.count_append]
  exact Nat.le_add_right _ _

variable {n next : UInt32} {count : Nat} {s : System UInt32 GameJob}

/-- No job is started for a frame before the renderer of the last one ended. -/
theorem world_ahead (positive : 0 < n) (bound : next ≤ n)
    (followed : Followed (workerIds n) (worldProgram n next count) s) (job : GameJob) :
    startsOf job s.log ≤ endsOf renderJob s.log + 1 := by
  obtain ⟨k, part, past, inside⟩ := world_position ⟨s.remaining, followed.coupled.split⟩
  have made : worldProgram n next k <+: s.past := by
    rw [past]
    exact List.prefix_append _ _
  have once : callsFor job part ≤ 1 := by
    have all := (assignedJobs_mono inside).count_le job
    rw [frame_jobs] at all
    cases job <;> exact all
  calc startsOf job s.log
      ≤ callsFor job s.past := starts_le_calls followed (world_targets positive bound _) _
    _ ≤ k + 1 := by
      rw [past, callsFor_append, callsFor_world]
      exact Nat.add_le_add_left once k
    _ = callsFor renderJob (worldProgram n next k) + 1 := by rw [callsFor_world]
    _ ≤ endsOf renderJob s.log + 1 := by
      apply Nat.add_le_add_right
      exact calls_le_ends followed (world_targets positive bound k) (fun w member =>
        followed.ordered.closed w member _ made (phase_world positive bound member k)) _

theorem world_paced (positive : 0 < n) (bound : next ≤ n)
    (followed : Followed (workerIds n) (worldProgram n next count) s) : Paced s.log :=
  ⟨ends_le_starts followed, world_ahead positive bound followed,
    world_ended positive bound followed (by decide),
    world_ended positive bound followed (by decide)⟩

end GameLoop
