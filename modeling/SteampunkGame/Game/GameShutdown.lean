import SteampunkGame.Game.MainLoop
import SteampunkGame.Sched.Shutdown

/-!
The end of the game. When the arbiter has left its loop the workers are on
their way to their waits or in them, and the arbiter pops one after the other.
-/
namespace GameShutdown
open SchedPool SchedWorker SchedSystem SchedTracking SchedStop SchedStopEnds SchedShutdown
open SchedRunner SchedCompletion GameWorld GameMainLoop Runs Progress
variable {n next : UInt32} {r : Runner GameJob}

theorem quiescent_light {t : Thread GameJob} (quiescent : Quiescent t) : threadWeight t ≤ 18 := by
  obtain ⟨⟨active, awake, jobs, locked⟩, pc⟩ := t
  obtain ⟨_, asleep, drained, _, looping⟩ := quiescent
  simp only at asleep drained
  subst asleep
  subst drained
  cases pc <;> simp [threadWeight, threadRank]

/-- Any static pool and any interleaving: once the arbiter has left its loop,
    its calls of `pop_worker` and the threads that they stop come to an end, as
    long as every stop waits for its thread. A worker that is destroyed has no
    thread any more, there is a step to make until the pool is empty, all workers
    are destroyed and all threads have terminated, and at most 64 steps are made for each worker, 8
    beside these and 12 for each spurious wake-up. -/
theorem game_shuts_down {n next : UInt32} {pool : WorkerPool} (static : StaticPool n pool)
    (bound : next ≤ n) : ∃ r, world pool = .ok r ∧ ∀ fuel s, 3 ≤ fuel →
      Reaches (mainStep n fuel) anyAction (opened r next) s → s.exited = true →
      ∀ actions t,
        runActions (timelyStep n) actions (shutdown pool s.system.threads) = some t →
        (∀ id, id < n → t.popping.destroyed id = true →
          (t.popping.sys.threads id).pc = .terminated) ∧
        steps waking actions ≤ 64 * n.toNat + 8 + 12 * actions.countP waking ∧
        (Stuck (timelyStep n) waking t ↔ Over n t) ∧
        ∃ more u, (∀ a ∈ more, waking a = false) ∧
          runActions (timelyStep n) more t = some u ∧ Over n u := by
  obtain ⟨r, built, same, _⟩ := world_graph pool
  have live := static
  rw [← same] at live built
  refine ⟨r, by rw [← same]; exact built, ?_⟩
  intro fuel s enough walk exited actions t run
  have looping := looping_reaches live bound built enough walk
  obtain ⟨_, ready, done⟩ := looping.exited exited
  have quiet := (looping_boundary static.positive bound looping ready done).2
  have cycling : ∀ id, id < n → Cycling (s.system.threads id) := by
    intro id inside
    have paired := looping.sound.paired id ((mem_workerIds n id).mpr inside)
    rw [ready] at paired
    exact paired_cycling paired
  have light : ∀ id, id < n → threadWeight (s.system.threads id) ≤ 18 := fun id inside =>
    quiescent_light (quiet id ((mem_workerIds n id).mpr inside))
  obtain ⟨ended, few, ends, rest⟩ := shutdown_completes static cycling light run
  exact ⟨ended, by omega, ends, rest⟩

/-- The workers before the arbiter. -/
def loopTurns : List LoopAction :=
  [.inner (.worker 1 false), .inner (.worker 0 false), .inner .arbiter, .checkActive]

/-- The stop is signalled in the first frame. -/
theorem game_shuts_down_two : ∃ r, world (filledPool 2) = .ok r ∧ ∃ (s : MainLoop)
    (t : Shutdown GameJob) (more : List SchedShrink.Action),
    Reaches (mainStep 2 3) anyAction (opened r 1) s ∧ s.exited = true ∧ s.begun = 1 ∧
    runActions (timelyStep 2) more (shutdown (filledPool 2) s.system.threads) = some t ∧
    t.popping.pool.workers = ∅ ∧
    t.popping.destroyed 0 = true ∧ (t.popping.sys.threads 0).pc = .terminated ∧
    t.popping.destroyed 1 = true ∧ (t.popping.sys.threads 1).pc = .terminated := by
  obtain ⟨r, built, holds⟩ := game_shuts_down (filledPool_static (n := 2) (by decide))
    (show (1 : UInt32) ≤ 2 by decide)
  have run : ((mainStep 2 3 (drive (mainStep 2 3) loopTurns 20 (opened r 1)) .signalStop).map
      fun s => ((drive (mainStep 2 3) loopTurns 120 s).exited,
        (drive (mainStep 2 3) loopTurns 120 s).begun)) = some (true, 1) := by
    cases built
    decide +kernel
  obtain ⟨s, signal, seen⟩ := Option.map_eq_some_iff.mp run
  obtain ⟨exited, begun⟩ := Prod.mk.inj seen
  have free : ∀ a ∈ loopTurns, ∀ s : MainLoop, anyAction s a := fun _ _ _ => trivial
  have walk : Reaches (mainStep 2 3) anyAction (opened r 1)
      (drive (mainStep 2 3) loopTurns 120 s) :=
    (drive_reaches free 20 _).trans
      (.head ⟨.signalStop, trivial, signal⟩ (drive_reaches free 120 s))
  obtain ⟨_, _, _, more, t, _, run, _, _, empty, destroyed, threads⟩ :=
    holds 3 _ (by decide) walk exited [] _ rfl
  exact ⟨r, built, _, t, more, walk, exited, begun, run, empty, destroyed 0 (by decide),
    threads 0 (by decide), destroyed 1 (by decide), threads 1 (by decide)⟩

end GameShutdown
