import SteampunkGame.Game.GameLoop
import SteampunkGame.Sched.FrameCompletion

/-!
`runner_arbiter` around its frames: it reads `_active` before each of them,
while a thread may call `signal_stop` at any time. Whatever the interleaving
is, the jobs run as one loop would run them; after the signal the frame that
has begun is finished, and no other one is begun.
-/
namespace GameMainLoop
open SchedPool SchedWorker SchedSystem SchedTracking SchedOrder SchedTotals SchedSubCycle
open SchedRunner SchedProgress SchedCompletion SchedWakeup GameWorld GameExclusion GameLoop
open SchedBarrier (suspended suspended_quiescent)
open Runs Progress
open GameJob

/-- `begun` counts the frames, and `exited` says that the loop was left. -/
structure MainLoop where
  system : System UInt32 GameJob
  arbiter : Arbiter GameJob
  active : Bool
  begun : Nat
  exited : Bool

inductive LoopAction where
  | inner (a : Action UInt32)
  | checkActive
  | signalStop
  deriving DecidableEq, Repr

/-- The calls that a frame has added. -/
def newCalls (a b : Arbiter GameJob) : List (Command UInt32 GameJob) :=
  b.subCycles.flatten.drop a.subCycles.flatten.length

/-- The arbiter checks `_active` when it has returned from all calls of the
    last frame. `signal_stop` stores the flag without waiting. -/
def mainStep (n : UInt32) (fuel : Nat) (s : MainLoop) : LoopAction → Option MainLoop
  | .inner a =>
      match step (workerIds n) s.system a with
      | some system => some { s with system := system }
      | none => none
  | .checkActive =>
      if s.system.pc = .ready ∧ s.system.program = [] ∧ s.exited = false then
        if s.active then
          match frame fuel s.arbiter with
          | some (.ok b) => some { s with
              system := { s.system with program := newCalls s.arbiter b }
              arbiter := b
              begun := s.begun + 1 }
          | _ => none
        else some { s with exited := true }
      else none
  | .signalStop => some { s with active := false }

/-- The scheduler when `start` has pushed its workers. -/
def opened (r : Runner GameJob) (next : UInt32) : MainLoop :=
  ⟨launch (fun _ => suspended) [], arbiterAt r next, true, 0, false⟩

/-- What every reachable state keeps. -/
structure Looping (n next : UInt32) (r : Runner GameJob) (s : MainLoop) : Prop where
  steady : Steady n next r s.begun s.arbiter
  followed : Followed (workerIds n) (worldProgram n next s.begun) s.system
  sound : Sound (workerIds n) s.system
  made : worldProgram n next (s.begun - 1) <+: s.system.past
  trace : runActions loopStep s.system.log (.between 0) = some (loopOf s.system.log)
  exited : s.exited = true →
    s.active = false ∧ s.system.pc = .ready ∧ s.system.program = []

/-- The arbiter does nothing between two frames. -/
theorem step_ready {pool : List UInt32} {s t : System UInt32 GameJob} {a : Action UInt32}
    (ready : s.pc = .ready) (done : s.program = []) (run : step pool s a = some t) :
    t.pc = .ready ∧ t.program = [] := by
  cases a with
  | worker w threw =>
    simp only [step] at run
    split at run
    · obtain ⟨thread, effect, main, threads, pc⟩ := workerStep_told run
      rw [workerStep_program run, pc, ready]
      exact ⟨by cases effect <;> rfl, done⟩
    · cases run
  | spurious w =>
    simp only [step] at run
    split at run
    · cases run
      exact ⟨ready, done⟩
    · cases run
  | arbiter =>
    have halted : arbiterStep s = none := by simp [arbiterStep, ready, done]
    rw [step, halted] at run
    cases run
  | arbiterSpurious =>
    simp only [step, ready] at run
    cases run

theorem newCalls_frame {n next : UInt32} {r : Runner GameJob} {k : Nat} {a b : Arbiter GameJob}
    (before : Steady n next r k a) (after : Steady n next r (k + 1) b) :
    newCalls a b = frameProgram n next k := by
  rw [newCalls, before.program, after.program, worldProgram_succ, List.drop_left]

theorem all_made {pool : List UInt32} {program : List (Command UInt32 GameJob)}
    {s : System UInt32 GameJob} (followed : Followed pool program s) (ready : s.pc = .ready)
    (done : s.program = []) : s.past = program := by
  have none_left : s.remaining = [] := by
    rw [System.remaining, ready, done]
    rfl
  have split := followed.coupled.split
  rwa [none_left, List.append_nil] at split

theorem stepped_past {pool : List UInt32} {s t : System UInt32 GameJob} {a : Action UInt32}
    (stepped : Stepped pool s a t) : s.past <+: t.past := by
  cases stepped with
  | worker w threw thread effect action member run threads past log remaining => rw [past]
  | assigned w job threads past log remaining => rw [past]; exact List.prefix_append _ _
  | woken w threads past log remaining => rw [past]; exact List.prefix_append _ _
  | passed w asleep threads past log remaining => rw [past]; exact List.prefix_append _ _
  | calm threads past log remaining => rw [past]

/-- More calls of the arbiter. -/
theorem followed_extend {pool : List UInt32} {program more : List (Command UInt32 GameJob)}
    {s : System UInt32 GameJob} (followed : Followed pool program s) (ready : s.pc = .ready)
    (done : s.program = []) : Followed pool (program ++ more) { s with program := more } := by
  have given := all_made followed ready done
  obtain ⟨⟨tracks, split⟩, ⟨closed, ordered⟩, inside⟩ := followed
  refine ⟨⟨?_, ?_⟩, ⟨closed, ordered⟩, inside⟩
  · intro w member
    obtain ⟨running, finished, started, fits⟩ := tracks w member
    exact ⟨running, finished, started, fits⟩
  · change s.past ++ (ArbiterPc.inFlight s.pc ++ more) = program ++ more
    rw [given, ready]
    rfl

theorem sound_extend {pool : List UInt32} {more : List (Command UInt32 GameJob)}
    {s : System UInt32 GameJob} (sound : Sound pool s)
    (known : ∀ call ∈ more, call.target ∈ pool) : Sound pool { s with program := more } :=
  ⟨sound.paired, known, sound.known.current⟩

variable {n next : UInt32} {r : Runner GameJob}

theorem looping_opened : Looping n next r (opened r next) := by
  constructor
  · exact ⟨rfl, rfl, rfl, rfl, rfl, rfl⟩
  · exact followed_reaches (fun _ _ => suspended_quiescent) .refl
  · exact sound_launch (fun w _ => paired_suspended w) (fun call among => by cases among)
  · exact List.nil_prefix
  · rfl
  · exact fun no => (by cases no)

theorem looping_step (static : StaticPool n r.pool) (bound : next ≤ n)
    (built : world r.pool = .ok r) {fuel : Nat} (enough : 3 ≤ fuel) {s t : MainLoop}
    {a : LoopAction} (looping : Looping n next r s) (run : mainStep n fuel s a = some t) :
    Looping n next r t := by
  obtain ⟨steady, followed, sound, made, trace, exited⟩ := looping
  cases a with
  | inner a =>
    simp only [mainStep] at run
    split at run
    · rename_i system taken
      cases run
      have stepped := step_stepped taken
      have now := followed_stepped followed stepped
      refine ⟨steady, now, sound_step sound taken, made.trans (stepped_past stepped), ?_, ?_⟩
      · cases stepped_log stepped with
        | inl same => rw [same]; exact trace
        | inr grown =>
          obtain ⟨e, log⟩ := grown
          have paced := world_paced static.positive bound now
          rw [log] at paced ⊢
          rw [runActions_concat, trace]
          exact paced_step (world_paced static.positive bound followed) paced
      · intro left
        obtain ⟨off, ready, done⟩ := exited left
        exact ⟨off, step_ready ready done taken⟩
    · cases run
  | checkActive =>
    simp only [mainStep] at run
    split at run
    · rename_i atEnd
      obtain ⟨ready, done, inside⟩ := atEnd
      split at run
      · obtain ⟨b, frames, after⟩ := frame_steady static bound built steady
        rw [frames fuel enough] at run
        cases run
        have calls := newCalls_frame steady after
        rw [calls]
        refine ⟨after, ?_, ?_, ?_, trace, fun left => (by rw [inside] at left; cases left)⟩
        · rw [worldProgram_succ]
          exact followed_extend followed ready done
        · apply sound_extend sound
          intro call among
          apply world_targets static.positive bound (s.begun + 1) call
          rw [worldProgram_succ]
          exact List.mem_append_right _ among
        · rw [Nat.add_sub_cancel, ← all_made followed ready done]
      · rename_i off
        cases run
        exact ⟨steady, followed, sound, made, trace, fun _ => ⟨by simpa using off, ready, done⟩⟩
    · cases run
  | signalStop =>
    cases run
    exact ⟨steady, followed, sound, made, trace, fun left => ⟨rfl, (exited left).2⟩⟩

/-- Frames that have ended in the loop's sense, against those that have begun. -/
theorem looping_frames (positive : 0 < n) (bound : next ≤ n) {s : MainLoop}
    (looping : Looping n next r s) : (loopOf s.system.log).frames ≤ s.begun ∧
      s.begun ≤ (loopOf s.system.log).frames + 1 := by
  have followed := looping.followed
  constructor
  · calc endsOf renderJob s.system.log
        ≤ startsOf renderJob s.system.log := ends_le_starts followed renderJob
      _ ≤ callsFor renderJob s.system.past :=
        starts_le_calls followed (world_targets positive bound _) _
      _ ≤ callsFor renderJob (worldProgram n next s.begun) := by
        rw [← followed.coupled.split, callsFor_append]
        exact Nat.le_add_right _ _
      _ = s.begun := callsFor_world n next s.begun renderJob
  · have ended : callsFor renderJob (worldProgram n next (s.begun - 1)) ≤
        endsOf renderJob s.system.log :=
      calls_le_ends followed (world_targets positive bound _) (fun w member =>
        followed.ordered.closed w member _ looping.made (phase_world positive bound member _)) _
    rw [callsFor_world] at ended
    change s.begun ≤ endsOf renderJob s.system.log + 1
    omega

theorem looping_boundary (positive : 0 < n) (bound : next ≤ n) {s : MainLoop}
    (looping : Looping n next r s) (ready : s.system.pc = .ready) (done : s.system.program = []) :
    (∀ job, startsOf job s.system.log = s.begun ∧ endsOf job s.system.log = s.begun) ∧
      ∀ w ∈ workerIds n, Quiescent (s.system.threads w) :=
  world_boundary positive bound looping.followed (all_made looping.followed ready done)

theorem loopOf_between {log : List (Event UInt32 GameJob)} {k : Nat}
    (counts : ∀ job, startsOf job log = k ∧ endsOf job log = k) : loopOf log = .between k := by
  simp only [loopOf, (counts _).1, (counts _).2, stageOf_waiting (Nat.le_refl k), Loop.between]

theorem looping_reaches (static : StaticPool n r.pool) (bound : next ≤ n)
    (built : world r.pool = .ok r) {fuel : Nat} (enough : 3 ≤ fuel) {s : MainLoop}
    (walk : Reaches (mainStep n fuel) anyAction (opened r next) s) : Looping n next r s :=
  reaches_invariant (fun _ _ _ looping _ run => looping_step static bound built enough looping run)
    walk looping_opened

/-- The scheduler on any static pool, for any number of frames, in any
    interleaving and with a stop at any time: what the workers log is a trace
    of the loop, at most one frame is under way, and when the arbiter looks at
    `_active` the loop is between two frames. -/
theorem world_refines_loop {n next : UInt32} {pool : WorkerPool} (static : StaticPool n pool)
    (bound : next ≤ n) :
    ∃ r, world pool = .ok r ∧ ∀ fuel s, 3 ≤ fuel →
      Reaches (mainStep n fuel) anyAction (opened r next) s →
      ∃ l, runActions loopStep s.system.log (.between 0) = some l ∧
        l.frames ≤ s.begun ∧ s.begun ≤ l.frames + 1 ∧
        (s.system.pc = .ready → s.system.program = [] → l = .between s.begun ∧
          ∀ w ∈ workerIds n, Quiescent (s.system.threads w)) := by
  obtain ⟨r, built, same, _⟩ := world_graph pool
  rw [← same] at static built
  refine ⟨r, by rw [← same]; exact built, ?_⟩
  intro fuel s enough walk
  have looping := looping_reaches static bound built enough walk
  obtain ⟨few, most⟩ := looping_frames static.positive bound looping
  refine ⟨_, looping.trace, few, most, ?_⟩
  intro ready done
  obtain ⟨counts, quiet⟩ := looping_boundary static.positive bound looping ready done
  exact ⟨loopOf_between counts, quiet⟩

/-- Two workers, the second of which is next: it starts the first write while
    the arbiter goes on to the event pump. -/
theorem world_refines_loop_two : ∃ r, world (filledPool 2) = .ok r ∧ ∃ (s : MainLoop) (l : Loop),
    Reaches (mainStep 2 3) anyAction (opened r 1) s ∧
    s.system.log = [.started 1 writeJob] ∧ s.begun = 1 ∧
    runActions loopStep s.system.log (.between 0) = some l ∧ l.frames ≤ 1 := by
  obtain ⟨r, built, holds⟩ := world_refines_loop (filledPool_static (n := 2) (by decide))
    (show (1 : UInt32) ≤ 2 by decide)
  have run : (runActions (mainStep 2 3) (.checkActive :: List.replicate 5 (.inner .arbiter) ++
      List.replicate 5 (.inner (.worker 1 false)) ++ [.inner .arbiter]) (opened r 1)).map
      (fun s => (s.system.log, s.begun)) = some ([.started 1 writeJob], 1) := by
    cases built
    decide +kernel
  obtain ⟨s, walk, seen⟩ := runActions_view _ run
  obtain ⟨log, begun⟩ := Prod.mk.inj seen
  obtain ⟨l, trace, few, _⟩ := holds 3 s (by decide) walk
  exact ⟨r, built, s, l, walk, log, begun, trace, begun ▸ few⟩

/-- Spurious wake-ups, and calls of `signal_stop` that come too late. -/
def idle : LoopAction → Bool
  | .inner a => spurious a
  | .checkActive => false
  | .signalStop => true

def loopPotential (n : UInt32) (s : MainLoop) : Nat :=
  potential (workerIds n) s.system + (!s.exited).toNat

/-- After the signal, with `k` frames begun. -/
structure Stopping (n next : UInt32) (r : Runner GameJob) (k : Nat) (s : MainLoop) : Prop where
  looping : Looping n next r s
  off : s.active = false
  begun : s.begun = k

theorem stopping_charged (static : StaticPool n r.pool) (bound : next ≤ n)
    (built : world r.pool = .ok r) {fuel : Nat} (enough : 3 ≤ fuel) (k : Nat) :
    Charged (mainStep n fuel) idle (Stopping n next r k) (loopPotential n) 5 where
  keeps := by
    intro s a t stopping run
    have looping := looping_step static bound built enough stopping.looping run
    obtain ⟨_, off, begun⟩ := stopping
    cases a with
    | inner a =>
      simp only [mainStep] at run
      split at run
      · cases run
        exact ⟨looping, off, begun⟩
      · cases run
    | checkActive =>
      have kept : t.active = s.active ∧ t.begun = s.begun := by
        simp only [mainStep, off, Bool.false_eq_true, if_false] at run
        split at run
        · cases run
          exact ⟨off.symm, rfl⟩
        · cases run
      exact ⟨looping, kept.1.trans off, kept.2.trans begun⟩
    | signalStop =>
      cases run
      exact ⟨looping, rfl, begun⟩
  falls := by
    intro s a t stopping run busy
    cases a with
    | inner a =>
      simp only [mainStep] at run
      split at run
      · rename_i system taken
        cases run
        have sound := stopping.looping.sound
        have less := step_falls (fun w member => (sound.paired w member).running) taken busy
        exact Nat.add_lt_add_right less _
      · cases run
    | checkActive =>
      simp only [mainStep, stopping.off, Bool.false_eq_true, if_false] at run
      split at run
      · rename_i atEnd
        cases run
        simp [loopPotential, atEnd.2.2]
      · cases run
    | signalStop => cases busy
  rises := by
    intro s a t stopping run quiet
    cases a with
    | inner a =>
      simp only [mainStep] at run
      split at run
      · rename_i system taken
        cases run
        have more := step_rises taken quiet
        simp only [loopPotential]
        omega
      · cases run
    | checkActive => cases quiet
    | signalStop =>
      cases run
      exact Nat.le_add_right _ 5

/-- After the signal nothing is left to do but in the state that the arbiter
    leaves its loop in. -/
theorem stopping_stuck {fuel k : Nat} {s : MainLoop} (stopping : Stopping n next r k s) :
    Stuck (mainStep n fuel) idle s ↔ s.exited = true ∧ Finished (workerIds n) s.system := by
  constructor
  · intro stuck
    have halted : Stuck (step (workerIds n)) spurious s.system := by
      intro a busy
      have blocked := stuck (.inner a) busy
      simp only [mainStep] at blocked
      split at blocked
      · cases blocked
      · assumption
    have finished := stuck_finished stopping.looping.sound halted
    refine ⟨?_, finished⟩
    have blocked := stuck .checkActive rfl
    simp only [mainStep, stopping.off, finished.pc, finished.program, true_and, Bool.false_eq_true,
      if_false] at blocked
    split at blocked
    · cases blocked
    · rename_i exited
      simpa using exited
  · rintro ⟨exited, finished⟩ a busy
    cases a with
    | inner a =>
      have halted := finished_stuck finished a busy
      simp only [mainStep, halted]
    | checkActive => simp [mainStep, exited]
    | signalStop => cases busy

end GameMainLoop
