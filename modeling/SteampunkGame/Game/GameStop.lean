import SteampunkGame.Game.Running

/-!
The stop of the running game. After the signal the jobs of the last frame still
have their work to do, while other threads go on firing events and enqueueing
writes; every piece of work is paid for by what was put into a queue.
-/
namespace GameStop
open SchedPool SchedRunner SchedProgress GameWorld GameLoop GameMainLoop GameBodies GameRunning
open GameEvent GameEventQueue Runs Progress TimedQueue
open GameJob
variable {E C X I : Type}

def writerPotential : WriterPc → Nat
  | .idle => 0
  | .popping => 1
  | .calling => 2

def pumpPotential : PumpPc C X → Nat
  | .idle => 0
  | .test => 1
  | .popping => 2
  | .calling _ => 3

/-- Two steps for each write in the queue, and three for each request. -/
def bodyPotential (g : Game E C X I) : Nat :=
  writerPotential g.writer + 2 * g.queue.length + pumpPotential g.pump.pc +
    3 * g.pump.pending.length

/-- What was put into the queues so far. -/
def bodyFunds (g : Game E C X I) : Nat := 2 * g.enqueued.length + 3 * g.pump.enqueued.length

/-- A start of a job is paid by the scheduler. -/
def gamePotential (n : UInt32) (g : Running E C X I) : Nat :=
  2 * loopPotential n g.sched + bodyPotential g.game

/-- Everything that the scheduler and its jobs do not do by themselves. -/
def outside : RunAction E C X I → Bool
  | .sched a => idle a
  | .body (.pump (.call _)) | .body (.callbackWrite _) | .body (.enqueue _) => true
  | .body _ => false
  | .setup _ | .poll _ => true

variable [DecidableEq E]

/-- The game as long as nothing throws. -/
def calmStep (n : UInt32) (fuel : Nat) (returns : Request C X → Bool) (char : Int8 → X)
    (keyDown : E) (g : Running E C X I) (a : RunAction E C X I) : Option (Running E C X I) :=
  if Calm g a then runStep n fuel returns char keyDown g a else none

variable {n next : UInt32} {r : Runner GameJob} {fuel : Nat} {returns : Request C X → Bool}
  {char : Int8 → X} {keyDown : E} {g g' : Running E C X I}

/-- A call pays for the requests that it enqueues. -/
theorem pump_called {g g' : Game E C X I} {call : Call E C X}
    (run : pumpStep returns g (.call call) = some g') :
    bodyFunds g ≤ bodyFunds g' ∧
      bodyPotential g' + bodyFunds g ≤ bodyPotential g + bodyFunds g' := by
  obtain ⟨aside, stepped⟩ := pumpStep_aside run
  obtain ⟨more, requests, enqueued, pc, _⟩ := callStep_appends stepped
  have pending : g'.pump.pending.length ≤ g.pump.pending.length + more.length := by
    simp only [Pump.pending, pc, requests]
    split <;> simp only [List.length_tail, List.length_append] <;> omega
  simp only [bodyPotential, bodyFunds, aside.writer, aside.queue, aside.enqueued, pc, enqueued,
    List.length_append]
  omega

/-- The other steps of the pump. -/
theorem pump_falls {g g' : Game E C X I} {a : GameEventQueue.Action E C X}
    (inner : ∀ call, a ≠ .call call) (begins : a ≠ .execute) (quiet : a ≠ .callbackThrow)
    (run : pumpStep returns g a = some g') :
    bodyPotential g' < bodyPotential g ∧ bodyFunds g' = bodyFunds g := by
  obtain ⟨aside, run⟩ := pumpStep_aside run
  have stepped := step_stepped run
  simp only [bodyPotential, bodyFunds, aside.writer, aside.queue, aside.enqueued]
  generalize g'.pump = pump at stepped
  cases stepped with
  | called => exact absurd rfl (inner _)
  | enters => exact absurd rfl begins
  | threw => exact absurd rfl quiet
  | leaves pc empty => simp [Pump.pending, pumpPotential, pc, empty]
  | invokes pc front =>
    simp only [Pump.pending, pumpPotential, pc, front, List.tail_cons, List.length_cons, and_true]
    omega
  | returned pc => simp [Pump.pending, pumpPotential, pc]
  | pops pc => simp [Pump.pending, pumpPotential, pc]

theorem execute_rises {g g' : Game E C X I} (run : pumpStep returns g .execute = some g') :
    bodyPotential g' = bodyPotential g + 1 ∧ bodyFunds g' = bodyFunds g := by
  obtain ⟨aside, run⟩ := pumpStep_aside run
  have stepped := step_stepped run
  simp only [bodyPotential, bodyFunds, aside.writer, aside.queue, aside.enqueued]
  generalize g'.pump = pump at stepped
  cases stepped with
  | enters pc =>
    simp only [Pump.pending, pumpPotential, pc, and_true]
    omega

/-- The scheduler starts a job, or sees it end. -/
theorem job_rises {g g' : Game E C X I} {e : SchedSystem.Event UInt32 GameJob}
    (run : jobStep returns g e = some g') :
    bodyPotential g' ≤ bodyPotential g + 1 ∧ bodyFunds g' = bodyFunds g := by
  cases e with
  | started w job =>
    cases job with
    | eventPump =>
      obtain ⟨more, same⟩ := execute_rises run
      exact ⟨more.le, same⟩
    | writeJob =>
      cases run
      simp only [bodyPotential, bodyFunds, writerPotential, and_true]
      omega
    | renderJob =>
      cases run
      exact ⟨Nat.le_succ _, rfl⟩
  | ended w job threw =>
    cases job with
    | writeJob | eventPump =>
      simp only [jobStep] at run
      split at run <;> cases run
      exact ⟨Nat.le_succ _, rfl⟩
    | renderJob =>
      cases run
      exact ⟨Nat.le_succ _, rfl⟩

theorem body_falls {g g' : Game E C X I} {a : BodyAction E C X I}
    (inner : outside (.body a) = false) (quiet : calm a = true)
    (run : bodyStep returns g a = some g') :
    bodyPotential g' < bodyPotential g ∧ bodyFunds g' = bodyFunds g := by
  cases a with
  | pump a =>
    cases a with
    | call => cases inner
    | callbackThrow => cases quiet
    | execute => cases run
    | test | callbackReturn | pop => exact pump_falls (by simp) (by simp) (by simp) run
  | callbackWrite fn | enqueue fn => cases inner
  | tryPop =>
    simp only [bodyStep] at run
    split at run
    · rename_i popping _
      cases run
      simp only [bodyPotential, bodyFunds, writerPotential, popping, and_true]
      omega
    · rename_i popping front
      cases run
      simp only [bodyPotential, bodyFunds, writerPotential, popping, front, List.length_cons,
        and_true]
      omega
    · cases run
  | writeReturn =>
    simp only [bodyStep] at run
    split at run
    · rename_i calling
      cases run
      simp only [bodyPotential, bodyFunds, writerPotential, calling, and_true]
      omega
    · cases run
  | writeThrow => cases quiet

theorem body_paid {g g' : Game E C X I} {a : BodyAction E C X I}
    (outer : outside (.body a) = true) (run : bodyStep returns g a = some g') :
    bodyFunds g ≤ bodyFunds g' ∧
      bodyPotential g' + bodyFunds g ≤ bodyPotential g + bodyFunds g' := by
  cases a with
  | pump a =>
    cases a with
    | call call =>
      simp only [bodyStep] at run
      split at run
      · exact pump_called run
      · exact pump_called run
      · cases run
    | test | callbackReturn | callbackThrow | pop | execute => cases outer
  | callbackWrite fn =>
    simp only [bodyStep] at run
    split at run
    · cases run
      simp only [bodyPotential, bodyFunds, Game.enqueue, List.length_append, List.length_singleton]
      omega
    · cases run
  | enqueue fn =>
    cases run
    simp only [bodyPotential, bodyFunds, Game.enqueue, List.length_append, List.length_singleton]
    omega
  | tryPop | writeReturn | writeThrow => cases outer

/-- After the signal, with `k` frames begun. -/
structure Stopped (n next : UInt32) (r : Runner GameJob) (k : Nat) (g : Running E C X I) :
    Prop where
  stopping : Stopping n next r k g.sched
  flowing : Flowing (loopOf g.sched.system.log) g.game

theorem calmStep_run {a : RunAction E C X I}
    (run : calmStep n fuel returns char keyDown g a = some g') :
    Calm g a ∧ runStep n fuel returns char keyDown g a = some g' := by
  simp only [calmStep] at run
  split at run
  · exact ⟨‹_›, run⟩
  · cases run

theorem stopped_step (static : StaticPool n r.pool) (bound : next ≤ n)
    (built : world r.pool = .ok r) (enough : 3 ≤ fuel) {k : Nat} {a : RunAction E C X I}
    (stopped : Stopped n next r k g) (quiet : Calm g a)
    (run : runStep n fuel returns char keyDown g a = some g') : Stopped n next r k g' := by
  have alive : Alive n next r g := ⟨stopped.stopping.looping, stopped.flowing⟩
  refine ⟨?_, (alive_step static bound built enough alive quiet run).flowing⟩
  have charged := stopping_charged static bound built enough k
  cases runStep_moved run with
  | calm taken | job taken => exact charged.keeps _ _ _ stopped.stopping taken
  | quit => exact charged.keeps _ .signalStop _ stopped.stopping rfl
  | body | setup | key | other => exact stopped.stopping

/-- The jobs that the scheduler starts put nothing into the queues. -/
theorem runStep_grows {a : RunAction E C X I} (quiet : Calm g a)
    (run : runStep n fuel returns char keyDown g a = some g') :
    bodyFunds g.game ≤ bodyFunds g'.game := by
  cases runStep_moved run with
  | calm | quit | other => exact Nat.le_refl _
  | job _ _ did => exact (job_rises did).2.ge
  | @body a _ did =>
    cases outer : outside (.body a : RunAction E C X I) with
    | true => exact (body_paid outer did).1
    | false => exact (body_falls outer quiet did).2.ge
  | setup _ did | key _ did => exact (pump_called did).1

theorem stop_funded (static : StaticPool n r.pool) (bound : next ≤ n)
    (built : world r.pool = .ok r) (enough : 3 ≤ fuel) (k : Nat) :
    Funded (calmStep n fuel returns char keyDown) (outside : RunAction E C X I → Bool)
      (Stopped n next r k) (gamePotential n) (fun g => bodyFunds g.game) 11 where
  keeps := by
    intro g a g' stopped run
    obtain ⟨quiet, run⟩ := calmStep_run run
    exact stopped_step static bound built enough stopped quiet run
  grows := by
    intro g a g' stopped run
    obtain ⟨quiet, run⟩ := calmStep_run run
    exact runStep_grows quiet run
  falls := by
    intro g a g' stopped run inner
    obtain ⟨quiet, run⟩ := calmStep_run run
    have charged := stopping_charged static bound built enough k
    unfold gamePotential
    cases runStep_moved run with
    | calm taken =>
      have less := charged.falls _ _ _ stopped.stopping taken inner
      dsimp only
      omega
    | job taken _ did =>
      have less := charged.falls _ _ _ stopped.stopping taken inner
      have more := (job_rises did).1
      dsimp only
      omega
    | body did => exact Nat.add_lt_add_left (body_falls inner quiet did).1 _
    | setup | quit | key | other => cases inner
  rises := by
    intro g a g' stopped run outer
    obtain ⟨quiet, run⟩ := calmStep_run run
    have charged := stopping_charged static bound built enough k
    unfold gamePotential
    cases runStep_moved run with
    | calm taken =>
      have more := charged.rises _ _ _ stopped.stopping taken outer
      dsimp only
      omega
    | job taken _ did =>
      have more := charged.rises _ _ _ stopped.stopping taken outer
      obtain ⟨started, same⟩ := job_rises did
      dsimp only
      omega
    | body did =>
      have paid := (body_paid outer did).2
      dsimp only
      omega
    | setup _ did | key _ did =>
      have paid := (pump_called did).2
      dsimp only
      omega
    | quit =>
      have more := charged.rises _ .signalStop _ stopped.stopping rfl rfl
      dsimp only
      omega
    | other => omega

/-- The job that a worker has to start or to end lets it. -/
theorem idle_jobStep (returns : Request C X → Bool) {game : Game E C X I}
    (writer : game.writer = .idle) (pump : game.pump.pc = .idle)
    (e : SchedSystem.Event UInt32 GameJob) : ∃ game', jobStep returns game e = some game' := by
  cases e with
  | started w job =>
    cases job with
    | eventPump => exact ⟨_, by simp only [jobStep, pumpStep, GameEventQueue.step, pump]; rfl⟩
    | writeJob | renderJob => exact ⟨_, rfl⟩
  | ended w job threw =>
    cases job with
    | writeJob => exact ⟨_, by simp only [jobStep, writer, if_true]; rfl⟩
    | eventPump => exact ⟨_, by simp only [jobStep, pump]; rfl⟩
    | renderJob => exact ⟨_, rfl⟩

theorem stuck_body (stuck : Stuck (calmStep n fuel returns char keyDown) outside g)
    {a : BodyAction E C X I} (inner : outside (.body a) = false) (quiet : calm a = true) :
    bodyStep returns g.game a = none := by
  have blocked := stuck (.body a) inner
  simpa [calmStep, Calm, quiet, runStep] using blocked

theorem stuck_writer (stuck : Stuck (calmStep n fuel returns char keyDown) outside g) :
    g.game.writer = .idle := by
  have calls := stuck_body stuck (a := .writeReturn) rfl rfl
  have pops := stuck_body stuck (a := .tryPop) rfl rfl
  cases writer : g.game.writer with
  | idle => rfl
  | calling => simp [bodyStep, writer] at calls
  | popping => cases queue : g.game.queue <;> simp [bodyStep, writer, queue] at pops

theorem stuck_pump (returning : ∀ req, returns req = true)
    (stuck : Stuck (calmStep n fuel returns char keyDown) outside g) :
    g.game.pump.pc = .idle := by
  have tests := stuck_body stuck (a := .pump .test) rfl rfl
  have calls := stuck_body stuck (a := .pump .callbackReturn) rfl rfl
  have pops := stuck_body stuck (a := .pump .pop) rfl rfl
  simp only [bodyStep, pumpStep, GameEventQueue.step] at tests calls pops
  cases pc : g.game.pump.pc with
  | idle => rfl
  | test => cases queue : g.game.pump.requests <;> simp [pc, queue] at tests
  | calling req => simp [pc, returning] at calls
  | popping => simp [pc] at pops

theorem left_stuck {k : Nat} (stopping : Stopping n next r k g.sched)
    (ended : g.sched.exited = true ∧ Finished (workerIds n) g.sched.system)
    (writer : g.game.writer = .idle) (pump : g.game.pump.pc = .idle) :
    Stuck (calmStep n fuel returns char keyDown) outside g := by
  intro a inner
  cases a with
  | sched a =>
    have halted : mainStep n fuel g.sched a = none := (stopping_stuck stopping).mpr ended a inner
    simp [calmStep, runStep, halted]
  | body a =>
    cases a with
    | pump a =>
      cases a with
      | call => cases inner
      | test | callbackReturn | callbackThrow | pop | execute =>
        simp [calmStep, runStep, bodyStep, pumpStep, GameEventQueue.step, pump]
    | callbackWrite | enqueue => cases inner
    | tryPop | writeReturn | writeThrow => simp [calmStep, runStep, bodyStep, writer]
  | setup | poll => cases inner

/-- A game that has come to rest has left the loop. -/
theorem stopped_stuck {k : Nat} (static : StaticPool n r.pool) (bound : next ≤ n)
    (returning : ∀ req, returns req = true) (stopped : Stopped n next r k g) :
    Stuck (calmStep n fuel returns char keyDown) outside g ↔
      g.sched.exited = true ∧ Finished (workerIds n) g.sched.system := by
  constructor
  · intro stuck
    suffices halted : Stuck (mainStep n fuel) idle g.sched from
      (stopping_stuck stopped.stopping).mp halted
    intro a busy
    have blocked := stuck (.sched a) busy
    cases taken : mainStep n fuel g.sched a with
    | none => rfl
    | some sched =>
      simp only [calmStep, Calm, if_true, runStep, taken] at blocked
      split at blocked
      · cases blocked
      · rename_i e _ _
        obtain ⟨game, did⟩ :=
          idle_jobStep returns (stuck_writer stuck) (stuck_pump returning stuck) e
        simp [did] at blocked
  · intro ended
    have between := loopOf_between (looping_boundary static.positive bound
      stopped.stopping.looping ended.2.pc ended.2.program).1
    have staged := stopped.flowing.staged
    rw [between] at staged
    exact left_stuck stopped.stopping ended (staged.writerIdle Stage.noConfusion)
      (staged.pumpIdle Stage.noConfusion)

/-- What is still in the queues when the arbiter has left its loop. -/
theorem stopped_left {k : Nat} (static : StaticPool n r.pool) (bound : next ≤ n)
    (stopped : Stopped n next r k g) (exited : g.sched.exited = true) :
    g.game.frames = k ∧ (∀ x ∈ left g.game.fired g.game.invokedAt, x.1 = k) ∧
      ∀ x ∈ left g.game.enqueued g.game.appliedAt, Soon x.1 k := by
  obtain ⟨⟨looping, _, begun⟩, flowing⟩ := stopped
  obtain ⟨_, ready, done⟩ := looping.exited exited
  have between := loopOf_between (looping_boundary static.positive bound looping ready done).1
  rw [begun] at between
  rw [between] at flowing
  have frames : g.game.frames = k := flowing.staged.frames
  exact ⟨frames, flowing.requested.ahead, frames ▸ flowing.written.recent⟩

/-- Any static pool and any interleaving, where neither callbacks nor writes
    throw and every callback returns: once `_active` is cleared, from which
    thread ever, no frame is begun. By itself the game takes only so many steps
    for what is left of the frame and of the queues, two for each further write,
    three for each further request and 11 for each step from outside, and it
    never gets stuck before the arbiter has left its loop and all workers sleep.
    Then all that was fired before the last frame's renderer polled has been
    delivered, and all writes but those of the last frame are applied. -/
theorem game_stops {n next : UInt32} {pool : WorkerPool} (static : StaticPool n pool)
    (bound : next ≤ n) : ∃ r, world pool = .ok r ∧ ∀ fuel, 3 ≤ fuel →
      ∀ (returns : Request C X → Bool) (char : Int8 → X) (keyDown : E) (g : Running E C X I),
      (∀ req, returns req = true) →
      Reaches (runStep n fuel returns char keyDown) Calm (begin r next) g →
      g.sched.active = false →
      ∀ actions h, runActions (calmStep n fuel returns char keyDown) actions g = some h →
        h.sched.begun = g.sched.begun ∧
        steps outside actions + bodyFunds g.game ≤
          gamePotential n g + bodyFunds h.game + 11 * actions.countP outside ∧
        (Stuck (calmStep n fuel returns char keyDown) outside h ↔
          h.sched.exited = true ∧ Finished (workerIds n) h.sched.system) ∧
        (∃ more u, (∀ a ∈ more, outside a = false) ∧
          runActions (calmStep n fuel returns char keyDown) more h = some u ∧
          u.sched.exited = true) ∧
        (h.sched.exited = true → h.game.frames = g.sched.begun ∧
          (∀ x ∈ left h.game.fired h.game.invokedAt, x.1 = g.sched.begun) ∧
          ∀ x ∈ left h.game.enqueued h.game.appliedAt, Soon x.1 g.sched.begun) := by
  obtain ⟨r, built, same, _⟩ := world_graph pool
  rw [← same] at static built
  refine ⟨r, by rw [← same]; exact built, ?_⟩
  intro fuel enough returns char keyDown g returning walk off actions h run
  have alive := alive_reaches static bound built enough alive_begin walk
  have stopped : Stopped n next r g.sched.begun g := ⟨⟨alive.looping, off, rfl⟩, alive.flowing⟩
  have funded : Funded (calmStep n fuel returns char keyDown) outside
      (Stopped n next r g.sched.begun) (gamePotential n)
      (fun g : Running E C X I => bodyFunds g.game) 11 :=
    stop_funded static bound built enough g.sched.begun
  obtain ⟨later, few⟩ := funded_run funded stopped run
  refine ⟨later.stopping.begun, by omega, stopped_stuck static bound returning later, ?_,
    stopped_left static bound later⟩
  obtain ⟨more, u, inner, _, ends, stuck⟩ := funded_ends funded later
  have last := (funded_run funded later ends).1
  exact ⟨more, u, inner, ends, ((stopped_stuck static bound returning last).mp stuck).1⟩

abbrev stopStep : Running Unit Nat Int8 Nat → RunAction Unit Nat Int8 Nat →
    Option (Running Unit Nat Int8 Nat) := runStep 2 3 (fun _ => true) id ()

/-- A key and the end of the window are polled in the first frame. The callback
    for the key is not called any more. -/
theorem game_stops_two : ∃ r, world (filledPool 2) = .ok r ∧
    ∃ (g h : Running Unit Nat Int8 Nat) (more : List (RunAction Unit Nat Int8 Nat)),
      Reaches stopStep Calm (begin r 1) g ∧ g.sched.active = false ∧ g.sched.exited = false ∧
      runActions (calmStep 2 3 (fun _ => true) id ()) more g = some h ∧
      h.sched.exited = true ∧ h.game.frames = 1 ∧
      g.game.fired = [(1, ⟨7, 97⟩)] ∧ ∀ x ∈ left h.game.fired h.game.invokedAt, x.1 = 1 := by
  obtain ⟨r, built, holds⟩ := game_stops (E := Unit) (C := Nat) (X := Int8) (I := Nat)
    (filledPool_static (n := 2) (by decide)) (show (1 : UInt32) ≤ 2 by decide)
  have run : ((stopStep (begin r 1) (.setup (.connect () 7))).bind fun s =>
      (stopStep (drive stopStep turns 62 s) (.poll (.keyDown 97))).bind fun t =>
      (stopStep t (.poll .quit)).map fun g =>
      (g.sched.active, g.sched.exited, g.sched.begun, decide (g.game.fired = [(1, ⟨7, 97⟩)]))) =
        some (false, false, 1, true) := by
    cases built
    decide +kernel
  simp only [Option.bind_eq_some_iff, Option.map_eq_some_iff, Prod.mk.injEq,
    decide_eq_true_eq] at run
  obtain ⟨s, setup, t, polled, g, quit, off, inside, begun, fired⟩ := run
  have walk : Reaches stopStep Calm (begin r 1) g :=
    .head ⟨.setup _, trivial, setup⟩ ((drive_reaches turns_calm 62 s).trans
      (.head ⟨.poll _, trivial, polled⟩ (.head ⟨.poll _, trivial, quit⟩ .refl)))
  obtain ⟨_, _, _, ⟨more, h, _, run, exited⟩, _⟩ :=
    holds 3 (by decide) _ _ _ g (fun _ => rfl) walk off [] g rfl
  obtain ⟨_, _, _, _, ends⟩ := holds 3 (by decide) _ _ _ g (fun _ => rfl) walk off more h run
  obtain ⟨frames, undelivered, _⟩ := ends exited
  rw [begun] at frames undelivered
  exact ⟨r, built, g, h, more, walk, off, inside, run, exited, frames, fired, undelivered⟩

end GameStop
