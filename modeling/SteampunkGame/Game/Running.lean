import SteampunkGame.Game.JobBodies
import SteampunkGame.Game.MainLoop

/-!
The scheduler together with what its jobs do. The workers start and end the
jobs, `poll_events` fires `key_down`, and callbacks fire and enqueue writes.
-/
namespace GameRunning
open SchedPool SchedSystem SchedRunner SchedTotals GameWorld GameExclusion GameLoop GameMainLoop
open GameBodies GameEvent GameEventQueue Runs TimedQueue
open GameJob
variable {E C X I : Type}

/-- The scheduler with what its jobs do. -/
structure Running (E C X I : Type) where
  sched : MainLoop
  game : Game E C X I

/-- The kinds of `SDL_Event` that `poll_events` tells apart. -/
inductive SdlEvent where
  | quit
  | keyDown (sym : Int32)
  | other
  deriving DecidableEq, Repr

/-- `setup` is what the main thread does before it starts the scheduler. -/
inductive RunAction (E C X I : Type) where
  | sched (a : LoopAction)
  | body (a : BodyAction E C X I)
  | setup (call : Call E C X)
  | poll (event : SdlEvent)
  deriving DecidableEq, Repr

/-- What a step of the scheduler has logged. -/
def logged (s t : MainLoop) : List (Event UInt32 GameJob) :=
  t.system.log.drop s.system.log.length

def begin (r : Runner GameJob) (next : UInt32) : Running E C X I := ⟨opened r next, .fresh⟩

variable {n next : UInt32} {r : Runner GameJob} {g g' h : Running E C X I}

/-- What every reachable state keeps. -/
structure Posed (n next : UInt32) (r : Runner GameJob) (g : Running E C X I) : Prop where
  looping : Looping n next r g.sched
  staged : Staged (loopOf g.sched.system.log) g.game

theorem posed_begin : Posed n next r (begin r next : Running E C X I) :=
  ⟨looping_opened, staged_fresh⟩

variable [DecidableEq E]

/-- `event<char>::fire` gets the key code as a `char`, which `char` here puts
    into a context. -/
def runStep (n : UInt32) (fuel : Nat) (returns : Request C X → Bool) (char : Int8 → X)
    (keyDown : E) (g : Running E C X I) : RunAction E C X I → Option (Running E C X I)
  | .sched a =>
      match mainStep n fuel g.sched a with
      | some sched =>
          match logged g.sched sched with
          | [] => some ⟨sched, g.game⟩
          | e :: _ => (jobStep returns g.game e).map (Running.mk sched)
      | none => none
  | .body a => (bodyStep returns g.game a).map (Running.mk g.sched)
  | .setup call =>
      if g.sched.begun = 0 then
        (pumpStep returns g.game (.call call)).map (Running.mk g.sched)
      else none
  | .poll event =>
      if g.game.polling then
        match event with
        | .quit => some ⟨{ g.sched with active := false }, g.game⟩
        | .keyDown sym =>
            (pumpStep returns g.game (.call (.fire keyDown (char sym.toInt8)))).map
              (Running.mk g.sched)
        | .other => some g
      else none

/-- Neither a callback nor a write throws. -/
def Calm (_ : Running E C X I) : RunAction E C X I → Prop
  | .body a => calm a = true
  | _ => True

instance (g : Running E C X I) (a : RunAction E C X I) : Decidable (Calm g a) :=
  match a with
  | .body a => inferInstanceAs (Decidable (calm a = true))
  | .sched _ | .setup _ | .poll _ => .isTrue trivial

variable {fuel : Nat} {returns : Request C X → Bool} {char : Int8 → X} {keyDown : E}

/-- What it keeps as long as nothing throws. -/
structure Alive (n next : UInt32) (r : Runner GameJob) (g : Running E C X I) : Prop where
  looping : Looping n next r g.sched
  flowing : Flowing (loopOf g.sched.system.log) g.game

theorem alive_begin : Alive n next r (begin r next : Running E C X I) :=
  ⟨looping_opened, flowing_fresh⟩

/-- A step logs nothing, or what the loop does next. -/
theorem mainStep_logged {s t : MainLoop} {a : LoopAction} (before : Looping n next r s)
    (after : Looping n next r t) (run : mainStep n fuel s a = some t) :
    (logged s t = [] ∧ t.system.log = s.system.log) ∨ ∃ e, logged s t = [e] ∧
      loopStep (loopOf s.system.log) e = some (loopOf t.system.log) := by
  have grown : t.system.log = s.system.log ∨ ∃ e, t.system.log = s.system.log ++ [e] := by
    cases a with
    | inner a =>
      simp only [mainStep] at run
      split at run
      · rename_i system taken
        cases run
        exact stepped_log (step_stepped taken)
      · cases run
    | checkActive =>
      simp only [mainStep] at run
      split at run
      · split at run
        · split at run
          · cases run
            exact Or.inl rfl
          · cases run
        · cases run
          exact Or.inl rfl
      · cases run
    | signalStop =>
      cases run
      exact Or.inl rfl
  rcases grown with same | ⟨e, more⟩
  · left
    rw [logged, same, List.drop_length]
    exact ⟨rfl, rfl⟩
  · right
    refine ⟨e, by rw [logged, more, List.drop_left], ?_⟩
    have trace := after.trace
    rw [more, runActions_concat, before.trace] at trace
    rw [more]
    exact trace

/-- Before the first frame no job has been started. -/
theorem unstarted (positive : 0 < n) (bound : next ≤ n) {s : MainLoop}
    (looping : Looping n next r s) (before : s.begun = 0) :
    (loopOf s.system.log).pumping = .waiting := by
  apply stageOf_waiting
  calc startsOf eventPump s.system.log
      ≤ callsFor eventPump s.system.past :=
        starts_le_calls looping.followed (world_targets positive bound _) _
    _ ≤ callsFor eventPump (worldProgram n next s.begun) := by
      rw [← looping.followed.coupled.split, callsFor_append]
      exact Nat.le_add_right _ _
    _ = 0 := by rw [callsFor_world, before]
    _ ≤ endsOf renderJob s.system.log := Nat.zero_le _

/-- All that a step does. -/
inductive Moved (n : UInt32) (fuel : Nat) (returns : Request C X → Bool) (char : Int8 → X)
    (keyDown : E) (g : Running E C X I) : RunAction E C X I → Running E C X I → Prop where
  | calm {a : LoopAction} {sched : MainLoop} (taken : mainStep n fuel g.sched a = some sched)
      (same : logged g.sched sched = []) :
      Moved n fuel returns char keyDown g (.sched a) ⟨sched, g.game⟩
  | job {a : LoopAction} {sched : MainLoop} {e : Event UInt32 GameJob}
      {more : List (Event UInt32 GameJob)} {game : Game E C X I}
      (taken : mainStep n fuel g.sched a = some sched) (one : logged g.sched sched = e :: more)
      (did : jobStep returns g.game e = some game) :
      Moved n fuel returns char keyDown g (.sched a) ⟨sched, game⟩
  | body {a : BodyAction E C X I} {game : Game E C X I}
      (did : bodyStep returns g.game a = some game) :
      Moved n fuel returns char keyDown g (.body a) ⟨g.sched, game⟩
  | setup {call : Call E C X} {game : Game E C X I} (before : g.sched.begun = 0)
      (did : pumpStep returns g.game (.call call) = some game) :
      Moved n fuel returns char keyDown g (.setup call) ⟨g.sched, game⟩
  | quit (polling : g.game.polling = true) :
      Moved n fuel returns char keyDown g (.poll .quit) ⟨{ g.sched with active := false }, g.game⟩
  | key {sym : Int32} {game : Game E C X I} (polling : g.game.polling = true)
      (did : pumpStep returns g.game (.call (.fire keyDown (char sym.toInt8))) = some game) :
      Moved n fuel returns char keyDown g (.poll (.keyDown sym)) ⟨g.sched, game⟩
  | other (polling : g.game.polling = true) :
      Moved n fuel returns char keyDown g (.poll .other) g

theorem runStep_moved {a : RunAction E C X I}
    (run : runStep n fuel returns char keyDown g a = some g') :
    Moved n fuel returns char keyDown g a g' := by
  cases a with
  | sched a =>
    simp only [runStep] at run
    split at run
    · split at run
      · cases run
        exact .calm ‹_› ‹_›
      · obtain ⟨game, did, eq⟩ := Option.map_eq_some_iff.mp run
        cases eq
        exact .job ‹_› ‹_› did
    · cases run
  | body a =>
    obtain ⟨game, did, eq⟩ := Option.map_eq_some_iff.mp run
    cases eq
    exact .body did
  | setup call =>
    simp only [runStep] at run
    split at run
    · obtain ⟨game, did, eq⟩ := Option.map_eq_some_iff.mp run
      cases eq
      exact .setup ‹_› did
    · cases run
  | poll event =>
    simp only [runStep] at run
    split at run
    · cases event with
      | quit =>
        cases run
        exact .quit ‹_›
      | keyDown sym =>
        obtain ⟨game, did, eq⟩ := Option.map_eq_some_iff.mp run
        cases eq
        exact .key ‹_› did
      | other =>
        cases run
        exact .other ‹_›
    · cases run

/-- The write that a step enqueues. -/
def asked : RunAction E C X I → Option I
  | .body a => a.write
  | .sched _ | .setup _ | .poll _ => none

theorem runStep_enqueued {a : RunAction E C X I}
    (run : runStep n fuel returns char keyDown g a = some g') :
    g'.game.enqueued.map (fun x => x.2.2) =
      g.game.enqueued.map (fun x => x.2.2) ++ (asked a).toList := by
  cases runStep_moved run with
  | calm | quit | other => exact (List.append_nil _).symm
  | job _ _ did =>
    rw [jobStep_enqueued did]
    exact (List.append_nil _).symm
  | body did => exact bodyStep_enqueued did
  | setup _ did | key _ did =>
    rw [(pumpStep_aside did).1.enqueued]
    exact (List.append_nil _).symm

/-- What is recorded of the writes is what the threads have enqueued, in this
    order. -/
theorem running_enqueued {actions : List (RunAction E C X I)}
    (run : runActions (runStep n fuel returns char keyDown) actions (begin r next) = some g) :
    g.game.enqueued.map (fun x => x.2.2) = actions.filterMap asked :=
  runActions_recorded (fun g : Running E C X I => g.game.enqueued.map (fun x => x.2.2))
    (fun _ _ _ => runStep_enqueued) run

/-- The frame is over, or the renderer that runs in it runs on. -/
theorem runStep_polling {a : RunAction E C X I}
    (run : runStep n fuel returns char keyDown g a = some g') :
    (g'.game.frames = g.game.frames ∧ (g.game.polling = true → g'.game.polling = true)) ∨
      g'.game.frames = g.game.frames + 1 := by
  cases runStep_moved run with
  | calm | quit | other => exact Or.inl ⟨rfl, id⟩
  | job _ _ did => exact jobStep_polling did
  | body did =>
    obtain ⟨frames, polling⟩ := bodyStep_polling did
    exact Or.inl ⟨frames, fun polls => polling.trans polls⟩
  | setup _ did | key _ did =>
    obtain ⟨aside, _⟩ := pumpStep_aside did
    exact Or.inl ⟨aside.frames, fun polls => aside.polling.trans polls⟩

theorem looping_move (static : StaticPool n r.pool) (bound : next ≤ n)
    (built : world r.pool = .ok r) (enough : 3 ≤ fuel) {a : RunAction E C X I}
    (looping : Looping n next r g.sched) (moved : Moved n fuel returns char keyDown g a g') :
    Looping n next r g'.sched := by
  cases moved with
  | calm taken | job taken => exact looping_step static bound built enough looping taken
  | quit => exact looping_step static bound built enough (a := .signalStop) looping rfl
  | body | setup | key | other => exact looping

/-- A job event is the next one of the loop. -/
theorem job_paced {s t : MainLoop} {a : LoopAction} {e : Event UInt32 GameJob}
    {more : List (Event UInt32 GameJob)} (before : Looping n next r s)
    (after : Looping n next r t) (run : mainStep n fuel s a = some t)
    (one : logged s t = e :: more) :
    loopStep (loopOf s.system.log) e = some (loopOf t.system.log) := by
  rcases mainStep_logged before after run with ⟨none_, _⟩ | ⟨e', same, paced⟩
  · rw [none_] at one
    cases one
  · rw [same] at one
    cases one
    exact paced

theorem calm_log {s t : MainLoop} {a : LoopAction} (before : Looping n next r s)
    (after : Looping n next r t) (run : mainStep n fuel s a = some t)
    (none_ : logged s t = []) : t.system.log = s.system.log := by
  rcases mainStep_logged before after run with ⟨_, same⟩ | ⟨e, one, _⟩
  · exact same
  · rw [none_] at one
    cases one

theorem posed_step (static : StaticPool n r.pool) (bound : next ≤ n)
    (built : world r.pool = .ok r) (enough : 3 ≤ fuel) {a : RunAction E C X I}
    (posed : Posed n next r g) (run : runStep n fuel returns char keyDown g a = some g') :
    Posed n next r g' := by
  have moved := runStep_moved run
  have later := looping_move static bound built enough posed.looping moved
  refine ⟨later, ?_⟩
  cases moved with
  | calm taken same => exact calm_log posed.looping later taken same ▸ posed.staged
  | job taken one did =>
    exact staged_job posed.staged (job_paced posed.looping later taken one) did
  | body did => exact staged_body posed.staged did
  | setup _ did | key _ did => exact staged_pump posed.staged (by simp) did
  | quit | other => exact posed.staged

theorem alive_step (static : StaticPool n r.pool) (bound : next ≤ n)
    (built : world r.pool = .ok r) (enough : 3 ≤ fuel) {a : RunAction E C X I}
    (alive : Alive n next r g) (quiet : Calm g a)
    (run : runStep n fuel returns char keyDown g a = some g') : Alive n next r g' := by
  have moved := runStep_moved run
  have later := looping_move static bound built enough alive.looping moved
  refine ⟨later, ?_⟩
  cases moved with
  | calm taken same => exact calm_log alive.looping later taken same ▸ alive.flowing
  | job taken one did =>
    exact flowing_job alive.flowing (job_paced alive.looping later taken one) did
  | body did => exact flowing_body alive.flowing quiet did
  | setup before did =>
    have waiting := unstarted static.positive bound alive.looping before
    exact flowing_pump alive.flowing (fun _ _ => Or.inr (Or.inr waiting)) (by simp) (by simp) did
  | key polling did =>
    exact flowing_pump alive.flowing (fun _ _ => Or.inl polling) (by simp) (by simp) did
  | quit | other => exact alive.flowing

theorem alive_reaches (static : StaticPool n r.pool) (bound : next ≤ n)
    (built : world r.pool = .ok r) (enough : 3 ≤ fuel) (alive : Alive n next r g)
    (walk : Reaches (runStep n fuel returns char keyDown) Calm g h) : Alive n next r h :=
  reaches_invariant
    (fun _ _ _ here quiet run => alive_step static bound built enough here quiet run) walk alive

/-- The workers before the arbiter, and then what their jobs do. -/
def turns {C I : Type} : List (RunAction Unit C Int8 I) :=
  [.sched (.inner (.worker 1 false)), .sched (.inner (.worker 0 false)),
    .sched (.inner .arbiter), .sched .checkActive, .body .tryPop, .body .writeReturn,
    .body (.pump .test), .body (.pump .callbackReturn), .body (.pump .pop)]

theorem turns_calm {C I : Type} : ∀ a ∈ turns, ∀ s : Running Unit C Int8 I, Calm s a := by
  intro a among s
  simp only [turns, List.mem_cons, List.not_mem_nil, or_false] at among
  rcases among with rfl | rfl | rfl | rfl | rfl | rfl | rfl | rfl | rfl <;> trivial

end GameRunning
