import SteampunkGame.Game.EventYield
import SteampunkGame.Game.Running

/-!
`event_base::yield` inside a job. It connects a callback that keeps a promise
and then waits for it, but only the pump calls callbacks, and the pump does not
come to it while a callback of its own, or the renderer, waits.
-/
namespace GameYieldHang
open SchedPool SchedSystem SchedRunner GameWorld GameLoop GameMainLoop GameBodies GameRunning
open GameEvent GameEventQueue Runs
open GameEventYield (Callback YieldPc Outcome Yielding)
open GameJob
variable {E C X I Y : Type}

/-- Who calls `yield`: a callback of an event, or a renderable. -/
inductive Caller where
  | callback
  | renderer
  deriving DecidableEq, Repr

def Caller.job : Caller → GameJob
  | .callback => eventPump
  | .renderer => renderJob

/-- The steps that a caller makes itself. -/
def Caller.own : Caller → BodyAction E C X I → Bool
  | .callback, .pump (.call _) | .callback, .pump .callbackReturn
  | .callback, .pump .callbackThrow | .callback, .callbackWrite _
  | .renderer, .pump (.call _) => true
  | _, _ => false

/-- The caller has been started and has not returned. -/
def Inside (g : Running E C X I) : Caller → Prop
  | .callback => ∃ req, g.game.pump.pc = .calling req
  | .renderer => g.game.polling = true

/-- A callback of the program is running, or the renderer is. -/
def Caller.runs (g : Running E (Callback C Y) X I) : Caller → Bool
  | .callback =>
      match g.game.pump.pc with
      | .calling ⟨.user _, _⟩ => true
      | _ => false
  | .renderer => g.game.polling

/-- The game with the calls of `yield` in its jobs: their promises, and which
    of them a job waits in. -/
structure YieldingGame (E C X I Y : Type) where
  running : Running E (Callback C Y) X I
  yields : Y → YieldPc X
  setCalls : List (Y × Outcome)
  waits : Caller → Option Y

inductive YieldAction (E C X I Y : Type) where
  | run (a : RunAction E (Callback C Y) X I)
  | yield (caller : Caller) (event : E) (y : Y)
  | resume (caller : Caller)
  deriving DecidableEq, Repr

def opens (r : Runner GameJob) (next : UInt32) : YieldingGame E C X I Y :=
  ⟨begin r next, fun _ => .notCalled, [], fun _ => none⟩

def YieldingGame.promises (s : YieldingGame E C X I Y) : Yielding E C X Y :=
  ⟨s.running.game.pump, s.yields, fun _ => [], s.setCalls⟩

/-- The steps of a job that waits for its promise, its return included. -/
def YieldingGame.blocks (s : YieldingGame E C X I Y) (after : Running E (Callback C Y) X I) :
    RunAction E (Callback C Y) X I → Bool
  | .sched _ => (logged s.running.sched after.sched).any fun
      | .ended _ eventPump _ => (s.waits .callback).isSome
      | .ended _ renderJob _ => (s.waits .renderer).isSome
      | _ => false
  | .body a => (s.waits .callback).isSome && Caller.callback.own a ||
      (s.waits .renderer).isSome && Caller.renderer.own a
  | .setup _ => false
  | .poll _ => (s.waits .renderer).isSome

section
variable [DecidableEq Y]

/-- Only `yield` connects a callback with a promise, and this callback returns
    if its value is stored and throws if there is one already. -/
def YieldingGame.allows (s : YieldingGame E C X I Y) : RunAction E (Callback C Y) X I → Bool
  | .body (.pump (.call (.connect _ (.setValue _)))) | .setup (.connect _ (.setValue _)) => false
  | .body (.pump .callbackReturn) => s.promises.canReturn
  | .body (.pump .callbackThrow) => s.promises.canThrow
  | _ => true

/-- When the pump has called the callback of a `yield` its value is set. -/
def YieldingGame.settle (s : YieldingGame E C X I Y) (after : Running E (Callback C Y) X I) :
    YieldingGame E C X I Y :=
  let called := GameEventYield.called { s.promises with pump := after.game.pump }
  { s with running := after, yields := called.yields, setCalls := called.setCalls }

variable [DecidableEq E]

def yieldStep (n : UInt32) (fuel : Nat) (returns : Request (Callback C Y) X → Bool)
    (char : Int8 → X) (keyDown : E) (s : YieldingGame E C X I Y) :
    YieldAction E C X I Y → Option (YieldingGame E C X I Y)
  | .run a =>
      match runStep n fuel returns char keyDown s.running a with
      | some after =>
          if s.allows a ∧ s.blocks after a = false then
            match a with
            | .body (.pump .test) => some (s.settle after)
            | _ => some { s with running := after }
          else none
      | none => none
  | .yield caller event y =>
      match s.yields y, s.waits caller with
      | .notCalled, none =>
          if caller.runs s.running then
            match pumpStep returns s.running.game (.call (.connect event (.setValue y))) with
            | some game => some { s with
                running := ⟨s.running.sched, game⟩
                yields := Function.update s.yields y (.waiting none)
                waits := Function.update s.waits caller (some y) }
            | none => none
          else none
      | _, _ => none
  | .resume caller =>
      match s.waits caller with
      | some y =>
          match s.yields y with
          | .waiting (some context) => some { s with
              yields := Function.update s.yields y (.returned context)
              waits := Function.update s.waits caller none }
          | _ => none
      | none => none

end

variable {n next : UInt32} {r : Runner GameJob} {fuel : Nat} {caller : Caller}
  {g g' h : Running E C X I}

/-- The stage of the loop in which the caller runs. -/
theorem inside_loop (posed : Posed n next r g) (inside : Inside g caller) (k : Nat) :
    loopOf g.sched.system.log ≠ .between k := by
  obtain ⟨_, staged⟩ := posed
  intro between
  cases caller with
  | callback =>
    obtain ⟨req, calling⟩ := inside
    have running := running_of_busy staged (by simp [calling])
    rw [between] at running
    cases running
  | renderer =>
    have running := staged.polling.mp inside
    rw [between] at running
    cases running

/-- The arbiter is in one of its calls, or has some to make. -/
theorem inside_busy (static : StaticPool n r.pool) (bound : next ≤ n) (posed : Posed n next r g)
    (inside : Inside g caller) :
    ¬ (g.sched.system.pc = .ready ∧ g.sched.system.program = []) := by
  rintro ⟨ready, done⟩
  have counts := (looping_boundary static.positive bound posed.looping ready done).1
  exact inside_loop posed inside _ (loopOf_between counts)

theorem mainStep_busy {s t : MainLoop} {a : LoopAction}
    (busy : ¬ (s.system.pc = .ready ∧ s.system.program = []))
    (run : mainStep n fuel s a = some t) : t.begun = s.begun ∧ t.exited = s.exited := by
  cases a with
  | inner a =>
    simp only [mainStep] at run
    split at run <;> cases run
    exact ⟨rfl, rfl⟩
  | checkActive =>
    simp only [mainStep] at run
    split at run
    · rename_i atEnd
      exact absurd ⟨atEnd.1, atEnd.2.1⟩ busy
    · cases run
  | signalStop =>
    cases run
    exact ⟨rfl, rfl⟩

/-- The pump is not running beside the renderer. -/
theorem renderer_idle (posed : Posed n next r g) (polling : g.game.polling = true) :
    g.game.pump.pc = .idle := by
  apply posed.staged.pumpIdle
  rw [polling_pumped posed.staged polling]
  decide

/-- What others leave alone while the caller waits. -/
structure Still (g g' : Game E C X I) : Prop where
  pc : g'.pump.pc = g.pump.pc
  invoked : g'.pump.invoked = g.pump.invoked
  polling : g'.polling = g.polling
  frames : g'.frames = g.frames

theorem inside_still {game : Game E C X I} {sched : MainLoop} (inside : Inside g caller)
    (still : Still g.game game) : Inside (⟨sched, game⟩ : Running E C X I) caller := by
  cases caller with
  | callback =>
    obtain ⟨req, calling⟩ := inside
    exact ⟨req, still.pc.trans calling⟩
  | renderer => exact still.polling.trans inside

/-- A step of the others: the caller neither moves nor returns. -/
def Others (caller : Caller) (g g' : Running E C X I) : RunAction E C X I → Prop
  | .sched _ => ∀ w threw, .ended w caller.job threw ∉ logged g.sched g'.sched
  | .body a => caller.own a = false
  | .setup _ => True
  | .poll _ => caller = .callback

/-- A job that waits for a promise is inside its caller, and the promise has no
    value: who would set it is behind the job that waits. -/
structure Hung (n next : UInt32) (r : Runner GameJob) (s : YieldingGame E C X I Y) : Prop where
  posed : Posed n next r s.running
  waits : ∀ caller y, s.waits caller = some y →
    Inside s.running caller ∧ s.yields y = .waiting none

/-- What goes on while a caller waits. -/
structure Stays (caller : Caller) (y : Y) (s t : YieldingGame E C X I Y) : Prop where
  waits : t.waits caller = some y
  still : Still s.running.game t.running.game
  begun : t.running.sched.begun = s.running.sched.begun
  exited : t.running.sched.exited = s.running.sched.exited

theorem hung_opens : Hung n next r (opens r next : YieldingGame E C X I Y) :=
  ⟨posed_begin, fun _ _ no => (by cases no)⟩

/-- What is not blocked is not a step of a caller that waits. -/
theorem blocks_others {s : YieldingGame E C X I Y} {after : Running E (Callback C Y) X I}
    {a : RunAction E (Callback C Y) X I} {y : Y} (waits : s.waits caller = some y)
    (free : s.blocks after a = false) : Others caller s.running after a := by
  cases a with
  | sched a =>
    intro w threw among
    simp only [YieldingGame.blocks, List.any_eq_false] at free
    have blocked := free _ among
    cases caller with
    | callback | renderer => simp [Caller.job, waits] at blocked
  | body a =>
    simp only [YieldingGame.blocks, Bool.or_eq_false_iff, Bool.and_eq_false_iff] at free
    cases caller with
    | callback => exact free.1.resolve_left (by simp [waits])
    | renderer => exact free.2.resolve_left (by simp [waits])
  | setup call => trivial
  | poll event =>
    cases caller with
    | callback => rfl
    | renderer => simp [YieldingGame.blocks, waits] at free

theorem runs_inside {g : Running E (Callback C Y) X I} (runs : caller.runs g = true) :
    Inside g caller := by
  cases caller with
  | callback =>
    simp only [Caller.runs] at runs
    split at runs
    · exact ⟨_, ‹_›⟩
    · cases runs
  | renderer => exact runs

variable [DecidableEq E] {returns : Request C X → Bool} {char : Int8 → X} {keyDown : E}

theorem call_still {s t : Game E C X I} {call : Call E C X}
    (run : pumpStep returns s (.call call) = some t) : Still s t := by
  obtain ⟨aside, stepped⟩ := pumpStep_aside run
  obtain ⟨_, _, _, pc, _⟩ := callStep_appends stepped
  refine ⟨pc, ?_, aside.polling, aside.frames⟩
  change callStep s.pump call = some t.pump at stepped
  generalize t.pump = pump at stepped ⊢
  cases call with
  | connect event callback =>
    cases stepped
    rfl
  | fire event context =>
    simp only [callStep] at stepped
    split at stepped <;> cases stepped
    rfl

theorem body_still (posed : Posed n next r g) (inside : Inside g caller) {a : BodyAction E C X I}
    {game : Game E C X I} (others : caller.own a = false)
    (did : bodyStep returns g.game a = some game) : Still g.game game := by
  cases caller with
  | callback =>
    obtain ⟨req, calling⟩ := inside
    cases a with
    | pump a =>
      cases a with
      | call call | callbackReturn | callbackThrow => cases others
      | execute => cases did
      | test | pop =>
        simp only [bodyStep, pumpStep, GameEventQueue.step, calling] at did
        cases did
    | callbackWrite fn => cases others
    | enqueue fn =>
      cases did
      exact ⟨rfl, rfl, rfl, rfl⟩
    | tryPop | writeReturn | writeThrow =>
      simp only [bodyStep] at did
      split at did <;> cases did <;> exact ⟨rfl, rfl, rfl, rfl⟩
  | renderer =>
    have idle := renderer_idle posed inside
    cases a with
    | pump a =>
      cases a with
      | call call => cases others
      | execute => cases did
      | test | callbackReturn | callbackThrow | pop =>
        simp only [bodyStep, pumpStep, GameEventQueue.step, idle] at did
        cases did
    | enqueue fn =>
      cases did
      exact ⟨rfl, rfl, rfl, rfl⟩
    | callbackWrite fn =>
      simp only [bodyStep, idle] at did
      cases did
    | tryPop | writeReturn | writeThrow =>
      simp only [bodyStep] at did
      split at did <;> cases did <;> exact ⟨rfl, rfl, rfl, rfl⟩

/-- No job but the write job can start or end. -/
theorem job_still (posed : Posed n next r g) (inside : Inside g caller) {l : Loop}
    {e : Event UInt32 GameJob} {game : Game E C X I}
    (paced : loopStep (loopOf g.sched.system.log) e = some l)
    (waits : ∀ w threw, e ≠ .ended w caller.job threw)
    (did : jobStep returns g.game e = some game) : Still g.game game := by
  obtain ⟨_, staged⟩ := posed
  have begun : (loopOf g.sched.system.log).pumping ≠ .waiting := by
    cases caller with
    | callback =>
      obtain ⟨req, calling⟩ := inside
      rw [running_of_busy staged (by simp [calling])]
      decide
    | renderer =>
      rw [polling_pumped staged inside]
      decide
  cases e with
  | started w job =>
    cases job with
    | writeJob =>
      cases did
      exact ⟨rfl, rfl, rfl, rfl⟩
    | eventPump =>
      simp only [loopStep] at paced
      split at paced
      · exact absurd ‹_› begun
      · cases paced
    | renderJob =>
      simp only [loopStep] at paced
      split at paced
      · rename_i others
        cases caller with
        | callback =>
          obtain ⟨req, calling⟩ := inside
          have running := running_of_busy staged (by simp [calling])
          rw [others.2.1] at running
          cases running
        | renderer =>
          have running := staged.polling.mp inside
          rw [others.2.2] at running
          cases running
      · cases paced
  | ended w job threw =>
    cases job with
    | writeJob | eventPump =>
      simp only [jobStep] at did
      split at did <;> cases did
      exact ⟨rfl, rfl, rfl, rfl⟩
    | renderJob =>
      cases caller with
      | callback =>
        obtain ⟨req, calling⟩ := inside
        have running := running_of_busy staged (by simp [calling])
        simp only [loopStep] at paced
        split at paced
        · rename_i rendering
          rw [(staged.after (by rw [rendering]; decide)).2] at running
          cases running
        · cases paced
      | renderer => exact absurd rfl (waits w threw)

theorem others_step (static : StaticPool n r.pool) (bound : next ≤ n)
    (built : world r.pool = .ok r) (enough : 3 ≤ fuel) {a : RunAction E C X I}
    (posed : Posed n next r g) (inside : Inside g caller) (others : Others caller g g' a)
    (run : runStep n fuel returns char keyDown g a = some g') :
    Inside g' caller ∧ Still g.game g'.game ∧
      g'.sched.begun = g.sched.begun ∧ g'.sched.exited = g.sched.exited := by
  have later := posed_step static bound built enough posed run
  have busy := inside_busy static bound posed inside
  cases runStep_moved run with
  | calm taken same =>
    exact ⟨inside_still inside ⟨rfl, rfl, rfl, rfl⟩, ⟨rfl, rfl, rfl, rfl⟩,
      mainStep_busy busy taken⟩
  | job taken one did =>
    have paced := job_paced posed.looping later.looping taken one
    have still := job_still posed inside paced (fun w threw eq =>
      others w threw (by rw [one, eq]; exact List.mem_cons_self)) did
    exact ⟨inside_still inside still, still, mainStep_busy busy taken⟩
  | body did =>
    have still := body_still posed inside others did
    exact ⟨inside_still inside still, still, rfl, rfl⟩
  | setup _ did | key _ did =>
    have still := call_still did
    exact ⟨inside_still inside still, still, rfl, rfl⟩
  | quit | other => exact ⟨inside_still inside ⟨rfl, rfl, rfl, rfl⟩, ⟨rfl, rfl, rfl, rfl⟩, rfl, rfl⟩

/-- The pump takes no request while a job waits for a promise. -/
theorem inside_tests {g g' : Running E (Callback C Y) X I}
    {returns : Request (Callback C Y) X → Bool} (posed : Posed n next r g)
    (inside : Inside g caller)
    (run : runStep n fuel returns char keyDown g (.body (.pump .test)) = some g') : False := by
  cases runStep_moved run with
  | body did =>
    cases caller with
    | callback =>
      obtain ⟨req, calling⟩ := inside
      simp only [bodyStep, pumpStep, GameEventQueue.step, calling] at did
      cases did
    | renderer =>
      have idle := renderer_idle posed inside
      simp only [bodyStep, pumpStep, GameEventQueue.step, idle] at did
      cases did

variable [DecidableEq Y]

theorem hung_step (static : StaticPool n r.pool) (bound : next ≤ n)
    (built : world r.pool = .ok r) (enough : 3 ≤ fuel)
    {returns : Request (Callback C Y) X → Bool} {s t : YieldingGame E C X I Y}
    {a : YieldAction E C X I Y} (hung : Hung n next r s)
    (run : yieldStep n fuel returns char keyDown s a = some t) :
    Hung n next r t ∧ ∀ caller y, s.waits caller = some y → Stays caller y s t := by
  obtain ⟨posed, waits⟩ := hung
  cases a with
  | run a =>
    simp only [yieldStep] at run
    split at run
    · rename_i after taken
      split at run
      · rename_i may
        have later := posed_step static bound built enough posed taken
        have moves : ∀ caller y, s.waits caller = some y → Inside after caller ∧
            Still s.running.game after.game ∧ after.sched.begun = s.running.sched.begun ∧
              after.sched.exited = s.running.sched.exited := fun caller y here =>
          others_step static bound built enough posed (waits caller y here).1
            (blocks_others here may.2) taken
        have same : t.running = after ∧ t.waits = s.waits ∧
            ∀ caller y, s.waits caller = some y → t.yields = s.yields := by
          split at run
          · cases run
            exact ⟨rfl, rfl, fun caller y here =>
              (inside_tests posed (waits caller y here).1 taken).elim⟩
          · cases run
            exact ⟨rfl, rfl, fun _ _ _ => rfl⟩
        obtain ⟨rfl, waiting, promises⟩ := same
        refine ⟨⟨later, fun caller y here => ?_⟩, fun caller y here => ?_⟩
        · rw [waiting] at here
          rw [promises caller y here]
          exact ⟨(moves caller y here).1, (waits caller y here).2⟩
        · obtain ⟨_, still, begun, exited⟩ := moves caller y here
          exact ⟨by rw [waiting, here], still, begun, exited⟩
      · cases run
    · cases run
  | yield caller event y =>
    simp only [yieldStep] at run
    split at run
    · rename_i new free
      split at run
      · rename_i runs
        split at run
        · rename_i game connects
          cases run
          have still := call_still connects
          have later : Posed n next r ⟨s.running.sched, game⟩ :=
            ⟨posed.looping, staged_pump posed.staged (by simp) connects⟩
          have apart : ∀ other z, s.waits other = some z → other ≠ caller ∧ z ≠ y := by
            intro other z here
            constructor
            · rintro rfl
              rw [free] at here
              cases here
            · rintro rfl
              rw [(waits other z here).2] at new
              cases new
          refine ⟨⟨later, fun other z here => ?_⟩, fun other z here => ?_⟩
          · by_cases same : other = caller
            · subst same
              obtain rfl : y = z := by simpa using here
              exact ⟨inside_still (runs_inside runs) still, Function.update_self _ _ _⟩
            · have before := (Function.update_of_ne same _ _).symm.trans here
              obtain ⟨inside, none_⟩ := waits other z before
              refine ⟨inside_still inside still, ?_⟩
              exact (Function.update_of_ne (apart other z before).2 _ _).trans none_
          · exact ⟨(Function.update_of_ne (apart other z here).1 _ _).trans here, still, rfl, rfl⟩
        · cases run
      · cases run
    · cases run
  | resume caller =>
    simp only [yieldStep] at run
    split at run
    · rename_i y here
      rw [(waits caller y here).2] at run
      cases run
    · cases run

/-- Any static pool and any interleaving, in which callbacks and writes may
    also throw: once a callback or the renderer waits in `yield`, the promise of
    this call is never given a value, so the call does not return. No callback is
    called any more, the frame does not end, none is begun, and the arbiter does
    not leave its loop when it is told to. -/
theorem yield_hangs {n next : UInt32} {pool : WorkerPool} (static : StaticPool n pool)
    (bound : next ≤ n) : ∃ r, world pool = .ok r ∧ ∀ fuel, 3 ≤ fuel →
      ∀ (returns : Request (Callback C Y) X → Bool) (char : Int8 → X) (keyDown : E)
        (caller : Caller) (y : Y) (g h : YieldingGame E C X I Y),
      Reaches (yieldStep n fuel returns char keyDown) anyAction (opens r next) g →
      g.waits caller = some y →
      Reaches (yieldStep n fuel returns char keyDown) anyAction g h →
      h.yields y = .waiting none ∧ h.waits caller = some y ∧
        h.running.game.pump.invoked = g.running.game.pump.invoked ∧
        h.running.game.frames = g.running.game.frames ∧
        h.running.sched.begun = g.running.sched.begun ∧ h.running.sched.exited = false := by
  obtain ⟨r, built, same, _⟩ := world_graph pool
  rw [← same] at static built
  refine ⟨r, by rw [← same]; exact built, ?_⟩
  intro fuel enough returns char keyDown caller y g h walk waits later
  have hung : Hung n next r g := reaches_invariant
    (fun _ _ _ here _ run => (hung_step static bound built enough here run).1) walk hung_opens
  have running : g.running.sched.exited = false := by
    by_contra left
    have atEnd := hung.posed.looping.exited (by simpa using left)
    exact inside_busy static bound hung.posed (hung.waits caller y waits).1 atEnd.2
  have holds := reaches_invariant
    (I := fun h : YieldingGame E C X I Y => Hung n next r h ∧ Stays caller y g h) ?_ later
    ⟨hung, waits, ⟨rfl, rfl, rfl, rfl⟩, rfl, rfl⟩
  · obtain ⟨after, stays⟩ := holds
    exact ⟨(after.waits caller y stays.waits).2, stays.waits, stays.still.invoked,
      stays.still.frames, stays.begun, stays.exited.trans running⟩
  · rintro s a t ⟨here, stays⟩ _ run
    obtain ⟨next, goes⟩ := hung_step static bound built enough here run
    have more := goes caller y stays.waits
    exact ⟨next, more.waits, ⟨more.still.pc.trans stays.still.pc,
      more.still.invoked.trans stays.still.invoked, more.still.polling.trans stays.still.polling,
      more.still.frames.trans stays.still.frames⟩, more.begun.trans stays.begun,
      more.exited.trans stays.exited⟩

abbrev hangStep : YieldingGame Unit Nat Int8 Nat Unit → YieldAction Unit Nat Int8 Nat Unit →
    Option (YieldingGame Unit Nat Int8 Nat Unit) := yieldStep 2 3 (fun _ => true) id ()

def hangTurns : List (YieldAction Unit Nat Int8 Nat Unit) := turns.map .run

/-- The callback of a key yields on `key_down`, and then the stop is signalled. -/
theorem yield_hangs_two : ∃ r, world (filledPool 2) = .ok r ∧
    ∃ g h : YieldingGame Unit Nat Int8 Nat Unit, Reaches hangStep anyAction (opens r 1) g ∧
      g.waits .callback = some () ∧ Reaches hangStep anyAction g h ∧
      h.running.sched.active = false ∧ h.yields () = .waiting none ∧
      h.running.sched.exited = false := by
  obtain ⟨r, built, holds⟩ := yield_hangs (E := Unit) (C := Nat) (X := Int8) (I := Nat) (Y := Unit)
    (filledPool_static (n := 2) (by decide)) (show (1 : UInt32) ≤ 2 by decide)
  have run : ((hangStep (opens r 1) (.run (.setup (.connect () (.user 7))))).bind fun s =>
      (hangStep (drive hangStep hangTurns 62 s) (.run (.poll (.keyDown 97)))).bind fun polled =>
      (hangStep (drive hangStep hangTurns 58 polled) (.yield .callback () ())).bind fun g =>
      (hangStep g (.run (.sched .signalStop))).map fun h =>
        decide (g.waits .callback = some ()) && decide (h.running.sched.active = false)) =
      some true := by
    cases built
    decide +kernel
  simp only [Option.bind_eq_some_iff, Option.map_eq_some_iff, Bool.and_eq_true,
    decide_eq_true_eq] at run
  obtain ⟨s, setup, polled, key, g, yields, h, signals, waits, off⟩ := run
  have free : ∀ a ∈ hangTurns, ∀ s : YieldingGame Unit Nat Int8 Nat Unit, anyAction s a :=
    fun _ _ _ => trivial
  have before : Reaches hangStep anyAction (opens r 1) (drive hangStep hangTurns 62 s) :=
    .head ⟨_, trivial, setup⟩ (drive_reaches free 62 s)
  have walk : Reaches hangStep anyAction (opens r 1) g :=
    (before.tail ⟨_, trivial, key⟩).trans
      ((drive_reaches free 58 polled).tail ⟨_, trivial, yields⟩)
  have later : Reaches hangStep anyAction g h := .single ⟨_, trivial, signals⟩
  obtain ⟨unset, _, _, _, _, on⟩ := holds 3 (by decide) _ _ _ .callback () g h walk waits later
  exact ⟨r, built, g, h, walk, waits, later, off, unset, on⟩

end GameYieldHang
