import SteampunkGame.Game.RenderSnapshot
import SteampunkGame.Rendering.Rainbow

/-!
Text boxes in the running game. Whatever the threads do, what has become of the
boxes is a run of `RenderingTextBox`, in which the renderer presents the scene
once for each frame and the write job changes it between two frames.
-/
namespace RenderingScreen
open SchedPool SchedRunner GameWorld GameBodies GameRunning GameSnapshot Runs
open GameEvent (Request)
open RenderingTextBox RenderingHsvColor RenderingRainbow
variable {E C X I F Font : Type}

/-- The writes that change the scene, with a `get_font` that does not throw. -/
inductive Write (I Font : Type) where
  | setText (x : I) (value : List Int8)
  | setColor (x : I) (value : Color)
  | setFont (x : I) (font : Option Font)
  | addRenderable (x : I)
  deriving DecidableEq, Repr

def Write.action : Write I Font → Action I Font
  | .setText x value => .setText x value
  | .setColor x value => .setColor x value
  | .setFont x font => .setFont x (some font)
  | .addRenderable x => .addRenderable x

def written : Action I Font → Option (Write I Font)
  | .setText x value => some (.setText x value)
  | .setColor x value => some (.setColor x value)
  | .setFont x (some font) => some (.setFont x font)
  | .addRenderable x => some (.addRenderable x)
  | .setFont _ none | .execute _ _ _ => none

def presenting : Action I Font → Bool
  | .execute _ _ _ => true
  | _ => false

/-- No step reads `history`, what has been done to the scene so far. -/
structure Screen (E C X I F Font : Type) where
  running : Running E C X (Write I Font)
  scene : Scene I F Font
  presented : Bool
  history : List (Action I Font)

inductive ScreenAction (E C X I Font : Type) where
  | run (a : RunAction E C X (Write I Font))
  | present (init : Bool) (order : List I) (drawing : I → Drawing)

/-- How often the scene was presented. A call of `execute` that throws counts
    as well, also in `init` before it has drawn anything. -/
def presents : List (Action I Font) → Nat
  | [] => 0
  | a :: rest => (presenting a).toNat + presents rest

/-- For each write, how often the scene had been presented before. -/
def writeFrames : Nat → List (Action I Font) → List Nat
  | _, [] => []
  | k, a :: rest =>
      if presenting a then writeFrames (k + 1) rest else k :: writeFrames k rest

/-- `poll_events` comes before `present`. -/
def polls : RunAction E C X (Write I Font) → Bool
  | .poll _ => true
  | _ => false

theorem written_action (fn : Write I Font) : written fn.action = some fn := by
  cases fn <;> rfl

theorem presenting_action (fn : Write I Font) : presenting fn.action = false := by
  cases fn <;> rfl

theorem presents_append (first second : List (Action I Font)) :
    presents (first ++ second) = presents first + presents second := by
  induction first with
  | nil => simp [presents]
  | cons a rest ih => rw [List.cons_append, presents, ih, presents, Nat.add_assoc]

theorem writeFrames_append (k : Nat) (first second : List (Action I Font)) :
    writeFrames k (first ++ second) =
      writeFrames k first ++ writeFrames (k + presents first) second := by
  induction first generalizing k with
  | nil => rfl
  | cons a rest ih =>
    rw [List.cons_append, writeFrames, writeFrames, presents, ← Nat.add_assoc]
    cases presenting a with
    | true => exact ih (k + 1)
    | false => exact congrArg (k :: ·) (ih k)

variable [DecidableEq E] [DecidableEq I] [Single F]

def Screen.act (s : Screen E C X I F Font) (a : Action I Font) : Option (Screen E C X I F Font) :=
  (step s.scene a).map fun scene => { s with scene := scene, history := s.history ++ [a] }

/-- The frame of a renderer is over when it has presented the scene. -/
def screenStep (n : UInt32) (fuel : Nat) (returns : Request C X → Bool) (char : Int8 → X)
    (keyDown : E) (s : Screen E C X I F Font) :
    ScreenAction E C X I Font → Option (Screen E C X I F Font)
  | .run a =>
      if s.presented && polls a then none
      else
        match runStep n fuel returns char keyDown s.running a with
        | none => none
        | some g =>
            if g.game.frames = s.running.game.frames then
              match popped s.running.game.queue a with
              | some fn => { s with running := g }.act fn.action
              | none => some { s with running := g }
            else if s.presented then some { s with running := g, presented := false }
            else none
  | .present init order drawing =>
      if s.running.game.polling && !s.presented then
        { s with presented := true }.act (.execute init order drawing)
      else none

def CalmScreen (s : Screen E C X I F Font) : ScreenAction E C X I Font → Prop
  | .run a => Calm s.running a
  | .present _ _ _ => True

/-- Nothing throws, and SDL draws every text. -/
def Smooth (s : Screen E C X I F Font) : ScreenAction E C X I Font → Prop
  | .run a => Calm s.running a
  | .present init _ drawing => init = true ∧ ∀ y, (drawing y).fails = false

variable {n next : UInt32} {r : Runner GameJob} {fuel : Nat} {returns : Request C X → Bool}
  {char : Int8 → X} {keyDown : E} {s t : Screen E C X I F Font} {start : Scene I F Font}

/-- The history is a run to the scene that there is, it has the writes that the
    write job has called, each in its frame, and a present for each frame. -/
structure Replayed (n next : UInt32) (r : Runner GameJob) (start : Scene I F Font)
    (s : Screen E C X I F Font) : Prop where
  alive : Alive n next r s.running
  scene : runActions step s.history start = some s.scene
  writes : s.history.filterMap written = called s.running.game
  frames : writeFrames 0 s.history = s.running.game.appliedAt
  presents : presents s.history = s.running.game.frames + if s.presented then 1 else 0
  polling : s.presented = true → s.running.game.polling = true

omit [DecidableEq E] [DecidableEq I] [Single F] in
theorem smooth_calm {a : ScreenAction E C X I Font} (smooth : Smooth s a) : CalmScreen s a := by
  cases a with
  | run a => exact smooth
  | present => trivial

theorem replayed_begin :
    Replayed n next r start (⟨begin r next, start, false, []⟩ : Screen E C X I F Font) :=
  ⟨alive_begin, rfl, rfl, rfl, rfl, fun never => by cases never⟩

omit [DecidableEq E] in
theorem act_history {a : Action I Font} (run : s.act a = some t) :
    t.running = s.running ∧ t.presented = s.presented ∧ t.history = s.history ++ [a] ∧
      step s.scene a = some t.scene := by
  obtain ⟨scene, taken, eq⟩ := Option.map_eq_some_iff.mp run
  cases eq
  exact ⟨rfl, rfl, rfl, taken⟩

omit [DecidableEq E] in
theorem history_concat {a : Action I Font} (scene : runActions step s.history start = some s.scene)
    (history : t.history = s.history ++ [a]) (taken : step s.scene a = some t.scene) :
    runActions step t.history start = some t.scene := by
  rw [history, runActions_concat, scene]
  exact taken

theorem replayed_step (static : StaticPool n r.pool) (bound : next ≤ n)
    (built : world r.pool = .ok r) (enough : 3 ≤ fuel) {a : ScreenAction E C X I Font}
    (replayed : Replayed n next r start s) (quiet : CalmScreen s a)
    (run : screenStep n fuel returns char keyDown s a = some t) : Replayed n next r start t := by
  obtain ⟨alive, scene, writes, frames, presented, polling⟩ := replayed
  cases a with
  | run a =>
    simp only [screenStep] at run
    split at run
    · cases run
    split at run
    · cases run
    rename_i g taken
    have after := alive_step static bound built enough alive quiet taken
    have wrote := runStep_wrote taken
    have grew := called_wrote alive.flowing.written wrote
    have stamped := applied_wrote wrote
    have moved := runStep_polling taken
    split at run
    · rename_i same
      have polls (done : s.presented = true) : g.game.polling = true := by
        rcases moved with ⟨_, on⟩ | beyond
        · exact on (polling done)
        · omega
      split at run
      · rename_i fn front
        obtain ⟨running, still, history, stepped⟩ := act_history run
        have clear : s.presented = false := by
          rw [Bool.eq_false_iff]
          intro done
          rw [polling_unpopped alive (polling done) taken] at front
          cases front
        rw [front] at grew stamped
        have here : presents s.history = s.running.game.frames := by
          rw [presented, clear]
          rfl
        constructor
        · rw [running]
          exact after
        · exact history_concat scene history stepped
        · rw [history, running, grew, List.filterMap_append, writes]
          simp [written_action]
        · rw [history, running, stamped, writeFrames_append, frames, Nat.zero_add, here]
          simp [writeFrames, presenting_action]
        · rw [history, running, still, presents_append, same, here, clear]
          simp [presents, presenting_action]
        · rw [still, running]
          exact polls
      · rename_i nothing
        cases run
        rw [nothing] at grew stamped
        exact ⟨after, scene, by rw [writes, grew]; simp, by rw [frames, stamped]; simp,
          by rw [presented, same], polls⟩
    · rename_i beyond
      split at run
      · rename_i done
        cases run
        have ended : g.game.frames = s.running.game.frames + 1 := by
          rcases moved with ⟨same, _⟩ | next_
          · exact absurd same beyond
          · exact next_
        rw [polling_unpopped alive (polling done) taken] at grew stamped
        exact ⟨after, scene, by rw [writes, grew]; simp, by rw [frames, stamped]; simp,
          by rw [presented, if_pos done, ended]; simp, by simp⟩
      · cases run
  | present init order drawing =>
    simp only [screenStep] at run
    split at run
    · rename_i may
      rw [Bool.and_eq_true, Bool.not_eq_true'] at may
      obtain ⟨running, still, history, stepped⟩ := act_history run
      constructor
      · rw [running]
        exact alive
      · exact history_concat scene history stepped
      · rw [history, running, List.filterMap_append, ← writes]
        simp [written]
      · rw [history, running, writeFrames_append, ← frames]
        simp [writeFrames, presenting]
      · rw [history, running, still, presents_append, presented, may.2]
        simp [presents, presenting]
      · rw [running]
        exact fun _ => may.1
    · cases run

/-- Any static pool and any interleaving, where neither callbacks nor writes
    throw: the scene is what some sequential run of the setters and of `execute`
    makes of the first one. In this run the setters are the writes in the order
    in which they were enqueued, each comes after as many presents as there
    were frames before it was called, and each frame has one present, even if
    it throws. -/
theorem screen_refines_scene {n next : UInt32} {pool : WorkerPool} (static : StaticPool n pool)
    (bound : next ≤ n) : ∃ r, world pool = .ok r ∧ ∀ fuel, 3 ≤ fuel →
      ∀ (returns : Request C X → Bool) (char : Int8 → X) (keyDown : E) (start : Scene I F Font)
        (s : Screen E C X I F Font),
      Reaches (screenStep n fuel returns char keyDown) CalmScreen
        ⟨begin r next, start, false, []⟩ s →
      runActions step s.history start = some s.scene ∧
        s.history.filterMap written = called s.running.game ∧
        writeFrames 0 s.history = s.running.game.appliedAt ∧
        presents s.history = s.running.game.frames + if s.presented then 1 else 0 := by
  obtain ⟨r, built, same, _⟩ := world_graph pool
  rw [← same] at static built
  refine ⟨r, by rw [← same]; exact built, ?_⟩
  intro fuel enough returns char keyDown start s walk
  have replayed : Replayed n next r start s :=
    reaches_invariant
      (fun _ _ _ before quiet run => replayed_step static bound built enough before quiet run)
      walk replayed_begin
  exact ⟨replayed.scene, replayed.writes, replayed.frames, replayed.presents⟩

/-- A box that was added before the start, with a font and a text, and two
    workers. -/
def oneBox : Scene UInt32 Binary32 Unit :=
  let added : Scene UInt32 Binary32 Unit := { Scene.fresh with renderables := [0] }
  let lettered := added.set 0 ((added.boxes 0).setFont (some ()))
  lettered.set 0 ((lettered.boxes 0).setText [97])

abbrev boxStep : Screen Unit Nat Int8 UInt32 Binary32 Unit →
    ScreenAction Unit Nat Int8 UInt32 Unit → Option (Screen Unit Nat Int8 UInt32 Binary32 Unit) :=
  screenStep 2 3 (fun _ => true) id ()

def boxTurns : List (ScreenAction Unit Nat Int8 UInt32 Unit) :=
  .present true [0] (fun _ => .drawn 8 16) :: turns.map .run

def enqueue (text : List Int8) : ScreenAction Unit Nat Int8 UInt32 Unit :=
  .run (.body (.enqueue (.setText 0 text)))

theorem boxTurns_smooth : ∀ a ∈ boxTurns, ∀ s : Screen Unit Nat Int8 UInt32 Binary32 Unit,
    Smooth s a := by
  intro a among s
  rcases List.mem_cons.mp among with rfl | turn
  · exact ⟨rfl, fun _ => rfl⟩
  · obtain ⟨b, inside, rfl⟩ := List.mem_map.mp turn
    exact turns_calm b inside s.running

/-- The second write comes in when the first frame has been presented. -/
theorem screen_refines_scene_two : ∃ r, world (filledPool 2) = .ok r ∧
    ∃ s : Screen Unit Nat Int8 UInt32 Binary32 Unit,
      Reaches boxStep CalmScreen ⟨begin r 1, oneBox, false, []⟩ s ∧
      runActions step s.history oneBox = some s.scene ∧
      s.history.filterMap written = [.setText 0 [98], .setText 0 [99]] ∧
      writeFrames 0 s.history = [0, 1] ∧ presents s.history = 2 := by
  obtain ⟨r, built, holds⟩ := @screen_refines_scene Unit Nat Int8 UInt32 Binary32 Unit _ _ _ 2 1 _
    (filledPool_static (by decide)) (by decide)
  have run : ((boxStep ⟨begin r 1, oneBox, false, []⟩ (enqueue [98])).bind fun first =>
      (boxStep (drive boxStep boxTurns 65 first) (enqueue [99])).map fun second =>
      decide (called (drive boxStep boxTurns 90 second).running.game =
          [.setText 0 [98], .setText 0 [99]]) &&
        decide ((drive boxStep boxTurns 90 second).running.game.appliedAt = [0, 1]) &&
        decide ((drive boxStep boxTurns 90 second).running.game.frames = 2) &&
        !(drive boxStep boxTurns 90 second).presented) = some true := by
    cases built
    decide +kernel
  simp only [Option.bind_eq_some_iff, Option.map_eq_some_iff, Bool.and_eq_true,
    decide_eq_true_eq, Bool.not_eq_true'] at run
  obtain ⟨first, one, second, two, ⟨⟨writes, frames⟩, count⟩, clear⟩ := run
  have calm := fun a among s => smooth_calm (boxTurns_smooth a among s)
  have walk : Reaches boxStep CalmScreen ⟨begin r 1, oneBox, false, []⟩
      (drive boxStep boxTurns 90 second) :=
    .head ⟨enqueue [98], rfl, one⟩ ((drive_reaches calm 65 first).trans
      (.head ⟨enqueue [99], rfl, two⟩ (drive_reaches calm 90 second)))
  have result := holds 3 (by decide) _ _ _ _ _ walk
  rw [writes, frames, count, clear] at result
  exact ⟨r, built, _, walk, result⟩

theorem renderables_step {scene next_ : Scene I F Font} {a : Action I Font} {x : I}
    (among : x ∈ scene.renderables) (run : step scene a = some next_) : x ∈ next_.renderables := by
  cases a with
  | setText y value | setColor y value =>
    cases run
    exact among
  | setFont y font =>
    cases font <;> (cases run; exact among)
  | addRenderable y =>
    simp only [step] at run
    split at run <;> cases run
    · exact among
    · exact List.mem_append_left _ among
  | execute init order drawing =>
    simp only [step] at run
    split at run
    · cases run
      rw [Scene.execute]
      split <;> exact among
    · cases run

section
variable {s t : Screen E C X I Binary32 Font} {start : Scene I Binary32 Font} {x : I}

/-- The hue of a box that is among the renderables. -/
structure Turned (x : I) (start : Scene I Binary32 Font) (s : Screen E C X I Binary32 Font) :
    Prop where
  among : x ∈ s.scene.renderables
  tracked : Tracked x s.scene
  hue : (s.scene.boxes x).h = advance^[presents s.history] (start.boxes x).h

omit [DecidableEq E] in
/-- Every present paints the box if SDL draws every text. -/
theorem present_painted {order : List I} {drawing : I → Drawing}
    (smooth : Smooth s (.present true order drawing)) (among : x ∈ s.scene.renderables)
    (permuted : order.Perm s.scene.renderables) :
    painted x s.scene (.execute true order drawing) = true := by
  have draws (y : I) : stops s.scene.boxes drawing y = false := by
    rw [stops, smooth.2 y, Bool.and_false]
  simp [painted, draws, permuted.mem_iff, among]

omit [DecidableEq E] in
theorem turned_act {a : Action I Font} (turned : Turned x start s)
    (paints : painted x s.scene a = presenting a) (history : t.history = s.history ++ [a])
    (taken : step s.scene a = some t.scene) : Turned x start t := by
  refine ⟨renderables_step turned.among taken, tracked_step turned.tracked taken, ?_⟩
  rw [(painted_step turned.tracked taken).1, turned.hue, history, presents_append, Nat.add_comm,
    Function.iterate_add_apply, paints, presents, presents, Nat.add_zero]

theorem turned_present {init : Bool} {order : List I} {drawing : I → Drawing}
    (turned : Turned x start s) (smooth : Smooth s (.present init order drawing))
    (run : screenStep n fuel returns char keyDown s (.present init order drawing) = some t) :
    s.presented = false ∧ Turned x start t ∧ (t.scene.boxes x).color =
      hsv2rgb ((s.scene.boxes x).h + Single.lit (1 / 1000)) (Single.lit 1) (Single.lit 1) := by
  obtain ⟨rfl, _⟩ := id smooth
  simp only [screenStep] at run
  split at run
  · rename_i may
    rw [Bool.and_eq_true, Bool.not_eq_true'] at may
    obtain ⟨_, _, history, taken⟩ := act_history run
    have permuted : order.Perm s.scene.renderables := by
      by_contra other
      simp only [step, if_neg other] at taken
      cases taken
    have paints := present_painted smooth turned.among permuted
    exact ⟨may.2, turned_act turned paints history taken,
      (painted_step turned.tracked taken).2 paints⟩
  · cases run

theorem turned_step {a : ScreenAction E C X I Font} (turned : Turned x start s)
    (smooth : Smooth s a) (run : screenStep n fuel returns char keyDown s a = some t) :
    Turned x start t := by
  cases a with
  | run a =>
    simp only [screenStep] at run
    split at run
    · cases run
    split at run
    · cases run
    split at run
    · split at run
      · rename_i fn _
        obtain ⟨_, _, history, taken⟩ := act_history run
        refine turned_act turned ?_ history taken
        cases fn <;> rfl
      · cases run
        exact ⟨turned.among, turned.tracked, turned.hue⟩
    · split at run <;> cases run
      exact ⟨turned.among, turned.tracked, turned.hue⟩
  | present init order drawing => exact (turned_present turned smooth run).2.1

theorem paintings_writes (writes : List (Write I Font)) (scene : Scene I Binary32 Font) :
    paintings x (writes.map Write.action) scene = 0 := by
  induction writes generalizing scene with
  | nil => rfl
  | cons fn rest ih =>
    rw [List.map_cons, paintings]
    split
    · rw [ih]
      cases fn <;> rfl
    · rfl

/-- Any static pool and any interleaving, where nothing throws and SDL draws
    every text: the hue of a box that was added before the start has gone on by
    one step for each frame, in a cycle of 1001 frames, and the renderer of frame
    `k` gives it the colour that comes after `k` steps. -/
theorem rainbow_rate {n next : UInt32} {pool : WorkerPool} (static : StaticPool n pool)
    (bound : next ≤ n) : ∃ r, world pool = .ok r ∧ ∀ fuel, 3 ≤ fuel →
      ∀ (returns : Request C X → Bool) (char : Int8 → X) (keyDown : E)
        (setup : List (Write I Font)) (start : Scene I Binary32 Font) (x : I),
      runActions step (setup.map Write.action) .fresh = some start → x ∈ start.renderables →
      ∀ s : Screen E C X I Binary32 Font,
      Reaches (screenStep n fuel returns char keyDown) Smooth ⟨begin r next, start, false, []⟩ s →
      (s.scene.boxes x).h =
          hue ((s.running.game.frames + if s.presented then 1 else 0) % 1001) ∧
        ∀ init order drawing t, Smooth s (.present init order drawing) →
          screenStep n fuel returns char keyDown s (.present init order drawing) = some t →
          (t.scene.boxes x).color = shade (s.running.game.frames % 1001) := by
  obtain ⟨r, built, same, _⟩ := world_graph pool
  rw [← same] at static built
  refine ⟨r, by rw [← same]; exact built, ?_⟩
  intro fuel enough returns char keyDown setup start x prepared among s walk
  obtain ⟨tracked, zero⟩ := paintings_run (tracked_fresh x) prepared
  rw [paintings_writes] at zero
  have both := reaches_invariant (I := fun s : Screen E C X I Binary32 Font =>
      Replayed n next r start s ∧ Turned x start s) (fun s a t before smooth run =>
        ⟨replayed_step static bound built enough before.1 (smooth_calm smooth) run,
          turned_step before.2 smooth run⟩) walk ⟨replayed_begin, among, tracked, rfl⟩
  obtain ⟨replayed, turned⟩ := both
  have here : (s.scene.boxes x).h =
      hue (s.running.game.frames + if s.presented then 1 else 0) := by
    rw [turned.hue, replayed.presents, zero]
    rfl
  refine ⟨by rw [hue_cycle]; exact here, fun init order drawing t smooth run => ?_⟩
  obtain ⟨clear, _, color⟩ := turned_present turned smooth run
  rw [color, here, clear, shade, hue_cycle]
  rfl

/-- After the second present the third frame is on. -/
theorem rainbow_rate_two : ∃ r, world (filledPool 2) = .ok r ∧
    ∃ s : Screen Unit Nat Int8 UInt32 Binary32 Unit,
      Reaches boxStep Smooth ⟨begin r 1, oneBox, false, []⟩ s ∧
      s.running.game.frames = 2 ∧ (s.scene.boxes 0).h = hue 2 := by
  obtain ⟨r, built, holds⟩ := @rainbow_rate Unit Nat Int8 UInt32 Unit _ _ 2 1 _
    (filledPool_static (by decide)) (by decide)
  have run : (decide ((drive boxStep boxTurns 160
      ⟨begin r 1, oneBox, false, []⟩).running.game.frames = 2) &&
        !(drive boxStep boxTurns 160 ⟨begin r 1, oneBox, false, []⟩).presented) = true := by
    cases built
    decide +kernel
  rw [Bool.and_eq_true, decide_eq_true_eq, Bool.not_eq_true'] at run
  have walk : Reaches boxStep Smooth ⟨begin r 1, oneBox, false, []⟩
      (drive boxStep boxTurns 160 ⟨begin r 1, oneBox, false, []⟩) :=
    drive_reaches boxTurns_smooth 160 _
  have result := (holds 3 (by decide) _ _ _ 
    [.addRenderable 0, .setFont 0 (some ()), .setText 0 [97]] oneBox 0 rfl (by decide) _ walk).1
  rw [run.1, run.2] at result
  exact ⟨r, built, _, walk, run.1, result⟩

end

end RenderingScreen
