import SteampunkGame.Rendering.Screen

/-!
The texts on the screen. A colour may be stale when a frame is presented, but a
text or a font is not: the setters mark the box, and the next present makes its
picture anew.
-/
namespace RenderingScreenText
open SchedPool SchedRunner GameWorld GameBodies GameRunning GameSnapshot Runs Sweep
open GameEvent (Request)
open RenderingTextBox RenderingHsvColor RenderingScreen
variable {E C X I F Font : Type} [DecidableEq I]

/-- What the writes make of the text and the font of a box. -/
def letter (x : I) (b : List Int8 × Option Font) : Write I Font → List Int8 × Option Font
  | .setText y value => if y = x then (value, b.2) else b
  | .setFont y font => if y = x then (b.1, font) else b
  | _ => b

/-- The text and the font after some writes. -/
def lettered (x : I) (writes : List (Write I Font)) : List Int8 × Option Font :=
  writes.foldl (letter x) ([], none)

/-- The picture of the box, if it need not be made anew. -/
def Lettered (b : TextBox F Font) : Prop :=
  b.marked = false → ∃ c, b.texture = some c ∧ (c.text, c.font) = (b.text, b.font)

variable [Single F]

/-- What holds of a box in a run of writes and frames that succeed. -/
structure Pictured (x : I) (writes : List (Write I Font)) (scene : Scene I F Font) : Prop where
  tracked : Tracked x scene
  latest : ((scene.boxes x).text, (scene.boxes x).font) = lettered x writes
  picture : scene.called x = true → Lettered (scene.boxes x)

variable {x : I} {writes : List (Write I Font)} {scene next : Scene I F Font}

omit [DecidableEq I] [Single F] in
theorem lettered_marked {b : TextBox F Font} (marked : b.marked = true) : Lettered b := by
  intro clear
  rw [marked] at clear
  cases clear

omit [Single F] in
theorem set_pictured {y : I} {b : TextBox F Font} (marked : b.marked = true)
    (picture : scene.called x = true → Lettered (scene.boxes x)) :
    (scene.set y b).called x = true → Lettered ((scene.set y b).boxes x) := by
  by_cases this : x = y
  · subst this
    simp only [Scene.set, Function.update_self]
    exact fun _ => lettered_marked marked
  · simp only [Scene.set, Function.update_of_ne this]
    exact picture

omit [Single F] in
theorem set_letter {fn : Write I Font} {y : I} {b : TextBox F Font}
    (same : letter y ((scene.boxes y).text, (scene.boxes y).font) fn = (b.text, b.font))
    (other : y ≠ x → letter x ((scene.boxes x).text, (scene.boxes x).font) fn =
      ((scene.boxes x).text, (scene.boxes x).font)) :
    (((scene.set y b).boxes x).text, ((scene.set y b).boxes x).font) =
      letter x ((scene.boxes x).text, (scene.boxes x).font) fn := by
  by_cases this : x = y
  · subst this
    simp only [Scene.set, Function.update_self, same]
  · simp only [Scene.set, Function.update_of_ne this, other (Ne.symm this)]

theorem pictured_write {fn : Write I Font} (pictured : Pictured x writes scene)
    (run : step scene fn.action = some next) : Pictured x (writes ++ [fn]) next := by
  obtain ⟨tracked, latest, picture⟩ := pictured
  refine ⟨tracked_step tracked run, ?_, ?_⟩
  · rw [lettered, List.foldl_append, List.foldl_cons, List.foldl_nil, ← lettered, ← latest]
    cases fn with
    | setText y value | setFont y font =>
      cases run
      exact set_letter (if_pos rfl) fun other => if_neg other
    | setColor y value =>
      cases run
      exact set_letter rfl fun _ => rfl
    | addRenderable y =>
      simp only [Write.action, step] at run
      split at run <;> (cases run; rfl)
  · cases fn with
    | setText y value | setColor y value | setFont y font =>
      cases run
      exact set_pictured rfl picture
    | addRenderable y =>
      simp only [Write.action, step] at run
      split at run <;> (cases run; exact picture)

/-- What a frame does to a box, if SDL draws its text. -/
theorem drawn_box {b : TextBox F Font} {drawing : Drawing} (draws : drawing.fails = false) :
    ((outcome (b.preRenderIfMarked drawing)).render.text,
      (outcome (b.preRenderIfMarked drawing)).render.font) = (b.text, b.font) ∧
      (Lettered b → Lettered (outcome (b.preRenderIfMarked drawing)).render) ∧
      (outcome (b.preRenderIfMarked drawing)).render.marked = false := by
  cases marked : b.marked with
  | false =>
    rw [preRenderIfMarked_clear marked]
    exact ⟨rfl, fun picture _ => picture marked, marked⟩
  | true =>
    rw [TextBox.preRenderIfMarked, marked]
    cases drawing with
    | noSurface | noTexture w h => cases draws
    | drawn w h => exact ⟨rfl, fun _ _ => ⟨b.content, rfl, rfl⟩, rfl⟩

theorem pictured_present {order : List I} {drawing : I → Drawing}
    (pictured : Pictured x writes scene) (draws : ∀ y, (drawing y).fails = false)
    (run : step scene (.execute true order drawing) = some next) :
    Pictured x writes next ∧ (x ∈ next.renderables → (next.boxes x).marked = false) := by
  have tracked := tracked_step pictured.tracked run
  simp only [step] at run
  split at run
  · rename_i permuted
    have once := permuted.nodup_iff.mpr pictured.tracked.once
    have ready : (scene.initialized || true) = true := Bool.or_true _
    cases run
    rw [Scene.execute, if_pos ready] at tracked ⊢
    have box := present_box once scene.boxes drawing x
    have fine : ∀ y ∈ order, stops scene.boxes drawing y = false := by
      intro y _
      rw [stops, draws y, Bool.and_false]
    by_cases among : x ∈ order
    · rw [if_pos ⟨among, fine⟩] at box
      obtain ⟨same, picture, clean⟩ := drawn_box (b := scene.boxes x) (draws x)
      rw [← box] at same picture clean
      exact ⟨⟨tracked, same.trans pictured.latest, fun set_ => picture (pictured.picture set_)⟩,
        fun _ => clean⟩
    · have unreached : ¬ reached (stops scene.boxes drawing) x order = true :=
        fun gets => among (reached_mem gets)
      rw [if_neg fun both => among both.1, if_neg unreached] at box
      refine ⟨⟨tracked, ?_, fun set_ => ?_⟩, fun inside => ?_⟩
      · simp only [box]
        exact pictured.latest
      · simp only [box]
        exact pictured.picture set_
      · exact absurd (permuted.mem_iff.mpr inside) among
  · cases run

theorem pictured_setup {setup : List (Write I Font)} {start : Scene I F Font}
    (prepared : runActions step (setup.map Write.action) .fresh = some start) (x : I) :
    Pictured x setup start := by
  induction setup using List.reverseRecOn generalizing start with
  | nil =>
    cases prepared
    exact ⟨tracked_fresh x, rfl, fun never => by cases never⟩
  | append_singleton rest fn ih =>
    rw [List.map_append, List.map_singleton, runActions_concat] at prepared
    obtain ⟨before, taken, last⟩ := Option.bind_eq_some_iff.mp prepared
    exact pictured_write (ih taken) last

variable [DecidableEq E] {n first : UInt32} {r : Runner GameJob} {fuel : Nat}
  {returns : Request C X → Bool} {char : Int8 → X} {keyDown : E} {s t : Screen E C X I F Font}
  {start : Scene I F Font} {setup : List (Write I Font)}

/-- The same of the running game. -/
structure Framed (x : I) (setup : List (Write I Font)) (s : Screen E C X I F Font) : Prop where
  pictured : Pictured x (setup ++ s.history.filterMap written) s.scene
  clean : s.presented = true → x ∈ s.scene.renderables → (s.scene.boxes x).marked = false

theorem framed_step (replayed : Replayed n first r start s) (framed : Framed x setup s)
    {a : ScreenAction E C X I Font} (smooth : Smooth s a)
    (run : screenStep n fuel returns char keyDown s a = some t) : Framed x setup t := by
  cases a with
  | run a =>
    simp only [screenStep] at run
    split at run
    · cases run
    split at run
    · cases run
    rename_i g taken
    split at run
    · split at run
      · rename_i fn front
        obtain ⟨_, still, history, stepped⟩ := act_history run
        have clear : s.presented = false := by
          rw [Bool.eq_false_iff]
          intro done
          rw [polling_unpopped replayed.alive (replayed.polling done) taken] at front
          cases front
        refine ⟨?_, fun done => ?_⟩
        · rw [history, List.filterMap_append, ← List.append_assoc, List.filterMap_cons,
            written_action]
          exact pictured_write framed.pictured stepped
        · rw [still] at done
          exact absurd (clear.symm.trans done) Bool.false_ne_true
      · cases run
        exact ⟨framed.pictured, framed.clean⟩
    · split at run <;> cases run
      exact ⟨framed.pictured, fun never => by cases never⟩
  | present init order drawing =>
    obtain ⟨rfl, draws⟩ := smooth
    simp only [screenStep] at run
    split at run
    · obtain ⟨_, _, history, stepped⟩ := act_history run
      obtain ⟨pictured, clean⟩ := pictured_present framed.pictured draws stepped
      refine ⟨?_, fun _ => clean⟩
      rw [history, List.filterMap_append]
      exact (List.append_nil (s.history.filterMap written)).symm ▸ pictured
    · cases run

/-- Any static pool and any interleaving, where nothing throws and SDL draws
    every text: when a frame has been presented, the picture of each renderable
    box that had a setter called shows its latest text in its latest font. What
    was written is the writes in the order in which they were enqueued, among
    them all that were enqueued in an earlier frame. -/
theorem text_on_screen {n first : UInt32} {pool : WorkerPool} (static : StaticPool n pool)
    (bound : first ≤ n) : ∃ r, world pool = .ok r ∧ ∀ fuel, 3 ≤ fuel →
      ∀ (returns : Request C X → Bool) (char : Int8 → X) (keyDown : E)
        (setup : List (Write I Font)) (start : Scene I F Font),
      runActions step (setup.map Write.action) .fresh = some start →
      ∀ s : Screen E C X I F Font,
      Reaches (screenStep n fuel returns char keyDown) Smooth ⟨begin r first, start, false, []⟩ s →
      s.presented = true →
      (∀ (i : Nat) (w : Nat × Option Nat × Write I Font), s.running.game.enqueued[i]? = some w →
        w.1 < s.running.game.frames → i < (called s.running.game).length) ∧
      ∀ x ∈ s.scene.renderables, s.scene.called x = true →
        ∃ c, (s.scene.boxes x).texture = some c ∧
          (c.text, c.font) = lettered x (setup ++ called s.running.game) := by
  obtain ⟨r, built, same, _⟩ := world_graph pool
  rw [← same] at static built
  refine ⟨r, by rw [← same]; exact built, ?_⟩
  intro fuel enough returns char keyDown setup start prepared s walk presented
  obtain ⟨replayed, framed⟩ := reaches_invariant (I := fun s : Screen E C X I F Font =>
      Replayed n first r start s ∧ ∀ x, Framed x setup s) (fun s a t before smooth run =>
        ⟨replayed_step static bound built enough before.1 (smooth_calm smooth) run,
          fun x => framed_step before.1 (before.2 x) smooth run⟩) walk
    ⟨replayed_begin, fun x => ⟨by rw [List.filterMap_nil, List.append_nil]
                                  exact pictured_setup prepared x, fun never => by cases never⟩⟩
  refine ⟨fun i w there early => ?_, fun x among set_ => ?_⟩
  · have applied := polling_applied replayed.alive (replayed.polling presented) there early
    rw [called, List.length_map, List.length_take]
    exact lt_min applied (List.getElem?_eq_some_iff.mp there).1
  · obtain ⟨pictured, clean⟩ := framed x
    obtain ⟨c, shown, same⟩ := pictured.picture set_ (clean presented among)
    exact ⟨c, shown, by rw [same, pictured.latest, replayed.writes]⟩

/-- The font and one text are set before the start, another text by a write. -/
theorem text_on_screen_two : ∃ r, world (filledPool 2) = .ok r ∧
    ∃ s : Screen Unit Nat Int8 UInt32 Binary32 Unit,
      Reaches boxStep Smooth ⟨begin r 1, oneBox, false, []⟩ s ∧ s.presented = true ∧
      ∃ c, (s.scene.boxes 0).texture = some c ∧ (c.text, c.font) = ([98], some ()) := by
  obtain ⟨r, built, holds⟩ := @text_on_screen Unit Nat Int8 UInt32 Binary32 Unit _ _ _ 2 1 _
    (filledPool_static (by decide)) (by decide)
  have run : ((boxStep ⟨begin r 1, oneBox, false, []⟩ (enqueue [98])).map fun first =>
      (drive boxStep boxTurns 65 first).presented &&
        decide (0 ∈ (drive boxStep boxTurns 65 first).scene.renderables) &&
        (drive boxStep boxTurns 65 first).scene.called 0 &&
        decide (called (drive boxStep boxTurns 65 first).running.game = [.setText 0 [98]])) =
      some true := by
    cases built
    decide +kernel
  simp only [Option.map_eq_some_iff, Bool.and_eq_true, decide_eq_true_eq] at run
  obtain ⟨first, one, ⟨⟨presented, among⟩, set_⟩, writes⟩ := run
  have walk : Reaches boxStep Smooth ⟨begin r 1, oneBox, false, []⟩
      (drive boxStep boxTurns 65 first) :=
    .head ⟨enqueue [98], rfl, one⟩ (drive_reaches boxTurns_smooth 65 first)
  have shown := (holds 3 (by decide) _ _ _
    [.addRenderable 0, .setFont 0 (some ()), .setText 0 [97]] oneBox rfl _ walk
    presented).2 0 among set_
  rw [writes] at shown
  exact ⟨r, built, _, walk, presented, shown⟩

end RenderingScreenText
