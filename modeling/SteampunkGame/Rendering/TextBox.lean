import Mathlib.Data.Rat.Floor
import SteampunkGame.Lib.Runs
import SteampunkGame.Lib.Sweep

/-!
`rendering::text_box` between the calls of its setters and the frames of
`render_job`. A frame makes a new texture if the box is marked, and its last
loop moves the colour of every box one hue on. The answers of SDL and the order
of the hash map are chosen anew in each frame.
-/
namespace RenderingTextBox
open Runs Sweep

/-- The arithmetic of `float`, with the values of its literals. -/
class Single (F : Type) extends Add F, Sub F, Mul F where
  lit : Rat → F
  fmod : F → F → F
  toInt : F → Int
  less : F → F → Bool
open Single

structure Color where
  r : UInt8
  g : UInt8
  b : UInt8
  a : UInt8
  deriving DecidableEq, Repr

section
variable {F : Type} [Single F]

def byte (x : F) : UInt8 := UInt8.ofInt (toInt (x * lit 255))

def hsv2rgb (h s v : F) : Color :=
  let h := fmod h (lit 1)
  let i := toInt (h * lit 6)
  let f := h * lit 6 - lit i
  let p := v * (lit 1 - s)
  let q := v * (lit 1 - s * f)
  let t := v * (lit 1 - s * (lit 1 - f))
  match i.tmod 6 with
  | 0 => ⟨byte v, byte t, byte p, 255⟩
  | 1 => ⟨byte q, byte v, byte p, 255⟩
  | 2 => ⟨byte p, byte v, byte t, 255⟩
  | 3 => ⟨byte p, byte q, byte v, 255⟩
  | 4 => ⟨byte t, byte p, byte v, 255⟩
  | _ => ⟨byte v, byte p, byte q, 255⟩

end

/-- What a picture of the text is produced from. -/
structure Content (Font : Type) where
  font : Option Font
  text : List Int8
  color : Color
  deriving DecidableEq, Repr

structure Surface (Font : Type) where
  content : Content Font
  w : Int32
  h : Int32
  deriving DecidableEq, Repr

/-- `rect` is the size only; the position is not read in a frame but by SDL. -/
structure TextBox (F Font : Type) where
  marked : Bool
  font : Option Font
  surface : Option (Surface Font)
  texture : Option (Content Font)
  color : Color
  rect : Int32 × Int32
  h : F
  text : List Int8

/-- The two fallible calls of `pre_render`, and the size of the surface. -/
inductive Drawing where
  | noSurface
  | noTexture (w h : Int32)
  | drawn (w h : Int32)
  deriving DecidableEq, Repr

def Drawing.fails : Drawing → Bool
  | .noSurface | .noTexture _ _ => true
  | .drawn _ _ => false

section
variable {F Font : Type}

def TextBox.content (b : TextBox F Font) : Content Font := ⟨b.font, b.text, b.color⟩

def TextBox.setColor (b : TextBox F Font) (value : Color) : TextBox F Font :=
  { b with color := value, marked := true }

def TextBox.setText (b : TextBox F Font) (value : List Int8) : TextBox F Font :=
  { b with text := value, marked := true }

def TextBox.setFont (b : TextBox F Font) (font : Option Font) : TextBox F Font :=
  { b with font := font, marked := true }

def TextBox.preRender (b : TextBox F Font) : Drawing → Except (TextBox F Font) (TextBox F Font)
  | .noSurface => .error { b with surface := none }
  | .noTexture w h => .error { b with surface := some ⟨b.content, w, h⟩, texture := none }
  | .drawn w h =>
      .ok { b with surface := some ⟨b.content, w, h⟩, texture := some b.content, rect := (w, h) }

def TextBox.preRenderIfMarked (b : TextBox F Font) (drawing : Drawing) :
    Except (TextBox F Font) (TextBox F Font) :=
  if b.marked then { b with marked := false }.preRender drawing else .ok b

variable [Single F]

def TextBox.fresh : TextBox F Font :=
  ⟨false, none, none, none, ⟨255, 255, 255, 255⟩, (0, 0), lit 0, []⟩

def TextBox.nextHue (b : TextBox F Font) : F := b.h + lit (1 / 1000)

def TextBox.nextColor (b : TextBox F Font) : Color := hsv2rgb b.nextHue (lit 1) (lit 1)

def TextBox.render (b : TextBox F Font) : TextBox F Font :=
  { b with
    color := b.nextColor
    h := if less (lit 1) b.nextHue then lit 0 else b.nextHue }

end

/-- `called` records which boxes had a setter called; no step reads it. -/
structure Scene (I F Font : Type) where
  boxes : I → TextBox F Font
  renderables : List I
  initialized : Bool
  called : I → Bool

/-- `get_font` in `setFont` throws or returns a pointer, which may be null. In
    `execute` the first run calls `init`, which may throw. -/
inductive Action (I Font : Type) where
  | setText (x : I) (value : List Int8)
  | setColor (x : I) (value : Color)
  | setFont (x : I) (font : Option (Option Font))
  | addRenderable (x : I)
  | execute (init : Bool) (order : List I) (drawing : I → Drawing)

section
variable {I F Font : Type} [DecidableEq I]

def Scene.set (s : Scene I F Font) (x : I) (b : TextBox F Font) : Scene I F Font :=
  { s with boxes := Function.update s.boxes x b, called := Function.update s.called x true }

variable [Single F]

def Scene.fresh : Scene I F Font := ⟨fun _ => .fresh, [], false, fun _ => false⟩

/-- An exception of `pre_render` leaves out the rest of the frame. -/
def present (boxes : I → TextBox F Font) (order : List I) (drawing : I → Drawing) :
    Except (I → TextBox F Font) (I → TextBox F Font) := do
  let marked ← sweep (fun x b => b.preRenderIfMarked (drawing x)) order boxes
  sweep (fun _ b => .ok b.render) order marked

/-- The worker goes on after an exception. -/
def Scene.execute (s : Scene I F Font) (init : Bool) (order : List I) (drawing : I → Drawing) :
    Scene I F Font :=
  if s.initialized || init then
    { s with boxes := outcome (present s.boxes order drawing), initialized := true }
  else s

def step (s : Scene I F Font) : Action I Font → Option (Scene I F Font)
  | .setText x value => some (s.set x ((s.boxes x).setText value))
  | .setColor x value => some (s.set x ((s.boxes x).setColor value))
  | .setFont x (some font) => some (s.set x ((s.boxes x).setFont font))
  | .setFont x none => some (s.set x (s.boxes x))
  | .addRenderable x =>
      if x ∈ s.renderables then some s
      else some { s with renderables := s.renderables ++ [x] }
  | .execute init order drawing =>
      if order.Perm s.renderables then some (s.execute init order drawing) else none

end

section
variable {I F Font : Type} [DecidableEq I]

/-- A box that is not marked shows what it has. -/
def Current (b : TextBox F Font) : Prop := b.marked = false → b.texture = some b.content

/-- From the first call of a setter on. -/
def Shown (x : I) (s : Scene I F Font) : Prop := s.called x = true → Current (s.boxes x)

/-- The box whose `pre_render` ends the frame, if the frame gets to it. -/
def stops (boxes : I → TextBox F Font) (drawing : I → Drawing) (x : I) : Bool :=
  (boxes x).marked && (drawing x).fails

/-- How `pre_render` may end for a marked box: it may only stay without a new
    surface if it has the right texture anyway. -/
def Drawing.Keeps (b : TextBox F Font) : Drawing → Prop
  | .noSurface => b.texture = some b.content
  | .noTexture _ _ => False
  | .drawn _ _ => True

/-- A frame that leaves the box as it should be. A frame that gets to its last
    loop gives the box its next colour, which has to be the one it has. -/
structure FrameOk [Single F] (x : I) (boxes : I → TextBox F Font) (order : List I)
    (drawing : I → Drawing) : Prop where
  keeps : reached (stops boxes drawing) x order = true → (boxes x).marked = true →
    (drawing x).Keeps (boxes x)
  hue : x ∈ order → (∀ y ∈ order, stops boxes drawing y = false) →
    (boxes x).nextColor = (boxes x).color

/-- The first setter must not be a `set_font` that throws, and each frame has to
    leave the box as it should be. -/
def StepOk [Single F] (x : I) (s : Scene I F Font) : Action I Font → Prop
  | .setFont y none => y = x → s.called x = true
  | .execute init order drawing => s.called x = true → (s.initialized || init) = true →
      FrameOk x s.boxes order drawing
  | _ => True

/-- What holds of a box in every run, beside the property itself. -/
structure Tracked (x : I) (s : Scene I F Font) : Prop where
  once : s.renderables.Nodup
  untouched : s.called x = false → (s.boxes x).marked = false ∧ (s.boxes x).texture = none

theorem current_marked {b : TextBox F Font} (marked : b.marked = true) : Current b := by
  intro clear
  rw [marked] at clear
  cases clear

theorem preRenderIfMarked_failed (b : TextBox F Font) (drawing : Drawing) :
    failed (b.preRenderIfMarked drawing) = (b.marked && drawing.fails) := by
  rw [TextBox.preRenderIfMarked]
  cases b.marked with
  | false => rfl
  | true => cases drawing <;> rfl

theorem preRenderIfMarked_clear {b : TextBox F Font} (clear : b.marked = false)
    (drawing : Drawing) : b.preRenderIfMarked drawing = .ok b := by
  rw [TextBox.preRenderIfMarked, clear]
  rfl

/-- After its turn in the first loop a box is not marked, whatever happened. -/
theorem preRenderIfMarked_marked (b : TextBox F Font) (drawing : Drawing) :
    (outcome (b.preRenderIfMarked drawing)).marked = false := by
  cases marked : b.marked with
  | false =>
    rw [preRenderIfMarked_clear marked]
    exact marked
  | true =>
    rw [TextBox.preRenderIfMarked, marked]
    cases drawing <;> rfl

theorem preRenderIfMarked_current {b : TextBox F Font} (current : Current b)
    (drawing : Drawing) :
    Current (outcome (b.preRenderIfMarked drawing)) ↔ (b.marked = true → drawing.Keeps b) := by
  cases marked : b.marked with
  | false =>
    rw [preRenderIfMarked_clear marked]
    exact iff_of_true current fun impossible => by cases impossible
  | true =>
    rw [TextBox.preRenderIfMarked, marked]
    cases drawing with
    | noSurface => exact ⟨fun shown _ => shown rfl, fun keeps _ => keeps rfl⟩
    | noTexture w h =>
      refine ⟨fun shown => ?_, fun keeps => (keeps rfl).elim⟩
      cases shown rfl
    | drawn w h => exact iff_of_true (fun _ => rfl) fun _ => trivial

variable [Single F]

theorem preRenderIfMarked_hue (b : TextBox F Font) (drawing : Drawing) :
    (outcome (b.preRenderIfMarked drawing)).nextColor = b.nextColor ∧
      (outcome (b.preRenderIfMarked drawing)).color = b.color := by
  rw [TextBox.preRenderIfMarked]
  cases b.marked with
  | false => exact ⟨rfl, rfl⟩
  | true => cases drawing <;> exact ⟨rfl, rfl⟩

/-- The last loop changes the colour behind the flag's back. -/
theorem render_current {b : TextBox F Font} (clear : b.marked = false) (current : Current b) :
    Current b.render ↔ b.nextColor = b.color := by
  have texture := current clear
  constructor
  · intro shown
    have same : b.texture = some b.render.content := shown clear
    rw [texture, Option.some.injEq] at same
    exact (congrArg Content.color same).symm
  · intro same _
    have kept : b.render.content = b.content := by
      rw [TextBox.content, TextBox.render, same]
      rfl
    rw [kept]
    exact texture

/-- What a frame does to one box: the first loop may not get to it, and the last
    one is only run if no box ends the frame. -/
theorem present_box {order : List I} (once : order.Nodup) (boxes : I → TextBox F Font)
    (drawing : I → Drawing) (x : I) :
    outcome (present boxes order drawing) x =
      if x ∈ order ∧ ∀ y ∈ order, stops boxes drawing y = false then
        (outcome ((boxes x).preRenderIfMarked (drawing x))).render
      else if reached (stops boxes drawing) x order then
        outcome ((boxes x).preRenderIfMarked (drawing x))
      else boxes x := by
  have turns : ∀ y, failed ((boxes y).preRenderIfMarked (drawing y)) = stops boxes drawing y :=
    fun y => preRenderIfMarked_failed (boxes y) (drawing y)
  have first := sweep_cell (fun x b => b.preRenderIfMarked (drawing x)) once boxes x
  have whole := sweep_failed (fun x b => b.preRenderIfMarked (drawing x)) once boxes
  simp only [turns] at first whole
  rw [present]
  cases run : sweep (fun x b => b.preRenderIfMarked (drawing x)) order boxes with
  | error cells =>
    rw [run] at first whole
    have ends : ¬ (x ∈ order ∧ ∀ y ∈ order, stops boxes drawing y = false) := by
      rintro ⟨_, fine⟩
      cases whole.mpr fine
    rw [if_neg ends]
    exact first
  | ok cells =>
    rw [run] at first whole
    have fine := whole.mp rfl
    by_cases among : x ∈ order
    · rw [if_pos (reached_all among fine)] at first
      rw [if_pos ⟨among, fine⟩, ← first]
      exact sweep_each (fun _ b => b.render) once cells among
    · have never : reached (stops boxes drawing) x order = false := by
        rw [Bool.eq_false_iff]
        exact fun gets => among (reached_mem gets)
      rw [never] at first
      rw [if_neg fun both => among both.1, never]
      exact (sweep_absent _ among cells).trans first

/-- A frame keeps the property exactly if it is as described. -/
theorem present_current {order : List I} (once : order.Nodup) {boxes : I → TextBox F Font}
    (drawing : I → Drawing) {x : I} (current : Current (boxes x)) :
    Current (outcome (present boxes order drawing) x) ↔ FrameOk x boxes order drawing := by
  have turn := preRenderIfMarked_current current (drawing x)
  rw [present_box once]
  by_cases ends : x ∈ order ∧ ∀ y ∈ order, stops boxes drawing y = false
  · obtain ⟨among, fine⟩ := ends
    have keeps : (boxes x).marked = true → (drawing x).Keeps (boxes x) := by
      intro marked
      have works := fine x among
      rw [stops, marked, Bool.true_and] at works
      cases answer : drawing x with
      | noSurface => rw [answer] at works; cases works
      | noTexture w h => rw [answer] at works; cases works
      | drawn w h => trivial
    obtain ⟨next, color⟩ := preRenderIfMarked_hue (boxes x) (drawing x)
    rw [if_pos ⟨among, fine⟩, render_current (preRenderIfMarked_marked _ _) (turn.mpr keeps), next,
      color]
    exact ⟨fun same => ⟨fun _ => keeps, fun _ _ => same⟩, fun ok => ok.hue among fine⟩
  · rw [if_neg ends]
    have hue : x ∈ order → (∀ y ∈ order, stops boxes drawing y = false) →
        (boxes x).nextColor = (boxes x).color := fun among fine => absurd ⟨among, fine⟩ ends
    by_cases gets : reached (stops boxes drawing) x order = true
    · rw [if_pos gets, turn]
      exact ⟨fun keeps => ⟨fun _ => keeps, hue⟩, fun ok => ok.keeps gets⟩
    · rw [if_neg gets]
      exact iff_of_true current ⟨fun goes => absurd goes gets, hue⟩

theorem present_clear {order : List I} (once : order.Nodup) {boxes : I → TextBox F Font}
    (drawing : I → Drawing) {x : I} (clear : (boxes x).marked = false) :
    (outcome (present boxes order drawing) x).marked = false ∧
      (outcome (present boxes order drawing) x).texture = (boxes x).texture := by
  rw [present_box once, preRenderIfMarked_clear clear]
  split
  · exact ⟨clear, rfl⟩
  · split <;> exact ⟨clear, rfl⟩

omit [Single F] in
theorem set_shown {s : Scene I F Font} {x : I} (shown : Shown x s) (y : I)
    (b : TextBox F Font) : Shown x (s.set y b) ↔ (y = x → Current b) := by
  by_cases this : y = x
  · subst this
    simp only [Shown, Scene.set, Function.update_self, true_implies]
  · simp only [Shown, Scene.set, Function.update_of_ne (Ne.symm this)]
    exact iff_of_true shown fun same => absurd same this

omit [Single F] in
theorem set_tracked {s : Scene I F Font} {x : I} (tracked : Tracked x s) (y : I)
    (b : TextBox F Font) : Tracked x (s.set y b) := by
  refine ⟨tracked.once, ?_⟩
  by_cases this : y = x
  · subst this
    simp [Scene.set]
  · simp only [Scene.set, Function.update_of_ne (Ne.symm this)]
    exact tracked.untouched

omit [DecidableEq I] in
theorem tracked_fresh (x : I) : Tracked x (Scene.fresh : Scene I F Font) :=
  ⟨List.nodup_nil, fun _ => ⟨rfl, rfl⟩⟩

omit [DecidableEq I] in
theorem shown_fresh (x : I) : Shown x (Scene.fresh : Scene I F Font) := by
  intro called
  cases called

theorem tracked_step {s t : Scene I F Font} {x : I} {a : Action I Font} (tracked : Tracked x s)
    (run : step s a = some t) : Tracked x t := by
  cases a with
  | setText y value | setColor y value =>
    cases run
    exact set_tracked tracked y _
  | setFont y font =>
    cases font <;> (cases run; exact set_tracked tracked y _)
  | addRenderable y =>
    simp only [step] at run
    split at run
    · cases run
      exact tracked
    · rename_i new
      cases run
      have once : (s.renderables ++ [y]).Nodup := by
        rw [List.nodup_append]
        refine ⟨tracked.once, by simp, ?_⟩
        rintro z old w last rfl
        exact new (List.mem_singleton.mp last ▸ old)
      exact ⟨once, tracked.untouched⟩
  | execute init order drawing =>
    simp only [step] at run
    split at run
    · rename_i permuted
      have once := permuted.nodup_iff.mpr tracked.once
      cases run
      rw [Scene.execute]
      split
      · refine ⟨tracked.once, fun never => ?_⟩
        obtain ⟨clear, none⟩ := tracked.untouched never
        obtain ⟨still, same⟩ := present_clear once drawing clear
        exact ⟨still, same.trans none⟩
      · exact tracked
    · cases run

/-- Each step of a run keeps the property exactly if it meets the condition. -/
theorem shown_step {s t : Scene I F Font} {x : I} {a : Action I Font} (tracked : Tracked x s)
    (shown : Shown x s) (run : step s a = some t) : Shown x t ↔ StepOk x s a := by
  cases a with
  | setText y value | setColor y value =>
    cases run
    rw [set_shown shown]
    exact iff_of_true (fun _ => current_marked rfl) trivial
  | setFont y font =>
    cases font with
    | some font =>
      cases run
      rw [set_shown shown]
      exact iff_of_true (fun _ => current_marked rfl) trivial
    | none =>
      cases run
      rw [set_shown shown]
      refine forall_congr' ?_
      rintro rfl
      cases called : s.called y with
      | true => exact iff_of_true (shown called) rfl
      | false =>
        obtain ⟨clear, none⟩ := tracked.untouched called
        refine iff_of_false (fun current => ?_) Bool.false_ne_true
        rw [current clear] at none
        cases none
  | addRenderable y =>
    simp only [step] at run
    split at run
    · cases run
      exact iff_of_true shown trivial
    · cases run
      exact iff_of_true shown trivial
  | execute init order drawing =>
    simp only [step] at run
    split at run
    · rename_i permuted
      have once := permuted.nodup_iff.mpr tracked.once
      cases run
      rw [Scene.execute]
      by_cases ready : (s.initialized || init) = true
      · rw [if_pos ready]
        refine forall_congr' fun called => ?_
        rw [present_current once drawing (shown called)]
        exact ⟨fun ok _ => ok, fun ok => ok ready⟩
      · rw [if_neg ready]
        exact iff_of_true shown fun _ goes => absurd goes ready
    · cases run

/-- A box shows its current content in every run whose steps meet the
    condition, and the first step that does not meet it ends that at once. -/
theorem text_box_shown (x : I) :
    (∀ s : Scene I F Font, Reaches step (StepOk x) .fresh s → Shown x s) ∧
      ∀ (s t : Scene I F Font) (a : Action I Font), Reaches step (StepOk x) .fresh s →
        step s a = some t → ¬ StepOk x s a → ¬ Shown x t := by
  have both : ∀ s : Scene I F Font, Reaches step (StepOk x) .fresh s →
      Tracked x s ∧ Shown x s := by
    intro s walk
    refine reaches_invariant (I := fun s => Tracked x s ∧ Shown x s) ?_ walk
      ⟨tracked_fresh x, shown_fresh x⟩
    intro s a t before allowed run
    exact ⟨tracked_step before.1 run, (shown_step before.1 before.2 run).mpr allowed⟩
  refine ⟨fun s walk => (both s walk).2, fun s t a walk run broken shown => ?_⟩
  obtain ⟨tracked, before⟩ := both s walk
  exact broken ((shown_step tracked before run).mp shown)

end

/-- Numbers without rounding, which none of the colours below depends on. -/
instance : Single Rat where
  lit q := q
  fmod x y := x - y * (x / y).num.tdiv (x / y).den
  toInt q := q.num.tdiv q.den
  less x y := decide (x < y)

abbrev OneBox := Scene UInt32 Rat Unit

def startUp : List (Action UInt32 Unit) :=
  [.addRenderable 0, .setFont 0 (some (some ())), .setText 0 [97]]

def frame (drawing : Drawing) : Action UInt32 Unit := .execute true [0] fun _ => drawing

/-- A frame without a surface leaves no texture and no mark, and one that draws
    the text in white leaves a box of another colour. -/
theorem text_box_stale :
    (∃ s : OneBox, runActions step (startUp ++ [frame .noSurface]) .fresh = some s ∧
      (s.boxes 0).texture = none ∧ ¬ Shown 0 s) ∧
    ∃ s : OneBox, runActions step (startUp ++ [frame (.drawn 8 16)]) .fresh = some s ∧
      (s.boxes 0).texture = some ⟨some (), [97], ⟨255, 255, 255, 255⟩⟩ ∧
      (s.boxes 0).color = ⟨255, 1, 0, 255⟩ ∧ ¬ Shown 0 s := by
  refine ⟨⟨_, rfl, rfl, fun shown => ?_⟩, ⟨_, rfl, rfl, ?_, fun shown => ?_⟩⟩
  · have impossible := shown rfl rfl
    cases impossible
  · decide +kernel
  · have same := shown rfl rfl
    revert same
    decide +kernel

/-- A box with a font and a text, of the colour that comes next, is shown by the
    first frame, and the second one moves its colour on. -/
theorem text_box_shown_once :
    ∃ s t : OneBox, Shown 0 s ∧ s.called 0 = true ∧ (s.boxes 0).marked = false ∧
      (s.boxes 0).content = ⟨some (), [97], ⟨255, 1, 0, 255⟩⟩ ∧
      step s (frame (.drawn 8 16)) = some t ∧ ¬ Shown 0 t := by
  have set : Reaches step (StepOk 0) (.fresh : OneBox) _ :=
    (((Relation.ReflTransGen.refl.tail ⟨.addRenderable 0, trivial, rfl⟩).tail
      ⟨.setFont 0 (some (some ())), trivial, rfl⟩).tail ⟨.setText 0 [97], trivial, rfl⟩).tail
      ⟨.setColor 0 ⟨255, 1, 0, 255⟩, trivial, rfl⟩
  have drawn : Reaches step (StepOk 0) (.fresh : OneBox) _ :=
    set.tail ⟨frame (.drawn 8 16), fun _ _ => ⟨fun _ _ => trivial, fun _ _ => by decide +kernel⟩,
      rfl⟩
  refine ⟨_, _, (text_box_shown 0).1 _ drawn, rfl, rfl, by decide +kernel, rfl, ?_⟩
  refine (text_box_shown 0).2 _ _ (frame (.drawn 8 16)) drawn rfl fun ok => ?_
  have same := (ok rfl rfl).hue (List.mem_singleton_self 0) fun _ _ => Bool.and_false _
  revert same
  decide +kernel

end RenderingTextBox
