import Mathlib.Dynamics.PeriodicPts.Defs
import SteampunkGame.Rendering.HsvColor

/-!
The colours that the frames of `render_job` give to a text box, in any run. The
hue goes on by the `float` that is nearest to a thousandth, so the sum of a
thousand steps is a little less than one and the cycle has a frame more.
-/
namespace RenderingRainbow
open Rounding RenderingTextBox RenderingHsvColor Single Runs Sweep

/-- What `render` does to `h`. -/
def advance (h : Binary32) : Binary32 :=
  if less (lit 1) (h + lit (1 / 1000)) then lit 0 else h + lit (1 / 1000)

def hue (k : Nat) : Binary32 := advance^[k] (lit 0)
def shade (k : Nat) : Color := hsv2rgb (hue k + lit (1 / 1000)) (lit 1) (lit 1)

/-- In units of `2⁻³³`, the last bit of the step. -/
def advanceUnits (m : Nat) : Nat :=
  if 2 ^ 33 < nearestNat binary32 (m + 8589935) then 0 else nearestNat binary32 (m + 8589935)

/-- The matching evaluates the number before it is passed on. -/
def passOn (f : Nat → Bool) : Nat → Bool
  | 0 => f 0
  | n + 1 => f (n + 1)

/-- Within a hundred-thousandth of `k` thousandths. -/
def onTime (k m : Nat) : Bool :=
  decide (100000 * m ≤ 100 * k * 2 ^ 33 + 2 ^ 33) && decide (100 * k * 2 ^ 33 ≤ 100000 * m + 2 ^ 33)

/-- Some steps from the `k`-th on that end at zero. -/
def steady : Nat → Nat → Nat → Bool
  | 0, _, m => m == 0
  | n + 1, k, m => onTime k m &&
      passOn (fun next => passOn (fun later => steady n later next) (k + 1)) (advanceUnits m)

section
variable {I Font : Type} [DecidableEq I]

/-- The steps in which the last loop of `present` gets to the box. -/
def painted (x : I) (s : Scene I Binary32 Font) : Action I Font → Bool
  | .execute init order drawing =>
      (s.initialized || init) && decide (x ∈ order) &&
        order.all fun y => !stops s.boxes drawing y
  | _ => false

def paintings (x : I) : List (Action I Font) → Scene I Binary32 Font → Nat
  | [], _ => 0
  | a :: rest, s =>
      match step s a with
      | some t => (painted x s a).toNat + paintings x rest t
      | none => 0

end

theorem passOn_eq (f : Nat → Bool) (n : Nat) : passOn f n = f n := by
  cases n <;> rfl

theorem steady_spec {n k m : Nat} (run : steady n k m = true) :
    advanceUnits^[n] m = 0 ∧ ∀ j < n, onTime (k + j) (advanceUnits^[j] m) = true := by
  induction n generalizing k m with
  | zero => exact ⟨beq_iff_eq.mp run, fun j less => absurd less (Nat.not_lt_zero j)⟩
  | succ n ih =>
    rw [steady, passOn_eq, passOn_eq, Bool.and_eq_true] at run
    obtain ⟨here, rest⟩ := run
    obtain ⟨last, each⟩ := ih rest
    refine ⟨(Function.iterate_succ_apply advanceUnits n m).trans last, fun j less => ?_⟩
    cases j with
    | zero => exact here
    | succ j =>
      rw [Function.iterate_succ_apply, Nat.add_left_comm, Nat.add_comm j]
      exact each j (Nat.lt_of_succ_lt_succ less)

theorem steady_cycle : steady 1001 0 0 = true := by decide +kernel

theorem advance_units {h : Binary32} {m : Nat} (eq : h.val = m * 2 ^ (-33 : Int)) :
    (advance h).val = advanceUnits m * 2 ^ (-33 : Int) := by
  have thousandth : (lit (1 / 1000) : Binary32).val = 8589935 * 2 ^ (-33 : Int) := by
    decide +kernel
  have next : (h + lit (1 / 1000)).val =
      nearestNat binary32 (m + 8589935) * 2 ^ (-33 : Int) := by
    rw [val_add, eq, thousandth, ← add_mul, ← nearest_scaled (by decide)]
    push_cast
    rfl
  have beyond : less (lit 1) (h + lit (1 / 1000)) = true ↔
      2 ^ 33 < nearestNat binary32 (m + 8589935) := by
    have same : less (lit 1) (h + lit (1 / 1000)) =
        decide ((lit 1 : Binary32).val < (h + lit (1 / 1000)).val) := rfl
    rw [same, decide_eq_true_eq, lit_one, next, zpow_neg, ← div_eq_mul_inv,
      one_lt_div (by positivity)]
    exact_mod_cast Iff.rfl
  rw [advance, advanceUnits]
  simp only [beyond]
  split
  · rw [lit_zero, Nat.cast_zero, zero_mul]
  · exact next

theorem hue_units (k : Nat) : (hue k).val = advanceUnits^[k] 0 * 2 ^ (-33 : Int) := by
  induction k with
  | zero => rw [hue, Function.iterate_zero, id, lit_zero, Function.iterate_zero, id, Nat.cast_zero,
      zero_mul]
  | succ k ih =>
    rw [hue, Function.iterate_succ_apply', Function.iterate_succ_apply']
    exact advance_units ih

theorem hue_cycle (k : Nat) : hue (k % 1001) = hue k := by
  have period : Function.IsPeriodicPt advance 1001 (lit 0) := by
    apply Subtype.ext
    have last := hue_units 1001
    rw [(steady_spec steady_cycle).1, Nat.cast_zero, zero_mul] at last
    exact last.trans lit_zero.symm
  exact period.iterate_mod_apply k

theorem hue_close {k : Nat} (less : k < 1001) :
    0 ≤ (hue k).val ∧ |(hue k).val - k / 1000| ≤ 1 / 100000 := by
  have time := (steady_spec steady_cycle).2 k less
  rw [Nat.zero_add, onTime, Bool.and_eq_true, decide_eq_true_eq, decide_eq_true_eq] at time
  rw [hue_units, zpow_neg, ← div_eq_mul_inv]
  generalize advanceUnits^[k] 0 = m at time
  have above : (100000 * m : Rat) ≤ 100 * k * 2 ^ 33 + 2 ^ 33 := by exact_mod_cast time.1
  have below : (100 * k * 2 ^ 33 : Rat) ≤ 100000 * m + 2 ^ 33 := by exact_mod_cast time.2
  refine ⟨by positivity, ?_⟩
  rw [abs_le]
  have unit : (2 : Rat) ^ (33 : Int) = 2 ^ 33 := by norm_num
  rw [unit]
  constructor <;> linarith

section
variable {I Font : Type} [DecidableEq I]

omit [DecidableEq I] in
theorem preRenderIfMarked_h (b : TextBox Binary32 Font) (drawing : Drawing) :
    (outcome (b.preRenderIfMarked drawing)).h = b.h := by
  rw [TextBox.preRenderIfMarked]
  cases b.marked with
  | false => rfl
  | true => cases drawing <;> rfl

theorem set_h (s : Scene I Binary32 Font) (x y : I) {b : TextBox Binary32 Font}
    (same : b.h = (s.boxes y).h) : ((s.set y b).boxes x).h = (s.boxes x).h := by
  by_cases this : x = y
  · subst this
    simp only [Scene.set, Function.update_self, same]
  · simp only [Scene.set, Function.update_of_ne this]

/-- What a step does to the hue of a box, and to its colour if it paints it. -/
theorem painted_step {s t : Scene I Binary32 Font} {x : I} {a : Action I Font}
    (tracked : Tracked x s) (run : step s a = some t) :
    (t.boxes x).h = advance^[(painted x s a).toNat] (s.boxes x).h ∧
      (painted x s a = true →
        (t.boxes x).color = hsv2rgb ((s.boxes x).h + lit (1 / 1000)) (lit 1) (lit 1)) := by
  cases a with
  | setText y value | setColor y value =>
    cases run
    exact ⟨set_h s x y rfl, fun never => by cases never⟩
  | setFont y font =>
    cases font <;> (cases run; exact ⟨set_h s x y rfl, fun never => by cases never⟩)
  | addRenderable y =>
    simp only [step] at run
    split at run <;> (cases run; exact ⟨rfl, fun never => by cases never⟩)
  | execute init order drawing =>
    simp only [step] at run
    split at run
    · rename_i permuted
      have once := permuted.nodup_iff.mpr tracked.once
      cases run
      rw [Scene.execute, painted]
      by_cases ready : (s.initialized || init) = true
      · have whole := present_box once s.boxes drawing x
        have all : (decide (x ∈ order) && order.all fun y => !stops s.boxes drawing y) = true ↔
            x ∈ order ∧ ∀ y ∈ order, stops s.boxes drawing y = false := by
          simp
        rw [if_pos ready, ready, Bool.true_and]
        simp only [whole]
        by_cases ends : x ∈ order ∧ ∀ y ∈ order, stops s.boxes drawing y = false
        · rw [if_pos ends, all.mpr ends]
          have kept := preRenderIfMarked_h (s.boxes x) (drawing x)
          simp only [TextBox.render, TextBox.nextColor, TextBox.nextHue, kept]
          exact ⟨rfl, fun _ => trivial⟩
        · rw [if_neg ends, Bool.eq_false_iff.mpr (all.not.mpr ends)]
          refine ⟨?_, fun never => by cases never⟩
          split
          · exact preRenderIfMarked_h (s.boxes x) (drawing x)
          · rfl
      · rw [if_neg ready, Bool.eq_false_iff.mpr ready]
        exact ⟨rfl, fun never => by cases never⟩
    · cases run

theorem paintings_run {actions : List (Action I Font)} {s t : Scene I Binary32 Font} {x : I}
    (tracked : Tracked x s) (run : runActions step actions s = some t) :
    Tracked x t ∧ (t.boxes x).h = advance^[paintings x actions s] (s.boxes x).h := by
  induction actions generalizing s with
  | nil =>
    cases run
    exact ⟨tracked, rfl⟩
  | cons a rest ih =>
    simp only [runActions] at run
    rw [paintings]
    cases first : step s a with
    | none => rw [first] at run; cases run
    | some next =>
      rw [first] at run
      obtain ⟨after, moved⟩ := ih (tracked_step tracked first) run
      rw [(painted_step tracked first).1, ← Function.iterate_add_apply, Nat.add_comm] at moved
      exact ⟨after, moved⟩

/-- After any run the hue of a box is a function of the number of frames that
    have painted it, modulo 1001: as many thousandths, up to the rounding of
    the sums. The next frame that paints it gives it the colour of the hue after
    that, at full saturation and brightness. -/
theorem rainbow_cycle (x : I) (actions : List (Action I Font)) (s : Scene I Binary32 Font)
    (run : runActions step actions .fresh = some s) :
    (s.boxes x).h = hue (paintings x actions .fresh % 1001) ∧
      |(s.boxes x).h.val - (paintings x actions .fresh % 1001 : Nat) / 1000| ≤ 1 / 100000 ∧
      ∀ a t, step s a = some t → painted x s a = true →
        (t.boxes x).color = shade (paintings x actions .fresh % 1001) ∧
        max (t.boxes x).color.r.toNat (max (t.boxes x).color.g.toNat (t.boxes x).color.b.toNat) =
          255 ∧
        min (t.boxes x).color.r.toNat (min (t.boxes x).color.g.toNat (t.boxes x).color.b.toNat) =
          0 ∧
        (t.boxes x).color.a = 255 := by
  obtain ⟨tracked, moved⟩ := paintings_run (tracked_fresh x) run
  have same : (s.boxes x).h = hue (paintings x actions .fresh % 1001) := by
    rw [hue_cycle]
    exact moved
  have below : paintings x actions .fresh % 1001 < 1001 := Nat.mod_lt _ (by decide)
  obtain ⟨above, close⟩ := hue_close below
  refine ⟨same, ?_, fun a t next paints => ?_⟩
  · rw [same]
    exact close
  · have color := (painted_step tracked next).2 paints
    rw [same] at color
    have one : Within 0 1 (lit 1) := ⟨zero_le_one.trans lit_one.ge, lit_one.le⟩
    have next : 0 ≤ (hue (paintings x actions .fresh % 1001) + lit (1 / 1000)).val :=
      nearest_nonneg (add_nonneg above (nearest_nonneg (by norm_num)))
    obtain ⟨_, _, _, solid, brightest, darkest⟩ := hsv2rgb_close _ _ _ next one one
    have full : (byte (lit 1 : Binary32)).toNat = 255 := by decide +kernel
    have empty : (byte (lit 1 * (lit 1 - lit 1) : Binary32)).toNat = 0 := by decide +kernel
    rw [color]
    exact ⟨rfl, brightest.trans full, darkest.trans empty, solid⟩

end

/-- The first frame after the setters, and the colour of the second. -/
theorem rainbow_cycle_one : ∃ s t : Scene UInt32 Binary32 Unit,
    runActions step (startUp ++ [frame (.drawn 8 16)]) .fresh = some s ∧
    step s (frame (.drawn 8 16)) = some t ∧ |(s.boxes 0).h.val - 1 / 1000| ≤ 1 / 100000 ∧
    (t.boxes 0).color = shade 1 ∧ shade 1 = ⟨255, 3, 0, 255⟩ := by
  refine ⟨_, _, rfl, rfl, ?_⟩
  obtain ⟨_, close, next⟩ := rainbow_cycle 0 (startUp ++ [frame (.drawn 8 16)])
    (_ : Scene UInt32 Binary32 Unit) rfl
  have count : paintings 0 (startUp ++ [frame (.drawn 8 16)])
      (.fresh : Scene UInt32 Binary32 Unit) % 1001 = 1 := rfl
  rw [count] at close next
  exact ⟨by rwa [Nat.cast_one] at close, (next (frame (.drawn 8 16)) _ rfl rfl).1,
    by decide +kernel⟩

end RenderingRainbow
