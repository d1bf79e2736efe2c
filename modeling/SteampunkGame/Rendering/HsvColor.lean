import Mathlib.Algebra.Order.Group.MinMax
import Mathlib.Data.UInt
import Mathlib.Tactic.IntervalCases
import SteampunkGame.Lib.Rounding
import SteampunkGame.Rendering.TextBox

/-!
`hsv2rgb` on the values of `float`, against the colour that it approximates.
-/
namespace RenderingHsvColor
open Rounding RenderingTextBox Single

/-- The finite values of `float`. -/
def Binary32 := {x : Rat // Representable binary32 x}

def rounded (x : Rat) : Binary32 := ⟨nearest binary32 x, representable_nearest binary32 x⟩

instance : Single Binary32 where
  add x y := rounded (x.val + y.val)
  sub x y := rounded (x.val - y.val)
  mul x y := rounded (x.val * y.val)
  lit := rounded
  fmod x y := rounded (x.val - y.val * truncate (x.val / y.val))
  toInt x := truncate x.val
  less x y := decide (x.val < y.val)

def Within (low high : Rat) (x : Binary32) : Prop := low ≤ x.val ∧ x.val ≤ high

/-- How much of a channel is taken away at full saturation, by the hue in
    sixths. -/
def ramp (x : Rat) : Rat := max 0 (min 1 x)
def redLack (x : Rat) : Rat := ramp (2 - |x - 3|)
def greenLack (x : Rat) : Rat := ramp (|x - 2| - 1)
def blueLack (x : Rat) : Rat := ramp (|x - 4| - 1)

/-- The code has four copies of this, two of them for the lacks 0 and 1. -/
def level (s v lack : Binary32) : Binary32 := v * (lit 1 - s * lack)

def lacks (i : Int) (f : Binary32) : Binary32 × Binary32 × Binary32 :=
  match i.tmod 6 with
  | 0 => (lit 0, lit 1 - f, lit 1)
  | 1 => (f, lit 0, lit 1)
  | 2 => (lit 1, lit 0, lit 1 - f)
  | 3 => (lit 1, f, lit 0)
  | 4 => (lit 1 - f, lit 1, lit 0)
  | _ => (lit 0, lit 1, f)

def sixths (h : Binary32) : Binary32 := fmod h (lit 1) * lit 6
def part (h : Binary32) : Binary32 := sixths h - lit (toInt (sixths h))

/-- A channel that is one of the two bytes about the exact value, up to the
    rounding of the numbers before the cast. -/
def Close (channel : UInt8) (exact : Rat) : Prop :=
  |(channel.toNat : Rat) - 255 * exact| < 1 + 1 / 2 ^ 12

variable {h s v x y : Binary32} {q : Rat}

@[simp] theorem val_add (x y : Binary32) : (x + y).val = nearest binary32 (x.val + y.val) := rfl
@[simp] theorem val_sub (x y : Binary32) : (x - y).val = nearest binary32 (x.val - y.val) := rfl
@[simp] theorem val_mul (x y : Binary32) : (x * y).val = nearest binary32 (x.val * y.val) := rfl
@[simp] theorem val_lit (q : Rat) : (lit q : Binary32).val = nearest binary32 q := rfl

theorem nearest_val (x : Binary32) : nearest binary32 x.val = x.val := nearest_exact x.2

theorem lit_int (n : Int) (few : |n| < 2 ^ 24) : (lit n : Binary32).val = n :=
  nearest_exact (representable_int few (by decide))

theorem lit_zero : (lit 0 : Binary32).val = 0 := lit_int 0 (by decide)
theorem lit_one : (lit 1 : Binary32).val = 1 := lit_int 1 (by decide)

theorem nearest_within (low high : Int) (few : |low| < 2 ^ 24 ∧ |high| < 2 ^ 24) (above : low ≤ q)
    (below : q ≤ high) : (low : Rat) ≤ nearest binary32 q ∧ nearest binary32 q ≤ high :=
  ⟨le_nearest (representable_int few.1 (by decide)) above,
    nearest_le below (representable_int few.2 (by decide))⟩

theorem nearest_unit (above : 0 ≤ q) (below : q ≤ 1) :
    0 ≤ nearest binary32 q ∧ nearest binary32 q ≤ 1 ∧ |nearest binary32 q - q| ≤ 1 / 2 ^ 25 := by
  have within := nearest_within 0 1 (by decide) (by exact_mod_cast above)
    (by exact_mod_cast below)
  have error := nearest_error_below (F := binary32) (e := 0) above (by rwa [zpow_zero]) (by decide)
  have bits : (2 : Rat) ^ ((0 : Int) - binary32.precision) / 2 = 1 / 2 ^ 25 := by
    norm_num [binary32]
  rw [bits] at error
  exact ⟨by exact_mod_cast within.1, by exact_mod_cast within.2, error⟩

theorem unit_mul (first : Within 0 1 x) (second : Within 0 1 y) : Within 0 1 (x * y) := by
  have product := nearest_unit (mul_nonneg first.1 second.1)
    (mul_le_one₀ first.2 second.1 second.2)
  exact ⟨product.1, product.2.1⟩

theorem unit_complement (unit : Within 0 1 x) : Within 0 1 (lit 1 - x) := by
  have difference := nearest_unit (sub_nonneg.mpr unit.2) (sub_le_self 1 unit.1)
  rw [← lit_one] at difference
  exact ⟨difference.1, difference.2.1.trans lit_one.le⟩

theorem level_unit (sat : Within 0 1 s) (value : Within 0 1 v) (lack : Within 0 1 x) :
    Within 0 1 (level s v x) := unit_mul value (unit_complement (unit_mul sat lack))

theorem shrink {a error : Rat} (unit : Within 0 1 x) (small : |a| ≤ error) :
    |x.val * a| ≤ error := by
  rw [abs_mul, abs_of_nonneg unit.1]
  exact (mul_le_of_le_one_left (abs_nonneg a) unit.2).trans small

/-- Three roundings, and the error of the lack. -/
theorem level_error {error : Rat} (sat : Within 0 1 s) (value : Within 0 1 v)
    (lack : Within 0 1 x) (near : |x.val - q| ≤ error) :
    |(level s v x).val - v.val * (1 - s.val * q)| ≤ error + 3 / 2 ^ 25 := by
  have product := nearest_unit (mul_nonneg sat.1 lack.1) (mul_le_one₀ sat.2 lack.1 lack.2)
  have difference := nearest_unit (sub_nonneg.mpr product.2.1) (sub_le_self 1 product.1)
  have whole := nearest_unit (mul_nonneg value.1 difference.1)
    (mul_le_one₀ value.2 difference.1 difference.2.1)
  have eq : (level s v x).val =
      nearest binary32 (v.val * nearest binary32 (1 - nearest binary32 (s.val * x.val))) := by
    rw [level, val_mul, val_sub, val_mul, lit_one]
  rw [eq]
  generalize nearest binary32 (s.val * x.val) = p at product difference whole ⊢
  generalize nearest binary32 (1 - p) = c at difference whole ⊢
  have first := abs_le.mp product.2.2
  have second := abs_le.mp difference.2.2
  have third := abs_le.mp whole.2.2
  have hue := abs_le.mp (shrink sat near)
  have inner : |(c - (1 - p)) - ((p - s.val * x.val) + s.val * (x.val - q))| ≤
      error + 2 / 2 ^ 25 := by
    rw [abs_le]
    constructor <;> linarith [first.1, first.2, second.1, second.2, hue.1, hue.2]
  have outer := abs_le.mp (shrink value inner)
  rw [abs_le]
  constructor <;> linarith [third.1, third.2, outer.1, outer.2]

/-- Each lack is a ramp over one sixth of the circle. -/
theorem lack_pieces {i : Int} {r : Rat} (least : 0 ≤ i) (most : i ≤ 6) (low : 0 ≤ r) (high : r < 1)
    (below : i + r ≤ 6) : (redLack (i + r), greenLack (i + r), blueLack (i + r)) =
      match i.tmod 6 with
      | 0 => (0, 1 - r, 1)
      | 1 => (r, 0, 1)
      | 2 => (1, 0, 1 - r)
      | 3 => (1, r, 0)
      | 4 => (1 - r, 1, 0)
      | _ => (0, 1, r) := by
  interval_cases i
  all_goals
    simp only [Int.reduceTMod, Prod.mk.injEq, redLack, greenLack, blueLack, ramp, abs_eq_max_neg,
      max_def, min_def]
    push_cast at below ⊢
    refine ⟨?_, ?_, ?_⟩ <;> split_ifs <;> linarith

theorem lacks_unit {i : Int} (unit : Within 0 1 x) :
    Within 0 1 (lacks i x).1 ∧ Within 0 1 (lacks i x).2.1 ∧ Within 0 1 (lacks i x).2.2 := by
  have zero : Within 0 1 (lit 0) := ⟨lit_zero.ge, lit_zero.le.trans zero_le_one⟩
  have one : Within 0 1 (lit 1) := ⟨zero_le_one.trans lit_one.ge, lit_one.le⟩
  have rest := unit_complement unit
  unfold lacks
  split
  · exact ⟨zero, rest, one⟩
  · exact ⟨unit, zero, one⟩
  · exact ⟨one, zero, rest⟩
  · exact ⟨one, unit, zero⟩
  · exact ⟨rest, one, zero⟩
  · exact ⟨zero, one, unit⟩

/-- Only the difference in the even sixths is rounded. -/
theorem lacks_close (above : 0 ≤ q) (below : q ≤ 6) (part : x.val = Int.fract q) :
    |(lacks ⌊q⌋ x).1.val - redLack q| ≤ 1 / 2 ^ 25 ∧
      |(lacks ⌊q⌋ x).2.1.val - greenLack q| ≤ 1 / 2 ^ 25 ∧
      |(lacks ⌊q⌋ x).2.2.val - blueLack q| ≤ 1 / 2 ^ 25 := by
  have low := Int.fract_nonneg q
  have high := Int.fract_lt_one q
  have most : ⌊q⌋ ≤ 6 := by
    rw [← Int.lt_add_one_iff, Int.floor_lt]
    push_cast
    linarith
  have pieces := lack_pieces (Int.floor_nonneg.mpr above) most low high
    (by rwa [Int.floor_add_fract])
  rw [Int.floor_add_fract, ← part] at pieces
  have same {y : Binary32} {l : Rat} (eq : y.val = l) : |y.val - l| ≤ 1 / 2 ^ 25 := by
    rw [eq, sub_self, abs_zero]
    positivity
  have zero := same lit_zero
  have one := same lit_one
  have self := same (y := x) rfl
  have rest : |(lit 1 - x).val - (1 - x.val)| ≤ 1 / 2 ^ 25 := by
    rw [val_sub, lit_one, part]
    exact (nearest_unit (sub_nonneg.mpr high.le) (sub_le_self 1 low)).2.2
  unfold lacks
  split at pieces
  all_goals
    simp only [Prod.mk.injEq] at pieces
    obtain ⟨red, green, blue⟩ := pieces
    rw [red, green, blue]
  · exact ⟨zero, rest, one⟩
  · exact ⟨self, zero, one⟩
  · exact ⟨one, zero, rest⟩
  · exact ⟨one, self, zero⟩
  · exact ⟨rest, one, zero⟩
  · exact ⟨zero, one, self⟩

theorem ramp_error {a b error : Rat} (near : |a - b| ≤ error) : |ramp a - ramp b| ≤ error := by
  have nonneg := (abs_nonneg _).trans near
  apply (abs_max_sub_max_le_max _ _ _ _).trans
  rw [sub_self, abs_zero]
  apply max_le nonneg
  apply (abs_min_sub_min_le_max _ _ _ _).trans
  rw [sub_self, abs_zero]
  exact max_le nonneg near

theorem lack_error {a b error : Rat} (near : |a - b| ≤ error) :
    |redLack a - redLack b| ≤ error ∧ |greenLack a - greenLack b| ≤ error ∧
      |blueLack a - blueLack b| ≤ error := by
  have moved (c : Rat) : |(|a - c|) - (|b - c|)| ≤ error := by
    apply (abs_abs_sub_abs_le_abs_sub _ _).trans
    rwa [sub_sub_sub_cancel_right]
  refine ⟨ramp_error ?_, ramp_error ?_, ramp_error ?_⟩
  · rw [sub_sub_sub_cancel_left, abs_sub_comm]
    exact moved 3
  · rw [sub_sub_sub_cancel_right]
    exact moved 2
  · rw [sub_sub_sub_cancel_right]
    exact moved 4

theorem toNat_ofInt {n : Int} (above : 0 ≤ n) (below : n ≤ 255) :
    ((UInt8.ofInt n).toNat : Int) = n := by
  rw [UInt8.ofInt, UInt8.toNat_ofNat']
  omega

/-- The cast is in range, and loses less than one. -/
theorem byte_close (unit : Within 0 1 x) :
    ((byte x).toNat : Int) = ⌊nearest binary32 (x.val * 255)⌋ ∧
      |((byte x).toNat : Rat) - 255 * x.val| < 1 + 1 / 2 ^ 17 := by
  have above : 0 ≤ x.val * 255 := mul_nonneg unit.1 (by norm_num)
  have below : x.val * 255 ≤ 255 := mul_le_of_le_one_left (by norm_num) unit.2
  obtain ⟨low, high⟩ := nearest_within 0 255 (by decide)
    (by exact_mod_cast above) (by exact_mod_cast below)
  have error := nearest_error_below (F := binary32) (e := 8) above
    (below.trans (by norm_num)) (by decide)
  have bits : (2 : Rat) ^ ((8 : Int) - binary32.precision) / 2 = 1 / 2 ^ 17 := by
    norm_num [binary32]
  rw [bits] at error
  have cast : toInt (x * lit 255) = ⌊nearest binary32 (x.val * 255)⌋ := by
    have exact : (lit 255 : Binary32).val = 255 := lit_int 255 (by decide)
    have same : (x * lit 255).val = nearest binary32 (x.val * 255) := by
      rw [val_mul, exact]
    rw [← truncate_nonneg (by exact_mod_cast low), ← same]
    rfl
  have eq : ((byte x).toNat : Int) = ⌊nearest binary32 (x.val * 255)⌋ := by
    rw [byte, cast]
    exact toNat_ofInt (Int.floor_nonneg.mpr (by exact_mod_cast low))
      (Int.floor_le_iff.mpr (by push_cast at high ⊢; linarith))
  refine ⟨eq, ?_⟩
  have whole : ((byte x).toNat : Rat) = ⌊nearest binary32 (x.val * 255)⌋ := by exact_mod_cast eq
  have first := Int.floor_le (nearest binary32 (x.val * 255))
  have second := Int.lt_floor_add_one (nearest binary32 (x.val * 255))
  have third := abs_le.mp error
  rw [whole, abs_lt]
  constructor <;> linarith [third.1, third.2]

theorem byte_mono (first : Within 0 1 x) (second : Within 0 1 y) (le : x.val ≤ y.val) :
    (byte x).toNat ≤ (byte y).toNat := by
  have floors : ⌊nearest binary32 (x.val * 255)⌋ ≤ ⌊nearest binary32 (y.val * 255)⌋ :=
    Int.floor_mono (nearest_mono (mul_le_mul_of_nonneg_right le (by norm_num)))
  rw [← (byte_close first).1, ← (byte_close second).1] at floors
  exact_mod_cast floors

theorem level_anti (sat : Within 0 1 s) (value : Within 0 1 v) (le : x.val ≤ y.val) :
    (level s v y).val ≤ (level s v x).val := by
  simp only [level, val_mul, val_sub]
  apply nearest_mono
  apply mul_le_mul_of_nonneg_left _ value.1
  apply nearest_mono
  apply sub_le_sub_left
  apply nearest_mono
  exact mul_le_mul_of_nonneg_left le sat.1

theorem level_zero (s v : Binary32) : level s v (lit 0) = v := by
  apply Subtype.ext
  simp only [level, val_mul, val_sub]
  rw [lit_zero, lit_one, mul_zero, nearest_zero, sub_zero, ← lit_one, nearest_val, lit_one, mul_one,
    nearest_val]

theorem level_one (s v : Binary32) : level s v (lit 1) = v * (lit 1 - s) := by
  apply Subtype.ext
  simp only [level, val_mul, val_sub]
  rw [lit_one, mul_one, nearest_val]

/-- The six cases of the switch. -/
theorem hsv2rgb_levels (h s v : Binary32) : hsv2rgb h s v =
    ⟨byte (level s v (lacks (toInt (sixths h)) (part h)).1),
      byte (level s v (lacks (toInt (sixths h)) (part h)).2.1),
      byte (level s v (lacks (toInt (sixths h)) (part h)).2.2), 255⟩ := by
  simp only [hsv2rgb, lacks, part, sixths]
  generalize (toInt (fmod h (lit 1) * lit 6)).tmod 6 = k
  split <;> simp only [level_zero, level_one] <;> rfl

/-- Nothing is lost behind the point but by the product, which may be 6. -/
theorem sixths_close (above : 0 ≤ h.val) : Within 0 6 (sixths h) ∧
    |(sixths h).val - 6 * Int.fract h.val| ≤ 1 / 2 ^ 22 ∧
      toInt (sixths h) = ⌊(sixths h).val⌋ ∧ (part h).val = Int.fract (sixths h).val := by
  have low := Int.fract_nonneg h.val
  have high := (Int.fract_lt_one h.val).le
  have mod : (fmod h (lit 1)).val = Int.fract h.val := by
    have exact := nearest_exact (representable_fract above h.2)
    have same : (fmod h (lit 1)).val = nearest binary32 (h.val - (lit 1 : Binary32).val *
        truncate (h.val / (lit 1 : Binary32).val)) := rfl
    rw [same, lit_one, div_one, one_mul, truncate_nonneg above]
    exact exact
  have product : (sixths h).val = nearest binary32 (Int.fract h.val * 6) := by
    have six : (lit 6 : Binary32).val = 6 := lit_int 6 (by decide)
    rw [sixths, val_mul, mod, six]
  have least : 0 ≤ Int.fract h.val * 6 := mul_nonneg low (by norm_num)
  have most : Int.fract h.val * 6 ≤ 6 := mul_le_of_le_one_left (by norm_num) high
  have within := nearest_within 0 6 (by decide) (by exact_mod_cast least)
    (by exact_mod_cast most)
  have error := nearest_error_below (F := binary32) (e := 3) least (most.trans (by norm_num))
    (by decide)
  have bits : (2 : Rat) ^ ((3 : Int) - binary32.precision) / 2 = 1 / 2 ^ 22 := by
    norm_num [binary32]
  rw [bits] at error
  push_cast at within
  rw [← product] at within error
  have whole : toInt (sixths h) = ⌊(sixths h).val⌋ := truncate_nonneg within.1
  refine ⟨within, ?_, whole, ?_⟩
  · rwa [mul_comm]
  · have least := Int.floor_nonneg.mpr within.1
    have most : ⌊(sixths h).val⌋ ≤ 6 := Int.floor_le_iff.mpr (by push_cast; linarith [within.2])
    rw [part, val_sub, whole, lit_int _ (by rw [abs_lt]; omega)]
    exact nearest_exact (representable_fract within.1 (sixths h).2)

/-- One channel is full, one is empty and the third lies between them. -/
theorem lacks_extremes {β : Type*} [LinearOrder β] {f : Binary32 → β} {i : Int}
    (unit : Within 0 1 x)
    (anti : ∀ l, Within 0 1 l → f (lit 1) ≤ f l ∧ f l ≤ f (lit 0)) :
    max (f (lacks i x).1) (max (f (lacks i x).2.1) (f (lacks i x).2.2)) = f (lit 0) ∧
      min (f (lacks i x).1) (min (f (lacks i x).2.1) (f (lacks i x).2.2)) = f (lit 1) := by
  obtain ⟨above, below⟩ := anti x unit
  obtain ⟨high, low⟩ := anti _ (unit_complement unit)
  have order := above.trans below
  unfold lacks
  split <;> simp only [max_eq_left, max_eq_right, min_eq_left, min_eq_right, above, below, high,
    low, order, and_self]

theorem channel_close {near : Rat} (sat : Within 0 1 s) (value : Within 0 1 v)
    (unit : Within 0 1 x) (first : |x.val - near| ≤ 1 / 2 ^ 25) (second : |near - q| ≤ 1 / 2 ^ 22) :
    Close (byte (level s v x)) (v.val * (1 - s.val * q)) := by
  have lack : |x.val - q| ≤ 1 / 2 ^ 25 + 1 / 2 ^ 22 := by
    rw [← sub_add_sub_cancel]
    exact (abs_add_le _ _).trans (add_le_add first second)
  have third := abs_le.mp (level_error sat value unit lack)
  have fourth := abs_lt.mp (byte_close (level_unit sat value unit)).2
  rw [Close, abs_lt]
  constructor <;> linarith [third.1, third.2, fourth.1, fourth.2]

/-- For any hue from 0 on, and any saturation and value up to 1: each channel is
    within `1 + 2⁻¹²` of the exact one, the brightest channel is that of `v` and
    the darkest one that of `v * (1 - s)`. -/
theorem hsv2rgb_close (h s v : Binary32) (hue : 0 ≤ h.val) (sat : Within 0 1 s)
    (value : Within 0 1 v) :
    Close (hsv2rgb h s v).r (v.val * (1 - s.val * redLack (6 * Int.fract h.val))) ∧
      Close (hsv2rgb h s v).g (v.val * (1 - s.val * greenLack (6 * Int.fract h.val))) ∧
      Close (hsv2rgb h s v).b (v.val * (1 - s.val * blueLack (6 * Int.fract h.val))) ∧
      (hsv2rgb h s v).a = 255 ∧
      max (hsv2rgb h s v).r.toNat (max (hsv2rgb h s v).g.toNat (hsv2rgb h s v).b.toNat) =
        (byte v).toNat ∧
      min (hsv2rgb h s v).r.toNat (min (hsv2rgb h s v).g.toNat (hsv2rgb h s v).b.toNat) =
        (byte (v * (lit 1 - s))).toNat := by
  obtain ⟨within, moved, whole, rest⟩ := sixths_close hue
  have unit : Within 0 1 (part h) := by
    rw [Within, rest]
    exact ⟨Int.fract_nonneg _, (Int.fract_lt_one _).le⟩
  obtain ⟨red, green, blue⟩ := lacks_unit (i := toInt (sixths h)) unit
  obtain ⟨closeRed, closeGreen, closeBlue⟩ := lacks_close within.1 within.2 rest
  obtain ⟨movedRed, movedGreen, movedBlue⟩ := lack_error moved
  rw [← whole] at closeRed closeGreen closeBlue
  have anti (l : Binary32) (lack : Within 0 1 l) :
      (byte (level s v (lit 1))).toNat ≤ (byte (level s v l)).toNat ∧
        (byte (level s v l)).toNat ≤ (byte (level s v (lit 0))).toNat := by
    have zero : Within 0 1 (lit 0) := ⟨lit_zero.ge, lit_zero.le.trans zero_le_one⟩
    have one : Within 0 1 (lit 1) := ⟨zero_le_one.trans lit_one.ge, lit_one.le⟩
    refine ⟨byte_mono (level_unit sat value one) (level_unit sat value lack) ?_,
      byte_mono (level_unit sat value lack) (level_unit sat value zero) ?_⟩
    · exact level_anti sat value (lack.2.trans lit_one.ge)
    · exact level_anti sat value (lit_zero.le.trans lack.1)
  have extremes := lacks_extremes (f := fun l => (byte (level s v l)).toNat)
    (i := toInt (sixths h)) unit anti
  rw [level_zero, level_one] at extremes
  rw [hsv2rgb_levels]
  exact ⟨channel_close sat value red closeRed movedRed,
    channel_close sat value green closeGreen movedGreen,
    channel_close sat value blue closeBlue movedBlue, rfl, extremes.1, extremes.2⟩

/-- A dull green. -/
theorem hsv2rgb_close_green : hsv2rgb (rounded (1 / 3)) (rounded (1 / 2)) (rounded (1 / 2)) =
    ⟨63, 127, 63, 255⟩ ∧ Close 127 (1 / 2 * (1 - 1 / 2 *
      greenLack (6 * Int.fract (rounded (1 / 3)).val))) := by
  have half : (rounded (1 / 2)).val = 1 / 2 := by decide +kernel
  have unit : Within 0 1 (rounded (1 / 2)) := by
    rw [Within, half]
    constructor <;> norm_num
  have color : hsv2rgb (rounded (1 / 3)) (rounded (1 / 2)) (rounded (1 / 2)) =
      ⟨63, 127, 63, 255⟩ := by decide +kernel
  have close := (hsv2rgb_close (rounded (1 / 3)) (rounded (1 / 2)) (rounded (1 / 2))
    (nearest_nonneg (by norm_num)) unit unit).2.1
  rw [color, half] at close
  exact ⟨color, close⟩

end RenderingHsvColor
