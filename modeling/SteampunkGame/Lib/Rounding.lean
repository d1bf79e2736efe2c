import Mathlib.Algebra.Order.Field.Power
import Mathlib.Algebra.Order.Floor.Ring
import Mathlib.Data.Int.Log
import Mathlib.Tactic.FieldSimp
import Mathlib.Tactic.Linarith
import Mathlib.Tactic.LinearCombination
import Mathlib.Tactic.Positivity
import Mathlib.Tactic.Ring

/-!
Binary floating-point formats over any ordered field, with rounding to nearest
and ties to even. Small numbers lose precision gradually; a bound on large ones
is left to the user, since values that stay within bounds never meet it.
-/
namespace Rounding
variable {K : Type*} [Field K] [LinearOrder K] [FloorRing K]

/-- The number of significant bits, and the exponent of the least positive
    number. -/
structure Format where
  precision : Nat
  least : Int
  positive : 0 < precision

def binary32 : Format := ⟨24, -149, by decide⟩
def binary64 : Format := ⟨53, -1074, by decide⟩
def extended : Format := ⟨64, -16445, by decide⟩

def roundEven (x : K) : Int :=
  if x - ⌊x⌋ < 1 / 2 ∨ x - ⌊x⌋ = 1 / 2 ∧ ⌊x⌋ % 2 = 0 then ⌊x⌋ else ⌊x⌋ + 1

/-- The whole part, towards zero. -/
def truncate (x : K) : Int := if 0 ≤ x then ⌊x⌋ else ⌈x⌉

/-- The exponent of the last bit of the numbers about `x`. -/
def quantum (F : Format) (x : K) : Int := max (Int.log 2 |x| + 1 - F.precision) F.least

def nearest (F : Format) (x : K) : K := roundEven (x / 2 ^ quantum F x) * 2 ^ quantum F x

/-- The numbers of the format. -/
def Representable (F : Format) (x : K) : Prop :=
  ∃ m e : Int, |m| < 2 ^ F.precision ∧ F.least ≤ e ∧ x = m * 2 ^ e

/-- `n` without its last `b` bits, rounded to nearest. -/
def shiftEven (n b : Nat) : Nat :=
  if 2 * (n % 2 ^ b) < 2 ^ b ∨ 2 * (n % 2 ^ b) = 2 ^ b ∧ n / 2 ^ b % 2 = 0 then n / 2 ^ b
  else n / 2 ^ b + 1

/-- Rounding of whole numbers. -/
def nearestNat (F : Format) (n : Nat) : Nat :=
  shiftEven n (n.log2 + 1 - F.precision) * 2 ^ (n.log2 + 1 - F.precision)

theorem truncate_nonneg {x : K} (nonneg : 0 ≤ x) : truncate x = ⌊x⌋ := if_pos nonneg

theorem roundEven_floor (x : K) : roundEven x = ⌊x⌋ ∨ roundEven x = ⌊x⌋ + 1 := by
  unfold roundEven
  split
  · exact Or.inl rfl
  · exact Or.inr rfl

theorem quantum_neg (F : Format) (x : K) [IsOrderedAddMonoid K] : quantum F (-x) = quantum F x := by
  rw [quantum, quantum, abs_neg]

variable [IsStrictOrderedRing K] {x y : K} {n : Int} {F : Format}

theorem roundEven_intCast (n : Int) : roundEven (n : K) = n := by
  unfold roundEven
  rw [Int.floor_intCast, sub_self, if_pos]
  left
  norm_num

theorem roundEven_mono (le : x ≤ y) : roundEven x ≤ roundEven y := by
  have floors := Int.floor_mono le
  rcases floors.lt_or_eq with less | same
  · rcases roundEven_floor x with a | a <;> rcases roundEven_floor y with b | b <;> omega
  · unfold roundEven
    rw [same]
    split
    · split <;> omega
    · rename_i above
      rw [if_neg]
      intro below
      apply above
      rcases below with less | ⟨half, even⟩
      · left
        linarith
      · rcases (sub_le_sub_right le (⌊y⌋ : K)).lt_or_eq with less | tie
        · left
          linarith
        · exact Or.inr ⟨tie.trans half, even⟩

theorem roundEven_le (le : x ≤ n) : roundEven x ≤ n := by
  have bound := roundEven_mono le
  rwa [roundEven_intCast] at bound

theorem le_roundEven (le : (n : K) ≤ x) : n ≤ roundEven x := by
  have bound := roundEven_mono le
  rwa [roundEven_intCast] at bound

theorem roundEven_error (x : K) : |(roundEven x : K) - x| ≤ 1 / 2 := by
  have low := Int.floor_le x
  have high := Int.lt_floor_add_one x
  unfold roundEven
  rw [abs_le]
  split
  · rename_i near
    rcases near with less | ⟨half, _⟩
    · constructor <;> linarith
    · constructor <;> linarith
  · rename_i far
    rw [not_or, not_lt] at far
    push_cast
    constructor <;> linarith [far.1]

theorem roundEven_neg (x : K) : roundEven (-x) = -roundEven x := by
  by_cases whole : (⌊x⌋ : K) = x
  · rw [← whole, ← Int.cast_neg, roundEven_intCast, roundEven_intCast]
  · have low := Int.floor_le x
    have high := Int.lt_floor_add_one x
    have less : (⌊x⌋ : K) < x := lt_of_le_of_ne low whole
    have floor : ⌊-x⌋ = -⌊x⌋ - 1 := by
      rw [Int.floor_eq_iff]
      push_cast
      constructor <;> linarith
    unfold roundEven
    rw [floor]
    push_cast
    split
    · rename_i up
      split
      · rename_i down
        exfalso
        rcases up with above | ⟨_, odd⟩ <;> rcases down with below | ⟨_, even⟩
        · linarith
        · linarith
        · linarith
        · omega
      · ring
    · rename_i up
      split
      · ring
      · rename_i down
        exfalso
        rw [not_or, not_lt] at up down
        have tie : x - ⌊x⌋ = 1 / 2 := by linarith [up.1, down.1]
        by_cases even : ⌊x⌋ % 2 = 0
        · exact down.2 ⟨tie, even⟩
        · exact up.2 ⟨by linarith, by omega⟩

theorem nearest_neg (F : Format) (x : K) : nearest F (-x) = -nearest F x := by
  rw [nearest, nearest, quantum_neg, neg_div, roundEven_neg]
  push_cast
  ring

theorem quantum_mono (positive : 0 < x) (le : x ≤ y) : quantum F x ≤ quantum F y := by
  have logs := Int.log_mono_right (b := 2) positive le
  rw [quantum, quantum, abs_of_pos positive, abs_of_pos (positive.trans_le le)]
  omega

theorem nearest_zero (F : Format) : nearest F (0 : K) = 0 := by
  rw [nearest, zero_div, ← Int.cast_zero, roundEven_intCast, Int.cast_zero, zero_mul]

theorem nearest_nonneg (nonneg : 0 ≤ x) : 0 ≤ nearest F x := by
  have quotient : ((0 : Int) : K) ≤ x / 2 ^ quantum F x := by
    rw [Int.cast_zero]
    exact div_nonneg nonneg (by positivity)
  have above : (0 : K) ≤ roundEven (x / 2 ^ quantum F x) := by
    exact_mod_cast le_roundEven quotient
  exact mul_nonneg above (by positivity)

omit [IsStrictOrderedRing K] in
/-- A power of two from the last bit on is a whole number of last bits. -/
theorem power_quanta {e q : Int} (le : q ≤ e) :
    (2 : K) ^ e = ((2 ^ (e - q).toNat : Int) : K) * 2 ^ q := by
  push_cast
  rw [← zpow_natCast, Int.toNat_of_nonneg (by omega), ← zpow_add₀ two_ne_zero]
  congr 1
  omega

theorem nearest_le_power {e : Int} (le : x ≤ 2 ^ e) (above : quantum F x ≤ e) :
    nearest F x ≤ 2 ^ e := by
  have positive : (0 : K) < 2 ^ quantum F x := by positivity
  rw [power_quanta above] at le ⊢
  have quotient := roundEven_le ((div_le_iff₀ positive).mpr le)
  exact mul_le_mul_of_nonneg_right (by exact_mod_cast quotient) positive.le

theorem power_le_nearest {e : Int} (le : 2 ^ e ≤ x) (above : quantum F x ≤ e) :
    2 ^ e ≤ nearest F x := by
  have positive : (0 : K) < 2 ^ quantum F x := by positivity
  rw [power_quanta above] at le ⊢
  have quotient := le_roundEven ((le_div_iff₀ positive).mpr le)
  exact mul_le_mul_of_nonneg_right (by exact_mod_cast quotient) positive.le

theorem nearest_mono_positive (positive : 0 < x) (le : x ≤ y) : nearest F x ≤ nearest F y := by
  rcases (quantum_mono (F := F) positive le).lt_or_eq with finer | same
  · -- a power of two lies between the two numbers, and both keep to their side of it
    have above := positive.trans_le le
    have log : quantum F y = Int.log 2 y + 1 - F.precision := by
      have bound : F.least ≤ quantum F x := le_max_right _ _
      have coarser := finer
      simp only [quantum, abs_of_pos above, abs_of_pos positive] at coarser bound ⊢
      omega
    have low : Int.log 2 x + 1 - F.precision ≤ quantum F x := by
      rw [quantum, abs_of_pos positive]
      exact le_max_left _ _
    have bits := F.positive
    have reaches : (2 : K) ^ Int.log 2 y ≤ y := by
      exact_mod_cast Int.zpow_log_le_self (by decide) above
    have short : x ≤ 2 ^ Int.log 2 y := by
      have next : x < (2 : K) ^ (Int.log 2 x + 1) := by
        exact_mod_cast Int.lt_zpow_succ_log_self (b := 2) (by decide) x
      exact next.le.trans (zpow_le_zpow_right₀ one_le_two (by omega))
    exact (nearest_le_power short (by omega)).trans (power_le_nearest reaches (by omega))
  · have positive : (0 : K) < 2 ^ quantum F y := by positivity
    rw [nearest, nearest, same]
    have quotient := roundEven_mono (div_le_div_of_nonneg_right le positive.le)
    exact mul_le_mul_of_nonneg_right (by exact_mod_cast quotient) positive.le

theorem nearest_mono (le : x ≤ y) : nearest F x ≤ nearest F y := by
  rcases lt_or_ge 0 x with positive | nonpos
  · exact nearest_mono_positive positive le
  · rcases lt_or_ge y 0 with negative | nonneg
    · have flipped := nearest_mono_positive (F := F) (neg_pos.mpr negative) (neg_le_neg le)
      rw [nearest_neg, nearest_neg] at flipped
      exact neg_le_neg_iff.mp flipped
    · have below := nearest_nonneg (F := F) (neg_nonneg.mpr nonpos)
      rw [nearest_neg] at below
      exact (neg_nonneg.mp below).trans (nearest_nonneg nonneg)

/-- Numbers of the format are whole numbers of their last bit. -/
theorem representable_quanta (is : Representable F x) : ∃ k : Int, x = k * 2 ^ quantum F x := by
  obtain ⟨m, e, few, above, eq⟩ := is
  by_cases zero : x = 0
  · exact ⟨0, by rw [zero]; simp⟩
  · have short : |x| < 2 ^ (e + F.precision) := by
      rw [eq, abs_mul, abs_of_pos (by positivity : (0 : K) < 2 ^ e), zpow_add₀ two_ne_zero,
        mul_comm, zpow_natCast]
      apply mul_lt_mul_of_pos_left _ (by positivity)
      exact_mod_cast few
    have log : Int.log 2 |x| < e + F.precision :=
      (Int.lt_zpow_iff_log_lt (b := 2) (by decide) (abs_pos.mpr zero)).mp (by exact_mod_cast short)
    have le : quantum F x ≤ e := by
      rw [quantum]
      omega
    refine ⟨m * 2 ^ (e - quantum F x).toNat, ?_⟩
    conv_lhs => rw [eq, power_quanta le]
    push_cast
    ring

theorem nearest_exact (is : Representable F x) : nearest F x = x := by
  obtain ⟨k, eq⟩ := representable_quanta is
  have quotient : x / 2 ^ quantum F x = k := by
    rw [div_eq_iff (by positivity : (2 : K) ^ quantum F x ≠ 0)]
    exact eq
  rw [nearest, quotient, roundEven_intCast, ← eq]

/-- Rounding keeps to bounds that are numbers of the format. -/
theorem nearest_le (le : x ≤ y) (is : Representable F y) : nearest F x ≤ y := by
  have bound := nearest_mono (F := F) le
  rwa [nearest_exact is] at bound

theorem le_nearest (is : Representable F x) (le : x ≤ y) : x ≤ nearest F y := by
  have bound := nearest_mono (F := F) le
  rwa [nearest_exact is] at bound

theorem nearest_error (F : Format) (x : K) : |nearest F x - x| ≤ 2 ^ quantum F x / 2 := by
  have positive : (0 : K) < 2 ^ quantum F x := by positivity
  have error := roundEven_error (x / 2 ^ quantum F x)
  have scaled : nearest F x - x =
      (roundEven (x / 2 ^ quantum F x) - x / 2 ^ quantum F x) * 2 ^ quantum F x := by
    rw [nearest, sub_mul, div_mul_cancel₀ _ positive.ne']
  rw [scaled, abs_mul, abs_of_pos positive]
  linarith [mul_le_mul_of_nonneg_right error positive.le]

theorem representable_nearest (F : Format) (x : K) : Representable F (nearest F x) := by
  have positive : (0 : K) < 2 ^ quantum F x := by positivity
  have short : |x / 2 ^ quantum F x| ≤ ((2 ^ F.precision : Int) : K) := by
    rw [abs_div, abs_of_pos positive, div_le_iff₀ positive]
    have next : |x| < (2 : K) ^ (Int.log 2 |x| + 1) := by
      exact_mod_cast Int.lt_zpow_succ_log_self (b := 2) (by decide) |x|
    apply next.le.trans
    push_cast
    rw [← zpow_natCast, ← zpow_add₀ two_ne_zero]
    apply zpow_le_zpow_right₀ one_le_two
    have low : Int.log 2 |x| + 1 - F.precision ≤ quantum F x := le_max_left _ _
    omega
  have high := roundEven_le (abs_le.mp short).2
  have low : -2 ^ F.precision ≤ roundEven (x / 2 ^ quantum F x) := by
    apply le_roundEven
    push_cast
    have below := (abs_le.mp short).1
    push_cast at below
    exact below
  have above : F.least ≤ quantum F x := le_max_right _ _
  rcases (abs_le.mpr ⟨low, high⟩).lt_or_eq with few | full
  · exact ⟨_, _, few, above, rfl⟩
  · -- the number has become a power of two, which needs one bit
    have room : (0 : Int) < 2 ^ F.precision := by positivity
    have even : (2 : Int) ^ F.precision % 2 = 0 := by
      obtain ⟨p, bits⟩ := Nat.exists_eq_succ_of_ne_zero F.positive.ne'
      rw [bits, pow_succ, Int.mul_emod_left]
    rw [abs_eq room.le] at full
    have half : roundEven (x / 2 ^ quantum F x) / 2 * 2 = roundEven (x / 2 ^ quantum F x) := by
      omega
    refine ⟨roundEven (x / 2 ^ quantum F x) / 2, quantum F x + 1, ?_, by omega, ?_⟩
    · rw [abs_lt]
      omega
    · rw [zpow_add_one₀ two_ne_zero, ← mul_assoc, mul_right_comm, nearest]
      congr 1
      exact_mod_cast half.symm

omit [LinearOrder K] [FloorRing K] [IsStrictOrderedRing K] in
theorem representable_int (few : |n| < 2 ^ F.precision) (fine : F.least ≤ 0) :
    Representable F (n : K) := ⟨n, 0, few, fine, by simp⟩

omit [LinearOrder K] [FloorRing K] [IsStrictOrderedRing K] in
theorem representable_power {e : Int} (above : F.least ≤ e) : Representable F ((2 : K) ^ e) :=
  ⟨1, e, by rw [abs_one]; exact one_lt_pow₀ one_lt_two F.positive.ne', above, by simp⟩

omit [IsStrictOrderedRing K] in
/-- All numbers of the format are whole numbers of the least one. -/
theorem representable_grid (is : Representable F x) : ∃ k : Int, x = k * 2 ^ F.least := by
  obtain ⟨m, e, _, above, eq⟩ := is
  refine ⟨m * 2 ^ (e - F.least).toNat, ?_⟩
  rw [eq, power_quanta above]
  push_cast
  ring

omit [LinearOrder K] [FloorRing K] [IsStrictOrderedRing K] in
theorem grid_sub (first : ∃ k : Int, x = k * 2 ^ F.least)
    (second : ∃ k : Int, y = k * 2 ^ F.least) : ∃ k : Int, y - x = k * 2 ^ F.least := by
  obtain ⟨k, rfl⟩ := first
  obtain ⟨l, rfl⟩ := second
  exact ⟨l - k, by push_cast; ring⟩

/-- Underflow is gradual: two numbers that differ have a difference that is
    not rounded to zero. -/
theorem nearest_sub_positive (first : Representable F x) (second : Representable F y)
    (less : x < y) : 0 < nearest F (y - x) := by
  obtain ⟨k, eq⟩ := grid_sub (representable_grid first) (representable_grid second)
  have unit : (0 : K) < 2 ^ F.least := by positivity
  have some_ : (1 : K) ≤ k := by
    have positive : (0 : K) < k * 2 ^ F.least := eq ▸ sub_pos.mpr less
    exact_mod_cast (pos_iff_pos_of_mul_pos positive).mpr unit
  apply unit.trans_le
  apply le_nearest (representable_power (le_refl _))
  rw [eq]
  exact le_mul_of_one_le_left unit.le some_

/-- The relative error of numbers that do not underflow. -/
theorem nearest_relative (normal : F.least + F.precision ≤ Int.log 2 |x| + 1) (nonzero : x ≠ 0) :
    |nearest F x - x| ≤ |x| / 2 ^ F.precision := by
  apply (nearest_error F x).trans
  have positive := abs_pos.mpr nonzero
  have reaches : (2 : K) ^ Int.log 2 |x| ≤ |x| := by
    exact_mod_cast Int.zpow_log_le_self (by decide) positive
  have exponent : quantum F x = Int.log 2 |x| + 1 - F.precision := by
    rw [quantum]
    omega
  rw [exponent, zpow_sub₀ two_ne_zero, zpow_add_one₀ two_ne_zero, zpow_natCast]
  have bits : (0 : K) < 2 ^ F.precision := by positivity
  rw [div_div, mul_comm ((2 : K) ^ F.precision) 2, ← div_div, mul_div_cancel_right₀ _ two_ne_zero]
  exact div_le_div_of_nonneg_right reaches bits.le

/-- It is the same for small numbers on the grid, which are exact. -/
theorem nearest_relative_grid (grid : ∃ k : Int, x = k * 2 ^ F.least) :
    |nearest F x - x| ≤ |x| / 2 ^ F.precision := by
  by_cases zero : x = 0
  · rw [zero, nearest_zero]
    simp
  by_cases normal : F.least + F.precision ≤ Int.log 2 |x| + 1
  · exact nearest_relative normal zero
  · obtain ⟨k, eq⟩ := grid
    have exponent : quantum F x = F.least := by
      rw [quantum]
      omega
    have quotient : x / 2 ^ quantum F x = k := by
      rw [exponent, div_eq_iff (by positivity : (2 : K) ^ F.least ≠ 0)]
      exact eq
    rw [nearest, quotient, roundEven_intCast, exponent, ← eq, sub_self, abs_zero]
    positivity

/-- The error of numbers up to a power of two. -/
theorem nearest_error_below {e : Int} (nonneg : 0 ≤ x) (le : x ≤ 2 ^ e)
    (normal : F.least + F.precision ≤ e) : |nearest F x - x| ≤ 2 ^ (e - F.precision) / 2 := by
  have bits := F.positive
  rcases le.lt_or_eq with less | same
  · rcases nonneg.lt_or_eq with positive | zero
    · have log : Int.log 2 |x| < e := by
        rw [abs_of_pos positive]
        exact (Int.lt_zpow_iff_log_lt (b := 2) (by decide) positive).mp (by exact_mod_cast less)
      apply (nearest_error F x).trans
      apply div_le_div_of_nonneg_right _ zero_le_two
      apply zpow_le_zpow_right₀ one_le_two
      rw [quantum]
      omega
    · rw [← zero, nearest_zero, sub_zero, abs_zero]
      positivity
  · rw [same, nearest_exact (representable_power (by omega)), sub_self, abs_zero]
    positivity

/-- The part behind the point is exact. -/
theorem representable_fract (nonneg : 0 ≤ x) (is : Representable F x) :
    Representable F (Int.fract x) := by
  obtain ⟨m, e, few, above, eq⟩ := is
  rcases le_or_gt 0 e with whole | part
  · have int : x = ((m * 2 ^ e.toNat : Int) : K) := by
      rw [eq]
      push_cast
      rw [← zpow_natCast, Int.toNat_of_nonneg whole]
    rw [int, Int.fract_intCast]
    exact ⟨0, e, by rw [abs_zero]; positivity, above, by simp⟩
  · have unit : (0 : K) < 2 ^ e := by positivity
    have scale : (2 : K) ^ (-e).toNat * 2 ^ e = 1 := by
      rw [← zpow_natCast, Int.toNat_of_nonneg (by omega), ← zpow_add₀ two_ne_zero]
      simp
    have quotient : x = m / ((2 ^ (-e).toNat : Nat) : K) := by
      push_cast
      rw [eq, eq_div_iff (by positivity), mul_assoc, mul_comm _ ((2 : K) ^ (-e).toNat), scale,
        mul_one]
    have floor : ⌊x⌋ = m / 2 ^ (-e).toNat := by
      rw [quotient, Int.floor_div_natCast, Int.floor_intCast]
      push_cast
      rfl
    rw [eq] at nonneg
    lift m to Nat using by exact_mod_cast (mul_nonneg_iff_of_pos_right unit).mp nonneg
    refine ⟨m % 2 ^ (-e).toNat, e, ?_, above, ?_⟩
    · rw [abs_of_nonneg (Int.emod_nonneg _ (by positivity))]
      have less : m % 2 ^ (-e).toNat ≤ m := Nat.mod_le _ _
      exact lt_of_le_of_lt (by exact_mod_cast less) (lt_of_abs_lt few)
    · rw [Int.fract, floor, eq, Int.emod_def]
      push_cast
      linear_combination ((m / 2 ^ (-e).toNat : Int) : K) * scale

theorem roundEven_div (n b : Nat) : roundEven (n / 2 ^ b : K) = shiftEven n b := by
  have positive : (0 : K) < 2 ^ b := by positivity
  have floor : ⌊(n / 2 ^ b : K)⌋ = ((n / 2 ^ b : Nat) : Int) := by
    have exact := Int.floor_div_natCast (n : K) (2 ^ b)
    push_cast at exact ⊢
    rw [exact, Int.floor_natCast]
  have split_ : (n : K) = 2 ^ b * (n / 2 ^ b : Nat) + (n % 2 ^ b : Nat) := by
    exact_mod_cast (Nat.div_add_mod n (2 ^ b)).symm
  have rest : (n / 2 ^ b : K) - (n / 2 ^ b : Nat) = (n % 2 ^ b : Nat) / 2 ^ b := by
    rw [sub_eq_iff_eq_add, div_eq_iff positive.ne', add_mul, div_mul_cancel₀ _ positive.ne']
    linear_combination split_
  have less : ((n % 2 ^ b : Nat) : K) / 2 ^ b < 1 / 2 ↔ 2 * (n % 2 ^ b) < 2 ^ b := by
    rw [div_lt_div_iff₀ positive two_pos, one_mul, mul_comm]
    exact_mod_cast Iff.rfl
  have tie : ((n % 2 ^ b : Nat) : K) / 2 ^ b = 1 / 2 ↔ 2 * (n % 2 ^ b) = 2 ^ b := by
    rw [div_eq_div_iff positive.ne' two_ne_zero, one_mul, mul_comm]
    exact_mod_cast Iff.rfl
  have even : ((n / 2 ^ b : Nat) : Int) % 2 = 0 ↔ n / 2 ^ b % 2 = 0 := by omega
  rw [roundEven, floor, Int.cast_natCast, rest, shiftEven]
  simp only [less, tie, even]
  split
  · rfl
  · push_cast
    rfl

theorem log_scaled {n : Nat} (positive : 0 < n) (g : Int) :
    Int.log 2 |(n * 2 ^ g : K)| = n.log2 + g := by
  have above : (0 : K) < n * 2 ^ g := mul_pos (by exact_mod_cast positive) (by positivity)
  rw [abs_of_pos above, Nat.log2_eq_log_two]
  apply le_antisymm
  · rw [← Int.lt_add_one_iff]
    apply (Int.lt_zpow_iff_log_lt (b := 2) (by decide) above).mp
    have low : (n : K) < 2 ^ (Nat.log 2 n + 1) := by
      exact_mod_cast Nat.lt_pow_succ_log_self (by decide) n
    rw [add_right_comm, zpow_add₀ (by norm_num)]
    exact mul_lt_mul_of_pos_right (by exact_mod_cast low) (by positivity)
  · apply (Int.zpow_le_iff_le_log (b := 2) (by decide) above).mp
    have high : (2 : K) ^ Nat.log 2 n ≤ n := by
      exact_mod_cast Nat.pow_log_le_self 2 positive.ne'
    rw [zpow_add₀ (by norm_num)]
    exact mul_le_mul_of_nonneg_right (by exact_mod_cast high) (by positivity)

/-- Rounding of whole numbers of a unit that is not too small. -/
theorem nearest_scaled {g : Int} (fine : F.least ≤ g) (n : Nat) :
    nearest F (n * 2 ^ g : K) = nearestNat F n * 2 ^ g := by
  rcases n.eq_zero_or_pos with rfl | positive
  · simp [nearestNat, shiftEven, nearest_zero]
  have unit : (2 : K) ^ g ≠ 0 := by positivity
  rcases Nat.le_total (n.log2 + 1) F.precision with few | many
  · have whole : n.log2 + 1 - F.precision = 0 := by omega
    have short : n < 2 ^ F.precision := (Nat.log2_lt positive.ne').mp (by omega)
    have is : Representable F (n * 2 ^ g : K) := by
      refine ⟨n, g, ?_, fine, by simp⟩
      rw [abs_of_nonneg (by omega)]
      exact_mod_cast short
    rw [nearest_exact is, nearestNat, whole]
    simp [shiftEven, Nat.mod_one]
  · have exponent : quantum F (n * 2 ^ g : K) = ((n.log2 + 1 - F.precision : Nat) : Int) + g := by
      rw [quantum, log_scaled positive]
      omega
    have quotient : (n * 2 ^ g : K) / 2 ^ (((n.log2 + 1 - F.precision : Nat) : Int) + g) =
        n / 2 ^ (n.log2 + 1 - F.precision) := by
      rw [zpow_add₀ two_ne_zero, mul_div_mul_right _ _ unit, zpow_natCast]
    rw [nearest, exponent, quotient, roundEven_div, nearestNat, zpow_add₀ two_ne_zero, zpow_natCast]
    push_cast
    ring

end Rounding
