import Mathlib.Algebra.Order.Ring.Int
import Mathlib.Tactic.LinearCombination
import SteampunkGame.Sched.FramePacing

/-!
`world::set_fps` and `world::get_fps`. The delay is a double, so the rate that
is read back can be one less than the one that was set.
-/
namespace GameFrameRate
open Rounding SchedPacing

/-- What is stored in `frame_delay`, which can become infinite. -/
inductive Delay where
  | seconds (s : Rat)
  | infinite
  deriving DecidableEq, Repr

/-- `desktop` is the `refresh_rate` of the display mode, if SDL has found one.
    The quotients in this branch are of the type `long double`. -/
def setFps (wide : Format) (desktop : Option Int32) (fps : Int32) : Delay :=
  if fps = 0 then
    match desktop with
    | none => .seconds (nearest binary64 (nearest wide (1 / 60)))
    | some refreshRate =>
        if refreshRate = 0 then .infinite
        else .seconds (nearest binary64 (nearest wide (1 / refreshRate.toInt)))
  else .seconds (nearest binary64 (1 / fps.toInt))

/-- `none` for the cast of an infinite quotient. -/
def getFps : Delay → Option Int
  | .seconds s => if s = 0 then none else some (truncate (nearest binary64 (1 / s)))
  | .infinite => some 0

/-- A `long double` is a double, or has more bits and a wider range. -/
structure Wide (wide : Format) : Prop where
  precision : 53 ≤ wide.precision
  normal : wide.least + wide.precision ≤ -1021

theorem wide_double : Wide binary64 := ⟨by decide, by decide⟩
theorem wide_extended : Wide extended := ⟨by decide, by decide⟩

variable {wide F : Format} {n : Int} {d x : Rat}

/-- The relative error of `x` as an approximation of `1 / n`. -/
def Near (n : Int) (x : Rat) : Prop := |x - 1 / n| ≤ 1 / n / 2 ^ 51

theorem log_least {k : Int} (positive : 0 < x) (least : 2 ^ k ≤ x) : k ≤ Int.log 2 |x| := by
  rw [abs_of_pos positive]
  exact (Int.zpow_le_iff_le_log (b := 2) (by decide) positive).mp (by exact_mod_cast least)

theorem nearest_error (normal : Wide F) (positive : 0 < x) (least : 2 ^ (-32 : Int) ≤ x) :
    |nearest F x - x| ≤ x / 2 ^ 53 := by
  have log := log_least positive least
  have bits := normal.precision
  have error := nearest_relative (F := F) (x := x) (by have := normal.normal; omega) positive.ne'
  rw [abs_of_pos positive] at error
  apply error.trans
  exact div_le_div_of_nonneg_left positive.le (by positivity)
    (pow_le_pow_right₀ one_le_two bits)

theorem inverse_least (positive : 0 < n) (bound : n ≤ 2 ^ 31) :
    (2 : Rat) ^ (-31 : Int) ≤ 1 / n := by
  have above : (0 : Rat) < n := by exact_mod_cast positive
  rw [zpow_neg, inv_eq_one_div]
  apply one_div_le_one_div_of_le above
  exact_mod_cast bound

theorem near_double (positive : 0 < n) (bound : n ≤ 2 ^ 31) :
    Near n (nearest binary64 (1 / n)) := by
  have above : (0 : Rat) < 1 / n := one_div_pos.mpr (by exact_mod_cast positive)
  have least := inverse_least positive bound
  have error := nearest_error wide_double above
    (le_trans (zpow_le_zpow_right₀ one_le_two (by decide)) least)
  apply error.trans
  exact div_le_div_of_nonneg_left above.le (by positivity)
    (pow_le_pow_right₀ one_le_two (by decide))

/-- Rounding twice is almost as good. -/
theorem near_twice (normal : Wide wide) (positive : 0 < n) (bound : n ≤ 2 ^ 31) :
    Near n (nearest binary64 (nearest wide (1 / n))) := by
  have above : (0 : Rat) < 1 / n := one_div_pos.mpr (by exact_mod_cast positive)
  have least := inverse_least positive bound
  have first := abs_le.mp (nearest_error normal above
    (le_trans (zpow_le_zpow_right₀ one_le_two (by decide)) least))
  have half : (2 : Rat) ^ (-32 : Int) = 2 ^ (-31 : Int) / 2 := by norm_num
  have still : (2 : Rat) ^ (-32 : Int) ≤ nearest wide (1 / n : Rat) := by
    rw [half]
    linarith [first.1]
  have second := abs_le.mp (nearest_error wide_double (lt_of_lt_of_le (by positivity) still) still)
  rw [Near, abs_le]
  constructor <;> linarith [first.1, first.2, second.1, second.2]

/-- The quotient is within a half of `n`, and rounding keeps it there. -/
theorem near_inverse (positive : 0 < n) (bound : n ≤ 2 ^ 31) (near : Near n d) :
    0 < d ∧ (n : Rat) - 1 / 2 ≤ nearest binary64 (1 / d) ∧
      nearest binary64 (1 / d) ≤ n + 1 / 2 := by
  have large : (1 : Rat) ≤ n := by exact_mod_cast positive
  have above : (0 : Rat) < 1 / n := one_div_pos.mpr (by linarith)
  have least := inverse_least positive bound
  have inverse : (n : Rat) * (1 / n) = 1 := by field_simp
  obtain ⟨low, high⟩ := abs_le.mp near
  generalize (1 / n : Rat) = u at above least inverse low high
  have unit : (2 : Rat) ^ (-31 : Int) = 1 / 2 ^ 31 := by norm_num
  rw [unit] at least
  have room : 0 < d := by linarith
  have halves (k : Int) (few : |2 * k + 1| < 2 ^ 53) :
      Representable binary64 ((k : Rat) + 1 / 2) := by
    refine ⟨2 * k + 1, -1, few, by decide, ?_⟩
    push_cast
    rw [zpow_neg_one]
    ring
  refine ⟨room, ?_, ?_⟩
  · have here : ((n - 1 : Int) : Rat) + 1 / 2 ≤ nearest binary64 (1 / d) := by
      apply le_nearest (halves (n - 1) (by rw [abs_lt]; omega))
      rw [le_div_iff₀ room]
      push_cast
      calc ((n : Rat) - 1 + 1 / 2) * d
          ≤ (n - 1 + 1 / 2) * (u + u / 2 ^ 51) :=
            mul_le_mul_of_nonneg_left (by linarith) (by linarith)
        _ = 1 + 1 / 2 ^ 51 - u / 2 - u / 2 ^ 52 := by
            linear_combination (1 + 1 / 2 ^ 51) * inverse
        _ ≤ 1 := by linarith
    push_cast at here
    linarith
  · apply nearest_le _ (halves n (by rw [abs_lt]; omega))
    rw [div_le_iff₀ room]
    calc (1 : Rat)
        ≤ 1 - 1 / 2 ^ 51 + u / 2 - u / 2 ^ 52 := by linarith
      _ = (n + 1 / 2) * (u - u / 2 ^ 51) := by
          linear_combination -(1 - 1 / 2 ^ 51) * inverse
      _ ≤ (n + 1 / 2) * d := mul_le_mul_of_nonneg_left (by linarith) (by linarith)

theorem setFps_nonzero (desktop : Option Int32) {fps : Int32} (nonzero : fps ≠ 0) :
    setFps wide desktop fps = .seconds (nearest binary64 (1 / fps.toInt)) := if_neg nonzero

/-- What is read back for a positive rate, and for a negative one. -/
theorem near_read (positive : 0 < n) (bound : n ≤ 2 ^ 31) (near : Near n d) :
    (getFps (.seconds d) = some n ∨ getFps (.seconds d) = some (n - 1)) ∧
      (getFps (.seconds (-d)) = some (-n) ∨ getFps (.seconds (-d)) = some (-(n - 1))) := by
  obtain ⟨room, low, high⟩ := near_inverse positive bound near
  have large : (1 : Rat) ≤ n := by exact_mod_cast positive
  have nonneg : 0 ≤ nearest binary64 (1 / d) := by linarith
  have floor : ⌊nearest binary64 (1 / d)⌋ = n ∨ ⌊nearest binary64 (1 / d)⌋ = n - 1 := by
    have least : n - 1 ≤ ⌊nearest binary64 (1 / d)⌋ := by
      rw [Int.le_floor]
      push_cast
      linarith
    have most : ⌊nearest binary64 (1 / d)⌋ < n + 1 := by
      rw [Int.floor_lt]
      push_cast
      linarith
    omega
  have same : truncate (nearest binary64 (1 / d)) = ⌊nearest binary64 (1 / d)⌋ :=
    truncate_nonneg nonneg
  have flipped : truncate (nearest binary64 (1 / -d)) = -⌊nearest binary64 (1 / d)⌋ := by
    rw [div_neg, nearest_neg, truncate]
    split
    · rename_i both
      have zero : nearest binary64 (1 / d) = 0 := by linarith
      rw [zero]
      simp
    · exact Int.ceil_neg
  rw [getFps, if_neg room.ne', getFps, if_neg (neg_ne_zero.mpr room.ne'), same, flipped]
  rcases floor with eq | eq
  · rw [eq]
    exact ⟨Or.inl rfl, Or.inl rfl⟩
  · rw [eq]
    exact ⟨Or.inr rfl, Or.inr rfl⟩

/-- A rate of frames is read back as it was set, or as one that is nearer to
    zero by one. The same goes for the refresh rate of the display, and for 60
    when SDL does not find it; a display that reports a rate of zero makes the
    delay infinite, and nothing else does. -/
theorem fps_round_trip (wide : Format) (normal : Wide wide) (desktop : Option Int32)
    (fps : Int32) :
    (0 < fps → getFps (setFps wide desktop fps) = some fps.toInt ∨
      getFps (setFps wide desktop fps) = some (fps.toInt - 1)) ∧
    (fps < 0 → getFps (setFps wide desktop fps) = some fps.toInt ∨
      getFps (setFps wide desktop fps) = some (fps.toInt + 1)) ∧
    (∀ refreshRate, desktop = some refreshRate → 0 < refreshRate →
      getFps (setFps wide desktop 0) = some refreshRate.toInt ∨
        getFps (setFps wide desktop 0) = some (refreshRate.toInt - 1)) ∧
    (desktop = none → getFps (setFps wide desktop 0) = some 60 ∨
      getFps (setFps wide desktop 0) = some 59) ∧
    (setFps wide desktop fps = .infinite ↔ fps = 0 ∧ desktop = some 0) := by
  refine ⟨?_, ?_, ?_, ?_, ?_⟩
  · intro positive
    have above : 0 < fps.toInt := Int32.lt_iff_toInt_lt.mp positive
    have bound := fps.toInt_lt
    rw [setFps_nonzero desktop (by rintro rfl; exact absurd above (by decide))]
    exact (near_read above bound.le (near_double above bound.le)).1
  · intro negative
    have below : fps.toInt < 0 := Int32.lt_iff_toInt_lt.mp negative
    have bound := fps.le_toInt
    have above : 0 < -fps.toInt := by omega
    have read := (near_read above (by omega) (near_double above (by omega))).2
    have delay : (1 : Rat) / fps.toInt = -(1 / ((-fps.toInt : Int) : Rat)) := by
      push_cast
      rw [div_neg, neg_neg]
    rw [setFps_nonzero desktop (by rintro rfl; exact absurd below (by decide)), delay,
      nearest_neg]
    rwa [neg_neg, neg_sub, sub_neg_eq_add, add_comm] at read
  · rintro refreshRate rfl positive
    have above : 0 < refreshRate.toInt := Int32.lt_iff_toInt_lt.mp positive
    have bound := refreshRate.toInt_lt
    simp only [setFps, if_true]
    rw [if_neg (by rintro rfl; exact absurd above (by decide))]
    exact (near_read above bound.le (near_twice normal above bound.le)).1
  · rintro rfl
    have near := near_twice normal (n := 60) (by decide) (by decide)
    exact (near_read (by decide) (by decide) near).1
  · simp only [setFps]
    split
    · rename_i zero
      split
      · simp
      · split
        · rename_i refreshRate still
          simp [zero, still]
        · rename_i refreshRate still
          simp [still]
    · rename_i other
      simp [other]

/-- The double for 93 is a little above `1 / 93`, so 92 is read back. -/
theorem fps_round_trip_extended :
    (getFps (setFps extended none 93) = some 93 ∨ getFps (setFps extended none 93) = some 92) ∧
      getFps (setFps extended none 93) = some 92 ∧ getFps (setFps extended none 0) = some 60 :=
  ⟨(fps_round_trip extended wide_extended none 93).1 (by decide), by decide +kernel,
    by decide +kernel⟩

/-- With the rate set to a positive `fps`, in any run of frames whose execution
    takes no negative time: the arbiter has time left to sleep in exactly the
    frames that were faster than the delay. For these `cycle_delta` is `1 / fps`
    seconds up to rounding, for the others the time of their execution, and all
    together it comes to at least `1 / fps` seconds each. -/
theorem fps_cap (wide : Format) (desktop : Option Int32) (fps : Int32) (positive : 0 < fps)
    (execDeltas : List Rat)
    (execs : ∀ execDelta ∈ execDeltas, Representable binary64 execDelta ∧ 0 ≤ execDelta) :
    ∃ s, setFps wide desktop fps = .seconds s ∧
      (∀ execDelta ∈ execDeltas, (0 < (pace s execDelta).1 ↔ execDelta < s) ∧
        (execDelta < s → |(pace s execDelta).2 - 1 / fps.toInt| ≤ 1 / fps.toInt / 2 ^ 49) ∧
        (s ≤ execDelta → (pace s execDelta).2 = execDelta)) ∧
      execDeltas.length * (1 / (fps.toInt : Rat)) * (1 - 1 / 2 ^ 50) ≤
        total (cycleDeltas s execDeltas) := by
  have above : 0 < fps.toInt := Int32.lt_iff_toInt_lt.mp positive
  have large : (1 : Rat) ≤ fps.toInt := by exact_mod_cast above
  have unit : (0 : Rat) < 1 / fps.toInt := one_div_pos.mpr (by linarith)
  have near := abs_le.mp (near_double above fps.toInt_lt.le)
  have delay := representable_nearest binary64 (1 / (fps.toInt : Rat))
  refine ⟨nearest binary64 (1 / fps.toInt), ?_, ?_, ?_⟩
  · exact setFps_nonzero desktop (by rintro rfl; exact absurd above (by decide))
  · intro execDelta among
    obtain ⟨exec, nonneg⟩ := execs execDelta among
    refine ⟨pace_slept delay exec, fun under => ?_, fun beyond => ?_⟩
    · have error := abs_le.mp (pace_error delay exec nonneg under)
      rw [abs_le]
      constructor <;> linarith [near.1, near.2, error.1, error.2]
    · rw [pace_over delay exec beyond]
  · have least := cycles_least delay (nearest_nonneg unit.le) execs
    apply le_trans _ least
    rw [mul_assoc]
    apply mul_le_mul_of_nonneg_left _ (Nat.cast_nonneg _)
    linarith [near.1]

/-- A frame that takes no time, and one that takes a second. -/
theorem fps_cap_sixty : ∃ s, setFps extended none 60 = .seconds s ∧
    2 * (1 / 60) * (1 - 1 / 2 ^ 50) ≤ total (cycleDeltas s [0, 1]) ∧ (pace s 1).2 = 1 := by
  have execs : ∀ execDelta ∈ [(0 : Rat), 1], Representable binary64 execDelta ∧ 0 ≤ execDelta := by
    intro execDelta among
    simp only [List.mem_cons, List.not_mem_nil, or_false] at among
    rcases among with rfl | rfl
    · exact ⟨⟨0, 0, by decide, by decide, by norm_num⟩, le_refl _⟩
    · exact ⟨⟨1, 0, by decide, by decide, by norm_num⟩, zero_le_one⟩
  obtain ⟨s, set_, each, least⟩ := fps_cap extended none 60 (by decide) [0, 1] execs
  have stored : s = nearest binary64 (1 / 60) := (Delay.seconds.inj set_).symm
  refine ⟨s, set_, ?_, ?_⟩
  · exact least
  · apply (each 1 (by simp)).2.2
    rw [stored]
    decide +kernel

end GameFrameRate
