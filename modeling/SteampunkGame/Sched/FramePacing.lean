import Mathlib.Data.Rat.Floor
import SteampunkGame.Lib.Rounding

/-!
The end of a frame in `runner_arbiter`: what is left of `frame_delay` is handed
to `sleep_for`, and `cycle_delta` is set, in double arithmetic.
-/
namespace SchedPacing
open Rounding

/-- The time to sleep, and the new `cycle_delta`. -/
def pace (frameDelay execDelta : Rat) : Rat × Rat :=
  let remainingTime := max 0 (nearest binary64 (frameDelay - execDelta))
  if 0 < remainingTime then (remainingTime, nearest binary64 (execDelta + remainingTime))
  else (0, execDelta)

/-- The `cycle_delta` of each of some frames. -/
def cycleDeltas (frameDelay : Rat) (execDeltas : List Rat) : List Rat :=
  execDeltas.map fun execDelta => (pace frameDelay execDelta).2

/-- What the frames have stored, added up. -/
def total : List Rat → Rat
  | [] => 0
  | delta :: rest => delta + total rest

variable {frameDelay execDelta : Rat}

theorem remaining_positive (delay : Representable binary64 frameDelay)
    (exec : Representable binary64 execDelta) :
    0 < nearest binary64 (frameDelay - execDelta) ↔ execDelta < frameDelay := by
  constructor
  · intro positive
    by_contra beyond
    have below : nearest binary64 (frameDelay - execDelta) ≤ nearest binary64 (0 : Rat) :=
      nearest_mono (sub_nonpos.mpr (not_lt.mp beyond))
    rw [nearest_zero] at below
    exact absurd positive (not_lt.mpr below)
  · exact nearest_sub_positive exec delay

theorem pace_over (delay : Representable binary64 frameDelay)
    (exec : Representable binary64 execDelta) (beyond : frameDelay ≤ execDelta) :
    pace frameDelay execDelta = (0, execDelta) := by
  have none_left := (remaining_positive delay exec).not.mpr (not_lt.mpr beyond)
  rw [pace, max_eq_left (not_lt.mp none_left), if_neg (lt_irrefl _)]

theorem pace_under (delay : Representable binary64 frameDelay)
    (exec : Representable binary64 execDelta) (under : execDelta < frameDelay) :
    pace frameDelay execDelta = (nearest binary64 (frameDelay - execDelta),
      nearest binary64 (execDelta + nearest binary64 (frameDelay - execDelta))) := by
  have left_ := (remaining_positive delay exec).mpr under
  rw [pace, max_eq_right left_.le, if_pos left_]

/-- Two roundings, of which the second is of a number about the delay. -/
theorem pace_error (delay : Representable binary64 frameDelay)
    (exec : Representable binary64 execDelta) (nonneg : 0 ≤ execDelta)
    (under : execDelta < frameDelay) :
    |(pace frameDelay execDelta).2 - frameDelay| ≤ frameDelay / 2 ^ 51 := by
  have grid := grid_sub (representable_grid exec) (representable_grid delay)
  have rest := nearest_relative_grid (F := binary64) grid
  rw [pace_under delay exec under]
  have sum_grid : ∃ k : Int, execDelta + nearest binary64 (frameDelay - execDelta) =
      k * 2 ^ binary64.least := by
    obtain ⟨k, first⟩ := representable_grid exec
    obtain ⟨l, second⟩ :=
      representable_grid (representable_nearest binary64 (frameDelay - execDelta))
    exact ⟨k + l, by rw [second, first]; push_cast; ring⟩
  have whole := nearest_relative_grid (F := binary64) sum_grid
  generalize nearest binary64 (frameDelay - execDelta) = remaining at rest whole ⊢
  rw [show binary64.precision = 53 from rfl] at rest whole
  rw [abs_of_pos (sub_pos.mpr under)] at rest
  have near := abs_le.mp rest
  have positive : 0 ≤ execDelta + remaining := by
    have small : (frameDelay - execDelta) / 2 ^ 53 ≤ frameDelay - execDelta :=
      div_le_self (sub_pos.mpr under).le (one_le_pow₀ one_le_two)
    linarith [near.1]
  rw [abs_of_nonneg positive] at whole
  have last := abs_le.mp whole
  rw [abs_le]
  constructor <;> linarith [near.1, near.2, last.1, last.2]

theorem cycle_least (delay : Representable binary64 frameDelay)
    (exec : Representable binary64 execDelta) (nonneg : 0 ≤ execDelta) (positive : 0 ≤ frameDelay) :
    frameDelay - frameDelay / 2 ^ 51 ≤ (pace frameDelay execDelta).2 := by
  rcases lt_or_ge execDelta frameDelay with under | beyond
  · have near := (abs_le.mp (pace_error delay exec nonneg under)).1
    linarith
  · rw [pace_over delay exec beyond]
    have part : 0 ≤ frameDelay / 2 ^ 51 := by positivity
    exact (sub_le_self _ part).trans beyond

/-- Any number of frames, with any execution times from zero on, add up to at
    least the delay for each of them, up to rounding. -/
theorem cycles_least (delay : Representable binary64 frameDelay) (positive : 0 ≤ frameDelay)
    {execDeltas : List Rat}
    (execs : ∀ execDelta ∈ execDeltas, Representable binary64 execDelta ∧ 0 ≤ execDelta) :
    execDeltas.length * (frameDelay - frameDelay / 2 ^ 51) ≤
      total (cycleDeltas frameDelay execDeltas) := by
  induction execDeltas with
  | nil => simp [cycleDeltas, total]
  | cons execDelta rest ih =>
    obtain ⟨exec, nonneg⟩ := execs execDelta List.mem_cons_self
    have first := cycle_least delay exec nonneg positive
    have others := ih fun other among => execs other (List.mem_cons_of_mem _ among)
    simp only [cycleDeltas, List.map_cons, total, List.length_cons] at others ⊢
    push_cast
    linarith

/-- There is time left to sleep if and only if the frame was faster than the
    delay. -/
theorem pace_slept (delay : Representable binary64 frameDelay)
    (exec : Representable binary64 execDelta) :
    0 < (pace frameDelay execDelta).1 ↔ execDelta < frameDelay := by
  rcases lt_or_ge execDelta frameDelay with under | beyond
  · rw [pace_under delay exec under]
    exact remaining_positive delay exec
  · rw [pace_over delay exec beyond]
    exact ⟨fun no => absurd no (lt_irrefl _), fun under => absurd under (not_lt.mpr beyond)⟩

end SchedPacing
