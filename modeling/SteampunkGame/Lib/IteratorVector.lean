import Mathlib.Data.List.Basic

/-!
A growable array together with the iterators taken at one moment. Appending
to a full array and erasing in front of an iterator invalidate it; up to then
it points at the element at which it was taken.
-/
namespace IteratorVector
variable {α : Type*}

/-- Iterators from the marked moment are valid at positions below `intact`. -/
structure Vec (α : Type*) where
  items : List α
  capacity : Nat
  intact : Nat
  fits : items.length ≤ capacity
  bounded : intact ≤ items.length

/-- From here on look at the iterators that can be taken now. -/
def Vec.mark (v : Vec α) : Vec α := { v with intact := v.items.length, bounded := Nat.le_refl _ }

/-- `grow` gives the next capacity where the implementation asks for more
    than the one element that is needed. -/
def Vec.pushBack (grow : Nat → Nat) (v : Vec α) (a : α) : Vec α :=
  if full : v.items.length = v.capacity then {
    items := v.items ++ [a]
    capacity := max (grow v.capacity) (v.capacity + 1)
    intact := 0
    fits := by
      rw [List.length_append, full]
      exact Nat.le_max_right _ _
    bounded := Nat.zero_le _ }
  else {
    items := v.items ++ [a]
    capacity := v.capacity
    intact := v.intact
    fits := by
      have := v.fits
      rw [List.length_append, List.length_singleton]
      omega
    bounded := by
      have := v.bounded
      rw [List.length_append]
      omega }

/-- Erasing through an iterator that is not valid, such as the one past the
    end, is undefined behaviour. -/
def Vec.erase (v : Vec α) (position : Nat) : Option (Vec α) :=
  if valid : position < v.intact then some {
    items := v.items.eraseIdx position
    capacity := v.capacity
    intact := position
    fits := Nat.le_trans (List.length_eraseIdx_le _ _) v.fits
    bounded := by
      have := v.bounded
      rw [List.length_eraseIdx_of_lt (by omega)]
      omega }
  else none

@[simp] theorem mark_items (v : Vec α) : v.mark.items = v.items := rfl
@[simp] theorem mark_capacity (v : Vec α) : v.mark.capacity = v.capacity := rfl
@[simp] theorem mark_intact (v : Vec α) : v.mark.intact = v.items.length := rfl

@[simp] theorem pushBack_items (grow : Nat → Nat) (v : Vec α) (a : α) :
    (v.pushBack grow a).items = v.items ++ [a] := by
  unfold Vec.pushBack
  split <;> rfl

theorem pushBack_full {grow : Nat → Nat} {v : Vec α} (full : v.items.length = v.capacity) (a : α) :
    (v.pushBack grow a).intact = 0 := by
  rw [Vec.pushBack, dif_pos full]

theorem pushBack_spare {grow : Nat → Nat} {v : Vec α} (spare : v.items.length ≠ v.capacity)
    (a : α) : (v.pushBack grow a).intact = v.intact ∧
      (v.pushBack grow a).capacity = v.capacity := by
  rw [Vec.pushBack, dif_neg spare]
  exact ⟨rfl, rfl⟩

theorem pushBack_intact_le (grow : Nat → Nat) (v : Vec α) (a : α) :
    (v.pushBack grow a).intact ≤ v.intact := by
  by_cases full : v.items.length = v.capacity
  · rw [pushBack_full full]
    exact Nat.zero_le _
  · exact Nat.le_of_eq (pushBack_spare full a).1

theorem erase_invalid {v : Vec α} {position : Nat} (invalid : v.intact ≤ position) :
    v.erase position = none := by
  rw [Vec.erase, dif_neg (Nat.not_lt.mpr invalid)]

theorem erase_valid {v : Vec α} {position : Nat} (valid : position < v.intact) :
    ∃ after, v.erase position = some after ∧ after.items = v.items.eraseIdx position ∧
      after.capacity = v.capacity ∧ after.intact = position := by
  rw [Vec.erase, dif_pos valid]
  exact ⟨_, rfl, rfl, rfl, rfl⟩

/-- The elements under valid iterators are where they were. -/
def Keeps (old : List α) (v : Vec α) : Prop := v.items.take v.intact = old.take v.intact

theorem keeps_mark (v : Vec α) : Keeps v.items v.mark := rfl

theorem keeps_shorter {old items : List α} {i j : Nat} (same : items.take i = old.take i)
    (less : j ≤ i) : items.take j = old.take j := by
  have cut := congrArg (List.take j) same
  rwa [List.take_take, List.take_take, Nat.min_eq_left less] at cut

theorem keeps_pushBack {old : List α} {v : Vec α} (keeps : Keeps old v) (grow : Nat → Nat) (a : α) :
    Keeps old (v.pushBack grow a) := by
  have less := pushBack_intact_le grow v a
  unfold Keeps
  rw [pushBack_items, List.take_append_of_le_length (Nat.le_trans less v.bounded)]
  exact keeps_shorter keeps less

theorem keeps_erase {old : List α} {v after : Vec α} {position : Nat} (keeps : Keeps old v)
    (run : v.erase position = some after) : Keeps old after := by
  by_cases valid : position < v.intact
  · obtain ⟨w, same, items, _, intact⟩ := erase_valid valid
    rw [run] at same
    cases same
    have inside := Nat.le_trans (Nat.le_of_lt valid) v.bounded
    unfold Keeps
    rw [items, intact, List.eraseIdx_eq_take_drop_succ,
      List.take_left' (List.length_take_of_le inside)]
    exact keeps_shorter keeps (Nat.le_of_lt valid)
  · rw [erase_invalid (Nat.not_lt.mp valid)] at run
    cases run

variable [DecidableEq α]

/-- Position of the first occurrence, or past the end. -/
def Vec.find (v : Vec α) (a : α) : Nat := v.items.idxOf a

theorem mem_take_of_idxOf_lt {old : List α} {n : Nat} {a : α} (inside : n ≤ old.length)
    (early : old.idxOf a < n) : a ∈ old.take n :=
  (List.mem_take_iff_idxOf_lt (List.idxOf_lt_length_iff.mp (Nat.lt_of_lt_of_le early inside))).mpr
    early

/-- A valid iterator that was taken at a first occurrence is still at one. -/
theorem keeps_first {old : List α} {v : Vec α} {a : α} (keeps : Keeps old v)
    (valid : old.idxOf a < v.intact) : v.items.idxOf a = old.idxOf a := by
  have inside : v.intact ≤ old.length := by
    have lengths := congrArg List.length keeps
    rw [List.length_take_of_le v.bounded, List.length_take] at lengths
    omega
  have among : a ∈ old.take v.intact := mem_take_of_idxOf_lt inside valid
  have still : a ∈ v.items.take v.intact := by rwa [keeps]
  calc v.items.idxOf a
      = (v.items.take v.intact).idxOf a :=
        ((List.take_prefix _ _).idxOf_eq_of_mem still).symm
    _ = (old.take v.intact).idxOf a := by rw [keeps]
    _ = old.idxOf a := (List.take_prefix _ _).idxOf_eq_of_mem among

/-- So erasing through it removes the first occurrence. -/
theorem keeps_erase_first {old : List α} {v : Vec α} {a : α} (keeps : Keeps old v)
    (valid : old.idxOf a < v.intact) : ∃ after, v.erase (old.idxOf a) = some after ∧
      after.items = v.items.erase a ∧ after.capacity = v.capacity ∧
      after.intact = old.idxOf a := by
  obtain ⟨after, run, items, capacity, intact⟩ := erase_valid valid
  refine ⟨after, run, ?_, capacity, intact⟩
  rw [items, List.erase_eq_eraseIdx_of_idxOf (keeps_first keeps valid)]

end IteratorVector
