import Mathlib.Data.List.Basic

/-!
Queues whose items are stamped when they are sent, and again when they are
taken. Items are taken in the order in which they were sent.
-/
namespace TimedQueue
variable {α : Type*} {R : Nat → Nat → Prop} {sent more : List (Nat × α)} {taken : List Nat}

/-- The second stamp of every item that was taken fits its first. -/
structure Within (R : Nat → Nat → Prop) (sent : List (Nat × α)) (taken : List Nat) : Prop where
  count : taken.length ≤ sent.length
  each : ∀ (i f : Nat), taken[i]? = some f → ∃ x : Nat × α, sent[i]? = some x ∧ R x.1 f

/-- What is still in the queue. -/
def left (sent : List (Nat × α)) (taken : List Nat) : List (Nat × α) := sent.drop taken.length

theorem within_empty : Within R ([] : List (Nat × α)) [] :=
  ⟨Nat.le_refl _, fun i f none => by simp at none⟩

theorem within_send (within : Within R sent taken) (more : List (Nat × α)) :
    Within R (sent ++ more) taken := by
  obtain ⟨count, each⟩ := within
  constructor
  · rw [List.length_append]
    omega
  · intro i f stamped
    obtain ⟨x, there, fits⟩ := each i f stamped
    exact ⟨x, List.getElem?_append_left (List.getElem?_eq_some_iff.mp there).1 ▸ there, fits⟩

theorem within_take {x : Nat × α} {rest : List (Nat × α)} {f : Nat} (within : Within R sent taken)
    (front : left sent taken = x :: rest) (fits : R x.1 f) : Within R sent (taken ++ [f]) := by
  obtain ⟨count, each⟩ := within
  have here : sent[taken.length]? = some x := by
    rw [← List.head?_drop, ← left, front]
    rfl
  have inside := (List.getElem?_eq_some_iff.mp here).1
  constructor
  · rw [List.length_append, List.length_singleton]
    exact inside
  · intro i g stamped
    by_cases early : i < taken.length
    · rw [List.getElem?_append_left early] at stamped
      exact each i g stamped
    · have last : i = taken.length := by
        have short := (List.getElem?_eq_some_iff.mp stamped).1
        rw [List.length_append, List.length_singleton] at short
        omega
      subst last
      rw [List.getElem?_concat_length] at stamped
      cases stamped
      exact ⟨x, here, fits⟩

theorem left_send (count : taken.length ≤ sent.length) (more : List (Nat × α)) :
    left (sent ++ more) taken = left sent taken ++ more :=
  List.drop_append_of_le_length count

theorem left_take {x : Nat × α} {rest : List (Nat × α)} {f : Nat}
    (front : left sent taken = x :: rest) : left sent (taken ++ [f]) = rest := by
  rw [left] at front ⊢
  rw [List.length_append, List.length_singleton, ← List.drop_drop, front]
  rfl

/-- An item older than all that are left was taken in time. -/
theorem within_past {i : Nat} {x : Nat × α} (within : Within R sent taken)
    (there : sent[i]? = some x) (newer : ∀ y ∈ left sent taken, x.1 < y.1) :
    ∃ f, taken[i]? = some f ∧ R x.1 f := by
  have early : i < taken.length := by
    by_contra late
    have among : x ∈ left sent taken := by
      rw [left, List.mem_drop_iff_getElem]
      obtain ⟨inside, same⟩ := List.getElem?_eq_some_iff.mp there
      exact ⟨i - taken.length, by omega, by
        simp only [Nat.add_sub_cancel' (Nat.not_lt.mp late), same]⟩
    exact Nat.lt_irrefl _ (newer x among)
  obtain ⟨y, same, fits⟩ := within.each i _ (List.getElem?_eq_getElem early)
  rw [there] at same
  cases same
  exact ⟨_, List.getElem?_eq_getElem early, fits⟩

end TimedQueue
