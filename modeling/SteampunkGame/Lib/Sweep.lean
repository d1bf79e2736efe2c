import Mathlib.Logic.Function.Basic

/-!
A loop that visits numbered cells and may fail at any of them. The cells before
the failure keep what was done to them, and the ones behind it are not visited.
-/
namespace Sweep
variable {ι σ : Type*} [DecidableEq ι]

def sweep (body : ι → σ → Except σ σ) : List ι → (ι → σ) → Except (ι → σ) (ι → σ)
  | [], cells => .ok cells
  | i :: rest, cells =>
      match body i (cells i) with
      | .ok next => sweep body rest (Function.update cells i next)
      | .error next => .error (Function.update cells i next)

/-- What was computed, with an error or without. -/
def outcome {τ : Type*} : Except τ τ → τ
  | .ok next => next
  | .error next => next

def failed {τ : Type*} : Except τ τ → Bool
  | .ok _ => false
  | .error _ => true

/-- None of the cells before the given one fails. -/
def reached (fails : ι → Bool) (i : ι) : List ι → Bool
  | [] => false
  | j :: rest => decide (j = i) || (!fails j && reached fails i rest)

theorem reached_mem {fails : ι → Bool} {i : ι} {order : List ι}
    (gets : reached fails i order = true) : i ∈ order := by
  induction order with
  | nil => cases gets
  | cons j rest ih =>
    rw [reached, Bool.or_eq_true, decide_eq_true_eq, Bool.and_eq_true] at gets
    cases gets with
    | inl same => exact same ▸ List.mem_cons_self
    | inr later => exact List.mem_cons_of_mem j (ih later.2)

theorem reached_all {fails : ι → Bool} {i : ι} {order : List ι} (among : i ∈ order)
    (fine : ∀ j ∈ order, fails j = false) : reached fails i order = true := by
  induction order with
  | nil => cases among
  | cons j rest ih =>
    rw [reached, Bool.or_eq_true, decide_eq_true_eq, Bool.and_eq_true]
    cases List.mem_cons.mp among with
    | inl same => exact Or.inl same.symm
    | inr later =>
      right
      rw [fine j List.mem_cons_self]
      exact ⟨rfl, ih later fun k within => fine k (List.mem_cons_of_mem j within)⟩

theorem reached_congr {fails other : ι → Bool} {order : List ι} (i : ι)
    (same : ∀ j ∈ order, fails j = other j) : reached fails i order = reached other i order := by
  induction order with
  | nil => rfl
  | cons j rest ih =>
    rw [reached, reached, same j List.mem_cons_self,
      ih fun k within => same k (List.mem_cons_of_mem j within)]

/-- A turn of the loop leaves the later cells alone. -/
theorem update_later {j : ι} {rest : List ι} (once : j ∉ rest) (cells : ι → σ) (next : σ) :
    ∀ k ∈ rest, Function.update cells j next k = cells k := by
  intro k within
  refine Function.update_of_ne ?_ next cells
  rintro rfl
  exact once within

theorem sweep_absent (body : ι → σ → Except σ σ) {order : List ι} {i : ι} (absent : i ∉ order)
    (cells : ι → σ) : outcome (sweep body order cells) i = cells i := by
  induction order generalizing cells with
  | nil => rfl
  | cons j rest ih =>
    rw [List.mem_cons, not_or] at absent
    rw [sweep]
    cases body j (cells j) with
    | error next => exact Function.update_of_ne absent.1 next cells
    | ok next =>
      have later := ih absent.2 (Function.update cells j next)
      rwa [Function.update_of_ne absent.1] at later

/-- Each cell is worked on once if the sweep gets to it, and on its first value,
    because no other turn of the loop writes to it. -/
theorem sweep_cell (body : ι → σ → Except σ σ) {order : List ι} (once : order.Nodup)
    (cells : ι → σ) (i : ι) :
    outcome (sweep body order cells) i =
      if reached (fun j => failed (body j (cells j))) i order then
        outcome (body i (cells i))
      else cells i := by
  induction order generalizing cells with
  | nil => rfl
  | cons j rest ih =>
    rw [List.nodup_cons] at once
    rw [sweep, reached]
    by_cases here : j = i
    · subst here
      rw [decide_eq_true rfl, Bool.true_or, if_pos rfl]
      cases body j (cells j) with
      | error next => exact Function.update_self j next cells
      | ok next =>
        have kept := sweep_absent body once.1 (Function.update cells j next)
        rwa [Function.update_self] at kept
    · rw [decide_eq_false here, Bool.false_or]
      cases run : body j (cells j) with
      | error next => exact Function.update_of_ne (Ne.symm here) next cells
      | ok next =>
        have same : reached (fun k => failed (body k (Function.update cells j next k))) i rest =
            reached (fun k => failed (body k (cells k))) i rest :=
          reached_congr i fun k within => by rw [update_later once.1 cells next k within]
        have later := ih once.2 (Function.update cells j next)
        rw [same, Function.update_of_ne (Ne.symm here)] at later
        exact later

/-- A sweep that cannot fail works on all its cells. -/
theorem sweep_each (f : ι → σ → σ) {order : List ι} (once : order.Nodup) (cells : ι → σ) {i : ι}
    (among : i ∈ order) :
    outcome (sweep (fun j s => .ok (f j s)) order cells) i = f i (cells i) := by
  rw [sweep_cell _ once]
  exact if_pos (reached_all among fun _ _ => rfl)

/-- It fails as a whole exactly if one of its turns does. -/
theorem sweep_failed (body : ι → σ → Except σ σ) {order : List ι} (once : order.Nodup)
    (cells : ι → σ) :
    failed (sweep body order cells) = false ↔ ∀ j ∈ order, failed (body j (cells j)) = false := by
  induction order generalizing cells with
  | nil => simp [sweep, failed]
  | cons j rest ih =>
    rw [List.nodup_cons] at once
    rw [sweep, List.forall_mem_cons]
    cases run : body j (cells j) with
    | error next => simp [failed]
    | ok next =>
      have later := ih once.2 (Function.update cells j next)
      have same : (∀ k ∈ rest, failed (body k (Function.update cells j next k)) = false) ↔
          ∀ k ∈ rest, failed (body k (cells k)) = false :=
        forall₂_congr fun k within => by rw [update_later once.1 cells next k within]
      rw [same] at later
      exact later.trans (iff_and_self.mpr fun _ => rfl)

end Sweep
