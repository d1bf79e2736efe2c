import Mathlib.Data.Nat.Notation

/-!
A `while` loop whose body may fail. The fuel only bounds the number of
iterations: `none` means that it ran out, and a loop that returns under some
fuel returns the same result under any larger one.
-/
namespace WhileLoop
variable {σ ε : Type*}

def whileLoop (cond : σ → Bool) (body : σ → Except ε σ) : Nat → σ → Option (Except ε σ)
  | 0, s => if cond s then none else some (.ok s)
  | fuel + 1, s =>
      if cond s then
        match body s with
        | .ok next => whileLoop cond body fuel next
        | .error e => some (.error e)
      else some (.ok s)

theorem whileLoop_exit {cond : σ → Bool} {body : σ → Except ε σ} {s : σ}
    (done : cond s = false) (fuel : Nat) : whileLoop cond body fuel s = some (.ok s) := by
  cases fuel <;> simp [whileLoop, done]

theorem whileLoop_step {cond : σ → Bool} {body : σ → Except ε σ} {s next : σ}
    (go : cond s = true) (run : body s = .ok next) (fuel : Nat) :
    whileLoop cond body (fuel + 1) s = whileLoop cond body fuel next := by
  simp [whileLoop, go, run]

theorem whileLoop_fail {cond : σ → Bool} {body : σ → Except ε σ} {s : σ} {e : ε}
    (go : cond s = true) (run : body s = .error e) (fuel : Nat) :
    whileLoop cond body (fuel + 1) s = some (.error e) := by
  simp [whileLoop, go, run]

theorem whileLoop_more_fuel {cond : σ → Bool} {body : σ → Except ε σ} {fuel : Nat} {s : σ}
    {r : Except ε σ} (run : whileLoop cond body fuel s = some r) (extra : Nat) :
    whileLoop cond body (fuel + extra) s = some r := by
  induction fuel generalizing s with
  | zero =>
    cases go : cond s with
    | true => simp [whileLoop, go] at run
    | false =>
      rw [whileLoop_exit go] at run ⊢
      exact run
  | succ fuel ih =>
    rw [Nat.succ_add]
    cases go : cond s with
    | false =>
      rw [whileLoop_exit go] at run ⊢
      exact run
    | true =>
      cases out : body s with
      | ok next =>
        rw [whileLoop_step go out] at run ⊢
        exact ih run
      | error e =>
        rw [whileLoop_fail go out] at run ⊢
        exact run

/-- The rule of the loop: the invariant carries the result, and the measure
    the termination. It is positive whenever the body is run. -/
theorem whileLoop_ends (cond : σ → Bool) (body : σ → Except ε σ) (inv : σ → Prop)
    (fails : ε → Prop) (measure : σ → Nat)
    (step : ∀ s, inv s → cond s = true →
      (∃ next, body s = .ok next ∧ inv next ∧ measure next < measure s) ∨
        ∃ e, body s = .error e ∧ fails e ∧ 0 < measure s)
    {fuel : Nat} {s : σ} (start : inv s) (budget : measure s ≤ fuel) :
    (∃ r, whileLoop cond body fuel s = some (.ok r) ∧ inv r ∧ cond r = false) ∨
      ∃ e, whileLoop cond body fuel s = some (.error e) ∧ fails e := by
  induction fuel generalizing s with
  | zero =>
    cases go : cond s with
    | false => exact Or.inl ⟨s, whileLoop_exit go 0, start, go⟩
    | true =>
      rcases step s start go with ⟨next, _, _, less⟩ | ⟨e, _, _, positive⟩ <;> omega
  | succ fuel ih =>
    cases go : cond s with
    | false => exact Or.inl ⟨s, whileLoop_exit go _, start, go⟩
    | true =>
      rcases step s start go with ⟨next, run, keep, less⟩ | ⟨e, run, bad, _⟩
      · rw [whileLoop_step go run]
        exact ih keep (by omega)
      · exact Or.inr ⟨e, whileLoop_fail go run fuel, bad⟩

/-- Partial correctness: what the body keeps holds when the loop returns. -/
theorem whileLoop_keeps {cond : σ → Bool} {body : σ → Except ε σ} {inv : σ → Prop}
    (keep : ∀ s next, inv s → cond s = true → body s = .ok next → inv next) {fuel : Nat} {s r : σ}
    (start : inv s) (run : whileLoop cond body fuel s = some (.ok r)) : inv r := by
  induction fuel generalizing s with
  | zero =>
    cases go : cond s with
    | true => simp [whileLoop, go] at run
    | false =>
      rw [whileLoop_exit go] at run
      cases run
      exact start
  | succ fuel ih =>
    cases go : cond s with
    | false =>
      rw [whileLoop_exit go] at run
      cases run
      exact start
    | true =>
      cases out : body s with
      | ok next =>
        rw [whileLoop_step go out] at run
        exact ih (keep s next start go out) run
      | error e =>
        rw [whileLoop_fail go out] at run
        cases run

/-- No loop fails whose body does not. -/
theorem whileLoop_returns {cond : σ → Bool} {body : σ → Except ε σ} {inv : σ → Prop}
    (step : ∀ s, inv s → cond s = true → ∃ next, body s = .ok next ∧ inv next) {fuel : Nat} {s : σ}
    {out : Except ε σ} (start : inv s) (run : whileLoop cond body fuel s = some out) :
    ∃ r, out = .ok r := by
  induction fuel generalizing s with
  | zero =>
    cases go : cond s with
    | true => simp [whileLoop, go] at run
    | false =>
      rw [whileLoop_exit go] at run
      cases run
      exact ⟨s, rfl⟩
  | succ fuel ih =>
    cases go : cond s with
    | false =>
      rw [whileLoop_exit go] at run
      cases run
      exact ⟨s, rfl⟩
    | true =>
      obtain ⟨next, taken, again⟩ := step s start go
      rw [whileLoop_step go taken] at run
      exact ih again run

/-- Total correctness of a loop whose body cannot fail while the invariant
    holds. -/
theorem whileLoop_total (cond : σ → Bool) (body : σ → Except ε σ) (inv : σ → Prop)
    (measure : σ → Nat)
    (step : ∀ s, inv s → cond s = true →
      ∃ next, body s = .ok next ∧ inv next ∧ measure next < measure s)
    {fuel : Nat} {s : σ} (start : inv s) (budget : measure s ≤ fuel) :
    ∃ r, whileLoop cond body fuel s = some (.ok r) ∧ inv r ∧ cond r = false := by
  have ends := whileLoop_ends cond body inv (fun _ => False) measure
    (fun s keep go => Or.inl (step s keep go)) start budget
  rcases ends with returned | ⟨e, _, impossible⟩
  · exact returned
  · exact impossible.elim

/-- Termination alone: a body that fails ends the loop as well. -/
theorem whileLoop_terminates (cond : σ → Bool) (body : σ → Except ε σ) (inv : σ → Prop)
    (measure : σ → Nat)
    (step : ∀ s next, inv s → cond s = true → body s = .ok next →
      inv next ∧ measure next < measure s)
    {fuel : Nat} {s : σ} (start : inv s) (budget : measure s < fuel) :
    whileLoop cond body fuel s ≠ none := by
  have ends := whileLoop_ends cond body inv (fun _ => True) (fun s => measure s + 1)
    (fun s keep go => by
      cases out : body s with
      | ok next =>
        obtain ⟨again, less⟩ := step s next keep go out
        exact Or.inl ⟨next, rfl, again, by omega⟩
      | error e => exact Or.inr ⟨e, rfl, trivial, by omega⟩) start budget
  rcases ends with ⟨r, out, _⟩ | ⟨e, out, _⟩ <;> simp [out]

end WhileLoop
