import Mathlib.Algebra.BigOperators.Group.Finset.Piecewise
import SteampunkGame.Lib.Runs

/-!
Runs that come to an end. Every step but the idle ones uses up some of a
potential, an idle step gives at most a fixed amount of it back, beside what it
adds to the funds of the run.
-/
namespace Progress
open Runs
variable {σ α : Type*} {step : σ → α → Option σ} {idle : α → Bool}

/-- Steps of a run that are not idle. -/
def steps (idle : α → Bool) (actions : List α) : Nat := actions.countP fun a => !idle a

/-- Nothing but idle steps is left. -/
def Stuck (step : σ → α → Option σ) (idle : α → Bool) (s : σ) : Prop :=
  ∀ a, idle a = false → step s a = none

structure Funded (step : σ → α → Option σ) (idle : α → Bool) (inv : σ → Prop)
    (potential funds : σ → Nat) (back : Nat) : Prop where
  keeps : ∀ s a t, inv s → step s a = some t → inv t
  grows : ∀ s a t, inv s → step s a = some t → funds s ≤ funds t
  falls : ∀ s a t, inv s → step s a = some t → idle a = false → potential t < potential s
  rises : ∀ s a t, inv s → step s a = some t → idle a = true →
    potential t + funds s ≤ potential s + funds t + back

/-- Without funds. -/
structure Charged (step : σ → α → Option σ) (idle : α → Bool) (inv : σ → Prop)
    (potential : σ → Nat) (back : Nat) : Prop where
  keeps : ∀ s a t, inv s → step s a = some t → inv t
  falls : ∀ s a t, inv s → step s a = some t → idle a = false → potential t < potential s
  rises : ∀ s a t, inv s → step s a = some t → idle a = true → potential t ≤ potential s + back

variable {inv : σ → Prop} {potential funds : σ → Nat} {back : Nat}

theorem charged_funded (charged : Charged step idle inv potential back) :
    Funded step idle inv potential (fun _ => 0) back :=
  ⟨charged.keeps, fun _ _ _ _ _ => Nat.le_refl 0, charged.falls, charged.rises⟩

theorem funded_run (funded : Funded step idle inv potential funds back) {actions : List α}
    {s t : σ} (start : inv s) (run : runActions step actions s = some t) :
    inv t ∧ steps idle actions + potential t + funds s ≤
      potential s + funds t + back * actions.countP idle := by
  induction actions generalizing s with
  | nil =>
    cases run
    exact ⟨start, by simp [steps]⟩
  | cons a rest ih =>
    simp only [runActions] at run
    cases first : step s a with
    | none => rw [first] at run; cases run
    | some next =>
      rw [first] at run
      have here := funded.keeps s a next start first
      obtain ⟨ends, bound⟩ := ih here run
      refine ⟨ends, ?_⟩
      unfold steps at bound ⊢
      cases kind : idle a with
      | false =>
        have less := funded.falls s a next start first kind
        have more := funded.grows s a next start first
        simp only [List.countP_cons, kind, Bool.not_false, if_true, Bool.false_eq_true, if_false,
          Nat.add_zero]
        omega
      | true =>
        have more := funded.rises s a next start first kind
        simp only [List.countP_cons, kind, Bool.not_true, if_true, Bool.false_eq_true, if_false,
          Nat.add_zero, Nat.mul_add]
        omega

theorem charged_run (charged : Charged step idle inv potential back) {actions : List α} {s t : σ}
    (start : inv s) (run : runActions step actions s = some t) :
    inv t ∧ steps idle actions + potential t ≤ potential s + back * actions.countP idle :=
  funded_run (charged_funded charged) start run

/-- From everywhere the end can be reached without idle steps. -/
theorem funded_ends (funded : Funded step idle inv potential funds back) {s : σ} (start : inv s) :
    ∃ actions t, (∀ a ∈ actions, idle a = false) ∧ actions.length ≤ potential s ∧
      runActions step actions s = some t ∧ Stuck step idle t := by
  induction size : potential s using Nat.strongRecOn generalizing s with
  | ind n ih =>
    subst size
    by_cases stuck : Stuck step idle s
    · exact ⟨[], s, by simp, Nat.zero_le _, rfl, stuck⟩
    · simp only [Stuck, not_forall] at stuck
      obtain ⟨a, busy, moves⟩ := stuck
      obtain ⟨next, first⟩ := Option.ne_none_iff_exists'.mp moves
      have less := funded.falls s a next start first busy
      obtain ⟨actions, t, quiet, short, run, ends⟩ :=
        ih _ less (funded.keeps s a next start first) rfl
      refine ⟨a :: actions, t, ?_, ?_, ?_, ends⟩
      · intro b among
        cases List.mem_cons.mp among with
        | inl same => rw [same]; exact busy
        | inr later => exact quiet b later
      · rw [List.length_cons]
        omega
      · simp only [runActions, first]
        exact run

theorem charged_ends (charged : Charged step idle inv potential back) {s : σ} (start : inv s) :
    ∃ actions t, (∀ a ∈ actions, idle a = false) ∧ actions.length ≤ potential s ∧
      runActions step actions s = some t ∧ Stuck step idle t :=
  funded_ends (charged_funded charged) start

/-- A potential that is a sum over some parties, when only one of them moves. -/
theorem sum_moved {ι : Type*} [DecidableEq ι] {parties : Finset ι} {i : ι} (member : i ∈ parties)
    {before after : ι → Nat} (others : ∀ j, j ≠ i → after j = before j) :
    ∑ j ∈ parties, after j + before i = ∑ j ∈ parties, before j + after i := by
  have rest : ∑ j ∈ parties.erase i, after j = ∑ j ∈ parties.erase i, before j :=
    Finset.sum_congr rfl fun j among => others j (Finset.ne_of_mem_erase among)
  have later := Finset.add_sum_erase _ after member
  have earlier := Finset.add_sum_erase _ before member
  omega

end Progress
