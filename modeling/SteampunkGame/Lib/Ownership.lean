import Mathlib.Data.Finset.Card

/-!
Objects that are owned from outside or by lists of other objects, and that
are destroyed with their last owner. A cycle of owners keeps itself alive.
-/
namespace Ownership
variable {J : Type*}

def Owned (live : Finset J) (anchored : J → Prop) (owns : J → List J) (j : J) : Prop :=
  anchored j ∨ ∃ q ∈ live, j ∈ owns q

/-- Every owner of the object is destroyed before it. -/
inductive Doomed (live : Finset J) (anchored : J → Prop) (owns : J → List J) : J → Prop where
  | lost (j : J) (member : j ∈ live) (loose : ¬ anchored j)
      (owners : ∀ q ∈ live, j ∈ owns q → Doomed live anchored owns q) :
      Doomed live anchored owns j

/-- All objects have an owner. -/
def Collected (live : Finset J) (anchored : J → Prop) (owns : J → List J) : Prop :=
  ∀ j ∈ live, Owned live anchored owns j

theorem owned_mono {live : Finset J} {anchored wider : J → Prop} {owns more : J → List J} {j : J}
    (owned : Owned live anchored owns j) (outside : ∀ x, anchored x → wider x)
    (lists : ∀ q, owns q ⊆ more q) : Owned live wider more j := by
  cases owned with
  | inl held => exact Or.inl (outside j held)
  | inr listed =>
    obtain ⟨q, member, inside⟩ := listed
    exact Or.inr ⟨q, member, lists q inside⟩

theorem collected_spared {live : Finset J} {anchored : J → Prop} {owns : J → List J}
    (collected : Collected live anchored owns) (j : J) : ¬ Doomed live anchored owns j := by
  intro doomed
  induction doomed with
  | lost j member loose owners ih =>
    cases collected j member with
    | inl held => exact loose held
    | inr listed =>
      obtain ⟨q, among, inside⟩ := listed
      exact ih q among inside

variable [DecidableEq J] (anchored : J → Prop) [DecidablePred anchored] (owns : J → List J)

instance (live : Finset J) (j : J) : Decidable (Owned live anchored owns j) :=
  inferInstanceAs (Decidable (anchored j ∨ ∃ q ∈ live, j ∈ owns q))

/-- Destroy what has no owner. -/
def sweep (live : Finset J) : Finset J := live.filter (Owned live anchored owns)

def sweeps : Nat → Finset J → Finset J
  | 0, live => live
  | n + 1, live => sweeps n (sweep anchored owns live)

/-- Sweep until nothing changes; every sweep before destroys something. -/
def collect (live : Finset J) : Finset J := sweeps anchored owns live.card live

variable {anchored owns}

theorem sweep_subset (live : Finset J) : sweep anchored owns live ⊆ live :=
  Finset.filter_subset _ _

theorem sweeps_stable {live : Finset J} (stable : sweep anchored owns live = live) (n : Nat) :
    sweeps anchored owns n live = live := by
  induction n with
  | zero => rfl
  | succ n ih => rw [sweeps, stable, ih]

theorem sweeps_settle (n : Nat) {live : Finset J} (enough : live.card ≤ n) :
    sweep anchored owns (sweeps anchored owns n live) = sweeps anchored owns n live := by
  induction n generalizing live with
  | zero =>
    have empty := Finset.card_eq_zero.mp (Nat.le_zero.mp enough)
    rw [sweeps, empty]
    rfl
  | succ n ih =>
    by_cases stable : sweep anchored owns live = live
    · rw [sweeps_stable stable, stable]
    · have less := Finset.card_lt_card
        (Finset.ssubset_iff_subset_ne.mpr ⟨sweep_subset live, stable⟩)
      rw [sweeps]
      exact ih (by omega)

theorem sweeps_subset (n : Nat) (live : Finset J) : sweeps anchored owns n live ⊆ live := by
  induction n generalizing live with
  | zero => exact Finset.Subset.refl live
  | succ n ih => exact (ih _).trans (sweep_subset live)

/-- What the sweeps have destroyed so far was doomed from the start. -/
theorem sweeps_doomed {start : Finset J} (n : Nat) {live : Finset J} (inside : live ⊆ start)
    (before : ∀ j ∈ start, j ∉ live → Doomed start anchored owns j) :
    ∀ j ∈ start, j ∉ sweeps anchored owns n live → Doomed start anchored owns j := by
  induction n generalizing live with
  | zero => exact before
  | succ n ih =>
    apply ih ((sweep_subset live).trans inside)
    intro j member gone
    by_cases still : j ∈ live
    · have unowned : ¬ Owned live anchored owns j := fun owned =>
        gone (Finset.mem_filter.mpr ⟨still, owned⟩)
      apply Doomed.lost j member (fun held => unowned (Or.inl held))
      intro q among listed
      exact before q among fun alive => unowned (Or.inr ⟨q, alive, listed⟩)
    · exact before j member still

theorem collect_collected (live : Finset J) :
    Collected (collect anchored owns live) anchored owns := by
  intro j member
  rw [collect, ← sweeps_settle live.card (Nat.le_refl _)] at member
  exact (Finset.mem_filter.mp member).2

/-- What is left is what is not doomed. -/
theorem mem_collect {live : Finset J} {j : J} :
    j ∈ collect anchored owns live ↔ j ∈ live ∧ ¬ Doomed live anchored owns j := by
  have inside : collect anchored owns live ⊆ live := sweeps_subset _ live
  constructor
  · intro member
    refine ⟨inside member, ?_⟩
    intro doomed
    induction doomed with
    | lost j among loose owners ih =>
      cases collect_collected live j member with
      | inl held => exact loose held
      | inr listed =>
        obtain ⟨q, alive, owned⟩ := listed
        exact ih q (inside alive) owned alive
  · intro both
    by_contra gone
    exact both.2 (sweeps_doomed live.card (Finset.Subset.refl live)
      (fun x among absent => absurd among absent) j both.1 gone)

theorem collect_of_collected {live : Finset J} (collected : Collected live anchored owns) :
    collect anchored owns live = live := by
  ext j
  rw [mem_collect]
  exact and_iff_left (collected_spared collected j)

end Ownership
