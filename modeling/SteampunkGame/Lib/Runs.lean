import Mathlib.Logic.Function.Iterate
import Mathlib.Logic.Relation

/-!
Runs of a machine given by a partial step function on labelled actions. The
guard restricts which actions a run may take in which states.
-/
namespace Runs
variable {σ α : Type*}

def Move (step : σ → α → Option σ) (guard : σ → α → Prop) (s t : σ) : Prop :=
  ∃ a, guard s a ∧ step s a = some t

def Reaches (step : σ → α → Option σ) (guard : σ → α → Prop) : σ → σ → Prop :=
  Relation.ReflTransGen (Move step guard)

/-- The guard of unrestricted runs. -/
def anyAction : σ → α → Prop := fun _ _ => True

theorem reaches_invariant {step : σ → α → Option σ} {guard : σ → α → Prop} {I : σ → Prop}
    (keep : ∀ s a t, I s → guard s a → step s a = some t → I t) {s t : σ}
    (walk : Reaches step guard s t) (start : I s) : I t := by
  induction walk with
  | refl => exact start
  | tail _ move ih =>
    obtain ⟨a, allowed, run⟩ := move
    exact keep _ a _ ih allowed run

/-- A guard that an invariant implies may be added. -/
theorem reaches_guarded {step : σ → α → Option σ} {guard wanted : σ → α → Prop} {inv : σ → Prop}
    (keep : ∀ s a t, inv s → guard s a → step s a = some t → inv t)
    (implied : ∀ s a, inv s → guard s a → wanted s a) {s t : σ}
    (walk : Reaches step guard s t) (start : inv s) : Reaches step wanted s t := by
  induction walk with
  | refl => exact .refl
  | tail before move ih =>
    obtain ⟨a, allowed, run⟩ := move
    have here := reaches_invariant keep before start
    exact ih.tail ⟨a, implied _ a here allowed, run⟩

/-- A run whose view changes by one function, or not at all, goes along the
    orbit of this function. -/
theorem reaches_iterate {step : σ → α → Option σ} {guard : σ → α → Prop} {inv : σ → Prop}
    {κ : Type*} {view : σ → κ} {next : κ → κ}
    (keep : ∀ s a t, inv s → guard s a → step s a = some t → inv t)
    (each : ∀ s a t, inv s → guard s a → step s a = some t →
      view t = view s ∨ view t = next (view s)) {s t : σ}
    (walk : Reaches step guard s t) (start : inv s) : ∃ n, view t = next^[n] (view s) := by
  induction walk with
  | refl => exact ⟨0, rfl⟩
  | tail before move ih =>
    obtain ⟨n, here⟩ := ih
    obtain ⟨a, allowed, run⟩ := move
    have holds := reaches_invariant keep before start
    cases each _ a _ holds allowed run with
    | inl same => exact ⟨n, same.trans here⟩
    | inr moved => exact ⟨n + 1, by rw [moved, here, Function.iterate_succ_apply']⟩

/-- Of two states on one orbit one lies behind the other. -/
theorem iterate_comparable {κ : Type*} {next : κ → κ} {start a b : κ}
    (first : ∃ n, a = next^[n] start) (second : ∃ n, b = next^[n] start) :
    (∃ n, b = next^[n] a) ∨ ∃ n, a = next^[n] b := by
  obtain ⟨m, rfl⟩ := first
  obtain ⟨n, rfl⟩ := second
  cases Nat.le_total m n with
  | inl le =>
    left
    exact ⟨n - m, by rw [← Function.iterate_add_apply, Nat.sub_add_cancel le]⟩
  | inr le =>
    right
    exact ⟨m - n, by rw [← Function.iterate_add_apply, Nat.sub_add_cancel le]⟩

/-- Execute a list of actions; `none` if one of them is blocked. -/
def runActions (step : σ → α → Option σ) : List α → σ → Option σ
  | [], s => some s
  | a :: rest, s =>
      match step s a with
      | some t => runActions step rest t
      | none => none

theorem runActions_concat (step : σ → α → Option σ) (actions : List α) (a : α) (s : σ) :
    runActions step (actions ++ [a]) s = (runActions step actions s).bind fun t => step t a := by
  induction actions generalizing s with
  | nil =>
    simp only [List.nil_append, runActions, Option.bind_some]
    cases step s a with
    | none => rfl
    | some next => rfl
  | cons first rest ih =>
    simp only [List.cons_append, runActions]
    cases step s first with
    | none => rfl
    | some next => exact ih next

theorem runActions_append {step : σ → α → Option σ} {first later : List α} {s t u : σ}
    (run : runActions step first s = some t) (next : runActions step later t = some u) :
    runActions step (first ++ later) s = some u := by
  induction first generalizing s with
  | nil =>
    cases run
    exact next
  | cons a rest ih =>
    simp only [List.cons_append, runActions] at run ⊢
    split at run
    · exact ih run
    · cases run

/-- An invariant that counts some of the actions. -/
theorem runActions_counted {step : σ → α → Option σ} {cost : α → Bool} {inv : Nat → σ → Prop}
    (keep : ∀ k s a t, inv k s → step s a = some t → inv (k + (cost a).toNat) t)
    {actions : List α} {k : Nat} {s t : σ} (start : inv k s)
    (run : runActions step actions s = some t) : inv (k + actions.countP cost) t := by
  induction actions generalizing k s with
  | nil =>
    cases run
    exact start
  | cons a rest ih =>
    simp only [runActions] at run
    split at run
    · rename_i next first
      have later := ih (keep k s a next start first) run
      have count : (a :: rest).countP cost = (cost a).toNat + rest.countP cost := by
        rw [List.countP_cons, Nat.add_comm]
        cases cost a <;> rfl
      rwa [count, ← Nat.add_assoc]
    · cases run

/-- A list that each action may put one item on has all of them in order. -/
theorem runActions_recorded {β : Type*} (recorded : σ → List β) {step : σ → α → Option σ}
    {item : α → Option β}
    (keep : ∀ s a t, step s a = some t → recorded t = recorded s ++ (item a).toList)
    {actions : List α} {s t : σ} (run : runActions step actions s = some t) :
    recorded t = recorded s ++ actions.filterMap item := by
  induction actions generalizing s with
  | nil =>
    cases run
    exact (List.append_nil _).symm
  | cons a rest ih =>
    simp only [runActions] at run
    split at run
    · rename_i next first
      rw [ih run, keep s a next first, List.append_assoc]
      cases made : item a <;> simp [made]
    · cases run

/-- A run that takes only some of the actions. -/
theorem reaches_actions {step : σ → α → Option σ} {guard : σ → α → Prop} {taken : α → Prop}
    (only : ∀ s a, guard s a → taken a) {s t : σ} (walk : Reaches step guard s t) :
    ∃ actions, runActions step actions s = some t ∧ ∀ a ∈ actions, taken a := by
  induction walk with
  | refl => exact ⟨[], rfl, by simp⟩
  | tail _ move ih =>
    obtain ⟨actions, run, before⟩ := ih
    obtain ⟨a, allowed, last⟩ := move
    refine ⟨actions ++ [a], ?_, ?_⟩
    · rw [runActions_concat, run]
      exact last
    · intro b among
      rcases List.mem_append.mp among with earlier | here
      · exact before b earlier
      · exact List.mem_singleton.mp here ▸ only _ a allowed

theorem runActions_reaches {step : σ → α → Option σ} {actions : List α} {s t : σ}
    (run : runActions step actions s = some t) : Reaches step anyAction s t := by
  induction actions generalizing s with
  | nil =>
    cases run
    exact .refl
  | cons a rest ih =>
    simp only [runActions] at run
    cases first : step s a with
    | none => rw [first] at run; cases run
    | some next =>
      rw [first] at run
      exact .head ⟨a, trivial, first⟩ (ih run)

/-- What is seen of the state that the actions end in. -/
theorem runActions_view {κ : Type*} (view : σ → κ) {step : σ → α → Option σ} {actions : List α}
    {s : σ} {seen : κ} (run : (runActions step actions s).map view = some seen) :
    ∃ t, Reaches step anyAction s t ∧ view t = seen := by
  obtain ⟨t, taken, same⟩ := Option.map_eq_some_iff.mp run
  exact ⟨t, runActions_reaches taken, same⟩

/-- The same for runs that keep to a guard. -/
def runWithin (step : σ → α → Option σ) (guard : σ → α → Prop)
    [∀ s a, Decidable (guard s a)] : List α → σ → Option σ
  | [], s => some s
  | a :: rest, s =>
      if guard s a then
        match step s a with
        | some t => runWithin step guard rest t
        | none => none
      else none

theorem runWithin_reaches {step : σ → α → Option σ} {guard : σ → α → Prop}
    [∀ s a, Decidable (guard s a)] {actions : List α} {s t : σ}
    (run : runWithin step guard actions s = some t) : Reaches step guard s t := by
  induction actions generalizing s with
  | nil =>
    cases run
    exact .refl
  | cons a rest ih =>
    simp only [runWithin] at run
    split at run
    · rename_i allowed
      cases first : step s a with
      | none => rw [first] at run; cases run
      | some next =>
        rw [first] at run
        exact .head ⟨a, allowed, first⟩ (ih run)
    · cases run

theorem runWithin_view {κ : Type*} (view : σ → κ) {step : σ → α → Option σ}
    {guard : σ → α → Prop} [∀ s a, Decidable (guard s a)] {actions : List α} {s : σ} {seen : κ}
    (run : (runWithin step guard actions s).map view = some seen) :
    ∃ t, Reaches step guard s t ∧ view t = seen := by
  obtain ⟨t, taken, same⟩ := Option.map_eq_some_iff.mp run
  exact ⟨t, runWithin_reaches taken, same⟩

/-- The first of some actions that is not blocked. -/
def firstMove (step : σ → α → Option σ) : List α → σ → Option σ
  | [], _ => none
  | a :: rest, s =>
      match step s a with
      | some t => some t
      | none => firstMove step rest s

/-- So many of these moves. -/
def drive (step : σ → α → Option σ) (actions : List α) : Nat → σ → σ
  | 0, s => s
  | k + 1, s =>
      match firstMove step actions s with
      | some t => drive step actions k t
      | none => s

theorem firstMove_move {step : σ → α → Option σ} {actions : List α} {s t : σ}
    (run : firstMove step actions s = some t) : ∃ a ∈ actions, step s a = some t := by
  induction actions with
  | nil => cases run
  | cons a rest ih =>
    simp only [firstMove] at run
    split at run
    · rename_i taken
      exact ⟨a, List.mem_cons_self, taken.trans run⟩
    · obtain ⟨b, among, taken⟩ := ih run
      exact ⟨b, List.mem_cons_of_mem _ among, taken⟩

theorem drive_reaches {step : σ → α → Option σ} {guard : σ → α → Prop} {actions : List α}
    (allowed : ∀ a ∈ actions, ∀ s, guard s a) (k : Nat) (s : σ) :
    Reaches step guard s (drive step actions k s) := by
  induction k generalizing s with
  | zero => exact .refl
  | succ k ih =>
    rw [drive]
    split
    · rename_i t run
      obtain ⟨a, among, taken⟩ := firstMove_move run
      exact .head ⟨a, allowed a among s, taken⟩ (ih t)
    · exact .refl

end Runs
