import Mathlib.Data.Fintype.Basic
import SteampunkGame.Lib.Runs
import SteampunkGame.Sched.Lifecycle

/-!
How many arbiter threads there can be. `_active` is at once what forbids a
second `start` and what asks the arbiter to leave, so a `start` after a stop
request can set it again under an arbiter that has not yet looked.
-/
namespace SchedSingle
open SchedPool SchedLifecycle Runs
variable {K : Type}

/-- `start` has set `_active` and has not created its arbiter. -/
def creating : CallerPc → Bool
  | .startCreate _ => true
  | _ => false

/-- No arbiter has been created by this call. -/
def before : CallerPc → Bool
  | .startTest _ _ | .startLoop _ _ | .pushing _ _ _ | .startActive _ | .startCreate _ => true
  | _ => false

/-- The arbiter of `k` is in its loop or about to be created. -/
def Entering (s : Life K) (k : K) : Prop :=
  (s.arbiter k).inLoop = true ∨ creating (s.caller k) = true

/-- A `start` sets `_active` only when every earlier arbiter has left its loop
    and no other `start` is about to create one. -/
def StartOk (s : Life K) : Action K → Prop
  | .caller k _ => ∀ floating, s.caller k = .startActive floating → ∀ j, ¬ Entering s j
  | _ => True

instance (s : Life K) (k : K) : Decidable (Entering s k) := inferInstanceAs (Decidable (_ ∨ _))

instance [Fintype K] (s : Life K) : (a : Action K) → Decidable (StartOk s a)
  | .caller k _ => inferInstanceAs
      (Decidable (∀ floating, s.caller k = .startActive floating → ∀ j, ¬ Entering s j))
  | .spurious _ | .arbiter _ => inferInstanceAs (Decidable True)

/-- Two arbiters at once. -/
def Doubled (s : Life K) : Prop :=
  ∃ j k, j ≠ k ∧ (s.arbiter j).inLoop = true ∧ (s.arbiter k).inLoop = true

theorem unpark_creating (pc : CallerPc) : creating pc.unpark = creating pc := by
  cases pc <;> rfl

theorem unpark_before (pc : CallerPc) : before pc.unpark = before pc := by
  cases pc <;> rfl

theorem idle_entering (pool : WorkerPool) (requests : K → Request) (k : K) :
    ¬ Entering (idle pool requests) k := by
  intro enters
  cases enters with
  | inl loops => cases loops
  | inr creates =>
    simp only [idle] at creates
    cases made : requests k <;> rw [made] at creates <;> cases creates

variable [DecidableEq K]

/-- What the call of `k` can do to arbiters and to calls about to create one. -/
structure Called (s t : Life K) (k : K) : Prop where
  caller : ∀ j, j ≠ k → t.caller j = s.caller j
  arbiter : ∀ j, j ≠ k → t.arbiter j = s.arbiter j
  created : t.arbiter k = s.arbiter k ∨ creating (s.caller k) = true
  creates : creating (t.caller k) = true → ∃ floating, s.caller k = .startActive floating
  before : before (t.caller k) = true → before (s.caller k) = true ∧ t.arbiter k = s.arbiter k

theorem called_caller {s : Life K} {k : K} {pc : CallerPc} {t : Life K}
    (caller : t.caller = Function.update s.caller k pc) (arbiter : t.arbiter = s.arbiter)
    (creates : creating pc = true → ∃ floating, s.caller k = .startActive floating)
    (early : SchedSingle.before pc = true → SchedSingle.before (s.caller k) = true) :
    Called s t k := by
  constructor
  · intro j other
    rw [caller, Function.update_of_ne other]
  · intro j other
    rw [arbiter]
  · exact Or.inl (by rw [arbiter])
  · rw [caller, Function.update_self]
    exact creates
  · rw [caller, Function.update_self, arbiter]
    exact fun now => ⟨early now, rfl⟩

theorem callerStep_called {rightFirst : Bool} {s t : Life K} {k : K}
    (run : callerStep rightFirst s k = some t) : Called s t k := by
  have plain {pc : CallerPc} (caller : t.caller = Function.update s.caller k pc)
      (arbiter : t.arbiter = s.arbiter) (late : creating pc = false)
      (early : SchedSingle.before pc = true → SchedSingle.before (s.caller k) = true) :
      Called s t k :=
    called_caller caller arbiter (fun creates => by rw [late] at creates; cases creates) early
  cases at_ : s.caller k with
  | startTest floating threadCount =>
    simp only [callerStep, at_] at run
    split at run <;> cases run <;> exact plain rfl rfl rfl (fun _ => by rw [at_]; rfl)
  | startLoop floating remaining =>
    simp only [callerStep, at_] at run
    split at run
    · cases run
      exact plain rfl rfl rfl (fun _ => by rw [at_]; rfl)
    · cases run
      exact plain rfl rfl rfl (fun _ => by rw [at_]; rfl)
  | pushing floating remaining call =>
    simp only [callerStep, at_] at run
    split at run <;> cases run <;> exact plain rfl rfl rfl (fun _ => by rw [at_]; rfl)
  | startActive floating =>
    simp only [callerStep, at_] at run
    cases run
    exact called_caller rfl rfl (fun _ => ⟨floating, at_⟩) (fun _ => by rw [at_]; rfl)
  | startCreate floating =>
    simp only [callerStep, at_] at run
    cases run
    constructor
    · intro j other
      simp [Life.setCaller, Life.setArbiter, other]
    · intro j other
      simp [Life.setCaller, Life.setArbiter, other]
    · exact Or.inr (by rw [at_]; rfl)
    · cases floating <;> simp [Life.setCaller, Life.setArbiter, creating]
    · cases floating <;> simp [Life.setCaller, Life.setArbiter, SchedSingle.before]
  | pinning call =>
    simp only [callerStep, at_] at run
    split at run <;> cases run <;> exact plain rfl rfl rfl (fun no => (by cases no))
  | startJoin =>
    simp only [callerStep, at_] at run
    split at run
    · cases run
      exact plain rfl rfl rfl (fun no => (by cases no))
    · cases run
  | stopTest | signalTest =>
    cases on : s.active <;> simp only [callerStep, at_, on] at run <;> cases run <;>
      exact plain rfl rfl rfl (fun no => (by cases no))
  | stopAcquire | stopReacquire =>
    simp only [callerStep, at_] at run
    split at run
    · cases run
      exact plain rfl rfl (by rfl) (fun no => (by cases no))
    · cases run
  | stopClear | stopWait | stopRelease | signalClear =>
    simp only [callerStep, at_] at run
    cases run
    exact plain rfl rfl rfl (fun no => (by cases no))
  | startReturned | startThrew | terminate | stopParked | stopReturned | signalReturned =>
    simp only [callerStep, at_] at run
    cases run

/-- What arbiters and spurious wake-ups leave alone. -/
structure Quiet (s t : Life K) : Prop where
  creating : ∀ j, creating (t.caller j) = creating (s.caller j)
  before : ∀ j, before (t.caller j) = before (s.caller j)
  inLoop : ∀ j, (t.arbiter j).inLoop = true → (s.arbiter j).inLoop = true
  absent : ∀ j, s.arbiter j = .absent → t.arbiter j = .absent

theorem spurious_quiet (s : Life K) (k : K) : Quiet s (s.setCaller k (s.caller k).unpark) := by
  constructor
  · intro j
    by_cases same : j = k
    · subst same
      simp [Life.setCaller, unpark_creating]
    · simp [Life.setCaller, same]
  · intro j
    by_cases same : j = k
    · subst same
      simp [Life.setCaller, unpark_before]
    · simp [Life.setCaller, same]
  · exact fun j => id
  · exact fun j => id

theorem quiet_arbiter {s t : Life K} {k : K} {pc : ArbiterPc}
    (caller : t.caller = s.caller ∨ t.caller = fun j => (s.caller j).unpark)
    (arbiter : t.arbiter = Function.update s.arbiter k pc) (present : s.arbiter k ≠ .absent)
    (loops : pc.inLoop = true → (s.arbiter k).inLoop = true) : Quiet s t := by
  constructor
  · intro j
    cases caller with
    | inl same => rw [same]
    | inr notified => rw [notified]; exact unpark_creating _
  · intro j
    cases caller with
    | inl same => rw [same]
    | inr notified => rw [notified]; exact unpark_before _
  · intro j
    by_cases same : j = k
    · subst same
      rw [arbiter, Function.update_self]
      exact loops
    · rw [arbiter, Function.update_of_ne same]
      exact id
  · intro j gone
    by_cases same : j = k
    · subst same
      exact absurd gone present
    · rw [arbiter, Function.update_of_ne same, gone]

theorem arbiterStep_quiet {s t : Life K} {k : K} (run : arbiterStep s k = some t) :
    Quiet s t := by
  cases at_ : s.arbiter k with
  | absent | finished =>
    simp only [arbiterStep, at_] at run
    cases run
  | test =>
    simp only [arbiterStep, at_] at run
    cases run
    exact quiet_arbiter (Or.inl rfl) rfl (by simp [at_]) (fun _ => by rw [at_]; rfl)
  | frame =>
    simp only [arbiterStep, at_] at run
    cases run
    exact quiet_arbiter (Or.inl rfl) rfl (by simp [at_]) (fun _ => by rw [at_]; rfl)
  | popCounter | closeRelease =>
    simp only [arbiterStep, at_] at run
    cases run
    exact quiet_arbiter (Or.inl rfl) rfl (by simp [at_]) (fun no => (by cases no))
  | popping call =>
    simp only [arbiterStep, at_] at run
    split at run <;> cases run <;>
      exact quiet_arbiter (Or.inl rfl) rfl (by simp [at_]) (fun no => (by cases no))
  | closeAcquire =>
    simp only [arbiterStep, at_] at run
    split at run
    · cases run
      exact quiet_arbiter (Or.inl rfl) rfl (by simp [at_]) (fun no => (by cases no))
    · cases run
  | notifyAll =>
    simp only [arbiterStep, at_] at run
    cases run
    exact quiet_arbiter (Or.inr rfl) rfl (by simp [at_]) (fun no => (by cases no))

/-- A call enters only through the store that sets `_active`. -/
theorem step_entering {s t : Life K} {a : Action K} (run : step s a = some t) {j : K}
    (enters : Entering t j) : Entering s j ∨
      ∃ rightFirst floating, a = .caller j rightFirst ∧ s.caller j = .startActive floating := by
  have quiet : Quiet s t → Entering s j := by
    intro kept
    cases enters with
    | inl loops => exact Or.inl (kept.inLoop j loops)
    | inr creates => exact Or.inr ((kept.creating j).symm.trans creates)
  cases a with
  | caller k rightFirst =>
    have called := callerStep_called run
    by_cases same : j = k
    · subst same
      cases enters with
      | inl loops =>
        cases called.created with
        | inl kept => exact Or.inl (Or.inl (by rw [← kept]; exact loops))
        | inr creates => exact Or.inl (Or.inr creates)
      | inr creates =>
        obtain ⟨floating, store⟩ := called.creates creates
        exact Or.inr ⟨rightFirst, floating, rfl, store⟩
    · rw [Entering, called.caller j same, called.arbiter j same] at enters
      exact Or.inl enters
  | spurious k =>
    cases run
    exact Or.inl (quiet (spurious_quiet s k))
  | arbiter k => exact Or.inl (quiet (arbiterStep_quiet run))

/-- The arbiter of a call that has not created it does not exist. -/
def Unborn (s : Life K) : Prop := ∀ k, before (s.caller k) = true → s.arbiter k = .absent

theorem unborn_step {s t : Life K} {a : Action K} (unborn : Unborn s) (run : step s a = some t) :
    Unborn t := by
  intro j early
  have quiet : Quiet s t → t.arbiter j = .absent := fun kept =>
    kept.absent j (unborn j ((kept.before j).symm.trans early))
  cases a with
  | caller k rightFirst =>
    have called := callerStep_called run
    by_cases same : j = k
    · subst same
      obtain ⟨still, kept⟩ := called.before early
      rw [kept]
      exact unborn j still
    · rw [called.caller j same] at early
      rw [called.arbiter j same]
      exact unborn j early
  | spurious k =>
    cases run
    exact quiet (spurious_quiet s k)
  | arbiter k => exact quiet (arbiterStep_quiet run)

/-- At most one call has an arbiter in its loop or is about to create one. -/
def Single (s : Life K) : Prop := ∀ j k, Entering s j → Entering s k → j = k

theorem single_step {s t : Life K} {a : Action K} (single : Single s) (allowed : StartOk s a)
    (run : step s a = some t) : Single t := by
  intro j k left right
  cases step_entering run left with
  | inl old =>
    cases step_entering run right with
    | inl other => exact single j k old other
    | inr enters =>
      obtain ⟨rightFirst, floating, rfl, store⟩ := enters
      exact absurd old (allowed floating store j)
  | inr enters =>
    obtain ⟨rightFirst, floating, rfl, store⟩ := enters
    cases step_entering run right with
    | inl other => exact absurd other (allowed floating store k)
    | inr same =>
      obtain ⟨_, _, eq, _⟩ := same
      cases eq
      rfl

theorem create_step {s : Life K} {k : K} {floating : Bool}
    (creates : s.caller k = .startCreate floating) :
    ∃ t, step s (.caller k false) = some t ∧ t.arbiter = Function.update s.arbiter k .test ∧
      ∀ j, j ≠ k → t.caller j = s.caller j := by
  refine ⟨(s.setArbiter k .test).setCaller k
    (if floating then .pinning (.testCores none) else .startJoin), ?_, rfl, fun j other => ?_⟩
  · simp [step, callerStep, creates]
  · simp [Life.setCaller, Life.setArbiter, other]

theorem early_start_doubles {s t : Life K} {a : Action K} (unborn : Unborn s)
    (run : step s a = some t) (broken : ¬ StartOk s a) :
    ∃ u, Reaches step anyAction t u ∧ Doubled u := by
  cases a with
  | caller k rightFirst =>
    simp only [StartOk, Classical.not_forall, Classical.not_not] at broken
    obtain ⟨floating, store, j, enters⟩ := broken
    have other : j ≠ k := by
      rintro rfl
      cases enters with
      | inl loops => rw [unborn j (by rw [store]; rfl)] at loops; cases loops
      | inr creates => rw [store] at creates; cases creates
    simp only [step, callerStep, store, Option.some.injEq] at run
    subst run
    have creates :
        ({ s.setCaller k (.startCreate floating) with active := true } : Life K).caller k =
          .startCreate floating := by simp [Life.setCaller]
    obtain ⟨u, first, arbiter, kept⟩ := create_step creates
    have born : (u.arbiter k).inLoop = true := by rw [arbiter, Function.update_self]; rfl
    cases enters with
    | inl loops =>
      refine ⟨u, .single ⟨_, trivial, first⟩, j, k, other, ?_, born⟩
      rw [arbiter, Function.update_of_ne other]
      exact loops
    | inr creates =>
      cases at_ : s.caller j with
      | startCreate floats =>
        have still : u.caller j = .startCreate floats := by
          rw [kept j other]
          simp [Life.setCaller, other, at_]
        obtain ⟨v, second, both, _⟩ := create_step still
        refine ⟨v, .head ⟨_, trivial, first⟩ (.single ⟨_, trivial, second⟩), j, k, other, ?_, ?_⟩
        · rw [both, Function.update_self]
          rfl
        · rw [both, Function.update_of_ne (Ne.symm other)]
          exact born
      | _ => rw [at_] at creates; cases creates
  | _ => exact absurd trivial broken

/-- In runs that meet the condition there is never a second arbiter in its
    loop. Whenever it is broken, there can be one. -/
theorem single_arbiter (pool : WorkerPool) (requests : K → Request) :
    (∀ s, Reaches step StartOk (idle pool requests) s → ¬ Doubled s) ∧
    (∀ s a t, Reaches step anyAction (idle pool requests) s → step s a = some t →
      ¬ StartOk s a → ∃ u, Reaches step anyAction t u ∧ Doubled u) := by
  constructor
  · rintro s walk ⟨j, k, other, left, right⟩
    have single := reaches_invariant (fun _ _ _ single allowed run =>
      single_step single allowed run) walk
      (fun j k enters => absurd enters (idle_entering pool requests j))
    exact other (single j k (Or.inl left) (Or.inl right))
  · intro s a t walk run broken
    have unborn := reaches_invariant (fun _ _ _ unborn _ run => unborn_step unborn run) walk
      (fun _ _ => rfl)
    exact early_start_doubles unborn run broken

/-- Two starts with one worker each, and a stop request. -/
def restart (k : Fin 3) : Request :=
  if k.val = 1 then .signalStop else .start false (some 1)

/-- A restart after the first arbiter has left its loop. -/
theorem single_arbiter_restart : ∃ s : Life (Fin 3),
    Reaches step StartOk (idle ⟨3, 0, ∅⟩ restart) s ∧
      s.arbiter 0 = .popCounter ∧ s.arbiter 2 = .frame ∧ ¬ Doubled s := by
  obtain ⟨s, walk, seen⟩ := runWithin_view (fun s => (s.arbiter 0, s.arbiter 2))
    (show (runWithin step StartOk (List.replicate 10 (.caller 0 false) ++ [.arbiter 0] ++
      List.replicate 2 (.caller 1 false) ++ List.replicate 2 (.arbiter 0) ++
      List.replicate 10 (.caller 2 false) ++ [.arbiter 2]) (idle ⟨3, 0, ∅⟩ restart)).map _ =
      some (.popCounter, .frame) by decide +kernel)
  obtain ⟨leaves, loops⟩ := Prod.mk.inj seen
  exact ⟨s, walk, leaves, loops, (single_arbiter _ _).1 s walk⟩

/-- A restart within one frame of the first arbiter, which goes on beside the
    second. -/
theorem restart_doubles : ∃ s : Life (Fin 3),
    Reaches step anyAction (idle ⟨3, 0, ∅⟩ restart) s ∧ Doubled s := by
  obtain ⟨s, walk, seen⟩ := runActions_view (fun s => (s.arbiter 0, s.arbiter 2))
    (show (runActions step (List.replicate 10 (.caller 0 false) ++ [.arbiter 0] ++
      List.replicate 2 (.caller 1 false) ++ List.replicate 10 (.caller 2 false) ++
      [.arbiter 2, .arbiter 0, .arbiter 0]) (idle ⟨3, 0, ∅⟩ restart)).map _ =
      some (.frame, .frame) by decide +kernel)
  obtain ⟨first, second⟩ := Prod.mk.inj seen
  refine ⟨s, walk, 0, 2, by decide, ?_, ?_⟩
  · rw [first]
    rfl
  · rw [second]
    rfl

end SchedSingle
