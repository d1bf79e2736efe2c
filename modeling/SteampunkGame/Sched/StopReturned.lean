import SteampunkGame.Sched.CloseMutex

/-!
What a returned call of `runner::stop` says about the arbiter. The call
returns at once when `_active` is already clear, whoever cleared it, and a
spurious wake-up ends its wait.
-/
namespace SchedStopReturned
open SchedPool SchedLifecycle SchedClose Runs
variable {K : Type}

/-- A call of `stop` finds the runner running or its arbiter past the
    notification, and its wait is not woken spuriously while the arbiter has
    not reached the close mutex. -/
def ReturnOk (k : K) (s : Life K) : Action K → Prop
  | .caller j _ => s.caller j = .stopTest → s.active = false → notified (s.arbiter k) = true
  | .spurious j => s.caller j = .stopParked →
      s.arbiter k = .notifyAll ∨ notified (s.arbiter k) = true
  | .arbiter _ => True

instance (k : K) (s : Life K) : (a : Action K) → Decidable (ReturnOk k s a)
  | .caller _ _ => inferInstanceAs (Decidable (_ → _ → _))
  | .spurious _ => inferInstanceAs (Decidable (_ → _ ∨ _))
  | .arbiter _ => inferInstanceAs (Decidable True)

/-- Calls that were woken or have returned imply how far the arbiter is. -/
structure Waited (k : K) (s : Life K) : Prop where
  woken : ∀ j, s.caller j = .stopReacquire → s.arbiter k = .notifyAll ∨
    notified (s.arbiter k) = true
  returned : ∀ j, s.caller j = .stopRelease ∨ s.caller j = .stopReturned →
    notified (s.arbiter k) = true

theorem waited_arbiter {s t : Life K} {k : K} (waited : Waited k s) (arbiter : Arbiter s t k) :
    Waited k t := by
  have ceased (now : notified (t.arbiter k) = true) : Waited k t := ⟨fun _ _ => Or.inr now,
    fun _ _ => now⟩
  have early (caller : t.caller = s.caller)
      (before : s.arbiter k ≠ .notifyAll ∧ notified (s.arbiter k) = false) : Waited k t := by
    have none : ¬ (s.arbiter k = .notifyAll ∨ notified (s.arbiter k) = true) := by
      rintro (notifies | now)
      · exact before.1 notifies
      · exact Bool.false_ne_true (before.2.symm.trans now)
    constructor
    · intro j here
      rw [caller] at here
      exact absurd (waited.woken j here) none
    · intro j here
      rw [caller] at here
      exact absurd (Or.inr (waited.returned j here)) none
  cases arbiter with
  | loops on start pc mutex caller | leaves off start pc mutex caller
  | framed start pc mutex caller | locked free start pc mutex pool caller =>
    exact early caller (by simp [start, notified])
  | emptied start pc empty mutex caller =>
    obtain ⟨call, start⟩ := start
    exact early caller (by simp [start, notified])
  | pops start pc mutex caller =>
    apply early caller
    obtain start | ⟨call, start⟩ := start <;> simp [start, notified]
  | notifies start pc mutex pool caller | finishes start pc mutex pool caller =>
    exact ceased (by rw [pc]; rfl)

variable [DecidableEq K]

theorem waited_called {s t : Life K} {k j : K} {rightFirst : Bool} (closing : Closing k s)
    (waited : Waited k s) (allowed : ReturnOk k s (.caller j rightFirst)) (frame : Frame s t j)
    (called : Called s t j) : Waited k t := by
  obtain ⟨woken, returned⟩ := waited
  constructor
  · intro i here
    rw [frame.arbiter]
    by_cases same : i = j
    · subst same
      cases called with
      | outside mutex start pc still => rw [here] at pc; cases pc
      | entered mutex on start pc | skipped mutex off start pc | cleared mutex start pc
      | locked free mutex start pc | relocked free mutex start pc | parked mutex start pc
      | returned mutex start pc => rw [pc] at here; cases here
    · rw [frame.others i same] at here
      exact woken i here
  · intro i here
    rw [frame.arbiter]
    by_cases same : i = j
    · subst same
      cases called with
      | outside mutex start pc still =>
        obtain here | here := here <;> rw [here] at pc <;> cases pc
      | skipped mutex off start pc => exact allowed start off
      | relocked free mutex start pc =>
        cases woken i start with
        | inl notifies =>
          -- the arbiter still owns the mutex
          have owner := (closing.owned.arbiter k).mp ⟨rfl, Or.inl notifies⟩
          exact absurd (owner.symm.trans free) (by simp)
        | inr ceased => exact ceased
      | returned mutex start pc => exact returned i (Or.inl start)
      | entered mutex on start pc | cleared mutex start pc | locked free mutex start pc
      | parked mutex start pc => simp [pc] at here
    · rw [frame.others i same] at here
      exact returned i here

theorem waited_step {s t : Life K} {k : K} {a : Action K} (closing : Closing k s)
    (waited : Waited k s) (allowed : ReturnOk k s a) (run : step s a = some t) : Waited k t := by
  cases a with
  | caller j rightFirst =>
    obtain ⟨frame, called⟩ := callerStep_called (closing.plain j) run
    exact waited_called closing waited allowed frame called
  | spurious j =>
    cases run
    constructor
    · intro i here
      by_cases same : i = j
      · subst same
        rw [setCaller_self] at here
        cases at_ : s.caller i with
        | stopParked => exact allowed at_
        | stopReacquire => exact waited.woken i at_
        | _ => rw [at_] at here; cases here
      · rw [setCaller_other _ same] at here
        exact waited.woken i here
    · intro i here
      apply waited.returned i
      cases spurious_caller s j i with
      | inl same => rwa [same] at here
      | inr woken =>
        rw [woken] at here
        exact here.imp (fun gives => unpark_eq gives (by simp))
          (fun done => unpark_eq done (by simp))
  | arbiter j =>
    by_cases present : j = k
    · subst present
      exact waited_arbiter waited (arbiterStep_arbiter run).2.2
    · simp [step, arbiterStep, closing.alone j present] at run

/-- A call of `stop` has returned to a runner whose arbiter is not done. -/
def Unstopped (k : K) (s : Life K) : Prop :=
  ∃ j, s.caller j = .stopReturned ∧ ¬ (notified (s.arbiter k) = true ∧ s.pool.workers = ∅)

/-- Whoever is inside the close mutex can leave it. -/
theorem mutex_released {s : Life K} {k : K} (closing : Closing k s)
    (away : ¬ (s.arbiter k = .notifyAll ∨ s.arbiter k = .closeRelease)) {j : K}
    (woken : s.caller j = .stopReacquire) :
    ∃ t, Reaches step anyAction s t ∧ t.arbiter = s.arbiter ∧ t.caller j = .stopReacquire ∧
      t.closeMutex = none := by
  cases owner : s.closeMutex with
  | none => exact ⟨s, .refl, rfl, woken, owner⟩
  | some holder =>
    cases holder with
    | arbiter i => exact absurd ((closing.owned.arbiter i).mpr owner).2 away
    | caller i =>
      have inside := (closing.owned.caller i).mpr owner
      have other : j ≠ i := by
        rintro rfl
        simp [woken] at inside
      cases inside with
      | inl waits =>
        exact ⟨{ s.setCaller i .stopParked with closeMutex := none },
          .single ⟨.caller i false, trivial, by simp [step, callerStep, waits]⟩, rfl,
          by simp [Life.setCaller, other, woken], rfl⟩
      | inr gives =>
        exact ⟨{ s.setCaller i .stopReturned with closeMutex := none },
          .single ⟨.caller i false, trivial, by simp [step, callerStep, gives]⟩, rfl,
          by simp [Life.setCaller, other, woken], rfl⟩

theorem woken_returns {s : Life K} {j : K} (woken : s.caller j = .stopReacquire)
    (free : s.closeMutex = none) :
    ∃ t, Reaches step anyAction s t ∧ t.arbiter = s.arbiter ∧ t.caller j = .stopReturned := by
  refine ⟨{ Life.setCaller { s.setCaller j .stopRelease with closeMutex := some (.caller j) } j
    .stopReturned with closeMutex := none }, ?_, rfl, by simp [Life.setCaller]⟩
  refine .head (b := { s.setCaller j .stopRelease with closeMutex := some (.caller j) })
    ⟨.caller j false, trivial, by simp [step, callerStep, woken, free]⟩ ?_
  exact .single ⟨.caller j false, trivial, by simp [step, callerStep, Life.setCaller]⟩

theorem broken_unstopped {s t : Life K} {k : K} {a : Action K} (closing : Closing k s)
    (run : step s a = some t) (broken : ¬ ReturnOk k s a) :
    ∃ u, Reaches step anyAction t u ∧ Unstopped k u := by
  have early {u : Life K} {j : K} (returned : u.caller j = .stopReturned)
      (arbiter : u.arbiter = s.arbiter) (late : ¬ notified (s.arbiter k) = true) :
      Unstopped k u := ⟨j, returned, fun stopped => late (by rw [← arbiter]; exact stopped.1)⟩
  cases a with
  | caller j rightFirst =>
    simp only [ReturnOk, Classical.not_imp] at broken
    obtain ⟨start, off, late⟩ := broken
    simp only [step, callerStep, start, off, Option.some.injEq] at run
    subst run
    exact ⟨_, .refl, early (setCaller_self s j .stopReturned) rfl late⟩
  | spurious j =>
    simp only [ReturnOk, Classical.not_imp, not_or] at broken
    obtain ⟨parked, silent, late⟩ := broken
    cases run
    have woken : (s.setCaller j (s.caller j).unpark).caller j = .stopReacquire := by
      rw [setCaller_self, parked]
      rfl
    have away : ¬ (s.arbiter k = .notifyAll ∨ s.arbiter k = .closeRelease) := by
      rintro (notifies | releases)
      · exact silent notifies
      · exact late (by rw [releases]; rfl)
    obtain ⟨u, freed, same, still, free⟩ :=
      mutex_released (closing_spurious closing j) away woken
    obtain ⟨v, returns, kept, returned⟩ := woken_returns still free
    exact ⟨v, freed.trans returns, early returned (kept.trans same) late⟩
  | arbiter j => exact absurd trivial broken

/-- In runs that meet the condition a call of `stop` returns only when the
    arbiter has emptied the pool and notified. Whenever it is broken, a call
    can return before. -/
theorem stop_stopped (k : K) (floating : Bool) (pool : WorkerPool) (stops : K → Bool) :
    (∀ s, Reaches step (ReturnOk k) (started k floating pool stops) s → ¬ Unstopped k s) ∧
    (∀ s a t, Reaches step anyAction (started k floating pool stops) s → step s a = some t →
      ¬ ReturnOk k s a → ∃ u, Reaches step anyAction t u ∧ Unstopped k u) := by
  constructor
  · rintro s walk ⟨j, returned, unfinished⟩
    have begins : Waited k (started k floating pool stops) := by
      have places : ∀ j, (started k floating pool stops).caller j ≠ .stopReacquire ∧
          (started k floating pool stops).caller j ≠ .stopRelease ∧
          (started k floating pool stops).caller j ≠ .stopReturned := by
        intro j
        simp only [started]
        split <;> split <;> simp
      exact ⟨fun j here => absurd here (places j).1,
        fun j here => (here.elim (places j).2.1 (places j).2.2).elim⟩
    have invariant := reaches_invariant (I := fun u => Closing k u ∧ Waited k u)
      (fun u a v both allowed run =>
        ⟨closing_step both.1 run, waited_step both.1 both.2 allowed run⟩) walk
      ⟨closing_started k floating pool stops, begins⟩
    have ceased := invariant.2.returned j (Or.inr returned)
    refine unfinished ⟨ceased, invariant.1.emptied ?_⟩
    cases at_ : s.arbiter k with
    | closeRelease | finished => rfl
    | _ => rw [at_] at ceased; cases ceased
  · intro s a t walk run broken
    have closing := reaches_invariant (fun _ _ _ ih _ run => closing_step ih run) walk
      (closing_started k floating pool stops)
    exact broken_unstopped closing run broken

/-- One call that waits and is notified. -/
theorem stop_stopped_single : ∃ s : Life Bool,
    Reaches step (ReturnOk false) (started false true (filledPool 1) fun _ => true) s ∧
      s.caller true = .stopReturned ∧ ¬ Unstopped false s := by
  have run : ∃ s, runWithin step (ReturnOk false) (List.replicate 4 (.caller true false) ++
      List.replicate 8 (.arbiter false) ++ List.replicate 2 (.caller true false))
      (started false true (filledPool 1) fun _ => true) = some s ∧
      s.caller true = .stopReturned := ⟨_, rfl, rfl⟩
  obtain ⟨s, taken, returned⟩ := run
  have walk := runWithin_reaches taken
  exact ⟨s, walk, returned, (stop_stopped _ _ _ _).1 s walk⟩

/-- `signal_stop`, and then a `stop` that returns during the frame. -/
theorem stop_after_signal : ∃ s : Life (Fin 3),
    Reaches step anyAction (started 0 true (filledPool 1) fun k => k = 2) s ∧
      s.caller 2 = .stopReturned ∧ s.arbiter 0 = .frame := by
  have run : ∃ s, runActions step (.arbiter 0 :: List.replicate 2 (.caller 1 false) ++
      [.caller 2 false]) (started (0 : Fin 3) true (filledPool 1) fun k => k = 2) = some s ∧
      s.caller 2 = .stopReturned ∧ s.arbiter 0 = .frame := ⟨_, rfl, rfl, rfl⟩
  obtain ⟨s, taken, facts⟩ := run
  exact ⟨s, runActions_reaches taken, facts⟩

end SchedStopReturned
