import Mathlib.Data.Fintype.Basic
import SteampunkGame.Sched.CloseMutex

/-!
Whether a call of `runner::stop` can miss the notification of the arbiter. It
clears `_active` before it locks the close mutex, and its wait has no
predicate to tell that the arbiter is gone.
-/
namespace SchedStopNotified
open SchedPool SchedLifecycle SchedClose Runs
variable {K : Type}

/-- When the arbiter notifies, no call of `stop` is between its test of
    `_active` and its lock of the close mutex. -/
def NotifyOk (s : Life K) : Action K → Prop
  | .arbiter k => s.arbiter k = .notifyAll → ∀ j, s.caller j ≠ .stopClear ∧
      s.caller j ≠ .stopAcquire
  | _ => True

instance [Fintype K] (s : Life K) : (a : Action K) → Decidable (NotifyOk s a)
  | .arbiter k => inferInstanceAs (Decidable (s.arbiter k = .notifyAll →
      ∀ j, s.caller j ≠ .stopClear ∧ s.caller j ≠ .stopAcquire))
  | .caller _ _ | .spurious _ => inferInstanceAs (Decidable True)

/-- The arbiter will not notify any more, and a call of `stop` waits or is
    going to wait for it. -/
def Missed (s : Life K) (k j : K) : Prop :=
  notified (s.arbiter k) = true ∧
    (s.caller j = .stopAcquire ∨ s.caller j = .stopWait ∨ s.caller j = .stopParked)

/-- After the notification nobody is on the way to the wait. -/
def Told (k : K) (s : Life K) : Prop :=
  notified (s.arbiter k) = true → ∀ j, s.caller j ≠ .stopClear ∧ s.caller j ≠ .stopAcquire ∧
    s.caller j ≠ .stopWait ∧ s.caller j ≠ .stopParked

theorem notified_inLoop {pc : ArbiterPc} (ceased : notified pc = true) : pc.inLoop = false := by
  cases pc with
  | closeRelease | finished => rfl
  | _ => cases ceased

theorem unpark_parked (pc : CallerPc) : pc.unpark ≠ .stopParked := by
  cases pc <;> simp [CallerPc.unpark]

theorem told_arbiter {s t : Life K} {k : K} (closing : Closing k s) (told : Told k s)
    (allowed : NotifyOk s (.arbiter k)) (arbiter : Arbiter s t k) : Told k t := by
  intro ceased i
  cases arbiter with
  | loops on start pc mutex caller | leaves off start pc mutex caller
  | framed start pc mutex caller | emptied start pc empty mutex caller
  | locked free start pc mutex pool caller => rw [pc] at ceased; cases ceased
  | pops start pc mutex caller =>
    obtain pc | ⟨call, pc⟩ := pc <;> rw [pc] at ceased <;> cases ceased
  | notifies start pc mutex pool caller =>
    obtain ⟨clear, acquire⟩ := allowed start i
    rw [caller]
    refine ⟨fun here => clear (unpark_eq here (by simp)),
      fun here => acquire (unpark_eq here (by simp)), fun here => ?_, unpark_parked _⟩
    -- the arbiter owns the mutex, so no caller does
    have mine := (closing.owned.caller i).mp (Or.inl (unpark_eq here (by simp)))
    have other := (closing.owned.arbiter k).mp ⟨rfl, Or.inl start⟩
    exact absurd (mine.symm.trans other) (by simp)
  | finishes start pc mutex pool caller =>
    rw [caller]
    exact told (by rw [start]; rfl) i

variable [DecidableEq K]

theorem told_called {s t : Life K} {k j : K} (closing : Closing k s) (told : Told k s)
    (frame : Frame s t j) (called : Called s t j) : Told k t := by
  intro ceased i
  rw [frame.arbiter] at ceased
  by_cases same : i = j
  · subst same
    have away := told ceased i
    cases called with
    | outside mutex start pc still =>
      refine ⟨?_, ?_, ?_, ?_⟩ <;> intro here <;> rw [here] at pc <;> cases pc
    | entered mutex on start pc =>
      exact absurd ((closing.looping on).symm.trans (notified_inLoop ceased)) Bool.noConfusion
    | skipped mutex off start pc | relocked free mutex start pc | returned mutex start pc =>
      simp [pc]
    | cleared mutex start pc => exact absurd start away.1
    | locked free mutex start pc => exact absurd start away.2.1
    | parked mutex start pc => exact absurd start away.2.2.1
  · rw [frame.others i same]
    exact told ceased i

theorem told_step {s t : Life K} {k : K} {a : Action K} (closing : Closing k s) (told : Told k s)
    (allowed : NotifyOk s a) (run : step s a = some t) : Told k t := by
  cases a with
  | caller j rightFirst =>
    obtain ⟨frame, called⟩ := callerStep_called (closing.plain j) run
    exact told_called closing told frame called
  | spurious j =>
    cases run
    intro ceased i
    have away := told ceased i
    cases spurious_caller s j i with
    | inl same => rw [same]; exact away
    | inr woken =>
      rw [woken]
      exact ⟨fun here => away.1 (unpark_eq here (by simp)),
        fun here => away.2.1 (unpark_eq here (by simp)),
        fun here => away.2.2.1 (unpark_eq here (by simp)), unpark_parked _⟩
  | arbiter j =>
    by_cases present : j = k
    · subst present
      exact told_arbiter closing told allowed (arbiterStep_arbiter run).2.2
    · simp [step, arbiterStep, closing.alone j present] at run

theorem clear_step {s : Life K} {k : K} (clears : s.caller k = .stopClear) :
    ∃ t, step s (.caller k false) = some t ∧ t.arbiter = s.arbiter ∧ t.caller k = .stopAcquire :=
  ⟨{ s.setCaller k .stopAcquire with active := false }, by simp [step, callerStep, clears], rfl,
    setCaller_self s k .stopAcquire⟩

theorem broken_missed {s t : Life K} {k : K} {a : Action K} (closing : Closing k s)
    (run : step s a = some t) (broken : ¬ NotifyOk s a) :
    ∃ u j, Reaches step anyAction t u ∧ Missed u k j := by
  cases a with
  | arbiter i =>
    have present : i = k := by
      by_contra other
      simp [step, arbiterStep, closing.alone i other] at run
    subst present
    simp only [NotifyOk, Classical.not_imp, Classical.not_forall] at broken
    obtain ⟨notifies, j, late⟩ := broken
    simp only [step, arbiterStep, notifies, Option.some.injEq] at run
    subst run
    have ceased : notified ((s.setArbiter i .closeRelease).arbiter i) = true := by
      simp [Life.setArbiter, notified]
    by_cases clears : s.caller j = .stopClear
    · -- the call clears `_active` once more and goes on to the wait
      obtain ⟨u, first, arbiter, acquires⟩ := clear_step (k := j)
        (s := { s.setArbiter i .closeRelease with caller := fun j => (s.caller j).unpark })
        (by simp [clears, CallerPc.unpark])
      exact ⟨u, j, .single ⟨_, trivial, first⟩, by rw [arbiter]; exact ceased, Or.inl acquires⟩
    · have acquires : s.caller j = .stopAcquire := by
        by_contra away
        exact late ⟨clears, away⟩
      exact ⟨_, j, .refl, ceased, Or.inl (by simp [acquires, CallerPc.unpark])⟩
  | _ => exact absurd trivial broken

/-- In runs that meet the condition no call of `stop` is left waiting for a
    notification that has been sent. Whenever it is broken, one can be. -/
theorem stop_notified (k : K) (floating : Bool) (pool : WorkerPool) (stops : K → Bool) :
    (∀ s, Reaches step NotifyOk (started k floating pool stops) s → ∀ j, ¬ Missed s k j) ∧
    (∀ s a t, Reaches step anyAction (started k floating pool stops) s → step s a = some t →
      ¬ NotifyOk s a → ∃ u j, Reaches step anyAction t u ∧ Missed u k j) := by
  constructor
  · intro s walk j missed
    have invariant := reaches_invariant (I := fun u => Closing k u ∧ Told k u)
      (fun u a v both allowed run =>
        ⟨closing_step both.1 run, told_step both.1 both.2 allowed run⟩) walk
      ⟨closing_started k floating pool stops, fun ceased => by simp [started, notified] at ceased⟩
    obtain ⟨clear, acquire, waits, parked⟩ := invariant.2 missed.1 j
    exact missed.2.elim acquire fun later => later.elim waits parked
  · intro s a t walk run broken
    have closing := reaches_invariant (fun _ _ _ ih _ run => closing_step ih run) walk
      (closing_started k floating pool stops)
    exact broken_missed closing run broken

/-- A call of `stop` that waits before the arbiter leaves its loop. -/
theorem stop_notified_early : ∃ s : Life Bool,
    Reaches step NotifyOk (started false true (filledPool 1) fun _ => true) s ∧
      s.arbiter false = .finished ∧ s.caller true = .stopReturned ∧ ¬ Missed s false true := by
  have run : ∃ s, runWithin step NotifyOk (List.replicate 4 (.caller true false) ++
      List.replicate 8 (.arbiter false) ++ List.replicate 2 (.caller true false))
      (started false true (filledPool 1) fun _ => true) = some s ∧
      s.arbiter false = .finished ∧ s.caller true = .stopReturned := ⟨_, rfl, rfl, rfl⟩
  obtain ⟨s, taken, ceased, returned⟩ := run
  have walk := runWithin_reaches taken
  exact ⟨s, walk, ceased, returned, (stop_notified _ _ _ _).1 s walk true⟩

/-- The arbiter leaves, empties the pool and notifies before the call has
    locked the close mutex. -/
theorem notification_missed : ∃ s : Life Bool,
    Reaches step anyAction (started false true (filledPool 1) fun _ => true) s ∧
      s.arbiter false = .finished ∧ s.caller true = .stopParked := by
  have run : ∃ s, runActions step (List.replicate 2 (.caller true false) ++
      List.replicate 8 (.arbiter false) ++ List.replicate 2 (.caller true false))
      (started false true (filledPool 1) fun _ => true) = some s ∧
      s.arbiter false = .finished ∧ s.caller true = .stopParked := ⟨_, rfl, rfl, rfl⟩
  obtain ⟨s, taken, facts⟩ := run
  exact ⟨s, runActions_reaches taken, facts⟩

end SchedStopNotified
