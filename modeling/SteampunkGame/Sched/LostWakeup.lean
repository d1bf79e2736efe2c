import SteampunkGame.Sched.CallOrder
import SteampunkGame.Sched.WorkerSteps

/-!
Why no wake-up is lost between the arbiter and a worker, although both change
the flag without holding the mutex and share one condition variable. The
invariant ties the flag to the program points of the two threads.
-/
namespace SchedWakeup
open SchedWorker SchedSystem SchedOrder SchedSteps Runs
variable {W J : Type}

/-- A thread at the head of its loop, with nothing to do. -/
def entered : Thread J := ⟨⟨true, false, [], false⟩, .acquire⟩

/-- The worker that the arbiter's current call is about. -/
def target : ArbiterPc W → Option W
  | .ready => none
  | .wakeAcquire w | .wakeNotify w | .wakeRelease w | .waitLoad w | .waitPark w | .waitParked w
  | .waitReacquire w | .waitRelease w => some w

/-- The arbiter owns the mutex of `w`. -/
def Owns (w : W) : ArbiterPc W → Prop
  | .wakeNotify v | .wakeRelease v | .waitLoad v | .waitPark v | .waitRelease v => v = w
  | _ => False

/-- Whoever sleeps against the flag is about to be notified by the other. -/
structure Paired (w : W) (t : Thread J) (pc : ArbiterPc W) : Prop where
  running : Running t
  mutex : Mutex t (Owns w pc)
  woken : suspending t.pc = true → t.worker.awake = true →
    pc = .wakeAcquire w ∨ pc = .wakeNotify w
  cleared : pc = .waitPark w ∨ pc = .waitParked w → t.worker.awake = false →
    notifying t.pc = true

theorem owns_target {w : W} {pc : ArbiterPc W} (owned : Owns w pc) : target pc = some w := by
  cases pc with
  | wakeNotify v | wakeRelease v | waitLoad v | waitPark v | waitRelease v =>
    exact congrArg some owned
  | _ => exact owned.elim

/-- Calls on other workers do not matter. -/
theorem paired_elsewhere {w : W} {t : Thread J} {pc pc' : ArbiterPc W} (paired : Paired w t pc)
    (away : target pc ≠ some w) (away' : target pc' ≠ some w) : Paired w t pc' := by
  obtain ⟨running, mutex, woken, cleared⟩ := paired
  constructor
  · exact running
  · exact mutex_congr mutex ⟨fun owned => absurd (owns_target owned) away',
      fun owned => absurd (owns_target owned) away⟩
  · intro sleeps awake
    cases woken sleeps awake with
    | inl acquiring => exact absurd (by rw [acquiring]; rfl) away
    | inr telling => exact absurd (by rw [telling]; rfl) away
  · intro waits
    cases waits with
    | inl parking => exact absurd (by rw [parking]; rfl) away'
    | inr parked => exact absurd (by rw [parked]; rfl) away'

theorem paired_entered (w : W) : Paired w (entered : Thread J) .ready := by
  constructor
  · exact ⟨rfl, rfl, fun no => (by cases no)⟩
  · exact ⟨⟨fun no => (by cases no), fun owned => owned.elim (fun no => (by cases no)) False.elim⟩,
      fun no => (by cases no)⟩
  · exact fun no => (by cases no)
  · exact fun no => (by simp at no)

theorem paired_push {w : W} {t : Thread J} (job : J) (paired : Paired w t .ready) :
    Paired w (t.push job) .ready := by
  obtain ⟨running, mutex, woken, cleared⟩ := paired
  exact ⟨⟨running.active, running.looping, running.awake⟩, ⟨mutex.locked, mutex.apart⟩, woken,
    cleared⟩

theorem paired_setAwake {w : W} {t : Thread J} (paired : Paired w t .ready) :
    Paired w t.setAwake (.wakeAcquire w) := by
  obtain ⟨running, mutex, woken, cleared⟩ := paired
  exact ⟨⟨running.active, running.looping, fun _ => rfl⟩, ⟨mutex.locked, mutex.apart⟩,
    fun _ _ => Or.inl rfl, fun no => (by simp at no)⟩

theorem paired_unpark {w : W} {t : Thread J} {pc : ArbiterPc W} (paired : Paired w t pc) :
    Paired w t.unpark pc := by
  obtain ⟨running, mutex, woken, cleared⟩ := paired
  have calm := calm_unpark t
  constructor
  · exact calm_running calm running
  · exact unpark_mutex mutex
  · cases calm.pc with
    | inl same => rw [same, calm.awake]; exact woken
    | inr notified => rw [notified.2]; exact fun no => (by cases no)
  · cases calm.pc with
    | inl same => rw [same, calm.awake]; exact cleared
    | inr notified =>
      rw [notified.1] at cleared
      rw [calm.awake]
      exact fun waits asleep => absurd (cleared waits asleep) Bool.false_ne_true

variable [DecidableEq W]

theorem unpark_owns (w v : W) (pc : ArbiterPc W) : Owns w (pc.unpark v) ↔ Owns w pc := by
  cases pc with
  | waitParked u =>
    unfold ArbiterPc.unpark
    dsimp only
    split <;> rfl
  | _ => rfl

theorem unpark_waiting {w v : W} {pc : ArbiterPc W}
    (waits : pc.unpark v = .waitPark w ∨ pc.unpark v = .waitParked w) :
    pc = .waitPark w ∨ pc = .waitParked w ∧ v ≠ w := by
  cases pc with
  | waitParked u =>
    unfold ArbiterPc.unpark at waits
    dsimp only at waits
    split at waits
    · simp at waits
    · rename_i other
      simp only [reduceCtorEq, ArbiterPc.waitParked.injEq, false_or] at waits
      exact Or.inr ⟨by rw [waits], fun same => other (by rw [waits, same])⟩
  | waitPark u =>
    simp only [ArbiterPc.unpark, ArbiterPc.waitPark.injEq, reduceCtorEq, or_false] at waits
    exact Or.inl (by rw [waits])
  | _ => simp [ArbiterPc.unpark] at waits

theorem unpark_waking {w v : W} {pc : ArbiterPc W}
    (wakes : pc = .wakeAcquire w ∨ pc = .wakeNotify w) : pc.unpark v = pc := by
  cases wakes with
  | inl acquiring => rw [acquiring]; rfl
  | inr telling => rw [telling]; rfl

/-- The arbiter after a step of the thread of `w`. -/
def told (w : W) (pc : ArbiterPc W) : Effect J → ArbiterPc W
  | .notifyOne => pc.unpark w
  | _ => pc

theorem told_cases (w : W) (pc : ArbiterPc W) (e : Effect J) :
    e = .notifyOne ∧ told w pc e = pc.unpark w ∨ e ≠ .notifyOne ∧ told w pc e = pc := by
  cases e with
  | notifyOne => exact Or.inl ⟨rfl, rfl⟩
  | _ => exact Or.inr ⟨by simp, rfl⟩

theorem workerStep_told {w : W} {threw : Bool} {s t : System W J}
    (run : workerStep w threw s = some t) :
    ∃ thread effect, workerMain threw (s.threads w) = some (thread, effect) ∧
      t.threads = Function.update s.threads w thread ∧ t.pc = told w s.pc effect := by
  unfold workerStep at run
  split at run
  · cases run
  · rename_i thread effect main
    cases run
    cases effect <;> exact ⟨_, _, main, rfl, rfl⟩

theorem paired_worker {w : W} {threw : Bool} {t t' : Thread J} {e : Effect J} {pc : ArbiterPc W}
    (paired : Paired w t pc) (run : workerMain threw t = some (t', e)) :
    Paired w t' (told w pc e) := by
  obtain ⟨running, mutex, woken, cleared⟩ := paired
  constructor
  · exact (workerMain_moved running run).1
  · apply mutex_congr (workerMain_mutex mutex run)
    cases told_cases w pc e with
    | inl notified => rw [notified.2, unpark_owns]
    | inr silent => rw [silent.2]
  · intro sleeps awake
    obtain ⟨kept, before⟩ := workerMain_suspending run sleeps
    rw [kept] at awake
    cases before with
    | inl slept =>
      have wakes := woken slept awake
      cases told_cases w pc e with
      | inl notified => rwa [notified.2, unpark_waking wakes]
      | inr silent => rwa [silent.2]
    | inr read => rw [read.2] at awake; cases awake
  · intro waits asleep
    have waited : pc = .waitPark w ∨ pc = .waitParked w ∧ e ≠ .notifyOne := by
      cases told_cases w pc e with
      | inl notified =>
        rw [notified.2] at waits
        exact (unpark_waiting waits).imp id fun other => absurd rfl other.2
      | inr silent =>
        rw [silent.2] at waits
        exact waits.imp id fun parked => ⟨parked, silent.1⟩
    cases workerMain_awake run with
    | inl kept =>
      have pending := cleared (waited.imp id And.left) (kept ▸ asleep)
      cases (workerMain_notifying run pending).2 with
      | inl still => exact still
      | inr tells =>
        -- the thread owns the mutex, so the arbiter was parked and has been notified
        cases waited with
        | inl parking => exact absurd (by rw [parking]; rfl) (mutex.apart tells.1)
        | inr parked => exact absurd tells.2 parked.2
    | inr wrote =>
      cases wrote.2 with
      | inl ordinary => rw [ordinary.2]; rfl
      | inr last => rw [last.2]; rfl

theorem paired_spurious {w : W} {t : Thread J} {pc : ArbiterPc W} (paired : Paired w t pc)
    (v : W) : Paired w t (pc.unpark v) := by
  obtain ⟨running, mutex, woken, cleared⟩ := paired
  constructor
  · exact running
  · exact mutex_congr mutex (unpark_owns w v pc)
  · intro sleeps awake
    have wakes := woken sleeps awake
    rwa [unpark_waking wakes]
  · intro waits
    exact cleared ((unpark_waiting waits).imp id And.left)

/-- A step of a call on `w` itself. -/
theorem paired_call {w : W} {s t : System W J} (paired : Paired w (s.threads w) s.pc)
    (about : target s.pc = some w) (run : arbiterStep s = some t) :
    Paired w (t.threads w) t.pc := by
  obtain ⟨threads, program, pc, past, log⟩ := s
  obtain ⟨running, mutex, woken, cleared⟩ := paired
  dsimp only at running mutex woken cleared about
  have still (locked : Bool) : Running ((threads w).setLocked locked) :=
    ⟨running.active, running.looping, running.awake⟩
  cases pc with
  | ready => cases about
  | wakeAcquire v =>
    cases about
    simp only [arbiterStep] at run
    split at run
    · cases run
    · rename_i free
      cases run
      simp only [System.setThread, Function.update_self]
      exact ⟨still true, mutex_acquire mutex (by simpa using free) rfl, fun _ _ => Or.inr rfl,
        fun no => (by simp at no)⟩
  | wakeNotify v =>
    cases about
    cases run
    simp only [System.setThread, Function.update_self]
    constructor
    · exact calm_running (calm_unpark _) running
    · exact unpark_mutex (mutex_congr mutex (by rfl))
    · exact fun sleeps => absurd rfl (mutex.apart (unpark_suspending sleeps))
    · exact fun no => (by simp at no)
  | wakeRelease v =>
    cases about
    cases run
    simp only [System.setThread, Function.update_self]
    exact ⟨still false, mutex_release mutex rfl id, fun sleeps awake =>
      absurd (woken sleeps awake) (by simp), fun no => (by simp at no)⟩
  | waitLoad v =>
    cases about
    simp only [arbiterStep] at run
    split at run
    · rename_i awake
      cases run
      exact ⟨running, mutex_congr mutex (by rfl), fun sleeps awake =>
        absurd (woken sleeps awake) (by simp), fun _ asleep =>
          absurd awake (Bool.eq_false_iff.mp asleep)⟩
    · cases run
      exact ⟨running, mutex_congr mutex (by rfl), fun sleeps awake =>
        absurd (woken sleeps awake) (by simp), fun no => (by simp at no)⟩
  | waitPark v =>
    cases about
    cases run
    simp only [System.setThread, Function.update_self]
    exact ⟨still false, mutex_release mutex rfl id, fun sleeps awake =>
      absurd (woken sleeps awake) (by simp), fun _ => cleared (Or.inl rfl)⟩
  | waitParked v => cases run
  | waitReacquire v =>
    cases about
    simp only [arbiterStep] at run
    split at run
    · cases run
    · rename_i free
      cases run
      simp only [System.setThread, Function.update_self]
      exact ⟨still true, mutex_acquire mutex (by simpa using free) rfl, fun sleeps awake =>
        absurd (woken sleeps awake) (by simp), fun no => (by simp at no)⟩
  | waitRelease v =>
    cases about
    cases run
    simp only [System.setThread, Function.update_self]
    exact ⟨still false, mutex_release mutex rfl id, fun sleeps awake =>
      absurd (woken sleeps awake) (by simp), fun no => (by simp at no)⟩

theorem paired_arbiter {w : W} {s t : System W J} (paired : Paired w (s.threads w) s.pc)
    (run : arbiterStep s = some t) : Paired w (t.threads w) t.pc := by
  by_cases about : target s.pc = some w
  · exact paired_call paired about run
  · obtain ⟨threads, program, pc, past, log⟩ := s
    cases pc with
    | ready =>
      cases program with
      | nil => cases run
      | cons call rest =>
        by_cases same : call.target = w
        · cases call with
          | assign v job =>
            cases same
            cases run
            simpa [System.setThread, Command.target] using paired_push job paired
          | wake v =>
            cases same
            cases run
            simpa [System.setThread, Command.target] using paired_setAwake paired
          | waitCycleFinish v =>
            cases same
            simp only [arbiterStep] at run
            split at run
            · cases run
            · rename_i free
              cases run
              simp only [System.setThread, Command.target, Function.update_self]
              obtain ⟨running, mutex, woken, cleared⟩ := paired
              exact ⟨⟨running.active, running.looping, running.awake⟩,
                mutex_acquire mutex (by simpa using free) rfl, fun sleeps awake =>
                  absurd (woken sleeps awake) (by simp), fun no => (by simp at no)⟩
        · cases call with
          | assign v job =>
            have other : w ≠ v := Ne.symm same
            cases run
            simpa [System.setThread, Function.update_of_ne other] using paired
          | wake v =>
            have other : w ≠ v := Ne.symm same
            cases run
            simp only [System.setThread, Function.update_of_ne other]
            exact paired_elsewhere paired about (fun here => other (Option.some.inj here).symm)
          | waitCycleFinish v =>
            have other : w ≠ v := Ne.symm same
            simp only [arbiterStep] at run
            split at run
            · cases run
            · cases run
              simp only [System.setThread, Function.update_of_ne other]
              exact paired_elsewhere paired about (fun here => other (Option.some.inj here).symm)
    | wakeAcquire v | waitReacquire v =>
      have other : w ≠ v := fun same => about (by rw [same]; rfl)
      simp only [arbiterStep] at run
      split at run
      · cases run
      · cases run
        simp only [System.setThread, Function.update_of_ne other]
        exact paired_elsewhere paired about about
    | waitLoad v =>
      simp only [arbiterStep] at run
      split at run <;> cases run <;> exact paired_elsewhere paired about about
    | wakeNotify v | waitPark v =>
      have other : w ≠ v := fun same => about (by rw [same]; rfl)
      cases run
      simp only [System.setThread, Function.update_of_ne other]
      exact paired_elsewhere paired about about
    | wakeRelease v | waitRelease v =>
      have other : w ≠ v := fun same => about (by rw [same]; rfl)
      cases run
      simp only [System.setThread, Function.update_of_ne other]
      exact paired_elsewhere paired about (fun no => (by cases no))
    | waitParked v => cases run

theorem arbiter_enabled {w : W} {s : System W J} (mutex : Mutex (s.threads w) (Owns w s.pc))
    (parked : (s.threads w).pc = .parked) (about : target s.pc = some w)
    (apart : s.pc ≠ .waitParked w) : ∃ t, arbiterStep s = some t := by
  obtain ⟨threads, program, pc, past, log⟩ := s
  have away : SchedSteps.holds (threads w).pc = false := by
    rw [show (threads w).pc = .parked from parked]
    rfl
  have unlocked : ¬ Owns w pc → (threads w).worker.locked = false := mutex_free mutex away
  cases pc with
  | ready => cases about
  | wakeAcquire v | waitReacquire v =>
    cases about
    simp only [arbiterStep, unlocked id]
    exact ⟨_, rfl⟩
  | waitLoad v =>
    simp only [arbiterStep]
    split <;> exact ⟨_, rfl⟩
  | waitParked v =>
    cases about
    exact absurd rfl apart
  | wakeNotify v | wakeRelease v | waitPark v | waitRelease v => exact ⟨_, rfl⟩

theorem notifying_running {t : Thread J} (running : Running t) (pending : notifying t.pc = true) :
    t.pc = .notifyAcquire ∨ t.pc = .notify := by
  obtain ⟨worker, pc⟩ := t
  have looping : pc.gone = false := running.looping
  cases pc with
  | notifyAcquire => exact Or.inl rfl
  | notify => exact Or.inr rfl
  | exitAcquire | exitNotify => cases looping
  | _ => cases pending

theorem paired_step {pool : List W} {w : W} {s t : System W J} {a : Action W}
    (paired : Paired w (s.threads w) s.pc) (run : step pool s a = some t) :
    Paired w (t.threads w) t.pc := by
  cases a with
  | worker v threw =>
    simp only [step] at run
    split at run
    · obtain ⟨thread, effect, main, threads, pc⟩ := workerStep_told run
      rw [threads, pc]
      by_cases same : v = w
      · subst same
        rw [Function.update_self]
        exact paired_worker paired main
      · rw [Function.update_of_ne (Ne.symm same)]
        cases told_cases v s.pc effect with
        | inl notified => rw [notified.2]; exact paired_spurious paired v
        | inr silent => rw [silent.2]; exact paired
    · cases run
  | spurious v =>
    simp only [step] at run
    split at run
    · cases run
      by_cases same : v = w
      · subst same
        simpa [System.setThread] using paired_unpark paired
      · simpa [System.setThread, Function.update_of_ne (Ne.symm same)] using paired
    · cases run
  | arbiter => exact paired_arbiter paired run
  | arbiterSpurious =>
    simp only [step] at run
    split at run
    · rename_i v waiting
      cases run
      have woken := paired_spurious paired v
      rw [waiting] at woken
      simpa [ArbiterPc.unpark] using woken
    · cases run

theorem paired_reaches {pool : List W} {program : List (Command W J)} {s : System W J}
    (walk : Reaches (step pool) anyAction (launch (fun _ => entered) program) s) (w : W) :
    Paired w (s.threads w) s.pc :=
  reaches_invariant (I := fun u => Paired w (u.threads w) u.pc)
    (fun _ _ _ paired _ run => paired_step paired run) walk (paired_entered w)

/-- The pair never sleeps on both sides, and whichever side sleeps while the
    other is busy with it, that other side can go on. -/
theorem no_lost_wakeup (pool : List W) (program : List (Command W J)) (w : W) (s : System W J)
    (walk : Reaches (step pool) anyAction (launch (fun _ => entered) program) s) :
    ((s.threads w).pc = .parked → (s.threads w).worker.awake = true →
      s.pc = .wakeAcquire w ∨ s.pc = .wakeNotify w) ∧
    (s.pc = .waitParked w → (s.threads w).worker.awake = false →
      (s.threads w).pc = .notifyAcquire ∨ (s.threads w).pc = .notify) ∧
    ¬ ((s.threads w).pc = .parked ∧ s.pc = .waitParked w) ∧
    ((s.threads w).pc = .parked → target s.pc = some w → ∃ t, arbiterStep s = some t) ∧
    (s.pc = .waitParked w → ∃ t, workerStep w false s = some t) := by
  have paired := paired_reaches walk w
  have asleep : (s.threads w).pc = .parked → (s.threads w).worker.awake = true →
      s.pc = .wakeAcquire w ∨ s.pc = .wakeNotify w := by
    intro parked awake
    exact paired.woken (by rw [parked]; rfl) awake
  have waiting : s.pc = .waitParked w → (s.threads w).worker.awake = false →
      (s.threads w).pc = .notifyAcquire ∨ (s.threads w).pc = .notify := by
    intro waits off
    exact notifying_running paired.running (paired.cleared (Or.inr waits) off)
  have apart : ¬ ((s.threads w).pc = .parked ∧ s.pc = .waitParked w) := by
    rintro ⟨parked, waits⟩
    cases awake : (s.threads w).worker.awake with
    | true => simpa [waits] using asleep parked awake
    | false => simpa [parked] using waiting waits awake
  refine ⟨asleep, waiting, apart, ?_, ?_⟩
  · intro parked about
    exact arbiter_enabled paired.mutex parked about fun waits => apart ⟨parked, waits⟩
  · intro waits
    have free : ¬ Owns w s.pc := by rw [waits]; exact id
    have runs : (s.threads w).pc ≠ .parked ∧ (s.threads w).pc ≠ .terminated := by
      refine ⟨fun parked => apart ⟨parked, waits⟩, fun ceased => ?_⟩
      have looping := paired.running.looping
      rw [ceased] at looping
      cases looping
    obtain ⟨thread, effect, main⟩ := workerMain_enabled paired.mutex free runs false
    rw [workerStep, main]
    exact ⟨_, rfl⟩

/-- One worker that is handed a job: it sleeps again with its flag set while
    the arbiter has yet to notify it. -/
theorem no_lost_wakeup_single : ∃ s : System Unit Nat,
    (s.threads ()).pc = .parked ∧ (s.threads ()).worker.awake = true ∧
      (s.pc = .wakeAcquire () ∨ s.pc = .wakeNotify ()) := by
  have run : ∃ s, runActions (step [()]) (List.replicate 4 (.worker () false) ++
      List.replicate 2 .arbiter)
      (launch (fun _ => entered) [.assign () 0, .wake (), .waitCycleFinish ()]) = some s ∧
      (s.threads ()).pc = .parked ∧ (s.threads ()).worker.awake = true := ⟨_, rfl, rfl, rfl⟩
  obtain ⟨s, taken, parked, awake⟩ := run
  exact ⟨s, parked, awake, (no_lost_wakeup [()] _ () s (runActions_reaches taken)).1 parked awake⟩

end SchedWakeup
