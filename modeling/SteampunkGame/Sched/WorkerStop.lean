import SteampunkGame.Sched.LostWakeup

/-!
`worker::stop` on a detached, active worker, beside the worker's thread. The
call clears `_active` and then sets `_awake` in two separate stores, and waits
for `_awake` to be cleared without asking by whom.
-/
namespace SchedStop
open SchedWorker SchedSystem SchedOrder SchedSteps SchedWakeup Runs
variable {J : Type}

/-- The next step of a thread in `worker::stop`. -/
inductive StopPc where
  | test
  | clearActive
  | setAwake
  | acquire
  | notify
  | load
  | park
  | parked
  | reacquire
  | release
  | returned
  | threw (what : String)
  deriving DecidableEq, Repr

def StopPc.unpark : StopPc → StopPc
  | .parked => .reacquire
  | pc => pc

/-- One step of `worker::stop` on the worker's members. -/
def stop (w : Worker J) : StopPc → Option (Worker J × StopPc × Effect J)
  | .test =>
      some (w, if w.active then .clearActive else .threw "worker is already stopped", .silent)
  | .clearActive => some ({ w with active := false }, .setAwake, .silent)
  | .setAwake => some ({ w with awake := true }, .acquire, .silent)
  | .acquire => if w.locked then none else some ({ w with locked := true }, .notify, .silent)
  | .notify => some (w, .load, .notifyOne)
  | .load => some (w, if w.awake then .park else .release, .silent)
  | .park => some ({ w with locked := false }, .parked, .silent)
  | .parked => none
  | .reacquire => if w.locked then none else some ({ w with locked := true }, .load, .silent)
  | .release => some ({ w with locked := false }, .returned, .silent)
  | .returned | .threw _ => none

/-- Program points at which the caller owns the worker's mutex. -/
def StopPc.holds : StopPc → Bool
  | .notify | .load | .park | .release => true
  | _ => false

/-- Before the first store. -/
def StopPc.early : StopPc → Bool
  | .test | .clearActive => true
  | _ => false

/-- From the second store to the end of the wait. -/
def StopPc.waiting : StopPc → Bool
  | .acquire | .notify | .load | .park | .parked | .reacquire => true
  | _ => false

structure Stopping (J : Type) where
  thread : Thread J
  pc : StopPc
  deriving DecidableEq, Repr

inductive Action where
  | worker (threw : Bool)
  | spurious
  | stop
  | stopSpurious
  deriving DecidableEq, Repr

def step (s : Stopping J) : Action → Option (Stopping J)
  | .worker threw =>
      match workerMain threw s.thread with
      | none => none
      | some (t, .notifyOne) => some ⟨t, s.pc.unpark⟩
      | some (t, _) => some ⟨t, s.pc⟩
  | .spurious => some ⟨s.thread.unpark, s.pc⟩
  | .stop =>
      match stop s.thread.worker s.pc with
      | none => none
      | some (w, pc, .notifyOne) => some ⟨Thread.unpark ⟨w, s.thread.pc⟩, pc⟩
      | some (w, pc, _) => some ⟨⟨w, s.thread.pc⟩, pc⟩
  | .stopSpurious => some ⟨s.thread, s.pc.unpark⟩

/-- A detached, active worker in any phase of its cycle. -/
structure Cycling (t : Thread J) : Prop where
  running : Running t
  locked : t.worker.locked = SchedSteps.holds t.pc

/-- Whatever calls the arbiter made, between two of them the worker is in such
    a phase. -/
theorem paired_cycling {W : Type} {w : W} {t : Thread J} (paired : Paired w t .ready) :
    Cycling t := by
  refine ⟨paired.running, ?_⟩
  have locked := paired.mutex.locked
  simp only [Owns, or_false] at locked
  exact Bool.eq_iff_iff.mpr locked

/-- The call begins. -/
def begin (t : Thread J) : Stopping J := ⟨t, .test⟩

/-- The thread will not write `_awake` again, and the caller waits or is
    going to wait for it to be cleared. -/
def Hangs (s : Stopping J) : Prop :=
  finished s.thread.pc = true ∧ (s.pc = .setAwake ∨ s.pc.early = true ∨ s.pc.waiting = true) ∧
    s.thread.worker.awake = true

/-- The thread does not write `_awake` for the last time between the two
    stores of the call. -/
def ExitOk (s : Stopping J) : Action → Prop
  | .worker _ => s.thread.pc = .exitClear → s.pc ≠ .setAwake
  | _ => True

instance [DecidableEq J] (s : Stopping J) : (a : Action) → Decidable (ExitOk s a)
  | .worker _ => inferInstanceAs (Decidable (_ → _))
  | .spurious | .stop | .stopSpurious => inferInstanceAs (Decidable True)

/-- All that a step can do, with the two notifications applied. -/
inductive Stepped (s t : Stopping J) : Action → Prop where
  | worker (threw : Bool) (e : Effect J) (run : workerMain threw s.thread = some (t.thread, e))
      (told : e = .notifyOne ∧ t.pc = s.pc.unpark ∨ e ≠ .notifyOne ∧ t.pc = s.pc) :
      Stepped s t (.worker threw)
  | spurious (thread : t.thread = s.thread.unpark) (pc : t.pc = s.pc) : Stepped s t .spurious
  | called (w : Worker J) (e : Effect J) (run : stop s.thread.worker s.pc = some (w, t.pc, e))
      (told : e = .notifyOne ∧ t.thread = Thread.unpark ⟨w, s.thread.pc⟩ ∨
        e ≠ .notifyOne ∧ t.thread = ⟨w, s.thread.pc⟩) : Stepped s t .stop
  | stopSpurious (thread : t.thread = s.thread) (pc : t.pc = s.pc.unpark) :
      Stepped s t .stopSpurious

theorem step_stepped {s t : Stopping J} {a : Action} (run : step s a = some t) :
    Stepped s t a := by
  cases a with
  | worker threw =>
    simp only [step] at run
    split at run
    · cases run
    · rename_i thread main
      cases run
      exact .worker threw .notifyOne main (Or.inl ⟨rfl, rfl⟩)
    · rename_i thread e silent main
      cases run
      exact .worker threw e main (Or.inr ⟨silent, rfl⟩)
  | spurious => cases run; exact .spurious rfl rfl
  | stop =>
    simp only [step] at run
    split at run
    · cases run
    · rename_i w pc main
      cases run
      exact .called w .notifyOne main (Or.inl ⟨rfl, rfl⟩)
    · rename_i w pc e silent main
      cases run
      exact .called w e main (Or.inr ⟨silent, rfl⟩)
  | stopSpurious => cases run; exact .stopSpurious rfl rfl

/-- What holds in every run of the call. -/
structure Shutting (s : Stopping J) : Prop where
  active : s.thread.worker.active = s.pc.early
  exiting : s.thread.pc.gone = true → s.thread.worker.active = false
  mutex : Mutex s.thread (s.pc.holds = true)

theorem unpark_early (pc : StopPc) : pc.unpark.early = pc.early := by
  cases pc <;> rfl

theorem unpark_holds (pc : StopPc) : pc.unpark.holds = pc.holds := by
  cases pc <;> rfl

theorem shutting_begin {t : Thread J} (cycling : Cycling t) : Shutting (begin t) := by
  obtain ⟨running, locked⟩ := cycling
  constructor
  · exact running.active
  · intro left
    exact absurd (left.symm.trans running.looping) Bool.noConfusion
  · constructor
    · rw [begin, locked]
      simp [StopPc.holds]
    · exact fun _ no => (by cases no)

theorem shutting_called {s : Stopping J} {w : Worker J} {pc : StopPc} {e : Effect J}
    (shutting : Shutting s) (run : stop s.thread.worker s.pc = some (w, pc, e)) :
    Shutting ⟨⟨w, s.thread.pc⟩, pc⟩ := by
  obtain ⟨thread, at_⟩ := s
  obtain ⟨active, exiting, mutex⟩ := shutting
  dsimp only at active exiting mutex run
  cases at_ with
  | test =>
    simp only [stop, active, StopPc.early, if_true, Option.some.injEq, Prod.mk.injEq] at run
    obtain ⟨rfl, rfl, rfl⟩ := run
    exact ⟨active, exiting, mutex_congr mutex (by simp [StopPc.holds])⟩
  | clearActive =>
    cases run
    exact ⟨rfl, fun _ => rfl, ⟨mutex.locked, mutex.apart⟩⟩
  | setAwake =>
    cases run
    exact ⟨active, exiting, ⟨mutex.locked, mutex.apart⟩⟩
  | acquire | reacquire =>
    simp only [stop] at run
    split at run
    · cases run
    · rename_i free
      cases run
      exact ⟨active, exiting, mutex_acquire mutex (by simpa using free) rfl⟩
  | notify =>
    cases run
    exact ⟨active, exiting, ⟨mutex.locked, mutex.apart⟩⟩
  | load =>
    simp only [stop] at run
    split at run <;> cases run <;> exact ⟨active, exiting, ⟨mutex.locked, mutex.apart⟩⟩
  | park | release =>
    cases run
    exact ⟨active, exiting, mutex_release mutex rfl (by simp [StopPc.holds])⟩
  | parked | returned | threw what => cases run

theorem shutting_step {s t : Stopping J} {a : Action} (shutting : Shutting s)
    (run : step s a = some t) : Shutting t := by
  cases step_stepped run with
  | worker threw e main told =>
    have same : t.pc.early = s.pc.early ∧ t.pc.holds = s.pc.holds := by
      cases told with
      | inl notified => rw [notified.2]; exact ⟨unpark_early _, unpark_holds _⟩
      | inr silent => rw [silent.2]; exact ⟨rfl, rfl⟩
    constructor
    · rw [same.1, workerMain_active main]
      exact shutting.active
    · intro left
      rw [workerMain_active main]
      cases workerMain_gone main left with
      | inl before => exact shutting.exiting before
      | inr checked => exact checked.2
    · rw [same.2]
      exact workerMain_mutex shutting.mutex main
  | spurious thread pc =>
    constructor
    · rw [thread, pc, unpark_worker]
      exact shutting.active
    · rw [thread, unpark_gone, unpark_worker]
      exact shutting.exiting
    · rw [thread, pc]
      exact unpark_mutex shutting.mutex
  | called w e main told =>
    have after := shutting_called shutting main
    cases told with
    | inl notified =>
      constructor
      · rw [notified.2, unpark_worker]
        exact after.active
      · rw [notified.2, unpark_gone, unpark_worker]
        exact after.exiting
      · rw [notified.2]
        exact unpark_mutex after.mutex
    | inr silent =>
      constructor
      · rw [silent.2]
        exact after.active
      · rw [silent.2]
        exact after.exiting
      · rw [silent.2]
        exact after.mutex
  | stopSpurious thread pc =>
    constructor
    · rw [thread, pc, unpark_early]
      exact shutting.active
    · rw [thread]
      exact shutting.exiting
    · rw [thread, pc, unpark_holds]
      exact shutting.mutex

/-- In a run that meets the condition the last write comes after both stores. -/
def Settled (s : Stopping J) : Prop :=
  finished s.thread.pc = true → s.thread.worker.awake = false ∧ s.pc ≠ .setAwake

theorem unpark_setAwake {pc : StopPc} (between : pc.unpark = .setAwake) : pc = .setAwake := by
  cases pc with
  | setAwake => rfl
  | _ => cases between

theorem stop_awake {w w' : Worker J} {pc pc' : StopPc} {e : Effect J}
    (run : stop w pc = some (w', pc', e)) :
    pc = .setAwake ∨ w'.awake = w.awake ∧ (pc' = .setAwake → pc.early = true) := by
  obtain ⟨active, awake, jobs, locked⟩ := w
  cases pc with
  | setAwake => exact Or.inl rfl
  | test =>
    cases active <;> cases run <;> exact Or.inr ⟨rfl, fun _ => rfl⟩
  | clearActive => cases run; exact Or.inr ⟨rfl, fun _ => rfl⟩
  | acquire | reacquire =>
    cases locked <;> cases run
    exact Or.inr ⟨rfl, fun no => (by cases no)⟩
  | load => cases awake <;> cases run <;> exact Or.inr ⟨rfl, fun no => (by cases no)⟩
  | notify | park | release => cases run; exact Or.inr ⟨rfl, fun no => (by cases no)⟩
  | parked | returned | threw what => cases run

theorem settled_step {s t : Stopping J} {a : Action} (shutting : Shutting s) (settled : Settled s)
    (allowed : ExitOk s a) (run : step s a = some t) : Settled t := by
  intro ceased
  cases step_stepped run with
  | worker threw e main told =>
    have later : s.pc ≠ .setAwake → t.pc ≠ .setAwake := by
      intro away between
      cases told with
      | inl notified => exact away (unpark_setAwake (notified.2.symm.trans between))
      | inr silent => exact away (silent.2.symm.trans between)
    cases workerMain_finished main ceased with
    | inl before =>
      obtain ⟨off, away⟩ := settled before.1
      exact ⟨before.2.trans off, later away⟩
    | inr wrote => exact ⟨wrote.2, later (allowed wrote.1)⟩
  | spurious thread pc =>
    rw [thread, unpark_finished] at ceased
    rw [thread, unpark_worker, pc]
    exact settled ceased
  | called w e main told =>
    have before : finished s.thread.pc = true ∧ t.thread.worker = w := by
      cases told with
      | inl notified =>
        rw [notified.2, unpark_finished] at ceased
        rw [notified.2, unpark_worker]
        exact ⟨ceased, rfl⟩
      | inr silent =>
        rw [silent.2] at ceased ⊢
        exact ⟨ceased, rfl⟩
    obtain ⟨off, away⟩ := settled before.1
    cases stop_awake main with
    | inl between => exact absurd between away
    | inr kept =>
      constructor
      · rw [before.2, kept.1, off]
      · intro between
        -- the call is before its first store, so the thread cannot have left its loop
        have on := shutting.active.trans (kept.2 between)
        rw [shutting.exiting (finished_gone before.1)] at on
        cases on
  | stopSpurious thread pc =>
    rw [thread] at ceased ⊢
    rw [pc]
    obtain ⟨off, away⟩ := settled ceased
    exact ⟨off, fun between => away (unpark_setAwake between)⟩

/-- Waiting for a thread that will not answer. -/
def Forever (s : Stopping J) : Prop :=
  finished s.thread.pc = true ∧ s.pc.waiting = true ∧ s.thread.worker.awake = true

theorem unpark_still {pc : StopPc} (waits : pc.waiting = true) : pc.unpark.waiting = true := by
  cases pc with
  | parked => rfl
  | _ => exact waits

theorem stop_waiting {w w' : Worker J} {pc pc' : StopPc} {e : Effect J}
    (run : stop w pc = some (w', pc', e)) (waits : pc.waiting = true) (on : w.awake = true) :
    pc'.waiting = true ∧ w'.awake = true := by
  obtain ⟨active, awake, jobs, locked⟩ := w
  cases on
  cases pc with
  | acquire | reacquire =>
    cases locked <;> cases run
    exact ⟨rfl, rfl⟩
  | notify | load | park => cases run; exact ⟨rfl, rfl⟩
  | parked => cases run
  | _ => cases waits

theorem forever_step {s t : Stopping J} {a : Action} (forever : Forever s)
    (run : step s a = some t) : Forever t := by
  obtain ⟨ceased, waits, on⟩ := forever
  cases step_stepped run with
  | worker threw e main told =>
    obtain ⟨still, kept⟩ := workerMain_over main ceased
    refine ⟨still, ?_, kept.trans on⟩
    cases told with
    | inl notified => rw [notified.2]; exact unpark_still waits
    | inr silent => rw [silent.2]; exact waits
  | spurious thread pc =>
    rw [Forever, thread, unpark_finished, unpark_worker, pc]
    exact ⟨ceased, waits, on⟩
  | called w e main told =>
    obtain ⟨still, awake⟩ := stop_waiting main waits on
    cases told with
    | inl notified =>
      rw [Forever, notified.2, unpark_finished, unpark_worker]
      exact ⟨ceased, still, awake⟩
    | inr silent =>
      rw [Forever, silent.2]
      exact ⟨ceased, still, awake⟩
  | stopSpurious thread pc =>
    rw [Forever, thread, pc]
    exact ⟨ceased, unpark_still waits, on⟩

theorem forever_hangs {s : Stopping J} (forever : Forever s) : Hangs s :=
  ⟨forever.1, Or.inr (Or.inr forever.2.1), forever.2.2⟩

theorem early_exit_hangs {s t : Stopping J} {a : Action} (broken : ¬ ExitOk s a)
    (run : step s a = some t) : ∃ u, step t .stop = some u ∧ Forever u := by
  cases a with
  | worker threw =>
    simp only [ExitOk, Classical.not_imp, not_not] at broken
    obtain ⟨leaves, between⟩ := broken
    obtain ⟨⟨worker, pc⟩, at_⟩ := s
    cases leaves
    cases between
    cases run
    exact ⟨_, rfl, rfl, rfl, rfl⟩
  | _ => exact absurd trivial broken

/-- In runs in which the thread does not finish between the two stores the
    call never waits for a thread that is done. Whenever the thread finishes
    there, the call can be left waiting for ever. -/
theorem stop_returns (t : Thread J) (cycling : Cycling t) :
    (∀ s, Reaches step ExitOk (begin t) s → ¬ Hangs s) ∧
    (∀ s a u, Reaches step anyAction (begin t) s → step s a = some u → ¬ ExitOk s a →
      ∃ v, Reaches step anyAction u v ∧ ∀ later, Reaches step anyAction v later → Hangs later) := by
  constructor
  · intro s walk
    have invariant := reaches_invariant (I := fun u => Shutting u ∧ Settled u)
      (fun u a v both allowed run =>
        ⟨shutting_step both.1 run, settled_step both.1 both.2 allowed run⟩) walk
      ⟨shutting_begin cycling, fun ceased => by
        have left := finished_gone ceased
        rw [show (begin t).thread.pc.gone = false from cycling.running.looping] at left
        cases left⟩
    rintro ⟨ceased, _, on⟩
    rw [(invariant.2 ceased).1] at on
    cases on
  · intro s a u _ run broken
    obtain ⟨v, store, forever⟩ := early_exit_hangs broken run
    refine ⟨v, .single ⟨.stop, trivial, store⟩, fun later walk => ?_⟩
    exact forever_hangs (reaches_invariant (fun _ _ _ ih _ run => forever_step ih run) walk forever)

/-- A thread that has just cleared `_awake` after a cycle, stopped so that it
    finishes after the second store. -/
theorem stop_returns_idle : ∃ s : Stopping Nat,
    Reaches step ExitOk (begin ⟨⟨true, false, [], false⟩, .acquire⟩) s ∧
      s.thread.pc = .terminated ∧ ¬ Hangs s := by
  have cycling : Cycling (⟨⟨true, false, [], false⟩, .acquire⟩ : Thread Nat) :=
    ⟨⟨rfl, rfl, fun no => (by cases no)⟩, rfl⟩
  have run : ∃ s, runWithin step ExitOk
      (List.replicate 3 .stop ++ List.replicate 8 (.worker false))
      (begin (⟨⟨true, false, [], false⟩, .acquire⟩ : Thread Nat)) = some s ∧
      s.thread.pc = .terminated := ⟨_, rfl, rfl⟩
  obtain ⟨s, taken, ceased⟩ := run
  have walk := runWithin_reaches taken
  exact ⟨s, walk, ceased, (stop_returns _ cycling).1 s walk⟩

/-- The same thread, which now reads `_active` between the two stores. -/
theorem exit_between_stores_hangs : ∃ s : Stopping Nat,
    Reaches step anyAction (begin ⟨⟨true, false, [], false⟩, .acquire⟩) s ∧ Hangs s := by
  have run : ∃ s, runActions step ([.stop, .stop] ++ List.replicate 6 (.worker false) ++ [.stop])
      (begin (⟨⟨true, false, [], false⟩, .acquire⟩ : Thread Nat)) = some s ∧ Hangs s :=
    ⟨_, rfl, rfl, Or.inr (Or.inr rfl), rfl⟩
  obtain ⟨s, taken, hangs⟩ := run
  exact ⟨s, runActions_reaches taken, hangs⟩

end SchedStop
