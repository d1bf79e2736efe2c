import SteampunkGame.Sched.WorkerStop

/-!
What is known of the worker's thread when `worker::stop` returns. The flag the
call waits for is cleared at the end of every cycle as well as at the end of
the thread, and both times the thread still locks and notifies afterwards.
-/
namespace SchedStopReturn
open SchedWorker SchedSystem SchedSteps SchedStop Runs
variable {J : Type}

/-- From the second store on. -/
def late : StopPc → Bool
  | .acquire | .notify | .load | .park | .parked | .reacquire | .release | .returned => true
  | _ => false

/-- The second store is not made during a cycle of the thread, and the wait
    does not read the flag between the last write and the lock after it. -/
def QuietOk (s : Stopping J) : Action → Prop
  | .stop => (s.pc = .setAwake → inCycle s.thread.pc = false) ∧
      (s.pc = .load → s.thread.pc = .exitAcquire → s.thread.worker.awake = true)
  | _ => True

instance [DecidableEq J] (s : Stopping J) : (a : Action) → Decidable (QuietOk s a)
  | .stop => inferInstanceAs (Decidable (_ ∧ _))
  | .worker _ | .spurious | .stopSpurious => inferInstanceAs (Decidable True)

/-- In a run that meets the condition only the end of the thread clears the
    flag, and the call sees that only when the thread is done. -/
structure Closing (s : Stopping J) : Prop where
  cycle : late s.pc = true → inCycle s.thread.pc = false
  cleared : s.pc.waiting = true → s.thread.worker.awake = false → finished s.thread.pc = true
  ceased : s.pc = .release ∨ s.pc = .returned → s.thread.pc = .terminated

theorem late_unpark (pc : StopPc) : late pc.unpark = late pc := by
  cases pc <;> rfl

theorem waiting_unpark (pc : StopPc) : pc.unpark.waiting = pc.waiting := by
  cases pc <;> rfl

theorem late_early {pc : StopPc} (after : late pc = true) : pc.early = false := by
  cases pc with
  | test | clearActive | setAwake | threw => cases after
  | _ => rfl

theorem waiting_late {pc : StopPc} (waits : pc.waiting = true) : late pc = true := by
  cases pc with
  | acquire | notify | load | park | parked | reacquire => rfl
  | _ => cases waits

theorem unpark_done {pc : StopPc} (done : pc.unpark = .release ∨ pc.unpark = .returned) :
    pc = .release ∨ pc = .returned := by
  cases pc with
  | release => exact Or.inl rfl
  | returned => exact Or.inr rfl
  | _ => simp [StopPc.unpark] at done

theorem closing_worker {s : Stopping J} {threw : Bool} {t' : Thread J} {e : Effect J}
    (shutting : Shutting s) (closing : Closing s)
    (run : workerMain threw s.thread = some (t', e)) : Closing ⟨t', s.pc⟩ := by
  obtain ⟨cycle, cleared, ceased⟩ := closing
  constructor
  · intro after
    cases inside : inCycle t'.pc with
    | false => rfl
    | true =>
      cases workerMain_inCycle run inside with
      | inl before => exact absurd (before.symm.trans (cycle after)) Bool.noConfusion
      | inr checked =>
        have off := shutting.active.trans (late_early after)
        exact absurd (checked.2.symm.trans off) Bool.noConfusion
  · intro waits asleep
    cases workerMain_awake run with
    | inl kept => exact (workerMain_over run (cleared waits (kept.symm.trans asleep))).1
    | inr wrote =>
      cases wrote.2 with
      | inl ordinary =>
        have outside := cycle (waiting_late waits)
        rw [ordinary.1] at outside
        cases outside
      | inr last =>
        rw [last.2]
        rfl
  · intro done
    obtain ⟨thread, pc⟩ := s
    obtain ⟨worker, at_⟩ := thread
    cases ceased done
    cases run

theorem closing_unpark {s : Stopping J} (closing : Closing s) :
    Closing ⟨s.thread.unpark, s.pc⟩ := by
  obtain ⟨cycle, cleared, ceased⟩ := closing
  constructor
  · rw [unpark_inCycle]
    exact cycle
  · rw [unpark_finished, unpark_worker]
    exact cleared
  · intro done
    have ended := ceased done
    cases unpark_pc s.thread with
    | inl same => rw [same, ended]
    | inr parked => rw [parked.1] at ended; cases ended

theorem closing_pc {s : Stopping J} (closing : Closing s) : Closing ⟨s.thread, s.pc.unpark⟩ := by
  obtain ⟨cycle, cleared, ceased⟩ := closing
  constructor
  · rw [late_unpark]
    exact cycle
  · rw [waiting_unpark]
    exact cleared
  · exact fun done => ceased (unpark_done done)

theorem closing_called {s : Stopping J} {w : Worker J} {pc : StopPc} {e : Effect J}
    (shutting : Shutting s) (closing : Closing s) (allowed : QuietOk s .stop)
    (run : stop s.thread.worker s.pc = some (w, pc, e)) : Closing ⟨⟨w, s.thread.pc⟩, pc⟩ := by
  obtain ⟨⟨⟨active, awake, jobs, locked⟩, at_⟩, pc⟩ := s
  obtain ⟨cycle, cleared, ceased⟩ := closing
  obtain ⟨storing, reading⟩ := allowed
  dsimp only at cycle cleared ceased storing reading run
  cases pc with
  | test =>
    cases active <;> cases run <;>
      exact ⟨fun no => (by cases no), fun no => (by cases no), fun no => (by simp at no)⟩
  | clearActive =>
    cases run
    exact ⟨fun no => (by cases no), fun no => (by cases no), fun no => (by simp at no)⟩
  | setAwake =>
    cases run
    exact ⟨fun _ => storing rfl, fun _ no => (by cases no), fun no => (by simp at no)⟩
  | acquire | reacquire =>
    cases locked <;> cases run
    exact ⟨fun _ => cycle rfl, fun _ => cleared rfl, fun no => (by simp at no)⟩
  | notify | park =>
    cases run
    exact ⟨fun _ => cycle rfl, fun _ => cleared rfl, fun no => (by simp at no)⟩
  | load =>
    cases awake with
    | true =>
      cases run
      exact ⟨fun _ => cycle rfl, fun _ => cleared rfl, fun no => (by simp at no)⟩
    | false =>
      cases run
      refine ⟨fun _ => cycle rfl, fun no => (by cases no), fun _ => ?_⟩
      have ended := cleared rfl rfl
      have apart := shutting.mutex.apart
      -- the caller owns the mutex, so the thread has not reached it or has given it back
      cases at_ with
      | terminated => rfl
      | exitAcquire => exact absurd (reading rfl rfl) Bool.noConfusion
      | exitNotify | exitRelease => exact absurd rfl (apart rfl)
      | _ => cases ended
  | release =>
    cases run
    exact ⟨fun _ => cycle rfl, fun no => (by cases no), fun _ => ceased (Or.inl rfl)⟩
  | parked | returned | threw what => cases run

theorem closing_step {s t : Stopping J} {a : Action} (shutting : Shutting s)
    (closing : Closing s) (allowed : QuietOk s a) (run : step s a = some t) : Closing t := by
  obtain ⟨thread, pc⟩ := t
  cases step_stepped run with
  | worker threw e main told =>
    have moved := closing_worker shutting closing main
    cases told with
    | inl notified => cases notified.2; exact closing_pc moved
    | inr silent => cases silent.2; exact moved
  | spurious same kept =>
    cases same
    cases kept
    exact closing_unpark closing
  | called w e main told =>
    have called := closing_called shutting closing allowed main
    cases told with
    | inl notified => cases notified.2; exact closing_unpark called
    | inr silent => cases silent.2; exact called
  | stopSpurious same kept =>
    cases same
    cases kept
    exact closing_pc closing

theorem closing_begin (t : Thread J) : Closing (begin t) :=
  ⟨fun no => (by cases no), fun no => (by cases no), fun no => (by simp [begin] at no)⟩

/-- The thread alone takes and runs what is queued. -/
theorem drains (w : Worker J) (pc : StopPc) :
    Reaches step anyAction (⟨⟨w, .tryPop⟩, pc⟩ : Stopping J)
      ⟨⟨{ w with jobs := [] }, .clearAwake⟩, pc⟩ := by
  obtain ⟨active, awake, jobs, locked⟩ := w
  induction jobs with
  | nil => exact .single ⟨.worker false, trivial, rfl⟩
  | cons job rest ih =>
    refine .head ⟨.worker false, trivial, rfl⟩ ?_
    exact .head ⟨.worker false, trivial, rfl⟩ ih

theorem cycle_ends {t : Thread J} (cycles : inCycle t.pc = true) (pc : StopPc) :
    ∃ jobs, Reaches step anyAction (⟨t, pc⟩ : Stopping J)
      ⟨⟨{ t.worker with jobs := jobs }, .clearAwake⟩, pc⟩ := by
  obtain ⟨worker, at_⟩ := t
  cases at_ with
  | tryPop => exact ⟨[], drains worker pc⟩
  | executing job => exact ⟨[], .head ⟨.worker false, trivial, rfl⟩ (drains worker pc)⟩
  | clearAwake => exact ⟨worker.jobs, .refl⟩
  | _ => cases cycles

theorem stored_early {s u : Stopping J} (shutting : Shutting s) (store : s.pc = .setAwake)
    (cycles : inCycle s.thread.pc = true) (run : step s .stop = some u) :
    ∃ v, Reaches step anyAction u v ∧ v.pc = .returned ∧ v.thread.pc ≠ .terminated := by
  obtain ⟨⟨⟨active, awake, jobs, locked⟩, at_⟩, pc⟩ := s
  cases store
  have free : locked = false :=
    mutex_free shutting.mutex (inCycle_holds cycles) (fun no => (by cases no))
  subst free
  cases run
  obtain ⟨left, drained⟩ := cycle_ends (t := ⟨⟨active, true, jobs, false⟩, at_⟩) cycles .acquire
  refine ⟨⟨⟨⟨active, false, left, false⟩, .notifyAcquire⟩, .returned⟩, drained.trans ?_, rfl,
    fun no => (by cases no)⟩
  exact runActions_reaches (show runActions step (.worker false :: List.replicate 4 .stop) _ =
    some _ from rfl)

theorem read_early {s u : Stopping J} (reads : s.pc = .load) (leaves : s.thread.pc = .exitAcquire)
    (off : s.thread.worker.awake = false) (run : step s .stop = some u) :
    ∃ v, Reaches step anyAction u v ∧ v.pc = .returned ∧ v.thread.pc ≠ .terminated := by
  obtain ⟨⟨⟨active, awake, jobs, locked⟩, at_⟩, pc⟩ := s
  cases reads
  cases leaves
  cases off
  cases run
  exact ⟨_, .single ⟨.stop, trivial, rfl⟩, rfl, fun no => (by cases no)⟩

/-- In runs that meet the condition the thread is done when the call returns.
    Breaking it lets the call return while the thread still has to lock and
    notify. -/
theorem stop_outlives_thread (t : Thread J) (cycling : Cycling t) :
    (∀ s, Reaches step QuietOk (begin t) s → s.pc = .returned → s.thread.pc = .terminated) ∧
    (∀ s a u, Reaches step anyAction (begin t) s → step s a = some u → ¬ QuietOk s a →
      ∃ v, Reaches step anyAction u v ∧ v.pc = .returned ∧ v.thread.pc ≠ .terminated) := by
  constructor
  · intro s walk returned
    have invariant := reaches_invariant (I := fun u => Shutting u ∧ Closing u)
      (fun u a v both allowed run =>
        ⟨shutting_step both.1 run, closing_step both.1 both.2 allowed run⟩) walk
      ⟨shutting_begin cycling, closing_begin t⟩
    exact invariant.2.ceased (Or.inr returned)
  · intro s a u walk run broken
    have shutting := reaches_invariant (fun _ _ _ ih _ run => shutting_step ih run) walk
      (shutting_begin cycling)
    cases a with
    | stop =>
      simp only [QuietOk, Classical.not_and_iff_not_or_not, Classical.not_imp] at broken
      cases broken with
      | inl storing => exact stored_early shutting storing.1 (by simpa using storing.2) run
      | inr reading => exact read_early reading.1 reading.2.1 (by simpa using reading.2.2) run
    | _ => exact absurd trivial broken

/-- A waiting thread that is woken by the call and finishes before it returns. -/
theorem stop_outlives_waiting : ∃ s : Stopping Nat,
    Reaches step QuietOk (begin ⟨⟨true, false, [], false⟩, .parked⟩) s ∧
      s.pc = .returned ∧ s.thread.pc = .terminated := by
  have cycling : Cycling (⟨⟨true, false, [], false⟩, .parked⟩ : Thread Nat) :=
    ⟨⟨rfl, rfl, fun no => (by cases no)⟩, rfl⟩
  have run : ∃ s, runWithin step QuietOk (List.replicate 7 .stop ++
      List.replicate 8 (.worker false) ++ List.replicate 3 .stop)
      (begin (⟨⟨true, false, [], false⟩, .parked⟩ : Thread Nat)) = some s ∧
      s.pc = .returned := ⟨_, rfl, rfl⟩
  obtain ⟨s, taken, returned⟩ := run
  have walk := runWithin_reaches taken
  exact ⟨s, walk, returned, (stop_outlives_thread _ cycling).1 s walk returned⟩

/-- A thread that is running a job when the call makes its second store. -/
theorem stop_returns_early : ∃ s : Stopping Nat,
    Reaches step anyAction (begin ⟨⟨true, true, [], false⟩, .executing 0⟩) s ∧
      s.pc = .returned ∧ s.thread.pc = .notifyAcquire := by
  have run : ∃ s, runActions step (List.replicate 3 .stop ++
      List.replicate 3 (.worker false) ++ List.replicate 4 .stop)
      (begin (⟨⟨true, true, [], false⟩, .executing 0⟩ : Thread Nat)) = some s ∧
      s.pc = .returned ∧ s.thread.pc = .notifyAcquire := ⟨_, rfl, rfl, rfl⟩
  obtain ⟨s, taken, returned, early⟩ := run
  exact ⟨s, runActions_reaches taken, returned, early⟩

end SchedStopReturn
