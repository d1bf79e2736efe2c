import SteampunkGame.Lib.Progress
import SteampunkGame.Sched.StopReturn
import SteampunkGame.Sched.WorkerStop

/-!
`worker::stop` comes to an end. As long as the thread does not finish between
the two stores of the call, neither of the two waits for the other in vain, and
a potential of both falls with every step that is not a spurious wake-up. Some
more steps have to be avoided for the thread to be done when the call returns.
-/
namespace SchedStopEnds
open SchedWorker SchedSystem SchedSteps SchedStop SchedStopReturn Runs Progress
variable {J : Type}

/-- After its notification. -/
def beyond : StopPc → Bool
  | .load | .park | .parked | .reacquire | .release | .returned => true
  | _ => false

/-- How far the thread is from its end or its wait. The steps after
    `clearAwake` are paid for by the flag, and a notification leaves enough for
    the notified one. -/
def threadRank : WorkerPc J → Nat
  | .parked | .clearAwake | .terminated => 0
  | .park | .tryPop | .exitRelease => 1
  | .executing _ => 2
  | .exitNotify => 5
  | .exitAcquire => 6
  | .exitClear => 7
  | .checkActive => 8
  | .release => 9
  | .loadActive => 10
  | .loadAwake => 11
  | .acquire | .reacquire => 12
  | .notifyRelease => 13
  | .notify => 17
  | .notifyAcquire => 18

def stopRank : StopPc → Nat
  | .returned | .parked | .threw _ => 0
  | .park | .release => 1
  | .load => 2
  | .reacquire => 3
  | .notify => 15
  | .acquire => 16
  | .setAwake => 36
  | .clearActive => 37
  | .test => 38

def threadWeight (t : Thread J) : Nat :=
  threadRank t.pc + 19 * t.worker.awake.toNat + 2 * t.worker.jobs.length

def stopPotential (s : Stopping J) : Nat := threadWeight s.thread + stopRank s.pc

/-- A cycle is run over a set flag. -/
def Flagged (t : Thread J) : Prop :=
  t.pc.busy = true → t.worker.awake = true ∨ t.worker.active = false ∧ inCycle t.pc = false

/-- What every state of the call keeps in which the thread is not late. -/
structure Ending (s : Stopping J) : Prop where
  shutting : Shutting s
  settled : Settled s
  flagged : Flagged s.thread
  told : beyond s.pc = true → s.thread.pc ≠ .park ∧ s.thread.pc ≠ .parked
  owed : s.pc = .park ∨ s.pc = .parked →
    s.thread.worker.awake = true ∨ notifying s.thread.pc = true
  fine : ∀ what, s.pc ≠ .threw what

/-- The second store is not made during a cycle of the thread. The thread does
    not write the flag for the last time between the two stores, nor while the
    call holds the mutex and has yet to look at the flag; and the call does not
    take the mutex between that write and the lock after it. -/
def PromptOk (s : Stopping J) : Action → Prop
  | .worker _ => s.thread.pc = .exitClear → s.pc ≠ .setAwake ∧ s.pc ≠ .notify ∧ s.pc ≠ .load
  | .stop => (s.pc = .setAwake → inCycle s.thread.pc = false) ∧
      (s.pc = .acquire ∨ s.pc = .reacquire → s.thread.pc ≠ .exitAcquire)
  | _ => True

instance [DecidableEq J] (s : Stopping J) : (a : Action) → Decidable (PromptOk s a)
  | .worker _ => inferInstanceAs (Decidable (_ → _))
  | .stop => inferInstanceAs (Decidable (_ ∧ _))
  | .spurious | .stopSpurious => inferInstanceAs (Decidable True)

/-- What such a call keeps: it returns after the thread has terminated. -/
structure Prompt (s : Stopping J) : Prop where
  ending : Ending s
  closing : Closing s
  apart : s.pc = .notify ∨ s.pc = .load → s.thread.pc ≠ .exitAcquire

theorem beyond_unpark (pc : StopPc) : beyond pc.unpark = beyond pc := by
  cases pc <;> rfl

theorem beyond_late {pc : StopPc} (after : beyond pc = true) : pc.early = false := by
  cases pc with
  | test | clearActive | setAwake | acquire | notify | threw => cases after
  | _ => rfl

theorem unpark_parks {t : Thread J} (parks : t.unpark.pc = .park ∨ t.unpark.pc = .parked) :
    t.pc = .park := by
  obtain ⟨worker, pc⟩ := t
  cases pc with
  | park => rfl
  | _ => simp [Thread.unpark] at parks

theorem unpark_notifying {t : Thread J} (pending : notifying t.pc = true) :
    notifying t.unpark.pc = true := by
  obtain ⟨worker, pc⟩ := t
  cases pc with
  | notifyAcquire | notify | exitAcquire | exitNotify => rfl
  | _ => cases pending

theorem unpark_waits {pc : StopPc} (waits : pc.unpark = .park ∨ pc.unpark = .parked) :
    pc = .park := by
  cases pc with
  | park => rfl
  | _ => simp [StopPc.unpark] at waits

theorem unpark_flagged {t : Thread J} (flagged : Flagged t) : Flagged t.unpark := by
  obtain ⟨worker, pc⟩ := t
  cases pc with
  | parked => exact fun no => (by cases no)
  | _ => exact flagged

/-- A thread that has been asked to stop does not go to sleep. -/
theorem workerMain_parks {threw : Bool} {t t' : Thread J} {e : Effect J}
    (run : workerMain threw t = some (t', e)) (off : t.worker.active = false)
    (parks : t'.pc = .park ∨ t'.pc = .parked) : t.pc = .park := by
  obtain ⟨⟨active, awake, jobs, lock⟩, pc⟩ := t
  cases off
  cases pc with
  | park => rfl
  | acquire | reacquire | notifyAcquire | exitAcquire =>
    cases lock <;> cases run
    simp at parks
  | loadAwake => cases awake <;> cases run <;> simp at parks
  | tryPop => cases jobs <;> cases run <;> simp at parks
  | parked | terminated => cases run
  | _ => cases run; simp at parks

theorem workerMain_flagged {threw : Bool} {t t' : Thread J} {e : Effect J}
    (flagged : Flagged t) (run : workerMain threw t = some (t', e)) : Flagged t' := by
  obtain ⟨⟨active, awake, jobs, lock⟩, pc⟩ := t
  intro busy
  cases pc with
  | acquire | reacquire | notifyAcquire | exitAcquire =>
    cases lock <;> cases run
    cases busy
  | loadAwake =>
    cases awake with
    | true => cases run; exact Or.inl rfl
    | false => cases run; cases busy
  | loadActive =>
    cases active with
    | true => cases run; cases busy
    | false => cases run; exact Or.inr ⟨rfl, rfl⟩
  | release => cases run; exact flagged rfl
  | checkActive =>
    cases active with
    | true =>
      cases run
      rcases flagged rfl with on | ⟨off, _⟩
      · exact Or.inl on
      · cases off
    | false => cases run; cases busy
  | tryPop =>
    have on : awake = true := by simpa [Flagged, WorkerPc.busy, inCycle] using flagged rfl
    cases jobs <;> cases run <;> exact Or.inl on
  | executing job =>
    have on : awake = true := by simpa [Flagged, WorkerPc.busy, inCycle] using flagged rfl
    cases run
    exact Or.inl on
  | parked | terminated => cases run
  | _ => cases run; cases busy

theorem workerMain_tells {threw : Bool} {t t' : Thread J}
    (run : workerMain threw t = some (t', .notifyOne)) : holds t.pc = true := by
  obtain ⟨⟨active, awake, jobs, lock⟩, pc⟩ := t
  cases pc with
  | notify | exitNotify => rfl
  | acquire | reacquire | notifyAcquire | exitAcquire => cases lock <;> cases run
  | tryPop => cases jobs <;> cases run
  | _ => cases run

theorem ending_begin {t : Thread J} (cycling : Cycling t) : Ending (begin t) := by
  obtain ⟨active, looping, awake⟩ := cycling.running
  refine ⟨shutting_begin cycling, ?_, fun busy => Or.inl (awake busy), fun no => (by cases no),
    ?_, fun what no => (by cases no)⟩
  · intro ceased
    have left : t.pc.gone = true := finished_gone ceased
    rw [looping] at left
    cases left
  · rintro (no | no) <;> cases no

theorem ending_worker {s t : Stopping J} {threw : Bool} {e : Effect J} (ending : Ending s)
    (shutting : Shutting t) (settled : Settled t)
    (run : workerMain threw s.thread = some (t.thread, e))
    (told : e = .notifyOne ∧ t.pc = s.pc.unpark ∨ e ≠ .notifyOne ∧ t.pc = s.pc) : Ending t := by
  have either : t.pc = s.pc ∨ t.pc = s.pc.unpark := told.symm.imp And.right And.right
  refine ⟨shutting, settled, workerMain_flagged ending.flagged run, ?_, ?_, ?_⟩
  · intro after
    have before : beyond s.pc = true := by
      rcases either with same | same
      · rw [← same, after]
      · rw [← beyond_unpark, ← same, after]
    have off := ending.shutting.active.trans (beyond_late before)
    have away := (ending.told before).1
    exact ⟨fun parks => away (workerMain_parks run off (Or.inl parks)),
      fun parks => away (workerMain_parks run off (Or.inr parks))⟩
  · intro waits
    have silent : e ≠ .notifyOne ∧ t.pc = s.pc := by
      rcases told with ⟨notifies, same⟩ | silent
      · -- the call holds the mutex that the thread notifies under
        exfalso
        rw [same] at waits
        have parks := unpark_waits waits
        have taken : s.pc.holds = true := by rw [parks]; rfl
        have apart : holds s.thread.pc = false := by
          cases held : holds s.thread.pc with
          | false => rfl
          | true => exact absurd taken (ending.shutting.mutex.apart held)
        rw [workerMain_tells (notifies ▸ run)] at apart
        cases apart
      · exact silent
    obtain ⟨quiet, same⟩ := silent
    rw [same] at waits
    rcases ending.owed waits with on | pending
    · rcases workerMain_awake run with kept | ⟨_, ⟨_, now⟩ | ⟨_, now⟩⟩
      · exact Or.inl (kept.trans on)
      · exact Or.inr (by rw [now]; rfl)
      · exact Or.inr (by rw [now]; rfl)
    · rcases (workerMain_notifying run pending).2 with still | ⟨_, notifies⟩
      · exact Or.inr still
      · exact absurd notifies quiet
  · intro what no
    rcases either with same | same
    · exact ending.fine what (same.symm.trans no)
    · rw [same] at no
      cases pc : s.pc with
      | threw other => exact ending.fine other pc
      | _ => rw [pc] at no; cases no

/-- The call leaves the thread where it is, but for its notification. -/
theorem ending_called {s t : Stopping J} {w : Worker J} {e : Effect J} (ending : Ending s)
    (shutting : Shutting t) (settled : Settled t)
    (run : stop s.thread.worker s.pc = some (w, t.pc, e))
    (told : e = .notifyOne ∧ t.thread = Thread.unpark ⟨w, s.thread.pc⟩ ∨
      e ≠ .notifyOne ∧ t.thread = ⟨w, s.thread.pc⟩) : Ending t := by
  obtain ⟨⟨⟨active, awake, jobs, lock⟩, pc⟩, at_⟩ := s
  obtain ⟨thread, now⟩ := t
  obtain ⟨before, _, flagged, ended, owed, _⟩ := ending
  dsimp only at flagged ended owed run told
  cases at_ with
  | test =>
    cases show active = true from before.active
    cases run
    rcases told with ⟨no, _⟩ | ⟨_, rfl⟩
    · cases no
    · exact ⟨shutting, settled, flagged, fun no => (by cases no), by simp, by simp⟩
  | clearActive =>
    cases show active = true from before.active
    cases run
    rcases told with ⟨no, _⟩ | ⟨_, rfl⟩
    · cases no
    · refine ⟨shutting, settled, ?_, fun no => (by cases no), by simp, by simp⟩
      intro busy
      rcases flagged busy with on | ⟨no, _⟩
      · exact Or.inl on
      · cases no
  | setAwake =>
    cases run
    rcases told with ⟨no, _⟩ | ⟨_, rfl⟩
    · cases no
    · exact ⟨shutting, settled, fun _ => Or.inl rfl, fun no => (by cases no), by simp, by simp⟩
  | acquire =>
    cases lock <;> cases run
    rcases told with ⟨no, _⟩ | ⟨_, rfl⟩
    · cases no
    · exact ⟨shutting, settled, flagged, fun no => (by cases no), by simp, by simp⟩
  | notify =>
    cases run
    rcases told with ⟨_, rfl⟩ | ⟨no, _⟩
    · refine ⟨shutting, settled, unpark_flagged flagged, fun _ => ?_, by simp, by simp⟩
      have away : pc ≠ .park := by
        intro parks
        exact before.mutex.apart (by rw [parks]; rfl) rfl
      exact ⟨fun parks => away (unpark_parks (Or.inl parks)),
        fun parks => away (unpark_parks (Or.inr parks))⟩
    · exact absurd rfl no
  | load =>
    have stays := ended rfl
    cases awake <;> cases run <;> rcases told with ⟨no, _⟩ | ⟨_, rfl⟩
    · cases no
    · exact ⟨shutting, settled, flagged, fun _ => stays, by simp, by simp⟩
    · cases no
    · exact ⟨shutting, settled, flagged, fun _ => stays, fun _ => Or.inl rfl, by simp⟩
  | park =>
    have stays := ended rfl
    have holds := owed (Or.inl rfl)
    cases run
    rcases told with ⟨no, _⟩ | ⟨_, rfl⟩
    · cases no
    · exact ⟨shutting, settled, flagged, fun _ => stays, fun _ => holds, by simp⟩
  | reacquire =>
    have stays := ended rfl
    cases lock <;> cases run
    rcases told with ⟨no, _⟩ | ⟨_, rfl⟩
    · cases no
    · exact ⟨shutting, settled, flagged, fun _ => stays, by simp, by simp⟩
  | release =>
    have stays := ended rfl
    cases run
    rcases told with ⟨no, _⟩ | ⟨_, rfl⟩
    · cases no
    · exact ⟨shutting, settled, flagged, fun _ => stays, by simp, by simp⟩
  | parked | returned | threw => cases run

theorem ending_step {s t : Stopping J} {a : Action} (ending : Ending s) (allowed : ExitOk s a)
    (run : step s a = some t) : Ending t := by
  have shutting := shutting_step ending.shutting run
  have settled := settled_step ending.shutting ending.settled allowed run
  cases step_stepped run with
  | worker threw e main told => exact ending_worker ending shutting settled main told
  | spurious thread pc =>
    refine ⟨shutting, settled, ?_, ?_, ?_, ?_⟩
    · rw [thread]
      exact unpark_flagged ending.flagged
    · rw [thread, pc]
      intro after
      have away := (ending.told after).1
      exact ⟨fun parks => away (unpark_parks (Or.inl parks)),
        fun parks => away (unpark_parks (Or.inr parks))⟩
    · rw [thread, pc, unpark_worker]
      exact fun waits => (ending.owed waits).imp_right unpark_notifying
    · rw [pc]
      exact ending.fine
  | called w e main told => exact ending_called ending shutting settled main told
  | stopSpurious thread pc =>
    refine ⟨shutting, settled, ?_, ?_, ?_, ?_⟩
    · rw [thread]
      exact ending.flagged
    · rw [thread, pc, beyond_unpark]
      exact ending.told
    · rw [thread, pc]
      exact fun waits => ending.owed (Or.inl (unpark_waits waits))
    · intro what no
      rw [pc] at no
      cases at_ : s.pc with
      | threw other => exact ending.fine other at_
      | _ => rw [at_] at no; cases no

theorem unpark_weight (t : Thread J) : threadWeight t.unpark ≤ threadWeight t + 12 := by
  obtain ⟨worker, pc⟩ := t
  cases pc with
  | parked =>
    simp only [threadWeight, Thread.unpark, threadRank, if_true]
    omega
  | _ => exact Nat.le_add_right _ 12

theorem unpark_stopRank (pc : StopPc) : stopRank pc.unpark ≤ stopRank pc + 3 := by
  cases pc with
  | parked => exact Nat.le_refl 3
  | _ => exact Nat.le_add_right _ 3

/-- A step of the thread pays for itself, and a notification for three more. -/
theorem workerMain_falls {threw : Bool} {t t' : Thread J} {e : Effect J} (flagged : Flagged t)
    (run : workerMain threw t = some (t', e)) :
    threadWeight t' < threadWeight t ∧ (e = .notifyOne → threadWeight t' + 3 < threadWeight t) := by
  obtain ⟨⟨active, awake, jobs, lock⟩, pc⟩ := t
  cases pc with
  | acquire | reacquire | notifyAcquire | exitAcquire =>
    cases lock <;> cases run
    simp [threadWeight, threadRank]
  | loadAwake => cases awake <;> cases run <;> simp [threadWeight, threadRank]
  | loadActive | checkActive => cases active <;> cases run <;> simp [threadWeight, threadRank]
  | tryPop =>
    cases jobs with
    | nil => cases run; simp [threadWeight, threadRank]
    | cons job rest =>
      cases run
      simp only [threadWeight, threadRank, List.length_cons, reduceCtorEq, false_implies, and_true]
      omega
  | clearAwake =>
    have on : awake = true := by simpa [Flagged, WorkerPc.busy, inCycle] using flagged rfl
    cases on
    cases run
    simp [threadWeight, threadRank]
  | exitClear =>
    cases run
    simp only [threadWeight, threadRank, Bool.toNat_false, reduceCtorEq, false_implies, and_true]
    omega
  | parked | terminated => cases run
  | _ =>
    cases run
    simp [threadWeight, threadRank]
    try omega

/-- A step of the call, with its notification. -/
theorem called_falls {t : Thread J} {w : Worker J} {pc pc' : StopPc} {e : Effect J}
    (run : stop t.worker pc = some (w, pc', e)) :
    threadWeight ⟨w, t.pc⟩ + stopRank pc' < threadWeight t + stopRank pc ∧
      (e = .notifyOne →
        threadWeight ⟨w, t.pc⟩ + stopRank pc' + 12 < threadWeight t + stopRank pc) := by
  obtain ⟨⟨active, awake, jobs, lock⟩, at_⟩ := t
  cases pc with
  | test => cases active <;> cases run <;> simp [threadWeight, stopRank]
  | setAwake =>
    cases run
    simp only [threadWeight, stopRank, Bool.toNat_true, reduceCtorEq, false_implies, and_true]
    omega
  | acquire | reacquire =>
    cases lock <;> cases run
    simp [threadWeight, stopRank]
  | load => cases awake <;> cases run <;> simp [threadWeight, stopRank]
  | parked | returned | threw => cases run
  | _ =>
    cases run
    simp [threadWeight, stopRank]

theorem stop_falls {s t : Stopping J} {a : Action} (ending : Ending s) (run : step s a = some t)
    (busy : a ≠ .spurious ∧ a ≠ .stopSpurious) : stopPotential t < stopPotential s := by
  unfold stopPotential
  cases step_stepped run with
  | worker threw e main told =>
    obtain ⟨less, paid⟩ := workerMain_falls ending.flagged main
    rcases told with ⟨notifies, same⟩ | ⟨_, same⟩
    · have rises := unpark_stopRank s.pc
      have enough := paid notifies
      rw [same]
      omega
    · rw [same]
      omega
  | called w e main told =>
    obtain ⟨less, paid⟩ := called_falls main
    rcases told with ⟨notifies, same⟩ | ⟨_, same⟩
    · have rises := unpark_weight (⟨w, s.thread.pc⟩ : Thread J)
      have enough := paid notifies
      rw [same]
      omega
    · rw [same]
      exact less
  | spurious => exact absurd rfl busy.1
  | stopSpurious => exact absurd rfl busy.2

/-- There is no deadlock: where neither of the two can move, both are done. -/
theorem ending_stuck {s : Stopping J} (ending : Ending s)
    (halted : workerMain false s.thread = none) (blocked : stop s.thread.worker s.pc = none) :
    s.pc = .returned ∧ s.thread.pc = .terminated := by
  obtain ⟨⟨worker, at_⟩, pc⟩ := s
  obtain ⟨shutting, settled, _, told, owed, fine⟩ := ending
  dsimp only at settled told owed fine halted blocked
  have rests : pc.holds = false → at_ = .parked ∨ at_ = .terminated := by
    intro free
    by_contra runs
    have mutex : Mutex ⟨worker, at_⟩ (pc.holds = true) := shutting.mutex
    obtain ⟨t', e, main⟩ := workerMain_enabled mutex (by simp [free]) (not_or.mp runs) false
    rw [halted] at main
    cases main
  have unlocked : pc.holds = false → worker.locked = false := by
    intro free
    have away : holds at_ = false := by rcases rests free with rfl | rfl <;> rfl
    have mutex : Mutex ⟨worker, at_⟩ (pc.holds = true) := shutting.mutex
    exact mutex_free mutex away (by simp [free])
  cases pc with
  | returned =>
    exact ⟨rfl, (rests rfl).resolve_left (told rfl).2⟩
  | parked =>
    have ended := (rests rfl).resolve_left (told rfl).2
    subst ended
    rcases owed (Or.inr rfl) with on | pending
    · have off : worker.awake = false := (settled rfl).1
      rw [off] at on
      cases on
    · cases pending
  | acquire | reacquire => simp [stop, unlocked rfl] at blocked
  | threw what => exact absurd rfl (fine what)
  | _ => cases blocked

theorem promptOk_exitOk {s : Stopping J} {a : Action} (allowed : PromptOk s a) : ExitOk s a := by
  cases a with
  | worker threw => exact fun leaves => (allowed leaves).1
  | spurious | stop | stopSpurious => trivial

/-- Where the flag is looked at the thread is not about to lock. -/
theorem promptOk_quietOk {s : Stopping J} {a : Action} (prompt : Prompt s)
    (allowed : PromptOk s a) : QuietOk s a := by
  cases a with
  | stop =>
    exact ⟨allowed.1, fun reads leaves => absurd leaves (prompt.apart (Or.inr reads))⟩
  | worker threw | spurious | stopSpurious => trivial

theorem workerMain_leaves {threw : Bool} {t t' : Thread J} {e : Effect J}
    (run : workerMain threw t = some (t', e)) (leaves : t'.pc = .exitAcquire) :
    t.pc = .exitClear := by
  obtain ⟨⟨active, awake, jobs, lock⟩, pc⟩ := t
  cases pc with
  | exitClear => rfl
  | acquire | reacquire | notifyAcquire | exitAcquire =>
    cases lock <;> cases run
    cases leaves
  | loadAwake => cases awake <;> cases run <;> cases leaves
  | loadActive | checkActive => cases active <;> cases run <;> cases leaves
  | tryPop => cases jobs <;> cases run <;> cases leaves
  | parked | terminated => cases run
  | _ => cases run; cases leaves

theorem unpark_leaves {t : Thread J} (leaves : t.unpark.pc = .exitAcquire) :
    t.pc = .exitAcquire := by
  obtain ⟨worker, pc⟩ := t
  cases pc with
  | exitAcquire => rfl
  | _ => simp [Thread.unpark] at leaves

theorem unpark_looks {pc : StopPc} (looks : pc.unpark = .notify ∨ pc.unpark = .load) :
    pc = .notify ∨ pc = .load := by
  cases pc with
  | notify => exact Or.inl rfl
  | load => exact Or.inr rfl
  | _ => simp [StopPc.unpark] at looks

/-- The mutex was taken to get there, or the notification was before. -/
theorem stop_looks {w w' : Worker J} {pc pc' : StopPc} {e : Effect J}
    (run : stop w pc = some (w', pc', e)) (looks : pc' = .notify ∨ pc' = .load) :
    pc = .acquire ∨ pc = .reacquire ∨ pc = .notify := by
  obtain ⟨active, awake, jobs, locked⟩ := w
  cases pc with
  | acquire => exact Or.inl rfl
  | reacquire => exact Or.inr (Or.inl rfl)
  | notify => exact Or.inr (Or.inr rfl)
  | test => cases active <;> cases run <;> simp at looks
  | load => cases awake <;> cases run <;> simp at looks
  | parked | returned | threw => cases run
  | _ => cases run; simp at looks

theorem prompt_begin {t : Thread J} (cycling : Cycling t) : Prompt (begin t) :=
  ⟨ending_begin cycling, closing_begin t, fun no => (by simp [begin] at no)⟩

theorem prompt_step {s t : Stopping J} {a : Action} (prompt : Prompt s) (allowed : PromptOk s a)
    (run : step s a = some t) : Prompt t := by
  have quiet := promptOk_quietOk prompt allowed
  obtain ⟨ending, closing, apart⟩ := prompt
  refine ⟨ending_step ending (promptOk_exitOk allowed) run,
    closing_step ending.shutting closing quiet run, ?_⟩
  intro looks leaves
  cases step_stepped run with
  | worker threw e main told =>
    obtain ⟨_, notify, load⟩ := allowed (workerMain_leaves main leaves)
    have before : s.pc = .notify ∨ s.pc = .load := by
      rcases told with ⟨_, same⟩ | ⟨_, same⟩
      · exact unpark_looks (same ▸ looks)
      · exact same ▸ looks
    exact before.elim notify load
  | spurious thread pc =>
    rw [thread] at leaves
    exact apart (pc ▸ looks) (unpark_leaves leaves)
  | called w e main told =>
    have there : s.thread.pc = .exitAcquire := by
      rcases told with ⟨_, thread⟩ | ⟨_, thread⟩
      · rw [thread] at leaves
        exact unpark_leaves (t := ⟨w, s.thread.pc⟩) leaves
      · rw [thread] at leaves
        exact leaves
    rcases stop_looks main looks with takes | takes | notifies
    · exact allowed.2 (Or.inl takes) there
    · exact allowed.2 (Or.inr takes) there
    · exact apart (Or.inl notifies) there
  | stopSpurious thread pc =>
    rw [thread] at leaves
    rw [pc] at looks
    exact apart (unpark_looks looks) leaves

/-- What the condition forbids to one of the two waits for the other, which can
    go on. -/
theorem prompt_stuck {s : Stopping J} (prompt : Prompt s)
    (halted : PromptOk s (.worker false) → workerMain false s.thread = none)
    (blocked : PromptOk s .stop → stop s.thread.worker s.pc = none) :
    s.pc = .returned ∧ s.thread.pc = .terminated := by
  have moves : s.pc.holds = false → s.thread.pc ≠ .exitClear → s.thread.pc ≠ .parked →
      s.thread.pc ≠ .terminated → False := by
    intro away clears parks ends
    obtain ⟨t', e, main⟩ := workerMain_enabled prompt.ending.shutting.mutex (by simp [away])
      ⟨parks, ends⟩ false
    rw [halted fun leaves => absurd leaves clears] at main
    cases main
  have stops : stop s.thread.worker s.pc = none := by
    apply blocked
    constructor
    · intro between
      cases inside : inCycle s.thread.pc with
      | false => rfl
      | true =>
        refine (moves (by rw [between]; rfl) ?_ ?_ ?_).elim
        all_goals
          intro at_
          rw [at_] at inside
          cases inside
    · intro takes leaves
      refine moves ?_ ?_ ?_ ?_
      · rcases takes with at_ | at_ <;> rw [at_] <;> rfl
      all_goals
        rw [leaves]
        simp
  apply ending_stuck prompt.ending ?_ stops
  apply halted
  intro _
  refine ⟨?_, ?_, ?_⟩
  all_goals
    intro at_
    rw [at_] at stops
    cases stops

theorem terminated_step {s t : Stopping J} {a : Action} (run : step s a = some t)
    (ceased : s.thread.pc = .terminated) : t.thread.pc = .terminated := by
  obtain ⟨⟨worker, at_⟩, pc⟩ := s
  cases ceased
  cases step_stepped run with
  | worker threw e main told => cases main
  | spurious thread pc => rw [thread]; rfl
  | called w e main told =>
    rcases told with ⟨_, thread⟩ | ⟨_, thread⟩
    · rw [thread]
      rfl
    · rw [thread]
  | stopSpurious thread pc => rw [thread]

end SchedStopEnds
