import Mathlib.Algebra.Order.BigOperators.Group.Finset
import SteampunkGame.Lib.Progress
import SteampunkGame.Sched.LostWakeup

/-!
Calls on a pool come to an end. A potential of the threads, the arbiter and
the calls still to be made falls with every step that is not a spurious
wake-up, and a system without such a step has nothing left to do.
-/
namespace SchedProgress
open SchedWorker SchedSystem SchedOrder SchedSteps SchedWakeup Runs Progress
variable {W J : Type}

def spurious : Action W → Bool
  | .spurious _ | .arbiterSpurious => true
  | .worker _ _ | .arbiter => false

/-- How far a thread is from its wait. The steps after `clearAwake` are paid
    for by the flag, and a notification leaves enough for the notified one. -/
def rank : WorkerPc J → Nat
  | .parked | .clearAwake => 0
  | .park | .tryPop => 1
  | .loadActive | .checkActive | .executing _ => 2
  | .release => 3
  | .loadAwake => 4
  | .acquire | .reacquire => 5
  | .notifyRelease => 6
  | .notify => 10
  | .notifyAcquire => 11
  | .exitClear | .exitAcquire | .exitNotify | .exitRelease | .terminated => 0

def threadPotential (t : Thread J) : Nat :=
  rank t.pc + 12 * t.worker.awake.toNat + 2 * t.worker.jobs.length

def arbiterPotential : ArbiterPc W → Nat
  | .ready => 0
  | .wakeRelease _ | .waitRelease _ => 1
  | .waitParked _ => 2
  | .waitPark _ => 3
  | .waitLoad _ => 4
  | .waitReacquire _ => 5
  | .wakeNotify _ => 7
  | .wakeAcquire _ => 8

def callPotential : Command W J → Nat
  | .assign _ _ => 3
  | .wake _ => 21
  | .waitCycleFinish _ => 5

def programPotential : List (Command W J) → Nat
  | [] => 0
  | call :: rest => callPotential call + programPotential rest

/-- The arbiter has returned from all its calls and every worker sleeps. -/
structure Finished (pool : List W) (s : System W J) : Prop where
  pc : s.pc = .ready
  program : s.program = []
  sleeping : ∀ w ∈ pool, (s.threads w).pc = .parked ∧ (s.threads w).worker.awake = false

/-- Every call is about a worker of the pool. -/
structure Known (pool : List W) (s : System W J) : Prop where
  program : ∀ call ∈ s.program, call.target ∈ pool
  current : ∀ w, target s.pc = some w → w ∈ pool

theorem programPotential_append (xs ys : List (Command W J)) :
    programPotential (xs ++ ys) = programPotential xs + programPotential ys := by
  induction xs with
  | nil => simp [programPotential]
  | cons call rest ih => simp [programPotential, ih, Nat.add_assoc]

theorem programPotential_le (program : List (Command W J)) :
    programPotential program ≤ 21 * program.length := by
  induction program with
  | nil => rfl
  | cons call rest ih =>
    have head : callPotential call ≤ 21 := by cases call <;> simp [callPotential]
    simp only [programPotential, List.length_cons]
    omega

/-- A step of a thread pays for itself, and a notification for three more. -/
theorem thread_falls {threw : Bool} {t t' : Thread J} {e : Effect J} (running : Running t)
    (run : workerMain threw t = some (t', e)) :
    threadPotential t' < threadPotential t ∧
      (e = .notifyOne → threadPotential t' + 3 < threadPotential t) := by
  obtain ⟨⟨active, awake, jobs, locked⟩, pc⟩ := t
  obtain ⟨on, looping, busy⟩ := running
  simp only at on looping busy
  subst on
  cases pc with
  | acquire | reacquire | notifyAcquire =>
    cases locked <;> cases run
    simp [threadPotential, rank]
  | loadAwake => cases awake <;> cases run <;> simp [threadPotential, rank]
  | tryPop =>
    cases jobs with
    | nil => cases run; simp [threadPotential, rank]
    | cons job rest =>
      cases run
      simp only [threadPotential, rank, List.length_cons, reduceCtorEq, false_implies, and_true]
      omega
  | clearAwake =>
    cases busy rfl
    cases run
    simp [threadPotential, rank]
  | parked => cases run
  | exitClear | exitAcquire | exitNotify | exitRelease | terminated => cases looping
  | _ =>
    cases run
    simp [threadPotential, rank]
    try omega

theorem unpark_rises (t : Thread J) : threadPotential t.unpark ≤ threadPotential t + 5 := by
  obtain ⟨worker, pc⟩ := t
  cases pc with
  | parked =>
    simp only [threadPotential, Thread.unpark, rank, if_true]
    omega
  | _ => exact Nat.le_add_right _ 5

theorem push_rises (t : Thread J) (job : J) :
    threadPotential (t.push job) ≤ threadPotential t + 2 := by
  simp only [threadPotential, Thread.push, List.length_append, List.length_singleton]
  omega

theorem setAwake_rises (t : Thread J) : threadPotential t.setAwake ≤ threadPotential t + 12 := by
  simp only [threadPotential, Thread.setAwake, Bool.toNat_true]
  omega

theorem setLocked_same (t : Thread J) (locked : Bool) :
    threadPotential (t.setLocked locked) ≤ threadPotential t + 0 := Nat.le_refl _

/-- What every state of a run keeps. -/
structure Sound (pool : List W) (s : System W J) : Prop where
  paired : ∀ w ∈ pool, Paired w (s.threads w) s.pc
  known : Known pool s

theorem sound_launch {pool : List W} {threads : W → Thread J} {program : List (Command W J)}
    (paired : ∀ w ∈ pool, Paired w (threads w) .ready)
    (known : ∀ call ∈ program, call.target ∈ pool) : Sound pool (launch threads program) :=
  ⟨paired, known, fun w none => (by cases none)⟩

/-- A thread that cannot move waits, unless the arbiter has its mutex. -/
theorem thread_parked {w : W} {t : Thread J} {pc : ArbiterPc W} (paired : Paired w t pc)
    (free : ¬ Owns w pc) (blocked : workerMain false t = none) : t.pc = .parked := by
  by_contra awake
  have loops : t.pc ≠ .terminated := by
    intro ceased
    have looping := paired.running.looping
    rw [ceased] at looping
    cases looping
  obtain ⟨t', e, main⟩ := workerMain_enabled paired.mutex free ⟨awake, loops⟩ false
  rw [blocked] at main
  cases main

variable [DecidableEq W]

theorem told_rises (w : W) (pc : ArbiterPc W) (e : Effect J) :
    arbiterPotential (told w pc e) ≤ arbiterPotential pc + 3 ∧
      (e ≠ .notifyOne → arbiterPotential (told w pc e) = arbiterPotential pc) := by
  cases told_cases w pc e with
  | inl notified =>
    refine ⟨?_, fun other => absurd notified.1 other⟩
    rw [notified.2]
    cases pc with
    | waitParked v =>
      unfold ArbiterPc.unpark
      dsimp only
      split <;> simp [arbiterPotential]
    | _ => simp [ArbiterPc.unpark]
  | inr silent => simp [silent.2]

def threadsPotential (pool : List W) (threads : W → Thread J) : Nat :=
  ∑ w ∈ pool.toFinset, threadPotential (threads w)

def potential (pool : List W) (s : System W J) : Nat :=
  threadsPotential pool s.threads + arbiterPotential s.pc + programPotential s.program

theorem threadsPotential_update {pool : List W} {w : W} (member : w ∈ pool)
    (threads : W → Thread J) (t : Thread J) :
    threadsPotential pool (Function.update threads w t) + threadPotential (threads w) =
      threadsPotential pool threads + threadPotential t := by
  have moved := sum_moved (List.mem_toFinset.mpr member)
    (fun v (other : v ≠ w) => congrArg threadPotential (Function.update_of_ne other t threads))
  rwa [Function.update_self] at moved

/-- Whether or not the worker is one of the pool. -/
theorem threadsPotential_le (pool : List W) {w : W} {threads : W → Thread J} {t : Thread J}
    {more : Nat} (bound : threadPotential t ≤ threadPotential (threads w) + more) :
    threadsPotential pool (Function.update threads w t) ≤ threadsPotential pool threads + more := by
  by_cases member : w ∈ pool
  · have moved := threadsPotential_update member threads t
    omega
  · have same : threadsPotential pool (Function.update threads w t) =
        threadsPotential pool threads := by
      apply Finset.sum_congr rfl
      intro v among
      have other : v ≠ w := fun same => member (same ▸ List.mem_toFinset.mp among)
      rw [Function.update_of_ne other]
    omega

theorem workerStep_program {w : W} {threw : Bool} {s t : System W J}
    (run : workerStep w threw s = some t) : t.program = s.program := by
  unfold workerStep at run
  split at run
  · cases run
  · cases run
    rfl

theorem worker_falls {pool : List W} {w : W} {threw : Bool} {s t : System W J} (member : w ∈ pool)
    (running : Running (s.threads w)) (run : workerStep w threw s = some t) :
    potential pool t < potential pool s := by
  have program := workerStep_program run
  obtain ⟨thread, effect, main, threads, pc⟩ := workerStep_told run
  obtain ⟨less, notified⟩ := thread_falls running main
  obtain ⟨rises, silent⟩ := told_rises w s.pc effect
  have moved := threadsPotential_update member s.threads thread
  unfold potential
  rw [threads, pc, program]
  by_cases tells : effect = .notifyOne
  · have paid := notified tells
    omega
  · have same := silent tells
    omega

theorem arbiter_falls {pool : List W} {s t : System W J} (run : arbiterStep s = some t) :
    potential pool t < potential pool s := by
  obtain ⟨threads, program, pc, past, log⟩ := s
  have relocked (w : W) (locked : Bool) :
      threadsPotential pool (Function.update threads w ((threads w).setLocked locked)) ≤
        threadsPotential pool threads := by
    exact threadsPotential_le pool (setLocked_same (threads w) locked)
  cases pc with
  | ready =>
    cases program with
    | nil => cases run
    | cons call rest =>
      cases call with
      | assign w job =>
        cases run
        have pushed := threadsPotential_le pool (push_rises (threads w) job)
        simp only [potential, System.setThread, programPotential,
          callPotential]
        omega
      | wake w =>
        cases run
        have woken := threadsPotential_le pool (setAwake_rises (threads w))
        simp only [potential, System.setThread, programPotential,
          callPotential, arbiterPotential]
        omega
      | waitCycleFinish w =>
        simp only [arbiterStep] at run
        split at run
        · cases run
        · cases run
          have taken := relocked w true
          simp only [potential, System.setThread, programPotential,
            callPotential, arbiterPotential]
          omega
  | wakeAcquire w | waitReacquire w =>
    simp only [arbiterStep] at run
    split at run
    · cases run
    · cases run
      have taken := relocked w true
      simp only [potential, System.setThread, arbiterPotential]
      omega
  | wakeNotify w =>
    cases run
    have notified := threadsPotential_le pool (unpark_rises (threads w))
    simp only [potential, System.setThread, arbiterPotential]
    omega
  | wakeRelease w | waitPark w | waitRelease w =>
    cases run
    have given := relocked w false
    simp only [potential, System.setThread, arbiterPotential]
    omega
  | waitLoad w =>
    simp only [arbiterStep] at run
    split at run <;> cases run <;> simp only [potential, arbiterPotential] <;> omega
  | waitParked w => cases run

theorem step_falls {pool : List W} {s t : System W J} {a : Action W}
    (running : ∀ w ∈ pool, Running (s.threads w)) (run : step pool s a = some t)
    (busy : spurious a = false) : potential pool t < potential pool s := by
  cases a with
  | worker w threw =>
    simp only [step] at run
    split at run
    · rename_i member
      exact worker_falls member (running w member) run
    · cases run
  | arbiter => exact arbiter_falls run
  | spurious w => cases busy
  | arbiterSpurious => cases busy

theorem step_rises {pool : List W} {s t : System W J} {a : Action W}
    (run : step pool s a = some t) (idle : spurious a = true) :
    potential pool t ≤ potential pool s + 5 := by
  cases a with
  | worker w threw => cases idle
  | arbiter => cases idle
  | spurious w =>
    simp only [step] at run
    split at run
    · cases run
      have notified := threadsPotential_le pool (unpark_rises (s.threads w))
      simp only [potential, System.setThread]
      omega
    · cases run
  | arbiterSpurious =>
    simp only [step] at run
    split at run
    · rename_i w waiting
      cases run
      simp only [potential, waiting, arbiterPotential]
      omega
    · cases run

theorem unpark_target (w : W) (pc : ArbiterPc W) : target (pc.unpark w) = target pc := by
  cases pc with
  | waitParked v =>
    unfold ArbiterPc.unpark
    dsimp only
    split <;> rfl
  | _ => rfl

theorem told_target (w : W) (pc : ArbiterPc W) (e : Effect J) :
    target (told w pc e) = target pc := by
  cases told_cases w pc e with
  | inl notified => rw [notified.2, unpark_target]
  | inr silent => rw [silent.2]

theorem arbiterStep_known {pool : List W} {s t : System W J} (known : Known pool s)
    (run : arbiterStep s = some t) : Known pool t := by
  obtain ⟨threads, program, pc, past, log⟩ := s
  obtain ⟨calls, current⟩ := known
  cases pc with
  | ready =>
    cases program with
    | nil => cases run
    | cons call rest =>
      have first := calls call List.mem_cons_self
      have later : ∀ call ∈ rest, call.target ∈ pool := fun call among =>
        calls call (List.mem_cons_of_mem _ among)
      cases call with
      | assign w job =>
        cases run
        exact ⟨later, current⟩
      | wake w =>
        cases run
        exact ⟨later, fun v here => Option.some.inj here ▸ first⟩
      | waitCycleFinish w =>
        simp only [arbiterStep] at run
        split at run
        · cases run
        · cases run
          exact ⟨later, fun v here => Option.some.inj here ▸ first⟩
  | wakeAcquire w | waitReacquire w =>
    simp only [arbiterStep] at run
    split at run
    · cases run
    · cases run
      exact ⟨calls, current⟩
  | wakeNotify w | waitPark w =>
    cases run
    exact ⟨calls, current⟩
  | wakeRelease w | waitRelease w =>
    cases run
    exact ⟨calls, fun v none => (by cases none)⟩
  | waitLoad w =>
    simp only [arbiterStep] at run
    split at run <;> cases run <;> exact ⟨calls, current⟩
  | waitParked w => cases run

theorem step_known {pool : List W} {s t : System W J} {a : Action W} (known : Known pool s)
    (run : step pool s a = some t) : Known pool t := by
  cases a with
  | worker w threw =>
    simp only [step] at run
    split at run
    · have program := workerStep_program run
      obtain ⟨thread, effect, main, threads, pc⟩ := workerStep_told run
      constructor
      · rw [program]
        exact known.program
      · rw [pc, told_target]
        exact known.current
    · cases run
  | spurious w =>
    simp only [step] at run
    split at run
    · cases run
      exact ⟨known.program, known.current⟩
    · cases run
  | arbiter => exact arbiterStep_known known run
  | arbiterSpurious =>
    simp only [step] at run
    split at run
    · rename_i w waiting
      cases run
      refine ⟨known.program, ?_⟩
      have current := known.current
      rw [waiting] at current
      exact current
    · cases run

theorem sound_step {pool : List W} {s t : System W J} {a : Action W} (sound : Sound pool s)
    (run : step pool s a = some t) : Sound pool t :=
  ⟨fun w member => paired_step (sound.paired w member) run, step_known sound.known run⟩

/-- Only spurious wake-ups keep a run from its end. -/
theorem calls_charged (pool : List W) :
    Charged (step (J := J) pool) spurious (Sound pool) (potential pool) 5 where
  keeps := fun _ _ _ sound run => sound_step sound run
  falls := fun _ _ _ sound run busy => 
    step_falls (fun w member => (sound.paired w member).running) run busy
  rises := fun _ _ _ _ run idle => step_rises run idle

/-- While it owns a mutex the arbiter goes on. -/
theorem owner_moves {w : W} {s : System W J} (owned : Owns w s.pc) :
    ∃ t, arbiterStep s = some t := by
  obtain ⟨threads, program, pc, past, log⟩ := s
  cases pc with
  | wakeNotify v | wakeRelease v | waitPark v | waitRelease v => exact ⟨_, rfl⟩
  | waitLoad v =>
    simp only [arbiterStep]
    split <;> exact ⟨_, rfl⟩
  | _ => exact owned.elim

/-- No state of a run is a deadlock: where nobody can move all is done. -/
theorem stuck_finished {pool : List W} {s : System W J} (sound : Sound pool s)
    (stuck : Stuck (step pool) spurious s) : Finished pool s := by
  obtain ⟨paired, known⟩ := sound
  have halted : arbiterStep s = none := stuck .arbiter rfl
  have free : ∀ w, ¬ Owns w s.pc := by
    intro w owned
    obtain ⟨t, run⟩ := owner_moves owned
    rw [halted] at run
    cases run
  have parked : ∀ w ∈ pool, (s.threads w).pc = .parked := by
    intro w member
    apply thread_parked (paired w member) (free w)
    have blocked := stuck (.worker w false) rfl
    simp only [step, member, if_true, workerStep] at blocked
    split at blocked
    · assumption
    · cases blocked
  have unlocked : ∀ w ∈ pool, (s.threads w).worker.locked = false := fun w member =>
    mutex_free (paired w member).mutex (by rw [parked w member]; rfl) (free w)
  have ready : s.pc = .ready := by
    obtain ⟨threads, program, pc, past, log⟩ := s
    cases pc with
    | ready => rfl
    | wakeAcquire v | waitReacquire v =>
      have lock : (threads v).worker.locked = false := unlocked v (known.current v rfl)
      simp [arbiterStep, lock] at halted
    | waitParked v =>
      -- the worker it waits for cannot sleep as well
      have member := known.current v rfl
      have sleeps := parked v member
      cases awake : (threads v).worker.awake with
      | true =>
        have wakes := (paired v member).woken (by rw [sleeps]; rfl) awake
        simp at wakes
      | false =>
        have tells := (paired v member).cleared (Or.inr rfl) awake
        rw [sleeps] at tells
        cases tells
    | wakeNotify v | wakeRelease v | waitLoad v | waitPark v | waitRelease v =>
      exact absurd rfl (free v)
  have done : s.program = [] := by
    obtain ⟨threads, program, pc, past, log⟩ := s
    cases ready
    cases program with
    | nil => rfl
    | cons call rest =>
      cases call with
      | assign w job => cases halted
      | wake w => cases halted
      | waitCycleFinish w =>
        have lock : (threads w).worker.locked = false :=
          unlocked w (known.program _ List.mem_cons_self)
        simp [arbiterStep, lock] at halted
  refine ⟨ready, done, fun w member => ⟨parked w member, ?_⟩⟩
  cases awake : (s.threads w).worker.awake with
  | false => rfl
  | true =>
    have wakes := (paired w member).woken (by rw [parked w member]; rfl) awake
    simp [ready] at wakes

theorem finished_stuck {pool : List W} {s : System W J} (finished : Finished pool s) :
    Stuck (step pool) spurious s := by
  obtain ⟨threads, program, pc, past, log⟩ := s
  obtain ⟨ready, done, sleeping⟩ := finished
  cases ready
  cases done
  intro a busy
  cases a with
  | worker w threw =>
    simp only [step]
    split
    · rename_i member
      obtain ⟨parked, _⟩ := sleeping w member
      have blocked : workerMain threw (threads w) = none := by
        unfold workerMain
        rw [parked]
      simp only [workerStep, blocked]
    · rfl
  | arbiter => rfl
  | spurious w => cases busy
  | arbiterSpurious => cases busy

theorem potential_launch {pool : List W} {threads : W → Thread J} {most : Nat}
    (light : ∀ w ∈ pool, threadPotential (threads w) ≤ most) (program : List (Command W J)) :
    potential pool (launch threads program) ≤ most * pool.length + programPotential program := by
  have total : threadsPotential pool threads ≤ pool.toFinset.card * most :=
    Finset.sum_le_card_nsmul _ _ _ fun w among => light w (List.mem_toFinset.mp among)
  have workers := Nat.mul_le_mul_right most (List.toFinset_card_le pool)
  simp only [potential, launch, arbiterPotential]
  rw [Nat.mul_comm pool.length] at workers
  omega

/-- From threads in any states that the calls allow. -/
theorem launch_ends {pool : List W} {threads : W → Thread J} {program : List (Command W J)}
    {most : Nat} (paired : ∀ w ∈ pool, Paired w (threads w) .ready)
    (known : ∀ call ∈ program, call.target ∈ pool)
    (light : ∀ w ∈ pool, threadPotential (threads w) ≤ most)
    {actions : List (Action W)} {s : System W J}
    (run : runActions (step pool) actions (launch threads program) = some s) :
    steps spurious actions ≤ most * pool.length + programPotential program +
      5 * actions.countP spurious ∧
    (Stuck (step pool) spurious s ↔ Finished pool s) ∧
    ∃ more t, (∀ a ∈ more, spurious a = false) ∧ runActions (step pool) more s = some t ∧
      Finished pool t := by
  obtain ⟨sound, bound⟩ := charged_run (calls_charged pool) (sound_launch paired known) run
  have begins := potential_launch light program
  refine ⟨by omega, ⟨stuck_finished sound, finished_stuck⟩, ?_⟩
  obtain ⟨more, t, busy, _, ends, stuck⟩ := charged_ends (calls_charged pool) sound
  have last := (charged_run (calls_charged pool) sound ends).1
  exact ⟨more, t, busy, ends, stuck_finished last stuck⟩

/-- Any calls on the workers of a pool, in any interleaving with them: but for
    spurious wake-ups there are at most so many steps, and there is a next one
    until the arbiter has returned from every call and all workers sleep. -/
theorem calls_terminate {pool : List W} {program : List (Command W J)}
    (known : ∀ call ∈ program, call.target ∈ pool) {actions : List (Action W)} {s : System W J}
    (run : runActions (step pool) actions (launch (fun _ => entered) program) = some s) :
    steps spurious actions ≤
      5 * pool.length + 21 * program.length + 5 * actions.countP spurious ∧
    (Stuck (step pool) spurious s ↔ Finished pool s) ∧
    ∃ more t, (∀ a ∈ more, spurious a = false) ∧ runActions (step pool) more s = some t ∧
      Finished pool t := by
  have light : ∀ w ∈ pool, threadPotential (entered : Thread J) ≤ 5 := fun _ _ => Nat.le_refl 5
  obtain ⟨bound, ends⟩ := launch_ends (fun w _ => paired_entered w) known light run
  have calls := programPotential_le program
  exact ⟨by omega, ends⟩

/-- A worker that is on its way to its first wait when it is given a job. -/
theorem calls_terminate_single : ∃ (s t : System Unit Nat) (more : List (Action Unit)),
    runActions (step [()]) [.worker () false, .arbiter, .worker () true, .spurious ()]
      (launch (fun _ => entered) [.assign () 0, .wake (), .waitCycleFinish ()]) = some s ∧
    s.program = [.wake (), .waitCycleFinish ()] ∧
    runActions (step [()]) more s = some t ∧ Finished [()] t := by
  have run : ∃ s, runActions (step [()])
      [.worker () false, .arbiter, .worker () true, .spurious ()]
      (launch (fun _ => entered) [.assign () 0, .wake (), .waitCycleFinish ()]) = some s ∧
      s.program = [.wake (), .waitCycleFinish ()] := ⟨_, rfl, rfl⟩
  obtain ⟨s, taken, waiting⟩ := run
  have known : ∀ call ∈ ([.assign () 0, .wake (), .waitCycleFinish ()] : List (Command Unit Nat)),
      call.target ∈ [()] := by simp
  obtain ⟨_, _, more, t, _, ends, finished⟩ := calls_terminate known taken
  exact ⟨s, t, more, taken, waiting, ends, finished⟩

end SchedProgress
