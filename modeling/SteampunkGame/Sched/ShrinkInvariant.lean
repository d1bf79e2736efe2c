import SteampunkGame.Sched.ShrinkWorker

/-!
The invariant of the runs in which pops are safe, and why the arbiter and the
worker threads keep it. The pool's mutex keeps a removal out of the scope in
which the arbiter hands out a job.
-/
namespace SchedShrinkInv
open SchedWorker SchedTracking SchedShrink SchedShrinkWorker
open SchedSystem (System arbiterStep eventsOf)
open SchedStop (StopPc)
variable {J : Type}

/-- What is known of a worker at any time. -/
structure Served (id : UInt32) (sys : System UInt32 J) : Prop where
  wakeful : Wakeful (sys.threads id)
  accounts : endedBy id sys.log ++ (sys.threads id).pc.inHand ++ (sys.threads id).worker.jobs =
    assignedTo id sys.past

/-- The worker is being stopped, or was. -/
def Removed (s : Popping J) (id : UInt32) : Prop :=
  (∃ pc, s.popper = .stopping id pc) ∨ s.destroyed id = true

def arbiterCritical : FramePc J → Bool
  | .assignFind _ | .guarded | .waitFind _ | .waitUnlock _ => true
  | _ => false

def popperCritical : PopPc → Bool
  | .take _ | .stopping _ _ | .unlock => true
  | _ => false

/-- The invariant of all runs that meet the condition. -/
structure Shrinking (n : UInt32) (s : Popping J) : Prop where
  arbiterOwns : arbiterCritical s.frame = true → s.poolMutex = some .arbiter
  popperOwns : popperCritical s.popper = true → s.poolMutex = some .popper
  below : ∀ id ∈ s.pool.workers, id < n
  served : ∀ id, id < n → Served id s.sys
  closing : ∀ id pc, s.popper = .stopping id pc → shut pc = true → Closing (s.sys.threads id)
  stopped : ∀ id pc, s.popper = .stopping id pc → waited pc = true → Dead (s.sys.threads id)
  dead : ∀ id, s.destroyed id = true → Dead (s.sys.threads id)
  removed : ∀ id, Removed s id → id < n ∧ id ∉ s.pool.workers
  handing : ∀ id job, .assign id job ∈ s.sys.program →
    s.frame = .guarded ∧ id ∈ s.pool.workers
  held : ∀ id, s.frame = .waitUnlock id ∨ s.Holding id → id ∈ s.pool.workers

/-- What the workers are after a step, whoever made it. -/
structure Carried (n : UInt32) (s : Popping J) (sys : System UInt32 J) : Prop where
  served : ∀ id, id < n → Served id sys
  closing : ∀ id, Removed s id → Closing (s.sys.threads id) → Closing (sys.threads id)
  dead : ∀ id, Removed s id → Dead (s.sys.threads id) → Dead (sys.threads id)

theorem served_nudged {id : UInt32} {sys sys' : System UInt32 J} (served : Served id sys)
    (nudged : Nudged (sys.threads id) (sys'.threads id))
    (past : assignedTo id sys'.past = assignedTo id sys.past)
    (log : endedBy id sys'.log = endedBy id sys.log) : Served id sys' := by
  constructor
  · exact nudged_wakeful nudged served.wakeful
  · rw [log, nudged_inHand nudged, nudged.jobs, past]
    exact served.accounts

theorem carried_nudged {n : UInt32} {s : Popping J} {sys : System UInt32 J} (inv : Shrinking n s)
    (nudged : ∀ id, Nudged (s.sys.threads id) (sys.threads id))
    (past : ∀ id, assignedTo id sys.past = assignedTo id s.sys.past)
    (log : sys.log = s.sys.log) : Carried n s sys := by
  constructor
  · intro id small
    exact served_nudged (inv.served id small) (nudged id) (past id) (by rw [log])
  · exact fun id _ => nudged_closing (nudged id)
  · exact fun id _ => nudged_dead (nudged id)

theorem carried_same {n : UInt32} {s : Popping J} {sys : System UInt32 J} (inv : Shrinking n s)
    (threads : sys.threads = s.sys.threads) (past : sys.past = s.sys.past)
    (log : sys.log = s.sys.log) : Carried n s sys :=
  carried_nudged inv (fun id => by rw [threads]; exact nudged_refl _) (fun id => by rw [past]) log

theorem carried_worker {n id : UInt32} {threw : Bool} {s : Popping J} {sys : System UInt32 J}
    {thread : Thread J} {e : Effect J} (inv : Shrinking n s)
    (run : workerMain threw (s.sys.threads id) = some (thread, e))
    (threads : sys.threads = Function.update s.sys.threads id thread)
    (past : sys.past = s.sys.past) (log : sys.log = s.sys.log ++ eventsOf id e) :
    Carried n s sys := by
  have self : sys.threads id = thread := by rw [threads, Function.update_self]
  have others : ∀ v, v ≠ id → sys.threads v = s.sys.threads v := fun v other => by
    rw [threads, Function.update_of_ne other]
  constructor
  · intro v small
    have served := inv.served v small
    by_cases same : v = id
    · subst same
      constructor
      · rw [self]
        exact workerMain_wakeful run served.wakeful
      · rw [self, past, log, endedBy_append, ← served.accounts, List.append_assoc,
          List.append_assoc, List.append_assoc, workerMain_accounts v run, List.append_assoc]
    · apply served_nudged served
      · rw [others v same]
        exact nudged_refl _
      · rw [past]
      · rw [log, endedBy_append, endedBy_other (Ne.symm same), List.append_nil]
  · intro v _ closing
    by_cases same : v = id
    · subst same
      rw [self]
      exact workerMain_closing run closing
    · rw [others v same]
      exact closing
  · intro v _ dead
    by_cases same : v = id
    · subst same
      rw [self]
      exact workerMain_dead run dead
    · rw [others v same]
      exact dead

theorem carried_pushed {n id : UInt32} {job : J} {s : Popping J} {sys : System UInt32 J}
    (inv : Shrinking n s) (there : id ∈ s.pool.workers)
    (threads : sys.threads = Function.update s.sys.threads id ((s.sys.threads id).push job))
    (past : sys.past = s.sys.past ++ [.assign id job]) (log : sys.log = s.sys.log) :
    Carried n s sys := by
  have self : sys.threads id = (s.sys.threads id).push job := by rw [threads, Function.update_self]
  have others : ∀ v, v ≠ id → sys.threads v = s.sys.threads v := fun v other => by
    rw [threads, Function.update_of_ne other]
  have kept : ∀ v, Removed s v → sys.threads v = s.sys.threads v := by
    intro v removed
    apply others
    intro same
    rw [same] at removed
    exact (inv.removed id removed).2 there
  constructor
  · intro v small
    have served := inv.served v small
    by_cases same : v = id
    · subst same
      constructor
      · rw [self]
        exact served.wakeful
      · rw [self, past, log, assignedTo_append, assignedTo_self, ← served.accounts]
        simp [Thread.push]
    · apply served_nudged served
      · rw [others v same]
        exact nudged_refl _
      · rw [past, assignedTo_append, assignedTo_other (Ne.symm same), List.append_nil]
      · rw [log]
  · intro v removed closing
    rw [kept v removed]
    exact closing
  · intro v removed dead
    rw [kept v removed]
    exact dead

theorem carried_called {n : UInt32} {s : Popping J} {sys : System UInt32 J} (inv : Shrinking n s)
    (run : arbiterStep s.sys = some sys) : Carried n s sys := by
  have stepped : SchedSystem.Stepped [] s.sys .arbiter sys := SchedSystem.arbiterStep_stepped run
  cases stepped with
  | worker w threw thread effect action => cases action
  | assigned id job threads past log remaining =>
    have due : .assign id job ∈ s.sys.remaining := by rw [remaining]; exact List.mem_cons_self
    have planned : .assign id job ∈ s.sys.program := by
      cases List.mem_append.mp due with
      | inl flying => cases pc : s.sys.pc <;> simp [pc, SchedSystem.ArbiterPc.inFlight] at flying
      | inr later => exact later
    exact carried_pushed inv (inv.handing id job planned).2 threads past log
  | woken id threads past log remaining =>
    refine carried_nudged inv (fun v => ?_) (fun v => ?_) log
    · rw [threads]
      by_cases same : v = id
      · subst same
        rw [Function.update_self]
        exact nudged_setAwake _
      · rw [Function.update_of_ne same]
        exact nudged_refl _
    · rw [past, assignedTo_append]
      exact List.append_nil _
  | passed id asleep threads past log remaining =>
    refine carried_nudged inv (fun v => ?_) (fun v => ?_) log
    · rw [threads]
      exact nudged_refl _
    · rw [past, assignedTo_append]
      exact List.append_nil _
  | calm threads past log remaining =>
    exact carried_nudged inv (fun v => calm_nudged (threads v)) (fun v => by rw [past]) log

/-- A step in which the popper is at most woken. -/
def Waits (s t : Popping J) : Prop := t.popper = s.popper ∨ ∃ v, t.popper = s.popper.unpark v

theorem waits_stopping {s t : Popping J} {id : UInt32} {pc : StopPc} (waits : Waits s t)
    (stopping : t.popper = .stopping id pc) :
    ∃ before, s.popper = .stopping id before ∧
      shut pc = shut before ∧ waited pc = waited before := by
  cases waits with
  | inl same => exact ⟨pc, same.symm.trans stopping, rfl, rfl⟩
  | inr woken =>
    obtain ⟨v, woken⟩ := woken
    rw [stopping] at woken
    cases before : s.popper with
    | stopping u at_ =>
      rw [before, PopPc.unpark] at woken
      split at woken
      · cases woken
        exact ⟨at_, rfl, by cases at_ <;> rfl, by cases at_ <;> rfl⟩
      · cases woken
        exact ⟨pc, rfl, rfl, rfl⟩
    | _ => rw [before] at woken; cases woken

theorem waits_critical {s t : Popping J} (waits : Waits s t)
    (inside : popperCritical t.popper = true) : popperCritical s.popper = true := by
  cases waits with
  | inl same => rw [← same]; exact inside
  | inr woken =>
    obtain ⟨v, woken⟩ := woken
    rw [woken] at inside
    cases before : s.popper with
    | take | stopping | unlock => rfl
    | _ => rw [before] at inside; exact inside

/-- Steps of the arbiter and of the threads. -/
theorem shrinking_after {n : UInt32} {s t : Popping J} (inv : Shrinking n s)
    (carried : Carried n s t.sys) (workers : t.pool.workers = s.pool.workers)
    (waits : Waits s t) (destroyed : t.destroyed = s.destroyed)
    (owns : arbiterCritical t.frame = true → t.poolMutex = some .arbiter)
    (mutex : t.poolMutex = s.poolMutex ∨ popperCritical s.popper = false)
    (handing : ∀ id job, .assign id job ∈ t.sys.program →
      t.frame = .guarded ∧ id ∈ s.pool.workers)
    (held : ∀ id, t.frame = .waitUnlock id ∨ t.Holding id → id ∈ s.pool.workers) :
    Shrinking n t := by
  have removed : ∀ id, Removed t id → Removed s id := by
    intro id gone
    cases gone with
    | inl going =>
      obtain ⟨pc, stopping⟩ := going
      obtain ⟨before, here, _⟩ := waits_stopping waits stopping
      exact Or.inl ⟨before, here⟩
    | inr done => exact Or.inr (by rw [← destroyed]; exact done)
  constructor
  · exact owns
  · intro inside
    have before := waits_critical waits inside
    cases mutex with
    | inl same => rw [same]; exact inv.popperOwns before
    | inr out => exact absurd (before.symm.trans out) Bool.noConfusion
  · rw [workers]
    exact inv.below
  · exact carried.served
  · intro id pc stopping late
    obtain ⟨before, here, same, _⟩ := waits_stopping waits stopping
    exact carried.closing id (Or.inl ⟨before, here⟩)
      (inv.closing id before here (same.symm.trans late))
  · intro id pc stopping late
    obtain ⟨before, here, _, same⟩ := waits_stopping waits stopping
    exact carried.dead id (Or.inl ⟨before, here⟩)
      (inv.stopped id before here (same.symm.trans late))
  · intro id gone
    rw [destroyed] at gone
    exact carried.dead id (Or.inr gone) (inv.dead id gone)
  · intro id gone
    rw [workers]
    exact inv.removed id (removed id gone)
  · intro id job due
    rw [workers]
    exact handing id job due
  · intro id holds
    rw [workers]
    exact held id holds

/-- A step after which pool and arbiter are where they were. -/
theorem shrinking_beside {n : UInt32} {s t : Popping J} (inv : Shrinking n s)
    (carried : Carried n s t.sys) (waits : Waits s t) (pool : t.pool = s.pool)
    (mutex : t.poolMutex = s.poolMutex) (frame : t.frame = s.frame)
    (program : t.sys.program = s.sys.program) (destroyed : t.destroyed = s.destroyed) :
    Shrinking n t := by
  apply shrinking_after inv carried (by rw [pool]) waits destroyed
  · rw [frame, mutex]
    exact inv.arbiterOwns
  · exact Or.inl mutex
  · rw [frame, program]
    exact inv.handing
  · intro id holds
    rw [Popping.Holding, frame, program] at holds
    exact inv.held id holds

theorem shrinking_tellThread {n id : UInt32} {s : Popping J} (inv : Shrinking n s) :
    Shrinking n (s.tellThread id) := by
  refine shrinking_beside inv ?_ (Or.inl rfl) rfl rfl rfl rfl rfl
  refine carried_nudged inv (fun v => ?_) (fun _ => rfl) rfl
  exact calm_nudged (SchedSystem.calm_update (SchedSystem.calm_unpark _) v)

theorem shrinking_tellArbiter {n id : UInt32} {s : Popping J} (inv : Shrinking n s) :
    Shrinking n (s.tellArbiter id) :=
  shrinking_beside inv (carried_same inv rfl rfl rfl) (Or.inl rfl) rfl rfl rfl rfl rfl

theorem shrinking_tellPopper {n id : UInt32} {s : Popping J} (inv : Shrinking n s) :
    Shrinking n (s.tellPopper id) :=
  shrinking_beside inv (carried_same inv rfl rfl rfl) (Or.inr ⟨id, rfl⟩) rfl rfl rfl rfl rfl

theorem shrinking_threadNotifies {n id : UInt32} {other : Bool} {s : Popping J}
    (inv : Shrinking n s) : Shrinking n (s.threadNotifies id other) := by
  unfold Popping.threadNotifies
  split
  · exact shrinking_tellArbiter inv
  · exact shrinking_tellPopper inv

theorem shrinking_stopNotifies {n id : UInt32} {other : Bool} {s : Popping J}
    (inv : Shrinking n s) : Shrinking n (s.stopNotifies id other) := by
  unfold Popping.stopNotifies
  split
  · exact shrinking_tellArbiter inv
  · exact shrinking_tellThread inv

theorem shrinking_worker {n id : UInt32} {threw other : Bool} {s t : Popping J}
    (inv : Shrinking n s) (run : workerStep id threw other s = some t) : Shrinking n t := by
  unfold workerStep at run
  split at run
  · cases run
  · rename_i thread effect main
    cases run
    have moved : Shrinking n { s with
        sys := { s.sys.setThread id thread with log := s.sys.log ++ eventsOf id effect } } :=
      shrinking_beside inv (carried_worker inv main rfl rfl rfl) (Or.inl rfl) rfl rfl rfl rfl rfl
    split
    · exact shrinking_threadNotifies moved
    · exact moved

/-- A step of the arbiter outside the calls on a worker. -/
theorem shrinking_frame {n : UInt32} {s t : Popping J} (inv : Shrinking n s)
    (threads : t.sys.threads = s.sys.threads) (past : t.sys.past = s.sys.past)
    (log : t.sys.log = s.sys.log) (pool : t.pool = s.pool) (popper : t.popper = s.popper)
    (destroyed : t.destroyed = s.destroyed)
    (owns : arbiterCritical t.frame = true → t.poolMutex = some .arbiter)
    (mutex : t.poolMutex = s.poolMutex ∨ s.poolMutex ≠ some .popper)
    (handing : ∀ id job, .assign id job ∈ t.sys.program →
      t.frame = .guarded ∧ id ∈ s.pool.workers)
    (held : ∀ id, t.frame = .waitUnlock id ∨ t.Holding id → id ∈ s.pool.workers) :
    Shrinking n t := by
  apply shrinking_after inv (carried_same inv threads past log) (by rw [pool]) (Or.inl popper)
    destroyed owns _ handing held
  cases mutex with
  | inl same => exact Or.inl same
  | inr apart =>
    cases inside : popperCritical s.popper with
    | false => exact Or.inr rfl
    | true => exact absurd (inv.popperOwns inside) apart

/-- Nothing is handed out outside the guarded scope. -/
theorem handing_none {n : UInt32} {s : Popping J} (inv : Shrinking n s) (away : s.frame ≠ .guarded)
    {id : UInt32} {job : J} : .assign id job ∉ s.sys.program :=
  fun due => away (inv.handing id job due).1

theorem arbiterStep_program {sys sys' : System UInt32 J} (run : arbiterStep sys = some sys') :
    sys'.program <:+ sys.program := by
  obtain ⟨threads, program, pc, past, log⟩ := sys
  cases pc with
  | ready =>
    cases program with
    | nil => cases run
    | cons call rest =>
      cases call with
      | assign | wake => cases run; exact List.suffix_cons _ _
      | waitCycleFinish w =>
        simp only [arbiterStep] at run
        split at run
        · cases run
        · cases run
          exact List.suffix_cons _ _
  | wakeAcquire w | waitReacquire w | waitLoad w =>
    simp only [arbiterStep] at run
    split at run <;> cases run <;> exact List.suffix_refl _
  | wakeNotify | wakeRelease | waitPark | waitRelease => cases run; exact List.suffix_refl _
  | waitParked => cases run

theorem shrinking_called {n : UInt32} {s t : Popping J} (inv : Shrinking n s)
    (run : s.called = some t) : Shrinking n t := by
  unfold Popping.called at run
  split at run
  · cases run
  · rename_i sys calls
    cases run
    have fewer := arbiterStep_program calls
    refine shrinking_after inv (carried_called inv calls) rfl (Or.inl rfl) rfl inv.arbiterOwns
      (Or.inl rfl) ?_ ?_
    · exact fun id job due => inv.handing id job (fewer.subset due)
    · intro id holds
      apply inv.held id
      refine holds.imp_right fun holding => ⟨holding.1, ?_⟩
      intro none
      rw [none] at fewer
      exact holding.2 (List.suffix_nil.mp fewer)

/-- Program points with no call on a worker under way or next, and without the
    mutex or in a nested call. -/
def plain : FramePc J → Bool
  | .ready | .assignTest _ | .assignCounter _ | .assignLock _ | .waitCounter _ | .waitLock _ => true
  | _ => false

/-- A step that begins or ends no call on a worker. -/
theorem shrinking_aside {n : UInt32} {s t : Popping J} (inv : Shrinking n s) (sys : t.sys = s.sys)
    (pool : t.pool = s.pool) (popper : t.popper = s.popper) (destroyed : t.destroyed = s.destroyed)
    (away : s.frame ≠ .guarded) (free : ∀ id, t.frame ≠ .waiting id)
    (owns : arbiterCritical t.frame = true → t.poolMutex = some .arbiter)
    (mutex : t.poolMutex = s.poolMutex ∨ s.poolMutex ≠ some .popper)
    (found : ∀ id, t.frame = .waitUnlock id → id ∈ s.pool.workers) : Shrinking n t := by
  apply shrinking_frame inv (by rw [sys]) (by rw [sys]) (by rw [sys]) pool popper destroyed owns
    mutex
  · intro id job due
    rw [sys] at due
    exact absurd due (handing_none inv away)
  · intro id holds
    cases holds with
    | inl unlocks => exact found id unlocks
    | inr holding => exact absurd holding.1 (free id)

theorem shrinking_plain {n : UInt32} {s t : Popping J} (inv : Shrinking n s) (sys : t.sys = s.sys)
    (pool : t.pool = s.pool) (popper : t.popper = s.popper) (destroyed : t.destroyed = s.destroyed)
    (mutex : t.poolMutex = s.poolMutex) (away : s.frame ≠ .guarded)
    (here : plain t.frame = true) : Shrinking n t := by
  apply shrinking_aside inv sys pool popper destroyed away _ _ (Or.inl mutex)
  · intro id unlocks
    rw [unlocks] at here
    cases here
  · intro id waits
    rw [waits] at here
    cases here
  · intro critical
    cases pc : t.frame with
    | assignFind | guarded | waitFind | waitUnlock => rw [pc] at here; cases here
    | _ => rw [pc] at critical; cases critical

/-- The scope of the guard ends with no call made. -/
theorem shrinking_close {n : UInt32} {s : Popping J} (inv : Shrinking n s)
    (owns : s.poolMutex = some .arbiter) : Shrinking n (s.calling [] .guarded) := by
  refine shrinking_frame inv rfl rfl rfl rfl rfl rfl (fun _ => owns) (Or.inl rfl) ?_ ?_
  · intro id job due
    cases due
  · intro id holds
    cases holds with
    | inl unlocks => cases unlocks
    | inr holding => cases holding.1

/-- The looked-up worker is handed the job. -/
theorem shrinking_hand {n id next : UInt32} {job : J} {s : Popping J} (inv : Shrinking n s)
    (owns : s.poolMutex = some .arbiter) (there : id ∈ s.pool.workers) :
    Shrinking n { s.calling [.assign id job, .wake id] .guarded with nextWorkerId := next } := by
  refine shrinking_frame inv rfl rfl rfl rfl rfl rfl (fun _ => owns) (Or.inl rfl) ?_ ?_
  · intro v other due
    simp only [Popping.calling, List.mem_cons, Command.assign.injEq, reduceCtorEq,
      List.not_mem_nil, or_false] at due
    rw [due.1]
    exact ⟨rfl, there⟩
  · intro v holds
    cases holds with
    | inl unlocks => cases unlocks
    | inr holding => cases holding.1

theorem returned_program {sys : System UInt32 J} (done : returned sys = true) :
    sys.program = [] := by
  unfold returned at done
  split at done
  · assumption
  · cases done

theorem shrinking_release {n : UInt32} {s : Popping J} (inv : Shrinking n s)
    (owns : s.poolMutex = some .arbiter) (done : returned s.sys = true) :
    Shrinking n { s with poolMutex := none, frame := .ready } := by
  refine shrinking_frame inv rfl rfl rfl rfl rfl rfl (fun no => (by cases no))
    (Or.inr (by simp [owns])) ?_ ?_
  · intro id job due
    rw [show s.sys.program = [] from returned_program done] at due
    cases due
  · intro id holds
    cases holds with
    | inl unlocks => cases unlocks
    | inr holding => cases holding.1

/-- The address leaves the scope of the guard. -/
theorem shrinking_unlock {n id : UInt32} {s : Popping J} (inv : Shrinking n s)
    (frame : s.frame = .waitUnlock id) :
    Shrinking n { s.calling [.waitCycleFinish id] (.waiting id) with poolMutex := none } := by
  have owns := inv.arbiterOwns (by rw [frame]; rfl)
  refine shrinking_frame inv rfl rfl rfl rfl rfl rfl (fun no => (by cases no))
    (Or.inr (by simp [owns])) ?_ ?_
  · intro v job due
    simp [Popping.calling] at due
  · intro v holds
    cases holds with
    | inl unlocks => cases unlocks
    | inr holding =>
      cases holding.1
      exact inv.held id (Or.inl frame)

theorem shrinking_frameStep {n : UInt32} {exited : Bool} {s t : Popping J} (inv : Shrinking n s)
    (run : frameStep exited s = some t) : Shrinking n t := by
  have owns := inv.arbiterOwns
  cases frame : s.frame with
  | ready =>
    simp only [frameStep, frame] at run
    split at run <;> cases run
    · exact shrinking_plain inv rfl rfl rfl rfl rfl (by simp [frame]) rfl
    · exact shrinking_plain inv rfl rfl rfl rfl rfl (by simp [frame]) rfl
  | assignTest job =>
    simp only [frameStep, frame] at run
    split at run
    · split at run <;> cases run
      · rename_i nested
        exact shrinking_close inv nested
      · exact shrinking_plain inv rfl rfl rfl rfl rfl (by simp [frame]) rfl
    · cases run
      exact shrinking_plain inv rfl rfl rfl rfl rfl (by simp [frame]) rfl
  | assignCounter job =>
    simp only [frameStep, frame] at run
    cases run
    exact shrinking_plain inv rfl rfl rfl rfl rfl (by simp [frame]) rfl
  | assignLock job | waitLock id =>
    simp only [frameStep, frame] at run
    split at run
    · rename_i free
      cases run
      exact shrinking_aside inv rfl rfl rfl rfl (by simp [frame]) (fun _ no => (by cases no))
        (fun _ => rfl) (Or.inr (by simp [free])) (fun _ no => (by cases no))
    · cases run
  | assignFind job =>
    rw [frame] at owns
    simp only [frameStep, frame] at run
    split at run
    · rename_i entry found
      cases run
      exact shrinking_hand inv (owns rfl) (Finmap.mem_iff.mpr ⟨entry, found⟩)
    · split at run <;> cases run
      · have closed := shrinking_close inv (owns rfl)
        exact shrinking_beside closed (carried_same closed rfl rfl rfl) (Or.inl rfl) rfl rfl rfl
          rfl rfl
      · exact shrinking_plain inv rfl rfl rfl rfl rfl (by simp [frame]) rfl
  | guarded =>
    rw [frame] at owns
    simp only [frameStep, frame] at run
    split at run
    · rename_i done
      cases run
      exact shrinking_release inv (owns rfl) done
    · exact shrinking_called inv run
  | waitCounter id =>
    simp only [frameStep, frame] at run
    cases run
    refine shrinking_plain inv rfl rfl rfl rfl rfl (by simp [frame]) ?_
    dsimp only
    split <;> rfl
  | waitFind id =>
    rw [frame] at owns
    simp only [frameStep, frame] at run
    split at run <;> cases run
    · rename_i entry found
      refine shrinking_aside inv rfl rfl rfl rfl (by simp [frame]) (fun _ no => (by cases no))
        (fun _ => owns rfl) (Or.inl rfl) ?_
      intro v unlocks
      cases unlocks
      exact Finmap.mem_iff.mpr ⟨entry, found⟩
    · exact shrinking_close inv (owns rfl)
  | waitUnlock id =>
    simp only [frameStep, frame] at run
    cases run
    exact shrinking_unlock inv frame
  | waiting id =>
    simp only [frameStep, frame] at run
    split at run
    · cases run
      exact shrinking_plain inv rfl rfl rfl rfl rfl (by simp [frame]) rfl
    · exact shrinking_called inv run

end SchedShrinkInv
