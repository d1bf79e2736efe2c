import SteampunkGame.Sched.ShrinkInvariant
import SteampunkGame.Sched.SubCycleBarrier

/-!
Why shrinking the pool loses no work in the runs in which the removal neither
falls between the wake-up of a worker and its cycle nor between the lookup of
a worker and the wait on it.
-/
namespace SchedShrinkSafe
open SchedWorker SchedTracking SchedPool SchedShrink SchedShrinkWorker SchedShrinkInv Runs
open SchedStop (StopPc stop)
open SchedBarrier (suspended)
variable {J : Type}

theorem shrinking_stop {n id : UInt32} {s : Popping J} {w : Worker J} {pc pc' : StopPc}
    {e : Effect J} (inv : Shrinking n s) (popper : s.popper = .stopping id pc)
    (run : stop (s.sys.threads id).worker pc = some (w, pc', e))
    (safe : pc = .clearActive →
      (s.sys.threads id).worker.jobs = [] ∨ draining (s.sys.threads id).pc = true) :
    Shrinking n { s with
      sys := s.sys.setThread id ⟨w, (s.sys.threads id).pc⟩
      popper := .stopping id pc' } := by
  have gone := inv.removed id (Or.inl ⟨pc, popper⟩)
  have owns := inv.popperOwns (by rw [popper]; rfl)
  have served := inv.served id gone.1
  have closing := inv.closing id pc popper
  have self : (s.sys.setThread id ⟨w, (s.sys.threads id).pc⟩).threads id =
      ⟨w, (s.sys.threads id).pc⟩ := Function.update_self ..
  have others : ∀ v, v ≠ id →
      (s.sys.setThread id ⟨w, (s.sys.threads id).pc⟩).threads v = s.sys.threads v :=
    fun v other => Function.update_of_ne other ..
  constructor
  · exact inv.arbiterOwns
  · exact fun _ => owns
  · exact inv.below
  · intro v small
    by_cases same : v = id
    · subst same
      constructor
      · rw [self]
        exact stop_wakeful run served.wakeful
      · rw [self, stop_jobs run]
        exact served.accounts
    · apply served_nudged (inv.served v small)
      · rw [others v same]
        exact nudged_refl _
      · rfl
      · rfl
  · intro v at_ stopping late
    cases stopping
    rw [self]
    exact stop_closing run safe closing late
  · intro v at_ stopping late
    cases stopping
    rw [self]
    exact stop_waited run served.wakeful closing (inv.stopped id pc popper) late
  · intro v destroyed
    have dead := inv.dead v destroyed
    by_cases same : v = id
    · subst same
      rw [self]
      exact stop_dead run dead
    · rw [others v same]
      exact dead
  · intro v removed
    apply inv.removed v
    refine removed.imp_left fun going => ?_
    obtain ⟨at_, stopping⟩ := going
    cases stopping
    exact ⟨pc, popper⟩
  · exact inv.handing
  · exact inv.held

/-- A step of the popper that touches no worker. -/
theorem shrinking_popped {n : UInt32} {s t : Popping J} (inv : Shrinking n s) (sys : t.sys = s.sys)
    (frame : t.frame = s.frame)
    (mutex : t.poolMutex = s.poolMutex ∨ s.poolMutex ≠ some .arbiter)
    (owns : popperCritical t.popper = true → t.poolMutex = some .popper)
    (fewer : ∀ id ∈ t.pool.workers, id ∈ s.pool.workers)
    (kept : ∀ id ∈ s.pool.workers, id ∈ t.pool.workers ∨
      s.poolMutex ≠ some .arbiter ∧ ¬ s.Holding id)
    (early : ∀ id pc, t.popper = .stopping id pc → shut pc = false ∧ waited pc = false)
    (dead : ∀ id, t.destroyed id = true → Dead (s.sys.threads id))
    (removed : ∀ id, Removed t id → id < n ∧ id ∉ t.pool.workers) : Shrinking n t := by
  have apart : s.poolMutex ≠ some .arbiter → arbiterCritical s.frame = false := by
    intro free
    cases inside : arbiterCritical s.frame with
    | false => rfl
    | true => exact absurd (inv.arbiterOwns inside) free
  constructor
  · rw [frame]
    intro inside
    cases mutex with
    | inl same => rw [same]; exact inv.arbiterOwns inside
    | inr free => exact absurd ((apart free).symm.trans inside) Bool.noConfusion
  · exact owns
  · exact fun id there => inv.below id (fewer id there)
  · rw [sys]
    exact inv.served
  · intro id pc stopping late
    exact absurd ((early id pc stopping).1.symm.trans late) Bool.noConfusion
  · intro id pc stopping late
    exact absurd ((early id pc stopping).2.symm.trans late) Bool.noConfusion
  · rw [sys]
    exact dead
  · exact removed
  · intro id job due
    rw [sys] at due
    obtain ⟨guarded, there⟩ := inv.handing id job due
    refine ⟨frame.trans guarded, ?_⟩
    cases kept id there with
    | inl still => exact still
    | inr free =>
      have outside := apart free.1
      rw [guarded] at outside
      cases outside
  · intro id holds
    have before : s.frame = .waitUnlock id ∨ s.Holding id := by
      rw [Popping.Holding, frame, sys] at holds
      exact holds
    cases kept id (inv.held id before) with
    | inl still => exact still
    | inr free =>
      cases before with
      | inl unlocks =>
        have outside := apart free.1
        rw [unlocks] at outside
        cases outside
      | inr holding => exact absurd holding free.2

/-- The popper goes on without a worker. -/
theorem shrinking_goes {n : UInt32} {s t : Popping J} (inv : Shrinking n s) (sys : t.sys = s.sys)
    (frame : t.frame = s.frame) (workers : t.pool.workers = s.pool.workers)
    (destroyed : t.destroyed = s.destroyed)
    (mutex : t.poolMutex = s.poolMutex ∨ s.poolMutex ≠ some .arbiter)
    (owns : popperCritical t.popper = true → t.poolMutex = some .popper)
    (away : ∀ id pc, t.popper ≠ .stopping id pc) : Shrinking n t := by
  apply shrinking_popped inv sys frame mutex owns
  · rw [workers]
    exact fun _ there => there
  · rw [workers]
    exact fun _ there => Or.inl there
  · exact fun id pc stopping => absurd stopping (away id pc)
  · rw [destroyed]
    exact inv.dead
  · intro id removed
    rw [workers]
    apply inv.removed id
    cases removed with
    | inl going =>
      obtain ⟨pc, stopping⟩ := going
      exact absurd stopping (away id pc)
    | inr done => exact Or.inr (by rw [← destroyed]; exact done)

theorem shrinking_take {n id : UInt32} {other : Bool} {s t : Popping J} (inv : Shrinking n s)
    (popper : s.popper = .take id) (free : ¬ s.Holding id)
    (run : popStep other s = some t) : Shrinking n t := by
  have owns := inv.popperOwns (by rw [popper]; rfl)
  have apart : s.poolMutex ≠ some .arbiter := by simp [owns]
  simp only [popStep, popper] at run
  split at run <;> cases run
  · exact shrinking_goes inv rfl rfl rfl rfl (Or.inl rfl) (fun _ => owns)
      fun _ _ no => (by cases no)
  · refine shrinking_popped inv rfl rfl (Or.inl rfl) (fun _ => owns) ?_ ?_ ?_ inv.dead ?_
    · intro v there
      exact (Finmap.mem_erase.mp there).2
    · intro v there
      by_cases same : v = id
      · subst same
        exact Or.inr ⟨apart, free⟩
      · exact Or.inl (Finmap.mem_erase.mpr ⟨same, there⟩)
    · intro v pc stopping
      dsimp only at stopping
      split at stopping <;> cases stopping
      exact ⟨rfl, rfl⟩
    · intro v removed
      cases removed with
      | inl going =>
        obtain ⟨pc, stopping⟩ := going
        dsimp only at stopping
        split at stopping
        · rename_i entry found
          cases stopping
          exact ⟨inv.below id (Finmap.mem_iff.mpr ⟨_, found⟩), Finmap.notMem_erase_self⟩
        · cases stopping
      | inr destroyed =>
        have gone := inv.removed v (Or.inr destroyed)
        exact ⟨gone.1, fun there => gone.2 (Finmap.mem_erase.mp there).2⟩

theorem shrinking_destroyed {n id : UInt32} {s : Popping J} (inv : Shrinking n s)
    (popper : s.popper = .stopping id .returned) :
    Shrinking n { s with
      popper := .unlock
      destroyed := Function.update s.destroyed id true } := by
  have owns := inv.popperOwns (by rw [popper]; rfl)
  refine shrinking_popped inv rfl rfl (Or.inl rfl) (fun _ => owns) (fun _ there => there)
    (fun _ there => Or.inl there) (fun _ _ no => (by cases no)) ?_ ?_
  · intro v destroyed
    by_cases same : v = id
    · subst same
      exact inv.stopped v .returned popper rfl
    · dsimp only at destroyed
      rw [Function.update_of_ne same] at destroyed
      exact inv.dead v destroyed
  · intro v removed
    by_cases same : v = id
    · subst same
      exact inv.removed v (Or.inl ⟨.returned, popper⟩)
    · apply inv.removed v
      cases removed with
      | inl going => exact going.elim fun _ no => (by cases no)
      | inr destroyed =>
        dsimp only at destroyed
        rw [Function.update_of_ne same] at destroyed
        exact Or.inr destroyed

theorem shrinking_stops {n id : UInt32} {pc : StopPc} {other : Bool} {s t : Popping J}
    (inv : Shrinking n s) (popper : s.popper = .stopping id pc) (ok : PopSafe s (.stopping id pc))
    (run : s.stops id pc other = some t) : Shrinking n t := by
  unfold Popping.stops at run
  split at run
  · cases run
  · rename_i w after effect main
    cases run
    have moved := shrinking_stop inv popper main ok
    split
    · exact shrinking_stopNotifies moved
    · exact moved

theorem shrinking_popStep {n : UInt32} {other : Bool} {s t : Popping J} (inv : Shrinking n s)
    (ok : PopSafe s s.popper) (run : popStep other s = some t) : Shrinking n t := by
  have owns := inv.popperOwns
  cases popper : s.popper with
  | ready =>
    simp only [popStep, popper] at run
    cases run
    exact shrinking_goes inv rfl rfl rfl rfl (Or.inl rfl) (fun no => (by cases no))
      fun _ _ no => (by cases no)
  | lock id =>
    simp only [popStep, popper] at run
    split at run
    · rename_i free
      cases run
      exact shrinking_goes inv rfl rfl rfl rfl (Or.inr (by simp [free])) (fun _ => rfl)
        fun _ _ no => (by cases no)
    · cases run
  | take id =>
    rw [popper] at ok
    exact shrinking_take inv popper ok run
  | unlock =>
    rw [popper] at owns
    simp only [popStep, popper] at run
    cases run
    exact shrinking_goes inv rfl rfl rfl rfl (Or.inr (by simp [owns rfl])) (fun no => (by cases no))
      fun _ _ no => (by cases no)
  | stopping id pc =>
    rw [popper] at ok
    cases pc with
    | returned =>
      simp only [popStep, popper] at run
      cases run
      exact shrinking_destroyed inv popper
    | _ =>
      simp only [popStep, popper] at run
      exact shrinking_stops inv popper ok run

theorem shrinking_step {n : UInt32} {s t : Popping J} {a : Action} (inv : Shrinking n s)
    (ok : PopOk s a) (run : step n s a = some t) : Shrinking n t := by
  cases a with
  | worker id threw other =>
    simp only [step] at run
    split at run
    · exact shrinking_worker inv run
    · cases run
  | spurious id =>
    simp only [step] at run
    split at run
    · cases run
      exact shrinking_tellThread inv
    · cases run
  | arbiter exited => exact shrinking_frameStep inv run
  | arbiterSpurious id => cases run; exact shrinking_tellArbiter inv
  | pop other => exact shrinking_popStep inv ok run
  | popSpurious id => cases run; exact shrinking_tellPopper inv

theorem shrinking_start {n : UInt32} {pool : WorkerPool} {threads : UInt32 → Thread J}
    (static : StaticPool n pool) (quiescent : ∀ id, id < n → Quiescent (threads id))
    (next : UInt32) (program : List (FrameCall J)) :
    Shrinking n (start pool threads next program) := by
  constructor
  · exact fun no => (by cases no)
  · exact fun no => (by cases no)
  · intro id there
    by_contra above
    exact absurd (Finmap.lookup_eq_none.mp (static.absent id above)) (fun no => no there)
  · intro id small
    obtain ⟨active, asleep, drained, resting, looping⟩ := quiescent id small
    constructor
    · intro busy
      exact absurd (resting.symm.trans busy) Bool.noConfusion
    · have empty : (threads id).pc.inHand = [] := by
        cases pc : (threads id).pc with
        | executing job => rw [pc] at resting; cases resting
        | _ => rfl
      simp [start, empty, drained, endedBy, assignedTo]
  · exact fun _ _ no => (by cases no)
  · exact fun _ _ no => (by cases no)
  · exact fun _ no => (by cases no)
  · intro id removed
    cases removed with
    | inl going => exact going.elim fun _ no => (by cases no)
    | inr destroyed => cases destroyed
  · exact fun _ _ due => (by cases due)
  · intro id holds
    cases holds with
    | inl unlocks => cases unlocks
    | inr holding => cases holding.1

/-- Shrinking the pool in every run in which `_active` is not cleared over jobs
    that the thread has not come to, and no worker is removed between its
    lookup and the wait on it. -/
theorem shrink_safe {n : UInt32} {pool : WorkerPool} {threads : UInt32 → Thread J}
    (static : StaticPool n pool) (quiescent : ∀ id, id < n → Quiescent (threads id))
    (next : UInt32) (program : List (FrameCall J)) {s : Popping J}
    (walk : Reaches (step n) PopOk (start pool threads next program) s) :
    (∀ id, s.destroyed id = true → endedBy id s.sys.log = assignedTo id s.sys.past) ∧
      ∀ id, s.Holding id → s.destroyed id = false := by
  have inv := reaches_invariant (fun _ _ _ before ok run => shrinking_step before ok run) walk
    (shrinking_start static quiescent next program)
  constructor
  · intro id destroyed
    have dead := inv.dead id destroyed
    have served := inv.served id (inv.removed id (Or.inr destroyed)).1
    rw [← served.accounts, dead_inHand dead, dead.empty, List.append_nil, List.append_nil]
  · intro id holding
    cases destroyed : s.destroyed id with
    | false => rfl
    | true => exact absurd (inv.held id (Or.inr holding)) (inv.removed id (Or.inr destroyed)).2

/-- One worker runs its job and is popped after the wait for it. -/
theorem shrink_safe_single : ∃ s : Popping Nat,
    Reaches (step 1) PopOk (start (filledPool 1) (fun _ => suspended) 0
      [.assignJob 7, .waitForWorkers]) s ∧ s.destroyed 0 = true ∧
      endedBy 0 s.sys.log = assignedTo 0 s.sys.past ∧ s.sys.past ≠ [] := by
  obtain ⟨s, walk, seen⟩ := runWithin_view (fun s => (s.destroyed 0, s.sys.past))
    (show (runWithin (step 1) PopOk (List.replicate 11 (.arbiter false) ++
      List.replicate 15 (.worker 0 false false) ++ List.replicate 10 (.arbiter false) ++
      List.replicate 10 (.pop false) ++ List.replicate 8 (.worker 0 false false) ++
      List.replicate 4 (.pop false)) (start (filledPool 1) (fun _ => suspended) 0
      [.assignJob 7, .waitForWorkers])).map _ =
      some (true, [.assign 0 7, .wake 0, .waitCycleFinish 0]) by decide +kernel)
  obtain ⟨destroyed, past⟩ := Prod.mk.inj seen
  have quiescent : Quiescent (suspended : Thread Nat) := ⟨rfl, rfl, rfl, rfl, rfl⟩
  have safe := shrink_safe (filledPool_static (by decide)) (fun _ _ => quiescent) 0 _ walk
  exact ⟨s, walk, destroyed, safe.1 0 destroyed, by rw [past]; simp⟩

/-- The first worker is popped between the wake-up and its cycle, in the second
    run between its lookup and the wait. -/
theorem pop_loses_job : (∃ s : Popping Nat, Reaches (step 1) anyAction
      (start (filledPool 1) (fun _ => suspended) 0 [.assignJob 7]) s ∧ s.destroyed 0 = true ∧
      assignedTo 0 s.sys.past = [7] ∧ endedBy 0 s.sys.log = []) ∧
    ∃ s : Popping Nat, Reaches (step 1) anyAction
      (start (filledPool 1) (fun _ => suspended) 0 [.waitForWorkers]) s ∧ s.destroyed 0 = true ∧
      s.Holding 0 := by
  obtain ⟨s, walk, lost⟩ := runActions_view
    (fun s : Popping Nat => (s.destroyed 0, assignedTo 0 s.sys.past, endedBy 0 s.sys.log))
    (show (runActions (step 1) (List.replicate 11 (.arbiter false) ++
      List.replicate 10 (.pop false) ++ List.replicate 8 (.worker 0 false false) ++
      List.replicate 4 (.pop false)) (start (filledPool 1) (fun _ => suspended) 0
      [.assignJob 7])).map _ = some (true, [7], []) by decide +kernel)
  obtain ⟨t, waits, held⟩ := runActions_view
    (fun s : Popping Nat => (s.destroyed 0, s.frame, s.sys.program))
    (show (runActions (step 1) (List.replicate 5 (.arbiter false) ++
      List.replicate 10 (.pop false) ++ List.replicate 8 (.worker 0 false false) ++
      List.replicate 4 (.pop false)) (start (filledPool 1) (fun _ => suspended) 0
      [.waitForWorkers])).map _ = some (true, .waiting 0, [.waitCycleFinish 0]) by decide +kernel)
  simp only [Prod.mk.injEq] at lost held
  obtain ⟨destroyed, frame, program⟩ := held
  exact ⟨⟨s, walk, lost⟩, t, waits, destroyed, frame, by rw [program]; simp⟩

end SchedShrinkSafe
