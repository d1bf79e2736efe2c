import Mathlib.Algebra.Order.BigOperators.Group.Finset
import SteampunkGame.Sched.PoolShrink
import SteampunkGame.Sched.StopEnds

/-!
The loop `while (pop_worker()) {}` at the end of the arbiter, with the threads
of the workers that it destroys. No frame runs any more, so the arbiter is the
one that pops.
-/
namespace SchedShutdown
open SchedWorker SchedSystem SchedPool SchedStop SchedShrink SchedStopEnds Runs Progress
variable {J : Type}

/-- `more` is what the last call of `pop_worker` has returned. -/
structure Shutdown (J : Type) where
  popping : Popping J
  more : Bool

def shutdown (pool : WorkerPool) (threads : UInt32 → Thread J) : Shutdown J :=
  ⟨start pool threads 0 [], true⟩

def shutdownStep (n : UInt32) (s : Shutdown J) (a : SchedShrink.Action) : Option (Shutdown J) :=
  match a, s.popping.popper with
  | .arbiter _, _ | .arbiterSpurious _, _ => none
  | .pop other, .ready =>
      if s.more then (popStep other s.popping).map fun popping => ⟨popping, true⟩ else none
  | .pop other, .take _ =>
      (popStep other s.popping).map fun popping =>
        ⟨popping, decide (s.popping.pool.workers ≠ ∅)⟩
  | a, _ => (SchedShrink.step n s.popping a).map fun popping => ⟨popping, s.more⟩

def stopPhase (popper : PopPc) (id : UInt32) : StopPc :=
  match popper with
  | .stopping v pc => if v = id then pc else .returned
  | _ => .returned

/-- How far the stop of a worker is: not begun while the worker is in the pool,
    and over when it is neither there nor with the popper. -/
def phase (s : Popping J) (id : UInt32) : StopPc :=
  match s.pool.workers.lookup id with
  | some _ => .test
  | none => stopPhase s.popper id

def stopOf (s : Popping J) (id : UInt32) : Stopping J := ⟨s.sys.threads id, phase s id⟩

/-- Every stop waits for its thread, and returns after it has terminated. -/
def Timely (s : Shutdown J) : SchedShrink.Action → Prop
  | .worker id threw _ => PromptOk (stopOf s.popping id) (.worker threw)
  | .pop _ => ∀ id pc, s.popping.popper = .stopping id pc → PromptOk (stopOf s.popping id) .stop
  | _ => True

instance [DecidableEq J] (s : Shutdown J) (a : SchedShrink.Action) : Decidable (Timely s a) :=
  match a with
  | .worker id threw _ =>
      inferInstanceAs (Decidable (PromptOk (stopOf s.popping id) (.worker threw)))
  | .pop _ =>
      match popper : s.popping.popper with
      | .stopping id pc => decidable_of_iff (PromptOk (stopOf s.popping id) .stop)
          (by simp [Timely, popper])
      | .ready | .lock _ | .take _ | .unlock => .isTrue (by simp [Timely, popper])
  | .spurious _ | .arbiter _ | .arbiterSpurious _ | .popSpurious _ => .isTrue trivial

def timelyStep [DecidableEq J] (n : UInt32) (s : Shutdown J) (a : SchedShrink.Action) :
    Option (Shutdown J) :=
  if Timely s a then shutdownStep n s a else none

def waking : SchedShrink.Action → Bool
  | .spurious _ | .popSpurious _ => true
  | _ => false

/-- Where the loop is when `k` workers are left, the ones with the lowest ids. -/
def Placed (n : UInt32) (k : Nat) (s : Shutdown J) : Prop :=
  match s.popping.popper with
  | .ready | .unlock =>
      if s.more then s.popping.pool.workerIdCounter.toNat = k else k = 0
  | .lock id | .take id =>
      s.more = true ∧ s.popping.pool.workerIdCounter = id ∧ (0 < k → id.toNat + 1 = k)
  | .stopping id _ =>
      s.more = true ∧ s.popping.pool.workerIdCounter = id ∧ id.toNat = k ∧ k < n.toNat

structure Stocked (n : UInt32) (k : Nat) (pool : WorkerPool) : Prop where
  few : k ≤ n.toNat
  present : ∀ id : UInt32, id.toNat < k → ∃ w, pool.workers.lookup id = some (some w)
  absent : ∀ id : UInt32, k ≤ id.toNat → pool.workers.lookup id = none

/-- The worker has been destroyed, or its stop is under way. -/
def Leaving (s : Popping J) (id : UInt32) : Prop :=
  s.destroyed id = true ∨ ∃ pc, s.popper = .stopping id pc

structure Emptying (n : UInt32) (s : Shutdown J) : Prop where
  bare : s.popping.sys.pc = .ready
  stocked : ∃ k, Stocked n k s.popping.pool ∧ Placed n k s
  free : s.popping.popper = .ready ∨ (∃ id, s.popping.popper = .lock id) →
    s.popping.poolMutex = none
  prompt : ∀ id, id < n → Prompt (stopOf s.popping id)
  ended : ∀ id, id < n → s.popping.destroyed id = true →
    (s.popping.sys.threads id).pc = .terminated
  leaving : ∀ id, id < n → s.popping.pool.workers.lookup id = none → Leaving s.popping id

def popRank : PopPc → Nat
  | .take _ => 1
  | .lock _ => 2
  | .ready => 3
  | .unlock => 4
  | .stopping _ _ => 5

def share (s : Popping J) (id : UInt32) : Nat :=
  stopPotential (stopOf s id) + 8 * (s.pool.workers.lookup id).isSome.toNat

def shutdownPotential (n : UInt32) (s : Shutdown J) : Nat :=
  ∑ id ∈ (workerIds n).toFinset, share s.popping id + 5 * s.more.toNat +
    popRank s.popping.popper

/-- One worker, or its stop, makes a step. -/
structure Beside (id : UInt32) (b : SchedStop.Action) (s t : Popping J) : Prop where
  moved : SchedStop.step (stopOf s id) b = some (stopOf t id)
  others : ∀ v, v ≠ id → stopOf t v = stopOf s v
  pool : t.pool = s.pool
  mutex : t.poolMutex = s.poolMutex
  popper : t.popper = s.popper ∨
    ∃ pc pc', s.popper = .stopping id pc ∧ t.popper = .stopping id pc'
  bare : t.sys.pc = s.sys.pc
  destroyed : t.destroyed = s.destroyed

variable {n id : UInt32} {s t : Popping J}

theorem phase_same (workers : t.pool.workers = s.pool.workers) {v : UInt32}
    (popper : stopPhase t.popper v = stopPhase s.popper v) : phase t v = phase s v := by
  unfold phase
  rw [workers, popper]

theorem stopPhase_unpark (popper : PopPc) (id v : UInt32) :
    stopPhase (popper.unpark id) v =
      if v = id then (stopPhase popper v).unpark else stopPhase popper v := by
  cases popper with
  | stopping w pc =>
    by_cases mine : w = id
    · subst mine
      by_cases here : w = v
      · simp [PopPc.unpark, stopPhase, here]
      · simp [PopPc.unpark, stopPhase, here, Ne.symm here]
    · by_cases here : w = v
      · subst here
        simp [PopPc.unpark, stopPhase, mine]
      · by_cases same : v = id <;> simp [PopPc.unpark, stopPhase, mine, here, same, StopPc.unpark]
  | _ => by_cases same : v = id <;> simp [PopPc.unpark, stopPhase, same, StopPc.unpark]

theorem phase_tellPopper (s : Popping J) (id v : UInt32) :
    phase (s.tellPopper id) v = if v = id then (phase s v).unpark else phase s v := by
  unfold phase Popping.tellPopper
  cases s.pool.workers.lookup v with
  | some _ => simp [StopPc.unpark]
  | none => exact stopPhase_unpark s.popper id v

theorem popper_tell (s : Popping J) (id : UInt32) :
    (s.tellPopper id).popper = s.popper ∨
      ∃ pc pc', s.popper = .stopping id pc ∧ (s.tellPopper id).popper = .stopping id pc' := by
  unfold Popping.tellPopper PopPc.unpark
  cases s.popper with
  | stopping v pc =>
    by_cases mine : v = id
    · subst mine
      exact Or.inr ⟨pc, pc.unpark, rfl, by simp⟩
    · exact Or.inl (by simp [mine])
  | _ => exact Or.inl rfl

theorem beside_popSpurious (s : Popping J) (id : UInt32) :
    Beside id .stopSpurious s (s.tellPopper id) := by
  refine ⟨?_, ?_, rfl, rfl, popper_tell s id, rfl, rfl⟩
  · rw [stopOf, stopOf, phase_tellPopper, if_pos rfl]
    rfl
  · intro v other
    rw [stopOf, stopOf, phase_tellPopper, if_neg other]
    rfl

theorem beside_spurious (s : Popping J) (id : UInt32) :
    Beside id .spurious s (s.tellThread id) := by
  refine ⟨?_, ?_, rfl, rfl, Or.inl rfl, rfl, rfl⟩
  · have there : (s.tellThread id).sys.threads id = (s.sys.threads id).unpark :=
      Function.update_self _ _ _
    rw [stopOf, stopOf, there]
    rfl
  · intro v other
    have there : (s.tellThread id).sys.threads v = s.sys.threads v :=
      Function.update_of_ne other _ _
    rw [stopOf, stopOf, there]
    rfl

/-- Nobody but the stop of a worker waits for it, and nobody but its thread. -/
theorem threadNotifies_bare (bare : s.sys.pc = .ready) (other : Bool) :
    s.threadNotifies id other = s.tellPopper id := by
  simp [Popping.threadNotifies, bare]

theorem stopNotifies_bare (bare : s.sys.pc = .ready) (other : Bool) :
    s.stopNotifies id other = s.tellThread id := by
  simp [Popping.stopNotifies, bare]

theorem beside_worker {threw other : Bool} (bare : s.sys.pc = .ready)
    (run : SchedShrink.workerStep id threw other s = some t) : Beside id (.worker threw) s t := by
  simp only [SchedShrink.workerStep] at run
  split at run
  · cases run
  · rename_i thread e main
    generalize middle : ({ s with
      sys := { s.sys.setThread id thread with log := s.sys.log ++ eventsOf id e } } :
        Popping J) = u at run
    have here : stopOf u id = ⟨thread, phase s id⟩ := by
      subst middle
      exact congrArg₂ Stopping.mk (Function.update_self _ _ _) (phase_same rfl rfl)
    have there : ∀ v, v ≠ id → stopOf u v = stopOf s v := by
      intro v away
      subst middle
      exact congrArg₂ Stopping.mk (Function.update_of_ne away _ _) (phase_same rfl rfl)
    have pool : u.pool = s.pool := by subst middle; rfl
    have mutex : u.poolMutex = s.poolMutex := by subst middle; rfl
    have popper : u.popper = s.popper := by subst middle; rfl
    have idle : u.sys.pc = s.sys.pc := by subst middle; rfl
    have kept : u.destroyed = s.destroyed := by subst middle; rfl
    cases e with
    | notifyOne =>
      simp only [if_true, Option.some.injEq] at run
      rw [threadNotifies_bare (idle.trans bare)] at run
      subst run
      have told := beside_popSpurious u id
      refine ⟨?_, fun v away => (told.others v away).trans (there v away), told.pool.trans pool,
        told.mutex.trans mutex, popper ▸ told.popper, told.bare.trans idle,
        told.destroyed.trans kept⟩
      have moved := told.moved
      rw [here] at moved
      simp only [SchedStop.step, stopOf, main] at moved ⊢
      exact moved
    | silent | started | ended =>
      simp only [Bool.false_eq_true, if_false, Option.some.injEq] at run
      subst run
      refine ⟨?_, there, pool, mutex, Or.inl popper, idle, kept⟩
      rw [here]
      simp only [SchedStop.step, stopOf, main]

theorem beside_stop {other : Bool} {pc : StopPc} (bare : s.sys.pc = .ready)
    (gone : s.pool.workers.lookup id = none) (stopping : s.popper = .stopping id pc)
    (run : s.stops id pc other = some t) : Beside id .stop s t := by
  simp only [Popping.stops] at run
  split at run
  · cases run
  · rename_i w pc' e main
    have at_ : stopOf s id = ⟨s.sys.threads id, pc⟩ := by
      simp [stopOf, phase, stopPhase, gone, stopping]
    generalize middle : ({ s with
      sys := s.sys.setThread id ⟨w, (s.sys.threads id).pc⟩
      popper := .stopping id pc' } : Popping J) = u at run
    have here : stopOf u id = ⟨⟨w, (s.sys.threads id).pc⟩, pc'⟩ := by
      subst middle
      simp [stopOf, phase, stopPhase, gone, System.setThread]
    have there : ∀ v, v ≠ id → stopOf u v = stopOf s v := by
      intro v away
      subst middle
      have threads : Function.update s.sys.threads id ⟨w, (s.sys.threads id).pc⟩ v =
          s.sys.threads v := Function.update_of_ne away _ _
      cases found : s.pool.workers.lookup v <;>
        simp [stopOf, phase, stopPhase, stopping, System.setThread, threads, found, Ne.symm away]
    have pool : u.pool = s.pool := by subst middle; rfl
    have mutex : u.poolMutex = s.poolMutex := by subst middle; rfl
    have popper : u.popper = .stopping id pc' := by subst middle; rfl
    have idle : u.sys.pc = s.sys.pc := by subst middle; rfl
    have kept : u.destroyed = s.destroyed := by subst middle; rfl
    cases e with
    | notifyOne =>
      simp only [if_true, Option.some.injEq] at run
      rw [stopNotifies_bare (idle.trans bare)] at run
      subst run
      have told := beside_spurious u id
      refine ⟨?_, fun v away => (told.others v away).trans (there v away), told.pool.trans pool,
        told.mutex.trans mutex, Or.inr ⟨pc, pc', stopping, popper⟩, told.bare.trans idle,
        told.destroyed.trans kept⟩
      have moved := told.moved
      rw [here] at moved
      rw [at_]
      simp only [SchedStop.step, main] at moved ⊢
      exact moved
    | silent | started | ended =>
      simp only [Bool.false_eq_true, if_false, Option.some.injEq] at run
      subst run
      refine ⟨?_, there, pool, mutex, Or.inr ⟨pc, pc', stopping, popper⟩, idle, kept⟩
      rw [at_, here]
      simp only [SchedStop.step, main]

/-- All that a step does, once no frame runs. -/
inductive Moved (n : UInt32) (s : Shutdown J) : SchedShrink.Action → Shutdown J → Prop where
  | worker {id : UInt32} {threw other : Bool} {t : Popping J} (inside : id < n)
      (beside : Beside id (.worker threw) s.popping t) :
      Moved n s (.worker id threw other) ⟨t, s.more⟩
  | spurious {id : UInt32} (inside : id < n) :
      Moved n s (.spurious id) ⟨s.popping.tellThread id, s.more⟩
  | popSpurious {id : UInt32} : Moved n s (.popSpurious id) ⟨s.popping.tellPopper id, s.more⟩
  | calls {other : Bool} (popper : s.popping.popper = .ready) (more : s.more = true) :
      Moved n s (.pop other) ⟨{ s.popping with
        pool := { s.popping.pool with workerIdCounter := s.popping.pool.workerIdCounter - 1 }
        popper := .lock (s.popping.pool.workerIdCounter - 1) }, true⟩
  | locks {id : UInt32} {other : Bool} (popper : s.popping.popper = .lock id) :
      Moved n s (.pop other)
        ⟨{ s.popping with poolMutex := some .popper, popper := .take id }, s.more⟩
  | findsNone {id : UInt32} {other : Bool} (popper : s.popping.popper = .take id)
      (empty : s.popping.pool.workers = ∅) :
      Moved n s (.pop other) ⟨{ s.popping with popper := .unlock }, false⟩
  | takes {id : UInt32} {other : Bool} (popper : s.popping.popper = .take id)
      (some_ : s.popping.pool.workers ≠ ∅) :
      Moved n s (.pop other) ⟨{ s.popping with
        pool := { s.popping.pool with workers := s.popping.pool.workers.erase id }
        popper :=
          match s.popping.pool.workers.lookup id with
          | some (some _) => .stopping id .test
          | _ => .unlock }, true⟩
  | stops {id : UInt32} {pc : StopPc} {other : Bool} {t : Popping J}
      (popper : s.popping.popper = .stopping id pc)
      (run : s.popping.stops id pc other = some t) : Moved n s (.pop other) ⟨t, s.more⟩
  | destroys {id : UInt32} {other : Bool} (popper : s.popping.popper = .stopping id .returned) :
      Moved n s (.pop other) ⟨{ s.popping with
        popper := .unlock
        destroyed := Function.update s.popping.destroyed id true }, s.more⟩
  | unlocks {other : Bool} (popper : s.popping.popper = .unlock) :
      Moved n s (.pop other) ⟨{ s.popping with poolMutex := none, popper := .ready }, s.more⟩

theorem shutdownStep_moved {s t : Shutdown J} {a : SchedShrink.Action}
    (bare : s.popping.sys.pc = .ready) (run : shutdownStep n s a = some t) : Moved n s a t := by
  cases a with
  | arbiter | arbiterSpurious => cases run
  | worker id threw other =>
    simp only [shutdownStep, SchedShrink.step] at run
    split at run
    · rename_i inside
      obtain ⟨popping, taken, rfl⟩ := Option.map_eq_some_iff.mp run
      exact .worker inside (beside_worker bare taken)
    · cases run
  | spurious id =>
    simp only [shutdownStep, SchedShrink.step] at run
    split at run <;> cases run
    exact .spurious ‹_›
  | popSpurious id =>
    cases run
    exact .popSpurious
  | pop other =>
    cases popper : s.popping.popper with
    | ready =>
      simp only [shutdownStep, popper] at run
      split at run
      · rename_i more
        simp only [popStep, popper, Option.map_some, Option.some.injEq] at run
        subst run
        exact .calls popper more
      · cases run
    | lock id =>
      simp only [shutdownStep, popper, SchedShrink.step, popStep] at run
      split at run <;> cases run
      exact .locks popper
    | take id =>
      simp only [shutdownStep, popper, popStep] at run
      split at run
      · rename_i empty
        simp only [empty, ne_eq, not_true, decide_false, Option.map_some, Option.some.injEq] at run
        subst run
        exact .findsNone popper empty
      · rename_i some_
        simp only [some_, ne_eq, not_false_iff, decide_true, Option.map_some, Option.some.injEq]
          at run
        subst run
        exact .takes popper some_
    | unlock =>
      simp only [shutdownStep, popper, SchedShrink.step, popStep, Option.map_some,
        Option.some.injEq] at run
      subst run
      exact .unlocks popper
    | stopping id pc =>
      cases pc with
      | returned =>
        simp only [shutdownStep, popper, SchedShrink.step, popStep, Option.map_some,
          Option.some.injEq] at run
        subst run
        exact .destroys popper
      | _ =>
        simp only [shutdownStep, popper, SchedShrink.step, popStep] at run
        obtain ⟨popping, taken, rfl⟩ := Option.map_eq_some_iff.mp run
        exact .stops popper taken

theorem emptying_beside {s : Shutdown J} {b : SchedStop.Action} (emptying : Emptying n s)
    (beside : Beside id b s.popping t) (allowed : PromptOk (stopOf s.popping id) b) :
    Emptying n ⟨t, s.more⟩ := by
  obtain ⟨bare, ⟨k, stocked, placed⟩, free, prompt, ended, leaving⟩ := emptying
  refine ⟨beside.bare.trans bare, ⟨k, ?_, ?_⟩, ?_, ?_, ?_, ?_⟩
  · rw [show (⟨t, s.more⟩ : Shutdown J).popping.pool = s.popping.pool from beside.pool]
    exact stocked
  · rcases beside.popper with same | ⟨pc, pc', before, after⟩
    · simpa only [Placed, same, beside.pool] using placed
    · simpa only [Placed, before, after, beside.pool] using placed
  · intro outside
    rcases beside.popper with same | ⟨pc, pc', before, after⟩
    · exact beside.mutex.trans (free (same ▸ outside))
    · simp only [after, reduceCtorEq, exists_false, or_false] at outside
  · intro v inside
    by_cases here : v = id
    · subst here
      exact prompt_step (prompt v inside) allowed beside.moved
    · rw [show stopOf (⟨t, s.more⟩ : Shutdown J).popping v = stopOf s.popping v from
        beside.others v here]
      exact prompt v inside
  · intro v inside gone
    have before : (s.popping.sys.threads v).pc = .terminated :=
      ended v inside (beside.destroyed ▸ gone)
    by_cases here : v = id
    · subst here
      exact terminated_step beside.moved before
    · exact (congrArg (fun u => u.thread.pc) (beside.others v here)).trans before
  · intro v inside absent
    have before := leaving v inside (beside.pool ▸ absent)
    rcases beside.popper with same | ⟨pc, pc', was, after⟩
    · simpa only [Leaving, same, beside.destroyed] using before
    · simpa [Leaving, was, after, beside.destroyed] using before

theorem stocked_none {pool : WorkerPool} (empty : pool.workers = ∅) {k : Nat}
    (stocked : Stocked n k pool) : k = 0 := by
  by_contra some_
  have small : 0 < k := Nat.pos_of_ne_zero some_
  obtain ⟨w, found⟩ := stocked.present 0 small
  rw [empty] at found
  cases found

theorem stocked_some {pool : WorkerPool} (some_ : pool.workers ≠ ∅) {k : Nat}
    (stocked : Stocked n k pool) : 0 < k := by
  by_contra none_
  apply some_
  apply Finmap.ext_lookup
  intro id
  rw [stocked.absent id (by omega), Finmap.lookup_empty]

/-- The steps of `pop_worker` outside the calls on the worker. -/
theorem emptying_popper {s t : Shutdown J} (emptying : Emptying n s)
    (sys : t.popping.sys = s.popping.sys)
    (phases : ∀ v, phase t.popping v = phase s.popping v)
    (stocked : ∃ k, Stocked n k t.popping.pool ∧ Placed n k t)
    (free : t.popping.popper = .ready ∨ (∃ id, t.popping.popper = .lock id) →
      t.popping.poolMutex = none)
    (gone : ∀ v, v < n → t.popping.destroyed v = true → s.popping.destroyed v = true ∨
      (s.popping.sys.threads v).pc = .terminated)
    (leaving : ∀ v, v < n → t.popping.pool.workers.lookup v = none → Leaving t.popping v) :
    Emptying n t := by
  refine ⟨?_, stocked, free, ?_, ?_, leaving⟩
  · rw [sys]
    exact emptying.bare
  · intro v inside
    have same : stopOf t.popping v = stopOf s.popping v := by
      rw [stopOf, stopOf, sys, phases]
    rw [same]
    exact emptying.prompt v inside
  · intro v inside destroyed
    rw [sys]
    exact (gone v inside destroyed).elim (emptying.ended v inside) id

theorem emptying_resting {s t : Shutdown J} (emptying : Emptying n s)
    (sys : t.popping.sys = s.popping.sys)
    (workers : t.popping.pool.workers = s.popping.pool.workers)
    (before : ∀ v, stopPhase s.popping.popper v = .returned)
    (after : ∀ v, stopPhase t.popping.popper v = .returned)
    (stocked : ∃ k, Stocked n k t.popping.pool ∧ Placed n k t)
    (free : t.popping.popper = .ready ∨ (∃ id, t.popping.popper = .lock id) →
      t.popping.poolMutex = none)
    (gone : ∀ v, v < n → t.popping.destroyed v = true → s.popping.destroyed v = true ∨
      (s.popping.sys.threads v).pc = .terminated)
    (leaving : ∀ v, Leaving s.popping v → Leaving t.popping v) : Emptying n t :=
  emptying_popper emptying sys
    (fun v => phase_same workers ((after v).trans (before v).symm)) stocked free gone
    (fun v inside absent => leaving v (emptying.leaving v inside (workers ▸ absent)))

theorem toNat_pred {x : UInt32} {k : Nat} (same : x.toNat = k) (positive : 0 < k) :
    (x - 1).toNat + 1 = k := by
  have one : (1 : UInt32) ≤ x := by
    rw [UInt32.le_iff_toNat_le, same]
    exact positive
  rw [UInt32.toNat_sub_of_le _ _ one, same]
  exact Nat.sub_add_cancel positive

theorem stocked_erase {pool : WorkerPool} {k : Nat} (stocked : Stocked n k pool)
    (last : id.toNat + 1 = k) :
    Stocked n id.toNat { pool with workers := pool.workers.erase id } := by
  obtain ⟨few, present, absent⟩ := stocked
  refine ⟨by omega, ?_, ?_⟩
  · intro v below
    have other : v ≠ id := by
      rintro rfl
      omega
    obtain ⟨w, found⟩ := present v (by omega)
    exact ⟨w, (Finmap.lookup_erase_ne other).trans found⟩
  · intro v above
    by_cases here : v = id
    · rw [here]
      exact Finmap.lookup_erase id _
    · have beyond : k ≤ v.toNat := by
        have apart : v.toNat ≠ id.toNat := fun same => here (UInt32.toNat_inj.mp same)
        omega
      exact (Finmap.lookup_erase_ne here).trans (absent v beyond)

/-- The worker that leaves the pool is the one whose stop begins. -/
def taken (s : Popping J) (id : UInt32) : Popping J :=
  { s with
    pool := { s.pool with workers := s.pool.workers.erase id }
    popper := .stopping id .test }

theorem phase_taken {w : WorkerHandle} (popper : s.popper = .take id)
    (found : s.pool.workers.lookup id = some (some w)) (v : UInt32) :
    phase (taken s id) v = phase s v := by
  by_cases here : v = id
  · subst here
    simp [phase, taken, stopPhase, found]
  · simp [phase, taken, stopPhase, popper, Finmap.lookup_erase_ne here, Ne.symm here]

theorem share_taken {w : WorkerHandle} (popper : s.popper = .take id)
    (found : s.pool.workers.lookup id = some (some w)) :
    share (taken s id) id + 8 = share s id ∧ ∀ v, v ≠ id → share (taken s id) v = share s v := by
  constructor
  · have gone : (taken s id).pool.workers.lookup id = none := Finmap.lookup_erase id _
    rw [share, share, stopOf, stopOf, phase_taken popper found, gone, found]
    rfl
  · intro v other
    have same : (taken s id).pool.workers.lookup v = s.pool.workers.lookup v :=
      Finmap.lookup_erase_ne other
    rw [share, share, stopOf, stopOf, phase_taken popper found, same]
    rfl

theorem emptying_step {s t : Shutdown J} {a : SchedShrink.Action} (emptying : Emptying n s)
    (timely : Timely s a) (moved : Moved n s a t) : Emptying n t := by
  obtain ⟨k, stocked, placed⟩ := emptying.stocked
  cases moved with
  | worker inside beside => exact emptying_beside emptying beside timely
  | spurious => exact emptying_beside emptying (beside_spurious _ _) trivial
  | popSpurious => exact emptying_beside emptying (beside_popSpurious _ _) trivial
  | calls popper more =>
    simp only [Placed, popper, more, if_true] at placed
    refine emptying_resting emptying rfl rfl (by simp [stopPhase, popper]) (fun _ => rfl)
      ⟨k, ⟨stocked.few, stocked.present, stocked.absent⟩, rfl, rfl, toNat_pred placed⟩ ?_
      (fun _ _ => Or.inl) (by simp [Leaving, popper])
    exact fun _ => emptying.free (Or.inl popper)
  | locks popper =>
    simp only [Placed, popper] at placed
    exact emptying_resting emptying rfl rfl (by simp [stopPhase, popper]) (fun _ => rfl)
      ⟨k, stocked, placed⟩ (by simp) (fun _ _ => Or.inl) (by simp [Leaving, popper])
  | findsNone popper empty =>
    have none_ := stocked_none empty stocked
    exact emptying_resting emptying rfl rfl (by simp [stopPhase, popper]) (fun _ => rfl)
      ⟨k, stocked, by simpa [Placed] using none_⟩ (by simp) (fun _ _ => Or.inl)
      (by simp [Leaving, popper])
  | @takes id _ popper some_ =>
    simp only [Placed, popper] at placed
    obtain ⟨_, counter, last⟩ := placed
    have size := last (stocked_some some_ stocked)
    obtain ⟨w, found⟩ := stocked.present id (by omega)
    have few := stocked.few
    refine emptying_popper emptying rfl ?_ ⟨id.toNat, stocked_erase stocked size, ?_⟩ ?_
      (fun _ _ => Or.inl) ?_
    · simp only [found]
      exact phase_taken popper found
    · simp only [Placed, found]
      exact ⟨trivial, counter, trivial, by omega⟩
    · simp [found]
    · intro v inside absent
      by_cases here : v = id
      · exact Or.inr ⟨.test, by simp [found, here]⟩
      · have before := emptying.leaving v inside ((Finmap.lookup_erase_ne here).symm.trans absent)
        exact Or.inl (before.elim (fun gone => gone) (fun ⟨_, no⟩ => by simp [popper] at no))
  | @stops id pc other t popper run =>
    simp only [Placed, popper] at placed
    obtain ⟨_, _, place, _⟩ := placed
    have gone := stocked.absent id (by omega)
    exact emptying_beside emptying (beside_stop emptying.bare gone popper run)
      (timely id pc popper)
  | @destroys id other popper =>
    simp only [Placed, popper] at placed
    obtain ⟨more, counter, place, few⟩ := placed
    refine emptying_resting emptying rfl rfl (by simp [stopPhase, popper]) (fun _ => rfl)
      ⟨k, stocked, ?_⟩ (by simp) ?_ ?_
    · simp [Placed, more, counter, place]
    · intro v inside destroyed
      by_cases here : v = id
      · subst here
        have returned : (stopOf s.popping v).pc = .returned := by
          simp [stopOf, phase, stocked.absent v (by omega), stopPhase, popper]
        exact Or.inr ((emptying.prompt v inside).closing.ceased (Or.inr returned))
      · exact Or.inl ((Function.update_of_ne here _ _).symm.trans destroyed)
    · intro v before
      by_cases here : v = id
      · exact Or.inl (by rw [here]; exact Function.update_self _ _ _)
      · rw [Leaving, popper] at before
        have kept := before.resolve_right (by simp [Ne.symm here])
        exact Or.inl ((Function.update_of_ne here _ _).trans kept)
  | unlocks popper =>
    refine emptying_resting emptying rfl rfl (by simp [stopPhase, popper]) (fun _ => rfl)
      ⟨k, stocked, ?_⟩ (fun _ => rfl) (fun _ _ => Or.inl) (by simp [Leaving, popper])
    simpa only [Placed, popper] using placed

theorem popRank_beside {b : SchedStop.Action} (beside : Beside id b s t) :
    popRank t.popper = popRank s.popper := by
  rcases beside.popper with same | ⟨pc, pc', before, after⟩
  · rw [same]
  · rw [before, after]
    rfl

theorem share_others {b : SchedStop.Action} (beside : Beside id b s t) :
    ∀ v, v ≠ id → share t v = share s v := by
  intro v other
  rw [share, share, beside.others v other, beside.pool]

/-- What a worker or its stop gains or loses is all that changes. -/
theorem potential_beside {s : Shutdown J} {b : SchedStop.Action} (inside : id < n)
    (beside : Beside id b s.popping t) :
    shutdownPotential n ⟨t, s.more⟩ + stopPotential (stopOf s.popping id) =
      shutdownPotential n s + stopPotential (stopOf t id) := by
  have member : id ∈ (workerIds n).toFinset :=
    List.mem_toFinset.mpr ((mem_workerIds n id).mpr inside)
  have moved := sum_moved member (share_others beside)
  have same := popRank_beside beside
  simp only [shutdownPotential]
  simp only [share, beside.pool] at moved ⊢
  omega

theorem potential_elsewhere {s : Shutdown J} {b : SchedStop.Action} (outside : ¬ id < n)
    (beside : Beside id b s.popping t) :
    shutdownPotential n ⟨t, s.more⟩ = shutdownPotential n s := by
  have same : ∑ v ∈ (workerIds n).toFinset, share t v =
      ∑ v ∈ (workerIds n).toFinset, share s.popping v := by
    apply Finset.sum_congr rfl
    intro v among
    apply share_others beside
    rintro rfl
    exact outside ((mem_workerIds n v).mp (List.mem_toFinset.mp among))
  simp only [shutdownPotential, same, popRank_beside beside]

/-- The steps outside the calls on the worker, but for the one that takes it. -/
theorem resting_falls {s t : Shutdown J} (sys : t.popping.sys = s.popping.sys)
    (workers : t.popping.pool.workers = s.popping.pool.workers)
    (before : ∀ v, stopPhase s.popping.popper v = .returned)
    (after : ∀ v, stopPhase t.popping.popper v = .returned)
    (less : 5 * t.more.toNat + popRank t.popping.popper <
      5 * s.more.toNat + popRank s.popping.popper) :
    shutdownPotential n t < shutdownPotential n s := by
  have same : ∑ v ∈ (workerIds n).toFinset, share t.popping v =
      ∑ v ∈ (workerIds n).toFinset, share s.popping v := by
    apply Finset.sum_congr rfl
    intro v _
    have phases : phase t.popping v = phase s.popping v :=
      phase_same workers ((after v).trans (before v).symm)
    rw [share, share, stopOf, stopOf, phases, sys, workers]
  rw [shutdownPotential, shutdownPotential, same]
  omega

theorem spurious_rises (s : Popping J) (id : UInt32) :
    stopPotential (stopOf (s.tellThread id) id) ≤ stopPotential (stopOf s id) + 12 := by
  cases (SchedStop.step_stepped (beside_spurious s id).moved) with
  | spurious thread pc =>
    have rises := unpark_weight (s.sys.threads id)
    rw [stopPotential, stopPotential, thread, pc]
    simp only [stopOf] at rises ⊢
    omega

theorem popSpurious_rises (s : Popping J) (id : UInt32) :
    stopPotential (stopOf (s.tellPopper id) id) ≤ stopPotential (stopOf s id) + 12 := by
  cases (SchedStop.step_stepped (beside_popSpurious s id).moved) with
  | stopSpurious thread pc =>
    have rises := unpark_stopRank (phase s id)
    rw [stopPotential, stopPotential, thread, pc]
    simp only [stopOf] at rises ⊢
    omega

theorem emptying_falls {s t : Shutdown J} {a : SchedShrink.Action} (emptying : Emptying n s)
    (moved : Moved n s a t) (busy : waking a = false) :
    shutdownPotential n t < shutdownPotential n s := by
  obtain ⟨k, stocked, placed⟩ := emptying.stocked
  cases moved with
  | worker inside beside =>
    have less := stop_falls (emptying.prompt _ inside).ending beside.moved (by simp)
    have change := potential_beside inside beside
    omega
  | spurious | popSpurious => cases busy
  | calls popper more =>
    exact resting_falls rfl rfl (by simp [stopPhase, popper]) (fun _ => rfl)
      (by simp [popRank, popper, more])
  | locks popper =>
    exact resting_falls rfl rfl (by simp [stopPhase, popper]) (fun _ => rfl)
      (by simp [popRank, popper])
  | findsNone popper empty =>
    simp only [Placed, popper] at placed
    exact resting_falls rfl rfl (by simp [stopPhase, popper]) (fun _ => rfl)
      (by simp [popRank, popper, placed.1])
  | @takes id _ popper some_ =>
    simp only [Placed, popper] at placed
    obtain ⟨more, counter, last⟩ := placed
    have size := last (stocked_some some_ stocked)
    obtain ⟨w, found⟩ := stocked.present id (by omega)
    have inside : id < n := by
      have few := stocked.few
      rw [UInt32.lt_iff_toNat_lt]
      omega
    have member : id ∈ (workerIds n).toFinset :=
      List.mem_toFinset.mpr ((mem_workerIds n id).mpr inside)
    obtain ⟨mine, others⟩ := share_taken popper found
    have moved := sum_moved member others
    simp only [found]
    change ∑ v ∈ _, share (taken s.popping id) v + 5 * 1 + 5 < ∑ v ∈ _, share s.popping v +
      5 * s.more.toNat + popRank s.popping.popper
    simp only [more, popper, popRank, Bool.toNat_true]
    omega
  | @stops id pc other t popper run =>
    simp only [Placed, popper] at placed
    obtain ⟨_, _, place, few⟩ := placed
    have inside : id < n := by
      rw [UInt32.lt_iff_toNat_lt]
      omega
    have beside := beside_stop emptying.bare (stocked.absent id (by omega)) popper run
    have less := stop_falls (emptying.prompt _ inside).ending beside.moved (by simp)
    have change := potential_beside inside beside
    omega
  | destroys popper =>
    exact resting_falls rfl rfl (by simp [stopPhase, popper]) (fun _ => rfl)
      (by simp [popRank, popper])
  | unlocks popper =>
    exact resting_falls rfl rfl (by simp [stopPhase, popper]) (fun _ => rfl)
      (by simp [popRank, popper])

theorem emptying_rises {s t : Shutdown J} {a : SchedShrink.Action} (moved : Moved n s a t)
    (idle : waking a = true) : shutdownPotential n t ≤ shutdownPotential n s + 12 := by
  cases moved with
  | @spurious id inside =>
    have rises := spurious_rises s.popping id
    have change := potential_beside inside (beside_spurious s.popping id)
    omega
  | @popSpurious id =>
    by_cases inside : id < n
    · have rises := popSpurious_rises s.popping id
      have change := potential_beside inside (beside_popSpurious s.popping id)
      omega
    · rw [potential_elsewhere inside (beside_popSpurious s.popping id)]
      exact Nat.le_add_right _ 12
  | _ => cases idle

theorem shutdown_charged [DecidableEq J] (n : UInt32) :
    Charged (timelyStep (J := J) n) waking (Emptying n) (shutdownPotential n) 12 := by
  have inner : ∀ (s t : Shutdown J) (a : SchedShrink.Action), Emptying n s →
      timelyStep n s a = some t → Timely s a ∧ Moved n s a t := by
    intro s t a emptying run
    simp only [timelyStep] at run
    split at run
    · exact ⟨‹_›, shutdownStep_moved emptying.bare run⟩
    · cases run
  constructor
  · intro s a t emptying run
    obtain ⟨timely, moved⟩ := inner s t a emptying run
    exact emptying_step emptying timely moved
  · intro s a t emptying run busy
    exact emptying_falls emptying (inner s t a emptying run).2 busy
  · intro s a t emptying run idle
    exact emptying_rises (inner s t a emptying run).2 idle

/-- The loop has been left, all workers have been destroyed, and all threads
    have come to their end. -/
structure Over (n : UInt32) (s : Shutdown J) : Prop where
  popper : s.popping.popper = .ready
  more : s.more = false
  empty : s.popping.pool.workers = ∅
  destroyed : ∀ id, id < n → s.popping.destroyed id = true
  threads : ∀ id, id < n → (s.popping.sys.threads id).pc = .terminated

theorem emptying_shutdown {pool : WorkerPool} {threads : UInt32 → Thread J}
    (static : StaticPool n pool) (cycling : ∀ id, id < n → Cycling (threads id)) :
    Emptying n (shutdown pool threads) := by
  refine ⟨rfl, ⟨n.toNat, ⟨Nat.le_refl _, ?_, ?_⟩, ?_⟩, fun _ => rfl, ?_,
    fun _ _ no => (by cases no), ?_⟩
  · intro id below
    exact static.present id (UInt32.lt_iff_toNat_lt.mpr below)
  · intro id above
    exact static.absent id (fun below => by
      rw [UInt32.lt_iff_toNat_lt] at below
      omega)
  · exact congrArg UInt32.toNat static.counter
  · intro id inside
    obtain ⟨w, found⟩ := static.present id inside
    have tests : stopOf (shutdown pool threads).popping id = begin (threads id) := by
      simp [stopOf, phase, shutdown, SchedShrink.start, found, begin]
    rw [tests]
    exact prompt_begin (cycling id inside)
  · intro id inside absent
    obtain ⟨w, found⟩ := static.present id inside
    cases absent.symm.trans found

theorem potential_shutdown {pool : WorkerPool} {threads : UInt32 → Thread J}
    (static : StaticPool n pool) {most : Nat}
    (few : ∀ id, id < n → threadWeight (threads id) ≤ most) :
    shutdownPotential n (shutdown pool threads) ≤ n.toNat * (most + 46) + 8 := by
  have each : ∀ id ∈ (workerIds n).toFinset,
      share (shutdown pool threads).popping id ≤ most + 46 := by
    intro id among
    have inside := (mem_workerIds n id).mp (List.mem_toFinset.mp among)
    have weight := few id inside
    obtain ⟨w, found⟩ := static.present id inside
    have tests : stopOf (shutdown pool threads).popping id = begin (threads id) := by
      simp [stopOf, phase, shutdown, SchedShrink.start, found, begin]
    have there : (shutdown pool threads).popping.pool.workers.lookup id = some (some w) := found
    rw [share, tests, there]
    simp only [stopPotential, begin, stopRank, Option.isSome_some, Bool.toNat_true]
    omega
  have total : ∑ id ∈ (workerIds n).toFinset, share (shutdown pool threads).popping id ≤
      (workerIds n).toFinset.card * (most + 46) := Finset.sum_le_card_nsmul _ _ _ each
  have size : (workerIds n).toFinset.card ≤ n.toNat := by
    have short := List.toFinset_card_le (workerIds n)
    simpa [workerIds] using short
  have product := Nat.mul_le_mul_right (most + 46) size
  simp only [shutdownPotential, shutdown, SchedShrink.start, popRank, Bool.toNat_true] at total ⊢
  omega

variable [DecidableEq J]

theorem stuck_worker {s : Shutdown J} (stuck : Stuck (timelyStep n) waking s) (inside : id < n)
    (allowed : PromptOk (stopOf s.popping id) (.worker false)) :
    workerMain false (s.popping.sys.threads id) = none := by
  have blocked := stuck (.worker id false false) rfl
  have timely : Timely s (.worker id false false) := allowed
  simp only [timelyStep, timely, if_true, shutdownStep, SchedShrink.step, inside,
    SchedShrink.workerStep, Option.map_eq_none_iff] at blocked
  split at blocked
  · assumption
  · cases blocked

theorem stuck_pop {s : Shutdown J} (emptying : Emptying n s)
    (stuck : Stuck (timelyStep n) waking s) : s.popping.popper = .ready ∧ s.more = false := by
  have blocked : Timely s (.pop false) → shutdownStep n s (.pop false) = none := by
    intro timely
    have blocked := stuck (.pop false) rfl
    rwa [timelyStep, if_pos timely] at blocked
  obtain ⟨k, stocked, placed⟩ := emptying.stocked
  cases popper : s.popping.popper with
  | ready =>
    have blocked := blocked fun id pc no => (by rw [popper] at no; cases no)
    cases last : s.more with
    | true => simp [shutdownStep, popper, last, popStep] at blocked
    | false => exact ⟨rfl, rfl⟩
  | lock id =>
    have blocked := blocked fun id pc no => (by rw [popper] at no; cases no)
    have free := emptying.free (Or.inr ⟨id, popper⟩)
    simp [shutdownStep, popper, SchedShrink.step, popStep, free] at blocked
  | take id =>
    have blocked := blocked fun id pc no => (by rw [popper] at no; cases no)
    have goes : ∃ t, popStep false s.popping = some t := by
      simp only [popStep, popper]
      split <;> exact ⟨_, rfl⟩
    obtain ⟨t, goes⟩ := goes
    simp [shutdownStep, popper, goes] at blocked
  | unlock =>
    have blocked := blocked fun id pc no => (by rw [popper] at no; cases no)
    simp [shutdownStep, popper, SchedShrink.step, popStep] at blocked
  | stopping id pc =>
    exfalso
    simp only [Placed, popper] at placed
    obtain ⟨_, _, place, few⟩ := placed
    have inside : id < n := by
      rw [UInt32.lt_iff_toNat_lt]
      omega
    have at_ : phase s.popping id = pc := by
      simp [phase, stocked.absent id (by omega), stopPhase, popper]
    have waits : PromptOk (stopOf s.popping id) .stop →
        stop (s.popping.sys.threads id).worker pc = none ∧ pc ≠ .returned := by
      intro allowed
      have blocked := blocked fun v pc' same => by
        rw [popper] at same
        cases same
        exact allowed
      cases pc with
      | returned => simp [shutdownStep, popper, SchedShrink.step, popStep] at blocked
      | _ =>
        simp only [shutdownStep, popper, SchedShrink.step, popStep, Popping.stops,
          Option.map_eq_none_iff] at blocked
        split at blocked
        · exact ⟨by assumption, by simp⟩
        · cases blocked
    have ended := prompt_stuck (emptying.prompt id inside) (stuck_worker stuck inside)
      (fun allowed => by
        change stop _ (phase s.popping id) = none
        rw [at_]
        exact (waits allowed).1)
    have returned : pc = .returned := at_ ▸ ended.1
    have allowed : PromptOk (stopOf s.popping id) .stop := by
      constructor
      · intro no
        rw [ended.1] at no
        cases no
      · intro no
        rw [ended.1] at no
        simp at no
    exact (waits allowed).2 returned

theorem emptying_stuck {s : Shutdown J} (emptying : Emptying n s) :
    Stuck (timelyStep n) waking s ↔ Over n s := by
  constructor
  · intro stuck
    obtain ⟨popper, last⟩ := stuck_pop emptying stuck
    obtain ⟨k, stocked, placed⟩ := emptying.stocked
    simp only [Placed, popper, last, Bool.false_eq_true, if_false] at placed
    subst placed
    have absent : ∀ id, s.popping.pool.workers.lookup id = none := fun id =>
      stocked.absent id (Nat.zero_le _)
    refine ⟨popper, last, ?_, ?_, ?_⟩
    · apply Finmap.ext_lookup
      intro id
      rw [absent, Finmap.lookup_empty]
    · intro id inside
      exact (emptying.leaving id inside (absent id)).resolve_right (by simp [popper])
    · intro id inside
      have at_ : phase s.popping id = .returned := by simp [phase, absent, stopPhase, popper]
      exact (prompt_stuck (emptying.prompt id inside) (stuck_worker stuck inside)
        (fun _ => show stop _ (phase s.popping id) = none by rw [at_]; rfl)).2
  · rintro ⟨popper, last, _, _, threads⟩ a busy
    have none_ : shutdownStep n s a = none := by
      cases a with
      | worker id threw other =>
        simp only [shutdownStep, SchedShrink.step, SchedShrink.workerStep]
        split
        · rename_i inside
          have ended := threads id inside
          have halted : workerMain threw (s.popping.sys.threads id) = none := by
            unfold workerMain
            rw [ended]
          simp [halted]
        · rfl
      | pop other => simp [shutdownStep, popper, last]
      | arbiter | arbiterSpurious => rfl
      | spurious | popSpurious => cases busy
    simp [timelyStep, none_]

/-- The last loop of the arbiter over any static pool, whose threads are
    anywhere in their cycles, in any interleaving with them. If every stop waits
    for its thread, the thread of a worker that has been destroyed has
    terminated, only so many steps are left that are not spurious wake-ups, and
    none of them leads into a deadlock. -/
theorem shutdown_completes {pool : WorkerPool} {threads : UInt32 → Thread J}
    (static : StaticPool n pool) (cycling : ∀ id, id < n → Cycling (threads id)) {most : Nat}
    (light : ∀ id, id < n → threadWeight (threads id) ≤ most)
    {actions : List SchedShrink.Action} {s : Shutdown J}
    (run : runActions (timelyStep n) actions (shutdown pool threads) = some s) :
    (∀ id, id < n → s.popping.destroyed id = true →
      (s.popping.sys.threads id).pc = .terminated) ∧
    steps waking actions ≤ n.toNat * (most + 46) + 8 + 12 * actions.countP waking ∧
    (Stuck (timelyStep n) waking s ↔ Over n s) ∧
    ∃ more t, (∀ a ∈ more, waking a = false) ∧ runActions (timelyStep n) more s = some t ∧
      Over n t := by
  have charged := shutdown_charged (J := J) n
  obtain ⟨later, few⟩ := charged_run charged (emptying_shutdown static cycling) run
  have start := potential_shutdown static light
  refine ⟨later.ended, by omega, emptying_stuck later, ?_⟩
  obtain ⟨more, t, quiet, _, ends, stuck⟩ := charged_ends charged later
  have last := (charged_run charged later ends).1
  exact ⟨more, t, quiet, ends, (emptying_stuck last).mp stuck⟩

end SchedShutdown
