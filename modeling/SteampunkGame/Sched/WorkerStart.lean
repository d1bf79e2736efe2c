import SteampunkGame.Sched.LostWakeup

/-!
A new worker between its construction and its first calls. Its thread runs as
soon as it is constructed, while `_active` is set only by `worker::detach`
after the worker has been put into the pool; until then the thread takes the
cleared flag for a request to stop.
-/
namespace SchedStart
open SchedWorker SchedSystem SchedOrder SchedSteps SchedWakeup Runs
variable {J : Type}

/-- The next step of the thread in `push_worker`, from the launch of the
    worker's thread on. -/
inductive PushPc where
  | launch
  | acquire
  | emplace
  | detachTest
  | detachStore
  | detachThread
  | release
  | returned
  | threw (what : String)
  deriving DecidableEq, Repr

def PushPc.launched : PushPc → Bool
  | .launch => false
  | _ => true

def PushPc.inPool : PushPc → Bool
  | .launch | .acquire | .emplace => false
  | _ => true

/-- `detach` has set `_active`. -/
def PushPc.active : PushPc → Bool
  | .detachThread | .release | .returned => true
  | _ => false

/-- The arbiter finds the worker only under the pool mutex, which is held from
    the insertion to the return. -/
structure Starting (J : Type) where
  pc : PushPc
  system : System Unit J

inductive Action where
  | push
  | worker (threw : Bool)
  | spurious
  | arbiter
  | arbiterSpurious
  deriving DecidableEq, Repr

def setActive (s : System Unit J) : System Unit J :=
  s.setThread () ⟨{ (s.threads ()).worker with active := true }, (s.threads ()).pc⟩

def pushStep (s : Starting J) : Option (Starting J) :=
  match s.pc with
  | .launch => some { s with pc := .acquire }
  | .acquire => some { s with pc := .emplace }
  | .emplace => some { s with pc := .detachTest }
  | .detachTest =>
      if (s.system.threads ()).worker.active then
        some { s with pc := .threw "worker is already detached" }
      else some { s with pc := .detachStore }
  | .detachStore => some { s with pc := .detachThread, system := setActive s.system }
  | .detachThread => some { s with pc := .release }
  | .release => some { s with pc := .returned }
  | .returned | .threw _ => none

/-- A step of the worker's thread or of the arbiter. -/
def within (s : Starting J) (enabled : Bool) (a : SchedSystem.Action Unit) :
    Option (Starting J) :=
  if enabled then (SchedSystem.step [()] s.system a).map fun system => { s with system := system }
  else none

def step (s : Starting J) : Action → Option (Starting J)
  | .push => pushStep s
  | .worker threw => within s s.pc.launched (.worker () threw)
  | .spurious => within s s.pc.launched (.spurious ())
  | .arbiter => within s (s.pc = .returned) .arbiter
  | .arbiterSpurious => within s (s.pc = .returned) .arbiterSpurious

/-- A constructed worker. -/
def constructed : Thread J := ⟨⟨false, false, [], false⟩, .acquire⟩

def begin (calls : List (Command Unit J)) : Starting J :=
  ⟨.launch, launch (fun _ => constructed) calls⟩

def Starting.thread (s : Starting J) : Thread J := s.system.threads ()

/-- The thread makes its activity check only after `detach` has set `_active`. -/
def CheckOk (s : Starting J) : Action → Prop
  | .worker _ => s.thread.pc = .checkActive → s.pc.active = true
  | _ => True

instance [DecidableEq J] (s : Starting J) : (a : Action) → Decidable (CheckOk s a)
  | .worker _ => inferInstanceAs (Decidable (_ → _))
  | .push | .spurious | .arbiter | .arbiterSpurious => inferInstanceAs (Decidable True)

/-- What the arbiter and spurious wake-ups leave alone. -/
structure Kept (t t' : Thread J) : Prop where
  active : t'.worker.active = t.worker.active
  gone : t'.pc.gone = t.pc.gone

theorem calm_kept {t t' : Thread J} (calm : Calm t t') : Kept t t' := by
  refine ⟨calm.active, ?_⟩
  cases calm.pc with
  | inl same => rw [same]
  | inr notified => rw [notified.1, notified.2]; rfl

theorem system_kept {s t : System Unit J} {a : SchedSystem.Action Unit}
    (run : SchedSystem.step [()] s a = some t) (other : ∀ threw, a ≠ .worker () threw) :
    Kept (s.threads ()) (t.threads ()) := by
  cases step_stepped run with
  | worker w threw thread effect action member main threads past log remaining =>
    exact absurd action (other threw)
  | assigned w job threads past log remaining =>
    rw [threads]
    exact ⟨rfl, rfl⟩
  | woken w threads past log remaining =>
    rw [threads]
    exact ⟨rfl, rfl⟩
  | passed w asleep threads past log remaining =>
    rw [threads]
    exact ⟨rfl, rfl⟩
  | calm threads past log remaining => exact calm_kept (threads ())

theorem system_worker {s t : System Unit J} {threw : Bool}
    (run : SchedSystem.step [()] s (.worker () threw) = some t) :
    ∃ e, workerMain threw (s.threads ()) = some (t.threads (), e) := by
  simp only [SchedSystem.step, List.mem_singleton, if_true] at run
  obtain ⟨thread, effect, main, threads, pc⟩ := workerStep_told run
  refine ⟨effect, ?_⟩
  rw [threads, main, Function.update_self]

theorem within_some {s t : Starting J} {enabled : Bool} {a : SchedSystem.Action Unit}
    (run : within s enabled a = some t) :
    t.pc = s.pc ∧ SchedSystem.step [()] s.system a = some t.system := by
  unfold within at run
  split at run
  · obtain ⟨system, taken, eq⟩ := Option.map_eq_some_iff.mp run
    cases eq
    exact ⟨rfl, taken⟩
  · cases run

/-- What a step does to the new worker's activity and to its thread's place. -/
inductive Stepped (s t : Starting J) : Action → Prop where
  | push (inPool : s.pc.inPool = true → t.pc.inPool = true)
      (active : s.thread.worker.active = s.pc.active → t.thread.worker.active = t.pc.active)
      (thread : t.thread.pc = s.thread.pc) : Stepped s t .push
  | worker (threw : Bool) (e : Effect J) (run : workerMain threw s.thread = some (t.thread, e))
      (pc : t.pc = s.pc) : Stepped s t (.worker threw)
  | other (a : Action) (kept : Kept s.thread t.thread) (pc : t.pc = s.pc) : Stepped s t a

theorem pushStep_stepped {s t : Starting J} (run : pushStep s = some t) : Stepped s t .push := by
  obtain ⟨pc, system⟩ := s
  cases pc with
  | detachTest =>
    simp only [pushStep] at run
    split at run
    · rename_i active
      cases run
      exact .push (fun _ => rfl) (fun inactive => absurd active (by
        rw [show (system.threads ()).worker.active = false from inactive]; simp)) rfl
    · cases run
      exact .push (fun _ => rfl) id rfl
  | detachStore =>
    cases run
    exact .push (fun _ => rfl) (fun _ => by simp [Starting.thread, setActive, System.setThread,
      PushPc.active]) (by simp [Starting.thread, setActive, System.setThread])
  | launch | acquire =>
    cases run
    exact .push (fun no => (by cases no)) id rfl
  | emplace | detachThread | release =>
    cases run
    exact .push (fun _ => rfl) id rfl
  | returned | threw what => cases run

theorem step_stepped {s t : Starting J} {a : Action} (run : step s a = some t) :
    Stepped s t a := by
  cases a with
  | push => exact pushStep_stepped run
  | worker threw =>
    obtain ⟨pc, taken⟩ := within_some run
    obtain ⟨e, main⟩ := system_worker taken
    exact .worker threw e main pc
  | spurious | arbiter | arbiterSpurious =>
    obtain ⟨pc, taken⟩ := within_some run
    exact .other _ (system_kept taken fun threw no => by cases no) pc

theorem step_active {s t : Starting J} {a : Action} (run : step s a = some t)
    (active : s.thread.worker.active = s.pc.active) : t.thread.worker.active = t.pc.active := by
  cases step_stepped run with
  | push inPool keeps thread => exact keeps active
  | worker threw e main pc => rw [pc, workerMain_active main, active]
  | other a kept pc => rw [pc, kept.active, active]

/-- The thread leaves its loop only at the activity check, and for good. -/
theorem step_gone {s t : Starting J} {a : Action} (run : step s a = some t)
    (active : s.thread.worker.active = s.pc.active) :
    (s.thread.pc.gone = true → t.thread.pc.gone = true) ∧
      (t.thread.pc.gone = true → s.thread.pc.gone = true ∨ ¬ CheckOk s a) := by
  cases step_stepped run with
  | push inPool keeps thread =>
    rw [thread]
    exact ⟨id, Or.inl⟩
  | worker threw e main pc =>
    refine ⟨workerMain_leaves main, fun left => ?_⟩
    cases workerMain_gone main left with
    | inl before => exact Or.inl before
    | inr checked =>
      refine Or.inr fun allowed => ?_
      have on := allowed checked.1
      rw [← active, checked.2] at on
      cases on
  | other a kept pc =>
    rw [kept.gone]
    exact ⟨id, Or.inl⟩

theorem broken_gone {s t : Starting J} {a : Action} (run : step s a = some t)
    (active : s.thread.worker.active = s.pc.active) (broken : ¬ CheckOk s a) :
    t.thread.pc.gone = true := by
  cases a with
  | worker threw =>
    simp only [CheckOk, Classical.not_imp] at broken
    obtain ⟨checks, early⟩ := broken
    obtain ⟨e, main⟩ := system_worker (within_some run).2
    exact workerMain_check main checks (active.trans (by simpa using early))
  | _ => exact absurd trivial broken

theorem begin_active (calls : List (Command Unit J)) :
    (begin calls).thread.worker.active = (begin calls).pc.active := rfl

theorem active_reaches {calls : List (Command Unit J)} {s : Starting J}
    (walk : Reaches step anyAction (begin calls) s) : s.thread.worker.active = s.pc.active :=
  reaches_invariant (I := fun u : Starting J => u.thread.worker.active = u.pc.active)
    (fun _ _ _ active _ run => step_active run active) walk (begin_active calls)

theorem checked_stays {calls : List (Command Unit J)} {s : Starting J}
    (walk : Reaches step CheckOk (begin calls) s) :
    s.thread.worker.active = s.pc.active ∧ s.thread.pc.gone = false := by
  apply reaches_invariant (I := fun u : Starting J =>
    u.thread.worker.active = u.pc.active ∧ u.thread.pc.gone = false) _ walk ⟨rfl, rfl⟩
  intro u a v both allowed run
  refine ⟨step_active run both.1, ?_⟩
  cases left : v.thread.pc.gone with
  | false => rfl
  | true =>
    cases (step_gone run both.1).2 left with
    | inl before => exact absurd (before.symm.trans both.2) Bool.noConfusion
    | inr broken => exact absurd allowed broken

/-- Either the thread has left its loop or the run met the condition. -/
theorem gone_or_checked {calls : List (Command Unit J)} {s : Starting J}
    (walk : Reaches step anyAction (begin calls) s) :
    s.thread.pc.gone = true ∨ Reaches step CheckOk (begin calls) s := by
  induction walk with
  | refl => exact Or.inr .refl
  | @tail u v before move ih =>
    obtain ⟨a, _, run⟩ := move
    have active := active_reaches before
    cases ih with
    | inl left => exact Or.inl ((step_gone run active).1 left)
    | inr checked =>
      by_cases allowed : CheckOk u a
      · exact Or.inr (checked.tail ⟨a, allowed, run⟩)
      · exact Or.inl (broken_gone run active allowed)

/-- In runs that meet the condition the thread never leaves its loop, so no
    call can wait for it in vain. Once the worker is in the pool, its thread is
    in its loop exactly if the run met the condition. -/
theorem worker_starts (calls : List (Command Unit J)) :
    (∀ s, Reaches step CheckOk (begin calls) s → s.thread.pc.gone = false) ∧
    (∀ s, Reaches step anyAction (begin calls) s → s.pc.inPool = true →
      (s.thread.pc.gone = false ↔ Reaches step CheckOk (begin calls) s)) := by
  have stays : ∀ s, Reaches step CheckOk (begin calls) s → s.thread.pc.gone = false :=
    fun s walk => (checked_stays walk).2
  refine ⟨stays, fun s walk _ => ⟨fun loops => ?_, stays s⟩⟩
  cases gone_or_checked walk with
  | inl left => exact absurd (left.symm.trans loops) Bool.noConfusion
  | inr checked => exact checked

/-- A thread that first waits for the worker to be detached. -/
theorem worker_starts_late : ∃ s : Starting Nat,
    Reaches step CheckOk (begin [.assign () 0, .wake (), .waitCycleFinish ()]) s ∧
      s.pc = .returned ∧ s.system.program = [] ∧ s.thread.pc.gone = false := by
  have run : ∃ s, runWithin step CheckOk (List.replicate 7 .push ++ List.replicate 5 .arbiter ++
      List.replicate 11 (.worker false) ++ List.replicate 3 .arbiter)
      (begin ([.assign () 0, .wake (), .waitCycleFinish ()] : List (Command Unit Nat))) = some s ∧
      s.pc = .returned ∧ s.system.program = [] := ⟨_, rfl, rfl, rfl⟩
  obtain ⟨s, taken, returned, done⟩ := run
  have walk := runWithin_reaches taken
  exact ⟨s, walk, returned, done, (worker_starts _).1 s walk⟩

/-- A thread that makes its check before, and a first frame that waits for it. -/
theorem early_thread_gone : ∃ s : Starting Nat,
    Reaches step anyAction (begin [.assign () 0, .wake (), .waitCycleFinish ()]) s ∧
      s.pc.inPool = true ∧ s.thread.pc = .terminated ∧ s.system.pc = .waitParked () ∧
      s.thread.worker.awake = true := by
  have run : ∃ s, runActions step (.push :: List.replicate 9 (.worker false) ++
      List.replicate 6 .push ++ List.replicate 8 .arbiter)
      (begin ([.assign () 0, .wake (), .waitCycleFinish ()] : List (Command Unit Nat))) = some s ∧
      s.pc.inPool = true ∧ s.thread.pc = .terminated ∧ s.system.pc = .waitParked () ∧
      s.thread.worker.awake = true := ⟨_, rfl, rfl, rfl, rfl, rfl⟩
  obtain ⟨s, taken, facts⟩ := run
  exact ⟨s, runActions_reaches taken, facts⟩

end SchedStart
