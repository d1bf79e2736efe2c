import SteampunkGame.Game.RenderExclusion
import SteampunkGame.Sched.BarrierGap

/-!
What the workers do inside `execute` of the game's jobs. The write job and the
event pump are both roots of the graph, so that with two or more workers they
are in the same sub-cycle on different workers, and only one of them takes the
write mutex.
-/
namespace GameCollision
open SchedPool SchedWorker SchedSystem SchedSubCycle SchedRunner SchedRoundRobin SchedProgram
open SchedOrder SchedTotals SchedGap GameWorld GameExclusion Runs
open SchedBarrier (suspended)
open GameJob
variable {I R : Type}

/-- The next step inside `execute` of a job. All of the renderer is one
    step. -/
inductive JobPc (I R : Type) where
  | lock
  | tryPop
  | writing (fn : I)
  | unlock (threw : Bool)
  | test
  | calling (req : R)
  | pop
  | rendering
  | returning (threw : Bool)
  deriving DecidableEq, Repr

def entry : GameJob → JobPc I R
  | .writeJob => .lock
  | .eventPump => .test
  | .renderJob => .rendering

/-- Threads outside the scheduler take the write mutex to read or write
    properties. -/
inductive Holder where
  | worker (w : UInt32)
  | outside
  deriving DecidableEq, Repr

structure Scene (I R : Type) where
  system : System UInt32 GameJob
  inside : UInt32 → JobPc I R
  mutex : Option Holder
  queue : List I
  requests : List R

inductive SceneAction (I R : Type) where
  | thread (a : Action UInt32)
  | job (w : UInt32) (threw : Bool)
  | enqueueWrite (fn : I)
  | enqueueRequest (req : R)
  | lockOutside
  | unlockOutside
  deriving DecidableEq, Repr

def Scene.setInside (s : Scene I R) (w : UInt32) (pc : JobPc I R) : Scene I R :=
  { s with inside := Function.update s.inside w pc }

/-- One step of `write_job::execute` or `event_pump::execute`. The flag says
    whether a function that is called throws. -/
def jobStep (w : UInt32) (threw : Bool) (s : Scene I R) : Option (Scene I R) :=
  match s.inside w with
  | .lock =>
      if s.mutex = none then some { s.setInside w .tryPop with mutex := some (.worker w) } else none
  | .tryPop =>
      match s.queue with
      | [] => some (s.setInside w (.unlock false))
      | fn :: rest => some { s.setInside w (.writing fn) with queue := rest }
  | .writing _ => some (s.setInside w (if threw then .unlock true else .tryPop))
  | .unlock threw => some { s.setInside w (.returning threw) with mutex := none }
  | .test =>
      match s.requests with
      | [] => some (s.setInside w (.returning false))
      | req :: _ => some (s.setInside w (.calling req))
  | .calling _ => some (s.setInside w (if threw then .returning true else .pop))
  | .pop => some { s.setInside w .test with requests := s.requests.tail }
  | .rendering => some (s.setInside w (.returning threw))
  | .returning _ => none

/-- A worker whose job is running goes on when the job returns. -/
def mayStep (s : Scene I R) : Action UInt32 → Bool
  | .worker w threw =>
      match (s.system.threads w).pc, s.inside w with
      | .executing _, .returning did => did == threw
      | .executing _, _ => false
      | _, _ => true
  | _ => true

/-- A worker that has taken a job enters its `execute`. -/
def entered (inside : UInt32 → JobPc I R) (t : System UInt32 GameJob) :
    Action UInt32 → UInt32 → JobPc I R
  | .worker w _ =>
      match (t.threads w).pc with
      | .executing job => Function.update inside w (entry job)
      | _ => inside
  | _ => inside

def sceneStep (pool : List UInt32) (s : Scene I R) : SceneAction I R → Option (Scene I R)
  | .thread a =>
      if mayStep s a then
        match step pool s.system a with
        | none => none
        | some t => some { s with system := t, inside := entered s.inside t a }
      else none
  | .job w threw =>
      if w ∈ pool ∧ (s.system.threads w).pc.inHand ≠ [] then jobStep w threw s else none
  | .enqueueWrite fn => some { s with queue := s.queue ++ [fn] }
  | .enqueueRequest req => some { s with requests := s.requests ++ [req] }
  | .lockOutside => if s.mutex = none then some { s with mutex := some .outside } else none
  | .unlockOutside => if s.mutex = some .outside then some { s with mutex := none } else none

/-- The workers wait for their first cycle. -/
def begin (program : List (Command UInt32 GameJob)) : Scene I R :=
  ⟨launch (fun _ => suspended) program, fun _ => .returning false, none, [], []⟩

def Calling (s : Scene I R) (w : UInt32) : Prop :=
  ∃ job req, (s.system.threads w).pc = .executing job ∧ s.inside w = .calling req

def Writing (s : Scene I R) (w : UInt32) : Prop :=
  ∃ job fn, (s.system.threads w).pc = .executing job ∧ s.inside w = .writing fn

/-- No event callback runs beside a write. -/
def NoCollision (pool : List UInt32) (s : Scene I R) : Prop :=
  ∀ v ∈ pool, Calling s v → ∀ w ∈ pool, ¬ Writing s w

theorem jobStep_system {w : UInt32} {threw : Bool} {s t : Scene I R}
    (run : jobStep w threw s = some t) : t.system = s.system := by
  unfold jobStep at run
  split at run
  · split at run <;> cases run
    rfl
  · split at run <;> cases run <;> rfl
  · cases run
    rfl
  · cases run
    rfl
  · split at run <;> cases run <;> rfl
  · cases run
    rfl
  · cases run
    rfl
  · cases run
    rfl
  · cases run

/-- The threads do in a scene what they do without looking into the jobs. -/
theorem scene_system {pool : List UInt32} {s t : Scene I R}
    (walk : Reaches (sceneStep pool) anyAction s t) :
    Reaches (step pool) anyAction s.system t.system := by
  induction walk with
  | refl => exact .refl
  | @tail u v before move ih =>
    obtain ⟨a, _, run⟩ := move
    cases a with
    | thread a =>
      simp only [sceneStep] at run
      split at run
      · split at run
        · cases run
        · rename_i next moved
          cases run
          exact ih.tail ⟨a, trivial, moved⟩
      · cases run
    | job w threw =>
      simp only [sceneStep] at run
      split at run
      · rw [jobStep_system run]
        exact ih
      · cases run
    | enqueueWrite fn | enqueueRequest req =>
      cases run
      exact ih
    | lockOutside | unlockOutside =>
      simp only [sceneStep] at run
      split at run
      · cases run
        exact ih
      · cases run

/-- Without a frame no worker ever has a job. -/
theorem idle_reaches {pool : List UInt32} {s : Scene I R}
    (walk : Reaches (sceneStep pool) anyAction (begin []) s) {w : UInt32} (member : w ∈ pool)
    {job : GameJob} : (s.system.threads w).pc ≠ .executing job := by
  intro running
  have followed := followed_reaches (fun _ _ => ⟨rfl, rfl, rfl, rfl, rfl⟩) (scene_system walk)
  have past := (List.append_eq_nil_iff.mp followed.coupled.split).1
  have given := (followed.coupled.tracks w member).finished
  rw [past, running] at given
  simp [WorkerPc.inHand, SchedTracking.assignedTo] at given

theorem single_apart {n : UInt32} (single : n = 1) (s : Scene I R) :
    NoCollision (workerIds n) s := by
  rintro v first ⟨_, req, _, calling⟩ w second ⟨_, fn, _, writing⟩
  have alone : ¬ 1 < n := by
    rw [single]
    decide
  rw [single_worker alone first] at calling
  rw [single_worker alone second, calling] at writing
  cases writing

/-- The calls of the arbiter go on beside everything else. -/
theorem arbiter_lift {pool : List UInt32} {count : Nat} {s : Scene I R} {t : System UInt32 GameJob}
    (run : runActions (step pool) (List.replicate count .arbiter) s.system = some t) :
    Reaches (sceneStep pool) anyAction s { s with system := t } := by
  induction count generalizing s with
  | zero =>
    cases run
    exact .refl
  | succ count ih =>
    simp only [List.replicate_succ, runActions] at run
    cases moved : step pool s.system .arbiter with
    | none => rw [moved] at run; cases run
    | some next =>
      rw [moved] at run
      refine .head ⟨.thread .arbiter, trivial, ?_⟩ (ih (s := { s with system := next }) run)
      simp [sceneStep, mayStep, moved, entered]

/-- A suspended worker that was handed a job. -/
def woken (job : GameJob) : Thread GameJob := ⟨⟨true, true, [job], false⟩, .reacquire⟩

def occupied (job : GameJob) : Thread GameJob := ⟨⟨true, true, [], false⟩, .executing job⟩

theorem call_scene {pool : List UInt32} {w : UInt32} {job : GameJob}
    {program : List (Command UInt32 GameJob)} {s : Scene I R} (pc : s.system.pc = .ready)
    (calls : s.system.program = .assign w job :: .wake w :: program)
    (idle : s.system.threads w = suspended) :
    ∃ t, Reaches (sceneStep pool) anyAction s t ∧ t.system.pc = .ready ∧
      t.system.program = program ∧
      t.system.threads = Function.update s.system.threads w (woken job) ∧
      t.mutex = s.mutex ∧ t.queue = s.queue ∧ t.requests = s.requests := by
  obtain ⟨⟨threads, _, _, past, log⟩, inside, mutex, queue, requests⟩ := s
  dsimp only at pc calls idle
  subst pc calls
  have called := @call_runs UInt32 GameJob _ pool w job threads program past log (by rw [idle]; rfl)
  rw [idle] at called
  exact ⟨_, arbiter_lift called, rfl, rfl, rfl, rfl, rfl, rfl⟩

theorem takes_job {pool : List UInt32} {w : UInt32} (member : w ∈ pool) {job : GameJob}
    {s : Scene I R} (handed : s.system.threads w = woken job) :
    ∃ t, Reaches (sceneStep pool) anyAction s t ∧
      t.system.threads = Function.update s.system.threads w (occupied job) ∧
      t.inside = Function.update s.inside w (entry job) ∧
      t.mutex = s.mutex ∧ t.queue = s.queue ∧ t.requests = s.requests := by
  obtain ⟨⟨threads, program, pc, past, log⟩, inside, mutex, queue, requests⟩ := s
  dsimp only at handed
  have run : runActions (sceneStep pool) (List.replicate 5 (.thread (.worker w false)))
      (⟨⟨threads, program, pc, past, log⟩, inside, mutex, queue, requests⟩ : Scene I R) =
      some ⟨⟨Function.update threads w (occupied job), program, pc, past, log ++ [.started w job]⟩,
        Function.update inside w (entry job), mutex, queue, requests⟩ := by
    simp [runActions, sceneStep, mayStep, entered, step, member, workerStep, workerMain, handed,
      woken, occupied, System.setThread, eventsOf]
  exact ⟨_, runActions_reaches run, rfl, rfl, rfl, rfl, rfl⟩

/-- A worker at the entry of the write job and one at that of the event pump
    both come to call a function, if there are any to call. -/
theorem entries_collide {pool : List UInt32} {v w : UInt32} (first : v ∈ pool) (second : w ∈ pool)
    (apart : v ≠ w) (fn : I) (req : R) {s : Scene I R}
    (writer : s.system.threads v = occupied writeJob)
    (pump : s.system.threads w = occupied eventPump)
    (locking : s.inside v = .lock) (testing : s.inside w = .test) (free : s.mutex = none)
    (noWrites : s.queue = []) (noRequests : s.requests = []) :
    ∃ t, Reaches (sceneStep pool) anyAction s t ∧ Writing t v ∧ Calling t w := by
  obtain ⟨system, inside, mutex, queue, requests⟩ := s
  dsimp only at writer pump locking testing free noWrites noRequests
  subst free noWrites noRequests
  have run : runActions (sceneStep pool) [.enqueueWrite fn, .enqueueRequest req, .job v false,
      .job v false, .job w false] (⟨system, inside, none, [], []⟩ : Scene I R) =
      some ⟨system, Function.update (Function.update inside v (.writing fn)) w (.calling req),
        some (.worker v), [], [req]⟩ := by
    simp [runActions, sceneStep, jobStep, Scene.setInside, first, second, writer, pump, locking,
      testing, occupied, WorkerPc.inHand, Function.update_of_ne (Ne.symm apart)]
  refine ⟨_, runActions_reaches run, ⟨writeJob, fn, ?_, ?_⟩, ⟨eventPump, req, ?_, ?_⟩⟩
  · simp [writer, occupied]
  · simp [Function.update_of_ne apart]
  · simp [pump, occupied]
  · simp

/-- One worker takes the write job and another one the event pump. -/
theorem roots_collide {pool : List UInt32} {v w : UInt32} (first : v ∈ pool) (second : w ∈ pool)
    (apart : v ≠ w) (fn : I) (req : R) (program : List (Command UInt32 GameJob)) :
    ∃ s : Scene I R, Reaches (sceneStep pool) anyAction
      (begin (.assign v writeJob :: .wake v :: .assign w eventPump :: .wake w :: program)) s ∧
      Writing s v ∧ Calling s w := by
  obtain ⟨s1, walk1, pc1, calls1, threads1, mutex1, queue1, requests1⟩ :=
    @call_scene I R pool _ _ _ (begin (.assign v writeJob :: .wake v :: .assign w eventPump ::
      .wake w :: program)) rfl rfl rfl
  obtain ⟨s2, walk2, pc2, calls2, threads2, mutex2, queue2, requests2⟩ :=
    @call_scene I R pool _ _ _ _ pc1 calls1
      (by rw [threads1, Function.update_of_ne (Ne.symm apart)]; rfl)
  obtain ⟨s3, walk3, threads3, inside3, mutex3, queue3, requests3⟩ :=
    @takes_job I R pool _ first writeJob s2
      (by rw [threads2, Function.update_of_ne apart, threads1, Function.update_self])
  obtain ⟨s4, walk4, threads4, inside4, mutex4, queue4, requests4⟩ :=
    @takes_job I R pool _ second eventPump s3
      (by rw [threads3, Function.update_of_ne (Ne.symm apart), threads2, Function.update_self])
  have writer : s4.system.threads v = occupied writeJob := by
    rw [threads4, Function.update_of_ne apart, threads3, Function.update_self]
  have pump : s4.system.threads w = occupied eventPump := by
    rw [threads4, Function.update_self]
  have locking : s4.inside v = .lock := by
    rw [inside4, Function.update_of_ne apart, inside3, Function.update_self]
    rfl
  have testing : s4.inside w = .test := by
    rw [inside4, Function.update_self]
    rfl
  have free : s4.mutex = none := by rw [mutex4, mutex3, mutex2, mutex1]; rfl
  have noWrites : s4.queue = [] := by rw [queue4, queue3, queue2, queue1]; rfl
  have noRequests : s4.requests = [] := by rw [requests4, requests3, requests2, requests1]; rfl
  obtain ⟨t, walk, collides⟩ := entries_collide first second apart fn req writer pump locking
    testing free noWrites noRequests
  exact ⟨t, walk1.trans (walk2.trans (walk3.trans (walk4.trans walk))), collides⟩

theorem worldProgram_first (n next : UInt32) (k : Nat) :
    ∃ rest, worldProgram n next (k + 1) = frameProgram n next 0 ++ rest := by
  refine ⟨(List.range k).flatMap fun i => frameProgram n next (i + 1), ?_⟩
  rw [worldProgram, List.range_succ_eq_map, List.flatMap_cons, List.flatMap_map]

/-- In the first frame two workers get the two roots. -/
theorem world_collides {n next : UInt32} (several : 1 < n) (bound : next ≤ n) {count : Nat}
    (frames : 0 < count) (fn : I) (req : R) : ∃ s : Scene I R,
      Reaches (sceneStep (workerIds n)) anyAction (begin (worldProgram n next count)) s ∧
        ¬ NoCollision (workerIds n) s := by
  obtain ⟨k, rfl⟩ : ∃ k, count = k + 1 := ⟨count - 1, by omega⟩
  obtain ⟨rest, split⟩ := worldProgram_first n next k
  have positive : 0 < n := UInt32.lt_trans (by decide) several
  have first := (mem_workerIds n _).mpr (turn_lt positive bound)
  have second := (mem_workerIds n _).mpr (turn_lt positive (turn_succ_le positive bound))
  have program : worldProgram n next (k + 1) = .assign (turn n next) writeJob ::
      .wake (turn n next) :: .assign (turn n (turn n next + 1)) eventPump ::
      .wake (turn n (turn n next + 1)) :: (waitForAll (workerIds n) ++
        (subCycle (workerIds n) (renderWork n next 0) ++ rest)) := by
    rw [split, frameProgram, rootWork, nextFrameId]
    simp [subCycle, handOut, dealt]
  obtain ⟨s, walk, writing, calling⟩ := roots_collide first second
    (Ne.symm (turn_twice_ne several bound)) fn req
    (waitForAll (workerIds n) ++ (subCycle (workerIds n) (renderWork n next 0) ++ rest))
  rw [← program] at walk
  exact ⟨s, walk, fun apart => apart _ second calling _ first writing⟩

/-- Frames of the game's own job graph on any static pool, with writes and
    events coming in at any time. Event callbacks and writes keep apart exactly
    if there is only one worker to run both jobs, or no frame at all. -/
theorem write_event_exclusion [Nonempty I] [Nonempty R] {n next : UInt32} {pool : WorkerPool}
    (static : StaticPool n pool) (bound : next ≤ n) :
    ∃ (r : Runner GameJob) (b : Nat → Arbiter GameJob), world pool = .ok r ∧
      (∀ fuel k, 3 ≤ fuel → frames fuel k (arbiterAt r next) = some (.ok (b k))) ∧
      ∀ count, (∀ s : Scene I R, Reaches (sceneStep (workerIds n)) anyAction
          (begin (b count).subCycles.flatten) s → NoCollision (workerIds n) s) ↔
        n = 1 ∨ count = 0 := by
  obtain ⟨r, built, same, _⟩ := world_graph pool
  rw [← same] at static built
  choose b run steady using frames_steady static bound built
  rw [same] at built
  refine ⟨r, b, built, fun fuel k enough => run k fuel enough, ?_⟩
  intro count
  rw [(steady count).program]
  constructor
  · intro always
    by_contra neither
    rw [not_or] at neither
    obtain ⟨other, frames⟩ := neither
    have several : 1 < n := by
      have positive := static.positive
      rw [UInt32.lt_iff_toNat_lt] at positive ⊢
      have one : n.toNat ≠ 1 := fun eq => other (UInt32.toNat_inj.mp eq)
      rw [UInt32.toNat_zero] at positive
      rw [UInt32.toNat_one]
      omega
    obtain ⟨fn⟩ := ‹Nonempty I›
    obtain ⟨req⟩ := ‹Nonempty R›
    obtain ⟨s, walk, collides⟩ := world_collides several bound
      (Nat.pos_of_ne_zero frames) fn req
    exact collides (always s walk)
  · rintro (single | none) s walk
    · exact single_apart single s
    · subst none
      rintro v member ⟨job, _, running, _⟩
      exact absurd running (idle_reaches walk member)

/-- One worker, three frames. -/
theorem write_event_exclusion_one : ∃ (r : Runner GameJob) (b : Nat → Arbiter GameJob),
    world (filledPool 1) = .ok r ∧
      ∀ s : Scene Nat Nat, Reaches (sceneStep (workerIds 1)) anyAction
        (begin (b 3).subCycles.flatten) s → NoCollision (workerIds 1) s := by
  obtain ⟨r, b, built, _, holds⟩ := write_event_exclusion (I := Nat) (R := Nat)
    (filledPool_static (n := 1) (by decide)) (show (0 : UInt32) ≤ 1 by decide)
  exact ⟨r, b, built, (holds 3).mpr (Or.inl rfl)⟩

/-- Two workers, one frame: while worker 0 runs a queued write, worker 1 is in
    an event callback. -/
theorem callback_during_write : ∃ s : Scene Nat Nat,
    Reaches (sceneStep (workerIds 2)) anyAction (begin (worldProgram 2 0 1)) s ∧
      s.inside 0 = .writing 5 ∧ s.inside 1 = .calling 7 ∧ ¬ NoCollision (workerIds 2) s := by
  obtain ⟨s, walk, seen⟩ := runActions_view
    (fun s : Scene Nat Nat => ((s.system.threads 0).pc, s.inside 0, (s.system.threads 1).pc,
      s.inside 1))
    (show (runActions (sceneStep (workerIds 2)) (List.replicate 10 (.thread .arbiter) ++
        List.replicate 5 (.thread (.worker 0 false)) ++
        List.replicate 5 (.thread (.worker 1 false)) ++
        [.enqueueWrite 5, .enqueueRequest 7, .job 0 false, .job 0 false, .job 1 false])
      (begin (worldProgram 2 0 1))).map _ =
      some (.executing writeJob, .writing 5, .executing eventPump, .calling 7) by decide +kernel)
  simp only [Prod.mk.injEq] at seen
  obtain ⟨writer, writing, pump, calling⟩ := seen
  refine ⟨s, walk, writing, calling, ?_⟩
  intro apart
  exact apart 1 (by decide) ⟨_, _, pump, calling⟩ 0 (by decide) ⟨_, _, writer, writing⟩

end GameCollision
