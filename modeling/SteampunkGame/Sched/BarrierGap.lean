import SteampunkGame.Sched.SubCycleBarrier

/-!
How the barrier is missed. A worker that has failed to take another job but
has not yet cleared its flag is handed a job and woken; it then clears the
flag, goes to sleep with the job in its queue, and the waits return.
-/
namespace SchedGap
open SchedWorker SchedSystem SchedTracking SchedOrder SchedSubCycle SchedBarrier Runs
variable {W J : Type}

/-- The arbiter is between two calls. -/
structure Between (threads : W → Thread J) (program : List (Command W J))
    (s : System W J) : Prop where
  threads : s.threads = threads
  program : s.program = program
  pc : s.pc = .ready

/-- Let a thread alone take so many steps. -/
def runThread : Nat → Thread J → Option (Thread J)
  | 0, t => some t
  | n + 1, t =>
      match workerMain false t with
      | none => none
      | some (next, _) => runThread n next

/-- A thread that found its queue empty and will next clear its flag. -/
def clearing : Thread J := ⟨⟨true, true, [], false⟩, .clearAwake⟩

/-- A waiting thread whose queue holds a job. -/
def overslept (job : J) : Thread J := ⟨⟨true, false, [job], false⟩, .parked⟩

theorem suspended_works (job : J) :
    runThread 15 ((suspended.push job).setAwake.unpark) = some suspended := rfl

theorem suspended_clears (job : J) :
    runThread 7 ((suspended.push job).setAwake.unpark) = some clearing := rfl

theorem clearing_oversleeps (job : J) :
    runThread 8 ((clearing.push job).setAwake.unpark) = some (overslept job) := rfl

variable [DecidableEq W]

theorem workerStep_between {w : W} {threads : W → Thread J} {program : List (Command W J)}
    {next : Thread J} {effect : Effect J} {s : System W J} (between : Between threads program s)
    (main : workerMain false (threads w) = some (next, effect)) :
    ∃ u, workerStep w false s = some u ∧ Between (Function.update threads w next) program u := by
  obtain ⟨threads, _, _, past, log⟩ := s
  obtain ⟨rfl, rfl, rfl⟩ := between
  rw [workerStep, main]
  refine ⟨_, rfl, rfl, rfl, ?_⟩
  dsimp only
  split <;> rfl

theorem thread_reaches {pool : List W} {w : W} (member : w ∈ pool) {n : Nat}
    {threads : W → Thread J} {program : List (Command W J)} {t : Thread J} {s : System W J}
    (between : Between threads program s) (run : runThread n (threads w) = some t) :
    ∃ u, Reaches (step pool) anyAction s u ∧ Between (Function.update threads w t) program u := by
  induction n generalizing threads s with
  | zero =>
    cases run
    rw [Function.update_eq_self]
    exact ⟨s, .refl, between⟩
  | succ n ih =>
    simp only [runThread] at run
    cases main : workerMain false (threads w) with
    | none => rw [main] at run; cases run
    | some moved =>
      obtain ⟨next, effect⟩ := moved
      rw [main] at run
      obtain ⟨v, first, moved⟩ := workerStep_between between main
      obtain ⟨u, walk, ends⟩ := ih moved (by rw [Function.update_self]; exact run)
      rw [Function.update_idem] at ends
      have taken : step pool s (.worker w false) = some v := by rw [step, if_pos member, first]
      exact ⟨u, .head ⟨_, trivial, taken⟩ walk, ends⟩

theorem unpark_locked (t : Thread J) (unlocked : t.worker.locked = false) :
    (t.setLocked true).unpark.setLocked false = t.unpark := by
  obtain ⟨⟨active, awake, jobs, locked⟩, pc⟩ := t
  cases unlocked
  cases pc <;> rfl

/-- The arbiter alone hands a job to a worker whose mutex is free. -/
theorem call_runs (pool : List W) {w : W} {job : J} {threads : W → Thread J}
    {program past : List (Command W J)} {log : List (Event W J)}
    (unlocked : (threads w).worker.locked = false) :
    runActions (step pool) (List.replicate 5 .arbiter)
      ⟨threads, .assign w job :: .wake w :: program, .ready, past, log⟩ =
      some ⟨Function.update threads w ((threads w).push job).setAwake.unpark, program, .ready,
        past ++ [.assign w job] ++ [.wake w], log⟩ := by
  have unlocked' : ((threads w).push job).setAwake.worker.locked = false := unlocked
  simp [runActions, step, arbiterStep, System.setThread, unlocked', unpark_locked]

theorem call_reaches (pool : List W) {w : W} {job : J} {threads : W → Thread J}
    {program : List (Command W J)} {s : System W J}
    (between : Between threads (.assign w job :: .wake w :: program) s)
    (unlocked : (threads w).worker.locked = false) :
    ∃ u, Reaches (step pool) anyAction s u ∧
      Between (Function.update threads w ((threads w).push job).setAwake.unpark) program u := by
  obtain ⟨threads, _, _, past, log⟩ := s
  obtain ⟨rfl, rfl, rfl⟩ := between
  exact ⟨_, runActions_reaches (call_runs pool unlocked), rfl, rfl, rfl⟩

theorem wait_reaches {pool : List W} {w : W} {threads : W → Thread J}
    {program : List (Command W J)} {s : System W J}
    (between : Between threads (.waitCycleFinish w :: program) s)
    (unlocked : (threads w).worker.locked = false) (asleep : (threads w).worker.awake = false) :
    ∃ u, Reaches (step pool) anyAction s u ∧ Between threads program u := by
  obtain ⟨threads, _, _, past, log⟩ := s
  obtain ⟨rfl, rfl, rfl⟩ := between
  dsimp only at unlocked asleep
  have unlocked' : ((threads w).setLocked true).setLocked false = threads w := by
    rw [Thread.setLocked, Thread.setLocked, ← unlocked]
  have asleep' : ((threads w).setLocked true).worker.awake = false := asleep
  have run : runActions (step pool) (List.replicate 3 .arbiter)
      ⟨threads, .waitCycleFinish w :: program, .ready, past, log⟩ =
      some ⟨threads, program, .ready, past ++ [.waitCycleFinish w], log⟩ := by
    simp [runActions, step, arbiterStep, System.setThread, unlocked, unlocked', asleep']
  exact ⟨_, runActions_reaches run, rfl, rfl, rfl⟩

theorem between_trans {pool : List W} {s : System W J} {threads : W → Thread J}
    {middle program : List (Command W J)}
    (first : ∃ t, Reaches (step pool) anyAction s t ∧ Between threads middle t)
    (second : ∀ t, Between threads middle t →
      ∃ u, Reaches (step pool) anyAction t u ∧ Between threads program u) :
    ∃ u, Reaches (step pool) anyAction s u ∧ Between threads program u := by
  obtain ⟨t, walk, between⟩ := first
  obtain ⟨u, more, ends⟩ := second t between
  exact ⟨u, walk.trans more, ends⟩

/-- Hand a job over, then let the worker alone go on. -/
theorem handed_reaches {pool : List W} {w : W} (member : w ∈ pool) {job : J} {n : Nat}
    {threads : W → Thread J} {t : Thread J} {program : List (Command W J)} {s : System W J}
    (between : Between threads (.assign w job :: .wake w :: program) s)
    (unlocked : (threads w).worker.locked = false)
    (run : runThread n ((threads w).push job).setAwake.unpark = some t) :
    ∃ u, Reaches (step pool) anyAction s u ∧ Between (Function.update threads w t) program u := by
  obtain ⟨v, call, called⟩ := call_reaches pool between unlocked
  obtain ⟨u, walk, ends⟩ := thread_reaches member called (by rw [Function.update_self]; exact run)
  rw [Function.update_idem] at ends
  exact ⟨u, call.trans walk, ends⟩

theorem handOut_reaches {pool : List W} {jobs : List (W × J)} {threads : W → Thread J}
    {program : List (Command W J)} {s : System W J}
    (members : ∀ x ∈ jobs, x.1 ∈ pool ∧ threads x.1 = suspended)
    (between : Between threads (handOut jobs ++ program) s) :
    ∃ u, Reaches (step pool) anyAction s u ∧ Between threads program u := by
  induction jobs generalizing s with
  | nil => exact ⟨s, .refl, between⟩
  | cons x rest ih =>
    obtain ⟨member, idle⟩ := members x List.mem_cons_self
    have first := handed_reaches member between (by rw [idle]; rfl)
      (by rw [idle]; exact suspended_works x.2)
    rw [← idle, Function.update_eq_self] at first
    apply between_trans first
    intro t reached
    exact ih (fun y later => members y (List.mem_cons_of_mem x later)) reached

theorem waitForAll_reaches (pool : List W) {waited : List W} {threads : W → Thread J}
    {program : List (Command W J)} {s : System W J}
    (asleep : ∀ w ∈ waited, (threads w).worker.locked = false ∧ (threads w).worker.awake = false)
    (between : Between threads (waitForAll waited ++ program) s) :
    ∃ u, Reaches (step pool) anyAction s u ∧ Between threads program u := by
  induction waited generalizing s with
  | nil => exact ⟨s, .refl, between⟩
  | cons w rest ih =>
    obtain ⟨unlocked, off⟩ := asleep w List.mem_cons_self
    apply between_trans (wait_reaches between unlocked off)
    intro t reached
    exact ih (fun v later => asleep v (List.mem_cons_of_mem w later)) reached

theorem subCycles_reaches {pool : List W} {work : List (List (W × J))}
    {program : List (Command W J)} {s : System W J}
    (members : ∀ jobs ∈ work, ∀ x ∈ jobs, x.1 ∈ pool)
    (between : Between (fun _ => suspended) (subCycles pool work ++ program) s) :
    ∃ u, Reaches (step pool) anyAction s u ∧ Between (fun _ => suspended) program u := by
  induction work generalizing s with
  | nil => exact ⟨s, .refl, between⟩
  | cons jobs rest ih =>
    rw [subCycles, List.flatMap_cons, ← subCycles, subCycle, List.append_assoc,
      List.append_assoc] at between
    apply between_trans (handOut_reaches
      (fun x among => ⟨members jobs List.mem_cons_self x among, rfl⟩) between)
    intro t handed
    apply between_trans (waitForAll_reaches pool (fun w _ => ⟨rfl, rfl⟩) handed)
    intro u waited
    exact ih (fun later among => members later (List.mem_cons_of_mem jobs among)) waited

/-- The last two jobs of some worker that gets several. -/
theorem duplicate_split {jobs : List (W × J)} (twice : ¬ (jobs.map Prod.fst).Nodup) :
    ∃ xs w job ys next zs, jobs = xs ++ (w, job) :: (ys ++ (w, next) :: zs) ∧
      w ∉ ys.map Prod.fst ∧ w ∉ zs.map Prod.fst := by
  induction jobs with
  | nil => exact absurd List.nodup_nil twice
  | cons x rest ih =>
    by_cases once : (rest.map Prod.fst).Nodup
    · have again : x.1 ∈ rest.map Prod.fst := by
        by_contra fresh
        exact twice (List.nodup_cons.mpr ⟨fresh, once⟩)
      obtain ⟨y, among, same⟩ := List.mem_map.mp again
      obtain ⟨ys, zs, eq⟩ := List.append_of_mem among
      obtain ⟨v, next⟩ := y
      cases same
      rw [eq, List.map_append, List.map_cons, List.perm_middle.nodup_iff, List.nodup_cons,
        List.mem_append, not_or] at once
      exact ⟨[], x.1, x.2, ys, next, zs, by rw [eq]; rfl, once.1.1, once.1.2⟩
    · obtain ⟨xs, w, job, ys, next, zs, eq, other⟩ := ih once
      exact ⟨x :: xs, w, job, ys, next, zs, by rw [eq]; rfl, other⟩

/-- A sub-cycle with two jobs for one worker can end with the second queued. -/
theorem duplicate_reaches {pool : List W} {jobs : List (W × J)} {program : List (Command W J)}
    {s : System W J} (members : ∀ x ∈ jobs, x.1 ∈ pool)
    (twice : ¬ (jobs.map Prod.fst).Nodup)
    (between : Between (fun _ => suspended) (subCycle pool jobs ++ program) s) :
    ∃ u w job, w ∈ pool ∧ Reaches (step pool) anyAction s u ∧
      Between (Function.update (fun _ => suspended) w (overslept job)) program u := by
  obtain ⟨xs, w, job, ys, next, zs, eq, early, late⟩ := duplicate_split twice
  have inside : ∀ x, x ∈ xs ∨ x = (w, job) ∨ x ∈ ys ∨ x ∈ zs → x.1 ∈ pool := by
    intro x among
    apply members x
    rw [eq]
    simp only [List.mem_append, List.mem_cons]
    tauto
  have member : w ∈ pool := inside (w, job) (Or.inr (Or.inl rfl))
  have away : ∀ t : Thread J, ∀ rest : List (W × J), w ∉ rest.map Prod.fst → ∀ x ∈ rest,
      Function.update (fun _ => suspended) w t x.1 = suspended := by
    intro t rest other x among
    rw [Function.update_of_ne]
    intro same
    exact other (List.mem_map.mpr ⟨x, among, same⟩)
  rw [subCycle, eq, handOut_append, handOut_cons, handOut_append, handOut_cons] at between
  simp only [List.append_assoc, List.cons_append] at between
  obtain ⟨s1, walk1, at1⟩ :=
    handOut_reaches (fun x among => ⟨inside x (Or.inl among), rfl⟩) between
  obtain ⟨s2, walk2, at2⟩ := handed_reaches member at1 rfl (suspended_clears job)
  obtain ⟨s3, walk3, at3⟩ := handOut_reaches (fun x among =>
    ⟨inside x (Or.inr (Or.inr (Or.inl among))), away clearing ys early x among⟩) at2
  obtain ⟨s4, walk4, at4⟩ := handed_reaches member at3 (by rw [Function.update_self]; rfl)
    (by rw [Function.update_self]; exact clearing_oversleeps next)
  rw [Function.update_idem] at at4
  obtain ⟨s5, walk5, at5⟩ := handOut_reaches (fun x among =>
    ⟨inside x (Or.inr (Or.inr (Or.inr among))), away (overslept next) zs late x among⟩) at4
  obtain ⟨s6, walk6, at6⟩ := waitForAll_reaches pool (fun v _ => by
    by_cases same : v = w
    · subst same
      rw [Function.update_self]
      exact ⟨rfl, rfl⟩
    · rw [Function.update_of_ne same]
      exact ⟨rfl, rfl⟩) at5
  exact ⟨s6, w, next, member,
    walk1.trans (walk2.trans (walk3.trans (walk4.trans (walk5.trans walk6)))), at6⟩

theorem duplicate_breaks {pool : List W} {work : List (List (W × J))}
    (members : ∀ jobs ∈ work, ∀ x ∈ jobs, x.1 ∈ pool) {jobs : List (W × J)} (among : jobs ∈ work)
    (twice : ¬ (jobs.map Prod.fst).Nodup) :
    ∃ s, Reaches (step pool) anyAction (start pool work) s ∧ ¬ Barrier pool work s := by
  obtain ⟨early, late, eq⟩ := List.append_of_mem among
  have begun : Between (fun _ => suspended)
      (subCycles pool early ++ (subCycle pool jobs ++ subCycles pool late)) (start pool work) := by
    constructor
    · rfl
    · rw [start, launch, eq, subCycles, List.flatMap_append, List.flatMap_cons]
      rfl
    · rfl
  obtain ⟨s, walk, at_⟩ := subCycles_reaches
    (fun other mem => members other (by rw [eq]; exact List.mem_append_left _ mem)) begun
  obtain ⟨u, w, job, member, more, ends⟩ := duplicate_reaches (members jobs among) twice at_
  refine ⟨u, walk.trans more, ?_⟩
  intro barrier
  have reached : AtBarrier pool work (early.length + 1) u := by
    constructor
    · exact ends.pc
    · rw [ends.program, eq]
      simp
  have empty := (barrier _ reached w member).1
  rw [ends.threads, Function.update_self] at empty
  cases empty

/-- The barrier and the order that follows from it. In every run in which a
    worker clears its flag only over jobs it was not yet woken for they hold
    in every state. They hold in all runs exactly if no sub-cycle gives a
    worker two jobs. -/
theorem subCycle_barrier (pool : List W) (work : List (List (W × J)))
    (members : ∀ jobs ∈ work, ∀ x ∈ jobs, x.1 ∈ pool) :
    (∀ s, Reaches (step pool) (ClearOk pool) (start pool work) s →
      Barrier pool work s ∧ InOrder pool work s) ∧
    ((∀ s, Reaches (step pool) anyAction (start pool work) s →
      Barrier pool work s ∧ InOrder pool work s) ↔
        ∀ jobs ∈ work, (jobs.map Prod.fst).Nodup) := by
  have guarded : ∀ s, Reaches (step pool) (ClearOk pool) (start pool work) s →
      Barrier pool work s ∧ InOrder pool work s := by
    intro s walk
    have barred := barred_reaches walk
    exact ⟨barred_barrier barred, barred_inOrder barred⟩
  constructor
  · exact guarded
  · constructor
    · intro always jobs among
      by_contra twice
      obtain ⟨s, walk, broken⟩ := duplicate_breaks members among twice
      exact broken (always s walk).1
    · intro once s walk
      exact guarded s (uncrowded_reaches once walk)

/-- Two sub-cycles on two workers. The first worker gets two jobs at once, and
    has been woken for both when it takes them. -/
theorem subCycle_barrier_two : ∃ s : System Bool Nat,
    Reaches (step [false, true]) (ClearOk [false, true])
      (start [false, true] [[(false, 0), (true, 1), (false, 2)], [(true, 3)]]) s ∧
      s.program = [] ∧
      s.log = [.started false 0, .ended false 0 false, .started false 2, .ended false 2 false,
        .started true 1, .ended true 1 false, .started true 3, .ended true 3 false] ∧
      Barrier [false, true] [[(false, 0), (true, 1), (false, 2)], [(true, 3)]] s ∧
      InOrder [false, true] [[(false, 0), (true, 1), (false, 2)], [(true, 3)]] s := by
  obtain ⟨s, walk, seen⟩ := runWithin_view (fun s => (s.program, s.log))
    (show (runWithin (step [false, true]) (ClearOk [false, true]) (List.replicate 18 .arbiter ++
      List.replicate 13 (.worker false false) ++ List.replicate 6 .arbiter ++
      List.replicate 4 (.worker false false) ++ List.replicate 11 (.worker true false) ++
      List.replicate 14 .arbiter ++ List.replicate 11 (.worker true false) ++
      List.replicate 3 .arbiter)
      (start [false, true] [[(false, 0), (true, 1), (false, 2)], [(true, 3)]])).map _ =
      some ([], [.started false 0, .ended false 0 false, .started false 2, .ended false 2 false,
        .started true 1, .ended true 1 false, .started true 3, .ended true 3 false]) by
      decide +kernel)
  obtain ⟨program, log⟩ := Prod.mk.inj seen
  exact ⟨s, walk, program, log, (subCycle_barrier [false, true] _ (by decide)).1 s walk⟩

/-- Two jobs for the first worker and a next sub-cycle on the second, which
    starts and ends while the first worker sleeps over its second job. -/
theorem second_job_overtaken : ∃ s : System Bool Nat,
    Reaches (step [false, true]) anyAction
      (start [false, true] [[(false, 0), (false, 1)], [(true, 2)]]) s ∧
      ¬ Barrier [false, true] [[(false, 0), (false, 1)], [(true, 2)]] s ∧
      ¬ InOrder [false, true] [[(false, 0), (false, 1)], [(true, 2)]] s := by
  obtain ⟨s, walk, seen⟩ := runActions_view
    (fun s => (s.pc, s.program, (s.threads false).worker.jobs, s.log))
    (show (runActions (step [false, true]) (List.replicate 5 .arbiter ++
      List.replicate 7 (.worker false false) ++ List.replicate 5 .arbiter ++
      List.replicate 8 (.worker false false) ++ List.replicate 11 .arbiter ++
      List.replicate 15 (.worker true false) ++ List.replicate 6 .arbiter)
      (start [false, true] [[(false, 0), (false, 1)], [(true, 2)]])).map _ =
      some (.ready, [], [1],
        [.started false 0, .ended false 0 false, .started true 2, .ended true 2 false]) by
      decide +kernel)
  simp only [Prod.mk.injEq] at seen
  obtain ⟨pc, program, jobs, log⟩ := seen
  refine ⟨s, walk, ?_, ?_⟩
  · intro barrier
    have empty := (barrier 2 ⟨pc, program⟩ false (by decide)).1
    rw [jobs] at empty
    cases empty
  · intro inOrder
    have ended := inOrder 1 true (by decide) [.started false 0, .ended false 0 false] 2
      (by rw [log]; exact ⟨[.ended true 2 false], rfl⟩) (by decide) false (by decide)
    revert ended
    decide

end SchedGap
