import Mathlib.Algebra.Order.Ring.Nat
import SteampunkGame.Lib.WhileLoop

/-!
`game::write_job` run once a frame by a worker that catches exceptions. A
write is popped before it is called, so one that throws is not called again.
-/
namespace GameWriteJob
open WhileLoop
variable {I : Type}

/-- A write function by what its one call does: which writes enter the queue
    while it runs, and whether it ends with an exception. -/
inductive Write (I : Type) where
  | write (id : I) (enqueues : List (Write I)) (throws : Bool)

def Write.enqueues : Write I → List (Write I)
  | .write _ enqueues _ => enqueues

def Write.throws : Write I → Bool
  | .write _ _ throws => throws

/-- `enqueued` and `invoked` record the calls; the code has no such lists. -/
structure WriteJob (I : Type) where
  queue : List (Write I)
  locked : Bool
  enqueued : List (Write I)
  invoked : List (Write I)

def WriteJob.fresh : WriteJob I := ⟨[], false, [], []⟩

def WriteJob.enqueue (j : WriteJob I) (fn : Write I) : WriteJob I :=
  { j with queue := j.queue ++ [fn], enqueued := j.enqueued ++ [fn] }

/-- Pop the front write and call it. -/
def callNext (j : WriteJob I) : Except (WriteJob I) (WriteJob I) :=
  match j.queue with
  | [] => .ok j
  | fn :: rest =>
      let popped := { j with queue := rest, invoked := j.invoked ++ [fn] }
      let called := fn.enqueues.foldl WriteJob.enqueue popped
      if fn.throws then .error called else .ok called

mutual

/-- A weight of all writes that a write leads to, itself included. -/
def Write.weigh (value : Bool → Nat) : Write I → Nat
  | .write _ enqueues throws => value throws + weighAll value enqueues

def weighAll (value : Bool → Nat) : List (Write I) → Nat
  | [] => 0
  | fn :: rest => fn.weigh value + weighAll value rest

end

/-- How many writes are still to be called, or throw when they are. -/
def WriteJob.pending (j : WriteJob I) : Nat := weighAll (fun _ => 1) j.queue
def WriteJob.throwing (j : WriteJob I) : Nat := weighAll Bool.toNat j.queue

def WriteJob.unlock (j : WriteJob I) : WriteJob I := { j with locked := false }

/-- `none` while another thread holds the mutex. The guard releases it on both
    ways out; the fuel is enough for every write that is still to come. -/
def WriteJob.execute (j : WriteJob I) : Option (Except (WriteJob I) (WriteJob I)) :=
  if j.locked then none
  else
    match whileLoop (fun j => !j.queue.isEmpty) callNext j.pending { j with locked := true } with
    | none => none
    | some (.ok j) => some (.ok j.unlock)
    | some (.error j) => some (.error j.unlock)

/-- `execute` inside the `try` of `worker_main`. -/
def runOnWorker (j : WriteJob I) : Option (WriteJob I) :=
  match j.execute with
  | none => none
  | some (.ok j) => some j
  | some (.error j) => some j

/-- In each frame some writes come in from outside before the job is run. -/
def frames : List (List (Write I)) → WriteJob I → Option (WriteJob I)
  | [], j => some j
  | arrivals :: rest, j =>
      match runOnWorker (arrivals.foldl WriteJob.enqueue j) with
      | none => none
      | some j => frames rest j

/-- The order in which the writes come: in each frame those from outside, and
    then those that the calls of the frame enqueue. -/
def entries : List (List (Write I)) → List (List (Write I)) → List (Write I)
  | arrivals :: later, called :: rest =>
      arrivals ++ called.flatMap Write.enqueues ++ entries later rest
  | _, _ => []

/-- From `j` to `r` exactly the writes `done` were called, from the front of the
    queue, and what they enqueued stands behind what was there. -/
structure Ran (j : WriteJob I) (done : List (Write I)) (r : WriteJob I) : Prop where
  invoked : r.invoked = j.invoked ++ done
  enqueued : r.enqueued = j.enqueued ++ done.flatMap Write.enqueues
  queue : done ++ r.queue = j.queue ++ done.flatMap Write.enqueues

/-- A call that returns has emptied the queue, and one that throws has stopped
    behind the first write that threw. Both release the mutex. -/
def Drains (j : WriteJob I) : Prop :=
  (∃ r done, j.execute = some (.ok r) ∧ Ran j done r ∧ (∀ fn ∈ done, fn.throws = false) ∧
    r.queue = [] ∧ r.locked = false) ∨
  (∃ r done last, j.execute = some (.error r) ∧ Ran j (done ++ [last]) r ∧
    (∀ fn ∈ done, fn.throws = false) ∧ last.throws = true ∧ r.locked = false)

theorem weighAll_append (value : Bool → Nat) (xs ys : List (Write I)) :
    weighAll value (xs ++ ys) = weighAll value xs + weighAll value ys := by
  induction xs with
  | nil => simp [weighAll]
  | cons fn rest ih => simp [weighAll, ih, Nat.add_assoc]

theorem weigh_eq (value : Bool → Nat) (fn : Write I) :
    fn.weigh value = value fn.throws + weighAll value fn.enqueues := by
  cases fn
  rfl

theorem enqueue_all (j : WriteJob I) (arrivals : List (Write I)) :
    arrivals.foldl WriteJob.enqueue j =
      { j with queue := j.queue ++ arrivals, enqueued := j.enqueued ++ arrivals } := by
  induction arrivals generalizing j with
  | nil => simp
  | cons fn rest ih => simp [ih, WriteJob.enqueue]

/-- The weight of a queue drops by the value of the write that is called. -/
theorem called_weigh (value : Bool → Nat) (fn : Write I) (rest : List (Write I)) :
    weighAll value (fn :: rest) = value fn.throws + weighAll value (rest ++ fn.enqueues) := by
  rw [weighAll, weigh_eq, weighAll_append]
  omega

theorem ran_weigh {j r : WriteJob I} {done : List (Write I)} (ran : Ran j done r)
    (value : Bool → Nat) :
    weighAll value j.queue = (done.map fun fn => value fn.throws).sum + weighAll value r.queue := by
  have parts : weighAll value done =
      (done.map fun fn => value fn.throws).sum + weighAll value (done.flatMap Write.enqueues) := by
    generalize done = called
    induction called with
    | nil => rfl
    | cons fn rest ih =>
      simp only [weighAll, weigh_eq, ih, List.map_cons, List.sum_cons, List.flatMap_cons,
        weighAll_append]
      omega
  have whole := congrArg (weighAll value) ran.queue
  rw [weighAll_append, weighAll_append] at whole
  omega

theorem ran_start (j : WriteJob I) : Ran j [] { j with locked := true } := by
  constructor <;> simp

theorem ran_unlock {j r : WriteJob I} {done : List (Write I)} (ran : Ran j done r) :
    Ran j done r.unlock := ⟨ran.invoked, ran.enqueued, ran.queue⟩

/-- One more call. It is the same for a write that throws. -/
theorem ran_called {j s : WriteJob I} {done rest : List (Write I)} {fn : Write I}
    (ran : Ran j done s) (front : s.queue = fn :: rest) :
    Ran j (done ++ [fn]) (fn.enqueues.foldl WriteJob.enqueue
      { s with queue := rest, invoked := s.invoked ++ [fn] }) := by
  obtain ⟨invoked, enqueued, queue⟩ := ran
  rw [front] at queue
  rw [enqueue_all]
  constructor
  · simp [invoked]
  · simp [enqueued]
  · simp only [List.flatMap_append, List.flatMap_cons, List.flatMap_nil, List.append_nil]
    calc done ++ [fn] ++ (rest ++ fn.enqueues)
        = (done ++ fn :: rest) ++ fn.enqueues := by simp
      _ = j.queue ++ (done.flatMap Write.enqueues ++ fn.enqueues) := by
        rw [queue, List.append_assoc]

theorem pending_called {s : WriteJob I} {rest : List (Write I)} {fn : Write I}
    (front : s.queue = fn :: rest) :
    s.pending = 1 + (fn.enqueues.foldl WriteJob.enqueue
      { s with queue := rest, invoked := s.invoked ++ [fn] }).pending := by
  rw [WriteJob.pending, front, called_weigh, enqueue_all]
  rfl

/-- The loop of `execute` is over after as many calls as writes are pending. -/
theorem execute_drains {j : WriteJob I} (free : j.locked = false) : Drains j := by
  have loop := whileLoop_ends (fun s : WriteJob I => !s.queue.isEmpty) callNext
    (fun s => ∃ done, Ran j done s ∧ ∀ fn ∈ done, fn.throws = false)
    (fun s => ∃ done last, Ran j (done ++ [last]) s ∧ (∀ fn ∈ done, fn.throws = false) ∧
      last.throws = true) WriteJob.pending ?_ ⟨[], ran_start j, by simp⟩ (Nat.le_refl j.pending)
  · rcases loop with ⟨r, run, ⟨done, ran, quiet⟩, stop⟩ | ⟨r, run, done, last, ran, quiet, threw⟩
    · have empty : r.queue = [] := by simpa using stop
      refine Or.inl ⟨r.unlock, done, ?_, ran_unlock ran, quiet, empty, rfl⟩
      simp only [WriteJob.execute, free, Bool.false_eq_true, if_false, run]
    · refine Or.inr ⟨r.unlock, done, last, ?_, ran_unlock ran, quiet, threw, rfl⟩
      simp only [WriteJob.execute, free, Bool.false_eq_true, if_false, run]
  · rintro s ⟨done, ran, quiet⟩ filled
    cases front : s.queue with
    | nil => simp [front] at filled
    | cons fn rest =>
      have called := ran_called ran front
      have less := pending_called front
      cases throws : fn.throws with
      | false =>
        refine Or.inl ⟨_, by simp [callNext, front, throws], ⟨done ++ [fn], called, ?_⟩, by omega⟩
        intro other among
        rcases List.mem_append.mp among with earlier | here
        · exact quiet other earlier
        · rw [List.mem_singleton.mp here, throws]
      | true =>
        exact Or.inr ⟨_, by simp [callNext, front, throws],
          ⟨done, fn, called, quiet, throws⟩, by omega⟩

/-- Between calls the mutex is free, and every write that ever entered the
    queue was called or is still in it, in the order of its entry. -/
structure Kept (j : WriteJob I) : Prop where
  free : j.locked = false
  order : j.enqueued = j.invoked ++ j.queue

theorem kept_fresh : Kept (WriteJob.fresh : WriteJob I) := ⟨rfl, rfl⟩

theorem kept_arrivals {j : WriteJob I} (kept : Kept j) (arrivals : List (Write I)) :
    Kept (arrivals.foldl WriteJob.enqueue j) := by
  rw [enqueue_all]
  exact ⟨kept.free, by rw [kept.order, List.append_assoc]⟩

theorem kept_ran {j r : WriteJob I} {done : List (Write I)} (kept : Kept j) (ran : Ran j done r)
    (released : r.locked = false) : Kept r := by
  refine ⟨released, ?_⟩
  rw [ran.enqueued, ran.invoked, kept.order, List.append_assoc, List.append_assoc, ran.queue]

/-- One frame: it keeps the order, and ends with an empty queue or with fewer
    writes that will throw. -/
theorem frame_kept {j : WriteJob I} (kept : Kept j) : ∃ r, runOnWorker j = some r ∧ Kept r ∧
    (r.queue = [] ∨ r.throwing < j.throwing) := by
  rcases execute_drains kept.free with ⟨r, done, run, ran, _, empty, released⟩ |
    ⟨r, done, last, run, ran, _, threw, released⟩
  · exact ⟨r, by rw [runOnWorker, run], kept_ran kept ran released, Or.inl empty⟩
  · refine ⟨r, by rw [runOnWorker, run], kept_ran kept ran released, Or.inr ?_⟩
    have weights := ran_weigh ran Bool.toNat
    simp only [List.map_append, List.map_cons, List.map_nil, List.sum_append, List.sum_cons,
      threw, Bool.toNat_true, List.sum_nil] at weights
    rw [WriteJob.throwing, WriteJob.throwing]
    omega

theorem entries_append {first later called rest : List (List (Write I))}
    (same : called.length = first.length) :
    entries (first ++ later) (called ++ rest) = entries first called ++ entries later rest := by
  induction first generalizing called with
  | nil =>
    rw [List.length_eq_zero_iff.mp same]
    rfl
  | cons arrivals first ih =>
    cases called with
    | nil => cases same
    | cons here called =>
      simp only [List.cons_append, entries, ih (Nat.succ.inj same), List.append_assoc]

/-- What the frames have called so far, frame by frame, and that the queue holds
    the rest of what has come. -/
structure Served (arrivals called : List (List (Write I))) (j : WriteJob I) : Prop where
  frames : called.length = arrivals.length
  invoked : j.invoked = called.flatten
  order : j.invoked ++ j.queue = entries arrivals called

theorem served_fresh : Served [] [] (WriteJob.fresh : WriteJob I) := ⟨rfl, rfl, rfl⟩

theorem served_frame {arrivals called : List (List (Write I))} {j r : WriteJob I}
    (served : Served arrivals called j) {more done : List (Write I)}
    (ran : Ran (more.foldl WriteJob.enqueue j) done r) :
    Served (arrivals ++ [more]) (called ++ [done]) r := by
  obtain ⟨frames, invoked, order⟩ := served
  rw [enqueue_all] at ran
  have calls : r.invoked = j.invoked ++ done := ran.invoked
  have queue : done ++ r.queue = j.queue ++ more ++ done.flatMap Write.enqueues := ran.queue
  refine ⟨by simp [frames], ?_, ?_⟩
  · rw [calls, invoked, List.flatten_concat]
  · calc r.invoked ++ r.queue
        = j.invoked ++ (done ++ r.queue) := by rw [calls, List.append_assoc]
      _ = entries arrivals called ++ (more ++ done.flatMap Write.enqueues) := by
        rw [queue, ← order]
        simp only [List.append_assoc]
      _ = entries (arrivals ++ [more]) (called ++ [done]) := by
        rw [entries_append frames]
        simp [entries]

/-- A frame never blocks, and the writes it calls are from the front of the
    queue. -/
theorem frame_ran {j : WriteJob I} (free : j.locked = false) :
    ∃ r done, runOnWorker j = some r ∧ Ran j done r ∧ r.locked = false := by
  rcases execute_drains free with ⟨r, done, run, ran, _, _, released⟩ |
    ⟨r, done, last, run, ran, _, _, released⟩
  · exact ⟨r, done, by rw [runOnWorker, run], ran, released⟩
  · exact ⟨r, done ++ [last], by rw [runOnWorker, run], ran, released⟩

/-- The frames go on where others have stopped. -/
theorem frames_served {arrivals called : List (List (Write I))} {j : WriteJob I} (kept : Kept j)
    (served : Served arrivals called j) (more : List (List (Write I))) :
    ∃ r later, frames more j = some r ∧ Kept r ∧ later.length = more.length ∧
      Served (arrivals ++ more) (called ++ later) r ∧
      ∀ i, (frames (more.take i) j).map WriteJob.invoked =
        some (called ++ later.take i).flatten := by
  induction more generalizing arrivals called j with
  | nil =>
    refine ⟨j, [], rfl, kept, rfl, ?_, fun i => ?_⟩
    · rwa [List.append_nil, List.append_nil]
    · rw [List.take_nil, frames, Option.map_some, served.invoked, List.append_nil]
  | cons first more ih =>
    have there := kept_arrivals kept first
    obtain ⟨next, done, run, ran, released⟩ := frame_ran there.free
    obtain ⟨r, later, ends, last, size, total, each⟩ :=
      ih (kept_ran there ran released) (served_frame served ran)
    refine ⟨r, done :: later, ?_, last, by rw [List.length_cons, size, List.length_cons], ?_, ?_⟩
    · rw [frames, run]
      exact ends
    · simpa [List.append_assoc] using total
    · intro i
      cases i with
      | zero =>
        rw [List.take_zero, List.take_zero, List.append_nil, ← served.invoked]
        rfl
      | succ i =>
        have rest := each i
        rw [List.append_assoc] at rest
        rw [List.take_succ_cons, List.take_succ_cons, frames, run]
        exact rest

/-- When nothing more comes from outside, each frame but the last one ends at
    a write that throws. -/
theorem frames_empty {j : WriteJob I} (kept : Kept j) {k : Nat} (enough : j.throwing < k) :
    ∃ r, frames (List.replicate k []) j = some r ∧ Kept r ∧ r.queue = [] := by
  induction k generalizing j with
  | zero => omega
  | succ k ih =>
    obtain ⟨next, run, again, ends⟩ := frame_kept kept
    simp only [List.replicate_succ, frames, List.foldl_nil, run]
    cases k with
    | zero =>
      rcases ends with empty | less
      · exact ⟨next, rfl, again, empty⟩
      · omega
    | succ k =>
      apply ih again
      rcases ends with empty | less
      · rw [WriteJob.throwing, empty, weighAll]
        omega
      · omega

/-- Any frames with any writes. The calls are made in the order in which the
    writes come, from outside or from other writes, and what has come and was
    not called is queued in this order. The next call drains the queue, and when
    no more come from outside all are called after as many frames as writes can
    throw, and one. -/
theorem write_queue_drain (arrivals : List (List (Write I))) :
    ∃ j called, frames arrivals WriteJob.fresh = some j ∧ j.locked = false ∧
      called.length = arrivals.length ∧
      (∀ i, (frames (arrivals.take i) WriteJob.fresh).map WriteJob.invoked =
        some (called.take i).flatten) ∧
      j.invoked ++ j.queue = entries arrivals called ∧
      j.enqueued = j.invoked ++ j.queue ∧
      (∀ more : List (Write I), Drains (more.foldl WriteJob.enqueue j) ∧
        (more.foldl WriteJob.enqueue j).queue = j.queue ++ more) ∧
      ∀ k, j.throwing < k → ∃ r later, frames (List.replicate k []) j = some r ∧
        later.length = k ∧ r.queue = [] ∧ r.invoked = r.enqueued ∧
        r.invoked = entries (arrivals ++ List.replicate k []) (called ++ later) := by
  obtain ⟨j, called, run, kept, size, served, each⟩ :=
    frames_served kept_fresh served_fresh arrivals
  refine ⟨j, called, run, kept.free, size, each, served.order, kept.order, ?_, ?_⟩
  · intro more
    exact ⟨execute_drains (kept_arrivals kept more).free, by rw [enqueue_all]⟩
  · intro k enough
    obtain ⟨r, ends, last, empty⟩ := frames_empty kept enough
    obtain ⟨r', later, again, _, count, total, _⟩ :=
      frames_served kept served (List.replicate k [])
    cases again.symm.trans ends
    have order := total.order
    rw [empty, List.append_nil] at order
    refine ⟨r, later, ends, by rw [count, List.length_replicate], empty, ?_, order⟩
    rw [last.order, empty, List.append_nil]

/-- The first write enqueues one and throws, so two are left to the next frame. -/
def thrownBetween : List (List (Write Nat)) :=
  [[.write 0 [.write 2 [] false] true, .write 1 [] false], [.write 3 [] false]]

theorem write_queue_drain_throwing : ∃ (j : WriteJob Nat) (called : List (List (Write Nat))),
    frames thrownBetween WriteJob.fresh = some j ∧
      called.map List.length = [1, 3] ∧ entries thrownBetween called = j.invoked ∧
      j.invoked = [.write 0 [.write 2 [] false] true, .write 1 [] false, .write 2 [] false,
        .write 3 [] false] := by
  obtain ⟨j, called, run, _, size, each, order, _⟩ := write_queue_drain thrownBetween
  have first : [Write.write 0 [.write 2 [] false] true] = (called.take 1).flatten :=
    Option.some.inj (each 1)
  have both : [Write.write 0 [.write 2 [] false] true, .write 1 [] false, .write 2 [] false,
      .write 3 [] false] = (called.take 2).flatten := Option.some.inj (each 2)
  cases run
  match called, size with
  | [a, b], _ =>
    have sizes := congrArg List.length first
    have more := congrArg List.length both
    simp at sizes more
    refine ⟨_, [a, b], rfl, ?_, order.symm.trans (List.append_nil _), rfl⟩
    simp only [List.map_cons, List.map_nil, List.cons.injEq, and_true]
    omega

end GameWriteJob
