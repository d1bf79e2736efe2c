import SteampunkGame.Sched.CoreConservation

/-!
What `start` leaves behind. It takes ids and cores one by one and gives none of
them back when it throws, and by the time a floating arbiter is to be pinned
the runner is active and the thread exists.
-/
namespace SchedAllOrNothing
open BitMask SchedPool SchedLifecycle SchedRunnerCalls SchedCores Runs

/-- The number of threads that are asked for, with the arbiter if it floats. -/
def requested (threadCount : Option UInt32) : UInt32 := threadCount.getD coreCount

/-- The runner is active with exactly the requested workers and a new arbiter,
    and each of these that is to be pinned has a core of its own. -/
structure Running (s t : RunnerState) (floating : Bool) (threadCount : Option UInt32) : Prop where
  active : t.active = true
  created : t.created = s.created + 1
  workers : (t.pool.workers.keys.card : Int) =
    (requested threadCount).toNat - if floating then 1 else 0
  workerCore : ∀ id ∈ t.pool.workers, ∃ c, held t (.worker id) = {c}
  arbiterCore : if floating then ∃ c, held t (.arbiter s.created) = {c}
    else t.arbiters s.created = some none
  own : Apart (held t)

/-- A call of `start` that throws has changed nothing. -/
def AllOrNothing (s : RunnerState) (floating : Bool) (threadCount : Option UInt32) : Prop :=
  match start s floating threadCount with
  | (.running, t) => Running s t floating threadCount
  | (.threw _, t) => t = s
  | (.terminated, _) => False

/-- No workers yet, a core for each thread, and a thread for the arbiter. -/
def Feasible (s : RunnerState) (floating : Bool) (threadCount : Option UInt32) : Prop :=
  s.pool.workers = ∅ ∧ (floating = true → requested threadCount ≠ 0) ∧
    (requested threadCount).toNat ≤ (cores s.pool.unusedCores).card

theorem card_cores_zero {mask : UInt64} : (cores mask).card = 0 ↔ mask = 0 := by
  rw [Finset.card_eq_zero, cores, bits_eq_empty]
  exact UInt64.toBitVec_inj (b := 0)

theorem card_insert_worker {workers : Finmap fun _ : UInt32 => Option WorkerHandle} {id : UInt32}
    (free : id ∉ workers) (entry : Option WorkerHandle) :
    (workers.insert id entry).keys.card = workers.keys.card + 1 := by
  have keys : (workers.insert id entry).keys = insert id workers.keys := by
    ext other
    simp [Finmap.mem_keys, Finmap.mem_insert]
  rw [keys, Finset.card_insert_of_notMem (fun there => free (Finmap.mem_keys.mp there))]

/-- A push in numbers. -/
theorem pushWorker_count {s : RunnerState} (owned : Owned s) :
    (∃ what pool, pushWorker s.pool = (.error what, pool) ∧
      (cores s.pool.unusedCores).card = 0 ∧
      pool.workerIdCounter = s.pool.workerIdCounter + 1) ∨
    ∃ pool, pushWorker s.pool = (.ok (), pool) ∧
      pool.workers.keys.card = s.pool.workers.keys.card + 1 ∧
      (cores pool.unusedCores).card + 1 = (cores s.pool.unusedCores).card ∧
      pool.workerIdCounter = s.pool.workerIdCounter + 1 := by
  rcases pushWorker_cases (counter_free owned) with ⟨spent, run⟩ | taken
  · exact Or.inl ⟨_, _, run, card_cores_zero.mpr spent, rfl⟩
  · obtain ⟨affinity, c, left, unspent, among, single, rest, run⟩ := taken
    exact Or.inr ⟨_, run, card_insert_worker (counter_free owned unspent) _,
      card_left among single rest, rfl⟩

/-- The loop of `start` in numbers. It either pushes all its workers, or throws
    at the first one without a core, with the counter ahead of where it was. -/
theorem pushWorkers_count (count : Nat) {s : RunnerState} (owned : Owned s) :
    (∃ pool, pushWorkers count s.pool = (.ok (), pool) ∧
      pool.workers.keys.card = s.pool.workers.keys.card + count ∧
      (cores pool.unusedCores).card + count = (cores s.pool.unusedCores).card) ∨
    ∃ what pool, pushWorkers count s.pool = (.error what, pool) ∧
      (cores s.pool.unusedCores).card < count ∧
      pool.workerIdCounter = s.pool.workerIdCounter +
        UInt32.ofNat ((cores s.pool.unusedCores).card + 1) := by
  induction count generalizing s with
  | zero => exact Or.inl ⟨_, rfl, rfl, rfl⟩
  | succ count ih =>
    have keeps := keeps_push owned
    rcases pushWorker_count owned with ⟨what, pool, run, spent, counter⟩ | pushed
    · right
      refine ⟨what, pool, by simp only [pushWorkers, run], by omega, ?_⟩
      rw [counter, spent]
      rfl
    · obtain ⟨pool, run, more, fewer, counter⟩ := pushed
      rw [run] at keeps
      have rest := ih keeps.owned
      dsimp only at rest
      rcases rest with ⟨after, ran, sum, left⟩ | ⟨what, after, ran, short, ahead⟩
      · left
        exact ⟨after, by simp only [pushWorkers, run, ran], by omega, by omega⟩
      · right
        refine ⟨what, after, by simp only [pushWorkers, run, ran], by omega, ?_⟩
        rw [ahead, counter, ← fewer]
        simp only [UInt32.ofNat_add]
        grind

theorem counter_moved {counter : UInt32} {free : Nat} (few : free ≤ 64) :
    counter + UInt32.ofNat (free + 1) ≠ counter := by
  intro same
  have zero : UInt32.ofNat (free + 1) = 0 := by grind
  have none := congrArg UInt32.toNat zero
  have small : free + 1 < 2 ^ 32 := by omega
  rw [UInt32.toNat_ofNat_of_lt' small, UInt32.toNat_zero] at none
  omega

theorem workerCount_requested (floating : Bool) (threadCount : Option UInt32) :
    workerCount floating threadCount =
      if floating then requested threadCount - 1 else requested threadCount := rfl

theorem requested_pred {count : UInt32} (some : count ≠ 0) :
    (count - 1).toNat + 1 = count.toNat := by
  have positive : count.toNat ≠ 0 := fun zero => some (UInt32.toNat_inj.mp zero)
  have one : (1 : UInt32) ≤ count := by
    rw [UInt32.le_iff_toNat_le, UInt32.toNat_one]
    omega
  rw [UInt32.toNat_sub_of_le _ _ one, UInt32.toNat_one]
  omega

/-- The runner after a call of `start` that goes through, in numbers. -/
structure Launched (s t : RunnerState) (floating : Bool) (threadCount : Option UInt32) : Prop where
  owned : Owned t
  active : t.active = true
  created : t.created = s.created + 1
  workers : t.pool.workers.keys.card =
    s.pool.workers.keys.card + (workerCount floating threadCount).toNat
  arbiter : if floating then ∃ mask, t.arbiters s.created = some (some mask)
    else t.arbiters s.created = some none

/-- All that `start` does on a runner that is not active, by whether there are
    enough cores. -/
theorem start_cases {s : RunnerState} (owned : Owned s) (idle : s.active = false) (floating : Bool)
    (threadCount : Option UInt32) :
    ((workerCount floating threadCount).toNat + (if floating then 1 else 0) ≤
        (cores s.pool.unusedCores).card ∧
      ∃ t, start s floating threadCount = (.running, t) ∧ Launched s t floating threadCount) ∨
    ((cores s.pool.unusedCores).card <
        (workerCount floating threadCount).toNat + (if floating then 1 else 0) ∧
      ((∃ what t, start s floating threadCount = (.threw what, t) ∧ t ≠ s) ∨
        ∃ t, start s floating threadCount = (.terminated, t))) := by
  have few := card_bits_le s.pool.unusedCores.toBitVec
  rcases pushWorkers_count (workerCount floating threadCount).toNat owned with
    ⟨pool, run, sum, left⟩ | ⟨what, pool, run, short, ahead⟩
  · cases floating with
    | false =>
      left
      have started : start s false threadCount = (.running,
          ⟨true, pool, Function.update s.arbiters s.created (some none), s.created + 1⟩) := by
        simp [start, idle, run]
      exact ⟨by simp; omega, _, started, (keeps_start owned started).owned, rfl, rfl, sum, by simp⟩
    | true =>
      rcases nextAffinityMask_cases pool with ⟨spent, pins⟩ | taken
      · right
        refine ⟨?_, Or.inr ⟨_, by simp only [start, idle, run, pins]; rfl⟩⟩
        have none := card_cores_zero.mpr spent
        simp only [if_true]
        omega
      · obtain ⟨affinity, c, rest, unspent, among, single, split, pins⟩ := taken
        left
        have started : start s true threadCount = (.running, ⟨true,
            { pool with unusedCores := rest },
            Function.update s.arbiters s.created (some (some affinity)), s.created + 1⟩) := by
          simp [start, idle, run, pins]
        have one := Finset.card_pos.mpr ⟨c, among⟩
        exact ⟨by simp; omega, _, started, (keeps_start owned started).owned, rfl, rfl, sum,
          by simp⟩
  · right
    refine ⟨by omega, Or.inl ⟨what, { s with pool := pool }, by simp [start, idle, run], ?_⟩⟩
    intro same
    have counter := congrArg (fun s => s.pool.workerIdCounter) same
    dsimp only at counter
    rw [ahead] at counter
    exact counter_moved few counter

theorem card_workers_zero {workers : Finmap fun _ : UInt32 => Option WorkerHandle} :
    workers.keys.card = 0 ↔ workers = ∅ := by
  constructor
  · intro none
    by_contra filled
    obtain ⟨id, entry, found⟩ := exists_lookup filled
    have there : id ∈ workers.keys := Finmap.mem_keys.mpr (Finmap.mem_iff.mpr ⟨entry, found⟩)
    rw [Finset.card_eq_zero.mp none] at there
    exact absurd there (Finset.notMem_empty id)
  · rintro rfl
    simp

/-- The cores that are needed are as many as the threads that are asked for,
    unless the count wraps. -/
theorem needed_cores {floating : Bool} {threadCount : Option UInt32}
    (unwrapped : floating = true → requested threadCount ≠ 0) :
    (workerCount floating threadCount).toNat + (if floating then 1 else 0) =
      (requested threadCount).toNat := by
  cases floating with
  | false => rfl
  | true => exact requested_pred (unwrapped rfl)

theorem launched_running {s t : RunnerState} {floating : Bool} {threadCount : Option UInt32}
    (launched : Launched s t floating threadCount) (empty : s.pool.workers = ∅)
    (unwrapped : floating = true → requested threadCount ≠ 0) :
    Running s t floating threadCount := by
  have needed := needed_cores unwrapped
  have workers := launched.workers
  rw [card_workers_zero.mpr empty] at workers
  refine ⟨launched.active, launched.created, ?_, ?_, ?_, launched.owned.apart⟩
  · cases floating <;> simp at needed ⊢ <;> omega
  · intro id there
    obtain ⟨entry, found⟩ := Finmap.mem_iff.mp there
    obtain ⟨w, c, rfl, single⟩ := launched.owned.single id entry found
    exact ⟨c, by simp only [held, found, entryCores, single]⟩
  · have arbiter := launched.arbiter
    cases floating with
    | false => exact arbiter
    | true =>
      obtain ⟨mask, pinned⟩ := arbiter
      obtain ⟨c, single⟩ := launched.owned.pinned _ mask pinned
      exact ⟨c, by simp only [held, pinned, arbiterCores, single]⟩

/-- In every state of a runner that is not active, whatever was called before,
    `start` is all or nothing exactly if it is feasible. -/
theorem start_all_or_nothing {initial : UInt64} {s : RunnerState}
    (walk : Reaches operate anyAction (newRunner initial) s) (idle : s.active = false)
    (floating : Bool) (threadCount : Option UInt32) :
    AllOrNothing s floating threadCount ↔ Feasible s floating threadCount := by
  have owned := (reaches_less walk (owned_new initial)).1
  have few := card_bits_le s.pool.unusedCores.toBitVec
  unfold AllOrNothing
  rcases start_cases owned idle floating threadCount with
    ⟨enough, t, run, launched⟩ | ⟨short, failed⟩
  · rw [run]
    constructor
    · intro running
      have unwrapped : floating = true → requested threadCount ≠ 0 := by
        rintro rfl none
        have most : (workerCount true threadCount).toNat = 4294967295 := by
          rw [workerCount_requested, none]
          rfl
        unfold cores at enough
        omega
      have needed := needed_cores unwrapped
      have exact_ := running.workers
      have pushed := launched.workers
      refine ⟨card_workers_zero.mp ?_, unwrapped, by omega⟩
      cases floating <;> simp at needed exact_ <;> omega
    · rintro ⟨empty, unwrapped, _⟩
      exact launched_running launched empty unwrapped
  · constructor
    · intro holds
      rcases failed with ⟨what, t, run, changed⟩ | ⟨t, run⟩
      · rw [run] at holds
        exact absurd holds changed
      · rw [run] at holds
        exact holds.elim
    · rintro ⟨_, unwrapped, enough⟩
      have needed := needed_cores unwrapped
      omega

/-- A first start with one worker and a floating arbiter. -/
theorem start_all_or_nothing_floating : AllOrNothing (newRunner initialMask) true (some 2) :=
  (@start_all_or_nothing initialMask _ .refl rfl true (some 2)).mpr
    ⟨rfl, by decide, by decide⟩

/-- Too many workers: the call throws after two pushes, and the same runner
    cannot be started with one worker any more. No threads but a floating
    arbiter: the count wraps. One core too few for the arbiter: the process
    ends with the runner active and the thread created. -/
theorem start_leaves_workers :
    (∃ t, start (newRunner initialMask) false (some 3) = (.threw "No more cores available", t) ∧
      t.pool.workers.keys.card = 2 ∧ t.pool.workerIdCounter = 3 ∧ t.pool.unusedCores = 0 ∧
      (start t false (some 1)).1 = .threw "No more cores available" ∧
      ¬ AllOrNothing (newRunner initialMask) false (some 3)) ∧
    (∃ t, start (newRunner initialMask) true (some 0) = (.threw "No more cores available", t) ∧
      t.pool.workers.keys.card = 2 ∧ workerCount true (some 0) = 4294967295 ∧
      ¬ AllOrNothing (newRunner initialMask) true (some 0)) ∧
    ∃ t, start (newRunner initialMask) true (some 3) = (.terminated, t) ∧ t.active = true ∧
      t.created = 1 ∧ ¬ AllOrNothing (newRunner initialMask) true (some 3) := by
  refine ⟨⟨_, rfl, rfl, rfl, rfl, rfl, ?_⟩, ⟨_, rfl, rfl, rfl, ?_⟩, ⟨_, rfl, rfl, rfl, id⟩⟩
  · intro same
    have counter := congrArg (fun s : RunnerState => s.pool.workerIdCounter) same
    revert counter
    decide
  · intro same
    have counter := congrArg (fun s : RunnerState => s.pool.workerIdCounter) same
    revert counter
    decide

end SchedAllOrNothing
