import Mathlib.Data.Finset.Lattice.Fold
import Mathlib.Order.Lattice.Nat
import SteampunkGame.Lib.BitMask
import SteampunkGame.Sched.RunnerCalls

/-!
Who has which core. `next_affinity_mask` takes cores out of the mask of unused
ones, and nothing ever puts one back.
-/
namespace SchedCores
open BitMask SchedPool SchedLifecycle SchedRunnerCalls Runs WhileLoop

def cores (mask : UInt64) : Finset (Fin 64) := bits mask.toBitVec

inductive Owner where
  | unused
  | worker (id : UInt32)
  | arbiter (k : Nat)
  deriving DecidableEq, Repr

def entryCores : Option (Option WorkerHandle) → Finset (Fin 64)
  | some (some w) => cores w.affinity
  | _ => ∅

def arbiterCores : Option (Option UInt64) → Finset (Fin 64)
  | some (some mask) => cores mask
  | _ => ∅

def held (s : RunnerState) : Owner → Finset (Fin 64)
  | .unused => cores s.pool.unusedCores
  | .worker id => entryCores (s.pool.workers.lookup id)
  | .arbiter k => arbiterCores (s.arbiters k)

/-- The unused cores, those of the workers in the pool and those of the
    arbiters that run are all cores, and no two of these meet. -/
def Conserved (initial : UInt64) (s : RunnerState) : Prop := Shares (cores initial) (held s)

/-- A pop finds no worker under its id, and an arbiter that shuts down does not
    float and finds no workers. -/
def StepOk (s : RunnerState) : Operation → Prop
  | .popWorker => s.pool.workerIdCounter - 1 ∉ s.pool.workers
  | .arbiterShutdown k => s.pool.workers = ∅ ∧ ∀ mask, s.arbiters k ≠ some (some mask)
  | _ => True

/-- How many workers below the counter come before this id when popping. -/
def depth (pool : WorkerPool) (id : UInt32) : Nat := (pool.workerIdCounter - 1 - id).toNat

/-- What holds in all runs. As long as there are unused cores there were few
    pushes, and no id can come round again. -/
structure Owned (s : RunnerState) : Prop where
  apart : Apart (held s)
  single : ∀ id entry, s.pool.workers.lookup id = some entry →
    ∃ w c, entry = some w ∧ cores w.affinity = {c}
  pinned : ∀ k mask, s.arbiters k = some (some mask) → ∃ c, cores mask = {c}
  unborn : ∀ k, s.created ≤ k → s.arbiters k = none
  near : s.pool.unusedCores ≠ 0 → ∀ id ∈ s.pool.workers,
    depth s.pool id + (cores s.pool.unusedCores).card ≤ 64

/-- All that `next_affinity_mask` does. -/
theorem nextAffinityMask_cases (pool : WorkerPool) :
    pool.unusedCores = 0 ∧
      nextAffinityMask pool = (.error "No more cores available", pool) ∨
    ∃ affinity c left, pool.unusedCores ≠ 0 ∧ c ∈ cores pool.unusedCores ∧ cores affinity = {c} ∧
      cores left = cores pool.unusedCores \ cores affinity ∧
      nextAffinityMask pool = (.ok affinity, { pool with unusedCores := left }) := by
  by_cases spent : pool.unusedCores = 0
  · exact Or.inl ⟨spent, by simp [nextAffinityMask, spent]⟩
  · have unspent : pool.unusedCores.toBitVec ≠ 0 := by
      intro zero
      exact spent (UInt64.toBitVec_inj.mp zero)
    obtain ⟨c, low⟩ := exists_lowest unspent
    refine Or.inr ⟨_, c, _, spent, low.1, bits_lowest low, bits_andNot _ _, ?_⟩
    simp only [nextAffinityMask, spent, if_false]
    rfl

theorem card_left {unused affinity left : UInt64} {c : Fin 64} (among : c ∈ cores unused)
    (single : cores affinity = {c}) (rest : cores left = cores unused \ cores affinity) :
    (cores left).card + 1 = (cores unused).card := by
  have own : ({c} : Finset (Fin 64)) ⊆ cores unused := Finset.singleton_subset_iff.mpr among
  have split := Finset.card_sdiff_add_card_eq_card own
  rwa [Finset.card_singleton, ← single, ← rest] at split

/-- All that `push_worker` does when the id it takes is free. -/
theorem pushWorker_cases {pool : WorkerPool}
    (free : pool.unusedCores ≠ 0 → pool.workerIdCounter ∉ pool.workers) :
    pool.unusedCores = 0 ∧ pushWorker pool = (.error "No more cores available",
      { pool with workerIdCounter := pool.workerIdCounter + 1 }) ∨
    ∃ affinity c left, pool.unusedCores ≠ 0 ∧ c ∈ cores pool.unusedCores ∧ cores affinity = {c} ∧
      cores left = cores pool.unusedCores \ cores affinity ∧
      pushWorker pool = (.ok (), ⟨left, pool.workerIdCounter + 1,
        pool.workers.insert pool.workerIdCounter (some ⟨pool.workerIdCounter, affinity⟩)⟩) := by
  have next := nextAffinityMask_cases { pool with workerIdCounter := pool.workerIdCounter + 1 }
  rcases next with ⟨spent, taken⟩ | ⟨affinity, c, left, unspent, among, single, rest, taken⟩
  · left
    exact ⟨spent, by simp only [pushWorker, taken]⟩
  · right
    refine ⟨affinity, c, left, unspent, among, single, rest, ?_⟩
    simp only [pushWorker, taken, free unspent, if_false]

theorem depth_push (pool : WorkerPool) {id : UInt32} (more : depth pool id < 4294967295)
    {after : WorkerPool} (counter : after.workerIdCounter = pool.workerIdCounter + 1) :
    depth after id = depth pool id + 1 := by
  have next : after.workerIdCounter - 1 - id = pool.workerIdCounter - 1 - id + 1 := by
    rw [counter]
    grind
  unfold depth at more ⊢
  rw [next, UInt32.toNat_add, UInt32.toNat_one]
  omega

theorem depth_pop (pool : WorkerPool) {id : UInt32} (other : pool.workerIdCounter - 1 ≠ id)
    {after : WorkerPool} (counter : after.workerIdCounter = pool.workerIdCounter - 1) :
    depth after id + 1 = depth pool id := by
  have next : after.workerIdCounter - 1 - id = pool.workerIdCounter - 1 - id - 1 := by
    rw [counter]
    grind
  have positive : (pool.workerIdCounter - 1 - id).toNat ≠ 0 := by
    intro zero
    have same : pool.workerIdCounter - 1 - id = 0 := UInt32.toNat_inj.mp zero
    exact other (by grind)
  have one : (1 : UInt32) ≤ pool.workerIdCounter - 1 - id := by
    rw [UInt32.le_iff_toNat_le, UInt32.toNat_one]
    omega
  unfold depth
  rw [next, UInt32.toNat_sub_of_le _ _ one, UInt32.toNat_one]
  omega

/-- The id that a push takes next is the last one that pops would come to. -/
theorem depth_counter (pool : WorkerPool) : depth pool pool.workerIdCounter = 4294967295 := by
  have last : pool.workerIdCounter - 1 - pool.workerIdCounter = 4294967295 := by grind
  unfold depth
  rw [last]
  rfl

theorem counter_free {s : RunnerState} (owned : Owned s) (unspent : s.pool.unusedCores ≠ 0) :
    s.pool.workerIdCounter ∉ s.pool.workers := by
  intro there
  have close := owned.near unspent _ there
  rw [depth_counter] at close
  omega

/-- One step of the runner that takes no core away from anyone but to give it
    to someone else. -/
structure Keeps (s t : RunnerState) : Prop where
  owned : Owned t
  held : ∀ c, Held (held t) c ↔ Held (held s) c

theorem keeps_trans {s t u : RunnerState} (first : Keeps s t) (second : Keeps t u) : Keeps s u :=
  ⟨second.owned, fun c => (second.held c).trans (first.held c)⟩

theorem keeps_refl {s : RunnerState} (owned : Owned s) : Keeps s s := ⟨owned, fun _ => Iff.rfl⟩

theorem keeps_push {s : RunnerState} (owned : Owned s) :
    Keeps s { s with pool := (pushWorker s.pool).2 } := by
  rcases pushWorker_cases (counter_free owned) with ⟨spent, run⟩ | taken
  · rw [run]
    exact ⟨⟨owned.apart, owned.single, owned.pinned, owned.unborn,
      fun unspent => absurd spent unspent⟩, fun _ => Iff.rfl⟩
  · obtain ⟨affinity, c, left, unspent, among, single, rest, run⟩ := taken
    rw [run]
    have free := counter_free owned unspent
    have absent : held s (.worker s.pool.workerIdCounter) = ∅ := by
      simp [held, entryCores, Finmap.lookup_eq_none.mpr free]
    have given : held { s with pool := ⟨left, s.pool.workerIdCounter + 1,
        s.pool.workers.insert s.pool.workerIdCounter
          (some ⟨s.pool.workerIdCounter, affinity⟩)⟩ } =
        give (held s) .unused (.worker s.pool.workerIdCounter) (cores affinity) := by
      funext owner
      cases owner with
      | unused => rw [give_src _ _ (by simp)]; exact rest
      | arbiter k => rw [give_other _ _ (by simp) (by simp)]; rfl
      | worker id =>
        by_cases here : id = s.pool.workerIdCounter
        · subst here
          rw [give_dst]
          simp [held, entryCores]
        · rw [give_other _ _ (by simp) (by simpa using here)]
          simp [held, Finmap.lookup_insert_of_ne _ here]
    have own : cores affinity ⊆ held s .unused := by
      rw [single]
      exact Finset.singleton_subset_iff.mpr among
    have fewer := card_left among single rest
    refine ⟨⟨?_, ?_, owned.pinned, owned.unborn, ?_⟩, ?_⟩
    · rw [given]
      exact apart_give owned.apart (by simp) own
    · intro id entry found
      by_cases here : id = s.pool.workerIdCounter
      · subst here
        rw [Finmap.lookup_insert] at found
        exact ⟨_, c, (Option.some.inj found).symm, single⟩
      · rw [Finmap.lookup_insert_of_ne _ here] at found
        exact owned.single id entry found
    · intro more id there
      dsimp only at there ⊢
      rcases Finmap.mem_insert.mp there with rfl | old
      · have most := card_bits_le s.pool.unusedCores.toBitVec
        have zero : depth ⟨left, s.pool.workerIdCounter + 1,
            s.pool.workers.insert s.pool.workerIdCounter
              (some ⟨s.pool.workerIdCounter, affinity⟩)⟩ s.pool.workerIdCounter = 0 := by
          have same : s.pool.workerIdCounter + 1 - 1 - s.pool.workerIdCounter = 0 := by grind
          unfold depth
          rw [same]
          rfl
        rw [zero]
        unfold cores at fewer ⊢
        omega
      · have close := owned.near unspent id old
        rw [depth_push s.pool (by omega) rfl]
        omega
    · intro core
      rw [given]
      exact held_give (by simp) own absent core

theorem keeps_pushWorkers (count : Nat) {s : RunnerState} (owned : Owned s) :
    Keeps s { s with pool := (pushWorkers count s.pool).2 } := by
  induction count generalizing s with
  | zero => exact keeps_refl owned
  | succ count ih =>
    have first := keeps_push owned
    simp only [pushWorkers]
    split
    · rename_i pool run
      rw [run] at first
      exact keeps_trans first (ih first.owned)
    · rename_i pool run
      rw [run] at first
      exact first

/-- Creating the arbiter thread, which has no core yet. -/
theorem keeps_create {s : RunnerState} (owned : Owned s) :
    Keeps s ⟨true, s.pool, Function.update s.arbiters s.created (some none), s.created + 1⟩ := by
  have same : held ⟨true, s.pool, Function.update s.arbiters s.created (some none),
      s.created + 1⟩ = held s := by
    funext owner
    cases owner with
    | unused => rfl
    | worker id => rfl
    | arbiter k =>
      by_cases here : k = s.created
      · subst here
        simp [held, arbiterCores, owned.unborn _ (Nat.le_refl _)]
      · simp [held, here]
  refine ⟨⟨by rw [same]; exact owned.apart, owned.single, ?_, ?_, owned.near⟩,
    fun c => by rw [same]⟩
  · intro k mask found
    by_cases here : k = s.created
    · subst here
      simp at found
    · dsimp only at found
      rw [Function.update_of_ne here] at found
      exact owned.pinned k mask found
  · intro k late
    dsimp only at late ⊢
    rw [Function.update_of_ne (by omega)]
    exact owned.unborn k (by omega)

/-- Pinning the arbiter thread that was created last. -/
theorem keeps_pin {s : RunnerState} (owned : Owned s) {k : Nat} (born : k < s.created)
    (bare : s.arbiters k = some none) {affinity : UInt64} {pool : WorkerPool}
    (run : nextAffinityMask s.pool = (.ok affinity, pool)) :
    Keeps s { s with
      pool := pool
      arbiters := Function.update s.arbiters k (some (some affinity)) } := by
  rcases nextAffinityMask_cases s.pool with ⟨_, threw⟩ | taken
  · rw [threw] at run
    cases run
  · obtain ⟨mask, c, left, unspent, among, single, rest, took⟩ := taken
    rw [took] at run
    cases run
    have own : cores affinity ⊆ held s .unused := by
      rw [single]
      exact Finset.singleton_subset_iff.mpr among
    have absent : held s (.arbiter k) = ∅ := by simp [held, bare, arbiterCores]
    have given : held { s with
        pool := { s.pool with unusedCores := left }
        arbiters := Function.update s.arbiters k (some (some affinity)) } =
        give (held s) .unused (.arbiter k) (cores affinity) := by
      funext owner
      cases owner with
      | unused => rw [give_src _ _ (by simp)]; exact rest
      | worker id => rw [give_other _ _ (by simp) (by simp)]; rfl
      | arbiter j =>
        by_cases here : j = k
        · subst here
          rw [give_dst]
          simp [held, arbiterCores]
        · rw [give_other _ _ (by simp) (by simpa using here)]
          simp [held, here]
    refine ⟨⟨?_, owned.single, ?_, ?_, ?_⟩, ?_⟩
    · rw [given]
      exact apart_give owned.apart (by simp) own
    · intro j other found
      by_cases here : j = k
      · subst here
        simp only [Function.update_self, Option.some.injEq] at found
        exact ⟨c, by rw [← found, single]⟩
      · dsimp only at found
        rw [Function.update_of_ne here] at found
        exact owned.pinned j other found
    · intro j late
      dsimp only at late ⊢
      rw [Function.update_of_ne (by omega)]
      exact owned.unborn j late
    · intro _ id there
      have close := owned.near unspent id there
      have fewer : (cores left).card ≤ (cores s.pool.unusedCores).card := by
        rw [rest]
        exact Finset.card_le_card Finset.sdiff_subset
      exact Nat.le_trans (Nat.add_le_add_left fewer _) close
    · intro core
      rw [given]
      exact held_give (by simp) own absent core

theorem keeps_start {s t : RunnerState} (owned : Owned s) {floating : Bool}
    {threadCount : Option UInt32} {result : StartResult}
    (run : start s floating threadCount = (result, t)) : Keeps s t := by
  unfold start at run
  split at run
  · cases run
    exact keeps_refl owned
  · have pushed := keeps_pushWorkers (workerCount floating threadCount).toNat owned
    split at run
    · rename_i what pool pushes
      rw [pushes] at pushed
      cases run
      exact pushed
    · rename_i pool pushes
      rw [pushes] at pushed
      have created := keeps_trans pushed (keeps_create pushed.owned)
      dsimp only at run created
      split at run
      · split at run
        · rename_i what after pins
          rcases nextAffinityMask_cases pool with ⟨_, same⟩ | ⟨_, _, _, _, _, _, _, took⟩
          · rw [same] at pins
            cases pins
            cases run
            exact created
          · rw [took] at pins
            cases pins
        · rename_i affinity after pins
          have pinned := keeps_pin created.owned (Nat.lt_succ_self _) (by simp) pins
          cases run
          simpa using keeps_trans created pinned
      · cases run
        exact created

/-- A step after which nobody has a core that was not theirs. -/
structure Loses (s t : RunnerState) : Prop where
  owned : Owned t
  less : ∀ owner, held t owner ⊆ held s owner

theorem popWorker_eq (pool : WorkerPool) : (popWorker pool).2 = { pool with
    workerIdCounter := pool.workerIdCounter - 1
    workers := pool.workers.erase (pool.workerIdCounter - 1) } := by
  by_cases empty : pool.workers = ∅
  · have nothing : (∅ : Finmap fun _ : UInt32 => Option WorkerHandle).erase
        (pool.workerIdCounter - 1) = ∅ := by
      apply Finmap.ext_lookup
      intro id
      by_cases here : id = pool.workerIdCounter - 1
      · subst here
        simp
      · simp [Finmap.lookup_erase_ne here]
    simp [popWorker, empty, nothing]
  · simp [popWorker, empty]

theorem loses_pop {s : RunnerState} (owned : Owned s) :
    Loses s { s with pool := (popWorker s.pool).2 } := by
  have less : ∀ owner, held { s with pool := (popWorker s.pool).2 } owner ⊆ held s owner := by
    intro owner
    rw [popWorker_eq]
    cases owner with
    | unused => exact Finset.Subset.refl _
    | arbiter k => exact Finset.Subset.refl _
    | worker id =>
      by_cases here : id = s.pool.workerIdCounter - 1
      · subst here
        simp [held, entryCores]
      · simp [held, Finmap.lookup_erase_ne here]
  refine ⟨⟨apart_lose owned.apart less, ?_, owned.pinned, owned.unborn, ?_⟩, less⟩
  · intro id entry found
    rw [popWorker_eq] at found
    dsimp only at found
    by_cases here : id = s.pool.workerIdCounter - 1
    · subst here
      simp at found
    · rw [Finmap.lookup_erase_ne here] at found
      exact owned.single id entry found
  · rw [popWorker_eq]
    intro unspent id there
    obtain ⟨other, there⟩ := Finmap.mem_erase.mp there
    have close := owned.near unspent id there
    have counter : (popWorker s.pool).2.workerIdCounter = s.pool.workerIdCounter - 1 := by
      rw [popWorker_eq]
    have shallower := depth_pop s.pool (Ne.symm other) counter
    rw [popWorker_eq] at shallower
    dsimp only at close ⊢
    omega

/-- The pops that the loop of the arbiter still makes. -/
def popsLeft (popped : Bool × WorkerPool) : Nat :=
  if popped.1 then (popped.2.workers.keys.sup fun id => depth popped.2 id + 1) + 1 else 0

theorem exists_lookup {workers : Finmap fun _ : UInt32 => Option WorkerHandle}
    (filled : workers ≠ ∅) : ∃ id entry, workers.lookup id = some entry := by
  by_contra nobody
  apply filled
  apply Finmap.ext_lookup
  intro id
  rw [Finmap.lookup_empty]
  cases found : workers.lookup id with
  | none => rfl
  | some entry => exact absurd ⟨id, entry, found⟩ nobody

theorem popsLeft_less (pool : WorkerPool) : popsLeft (popWorker pool) < popsLeft (true, pool) := by
  by_cases empty : pool.workers = ∅
  · simp [popsLeft, popWorker, empty]
  · obtain ⟨id, entry, found⟩ := exists_lookup empty
    have there : id ∈ pool.workers := Finmap.mem_iff.mpr ⟨entry, found⟩
    have bound : ∀ id ∈ pool.workers, depth pool id + 1 ≤
        pool.workers.keys.sup fun id => depth pool id + 1 := fun id there =>
      Finset.le_sup (f := fun id => depth pool id + 1) (Finmap.mem_keys.mpr there)
    have positive := bound id there
    have more : (popWorker pool).1 = true := by simp [popWorker, empty]
    have smaller : ((popWorker pool).2.workers.keys.sup fun id => depth (popWorker pool).2 id + 1) ≤
        (pool.workers.keys.sup fun id => depth pool id + 1) - 1 := by
      apply Finset.sup_le
      intro other left
      have remains := Finmap.mem_keys.mp left
      rw [popWorker_eq] at remains
      obtain ⟨apart, there⟩ := Finmap.mem_erase.mp remains
      have counter : (popWorker pool).2.workerIdCounter = pool.workerIdCounter - 1 := by
        rw [popWorker_eq]
      have shallower := depth_pop pool (Ne.symm apart) counter
      have within := bound other there
      omega
    simp only [popsLeft, more, if_true]
    omega

/-- The loop of the arbiter ends with an empty pool, and gives no core back. -/
theorem popWorkers_empties (pool : WorkerPool) : ∃ after,
    popWorkers pool = some (.ok (false, after)) ∧ after.workers = ∅ ∧
      after.unusedCores = pool.unusedCores := by
  have empties : ∀ pool : WorkerPool, (popWorker pool).1 = false →
      (popWorker pool).2.workers = ∅ := by
    intro pool last
    by_cases empty : pool.workers = ∅ <;> simp_all [popWorker]
  have budget : popsLeft (popWorker pool) ≤ 2 ^ 32 + 1 := by
    have deepest : ((popWorker pool).2.workers.keys.sup fun id => depth (popWorker pool).2 id + 1) ≤
        2 ^ 32 := by
      apply Finset.sup_le
      intro id _
      exact UInt32.toNat_lt _
    unfold popsLeft
    split <;> omega
  obtain ⟨popped, run, ⟨unchanged, done⟩, ended⟩ := whileLoop_total Prod.fst popAgain
    (fun popped => popped.2.unusedCores = pool.unusedCores ∧
      (popped.1 = false → popped.2.workers = ∅)) popsLeft (by
      intro popped keep more
      refine ⟨popWorker popped.2, rfl, ⟨?_, empties popped.2⟩, ?_⟩
      · rw [popWorker_eq]
        exact keep.1
      · have less := popsLeft_less popped.2
        rwa [← more] at less)
    ⟨by rw [popWorker_eq], empties pool⟩ budget
  obtain ⟨again, after⟩ := popped
  cases ended
  exact ⟨after, run, done rfl, unchanged⟩

theorem loses_shutdown {s : RunnerState} (owned : Owned s) (k : Nat) {after : WorkerPool}
    (empty : after.workers = ∅) (unchanged : after.unusedCores = s.pool.unusedCores) :
    Loses s { s with pool := after, arbiters := Function.update s.arbiters k none } := by
  have less : ∀ owner, held { s with
      pool := after
      arbiters := Function.update s.arbiters k none } owner ⊆ held s owner := by
    intro owner
    cases owner with
    | unused => simp [held, unchanged]
    | worker id => simp [held, empty, entryCores]
    | arbiter j => by_cases here : j = k <;> simp [held, here, arbiterCores]
  refine ⟨⟨apart_lose owned.apart less, ?_, ?_, ?_, ?_⟩, less⟩
  · intro id entry found
    simp [empty] at found
  · intro j mask found
    dsimp only at found
    by_cases here : j = k
    · simp [here] at found
    · rw [Function.update_of_ne here] at found
      exact owned.pinned j mask found
  · intro j late
    by_cases here : j = k
    · simp [here]
    · simpa [here] using owned.unborn j late
  · intro _ id there
    simp only [empty] at there
    exact absurd there Finmap.notMem_empty

/-- All that a shutdown does. -/
theorem shutdown_cases {s t : RunnerState} {k : Nat}
    (run : operate s (.arbiterShutdown k) = some t) : ∃ after,
    after.workers = ∅ ∧ after.unusedCores = s.pool.unusedCores ∧
      t = { s with pool := after, arbiters := Function.update s.arbiters k none } := by
  obtain ⟨after, popped, empty, unchanged⟩ := popWorkers_empties s.pool
  simp only [operate, popped] at run
  split at run
  · cases run
    exact ⟨after, empty, unchanged, rfl⟩
  · cases run

theorem start_result {s t : RunnerState} {floating : Bool} {threadCount : Option UInt32}
    (run : operate s (.start floating threadCount) = some t) :
    ∃ result, start s floating threadCount = (result, t) := by
  simp only [operate] at run
  split at run
  · cases run
  · rename_i result after _ began
    cases run
    exact ⟨result, began⟩

theorem keeps_of_held {s t : RunnerState} (owned : Owned t) (same : held t = held s) :
    Keeps s t := ⟨owned, fun _ => by rw [same]⟩

/-- The operations that only give cores to someone else. -/
theorem operate_keeps {s t : RunnerState} {a : Operation} (owned : Owned s) (ok : StepOk s a)
    (run : operate s a = some t) : Keeps s t := by
  cases a with
  | start floating threadCount =>
    obtain ⟨result, began⟩ := start_result run
    exact keeps_start owned began
  | pushWorker =>
    cases run
    exact keeps_push owned
  | popWorker =>
    cases run
    refine keeps_of_held (loses_pop owned).owned (funext fun owner => ?_)
    rw [popWorker_eq]
    cases owner with
    | unused => rfl
    | arbiter k => rfl
    | worker id =>
      by_cases here : id = s.pool.workerIdCounter - 1
      · subst here
        simp [held, entryCores, Finmap.lookup_eq_none.mpr ok]
      · simp [held, Finmap.lookup_erase_ne here]
  | stop | signalStop =>
    cases run
    exact ⟨⟨owned.apart, owned.single, owned.pinned, owned.unborn, owned.near⟩, fun _ => Iff.rfl⟩
  | arbiterShutdown k =>
    obtain ⟨after, empty, unchanged, rfl⟩ := shutdown_cases run
    refine keeps_of_held (loses_shutdown owned k empty unchanged).owned (funext fun owner => ?_)
    cases owner with
    | unused => simp [held, unchanged]
    | worker id => simp [held, empty, ok.1]
    | arbiter j =>
      by_cases here : j = k
      · subst here
        cases runs : s.arbiters j with
        | none => simp [held, runs]
        | some mask =>
          cases mask with
          | none => simp [held, runs, arbiterCores]
          | some mask => exact absurd runs (ok.2 mask)
      · simp [held, here]

/-- The others take a core from its holder. -/
theorem operate_loses {s t : RunnerState} {a : Operation} (owned : Owned s) (broken : ¬ StepOk s a)
    (run : operate s a = some t) :
    Loses s t ∧ ∃ owner c, c ∈ held s owner ∧ c ∉ held t owner := by
  cases a with
  | popWorker =>
    cases run
    refine ⟨loses_pop owned, ?_⟩
    simp only [StepOk, not_not] at broken
    obtain ⟨entry, found⟩ := Finmap.mem_iff.mp broken
    obtain ⟨w, c, rfl, single⟩ := owned.single _ entry found
    exact ⟨.worker (s.pool.workerIdCounter - 1), c, by simp [held, found, entryCores, single],
      by simp [held, popWorker_eq, entryCores]⟩
  | arbiterShutdown k =>
    obtain ⟨after, empty, unchanged, rfl⟩ := shutdown_cases run
    refine ⟨loses_shutdown owned k empty unchanged, ?_⟩
    by_cases workers : s.pool.workers = ∅
    · simp only [StepOk, workers, true_and, not_forall, not_not] at broken
      obtain ⟨mask, runs⟩ := broken
      obtain ⟨c, single⟩ := owned.pinned k mask runs
      exact ⟨.arbiter k, c, by simp [held, runs, arbiterCores, single],
        by simp [held, arbiterCores]⟩
    · obtain ⟨id, entry, found⟩ := exists_lookup workers
      obtain ⟨w, c, rfl, single⟩ := owned.single id entry found
      exact ⟨.worker id, c, by simp [held, found, entryCores, single],
        by simp [held, empty, entryCores]⟩
  | _ => exact absurd trivial broken

theorem operate_owned {s t : RunnerState} {a : Operation} (owned : Owned s)
    (run : operate s a = some t) : Owned t ∧ ∀ c, Held (held t) c → Held (held s) c := by
  by_cases ok : StepOk s a
  · have keeps := operate_keeps owned ok run
    exact ⟨keeps.owned, fun c => (keeps.held c).mp⟩
  · have loses := (operate_loses owned ok run).1
    exact ⟨loses.owned, fun c => held_lose loses.less⟩

theorem owned_new (initial : UInt64) : Owned (newRunner initial) := by
  refine ⟨?_, ?_, ?_, fun _ _ => rfl, ?_⟩
  · intro a b other
    cases a <;> cases b <;>
      simp [Function.onFun, held, newRunner, entryCores, arbiterCores] at other ⊢
  · intro id entry found
    simp [newRunner] at found
  · intro k mask found
    cases found
  · intro _ id there
    exact absurd there Finmap.notMem_empty

theorem held_new (initial : UInt64) (c : Fin 64) :
    Held (held (newRunner initial)) c ↔ c ∈ cores initial := by
  constructor
  · rintro ⟨owner, has⟩
    cases owner with
    | unused => exact has
    | worker id => simp [held, newRunner, entryCores] at has
    | arbiter k => simp [held, newRunner, arbiterCores] at has
  · intro among
    exact ⟨.unused, among⟩

/-- No core ever comes back. -/
theorem reaches_less {s t : RunnerState} (walk : Reaches operate anyAction s t) (owned : Owned s) :
    Owned t ∧ ∀ c, Held (held t) c → Held (held s) c := by
  refine reaches_invariant (I := fun u => Owned u ∧ ∀ c, Held (held u) c → Held (held s) c) ?_ walk
    ⟨owned, fun _ has => has⟩
  rintro u a v ⟨here, less⟩ _ run
  have next := operate_owned here run
  exact ⟨next.1, fun c has => less c (next.2 c has)⟩

/-- In runs of operations none of which destroys a worker or ends a floating
    arbiter all cores are accounted for. After any other operation they never
    are again. -/
theorem core_conservation (initial : UInt64) :
    (∀ s, Reaches operate StepOk (newRunner initial) s → Conserved initial s) ∧
    ∀ s a t, Reaches operate anyAction (newRunner initial) s → ¬ StepOk s a →
      operate s a = some t → ∀ u, Reaches operate anyAction t u → ¬ Conserved initial u := by
  constructor
  · intro s walk
    have keeps : Keeps (newRunner initial) s := by
      refine reaches_invariant ?_ walk (keeps_refl (owned_new initial))
      intro u a v before ok run
      exact keeps_trans before (operate_keeps before.owned ok run)
    refine ⟨keeps.owned.apart, ?_⟩
    intro c
    rw [keeps.held c, held_new]
  · intro s a t walk broken run u rest conserved
    obtain ⟨owned, less⟩ := reaches_less walk (owned_new initial)
    obtain ⟨loses, owner, c, had, gone⟩ := operate_loses owned broken run
    have lost := lost_apart owned.apart loses.less had gone
    have initially := (held_new initial c).mp (less c ⟨owner, had⟩)
    exact lost ((reaches_less rest loses.owned).2 c ((conserved.whole c).mp initially))

/-- Two workers and an arbiter that joins, and then a stop. -/
theorem core_conservation_stop : ∃ s, Reaches operate StepOk (newRunner initialMask) s ∧
    Conserved initialMask s ∧ s.active = false ∧ s.pool.unusedCores = 0 := by
  have run : ∃ s, Reaches operate StepOk (newRunner initialMask) s ∧ s.active = false ∧
      s.pool.unusedCores = 0 :=
    ⟨_, .head ⟨.start false none, trivial, rfl⟩ (.single ⟨.stop, trivial, rfl⟩), rfl, rfl⟩
  obtain ⟨s, walk, stopped, spent⟩ := run
  exact ⟨s, walk, (core_conservation initialMask).1 s walk, stopped, spent⟩

/-- One worker is pushed and popped; and a runner with a floating arbiter is
    started and stopped, and cannot be started again. -/
theorem popped_core_lost :
    (∃ s, runActions operate [.pushWorker, .popWorker] (newRunner initialMask) = some s ∧
      s.pool.workers = ∅ ∧ s.pool.unusedCores = 2 ∧ ¬ Conserved initialMask s) ∧
    ∃ s, runActions operate [.start true none, .stop, .arbiterShutdown 0]
        (newRunner initialMask) = some s ∧ s.pool.workers = ∅ ∧ s.pool.unusedCores = 0 ∧
      (start s true none).1 = .threw "No more cores available" := by
  have run : ∃ s, runActions operate [.pushWorker, .popWorker] (newRunner initialMask) = some s ∧
      s.pool.workers = ∅ ∧ s.pool.unusedCores = 2 ∧ s.arbiters = fun _ => none :=
    ⟨_, rfl, rfl, rfl, rfl⟩
  obtain ⟨s, taken, empty, left, arbiters⟩ := run
  refine ⟨⟨s, taken, empty, left, ?_⟩, ⟨_, rfl, rfl, rfl, rfl⟩⟩
  intro conserved
  obtain ⟨owner, has⟩ := (conserved.whole 0).mp (by decide)
  cases owner with
  | unused =>
    rw [held, left] at has
    revert has
    decide
  | worker id => simp [held, empty, entryCores] at has
  | arbiter k => simp [held, arbiters, arbiterCores] at has

end SchedCores
