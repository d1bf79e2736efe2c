import Mathlib.Data.Finmap

/-!
The members of `sched::runner` that own workers and cores. The pool maps a
worker id to an owning pointer, which is null for an entry that `operator[]`
has just created.
-/
namespace SchedPool

/-- A constructed worker. An affinity of zero leaves the choice to the OS. -/
structure WorkerHandle where
  id : UInt32
  affinity : UInt64
  deriving DecidableEq, Repr

structure WorkerPool where
  unusedCores : UInt64
  workerIdCounter : UInt32
  workers : Finmap fun _ : UInt32 => Option WorkerHandle

/-- The pool holds exactly the workers below `n`, and the counter agrees. -/
structure StaticPool (n : UInt32) (pool : WorkerPool) : Prop where
  counter : pool.workerIdCounter = n
  positive : 0 < n
  present : ∀ id, id < n → ∃ w, pool.workers.lookup id = some (some w)
  absent : ∀ id, ¬ id < n → pool.workers.lookup id = none

theorem static_nonempty {n : UInt32} {pool : WorkerPool} (static : StaticPool n pool) :
    pool.workers ≠ ∅ := by
  intro empty
  obtain ⟨w, found⟩ := static.present 0 static.positive
  rw [empty] at found
  cases found

/-- Worker ids in the order in which the runner visits them. -/
def workerIds (n : UInt32) : List UInt32 := (List.range n.toNat).map UInt32.ofNat

theorem mem_workerIds (n id : UInt32) : id ∈ workerIds n ↔ id < n := by
  simp only [workerIds, List.mem_map, List.mem_range, UInt32.lt_iff_toNat_lt]
  constructor
  · rintro ⟨k, below, eq⟩
    subst eq
    have small : k < 2 ^ 32 := Nat.lt_trans below n.toNat_lt
    simpa [UInt32.toNat_ofNat_of_lt' small] using below
  · intro below
    exact ⟨id.toNat, below, UInt32.ofNat_toNat⟩

/-- A pool as `n` successful pushes leave it, with the affinities left out. -/
def filledPool (n : UInt32) : WorkerPool where
  unusedCores := 0
  workerIdCounter := n
  workers := (workerIds n).foldr (fun id pool => pool.insert id (some ⟨id, 0⟩)) ∅

theorem lookup_inserted (ids : List UInt32) (id : UInt32) :
    (ids.foldr (fun id pool => pool.insert id (some ⟨id, 0⟩))
      (∅ : Finmap fun _ : UInt32 => Option WorkerHandle)).lookup id =
        if id ∈ ids then some (some ⟨id, 0⟩) else none := by
  induction ids with
  | nil => simp
  | cons first rest ih =>
    by_cases same : id = first
    · subst same
      simp [Finmap.lookup_insert]
    · simp [Finmap.lookup_insert_of_ne _ same, ih, same]

theorem filledPool_static {n : UInt32} (positive : 0 < n) : StaticPool n (filledPool n) where
  counter := rfl
  positive := positive
  present := fun id below =>
    ⟨⟨id, 0⟩, by simp [filledPool, lookup_inserted, (mem_workerIds n id).mpr below]⟩
  absent := fun id above => by simp [filledPool, lookup_inserted, mem_workerIds, above]

end SchedPool
