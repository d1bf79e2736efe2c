import SteampunkGame.Sched.Runner
import Mathlib.Algebra.BigOperators.Group.Finset.Basic
import Mathlib.Algebra.GroupWithZero.Nat

/-!
The stack walk of `job_count`. Each visit adds the children of the children,
so the count runs one level ahead of the walk; the invariant charges what a
stacked job still owes to it.
-/
namespace SchedJobCount
open LevelOrder WhileLoop SchedJob SchedRunner
variable {J : Type}

/-- Proper descendants within `bound` levels, one for each path. -/
def below (children : J → List J) (bound : Nat) (j : J) : Nat :=
  ∑ d ∈ Finset.range bound, (ends children (d + 1) j).length

def sumOf (f : J → Nat) (js : List J) : Nat := (js.map f).sum

theorem sumOf_append (f : J → Nat) (xs ys : List J) :
    sumOf f (xs ++ ys) = sumOf f xs + sumOf f ys := by
  simp [sumOf]

theorem sumOf_reverse (f : J → Nat) (xs : List J) : sumOf f xs.reverse = sumOf f xs := by
  simp [sumOf, List.map_reverse, List.sum_reverse]

theorem sumOf_add (f g : J → Nat) (xs : List J) :
    sumOf (fun j => f j + g j) xs = sumOf f xs + sumOf g xs := by
  induction xs with
  | nil => rfl
  | cons x xs ih =>
    simp only [sumOf, List.map_cons, List.sum_cons] at ih ⊢
    omega

theorem ends_exhausted {children : J → List J} {verts : Finset J}
    (closed : ∀ j ∈ verts, ∀ c ∈ children j, c ∈ verts) (acyclic : AcyclicOn children verts)
    {d : Nat} (deep : verts.card ≤ d) {j : J} (mem : j ∈ verts) : ends children d j = [] := by
  have spans : Spans children [j] verts := ⟨by simpa using mem, closed⟩
  simpa [level_eq_ends] using level_exhausted spans acyclic deep

theorem sum_flatMap_length (f : Nat → J → List J) (bound : Nat) (xs : List J) :
    ∑ d ∈ Finset.range bound, (xs.flatMap (f d)).length =
      sumOf (fun j => ∑ d ∈ Finset.range bound, (f d j).length) xs := by
  induction xs with
  | nil => simp [sumOf]
  | cons x xs ih =>
    simp only [List.flatMap_cons, List.length_append, Finset.sum_add_distrib, ih, sumOf,
      List.map_cons, List.sum_cons]

theorem sumOf_congr {f g : J → Nat} {xs : List J} (same : ∀ x ∈ xs, f x = g x) :
    sumOf f xs = sumOf g xs := by
  unfold sumOf
  rw [List.map_congr_left same]

theorem sumOf_succ (f : J → Nat) (xs : List J) :
    sumOf (fun j => 1 + f j) xs = xs.length + sumOf f xs := by
  rw [sumOf_add]
  simp [sumOf]

/-- A vertex and its descendants, counted level by level. -/
theorem ends_sum {children : J → List J} {verts : Finset J}
    (closed : ∀ j ∈ verts, ∀ c ∈ children j, c ∈ verts) (acyclic : AcyclicOn children verts)
    {j : J} (mem : j ∈ verts) :
    ∑ d ∈ Finset.range verts.card, (ends children d j).length =
      1 + below children verts.card j := by
  have shift := Finset.sum_range_succ' (fun d => (ends children d j).length) verts.card
  have last := Finset.sum_range_succ (fun d => (ends children d j).length) verts.card
  rw [ends_exhausted closed acyclic (Nat.le_refl _) mem] at last
  simp only [ends_zero, List.length_singleton, List.length_nil] at shift last
  unfold below
  omega

theorem below_eq_children {children : J → List J} {verts : Finset J}
    (closed : ∀ j ∈ verts, ∀ c ∈ children j, c ∈ verts) (acyclic : AcyclicOn children verts)
    {j : J} (mem : j ∈ verts) :
    below children verts.card j =
      sumOf (fun c => 1 + below children verts.card c) (children j) := by
  have expand : below children verts.card j = ∑ d ∈ Finset.range verts.card,
      ((children j).flatMap (ends children d)).length := by
    simp only [below, ends_succ]
  rw [expand, sum_flatMap_length]
  exact sumOf_congr fun c child => ends_sum closed acyclic (closed j mem c child)

theorem countPush (g : JobGraph J) (js : List J) (c : Counting J) :
    js.foldl (fun c job => ⟨c.size + (g.children job).length, job :: c.subJobs⟩) c =
      (⟨c.size + sumOf (fun j => (g.children j).length) js, js.reverse ++ c.subJobs⟩ :
        Counting J) := by
  induction js generalizing c with
  | nil => simp [sumOf]
  | cons j js ih =>
    rw [List.foldl_cons, ih]
    simp [sumOf, Nat.add_assoc]

/-- What a stacked job will still add to the count: its children's children
    and everything under them. -/
def owed (children : J → List J) (bound : Nat) (j : J) : Nat :=
  sumOf (below children bound) (children j)

theorem countStep_eq (g : JobGraph J) (size : Nat) (current : J) (rest : List J) :
    countStep g ⟨size, current :: rest⟩ =
      .ok ⟨size + sumOf (fun j => (g.children j).length) (g.children current),
        (g.children current).reverse ++ rest⟩ := by
  simp only [countStep, countPush]

/-- Every state of the walk, with the total that it will arrive at. -/
structure Walking (r : Runner J) (verts : Finset J) (total : Nat) (c : Counting J) : Prop where
  within : ∀ j ∈ c.subJobs, j ∈ verts
  balance : c.size + sumOf (owed r.graph.children verts.card) c.subJobs = total

theorem walking_step {r : Runner J} {verts : Finset J} {total : Nat}
    (closed : ∀ j ∈ verts, ∀ c ∈ r.graph.children j, c ∈ verts)
    (acyclic : AcyclicOn r.graph.children verts) {size : Nat} {current : J} {rest : List J}
    (walking : Walking r verts total ⟨size, current :: rest⟩) :
    Walking r verts total
      ⟨size + sumOf (fun j => (r.graph.children j).length) (r.graph.children current),
        (r.graph.children current).reverse ++ rest⟩ := by
  have here := walking.within current (by simp)
  constructor
  · intro j mem
    rcases List.mem_append.mp mem with child | old
    · exact closed current here j (List.mem_reverse.mp child)
    · exact walking.within j (List.mem_cons_of_mem current old)
  · have paid : owed r.graph.children verts.card current =
        sumOf (fun j => (r.graph.children j).length) (r.graph.children current) +
          sumOf (owed r.graph.children verts.card) (r.graph.children current) := by
      rw [← sumOf_add, owed]
      refine sumOf_congr fun c child => ?_
      rw [below_eq_children closed acyclic (closed current here c child), sumOf_succ, owed]
    have balance := walking.balance
    simp only [sumOf, List.map_cons, List.sum_cons] at balance
    simp only [sumOf_append, sumOf_reverse]
    simp only [sumOf] at paid ⊢
    omega

/-- The walk terminates and returns the size of all levels together. -/
theorem jobCount_levels {r : Runner J} {verts : Finset J}
    (spans : Spans r.graph.children r.rootJobs verts)
    (acyclic : AcyclicOn r.graph.children verts) {fuel : Nat}
    (enough : sumOf (fun j => 1 + below r.graph.children verts.card j) r.rootJobs ≤ fuel) :
    jobCount fuel r = some (∑ d ∈ Finset.range verts.card,
      (level r.graph.children d r.rootJobs).length) := by
  have roots : countRoots r.graph r.rootJobs =
      ⟨r.rootJobs.length + sumOf (fun j => (r.graph.children j).length) r.rootJobs,
        r.rootJobs.reverse⟩ := by
    simp [countRoots, countPush]
  have total : ∑ d ∈ Finset.range verts.card, (level r.graph.children d r.rootJobs).length =
      sumOf (fun j => 1 + below r.graph.children verts.card j) r.rootJobs := by
    simp only [level_eq_ends]
    rw [sum_flatMap_length]
    exact sumOf_congr fun j mem => ends_sum spans.closed acyclic (spans.roots_mem j mem)
  have start : Walking r verts (∑ d ∈ Finset.range verts.card,
      (level r.graph.children d r.rootJobs).length) (countRoots r.graph r.rootJobs) := by
    rw [roots, total]
    constructor
    · intro j mem
      exact spans.roots_mem j (List.mem_reverse.mp mem)
    · have paid : sumOf (below r.graph.children verts.card) r.rootJobs =
          sumOf (fun j => (r.graph.children j).length) r.rootJobs +
            sumOf (owed r.graph.children verts.card) r.rootJobs := by
        rw [← sumOf_add]
        refine sumOf_congr fun j mem => ?_
        rw [below_eq_children spans.closed acyclic (spans.roots_mem j mem), sumOf_succ, owed]
      simp only [sumOf_reverse, sumOf_succ]
      omega
  obtain ⟨c, run, walking, stop⟩ := whileLoop_total
    (fun c : Counting J => !c.subJobs.isEmpty) (countStep r.graph) (Walking r verts _)
    (fun c => sumOf (fun j => 1 + below r.graph.children verts.card j) c.subJobs)
    (by
      rintro ⟨size, stack⟩ walking go
      cases stack with
      | nil => simp at go
      | cons current rest =>
        refine ⟨_, countStep_eq r.graph size current rest,
          walking_step spans.closed acyclic walking, ?_⟩
        have here := walking.within current (by simp)
        have unroll := below_eq_children spans.closed acyclic here
        simp only [sumOf_append, sumOf_reverse]
        simp only [sumOf, List.map_cons, List.sum_cons] at unroll ⊢
        omega)
    start (show _ ≤ fuel by rw [roots, sumOf_reverse]; exact enough)
  have empty : c.subJobs = [] := by simpa using stop
  have balance := walking.balance
  simp only [empty, sumOf, List.map_nil, List.sum_nil, Nat.add_zero] at balance
  simp only [jobCount, run, balance]

end SchedJobCount
