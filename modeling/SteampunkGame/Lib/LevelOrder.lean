import Mathlib.Data.List.Count
import Mathlib.Data.Finset.Card
import Mathlib.Logic.Relation
import Mathlib.Data.Fintype.Card
import Mathlib.Data.Fintype.Sets
import Mathlib.Data.Fintype.EquivFin

/-!
Level-order expansion of a directed multigraph given by ordered successor
lists. A successor that is listed twice is two edges, so every statement
here counts paths, not vertices.
-/
namespace LevelOrder
variable {α : Type*}

/-- All paths of a given length from one vertex, in lexicographic order. -/
def paths (children : α → List α) : Nat → α → List (List α)
  | 0, r => [[r]]
  | d + 1, r => (children r).flatMap fun c => (paths children d c).map (r :: ·)

def endPoint (r : α) (path : List α) : α := path.getLastD r

/-- End points of the paths of length `d`, taken root by root. -/
def level (children : α → List α) (d : Nat) (roots : List α) : List α :=
  roots.flatMap fun r => (paths children d r).map (endPoint r)

def Edge (children : α → List α) (a b : α) : Prop := b ∈ children a

/-- `verts` contains every root and is closed under successors. -/
structure Spans (children : α → List α) (roots : List α) (verts : Finset α) : Prop where
  roots_mem : ∀ r ∈ roots, r ∈ verts
  closed : ∀ j ∈ verts, ∀ c ∈ children j, c ∈ verts

def AcyclicOn (children : α → List α) (verts : Finset α) : Prop :=
  ∀ j ∈ verts, ¬ Relation.TransGen (Edge children) j j

theorem path_nonempty {children : α → List α} {d : Nat} {r : α} {p : List α}
    (mem : p ∈ paths children d r) : ∃ tail, p = r :: tail := by
  cases d with
  | zero => exact ⟨[], by simpa [paths] using mem⟩
  | succ d =>
    simp only [paths, List.mem_flatMap, List.mem_map] at mem
    obtain ⟨c, _, q, _, eq⟩ := mem
    exact ⟨q, eq.symm⟩

theorem path_length {children : α → List α} {d : Nat} {r : α} {p : List α}
    (mem : p ∈ paths children d r) : p.length = d + 1 := by
  induction d generalizing r p with
  | zero => simp_all [paths]
  | succ d ih =>
    simp only [paths, List.mem_flatMap, List.mem_map] at mem
    obtain ⟨c, _, q, hq, eq⟩ := mem
    subst eq
    simp [ih hq]

theorem path_chain {children : α → List α} {d : Nat} {r : α} {p : List α}
    (mem : p ∈ paths children d r) : p.IsChain (Edge children) := by
  induction d generalizing r p with
  | zero => simp_all [paths]
  | succ d ih =>
    simp only [paths, List.mem_flatMap, List.mem_map] at mem
    obtain ⟨c, hc, q, hq, eq⟩ := mem
    subst eq
    obtain ⟨tail, start⟩ := path_nonempty hq
    subst start
    exact List.IsChain.cons_cons hc (ih hq)

theorem path_members {children : α → List α} {verts : Finset α}
    (closed : ∀ j ∈ verts, ∀ c ∈ children j, c ∈ verts) {d : Nat} {r : α} {p : List α}
    (mem : p ∈ paths children d r) (start : r ∈ verts) : ∀ x ∈ p, x ∈ verts := by
  induction d generalizing r p with
  | zero => simp_all [paths]
  | succ d ih =>
    simp only [paths, List.mem_flatMap, List.mem_map] at mem
    obtain ⟨c, hc, q, hq, eq⟩ := mem
    subst eq
    intro x hx
    rcases List.mem_cons.mp hx with same | later
    · exact same ▸ start
    · exact ih hq (closed r start c hc) x later

/-- A path that never returns to a vertex is no longer than the vertex set. -/
theorem path_nodup {children : α → List α} {verts : Finset α}
    (closed : ∀ j ∈ verts, ∀ c ∈ children j, c ∈ verts) (acyclic : AcyclicOn children verts)
    {d : Nat} {r : α} {p : List α} (mem : p ∈ paths children d r) (start : r ∈ verts) :
    p.Nodup := by
  have chain : p.IsChain (Relation.TransGen (Edge children)) :=
    (path_chain mem).imp fun _ _ edge => .single edge
  have strict := List.isChain_iff_pairwise.mp chain
  refine List.Pairwise.imp_of_mem ?_ strict
  intro a b ha _ walk same
  subst same
  exact acyclic a (path_members closed mem start a ha) walk

theorem path_length_le {children : α → List α} {verts : Finset α}
    (closed : ∀ j ∈ verts, ∀ c ∈ children j, c ∈ verts) (acyclic : AcyclicOn children verts)
    {d : Nat} {r : α} {p : List α} (mem : p ∈ paths children d r) (start : r ∈ verts) :
    d + 1 ≤ verts.card := by
  classical
  have nodup := path_nodup closed acyclic mem start
  have within : p.toFinset ⊆ verts := by
    intro x hx
    exact path_members closed mem start x (List.mem_toFinset.mp hx)
  have bound := Finset.card_le_card within
  rw [List.toFinset_card_of_nodup nodup, path_length mem] at bound
  exact bound

/-- End points reached from one vertex; `level` is its sum over the roots. -/
def ends (children : α → List α) (d : Nat) (r : α) : List α :=
  (paths children d r).map (endPoint r)

@[simp] theorem ends_zero (children : α → List α) (r : α) : ends children 0 r = [r] := by
  simp [ends, paths, endPoint]

theorem ends_succ (children : α → List α) (d : Nat) (r : α) :
    ends children (d + 1) r = (children r).flatMap (ends children d) := by
  simp only [ends, paths, List.map_flatMap, List.map_map]
  congr 1
  funext c
  apply List.map_congr_left
  intro p hp
  obtain ⟨tail, eq⟩ := path_nonempty hp
  subst eq
  simp only [Function.comp, endPoint, List.getLastD_cons]

theorem level_eq_ends (children : α → List α) (d : Nat) (roots : List α) :
    level children d roots = roots.flatMap (ends children d) := rfl

@[simp] theorem level_zero (children : α → List α) (roots : List α) :
    level children 0 roots = roots := by
  simp [level, paths, endPoint]

theorem level_of_children (children : α → List α) (d : Nat) (roots : List α) :
    level children (d + 1) roots = level children d (roots.flatMap children) := by
  have expand : ends children (d + 1) = fun r => (children r).flatMap (ends children d) :=
    funext (ends_succ children d)
  simp only [level_eq_ends, expand, List.flatMap_assoc]

/-- Expanding a whole level at its end equals expanding its roots first. -/
theorem level_succ (children : α → List α) (d : Nat) (roots : List α) :
    level children (d + 1) roots = (level children d roots).flatMap children := by
  induction d generalizing roots with
  | zero => simp [level_of_children]
  | succ d ih => rw [level_of_children, ih, ← level_of_children]

theorem level_add (children : α → List α) (d e : Nat) (roots : List α) :
    level children (d + e) roots = level children e (level children d roots) := by
  induction d generalizing roots with
  | zero => simp
  | succ d ih => rw [Nat.succ_add, level_of_children, ih, ← level_of_children]

theorem level_members {children : α → List α} {roots : List α} {verts : Finset α}
    (spans : Spans children roots verts) (d : Nat) : ∀ j ∈ level children d roots, j ∈ verts := by
  induction d with
  | zero => simpa using spans.roots_mem
  | succ d ih =>
    intro j mem
    rw [level_succ, List.mem_flatMap] at mem
    obtain ⟨p, hp, hj⟩ := mem
    exact spans.closed p (ih p hp) j hj

/-- Past the number of vertices an acyclic graph has no level left. -/
theorem level_exhausted {children : α → List α} {roots : List α} {verts : Finset α}
    (spans : Spans children roots verts) (acyclic : AcyclicOn children verts)
    {d : Nat} (deep : verts.card ≤ d) : level children d roots = [] := by
  rw [List.eq_nil_iff_forall_not_mem]
  intro j mem
  simp only [level, List.mem_flatMap, List.mem_map] at mem
  obtain ⟨r, hr, p, hp, _⟩ := mem
  have bound := path_length_le spans.closed acyclic hp (spans.roots_mem r hr)
  omega

theorem level_empty_mono {children : α → List α} {roots : List α} {d : Nat}
    (none : level children d roots = []) (e : Nat) : level children (d + e) roots = [] := by
  rw [level_add, none]
  simp [level]

/-- Levels past the last one add nothing. -/
theorem levels_exhausted {children : α → List α} {roots : List α} {bound : Nat}
    (none : level children bound roots = []) (extra : Nat) :
    ((List.range (bound + extra)).flatMap fun d => level children d roots) =
      (List.range bound).flatMap fun d => level children d roots := by
  induction extra with
  | zero => rfl
  | succ extra ih =>
    rw [← Nat.add_assoc, List.range_succ, List.flatMap_append, ih]
    simp [level_empty_mono none extra]

theorem levels_agree {children : α → List α} {roots : List α} {m n : Nat}
    (at_m : level children m roots = []) (at_n : level children n roots = []) :
    ((List.range m).flatMap fun d => level children d roots) =
      (List.range n).flatMap fun d => level children d roots := by
  rw [← levels_exhausted at_m n, ← levels_exhausted at_n m, Nat.add_comm]

theorem level_reached {children : α → List α} {roots : List α} {d : Nat} {j : α}
    (mem : j ∈ level children d roots) :
    ∃ r ∈ roots, Relation.ReflTransGen (Edge children) r j := by
  induction d generalizing j with
  | zero => exact ⟨j, by simpa using mem, .refl⟩
  | succ d ih =>
    rw [level_succ, List.mem_flatMap] at mem
    obtain ⟨p, above, child⟩ := mem
    obtain ⟨r, root, walk⟩ := ih above
    exact ⟨r, root, walk.tail child⟩

theorem reached_level {children : α → List α} {roots : List α} {r j : α} (root : r ∈ roots)
    (walk : Relation.ReflTransGen (Edge children) r j) : ∃ d, j ∈ level children d roots := by
  induction walk with
  | refl => exact ⟨0, by simpa using root⟩
  | tail _ edge ih =>
    obtain ⟨d, mem⟩ := ih
    exact ⟨d + 1, by rw [level_succ, List.mem_flatMap]; exact ⟨_, mem, edge⟩⟩

/-- No vertex is listed twice, neither in one list nor in two of them. -/
structure Forest (children : α → List α) (roots : List α) : Prop where
  roots_nodup : roots.Nodup
  children_nodup : ∀ p, (children p).Nodup
  root_free : ∀ r ∈ roots, ∀ p, r ∉ children p
  one_parent : ∀ p q c, c ∈ children p → c ∈ children q → p = q

theorem forest_add_root {children : α → List α} {roots : List α} (forest : Forest children roots)
    {x : α} (off_root : x ∉ roots) (off_child : ∀ p, x ∉ children p) :
    Forest children (roots ++ [x]) where
  roots_nodup := by
    rw [← List.concat_eq_append]
    exact forest.roots_nodup.concat off_root
  children_nodup := forest.children_nodup
  root_free := by
    intro r mem p
    rcases List.mem_append.mp mem with old | new
    · exact forest.root_free r old p
    · rw [List.mem_singleton.mp new]
      exact off_child p
  one_parent := forest.one_parent

theorem forest_add_child [DecidableEq α] {children : α → List α} {roots : List α}
    (forest : Forest children roots) {x : α} (off_root : x ∉ roots)
    (off_child : ∀ p, x ∉ children p) (p : α) :
    Forest (Function.update children p (children p ++ [x])) roots := by
  have listed : ∀ q c, c ∈ Function.update children p (children p ++ [x]) q →
      c ∈ children q ∨ (q = p ∧ c = x) := by
    intro q c mem
    by_cases same : q = p
    · subst same
      simpa using mem
    · exact Or.inl (by simpa [same] using mem)
  constructor
  · exact forest.roots_nodup
  · intro q
    by_cases same : q = p
    · subst same
      rw [Function.update_self, ← List.concat_eq_append]
      exact (forest.children_nodup q).concat (off_child q)
    · rw [Function.update_of_ne same]
      exact forest.children_nodup q
  · intro r mem q child
    rcases listed q r child with old | ⟨_, new⟩
    · exact forest.root_free r mem q old
    · exact off_root (new ▸ mem)
  · intro q s c at_q at_s
    rcases listed q c at_q with old_q | ⟨eq_q, new_q⟩ <;>
      rcases listed s c at_s with old_s | ⟨eq_s, new_s⟩
    · exact forest.one_parent q s c old_q old_s
    · exact absurd (new_s ▸ old_q) (off_child q)
    · exact absurd (new_q ▸ old_s) (off_child s)
    · exact eq_q.trans eq_s.symm

theorem forest_level_unique {children : α → List α} {roots : List α}
    (forest : Forest children roots) {d e : Nat} {j : α} (at_d : j ∈ level children d roots)
    (at_e : j ∈ level children e roots) : d = e := by
  induction d generalizing e j with
  | zero =>
    cases e with
    | zero => rfl
    | succ e =>
      rw [level_zero] at at_d
      rw [level_succ, List.mem_flatMap] at at_e
      obtain ⟨p, _, child⟩ := at_e
      exact absurd child (forest.root_free j at_d p)
  | succ d ih =>
    rw [level_succ, List.mem_flatMap] at at_d
    obtain ⟨p, hp, child⟩ := at_d
    cases e with
    | zero =>
      rw [level_zero] at at_e
      exact absurd child (forest.root_free j at_e p)
    | succ e =>
      rw [level_succ, List.mem_flatMap] at at_e
      obtain ⟨q, hq, other⟩ := at_e
      have same := forest.one_parent p q j child other
      subst same
      exact congrArg (· + 1) (ih hp hq)

theorem forest_level_nodup {children : α → List α} {roots : List α}
    (forest : Forest children roots) (d : Nat) : (level children d roots).Nodup := by
  induction d with
  | zero => simpa using forest.roots_nodup
  | succ d ih =>
    rw [level_succ, List.nodup_flatMap]
    refine ⟨fun p _ => forest.children_nodup p, ih.imp ?_⟩
    intro p q different j child other
    exact different (forest.one_parent p q j child other)

/-- All levels of a forest together list no vertex twice. -/
theorem forest_levels_nodup {children : α → List α} {roots : List α}
    (forest : Forest children roots) (count : Nat) :
    ((List.range count).flatMap fun d => level children d roots).Nodup := by
  rw [List.nodup_flatMap]
  refine ⟨fun d _ => forest_level_nodup forest d, List.nodup_range.imp ?_⟩
  intro d e different j at_d at_e
  exact different (forest_level_unique forest at_d at_e)

theorem acyclic_of_rank {children : α → List α} (rank : α → Nat)
    (up : ∀ a b, Edge children a b → rank a < rank b) (verts : Finset α) :
    AcyclicOn children verts := by
  have climb : ∀ a b, Relation.TransGen (Edge children) a b → rank a < rank b := by
    intro a b walk
    induction walk with
    | single edge => exact up _ _ edge
    | tail _ edge ih => exact ih.trans (up _ _ edge)
  intro j _ loop
  exact Nat.lt_irrefl _ (climb j j loop)

/-- Induction from the roots downwards. -/
theorem acyclic_induction {children : α → List α} {verts : Finset α}
    (acyclic : AcyclicOn children verts) {P : α → Prop}
    (step : ∀ j ∈ verts, (∀ p ∈ verts, j ∈ children p → P p) → P j) : ∀ j ∈ verts, P j := by
  let above : verts → verts → Prop := fun a b => Relation.TransGen (Edge children) a b
  have : IsTrans verts above := ⟨fun _ _ _ h k => h.trans k⟩
  have : Std.Irrefl above := ⟨fun a => acyclic a a.2⟩
  have wf : WellFounded above := Finite.wellFounded_of_trans_of_irrefl above
  intro j mem
  have all := wf.induction (C := fun a => P a.1) ⟨j, mem⟩ (by
    rintro ⟨a, ha⟩ ih
    exact step a ha fun p hp child => ih ⟨p, hp⟩ (.single child))
  exact all

end LevelOrder
