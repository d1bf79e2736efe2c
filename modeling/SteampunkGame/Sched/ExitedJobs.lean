import SteampunkGame.Sched.FrameTraversal

/-!
A frame over a forest with exited jobs. An exited job is erased when it is
met, while the copies of the lists that hold it are still being walked. The
runner is described throughout as the original one without the set of jobs
erased so far.
-/
namespace SchedExit
open LevelOrder SchedJob SchedPool SchedWorker SchedRunner SchedRoundRobin SchedFrame
variable {J : Type}

/-- The runner after detaching a set of jobs and nothing else. -/
def without (r : Runner J) (gone : J → Bool) : Runner J :=
  { r with
    graph := { r.graph with
      parent := fun j => if gone j then none else r.graph.parent j
      children := fun p => (r.graph.children p).filter fun c => !gone c }
    rootJobs := r.rootJobs.filter fun j => !gone j }

/-- Children that a frame will visit: those of an exited job are not. -/
def visited (g : JobGraph J) (j : J) : List J := if g.exited j then [] else g.children j

theorem visited_subset (g : JobGraph J) (j : J) : visited g j ⊆ g.children j := by
  unfold visited
  split <;> simp

variable [DecidableEq J]

/-- Every job occurs exactly once, in the root list if it has no parent and in
    its parent's children otherwise, and no job is its own ancestor. -/
structure JobForest (r : Runner J) (jobs : Finset J) : Prop where
  roots_mem : ∀ j ∈ r.rootJobs, j ∈ jobs
  children_mem : ∀ p c, c ∈ r.graph.children p → p ∈ jobs ∧ c ∈ jobs
  root : ∀ j ∈ jobs, r.graph.parent j = none →
    r.rootJobs.count j = 1 ∧ ∀ p, j ∉ r.graph.children p
  child : ∀ j ∈ jobs, ∀ p, r.graph.parent j = some p →
    j ∉ r.rootJobs ∧ (r.graph.children p).count j = 1 ∧ ∀ q, j ∈ r.graph.children q → q = p
  acyclic : AcyclicOn r.graph.children jobs

theorem child_parent {r : Runner J} {jobs : Finset J} (forest : JobForest r jobs) {p c : J}
    (mem : c ∈ r.graph.children p) : r.graph.parent c = some p := by
  have inside := (forest.children_mem p c mem).2
  cases up : r.graph.parent c with
  | none => exact absurd mem ((forest.root c inside up).2 p)
  | some q => rw [(forest.child c inside q up).2.2 p mem]

theorem root_parent {r : Runner J} {jobs : Finset J} (forest : JobForest r jobs) {j : J}
    (mem : j ∈ r.rootJobs) : r.graph.parent j = none := by
  cases up : r.graph.parent j with
  | none => rfl
  | some q => exact absurd mem (forest.child j (forest.roots_mem j mem) q up).1

theorem forest_lists {r : Runner J} {jobs : Finset J} (forest : JobForest r jobs) :
    Forest r.graph.children r.rootJobs where
  roots_nodup := by
    rw [List.nodup_iff_count_eq_one]
    intro j mem
    exact (forest.root j (forest.roots_mem j mem) (root_parent forest mem)).1
  children_nodup := by
    intro p
    rw [List.nodup_iff_count_eq_one]
    intro c mem
    exact (forest.child c (forest.children_mem p c mem).2 p (child_parent forest mem)).2.1
  root_free := by
    intro j mem
    exact (forest.root j (forest.roots_mem j mem) (root_parent forest mem)).2
  one_parent := by
    intro p q c at_p at_q
    exact Option.some.inj ((child_parent forest at_p).symm.trans (child_parent forest at_q))

theorem visited_forest {r : Runner J} {jobs : Finset J} (forest : JobForest r jobs) :
    Forest (visited r.graph) r.rootJobs where
  roots_nodup := (forest_lists forest).roots_nodup
  children_nodup := by
    intro p
    unfold visited
    split
    · exact List.nodup_nil
    · exact (forest_lists forest).children_nodup p
  root_free := fun j mem p child =>
    (forest_lists forest).root_free j mem p (visited_subset r.graph p child)
  one_parent := fun p q c at_p at_q => (forest_lists forest).one_parent p q c
    (visited_subset r.graph p at_p) (visited_subset r.graph q at_q)

theorem visited_spans {r : Runner J} {jobs : Finset J} (forest : JobForest r jobs) :
    Spans (visited r.graph) r.rootJobs jobs where
  roots_mem := forest.roots_mem
  closed := fun j _ c child => (forest.children_mem j c (visited_subset r.graph j child)).2

theorem visited_acyclic {r : Runner J} {jobs : Finset J} (forest : JobForest r jobs) :
    AcyclicOn (visited r.graph) jobs := by
  intro j mem loop
  exact forest.acyclic j mem
    (Relation.TransGen.mono (fun a b edge => visited_subset r.graph a edge) j j loop)

theorem filter_drop (gone : J → Bool) (j : J) (xs : List J) :
    (xs.filter fun x => !gone x).filter (fun x => decide (x ≠ j)) =
      xs.filter fun x => !(gone x || decide (x = j)) := by
  rw [List.filter_filter]
  congr 1
  funext x
  cases gone x <;> simp

theorem filter_absent (gone : J → Bool) {j : J} {xs : List J} (free : j ∉ xs) :
    (xs.filter fun x => !gone x) = xs.filter fun x => !(gone x || decide (x = j)) := by
  apply List.filter_congr
  intro x hx
  have other : x ≠ j := fun eq => free (eq ▸ hx)
  simp [other]

/-- Erasing one more job of a partly pruned forest takes exactly it out. -/
theorem erase_without {r : Runner J} {jobs : Finset J} (forest : JobForest r jobs)
    {gone : J → Bool} {j : J} (mem : j ∈ jobs) (present : gone j = false) :
    (without r gone).erase j = .ok (without r fun x => gone x || decide (x = j)) := by
  cases up : r.graph.parent j with
  | none =>
    obtain ⟨once, free⟩ := forest.root j mem up
    have root : j ∈ r.rootJobs := List.count_pos_iff.mp (by omega)
    have nodup := (forest_lists forest).roots_nodup.filter (fun x => !gone x)
    have drop : (r.rootJobs.filter fun x => !gone x).erase j =
        r.rootJobs.filter fun x => !(gone x || decide (x = j)) := by
      rw [nodup.erase_eq_filter, ← filter_drop]
      congr 1
      funext x
      simp [bne, Bool.beq_eq_decide_eq]
    simp only [Runner.erase, without, present, up, List.mem_filter, root, drop, Except.ok.injEq,
      Runner.mk.injEq, JobGraph.mk.injEq, Bool.not_false, Bool.false_eq_true, if_false, and_self,
      if_true, and_true]
    refine ⟨?_, ?_⟩
    · funext x
      by_cases eq : x = j <;> simp [eq, up]
    · funext p
      exact filter_absent gone (free p)
  | some p =>
    obtain ⟨off_root, _, only⟩ := forest.child j mem p up
    simp only [Runner.erase, without, present, up, JobGraph.erase, Except.ok.injEq,
      Runner.mk.injEq, JobGraph.mk.injEq, and_true, Bool.false_eq_true, if_false]
    refine ⟨⟨?_, ?_⟩, filter_absent gone off_root⟩
    · funext x
      by_cases eq : x = j <;> simp [eq]
    · funext q
      by_cases eq : q = p
      · subst eq
        rw [Function.update_self]
        exact filter_drop gone j _
      · rw [Function.update_of_ne eq]
        exact filter_absent gone fun child => eq (only q child)

/-- One `for` loop over jobs none of which is erased yet, or is a child of
    another one of them. -/
theorem assignAll_exits {r : Runner J} {jobs : Finset J} (forest : JobForest r jobs)
    {n : UInt32} (static : StaticPool n r.pool) {js : List J} (nodup : js.Nodup)
    (inside : ∀ j ∈ js, j ∈ jobs) {gone : J → Bool} {st : Assigning J}
    (pruned : st.runner = without r gone) (bound : st.nextWorkerId ≤ n)
    (present : ∀ j ∈ js, gone j = false)
    (later : ∀ j ∈ js, r.graph.exited j = false →
      ∀ c ∈ r.graph.children j, gone c = false ∧ c ∉ js) :
    assignAll js st = .ok {
      runner := without r fun x => gone x || (r.graph.exited x && decide (x ∈ js))
      nextWorkerId := dealNext n st.nextWorkerId (js.filter fun j => !r.graph.exited j)
      runNext := st.runNext ++ js.flatMap (visited r.graph)
      calls := st.calls ++ deal n st.nextWorkerId (js.filter fun j => !r.graph.exited j) } := by
  induction js generalizing gone st with
  | nil =>
    simp only [assignAll, List.foldlM_nil, pure, Except.pure, List.filter_nil, dealNext, deal,
      List.flatMap_nil, List.append_nil, List.not_mem_nil, decide_false, Bool.and_false,
      Bool.or_false]
    rw [← pruned]
  | cons j rest ih =>
    obtain ⟨fresh, nodup_rest⟩ := List.nodup_cons.mp nodup
    have here := present j (by simp)
    have inside_rest : ∀ k ∈ rest, k ∈ jobs := fun k mem => inside k (List.mem_cons_of_mem j mem)
    cases exited : r.graph.exited j with
    | true =>
      have erased : st.runner.erase j = .ok (without r fun x => gone x || decide (x = j)) := by
        rw [pruned]
        exact erase_without forest (inside j (by simp)) here
      have flag : st.runner.graph.exited j = true := by rw [pruned]; exact exited
      have tail := @ih nodup_rest inside_rest (fun x => gone x || decide (x = j))
        { st with runner := without r fun x => gone x || decide (x = j) } rfl bound
        (by
          intro k mem
          have other : k ≠ j := fun eq => fresh (eq ▸ mem)
          simp [present k (List.mem_cons_of_mem j mem), other])
        (by
          intro k mem live c child
          obtain ⟨kept, unlisted⟩ := later k (List.mem_cons_of_mem j mem) live c child
          simp only [List.mem_cons, not_or] at unlisted
          exact ⟨by simp [kept, unlisted.1], unlisted.2⟩)
      have union : (fun x => (gone x || decide (x = j)) ||
          (r.graph.exited x && decide (x ∈ rest))) =
          fun x => gone x || (r.graph.exited x && decide (x ∈ j :: rest)) := by
        funext x
        by_cases same : x = j
        · simp [same, exited]
        · simp [same]
      rw [assignAll_cons (assignJob_exited flag erased), tail, union]
      simp [exited, visited]
    | false =>
      have flag : st.runner.graph.exited j = false := by rw [pruned]; exact exited
      have pool : StaticPool n st.runner.pool := by rw [pruned]; exact static
      have children : st.runner.graph.children j = r.graph.children j := by
        rw [pruned]
        refine List.filter_eq_self.mpr fun c child => ?_
        simp [(later j (by simp) exited c child).1]
      have tail := @ih nodup_rest inside_rest gone
        ⟨st.runner, turn n st.nextWorkerId + 1, st.runNext ++ r.graph.children j,
          st.calls ++ [.assign (turn n st.nextWorkerId) j, .wake (turn n st.nextWorkerId)]⟩
        pruned (turn_succ_le static.positive bound)
        (fun k mem => present k (List.mem_cons_of_mem j mem))
        (by
          intro k mem live c child
          obtain ⟨kept, unlisted⟩ := later k (List.mem_cons_of_mem j mem) live c child
          exact ⟨kept, fun mem => unlisted (List.mem_cons_of_mem j mem)⟩)
      have union : (fun x => gone x || (r.graph.exited x && decide (x ∈ rest))) =
          fun x => gone x || (r.graph.exited x && decide (x ∈ j :: rest)) := by
        funext x
        by_cases same : x = j
        · simp [same, exited]
        · simp [same]
      rw [assignAll_cons (assignJob_static pool bound flag), children, tail, union]
      simp [exited, visited, deal, dealNext, List.append_assoc]

/-- Jobs that the first `d` sub-cycles erase. -/
def goneBefore (r : Runner J) (d : Nat) (j : J) : Bool :=
  r.graph.exited j &&
    decide (j ∈ (List.range d).flatMap fun e => level (visited r.graph) e r.rootJobs)

theorem goneBefore_succ (r : Runner J) (d : Nat) :
    goneBefore r (d + 1) = fun x => goneBefore r d x ||
      (r.graph.exited x && decide (x ∈ level (visited r.graph) d r.rootJobs)) := by
  funext x
  simp only [goneBefore, List.range_succ, List.flatMap_append, List.flatMap_singleton,
    List.mem_append, Bool.decide_or]
  cases r.graph.exited x <;> simp

theorem subCycles_exits {r : Runner J} {jobs : Finset J} (forest : JobForest r jobs) {n : UInt32}
    (static : StaticPool n r.pool) :
    SubCycles n r.rootJobs (visited r.graph) (fun j => !r.graph.exited j)
      (fun d s => s = without r (goneBefore r d)) where
  static := fun d s same => same ▸ static
  start := by
    intro s same
    subst same
    refine List.filter_eq_self.mpr fun j _ => ?_
    simp [goneBefore]
  assign := by
    intro d st same bound
    have flat := visited_forest forest
    have unseen : ∀ e j, d ≤ e → j ∈ level (visited r.graph) e r.rootJobs →
        goneBefore r d j = false := by
      intro e j late mem
      have : j ∉ (List.range d).flatMap fun e => level (visited r.graph) e r.rootJobs := by
        rw [List.mem_flatMap]
        rintro ⟨f, early, again⟩
        have := forest_level_unique flat mem again
        have := List.mem_range.mp early
        omega
      simp [goneBefore, this]
    refine ⟨_, rfl, ?_⟩
    rw [goneBefore_succ, level_succ]
    refine assignAll_exits forest static (forest_level_nodup flat d)
      (level_members (visited_spans forest) d) same bound
      (fun j mem => unseen d j (by omega) mem) ?_
    intro j mem live c child
    have below : c ∈ level (visited r.graph) (d + 1) r.rootJobs := by
      rw [level_succ, List.mem_flatMap]
      exact ⟨j, mem, by simp [visited, live, child]⟩
    refine ⟨unseen (d + 1) c (by omega) below, fun again => ?_⟩
    have := forest_level_unique flat below again
    omega

/-- An exited job stands properly above. -/
def Shadowed (r : Runner J) (j : J) : Prop :=
  ∃ a, Relation.TransGen (Edge r.graph.children) a j ∧ r.graph.exited a = true

open Classical in
/-- The exited jobs that a frame meets. -/
noncomputable def detached (r : Runner J) (jobs : Finset J) (j : J) : Bool :=
  decide (j ∈ jobs ∧ r.graph.exited j = true ∧ ¬ Shadowed r j)

/-- Above a child there are its parent and what is above the parent. -/
theorem shadowed_child {r : Runner J} {jobs : Finset J} (forest : JobForest r jobs) {p c : J}
    (child : c ∈ r.graph.children p) :
    Shadowed r c ↔ r.graph.exited p = true ∨ Shadowed r p := by
  constructor
  · rintro ⟨a, above, exited⟩
    obtain ⟨q, up, last⟩ := Relation.TransGen.tail'_iff.mp above
    have same := (forest_lists forest).one_parent q p c last child
    subst same
    rcases Relation.reflTransGen_iff_eq_or_transGen.mp up with eq | up
    · exact Or.inl (eq ▸ exited)
    · exact Or.inr ⟨a, up, exited⟩
  · rintro (exited | ⟨a, above, exited⟩)
    · exact ⟨p, .single child, exited⟩
    · exact ⟨a, above.tail child, exited⟩

theorem root_not_shadowed {r : Runner J} {jobs : Finset J} (forest : JobForest r jobs) {j : J}
    (root : j ∈ r.rootJobs) : ¬ Shadowed r j := by
  rintro ⟨a, above, _⟩
  obtain ⟨q, _, last⟩ := Relation.TransGen.tail'_iff.mp above
  exact (forest_lists forest).root_free j root q last

theorem level_not_shadowed {r : Runner J} {jobs : Finset J} (forest : JobForest r jobs) {d : Nat}
    {j : J} (mem : j ∈ level (visited r.graph) d r.rootJobs) : ¬ Shadowed r j := by
  induction d generalizing j with
  | zero =>
    rw [level_zero] at mem
    exact root_not_shadowed forest mem
  | succ d ih =>
    rw [level_succ, List.mem_flatMap] at mem
    obtain ⟨p, hp, child⟩ := mem
    unfold visited at child
    split at child
    · simp at child
    · rename_i live
      rw [shadowed_child forest child]
      rintro (exited | above)
      · exact live exited
      · exact ih hp above

theorem level_of_not_shadowed {r : Runner J} {jobs : Finset J} (forest : JobForest r jobs) :
    ∀ j ∈ jobs, ¬ Shadowed r j → ∃ d, j ∈ level (visited r.graph) d r.rootJobs := by
  refine acyclic_induction forest.acyclic fun j mem ih clear => ?_
  cases up : r.graph.parent j with
  | none =>
    have once := (forest.root j mem up).1
    exact ⟨0, by rw [level_zero]; exact List.count_pos_iff.mp (by omega)⟩
  | some p =>
    have child : j ∈ r.graph.children p :=
      List.count_pos_iff.mp (by have := (forest.child j mem p up).2.1; omega)
    have apart := mt (shadowed_child forest child).mpr clear
    simp only [not_or, Bool.not_eq_true] at apart
    obtain ⟨d, at_d⟩ := ih p (forest.children_mem p j child).1 child apart.2
    refine ⟨d + 1, ?_⟩
    rw [level_succ, List.mem_flatMap]
    exact ⟨p, at_d, by simp [visited, apart.1, child]⟩

/-- The jobs that a frame visits are those below no exited job. -/
theorem visited_iff {r : Runner J} {jobs : Finset J} (forest : JobForest r jobs) {count : Nat}
    (exhausted : level (visited r.graph) count r.rootJobs = []) (j : J) :
    j ∈ ((List.range count).flatMap fun d => level (visited r.graph) d r.rootJobs) ↔
      j ∈ jobs ∧ ¬ Shadowed r j := by
  simp only [List.mem_flatMap, List.mem_range]
  constructor
  · rintro ⟨d, _, mem⟩
    exact ⟨level_members (visited_spans forest) d j mem, level_not_shadowed forest mem⟩
  · rintro ⟨mem, clear⟩
    obtain ⟨d, at_d⟩ := level_of_not_shadowed forest j mem clear
    refine ⟨d, ?_, at_d⟩
    by_contra deep
    have none_left := level_empty_mono exhausted (d - count)
    rw [Nat.add_sub_cancel' (by omega)] at none_left
    simp [none_left] at at_d

/-- One frame over a forest assigns the jobs that are neither exited nor below
    an exited job, once each, and detaches the exited jobs that it meets. -/
theorem frame_exits {n : UInt32} {a : Arbiter J} {jobs : Finset J}
    (static : StaticPool n a.runner.pool) (bound : a.nextWorkerId ≤ n)
    (empty1 : a.jobs1 = []) (empty2 : a.jobs2 = []) (quiet : a.calls = [])
    (forest : JobForest a.runner jobs) :
    ∃ b cycles, (∀ fuel, jobs.card ≤ fuel → frame fuel a = some (.ok b)) ∧
      b.subCycles = a.subCycles ++ cycles ∧
      (cycles.flatMap assignedJobs).Nodup ∧
      (∀ j, j ∈ cycles.flatMap assignedJobs ↔
        j ∈ jobs ∧ a.runner.graph.exited j = false ∧ ¬ Shadowed a.runner j) ∧
      b.runner = without a.runner (detached a.runner jobs) ∧
      (∀ p, a.runner.graph.exited p = true ∨ Shadowed a.runner p →
        b.runner.graph.children p = a.runner.graph.children p ∧
        ∀ c ∈ a.runner.graph.children p, b.runner.graph.parent c = some p) := by
  obtain ⟨b, count, run, _, none_left, last⟩ := frame_between (subCycles_exits forest static)
    (by simp [without, goneBefore]) bound empty1 empty2 quiet
    (level_exhausted (visited_spans forest) (visited_acyclic forest) (Nat.le_refl _))
  have met : goneBefore a.runner count = detached a.runner jobs := by
    funext j
    have := visited_iff forest none_left j
    unfold goneBefore detached
    cases a.runner.graph.exited j <;> simp_all
  have flat : (frameCalls n a.nextWorkerId (runs a.runner.rootJobs (visited a.runner.graph)
      fun j => !a.runner.graph.exited j) count).flatMap assignedJobs =
      ((List.range count).flatMap fun d =>
        level (visited a.runner.graph) d a.runner.rootJobs).filter
          fun j => !a.runner.graph.exited j := by
    rw [frameCalls_flat, List.filter_flatMap]
    rfl
  refine ⟨b, _, run, last.done, ?_, ?_, ?_, ?_⟩
  · rw [flat]
    exact (forest_levels_nodup (visited_forest forest) count).filter _
  · intro j
    rw [flat, List.mem_filter, visited_iff forest none_left]
    simp only [Bool.not_eq_true']
    tauto
  · rw [last.runner, met]
  · intro p hidden
    have below : ∀ c ∈ a.runner.graph.children p, detached a.runner jobs c = false := by
      intro c child
      have := (shadowed_child forest child).mpr hidden
      simp [detached, this]
    rw [last.runner, met]
    refine ⟨List.filter_eq_self.mpr fun c child => by simp [below c child], fun c child => ?_⟩
    simp [without, below c child, child_parent forest child]

/-- A root whose only child has exited. -/
def exitedChild : Arbiter Bool where
  runner := {
    graph := { JobGraph.initial with
      parent := fun j => if j then some false else none
      children := fun j => if j then [] else [true]
      exited := fun j => j }
    rootJobs := [false]
    pool := filledPool 1 }
  nextWorkerId := 1
  jobs1 := []
  jobs2 := []
  calls := []
  subCycles := []

theorem exitedChild_forest : JobForest exitedChild.runner {false, true} where
  roots_mem := by decide
  children_mem := by decide
  root := by decide
  child := by decide
  acyclic := acyclic_of_rank (fun j => if j then 1 else 0) (by unfold Edge; decide) _

theorem frame_exits_child :
    ∃ b cycles, frame 2 exitedChild = some (.ok b) ∧ b.subCycles = cycles ∧
      (cycles.flatMap assignedJobs).Nodup ∧ false ∈ cycles.flatMap assignedJobs ∧
      true ∉ cycles.flatMap assignedJobs ∧ b.runner.graph.children false = [] := by
  have root : ¬ Shadowed exitedChild.runner false :=
    root_not_shadowed exitedChild_forest (by decide)
  have child : ¬ Shadowed exitedChild.runner true := by
    rw [shadowed_child exitedChild_forest (p := false) (by decide)]
    rintro (exited | above)
    · exact absurd exited (by decide)
    · exact root above
  obtain ⟨b, cycles, run, done, nodup, members, pruned, _⟩ :=
    frame_exits (filledPool_static (n := 1) (by decide)) (by decide) rfl rfl rfl exitedChild_forest
  refine ⟨b, cycles, run 2 (by decide), done, nodup, ?_, ?_, ?_⟩
  · rw [members]
    exact ⟨by decide, rfl, root⟩
  · simp [members, exitedChild]
  · have met : detached exitedChild.runner {false, true} true = true := by
      simp only [detached, decide_eq_true_eq]
      exact ⟨by decide, rfl, child⟩
    rw [pruned]
    refine List.filter_eq_nil_iff.mpr fun c listed => ?_
    have only : c = true := by revert c; decide
    simp [only, met]

end SchedExit
