import SteampunkGame.Lib.Ownership
import SteampunkGame.Lib.Runs
import SteampunkGame.Sched.Runner

/-!
Parent pointers under ownership. A job lives as long as the root list, a child
list of a live job or somebody outside the scheduler owns it; its children
keep their raw pointer when it is destroyed.
-/
namespace SchedOwnership
open SchedJob SchedPool SchedRunner Ownership Runs
variable {J : Type}

/-- `held` are the jobs that are owned from outside the scheduler. -/
structure Heap (J : Type) where
  runner : Runner J
  live : Finset J
  held : J → Bool

inductive Op (J : Type) where
  | runnerSchedule (toSchedule : J)
  | schedule (self child : J)
  | runnerErase (toErase : J)
  | erase (self child : J)
  | hold (job : J)
  | release (job : J)
  deriving DecidableEq, Repr

def Heap.anchored (h : Heap J) (j : J) : Prop := h.held j = true ∨ j ∈ h.runner.rootJobs

/-- Freshly constructed jobs, all of them held. -/
def initial (pool : WorkerPool) (jobs : Finset J) : Heap J :=
  ⟨⟨.initial, [], pool⟩, jobs, fun _ => true⟩

/-- Pointers and child lists of live jobs agree as the claimed invariant says. -/
structure Linked (live : Finset J) (parent : J → Option J) (children : J → List J)
    [DecidableEq J] : Prop where
  up : ∀ c ∈ live, ∀ p, parent c = some p → p ∈ live ∧ (children p).count c = 1
  down : ∀ c ∈ live, parent c = none → ∀ q ∈ live, c ∉ children q

/-- No job is destroyed while one that points to it survives. -/
def NoStray (live : Finset J) (anchored : J → Prop) (children : J → List J)
    (parent : J → Option J) : Prop :=
  ∀ c ∈ live, ∀ p, parent c = some p → Doomed live anchored children p →
    Doomed live anchored children c

theorem collected_noStray {live : Finset J} {parent : J → Option J} {children : J → List J}
    {anchored : J → Prop} (collected : Collected live anchored children) :
    NoStray live anchored children parent :=
  fun _ _ _ _ doomed => absurd doomed (collected_spared collected _)

/-- Between operations every live job has an owner. -/
def Heap.Settled (h : Heap J) : Prop := Collected h.live h.anchored h.runner.graph.children

theorem initial_settled (pool : WorkerPool) (jobs : Finset J) : (initial pool jobs).Settled :=
  fun _ _ => Or.inl (Or.inl rfl)

variable [DecidableEq J]

instance (h : Heap J) : DecidablePred h.anchored := fun j =>
  inferInstanceAs (Decidable (h.held j = true ∨ j ∈ h.runner.rootJobs))

def Heap.collect (h : Heap J) : Heap J :=
  { h with live := Ownership.collect h.anchored h.runner.graph.children h.live }

/-- Operations on live jobs. An exception leaves everything as it was; a
    pointer to a destroyed job must not be followed. -/
def step (h : Heap J) : Op J → Option (Heap J)
  | .runnerSchedule j =>
      if j ∈ h.live then some { h with runner := h.runner.schedule j }.collect else none
  | .schedule p c =>
      if p ∈ h.live ∧ c ∈ h.live then
        match h.runner.graph.schedule p c with
        | .ok graph => some { h with runner := { h.runner with graph := graph } }.collect
        | .error _ => some h
      else none
  | .runnerErase j =>
      if j ∈ h.live ∧ (h.runner.graph.parent j).all (· ∈ h.live) then
        match h.runner.erase j with
        | .ok runner => some { h with runner := runner }.collect
        | .error _ => some h
      else none
  | .erase p c =>
      if p ∈ h.live ∧ c ∈ h.live then
        some { h with runner := { h.runner with graph := h.runner.graph.erase p c } }.collect
      else none
  | .hold j =>
      if j ∈ h.live then some { h with held := Function.update h.held j true } else none
  | .release j =>
      if j ∈ h.live then some { h with held := Function.update h.held j false }.collect else none

def ParentOk (h : Heap J) : Prop := Linked h.live h.runner.graph.parent h.runner.graph.children

/-- Detaching `c` from `p` clears the pointer of `c`, so no other child list
    may hold `c`. -/
structure DetachOk (h : Heap J) (p c : J) : Prop where
  elsewhere : ∀ q ∈ h.live, q ≠ p → c ∉ h.runner.graph.children q
  stray : NoStray h.live h.anchored
    (Function.update h.runner.graph.children p ((h.runner.graph.children p).filter (· ≠ c)))
    (Function.update h.runner.graph.parent c none)

/-- When an operation keeps the invariant, said about the state before it. -/
def StepOk (h : Heap J) : Op J → Prop
  | .runnerSchedule _ => True
  | .schedule p c => c ≠ p → c ∉ h.runner.graph.children p
  | .runnerErase j =>
      match h.runner.graph.parent j with
      | some p => DetachOk h p j
      | none => NoStray h.live (fun x => h.held x = true ∨ x ∈ h.runner.rootJobs.erase j)
          h.runner.graph.children h.runner.graph.parent
  | .erase p c => DetachOk h p c
  | .hold _ => True
  | .release j => NoStray h.live
      (fun x => Function.update h.held j false x = true ∨ x ∈ h.runner.rootJobs)
      h.runner.graph.children h.runner.graph.parent

theorem linked_collect {live : Finset J} {parent : J → Option J} {children : J → List J}
    {anchored : J → Prop} [DecidablePred anchored] (linked : Linked live parent children) :
    Linked (Ownership.collect anchored children live) parent children ↔
      NoStray live anchored children parent := by
  constructor
  · intro after c member p points doomed
    by_contra spared
    have above := (after.up c (mem_collect.mpr ⟨member, spared⟩) p points).1
    exact (mem_collect.mp above).2 doomed
  · intro noStray
    constructor
    · intro c left p points
      obtain ⟨member, spared⟩ := mem_collect.mp left
      obtain ⟨above, once⟩ := linked.up c member p points
      exact ⟨mem_collect.mpr ⟨above, fun doomed => spared (noStray c member p points doomed)⟩, once⟩
    · intro c left none q other
      exact linked.down c (mem_collect.mp left).1 none q (mem_collect.mp other).1

theorem linked_schedule {live : Finset J} {parent : J → Option J} {children : J → List J} {p c : J}
    (linked : Linked live parent children) (self : p ∈ live) (child : c ∈ live) :
    Linked live (Function.update parent c (some p))
      (Function.update children p (children p ++ [c])) ↔ c ∉ children p := by
  constructor
  · intro after given
    have once := (after.up c child p (Function.update_self ..)).2
    rw [Function.update_self, List.count_append, List.count_singleton_self] at once
    have before := List.count_pos_iff.mpr given
    omega
  · intro fresh
    constructor
    · intro x member d points
      by_cases same : x = c
      · subst same
        rw [Function.update_self] at points
        cases points
        refine ⟨self, ?_⟩
        rw [Function.update_self, List.count_append, List.count_eq_zero_of_not_mem fresh,
          List.count_singleton_self]
      · rw [Function.update_of_ne same] at points
        obtain ⟨above, once⟩ := linked.up x member d points
        refine ⟨above, ?_⟩
        by_cases here : d = p
        · subst here
          rw [Function.update_self, List.count_append, once]
          simp [Ne.symm same]
        · rw [Function.update_of_ne here, once]
    · intro x member none q other
      by_cases same : x = c
      · subst same
        rw [Function.update_self] at none
        cases none
      · rw [Function.update_of_ne same] at none
        have apart := linked.down x member none q other
        by_cases here : q = p
        · subst here
          rw [Function.update_self, List.mem_append, List.mem_singleton, not_or]
          exact ⟨apart, same⟩
        · rw [Function.update_of_ne here]
          exact apart

theorem linked_erase {live : Finset J} {parent : J → Option J} {children : J → List J} {p c : J}
    (linked : Linked live parent children) (child : c ∈ live) :
    Linked live (Function.update parent c none)
      (Function.update children p ((children p).filter (· ≠ c))) ↔
    ∀ q ∈ live, q ≠ p → c ∉ children q := by
  constructor
  · intro after q member other
    have apart := after.down c child (Function.update_self ..) q member
    rwa [Function.update_of_ne other] at apart
  · intro elsewhere
    constructor
    · intro x member d points
      by_cases same : x = c
      · subst same
        rw [Function.update_self] at points
        cases points
      · rw [Function.update_of_ne same] at points
        obtain ⟨above, once⟩ := linked.up x member d points
        refine ⟨above, ?_⟩
        by_cases here : d = p
        · subst here
          rw [Function.update_self, List.count_filter (by simpa using same), once]
        · rw [Function.update_of_ne here, once]
    · intro x member none q other
      by_cases here : q = p
      · subst here
        rw [Function.update_self, List.mem_filter]
        intro both
        by_cases same : x = c
        · simp [same] at both
        · rw [Function.update_of_ne same] at none
          exact linked.down x member none q other both.1
      · rw [Function.update_of_ne here]
        by_cases same : x = c
        · subst same
          exact elsewhere q other here
        · rw [Function.update_of_ne same] at none
          exact linked.down x member none q other

theorem settled_collect (h : Heap J) : h.collect.Settled := collect_collected h.live

/-- Operations that take no owner away destroy nothing. -/
theorem collect_settled {h : Heap J} (settled : h.Settled) : h.collect = h := by
  rw [Heap.collect, collect_of_collected settled]

/-- Only the order of the two owner lists matters: `more` owns at least what
    the settled heap `h` does. -/
theorem collect_grown {h : Heap J} (more : Heap J) (settled : h.Settled) (live : more.live = h.live)
    (anchored : ∀ x, h.anchored x → more.anchored x)
    (lists : ∀ q, h.runner.graph.children q ⊆ more.runner.graph.children q) :
    more.collect = more := by
  apply collect_settled
  intro j member
  rw [live] at member ⊢
  exact owned_mono (settled j member) anchored lists

theorem detach_iff {h : Heap J} {p c : J} (settled : h.Settled) (linked : ParentOk h)
    (child : c ∈ h.live) :
    ParentOk { h with runner := { h.runner with graph := h.runner.graph.erase p c } }.collect ↔
      DetachOk h p c := by
  by_cases elsewhere : ∀ q ∈ h.live, q ≠ p → c ∉ h.runner.graph.children q
  · have cut := (linked_erase linked child).mpr elsewhere
    have after : ParentOk
        { h with runner := { h.runner with graph := h.runner.graph.erase p c } }.collect ↔
        NoStray h.live h.anchored (h.runner.graph.erase p c).children
          (h.runner.graph.erase p c).parent := linked_collect cut
    constructor
    · intro ok
      exact ⟨elsewhere, after.mp ok⟩
    · intro ok
      exact after.mpr ok.stray
  · -- another owner keeps `c`, so nothing is destroyed and `c` has no pointer
    have kept :
        { h with runner := { h.runner with graph := h.runner.graph.erase p c } }.Settled := by
      intro j member
      cases settled j member with
      | inl held => exact Or.inl held
      | inr listed =>
        obtain ⟨q, among, inside⟩ := listed
        by_cases cut : q = p ∧ j = c
        · simp only [not_forall, not_not] at elsewhere
          obtain ⟨other, alive, apart, owns⟩ := elsewhere
          refine Or.inr ⟨other, alive, ?_⟩
          rw [cut.2]
          simpa [JobGraph.erase, apart] using owns
        · refine Or.inr ⟨q, among, ?_⟩
          by_cases here : q = p
          · subst here
            have stays : j ≠ c := fun same => cut ⟨rfl, same⟩
            simpa [JobGraph.erase, stays] using inside
          · simpa [JobGraph.erase, here] using inside
    rw [collect_settled kept]
    constructor
    · intro ok
      exact absurd ((linked_erase linked child).mp ok) elsewhere
    · intro ok
      exact absurd ok.elsewhere elsewhere

/-- One operation keeps the invariant exactly if `StepOk` says so. -/
theorem step_iff {h after : Heap J} {op : Op J} (settled : h.Settled) (linked : ParentOk h)
    (run : step h op = some after) : ParentOk after ↔ StepOk h op := by
  cases op with
  | runnerSchedule j =>
    simp only [step, Option.ite_none_right_eq_some] at run
    obtain ⟨_, run⟩ := run
    cases run
    rw [collect_grown { h with runner := h.runner.schedule j } settled rfl
      (fun x owned => owned.imp_right (List.mem_append_left _)) (fun q => List.Subset.refl _)]
    exact iff_of_true linked trivial
  | schedule p c =>
    simp only [step, Option.ite_none_right_eq_some] at run
    obtain ⟨⟨self, child⟩, run⟩ := run
    cases result : h.runner.graph.schedule p c with
    | error what =>
      rw [result] at run
      cases run
      have same : c = p := by
        by_contra other
        rw [JobGraph.schedule, if_neg other] at result
        cases result
      exact iff_of_true linked fun other => absurd same other
    | ok graph =>
      rw [result] at run
      cases run
      obtain ⟨other, parent, children, _⟩ := schedule_ok result
      rw [collect_grown { h with runner := { h.runner with graph := graph } } settled rfl
        (fun x owned => owned) (fun q => by
        dsimp only
        rw [children]
        by_cases here : q = p
        · subst here
          rw [Function.update_self]
          exact List.subset_append_left _ _
        · rw [Function.update_of_ne here]
          exact List.Subset.refl _)]
      unfold ParentOk
      dsimp only
      rw [parent, children, linked_schedule linked self child]
      exact ⟨fun fresh _ => fresh, fun ok => ok other⟩
  | runnerErase j =>
    simp only [step, Option.ite_none_right_eq_some] at run
    obtain ⟨⟨child, _⟩, run⟩ := run
    unfold Runner.erase at run
    cases points : h.runner.graph.parent j with
    | some p =>
      simp only [points] at run
      cases run
      rw [StepOk, points]
      exact detach_iff settled linked child
    | none =>
      simp only [points] at run
      rw [StepOk, points]
      by_cases root : j ∈ h.runner.rootJobs
      · rw [if_pos root] at run
        cases run
        exact linked_collect linked
      · rw [if_neg root] at run
        cases run
        rw [List.erase_of_not_mem root]
        exact iff_of_true linked (collected_noStray settled)
  | erase p c =>
    simp only [step, Option.ite_none_right_eq_some] at run
    obtain ⟨both, run⟩ := run
    cases run
    exact detach_iff settled linked both.2
  | hold j =>
    simp only [step, Option.ite_none_right_eq_some] at run
    obtain ⟨_, run⟩ := run
    cases run
    exact iff_of_true linked trivial
  | release j =>
    simp only [step, Option.ite_none_right_eq_some] at run
    obtain ⟨_, run⟩ := run
    cases run
    exact linked_collect linked

theorem step_settled {h after : Heap J} {op : Op J} (settled : h.Settled)
    (run : step h op = some after) : after.Settled := by
  cases op with
  | runnerSchedule j =>
    simp only [step, Option.ite_none_right_eq_some] at run
    obtain ⟨_, run⟩ := run
    cases run
    exact settled_collect _
  | schedule p c =>
    simp only [step, Option.ite_none_right_eq_some] at run
    obtain ⟨_, run⟩ := run
    split at run
    · cases run
      exact settled_collect _
    · cases run
      exact settled
  | runnerErase j =>
    simp only [step, Option.ite_none_right_eq_some] at run
    obtain ⟨_, run⟩ := run
    split at run
    · cases run
      exact settled_collect _
    · cases run
      exact settled
  | erase p c =>
    simp only [step, Option.ite_none_right_eq_some] at run
    obtain ⟨_, run⟩ := run
    cases run
    exact settled_collect _
  | hold j =>
    simp only [step, Option.ite_none_right_eq_some] at run
    obtain ⟨_, run⟩ := run
    cases run
    intro x member
    apply owned_mono (settled x member) _ fun q => List.Subset.refl _
    intro y owned
    cases owned with
    | inl held =>
      refine Or.inl ?_
      by_cases same : y = j
      · subst same
        exact Function.update_self ..
      · dsimp only
        rwa [Function.update_of_ne same]
    | inr root => exact Or.inr root
  | release j =>
    simp only [step, Option.ite_none_right_eq_some] at run
    obtain ⟨_, run⟩ := run
    cases run
    exact settled_collect _

theorem initial_linked (pool : WorkerPool) (jobs : Finset J) : ParentOk (initial pool jobs) := by
  constructor
  · intro c _ p points
    cases points
  · intro c _ _ q _
    exact List.not_mem_nil

theorem runActions_settled {pool : WorkerPool} {jobs : Finset J} {ops : List (Op J)} {h : Heap J}
    (run : runActions step ops (initial pool jobs) = some h) : h.Settled :=
  reaches_invariant (fun _ _ _ settled _ run => step_settled settled run)
    (runActions_reaches run) (initial_settled pool jobs)

/-- Pointers and child lists agree after every prefix of a sequence of
    operations if and only if every operation of it that can be made finds
    the state that `StepOk` asks for. -/
theorem parent_pointers_iff (pool : WorkerPool) (jobs : Finset J) (ops : List (Op J)) :
    (∀ done h, done <+: ops → runActions step done (initial pool jobs) = some h → ParentOk h) ↔
    ∀ done op h after, done ++ [op] <+: ops →
      runActions step done (initial pool jobs) = some h → step h op = some after → StepOk h op := by
  constructor
  · intro always done op h after made run next
    have last : runActions step (done ++ [op]) (initial pool jobs) = some after := by
      rw [runActions_concat, run]
      exact next
    have before := always done h ((List.prefix_append _ _).trans made) run
    exact (step_iff (runActions_settled run) before next).mp (always _ after made last)
  · intro guarded done
    induction done using List.reverseRecOn with
    | nil =>
      intro h _ run
      cases run
      exact initial_linked pool jobs
    | append_singleton done op ih =>
      intro after made run
      rw [runActions_concat] at run
      obtain ⟨h, before, next⟩ := Option.bind_eq_some_iff.mp run
      have linked := ih h ((List.prefix_append _ _).trans made) before
      exact (step_iff (runActions_settled before) linked next).mpr
        (guarded done op h after made before next)

/-- A job under two parents loses its pointer when the second lets it go. -/
theorem second_parent_erases : ∃ h : Heap Nat, runActions step
    [.schedule 0 2, .schedule 1 2, .erase 1 2] (initial ⟨0, 0, ∅⟩ {0, 1, 2}) = some h ∧
    ¬ ParentOk h := by
  have run : ∃ h : Heap Nat, runActions step
      [.schedule 0 2, .schedule 1 2, .erase 1 2] (initial ⟨0, 0, ∅⟩ {0, 1, 2}) = some h ∧
      h.live = {0, 1, 2} ∧ h.runner.graph.parent 2 = none ∧ h.runner.graph.children 0 = [2] :=
    ⟨_, rfl, rfl, rfl, rfl⟩
  obtain ⟨h, taken, live, points, owner⟩ := run
  refine ⟨h, taken, ?_⟩
  intro linked
  have apart := linked.down 2 (by rw [live]; decide) points 0 (by rw [live]; decide)
  rw [owner] at apart
  exact apart (List.mem_singleton.mpr rfl)

end SchedOwnership
