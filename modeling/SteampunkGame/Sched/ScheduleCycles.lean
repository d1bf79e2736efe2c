import SteampunkGame.Sched.FrameTraversal
import SteampunkGame.Sched.JobCount

/-!
Cycles in the child lists. `job::schedule` compares the new child with the
job itself only, so acyclicity depends on the callers; the frame loop and the
count have no other reason to stop.
-/
namespace SchedCycle
open LevelOrder WhileLoop SchedJob SchedPool SchedRunner SchedRoundRobin SchedFrame SchedJobCount
variable {J : Type}

inductive ChildCall (J : Type) where
  | schedule (self child : J)
  | erase (self child : J)
  deriving DecidableEq, Repr

def ChildCall.jobs : ChildCall J → List J
  | .schedule self child => [self, child]
  | .erase self child => [self, child]

theorem waitForWorkers_fields {a b : Arbiter J} (run : a.waitForWorkers = .ok b) :
    b.runner = a.runner ∧ b.jobs1 = a.jobs1 ∧ b.jobs2 = a.jobs2 ∧
      b.subCycles.length = a.subCycles.length + 1 := by
  unfold Arbiter.waitForWorkers at run
  split at run
  · cases run
    simp
  · cases run

variable [DecidableEq J]

/-- A call that throws leaves the graph unchanged. -/
def ChildCall.apply (g : JobGraph J) : ChildCall J → JobGraph J
  | .schedule self child =>
      match g.schedule self child with
      | .ok after => after
      | .error _ => g
  | .erase self child => g.erase self child

def applyAll (g : JobGraph J) (calls : List (ChildCall J)) : JobGraph J :=
  calls.foldl ChildCall.apply g

/-- The call puts a job under one of its own proper descendants. -/
def ClosesCycle (g : JobGraph J) (call : ChildCall J) : Prop :=
  ∃ self child, call = .schedule self child ∧ child ≠ self ∧
    Relation.TransGen (Edge g.children) child self

def Acyclic (g : JobGraph J) : Prop := ∀ j, ¬ Relation.TransGen (Edge g.children) j j

theorem apply_edge (g : JobGraph J) (call : ChildCall J) (a b : J) :
    Edge (call.apply g).children a b →
      Edge g.children a b ∨ (a ≠ b ∧ call = .schedule a b) := by
  cases call with
  | schedule self child =>
    simp only [ChildCall.apply]
    split
    · rename_i after run
      intro edge
      rcases (schedule_edge run a b).mp edge with old | ⟨same_a, same_b⟩
      · exact Or.inl old
      · refine Or.inr ⟨?_, by rw [same_a, same_b]⟩
        rw [same_a, same_b]
        exact Ne.symm (schedule_ok run).1
    · exact Or.inl
  | erase self child =>
    intro edge
    exact Or.inl ((erase_edge g self child a b).mp edge).1

theorem schedule_adds_edge {g : JobGraph J} {self child : J} (other : child ≠ self) :
    (∀ a b, Edge g.children a b → Edge (ChildCall.apply g (.schedule self child)).children a b) ∧
      Edge (ChildCall.apply g (.schedule self child)).children self child := by
  have run : ∃ after, g.schedule self child = .ok after := by simp [JobGraph.schedule, other]
  obtain ⟨after, run⟩ := run
  simp only [ChildCall.apply, run]
  exact ⟨fun a b edge => (schedule_edge run a b).mpr (Or.inl edge),
    (schedule_edge run self child).mpr (Or.inr ⟨rfl, rfl⟩)⟩

/-- A walk in the new graph uses old edges, or goes through the new one. -/
theorem walk_through {g : JobGraph J} {call : ChildCall J} {a b : J}
    (walk : Relation.TransGen (Edge (call.apply g).children) a b) :
    Relation.TransGen (Edge g.children) a b ∨
      ∃ self child, call = .schedule self child ∧ child ≠ self ∧
        Relation.ReflTransGen (Edge g.children) a self ∧
        Relation.ReflTransGen (Edge (call.apply g).children) child b := by
  induction walk with
  | single edge =>
    rcases apply_edge g call _ _ edge with old | ⟨ne, new⟩
    · exact Or.inl (.single old)
    · exact Or.inr ⟨_, _, new, ne.symm, .refl, .refl⟩
  | tail walk edge ih =>
    rcases ih with old | ⟨self, child, new, ne, up, down⟩
    · rcases apply_edge g call _ _ edge with old_edge | ⟨ne, new⟩
      · exact Or.inl (old.tail old_edge)
      · exact Or.inr ⟨_, _, new, ne.symm, old.to_reflTransGen, .refl⟩
    · exact Or.inr ⟨self, child, new, ne, up, down.tail edge⟩

/-- Exactly the calls that close a cycle end acyclicity. -/
theorem apply_acyclic_iff {g : JobGraph J} (acyclic : Acyclic g) (call : ChildCall J) :
    Acyclic (call.apply g) ↔ ¬ ClosesCycle g call := by
  constructor
  · rintro after ⟨self, child, rfl, other, walk⟩
    obtain ⟨keep, new⟩ := schedule_adds_edge (g := g) other
    exact after self (.head new (Relation.TransGen.mono keep child self walk))
  · intro safe j loop
    rcases walk_through loop with old | ⟨self, child, new, other, up, down⟩
    · exact acyclic j old
    · -- follow the loop from the new child to the first use of the new edge
      have back : Relation.ReflTransGen (Edge g.children) child self := by
        rcases Relation.reflTransGen_iff_eq_or_transGen.mp down with same | walk
        · exact same ▸ up
        · rcases walk_through walk with old | ⟨_, _, again, _, up', _⟩
          · exact old.to_reflTransGen.trans up
          · cases new.symm.trans again
            exact up'
      rcases Relation.reflTransGen_iff_eq_or_transGen.mp back with same | walk
      · exact other same.symm
      · exact safe ⟨self, child, new, other, walk⟩

theorem applyAll_snoc (g : JobGraph J) (calls : List (ChildCall J)) (call : ChildCall J) :
    applyAll g (calls ++ [call]) = call.apply (applyAll g calls) := by
  simp [applyAll]

theorem applyAll_edge {g : JobGraph J} (empty : ∀ j, g.children j = [])
    {calls : List (ChildCall J)} {a b : J} (edge : Edge (applyAll g calls).children a b) :
    .schedule a b ∈ calls := by
  induction calls using List.reverseRecOn with
  | nil => simp [applyAll, Edge, empty] at edge
  | append_singleton calls call ih =>
    rw [applyAll_snoc] at edge
    rcases apply_edge _ call a b edge with old | ⟨_, new⟩
    · exact List.mem_append_left _ (ih old)
    · simp [new]

/-- A runner whose child lists lie within given ones. -/
def Within (ch : J → List J) (r : Runner J) : Prop := ∀ p, r.graph.children p ⊆ ch p

theorem erase_within {ch : J → List J} {r after : Runner J} {j : J} (within : Within ch r)
    (run : r.erase j = .ok after) : Within ch after := by
  unfold Runner.erase at run
  split at run
  · rename_i parent _
    cases run
    intro p c mem
    exact within p ((erase_edge r.graph parent j p c).mp mem).1
  · split at run
    · cases run
      exact within
    · cases run

theorem assignJob_within {ch : J → List J} {free : Nat} {job : J} {st after : Assigning J}
    (within : Within ch st.runner) (run : assignJob free job st = .ok after) :
    Within ch after.runner ∧ ∀ c ∈ after.runNext, c ∈ st.runNext ∨ c ∈ ch job := by
  rcases assignJob_cases run with ⟨_, runner, erased, same, next, _⟩ | ⟨_, same, next, _⟩ |
    ⟨_, same, next, _⟩
  · rw [same, next]
    exact ⟨erase_within within erased, fun c => Or.inl⟩
  · rw [same, next]
    exact ⟨within, fun c => Or.inl⟩
  · rw [same, next]
    refine ⟨within, fun c mem => ?_⟩
    exact (List.mem_append.mp mem).imp_right fun child => within job child

theorem assignAll_within {ch : J → List J} {js : List J} {st after : Assigning J}
    (within : Within ch st.runner) (run : assignAll js st = .ok after) :
    Within ch after.runner ∧ ∀ c ∈ after.runNext, c ∈ st.runNext ∨ ∃ j ∈ js, c ∈ ch j := by
  induction js generalizing st with
  | nil =>
    cases run
    exact ⟨within, fun c => Or.inl⟩
  | cons j rest ih =>
    simp only [assignAll, List.foldlM_cons] at run
    cases first : assignJob 1 j st with
    | error fault => rw [first] at run; cases run
    | ok next =>
      rw [first] at run
      obtain ⟨within', new⟩ := assignJob_within within first
      obtain ⟨last, all⟩ := ih within' run
      refine ⟨last, fun c mem => ?_⟩
      rcases all c mem with old | ⟨k, listed, child⟩
      · exact (new c old).imp_right fun child => ⟨j, by simp, child⟩
      · exact Or.inr ⟨k, List.mem_cons_of_mem j listed, child⟩

theorem nth_within {ch : J → List J} {a b : Arbiter J} (within : Within ch a.runner)
    (empty1 : a.jobs1 = []) (run : nthSubCycle a = .ok b) :
    Within ch b.runner ∧ b.jobs1 = [] ∧ (∀ c ∈ b.jobs2, ∃ j ∈ a.jobs2, c ∈ ch j) ∧
      b.subCycles.length = a.subCycles.length + 1 := by
  unfold nthSubCycle Arbiter.assignJobs2 at run
  cases assigned : assignAll a.jobs2 ⟨a.runner, a.nextWorkerId, a.jobs1, a.calls⟩ with
  | error fault => rw [assigned] at run; cases run
  | ok st =>
    rw [assigned] at run
    obtain ⟨runner, jobs1, jobs2, length⟩ := waitForWorkers_fields run
    obtain ⟨last, all⟩ := assignAll_within within assigned
    refine ⟨by rw [runner]; exact last, jobs1, fun c mem => ?_, length⟩
    rw [jobs2] at mem
    rcases all c mem with old | child
    · simp [empty1] at old
    · exact child

theorem zeroth_within {ch : J → List J} {a b : Arbiter J} (within : Within ch a.runner)
    (run : zerothSubCycle a = .ok b) : Within ch b.runner ∧ b.jobs1 = [] := by
  unfold zerothSubCycle Arbiter.assignJobs1 Arbiter.copyRoots at run
  cases assigned : assignAll (a.jobs1 ++ a.runner.rootJobs)
      ⟨a.runner, a.nextWorkerId, a.jobs2, a.calls⟩ with
  | error fault => rw [assigned] at run; cases run
  | ok st =>
    rw [assigned] at run
    obtain ⟨runner, jobs1, _, _⟩ := waitForWorkers_fields run
    exact ⟨by rw [runner]; exact (assignAll_within within assigned).1, jobs1⟩

/-- Whatever the pool, the flags and the buffers are, the loops of a frame over
    a finite acyclic graph come to an end. A fault ends them as well, also that
    of a call which waits for the pool mutex that its own thread holds. -/
theorem frame_terminates {ch : J → List J} {verts : Finset J}
    (closed : ∀ p c, c ∈ ch p → c ∈ verts) (acyclic : ∀ j, ¬ Relation.TransGen (Edge ch) j j)
    {a : Arbiter J} (within : Within ch a.runner) : ∃ fuel, frame fuel a ≠ none := by
  cases zeroth : zerothSubCycle a with
  | error fault => exact ⟨0, by simp [frame, zeroth]⟩
  | ok z =>
    obtain ⟨first, empty1⟩ := zeroth_within within zeroth
    have spans : Spans ch z.jobs2 (verts ∪ z.jobs2.toFinset) := by
      constructor
      · intro j mem
        simp [mem]
      · intro j _ c child
        simp [closed j c child]
    have loop := whileLoop_terminates (fun b : Arbiter J => !b.jobs2.isEmpty) nthSubCycle
      (fun b => ∃ d, b.subCycles.length = z.subCycles.length + d ∧ Within ch b.runner ∧
        b.jobs1 = [] ∧ ∀ j ∈ b.jobs2, j ∈ level ch d z.jobs2)
      (fun b => z.subCycles.length + (verts ∪ z.jobs2.toFinset).card - b.subCycles.length)
      (by
        rintro b c ⟨d, length, within, empty1, at_d⟩ go run
        obtain ⟨within', empty1', new, longer⟩ := nth_within within empty1 run
        have shallow : d < (verts ∪ z.jobs2.toFinset).card := by
          by_contra deep
          have none_left := level_exhausted spans (fun j _ => acyclic j) (Nat.le_of_not_lt deep)
          cases jobs2 : b.jobs2 with
          | nil => simp [jobs2] at go
          | cons j rest =>
            have := at_d j (by simp [jobs2])
            simp [none_left] at this
        refine ⟨⟨d + 1, by omega, within', empty1', fun c mem => ?_⟩, by omega⟩
        obtain ⟨j, listed, child⟩ := new c mem
        rw [level_succ, List.mem_flatMap]
        exact ⟨j, at_d j listed, child⟩)
      ⟨0, rfl, first, empty1, by simp⟩ (Nat.lt_succ_self _)
    generalize (z.subCycles.length + (verts ∪ z.jobs2.toFinset).card -
      z.subCycles.length).succ = fuel at loop
    obtain ⟨out, run⟩ := Option.ne_none_iff_exists'.mp loop
    refine ⟨fuel, ?_⟩
    simp only [frame, zeroth, subCycleLoop, run]
    cases out <;> simp

/-- What a frame needs for all its calls to return. -/
structure Staffed (n : UInt32) (a : Arbiter J) : Prop where
  static : StaticPool n a.runner.pool
  bound : a.nextWorkerId ≤ n
  live : ∀ j, a.runner.graph.exited j = false

theorem zeroth_staffed {n : UInt32} {a : Arbiter J} (staffed : Staffed n a)
    (empty1 : a.jobs1 = []) : ∃ b, zerothSubCycle a = .ok b ∧ Staffed n b := by
  obtain ⟨static, bound, live⟩ := staffed
  have run : assignAll a.runner.rootJobs ⟨a.runner, a.nextWorkerId, a.jobs2, a.calls⟩ = .ok _ :=
    assignAll_live static bound fun job _ => live job
  exact ⟨_, zeroth_eq empty1 static run, static, dealNext_le static.positive bound _, live⟩

theorem nth_staffed {n : UInt32} {a : Arbiter J} (staffed : Staffed n a) :
    ∃ b, nthSubCycle a = .ok b ∧ Staffed n b := by
  obtain ⟨static, bound, live⟩ := staffed
  have run : assignAll a.jobs2 ⟨a.runner, a.nextWorkerId, a.jobs1, a.calls⟩ = .ok _ :=
    assignAll_live static bound fun job _ => live job
  exact ⟨_, nth_eq static run, static, dealNext_le static.positive bound _, live⟩

/-- Without exited jobs a frame over a static pool has no fault. -/
theorem frame_returns {n : UInt32} {fuel : Nat} {a : Arbiter J} (staffed : Staffed n a)
    (empty1 : a.jobs1 = []) (ends : frame fuel a ≠ none) : ∃ b, frame fuel a = some (.ok b) := by
  obtain ⟨z, zeroth, first⟩ := zeroth_staffed staffed empty1
  simp only [frame, zeroth] at ends ⊢
  cases loop : subCycleLoop fuel z with
  | none => simp [loop] at ends
  | some out =>
    obtain ⟨b, rfl⟩ := whileLoop_returns (fun _ staffed _ => nth_staffed staffed) first loop
    exact ⟨_, rfl⟩

/-- What the scheduler needs of a job graph: no job is its own descendant, and
    the loops that follow the child lists end, by a fault or by returning. -/
structure Safe (g : JobGraph J) : Prop where
  acyclic : Acyclic g
  frames : ∀ a : Arbiter J, a.runner.graph.children = g.children → ∃ fuel, frame fuel a ≠ none
  counts : ∀ r : Runner J, r.graph.children = g.children → ∃ fuel, jobCount fuel r ≠ none

theorem safe_of_acyclic {g : JobGraph J} {verts : Finset J}
    (closed : ∀ p c, c ∈ g.children p → c ∈ verts) (acyclic : Acyclic g) : Safe g where
  acyclic := acyclic
  frames := by
    intro a same
    exact frame_terminates closed acyclic fun p c mem => same ▸ mem
  counts := by
    intro r same
    have spans : Spans r.graph.children r.rootJobs (verts ∪ r.rootJobs.toFinset) := by
      rw [same]
      constructor
      · intro j mem
        simp [mem]
      · intro j _ c child
        simp [closed j c child]
    have run := jobCount_levels spans (fun j _ => same ▸ acyclic j) (Nat.le_refl _)
    exact ⟨_, by rw [run]; simp⟩

/-- On a static pool and without exited jobs they return. -/
theorem safe_returns {g : JobGraph J} (safe : Safe g) {n : UInt32} {a : Arbiter J}
    (same : a.runner.graph.children = g.children) (staffed : Staffed n a) (empty1 : a.jobs1 = []) :
    ∃ fuel b, frame fuel a = some (.ok b) := by
  obtain ⟨fuel, ends⟩ := safe.frames a same
  exact ⟨fuel, frame_returns staffed empty1 ends⟩

/-- A sequence of calls keeps the graph acyclic, and with it the scheduler's
    loops terminating, exactly if no call closes a cycle. -/
theorem schedule_safe_iff {g : JobGraph J} (empty : ∀ j, g.children j = [])
    (calls : List (ChildCall J)) :
    (∀ pre, pre <+: calls → Safe (applyAll g pre)) ↔
      ∀ pre call, pre ++ [call] <+: calls → ¬ ClosesCycle (applyAll g pre) call := by
  constructor
  · intro safe pre call run
    have before := safe pre ((List.prefix_append pre [call]).trans run)
    have after := safe _ run
    rw [applyAll_snoc] at after
    exact (apply_acyclic_iff before.acyclic call).mp after.acyclic
  · intro careful pre run
    have closed : ∀ p c, c ∈ (applyAll g pre).children p →
        c ∈ (pre.flatMap ChildCall.jobs).toFinset := by
      intro p c mem
      simp only [List.mem_toFinset, List.mem_flatMap]
      exact ⟨_, applyAll_edge empty mem, by simp [ChildCall.jobs]⟩
    refine safe_of_acyclic closed ?_
    clear closed
    induction pre using List.reverseRecOn with
    | nil =>
      intro j loop
      obtain ⟨c, first, _⟩ := Relation.TransGen.head'_iff.mp loop
      simp [applyAll, Edge, empty] at first
    | append_singleton pre call ih =>
      rw [applyAll_snoc]
      have before := ih ((List.prefix_append pre [call]).trans run)
      exact (apply_acyclic_iff before call).mpr (careful pre call run)

/-- Two jobs that are scheduled under each other. Neither call throws, and the
    count over the result never returns. -/
theorem mutual_schedule_cycles :
    ¬ Acyclic (applyAll (.initial : JobGraph Bool) [.schedule false true, .schedule true false]) ∧
      ∀ fuel pool, jobCount fuel ⟨applyAll .initial [.schedule false true, .schedule true false],
        [false], pool⟩ = none := by
  have forth : (applyAll (.initial : JobGraph Bool)
      [.schedule false true, .schedule true false]).children = fun j => [!j] := by
    funext j
    revert j
    decide
  constructor
  · intro acyclic
    refine acyclic false (.tail (.single (?_ : Edge _ false true)) ?_) <;> simp [Edge, forth]
  · intro fuel pool
    have turns : ∀ size j, whileLoop (fun c : Counting Bool => !c.subJobs.isEmpty)
        (countStep (applyAll .initial [.schedule false true, .schedule true false])) fuel
          ⟨size, [j]⟩ = none := by
      induction fuel with
      | zero => intro size j; rfl
      | succ fuel ih =>
        intro size j
        rw [whileLoop_step rfl (countStep_eq _ size j [])]
        simpa [forth] using ih _ (!j)
    simp only [jobCount, countRoots, List.foldl_cons, List.foldl_nil, turns]

/-- One job under another. -/
theorem schedule_safe_chain :
    Safe (applyAll (.initial : JobGraph Bool) [ChildCall.schedule false true]) := by
  have careful : ∀ pre call, pre ++ [call] <+: [ChildCall.schedule false true] →
      ¬ ClosesCycle (applyAll (.initial : JobGraph Bool) pre) call := by
    intro pre call run closes
    obtain ⟨self, child, _, _, walk⟩ := closes
    have short : pre = [] := by
      have length := run.length_le
      simp only [List.length_append, List.length_singleton] at length
      exact List.length_eq_zero_iff.mp (by omega)
    subst short
    obtain ⟨c, first, _⟩ := Relation.TransGen.head'_iff.mp walk
    simp [applyAll, Edge, JobGraph.initial] at first
  exact (schedule_safe_iff (fun _ => rfl) _).mpr careful _ List.prefix_rfl

end SchedCycle
