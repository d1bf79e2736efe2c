import SteampunkGame.Lib.Runs
import SteampunkGame.Sched.Runner

/-!
Exited jobs in the arbiter's copies. Between the copy of a list and the visit
of its jobs anybody may exit, schedule or erase jobs, and a job is destroyed
when nothing owns it any more; the arbiter erases an exited job when it meets
it. A call of a body is one step, and so is the visit of one job.
-/
namespace SchedErase
open SchedJob SchedPool SchedRunner Runs
variable {J : Type}

/-- `todo` is the rest of the buffer that the arbiter walks; `st` holds the
    buffer that it fills. -/
structure Frames (J : Type) where
  st : Assigning J
  todo : List J
  live : Finset J

inductive Action (J : Type) where
  | exit (self : J) (code : Int)
  | schedule (self child : J)
  | erase (self child : J)
  | runnerSchedule (toSchedule : J)
  | runnerErase (toErase : J)
  | destroy (job : J)
  | visit
  | nextSubCycle
  | nextFrame
  deriving DecidableEq, Repr

abbrev Frames.graph (s : Frames J) : JobGraph J := s.st.runner.graph

abbrev Frames.rootJobs (s : Frames J) : List J := s.st.runner.rootJobs

def Frames.setRunner (s : Frames J) (runner : Runner J) : Frames J :=
  { s with st := { s.st with runner := runner } }

def Frames.setGraph (s : Frames J) (graph : JobGraph J) : Frames J :=
  s.setRunner { s.st.runner with graph := graph }

/-- Copies still to be visited in this frame. -/
def Frames.copies (s : Frames J) : List J := s.todo ++ s.st.runNext

/-- No job constructed so far is scheduled anywhere. -/
def initial (pool : WorkerPool) (live : Finset J) : Frames J :=
  ⟨⟨⟨.initial, [], pool⟩, 0, [], []⟩, [], live⟩

/-- The call `runner::erase` finds the job in its parent or in the root list. -/
def Found (s : Frames J) (c : J) : Prop :=
  (∃ p ∈ s.live, s.graph.parent c = some p ∧ c ∈ s.graph.children p) ∨
    s.graph.parent c = none ∧ c ∈ s.rootJobs

/-- Some list through which the arbiter may yet come to the job, other than the
    copies and the children of `p`. -/
def Listed (s : Frames J) (except : Option J) (c : J) : Prop :=
  ∃ q ∈ s.live, some q ≠ except ∧ s.graph.exited q = false ∧ c ∈ s.graph.children q

/-- The arbiter may yet come to the job. -/
def Met (s : Frames J) (c : J) : Prop := c ∈ s.rootJobs ∨ c ∈ s.copies ∨ Listed s none c

/-- The lists hold live jobs, a pointer to a live job is matched by its list,
    and every exited job that may be met is found. -/
structure Sound (s : Frames J) : Prop where
  rootsLive : ∀ c ∈ s.rootJobs, c ∈ s.live
  copiesLive : ∀ c ∈ s.copies, c ∈ s.live
  childrenLive : ∀ p ∈ s.live, ∀ c ∈ s.graph.children p, c ∈ s.live
  linked : ∀ p ∈ s.live, ∀ c, s.graph.parent c = some p → c ∈ s.graph.children p
  found : ∀ c, s.graph.exited c = true → Met s c → Found s c

theorem sound_initial (pool : WorkerPool) (live : Finset J) : Sound (initial pool live) := by
  constructor
  · exact fun _ no => (by cases no)
  · exact fun _ no => (by cases no)
  · exact fun _ _ _ no => (by cases no)
  · exact fun _ _ _ no => (by cases no)
  · exact fun _ no => (by cases no)

theorem met_live {s : Frames J} {c : J} (sound : Sound s) (met : Met s c) : c ∈ s.live := by
  obtain root | copied | ⟨q, alive, _, _, listed⟩ := met
  · exact sound.rootsLive c root
  · exact sound.copiesLive c copied
  · exact sound.childrenLive q alive c listed

/-- A pointer that may be followed leads to the job. -/
theorem sound_parent {s : Frames J} {p c : J} (sound : Sound s) (alive : p ∈ s.live)
    (up : s.graph.parent c = some p) : Found s c :=
  Or.inl ⟨p, alive, up, sound.linked p alive c up⟩

/-- New copies of jobs that could be met before. -/
theorem sound_copied {s t : Frames J} (sound : Sound s) (runner : t.st.runner = s.st.runner)
    (live : t.live = s.live) (copies : ∀ c ∈ t.copies, Met s c) : Sound t := by
  refine ⟨?_, ?_, ?_, ?_, ?_⟩
  · simpa only [Frames.rootJobs, runner, live] using sound.rootsLive
  · intro c copied
    rw [live]
    exact met_live sound (copies c copied)
  · simpa only [Frames.graph, runner, live] using sound.childrenLive
  · simpa only [Frames.graph, runner, live] using sound.linked
  · simp only [Frames.graph, Frames.rootJobs, Found, Met, Listed, runner, live]
    intro c exited met
    apply sound.found c exited
    obtain root | copied | listed := met
    · exact Or.inl root
    · exact copies c copied
    · exact Or.inr (Or.inr listed)

theorem sound_runnerSchedule {s : Frames J} {j : J} (sound : Sound s) (born : j ∈ s.live)
    (ok : s.graph.exited j = true → ∀ p ∈ s.graph.parent j, p ∈ s.live) :
    Sound (s.setRunner (s.st.runner.schedule j)) := by
  have placed : ∀ c, c ∈ s.rootJobs ++ [j] → c ∈ s.rootJobs ∨ c = j := fun c root =>
    (List.mem_append.mp root).imp_right List.mem_singleton.mp
  refine ⟨?_, sound.copiesLive, sound.childrenLive, sound.linked, ?_⟩
  · intro c root
    cases placed c root with
    | inl old => exact sound.rootsLive c old
    | inr new => rw [new]; exact born
  · intro c exited met
    have widen : Found s c → Found (s.setRunner (s.st.runner.schedule j)) c :=
      Or.imp_right fun found => ⟨found.1, List.mem_append_left _ found.2⟩
    obtain root | later := met
    · cases placed c root with
      | inl old => exact widen (sound.found c exited (Or.inl old))
      | inr new =>
        subst new
        cases up : s.graph.parent c with
        | none => exact Or.inr ⟨up, List.mem_append_right _ List.mem_cons_self⟩
        | some p => exact widen (sound_parent sound (ok exited p up) up)
    · exact widen (sound.found c exited (Or.inr later))

variable [DecidableEq J]

/-- Nothing in the scheduler owns the job. -/
def Frames.Unowned (s : Frames J) (j : J) : Prop :=
  j ∉ s.rootJobs ∧ j ∉ s.copies ∧ ∀ p ∈ s.live, j ∉ s.graph.children p

instance (s : Frames J) (j : J) : Decidable (s.Unowned j) :=
  inferInstanceAs (Decidable (_ ∧ _ ∧ _))

/-- A pointer to a destroyed job must not be followed; an exception that leaves
    `assign_job` ends the process. -/
def step (s : Frames J) : Action J → Option (Frames J)
  | .exit self code => if self ∈ s.live then some (s.setGraph (s.graph.exit self code)) else none
  | .schedule self child =>
      if self ∈ s.live ∧ child ∈ s.live then
        match s.graph.schedule self child with
        | .ok graph => some (s.setGraph graph)
        | .error _ => some s
      else none
  | .erase self child =>
      if self ∈ s.live ∧ child ∈ s.live then some (s.setGraph (s.graph.erase self child)) else none
  | .runnerSchedule toSchedule =>
      if toSchedule ∈ s.live then some (s.setRunner (s.st.runner.schedule toSchedule)) else none
  | .runnerErase toErase =>
      if toErase ∈ s.live ∧ (s.graph.parent toErase).all (· ∈ s.live) then
        match s.st.runner.erase toErase with
        | .ok runner => some (s.setRunner runner)
        | .error _ => some s
      else none
  | .destroy job =>
      if s.Unowned job then some { s with live := s.live.erase job } else none
  | .visit =>
      match s.todo with
      | [] => none
      | job :: rest =>
          if s.graph.exited job = true ∧ (s.graph.parent job).any (· ∉ s.live) then none
          else
            match assignJob 1 job s.st with
            | .ok st => some { s with st := st, todo := rest }
            | .error _ => none
  | .nextSubCycle =>
      if s.todo = [] ∧ s.st.runNext ≠ [] then
        some { s with todo := s.st.runNext, st := { s.st with runNext := [] } }
      else none
  | .nextFrame =>
      if s.todo = [] ∧ s.st.runNext = [] then some { s with todo := s.rootJobs } else none

/-- The arbiter can go on from an exited job. -/
def Meets (s : Frames J) : Prop :=
  ∀ job rest, s.todo = job :: rest → s.graph.exited job = true →
    Found s job ∧ ∃ runner, s.st.runner.erase job = .ok runner

/-- Clearing the pointer of an exited job leaves it in the root list, or it is
    neither copied nor in another list. -/
def DetachOk (s : Frames J) (copies : List J) (p c : J) : Prop :=
  s.graph.exited c = true → c ∈ s.rootJobs ∨ c ∉ copies ∧ ¬ Listed s (some p) c

/-- The same for the call of the runner. -/
def RemoveOk (s : Frames J) (copies : List J) (c : J) : Prop :=
  match s.graph.parent c with
  | some p => DetachOk s copies p c
  | none => s.graph.exited c = true →
      c ∈ s.rootJobs.erase c ∨ c ∉ copies ∧ ¬ Listed s none c

/-- Where an exited job is removed from the place at which the runner would
    look for it, the arbiter will not come to it again; and a job exits only
    while it is found or the arbiter will not come to it. -/
def EraseOk (s : Frames J) : Action J → Prop
  | .exit self _ => Met s self → Found s self
  | .erase self child => DetachOk s s.copies self child
  | .runnerSchedule job => s.graph.exited job = true → ∀ p ∈ s.graph.parent job, p ∈ s.live
  | .runnerErase job => RemoveOk s s.copies job
  | .destroy job => ∀ c ∈ s.live, s.graph.exited c = true → Met s c → s.graph.parent c ≠ some job
  | .visit =>
      match s.todo with
      | [] => True
      | job :: rest => s.graph.exited job = true → RemoveOk s (rest ++ s.st.runNext) job
  | .schedule _ _ | .nextSubCycle | .nextFrame => True

theorem sound_exit {s : Frames J} {self : J} {code : Int} (sound : Sound s)
    (ok : Met s self → Found s self) : Sound (s.setGraph (s.graph.exit self code)) := by
  obtain ⟨rootsLive, copiesLive, childrenLive, linked, found⟩ := sound
  refine ⟨rootsLive, copiesLive, childrenLive, linked, ?_⟩
  intro c exited met
  have before : Met s c := by
    obtain root | copied | ⟨q, alive, other, running, listed⟩ := met
    · exact Or.inl root
    · exact Or.inr (Or.inl copied)
    · refine Or.inr (Or.inr ⟨q, alive, other, ?_, listed⟩)
      have flag : Function.update s.graph.exited self true q = false := running
      by_cases same : q = self
      · rw [same, Function.update_self] at flag
        cases flag
      · rwa [Function.update_of_ne same] at flag
  have flag : Function.update s.graph.exited self true c = true := exited
  by_cases same : c = self
  · subst same
    exact ok before
  · rw [Function.update_of_ne same] at flag
    exact found c flag before

theorem sound_schedule {s : Frames J} {self child : J} {graph : JobGraph J} (sound : Sound s)
    (alive : self ∈ s.live) (born : child ∈ s.live)
    (run : s.graph.schedule self child = .ok graph) : Sound (s.setGraph graph) := by
  obtain ⟨rootsLive, copiesLive, childrenLive, linked, found⟩ := sound
  obtain ⟨apart, parent, children, exits⟩ := schedule_ok run
  have grown : ∀ q c, c ∈ s.graph.children q → c ∈ graph.children q := by
    intro q c listed
    rw [children]
    by_cases same : q = self
    · subst same
      rw [Function.update_self]
      exact List.mem_append_left _ listed
    · rw [Function.update_of_ne same]
      exact listed
  have only : ∀ q c, c ∈ graph.children q → c ∈ s.graph.children q ∨ c = child := by
    intro q c listed
    rw [children] at listed
    by_cases same : q = self
    · subst same
      rw [Function.update_self] at listed
      exact (List.mem_append.mp listed).imp_right List.mem_singleton.mp
    · rw [Function.update_of_ne same] at listed
      exact Or.inl listed
  have above : graph.parent child = some self := by rw [parent, Function.update_self]
  have last : child ∈ graph.children self := by
    rw [children, Function.update_self]
    exact List.mem_append_right _ List.mem_cons_self
  have kept : ∀ c, c ≠ child → graph.parent c = s.graph.parent c := fun c other => by
    rw [parent, Function.update_of_ne other]
  refine ⟨rootsLive, copiesLive, ?_, ?_, ?_⟩
  · intro p there c listed
    cases only p c listed with
    | inl old => exact childrenLive p there c old
    | inr new => rw [new]; exact born
  · intro p there c up
    change graph.parent c = some p at up
    by_cases new : c = child
    · subst new
      rw [above] at up
      cases up
      exact last
    · rw [kept c new] at up
      exact grown p c (linked p there c up)
  · intro c exited met
    by_cases new : c = child
    · subst new
      exact Or.inl ⟨self, alive, above, last⟩
    · have before : Met s c := by
        obtain root | copied | ⟨q, there, other, running, listed⟩ := met
        · exact Or.inl root
        · exact Or.inr (Or.inl copied)
        · change graph.exited q = false at running
          rw [exits] at running
          exact Or.inr (Or.inr ⟨q, there, other, running, (only q c listed).resolve_right new⟩)
      change graph.exited c = true at exited
      rw [exits] at exited
      obtain ⟨p, there, up, listed⟩ | ⟨up, root⟩ := found c exited before
      · exact Or.inl ⟨p, there, (kept c new).trans up, grown p c listed⟩
      · exact Or.inr ⟨(kept c new).trans up, root⟩

/-- `p.erase(c)`, by a body or by the arbiter. -/
theorem sound_detach {s t : Frames J} {p c : J} (sound : Sound s) (ok : DetachOk s t.copies p c)
    (fewer : t.copies ⊆ s.copies) (graph : t.graph = s.graph.erase p c)
    (roots : t.rootJobs = s.rootJobs) (live : t.live = s.live) : Sound t := by
  obtain ⟨rootsLive, copiesLive, childrenLive, linked, found⟩ := sound
  have listed : ∀ q x, x ∈ t.graph.children q ↔ x ∈ s.graph.children q ∧ ¬ (q = p ∧ x = c) := by
    intro q x
    rw [graph]
    exact erase_edge s.graph p c q x
  have cleared : t.graph.parent c = none := by
    rw [graph]
    exact Function.update_self ..
  have kept : ∀ x, x ≠ c → t.graph.parent x = s.graph.parent x := by
    intro x other
    rw [graph]
    exact Function.update_of_ne other ..
  have exits : t.graph.exited = s.graph.exited := by rw [graph, erase_exited]
  constructor
  · rw [roots, live]
    exact rootsLive
  · rw [live]
    exact fun x copied => copiesLive x (fewer copied)
  · rw [live]
    exact fun q there x child => childrenLive q there x ((listed q x).mp child).1
  · rw [live]
    intro q there x up
    by_cases same : x = c
    · rw [same, cleared] at up
      cases up
    · rw [kept x same] at up
      exact (listed q x).mpr ⟨linked q there x up, fun both => same both.2⟩
  · intro x exited met
    rw [exits] at exited
    by_cases same : x = c
    · subst same
      right
      refine ⟨cleared, ?_⟩
      rw [roots]
      obtain root | gone := ok exited
      · exact root
      · obtain root | copied | ⟨q, there, _, running, child⟩ := met
        · rw [← roots]
          exact root
        · exact absurd copied gone.1
        · rw [exits] at running
          rw [live] at there
          obtain ⟨old, other⟩ := (listed q x).mp child
          have apart : some q ≠ some p := fun eq => other ⟨Option.some.inj eq, rfl⟩
          exact absurd ⟨q, there, apart, running, old⟩ gone.2
    · have before : Met s x := by
        obtain root | copied | ⟨q, there, other, running, child⟩ := met
        · exact Or.inl (by rw [← roots]; exact root)
        · exact Or.inr (Or.inl (fewer copied))
        · rw [exits] at running
          rw [live] at there
          exact Or.inr (Or.inr ⟨q, there, other, running, ((listed q x).mp child).1⟩)
      obtain ⟨q, there, up, child⟩ | ⟨up, root⟩ := found x exited before
      · refine Or.inl ⟨q, by rw [live]; exact there, (kept x same).trans up, ?_⟩
        exact (listed q x).mpr ⟨child, fun both => same both.2⟩
      · exact Or.inr ⟨(kept x same).trans up, by rw [roots]; exact root⟩

/-- The removal of one occurrence from the root list. -/
theorem sound_remove {s t : Frames J} {c : J} (sound : Sound s)
    (ok : s.graph.exited c = true →
      c ∈ s.rootJobs.erase c ∨ c ∉ t.copies ∧ ¬ Listed s none c)
    (fewer : t.copies ⊆ s.copies) (graph : t.graph = s.graph)
    (roots : t.rootJobs = s.rootJobs.erase c) (live : t.live = s.live)
    (up : s.graph.parent c = none) : Sound t := by
  obtain ⟨rootsLive, copiesLive, childrenLive, linked, found⟩ := sound
  constructor
  · rw [roots, live]
    exact fun x root => rootsLive x (List.mem_of_mem_erase root)
  · rw [live]
    exact fun x copied => copiesLive x (fewer copied)
  · rw [live, graph]
    exact childrenLive
  · rw [live, graph]
    exact linked
  · intro x exited met
    rw [graph] at exited
    have listed : Listed t none x → Listed s none x := by
      intro child
      rw [Listed, graph, live] at child
      exact child
    by_cases same : x = c
    · subst same
      right
      rw [graph, roots]
      refine ⟨up, ?_⟩
      obtain root | gone := ok exited
      · exact root
      · obtain root | copied | child := met
        · rw [← roots]
          exact root
        · exact absurd copied gone.1
        · exact absurd (listed child) gone.2
    · have before : Met s x := by
        obtain root | copied | child := met
        · rw [roots] at root
          exact Or.inl (List.mem_of_mem_erase root)
        · exact Or.inr (Or.inl (fewer copied))
        · exact Or.inr (Or.inr (listed child))
      rw [Found, graph, live, roots, List.mem_erase_of_ne same]
      exact found x exited before

/-- A call of `runner::erase` that does not throw. -/
theorem sound_removed {s t : Frames J} {c : J} {runner : Runner J} (sound : Sound s)
    (ok : RemoveOk s t.copies c) (run : s.st.runner.erase c = .ok runner)
    (after : t.st.runner = runner) (fewer : t.copies ⊆ s.copies) (live : t.live = s.live) :
    Sound t := by
  unfold Runner.erase at run
  unfold RemoveOk at ok
  split at run
  · rename_i p up
    cases run
    rw [show s.graph.parent c = some p from up] at ok
    exact sound_detach sound ok fewer (by rw [Frames.graph, after]) (by rw [Frames.rootJobs, after])
      live
  · rename_i up
    rw [show s.graph.parent c = none from up] at ok
    split at run
    · cases run
      exact sound_remove sound ok fewer (by rw [Frames.graph, after])
        (by rw [Frames.rootJobs, after]) live up
    · cases run

/-- The runner finds a job that is found. -/
theorem found_erase {s : Frames J} {c : J} (found : Found s c) :
    ∃ runner, s.st.runner.erase c = .ok runner := by
  unfold Runner.erase
  obtain ⟨p, _, up, _⟩ | ⟨up, root⟩ := found
  · rw [show s.st.runner.graph.parent c = some p from up]
    exact ⟨_, rfl⟩
  · rw [show s.st.runner.graph.parent c = none from up]
    exact ⟨_, if_pos root⟩

theorem sound_destroy {s : Frames J} {j : J} (sound : Sound s) (unowned : s.Unowned j)
    (ok : ∀ c ∈ s.live, s.graph.exited c = true → Met s c → s.graph.parent c ≠ some j) :
    Sound { s with live := s.live.erase j } := by
  obtain ⟨unrooted, uncopied, unlisted⟩ := unowned
  constructor
  · intro c root
    exact Finset.mem_erase.mpr ⟨fun eq => unrooted (eq ▸ root), sound.rootsLive c root⟩
  · intro c copied
    exact Finset.mem_erase.mpr ⟨fun eq => uncopied (eq ▸ copied), sound.copiesLive c copied⟩
  · intro p there c child
    have alive := Finset.mem_of_mem_erase there
    exact Finset.mem_erase.mpr
      ⟨fun eq => unlisted p alive (eq ▸ child), sound.childrenLive p alive c child⟩
  · exact fun p there => sound.linked p (Finset.mem_of_mem_erase there)
  · intro c exited met
    have before : Met s c := met.imp_right (Or.imp_right fun ⟨q, there, listed⟩ =>
      ⟨q, Finset.mem_of_mem_erase there, listed⟩)
    have alive := met_live sound before
    obtain ⟨p, there, up, child⟩ | root := sound.found c exited before
    · refine Or.inl ⟨p, Finset.mem_erase.mpr ⟨?_, there⟩, up, child⟩
      intro eq
      exact ok c alive exited before (eq ▸ up)
    · exact Or.inr root

/-- One call of `assign_job`. -/
theorem sound_visit {s : Frames J} {job : J} {rest : List J} {st : Assigning J} (sound : Sound s)
    (todo : s.todo = job :: rest)
    (ok : s.graph.exited job = true → RemoveOk s (rest ++ s.st.runNext) job)
    (run : assignJob 1 job s.st = .ok st) : Sound { s with st := st, todo := rest } := by
  have fewer : rest ++ s.st.runNext ⊆ s.copies := by
    rw [Frames.copies, todo]
    exact fun c mem => List.mem_cons_of_mem job mem
  obtain ⟨exited, runner, erased, same, next, _⟩ | ⟨_, same, next, _⟩ | ⟨running, same, next, _⟩ :=
    assignJob_cases run
  · refine sound_removed sound ?_ erased same ?_ rfl
    · rw [Frames.copies, next]
      exact ok exited
    · rw [Frames.copies, next]
      exact fewer
  · -- the job was dropped for want of a worker
    refine sound_copied sound same rfl fun c copied => ?_
    rw [Frames.copies, next] at copied
    exact Or.inr (Or.inl (fewer copied))
  · -- its children are copied into the other buffer
    have alive : job ∈ s.live := by
      apply sound.copiesLive
      rw [Frames.copies, todo]
      exact List.mem_cons_self
    refine sound_copied sound same rfl fun c copied => ?_
    rw [Frames.copies, next, ← List.append_assoc] at copied
    cases List.mem_append.mp copied with
    | inl old => exact Or.inr (Or.inl (fewer old))
    | inr child => exact Or.inr (Or.inr ⟨job, alive, Option.some_ne_none job, running, child⟩)

theorem sound_step {s t : Frames J} {a : Action J} (sound : Sound s) (ok : EraseOk s a)
    (run : step s a = some t) : Sound t := by
  cases a with
  | exit self code =>
    simp only [step] at run
    split at run <;> cases run
    exact sound_exit sound ok
  | schedule self child =>
    simp only [step] at run
    split at run
    · rename_i alive
      split at run <;> cases run
      · rename_i graph scheduled
        exact sound_schedule sound alive.1 alive.2 scheduled
      · exact sound
    · cases run
  | erase self child =>
    simp only [step] at run
    split at run <;> cases run
    exact sound_detach sound ok (fun _ copied => copied) rfl rfl rfl
  | runnerSchedule job =>
    simp only [step] at run
    split at run <;> cases run
    rename_i alive
    exact sound_runnerSchedule sound alive ok
  | runnerErase job =>
    simp only [step] at run
    split at run
    · split at run <;> cases run
      · rename_i runner erased
        exact sound_removed sound ok erased rfl (fun _ copied => copied) rfl
      · exact sound
    · cases run
  | destroy job =>
    simp only [step] at run
    split at run <;> cases run
    rename_i unowned
    exact sound_destroy sound unowned ok
  | visit =>
    cases todo : s.todo with
    | nil => simp only [step, todo] at run; cases run
    | cons job rest =>
      simp only [step, todo] at run
      simp only [EraseOk, todo] at ok
      split at run
      · cases run
      · split at run <;> cases run
        rename_i st assigned
        exact sound_visit sound todo ok assigned
  | nextSubCycle =>
    simp only [step] at run
    split at run <;> cases run
    refine sound_copied sound rfl rfl fun c copied => Or.inr (Or.inl ?_)
    rw [Frames.copies, List.append_nil] at copied
    exact List.mem_append_right _ copied
  | nextFrame =>
    simp only [step] at run
    split at run <;> cases run
    rename_i empty
    refine sound_copied sound rfl rfl fun c copied => Or.inl ?_
    rw [Frames.copies, empty.2, List.append_nil] at copied
    exact copied

/-- Exited jobs that the arbiter meets, in every run in which an exited job is
    removed only where the arbiter will not come to it again. -/
theorem exited_found {pool : WorkerPool} {live : Finset J} {s : Frames J}
    (walk : Reaches step EraseOk (initial pool live) s) : Meets s := by
  have sound := reaches_invariant (fun _ _ _ before ok run => sound_step before ok run) walk
    (sound_initial pool live)
  intro job rest todo exited
  have copied : job ∈ s.copies := by
    rw [Frames.copies, todo]
    exact List.mem_cons_self
  have found := sound.found job exited (Or.inr (Or.inl copied))
  exact ⟨found, found_erase found⟩

/-- An exited child is met in the sub-cycle after its parent ran. -/
theorem exited_found_child : ∃ s : Frames Nat,
    Reaches step EraseOk (initial (filledPool 1) {0, 1}) s ∧ s.todo = [1] ∧
      s.graph.exited 1 = true ∧ Meets s := by
  have run : ∃ s : Frames Nat, Reaches step EraseOk (initial (filledPool 1) {0, 1}) s ∧
      s.todo = [1] ∧ s.graph.exited 1 = true :=
    ⟨_, .head ⟨.runnerSchedule 0, fun no => (by cases no), rfl⟩
      (.head ⟨.schedule 0 1, trivial, rfl⟩ (.head ⟨.nextFrame, trivial, rfl⟩
      (.head ⟨.visit, fun no => (by cases no), rfl⟩
      (.head ⟨.exit 1 0, fun _ => Or.inl ⟨0, by decide, rfl, by decide⟩, rfl⟩
      (.head ⟨.nextSubCycle, trivial, rfl⟩ .refl))))), rfl, rfl⟩
  obtain ⟨s, walk, todo, exited⟩ := run
  exact ⟨s, walk, todo, exited, exited_found walk⟩

/-- A child that was scheduled twice exits, or it exits and its parent erases
    it. Either way it is met after it was removed. -/
theorem exited_job_lost :
    (∃ s : Frames Nat, Reaches step anyAction (initial (filledPool 1) {0, 1}) s ∧
      s.todo = [1] ∧ ¬ Meets s ∧ assignJob 1 1 s.st = .error (.terminate "Cannot find job")) ∧
    ∃ s : Frames Nat, Reaches step anyAction (initial (filledPool 1) {0, 1}) s ∧
      s.todo = [1] ∧ ¬ Meets s ∧ assignJob 1 1 s.st = .error (.terminate "Cannot find job") := by
  have lost : ∀ s : Frames Nat, s.todo = [1] → s.graph.exited 1 = true →
      s.graph.parent 1 = none → s.rootJobs = [0] →
      ¬ Meets s ∧ assignJob 1 1 s.st = .error (.terminate "Cannot find job") := by
    intro s todo exited up roots
    have erases : s.st.runner.erase 1 = .error "Cannot find job" := by
      unfold Runner.erase
      rw [show s.st.runner.graph.parent 1 = none from up,
        show s.st.runner.rootJobs = [0] from roots]
      rfl
    constructor
    · intro meets
      obtain ⟨_, runner, finds⟩ := meets 1 [] todo exited
      rw [erases] at finds
      cases finds
    · rw [assignJob, if_pos exited, erases]
  have ends : ∀ actions : List (Action Nat),
      ((runActions step actions (initial (filledPool 1) {0, 1})).map fun s =>
        (s.todo, s.graph.exited 1, s.graph.parent 1, s.rootJobs)) = some ([1], true, none, [0]) →
      ∃ s : Frames Nat, Reaches step anyAction (initial (filledPool 1) {0, 1}) s ∧
        s.todo = [1] ∧ ¬ Meets s ∧
          assignJob 1 1 s.st = .error (.terminate "Cannot find job") := by
    intro actions run
    obtain ⟨s, walk, seen⟩ := runActions_view _ run
    simp only [Prod.mk.injEq] at seen
    obtain ⟨todo, exited, up, roots⟩ := seen
    exact ⟨s, walk, todo, lost s todo exited up roots⟩
  constructor
  · exact ends [.runnerSchedule 0, .schedule 0 1, .schedule 0 1, .nextFrame, .visit, .exit 1 0,
      .nextSubCycle, .visit] (by decide +kernel)
  · exact ends [.runnerSchedule 0, .schedule 0 1, .nextFrame, .visit, .exit 1 0, .erase 0 1,
      .nextSubCycle] (by decide +kernel)

end SchedErase
