import SteampunkGame.Sched.WorkerTracking

/-!
Which jobs have ended before which others start. After certain calls a worker
is known to be drained; everything handed to it before has then ended, and
every job that another worker starts later starts after that.
-/
namespace SchedOrder
open SchedWorker SchedSystem SchedTracking Runs
variable {W J : Type}

/-- Workers beside an arbiter that is about to make the calls of a program. -/
def launch (threads : W → Thread J) (program : List (Command W J)) : System W J :=
  ⟨threads, program, .ready, [], []⟩

/-- Nothing queued and nothing running. -/
structure Drained (t : Thread J) : Prop where
  inHand : t.pc.inHand = []
  jobs : t.worker.jobs = []

variable [DecidableEq W]

/-- The invariant of every run of `program`. -/
structure Coupled (pool : List W) (program : List (Command W J)) (s : System W J) : Prop where
  tracks : ∀ w ∈ pool, Tracks w s
  split : s.past ++ s.remaining = program

theorem tracks_launch {threads : W → Thread J} {w : W} (quiescent : Quiescent (threads w))
    (program : List (Command W J)) : Tracks w (launch threads program) := by
  obtain ⟨active, asleep, drained, resting, looping⟩ := quiescent
  have empty : (threads w).pc.inHand = [] := by
    cases pc : (threads w).pc with
    | executing job => rw [pc] at resting; cases resting
    | _ => rfl
  constructor
  · constructor
    · exact active
    · exact looping
    · intro busy
      have free : (threads w).pc.busy = true := busy
      rw [resting] at free
      cases free
  · simp [launch, empty, drained, assignedTo, endedBy]
  · simp [launch, empty, startedBy, endedBy]
  · exact ⟨asleep, fun _ => drained⟩

theorem coupled_launch {pool : List W} {threads : W → Thread J}
    (quiescent : ∀ w ∈ pool, Quiescent (threads w)) (program : List (Command W J)) :
    Coupled pool program (launch threads program) := by
  constructor
  · intro w member
    exact tracks_launch (quiescent w member) program
  · rfl

theorem coupled_stepped {pool : List W} {program : List (Command W J)} {s t : System W J}
    {a : Action W} (stepped : Stepped pool s a t) (coupled : Coupled pool program s) :
    Coupled pool program t := by
  constructor
  · intro w member
    exact tracks_stepped (coupled.tracks w member) stepped
  · rw [← coupled.split]
    cases stepped with
    | worker w threw thread effect action member run threads past log remaining =>
      rw [past, remaining]
    | assigned w job threads past log remaining => simp [past, remaining]
    | woken w threads past log remaining => simp [past, remaining]
    | passed w asleep threads past log remaining => simp [past, remaining]
    | calm threads past log remaining => rw [past, remaining]

theorem asleep_inHand {t : Thread J} (running : Running t) (asleep : t.worker.awake = false) :
    t.pc.inHand = [] := by
  cases pc : t.pc with
  | executing job =>
    have awake := running.awake (by rw [pc]; rfl)
    rw [asleep] at awake
    cases awake
  | _ => rfl

theorem tracks_asleep {w : W} {s : System W J} {drained : Bool} (tracks : Tracks w s)
    (idle : phase w s.past = .idle drained) : (s.threads w).worker.awake = false := by
  have fits := tracks.fits
  rw [idle] at fits
  exact fits.1

theorem tracks_idle {w : W} {s : System W J} (tracks : Tracks w s)
    (idle : phase w s.past = .idle true) : Drained (s.threads w) := by
  constructor
  · exact asleep_inHand tracks.running (tracks_asleep tracks idle)
  · have fits := tracks.fits
    rw [idle] at fits
    exact fits.2 rfl

theorem tracks_drained {w : W} {s : System W J} (tracks : Tracks w s)
    (drained : Drained (s.threads w)) : endedBy w s.log = assignedTo w s.past := by
  rw [← tracks.finished, drained.inHand, drained.jobs, List.append_nil, List.append_nil]

theorem started_length {w : W} {s : System W J} (tracks : Tracks w s) :
    (startedBy w s.log).length ≤ (assignedTo w s.past).length := by
  have whole := congrArg List.length tracks.finished
  rw [List.length_append] at whole
  rw [tracks.started]
  omega

theorem started_before {w : W} {job : J} {before log : List (Event W J)}
    (prefixed : before ++ [.started w job] <+: log) :
    (startedBy w before).length < (startedBy w log).length := by
  obtain ⟨after, eq⟩ := prefixed
  rw [← eq]
  simp [startedBy]

/-- `quiet v done` says that after the calls `done` worker `v` is drained.
    `ordered` looks at any start in the log: when the worker had already
    started all that `done` gave it, what `done` gave to `v` had ended. -/
structure Ordered (quiet : W → List (Command W J) → Prop) (pool : List W)
    (s : System W J) : Prop where
  closed : ∀ v ∈ pool, ∀ done, done <+: s.past → quiet v done →
    assignedTo v done <+: endedBy v s.log
  ordered : ∀ w ∈ pool, ∀ before job, before ++ [.started w job] <+: s.log →
    ∀ done, done <+: s.past → (assignedTo w done).length ≤ (startedBy w before).length →
    ∀ v ∈ pool, quiet v done → assignedTo v done <+: endedBy v before

theorem ordered_logged {quiet : W → List (Command W J) → Prop} {pool : List W} {s t : System W J}
    (ordered : Ordered quiet pool s) (past : t.past = s.past) (e : Event W J)
    (log : t.log = s.log ++ [e]) : Ordered quiet pool t := by
  constructor
  · intro v member done made drained
    rw [past] at made
    rw [log, endedBy_append]
    exact (ordered.closed v member done made drained).trans (List.prefix_append _ _)
  · intro w member before job prefixed done made reached v other drained
    rw [past] at made
    rw [log, List.prefix_concat_iff] at prefixed
    cases prefixed with
    | inl last =>
      -- the start itself is the new event
      obtain ⟨same, _⟩ := List.append_inj' last rfl
      rw [same]
      exact ordered.closed v other done made drained
    | inr earlier =>
      exact ordered.ordered w member before job earlier done made reached v other drained

theorem ordered_called {quiet : W → List (Command W J) → Prop} {pool : List W} {s t : System W J}
    (ordered : Ordered quiet pool s) (tracks : ∀ w ∈ pool, Tracks w t)
    (settled : ∀ w ∈ pool, quiet w t.past → Drained (t.threads w)) (call : Command W J)
    (past : t.past = s.past ++ [call]) (log : t.log = s.log) : Ordered quiet pool t := by
  constructor
  · intro v member done made drained
    rw [past, List.prefix_concat_iff, ← past] at made
    cases made with
    | inl now =>
      rw [now] at drained ⊢
      have all := tracks_drained (tracks v member) (settled v member drained)
      simp [all]
    | inr earlier =>
      rw [log]
      exact ordered.closed v member done earlier drained
  · intro w member before job prefixed done made reached v other drained
    rw [past, List.prefix_concat_iff, ← past] at made
    cases made with
    | inl now =>
      -- the worker cannot have started more jobs than it was handed
      have strict := started_before prefixed
      have bound := started_length (tracks w member)
      rw [now] at reached
      omega
    | inr earlier =>
      rw [log] at prefixed
      exact ordered.ordered w member before job prefixed done earlier reached v other drained

theorem ordered_stepped {quiet : W → List (Command W J) → Prop} {pool : List W}
    {s t : System W J} {a : Action W} (stepped : Stepped pool s a t)
    (ordered : Ordered quiet pool s) (tracks : ∀ w ∈ pool, Tracks w t)
    (settled : ∀ w ∈ pool, quiet w t.past → Drained (t.threads w)) : Ordered quiet pool t := by
  have unlogged : t.past = s.past → t.log = s.log → Ordered quiet pool t := by
    intro past log
    constructor
    · rw [past, log]
      exact ordered.closed
    · rw [past, log]
      exact ordered.ordered
  cases stepped with
  | worker w threw thread effect action member run threads past log remaining =>
    cases effect with
    | silent | notifyOne => exact unlogged past (log.trans (List.append_nil _))
    | started job => exact ordered_logged ordered past (.started w job) log
    | ended job threw => exact ordered_logged ordered past (.ended w job threw) log
  | assigned w job threads past log remaining =>
    exact ordered_called ordered tracks settled (.assign w job) past log
  | woken w threads past log remaining =>
    exact ordered_called ordered tracks settled (.wake w) past log
  | passed w asleep threads past log remaining =>
    exact ordered_called ordered tracks settled (.waitCycleFinish w) past log
  | calm threads past log remaining => exact unlogged past log

theorem ordered_launch {quiet : W → List (Command W J) → Prop} {pool : List W}
    (threads : W → Thread J) (program : List (Command W J)) :
    Ordered quiet pool (launch threads program) := by
  constructor
  · intro v member done made drained
    rw [List.prefix_nil.mp made]
    exact List.nil_prefix
  · intro w member before job prefixed
    have empty := List.prefix_nil.mp prefixed
    simp at empty

/-- The order stated over the program: calls that are still to come cannot
    have given a worker fewer jobs than it has started. -/
theorem ordered_program {quiet : W → List (Command W J) → Prop} {pool : List W}
    {program : List (Command W J)} {s : System W J} (ordered : Ordered quiet pool s)
    (coupled : Coupled pool program s) {w : W} (member : w ∈ pool) {before : List (Event W J)}
    {job : J} (prefixed : before ++ [.started w job] <+: s.log) {done : List (Command W J)}
    (planned : done <+: program)
    (reached : (assignedTo w done).length ≤ (startedBy w before).length) {v : W}
    (other : v ∈ pool) (drained : quiet v done) : assignedTo v done <+: endedBy v before := by
  have past : s.past <+: program := ⟨s.remaining, coupled.split⟩
  cases List.prefix_or_prefix_of_prefix planned past with
  | inl made => exact ordered.ordered w member before job prefixed done made reached v other drained
  | inr ahead =>
    obtain ⟨more, eq⟩ := ahead
    have strict := started_before prefixed
    have bound := started_length (coupled.tracks w member)
    have grown : (assignedTo w s.past).length ≤ (assignedTo w done).length := by
      rw [← eq, assignedTo_append, List.length_append]
      exact Nat.le_add_right _ _
    omega

end SchedOrder
