import SteampunkGame.Game.EventQueue
import SteampunkGame.Game.GameLoop
import SteampunkGame.Lib.TimedQueue

/-!
What the jobs of the game do between their start and their end: the write job
empties its queue, the event pump runs its requests, and the renderer polls.
The scheduler decides when each of them starts.
-/
namespace GameBodies
open SchedSystem GameWorld GameLoop GameEvent GameEventQueue Runs TimedQueue
open GameJob
variable {E C X I : Type}

/-- The loop of `write_job::execute`. -/
inductive WriterPc where
  | idle
  | popping
  | calling
  deriving DecidableEq, Repr

/-- `fired` has the requests with the frame that they are due in, and
    `enqueued` the writes with the frame that they came in and the number of
    the callback, if one made them. No step reads these two, nor `invokedAt`
    and `appliedAt`, the frames of the calls. -/
structure Game (E C X I : Type) where
  pump : Pump E C X
  writer : WriterPc
  queue : List I
  polling : Bool
  frames : Nat
  fired : List (Nat × Request C X)
  invokedAt : List Nat
  enqueued : List (Nat × Option Nat × I)
  appliedAt : List Nat

def Game.fresh : Game E C X I := ⟨start, .idle, [], false, 0, [], [], [], []⟩

/-- What is fired while the renderer runs is left to the next frame. -/
def Game.due (g : Game E C X I) : Nat := if g.polling then g.frames + 1 else g.frames

def Game.enqueue (g : Game E C X I) (origin : Option Nat) (fn : I) : Game E C X I :=
  { g with queue := g.queue ++ [fn], enqueued := g.enqueued ++ [(g.frames, origin, fn)] }

/-- Where the bodies are, by the stages of their jobs. -/
structure Staged (l : Loop) (g : Game E C X I) : Prop where
  frames : g.frames = l.frames
  polling : g.polling = true ↔ l.rendering = .running
  after : l.rendering ≠ .waiting → l.writing = .done ∧ l.pumping = .done
  pumpIdle : l.pumping ≠ .running → g.pump.pc = .idle
  writerIdle : l.writing ≠ .running → g.writer = .idle

/-- A write is applied in the frame that it is enqueued in, or in the next. -/
def Soon (enqueued applied : Nat) : Prop := enqueued ≤ applied ∧ applied ≤ enqueued + 1

/-- When the write job has emptied its queue only new writes come in. -/
structure Written (l : Loop) (g : Game E C X I) : Prop where
  queued : g.queue = (left g.enqueued g.appliedAt).map fun x => x.2.2
  applied : Within Soon g.enqueued g.appliedAt
  recent : ∀ x ∈ left g.enqueued g.appliedAt, Soon x.1 g.frames
  settled : l.writing = .done ∨ l.writing = .running ∧ g.writer = .idle →
    ∀ x ∈ left g.enqueued g.appliedAt, x.1 = g.frames
  origin : ∀ x ∈ g.enqueued, ∀ i, x.2.1 = some i → g.invokedAt[i]? = some x.1

/-- Who may connect and fire: the renderer, a callback, and the thread that
    has not started the scheduler yet. -/
def MayCall (l : Loop) (g : Game E C X I) : Prop :=
  g.polling = true ∨ (∃ req, g.pump.pc = .calling req) ∨ l.pumping = .waiting

/-- What the steps of the pump leave alone. -/
structure Aside (g g' : Game E C X I) : Prop where
  writer : g'.writer = g.writer
  queue : g'.queue = g.queue
  polling : g'.polling = g.polling
  frames : g'.frames = g.frames
  enqueued : g'.enqueued = g.enqueued
  appliedAt : g'.appliedAt = g.appliedAt
  fired : g.fired <+: g'.fired
  invokedAt : g.invokedAt <+: g'.invokedAt

/-- What the other steps leave alone. -/
structure Pumpless (g g' : Game E C X I) : Prop where
  pump : g'.pump = g.pump
  fired : g'.fired = g.fired
  invokedAt : g'.invokedAt = g.invokedAt

theorem staged_fresh : Staged (.between 0) (.fresh : Game E C X I) :=
  ⟨rfl, by simp [Game.fresh, Loop.between], fun no => absurd rfl no, fun _ => rfl, fun _ => rfl⟩

theorem written_fresh : Written (.between 0) (.fresh : Game E C X I) := by
  refine ⟨rfl, within_empty, ?_, fun _ => ?_, ?_⟩
  all_goals
    intro x among
    cases among

/-- Polling comes after pumping. -/
theorem polling_pumped {l : Loop} {g : Game E C X I} (staged : Staged l g)
    (polling : g.polling = true) : l.pumping = .done :=
  (staged.after (by rw [staged.polling.mp polling]; exact Stage.noConfusion)).2

theorem running_of_busy {l : Loop} {g : Game E C X I} (staged : Staged l g)
    (busy : g.pump.pc ≠ .idle) : l.pumping = .running := by
  by_contra other
  exact busy (staged.pumpIdle other)

/-- A caller stamps with the frame that the queue is ahead to. -/
theorem mayCall_due {l : Loop} {g : Game E C X I} (staged : Staged l g) (may : MayCall l g) :
    g.due = if l.pumping = .done then l.frames + 1 else l.frames := by
  rw [Game.due, staged.frames]
  by_cases polling : g.polling = true
  · rw [if_pos polling, if_pos (polling_pumped staged polling)]
  · rw [if_neg polling, if_neg]
    intro done
    rcases may with polls | ⟨req, calling⟩ | waiting
    · exact polling polls
    · rw [running_of_busy staged (by simp [calling])] at done
      cases done
    · rw [waiting] at done
      cases done

theorem written_aside {l l' : Loop} {g g' : Game E C X I} (written : Written l g)
    (writing : l'.writing = l.writing) (aside : Aside g g') : Written l' g' := by
  obtain ⟨queued, applied, recent, settled, origin⟩ := written
  obtain ⟨writer, queue, _, frames, enqueued, appliedAt, _, invokedAt⟩ := aside
  constructor
  · rw [queue, enqueued, appliedAt]
    exact queued
  · rw [enqueued, appliedAt]
    exact applied
  · rw [enqueued, appliedAt, frames]
    exact recent
  · rw [enqueued, appliedAt, frames, writer, writing]
    exact settled
  · rw [enqueued]
    intro x among i made
    have there := origin x among i made
    obtain ⟨more, grown⟩ := invokedAt
    rw [← grown, List.getElem?_append_left (List.getElem?_eq_some_iff.mp there).1]
    exact there

theorem written_enqueue {l : Loop} {g : Game E C X I} (written : Written l g)
    {origin : Option Nat} (made : ∀ i, origin = some i → g.invokedAt[i]? = some g.frames)
    (fn : I) : Written l (g.enqueue origin fn) := by
  obtain ⟨queued, applied, recent, settled, origins⟩ := written
  have more : left (g.enqueue origin fn).enqueued g.appliedAt =
      left g.enqueued g.appliedAt ++ [(g.frames, origin, fn)] := left_send applied.count _
  constructor
  · rw [show (g.enqueue origin fn).appliedAt = g.appliedAt from rfl, more, List.map_append,
      ← queued]
    rfl
  · exact within_send applied _
  · intro x among
    change x ∈ left (g.enqueue origin fn).enqueued g.appliedAt at among
    rw [more] at among
    rcases List.mem_append.mp among with before | new
    · exact recent x before
    · rw [List.mem_singleton.mp new]
      exact ⟨Nat.le_refl _, Nat.le_succ _⟩
  · intro empty x among
    change x ∈ left (g.enqueue origin fn).enqueued g.appliedAt at among
    rw [more] at among
    rcases List.mem_append.mp among with before | new
    · exact settled empty x before
    · rw [List.mem_singleton.mp new]
      rfl
  · intro x among i from_
    rcases List.mem_append.mp among with before | new
    · exact origins x before i from_
    · rw [List.mem_singleton.mp new] at from_ ⊢
      exact made i from_

variable [DecidableEq E]

/-- A step of the pump, with the stamps of what it fires and invokes. -/
def pumpStep (returns : Request C X → Bool) (g : Game E C X I) (a : Action E C X) :
    Option (Game E C X I) :=
  match step returns g.pump a with
  | some pump => some { g with
      pump := pump
      fired := g.fired ++
        (pump.enqueued.drop g.pump.enqueued.length).map fun req => (g.due, req)
      invokedAt := g.invokedAt ++
        (pump.invoked.drop g.pump.invoked.length).map fun _ => g.frames }
  | none => none

/-- The scheduler starts a job, or sees it end. -/
def jobStep (returns : Request C X → Bool) (g : Game E C X I) :
    Event UInt32 GameJob → Option (Game E C X I)
  | .started _ writeJob => some { g with writer := .popping }
  | .ended _ writeJob _ => if g.writer = .idle then some g else none
  | .started _ eventPump => pumpStep returns g .execute
  | .ended _ eventPump _ =>
      match g.pump.pc with
      | .idle => some g
      | _ => none
  | .started _ renderJob => some { g with polling := true }
  | .ended _ renderJob _ => some { g with polling := false, frames := g.frames + 1 }

inductive BodyAction (E C X I : Type) where
  | pump (a : Action E C X)
  | callbackWrite (fn : I)
  | enqueue (fn : I)
  | tryPop
  | writeReturn
  | writeThrow
  deriving DecidableEq, Repr

/-- Callbacks and the renderer may connect and fire. Any thread may enqueue
    writes, at any time. -/
def bodyStep (returns : Request C X → Bool) (g : Game E C X I) :
    BodyAction E C X I → Option (Game E C X I)
  | .pump .execute => none
  | .pump (.call call) =>
      match g.pump.pc, g.polling with
      | .calling _, _ | _, true => pumpStep returns g (.call call)
      | _, _ => none
  | .pump a => pumpStep returns g a
  | .callbackWrite fn =>
      match g.pump.pc with
      | .calling _ => some (g.enqueue (some (g.pump.invoked.length - 1)) fn)
      | _ => none
  | .enqueue fn => some (g.enqueue none fn)
  | .tryPop =>
      match g.writer, g.queue with
      | .popping, [] => some { g with writer := .idle }
      | .popping, _ :: rest => some { g with
          writer := .calling
          queue := rest
          appliedAt := g.appliedAt ++ [g.frames] }
      | _, _ => none
  | .writeReturn => if g.writer = .calling then some { g with writer := .popping } else none
  | .writeThrow => if g.writer = .calling then some { g with writer := .idle } else none

/-- The write that a step enqueues. -/
def BodyAction.write : BodyAction E C X I → Option I
  | .callbackWrite fn | .enqueue fn => some fn
  | .pump _ | .tryPop | .writeReturn | .writeThrow => none

def calm : BodyAction E C X I → Bool
  | .pump .callbackThrow | .writeThrow => false
  | _ => true

/-- Every request is invoked in the frame that it is due in. -/
structure Requested (l : Loop) (g : Game E C X I) : Prop where
  fired : Fired g.pump
  inOrder : InOrder g.pump
  emptied : l.pumping = .running → g.pump.pc = .idle → g.pump.requests = []
  sent : g.fired.map Prod.snd = g.pump.enqueued
  counted : g.invokedAt.length = g.pump.invoked.length
  punctual : Within (fun due f => f = due) g.fired g.invokedAt
  ahead : ∀ x ∈ left g.fired g.invokedAt,
    x.1 = if l.pumping = .done then l.frames + 1 else l.frames
  current : ∀ req, g.pump.pc = .calling req → g.invokedAt.getLast? = some g.frames

/-- What holds as long as neither callbacks nor writes throw. -/
structure Flowing (l : Loop) (g : Game E C X I) : Prop where
  staged : Staged l g
  requested : Requested l g
  written : Written l g

theorem pumpStep_aside {returns : Request C X → Bool} {g g' : Game E C X I} {a : Action E C X}
    (run : pumpStep returns g a = some g') :
    Aside g g' ∧ step returns g.pump a = some g'.pump := by
  simp only [pumpStep] at run
  split at run
  · cases run
    refine ⟨?_, by assumption⟩
    constructor
    all_goals first | rfl | exact List.prefix_append _ _
  · cases run

/-- A call adds to the queue, whether or not the event is wired. -/
theorem callStep_appends {s t : Pump E C X} {call : Call E C X} (run : callStep s call = some t) :
    ∃ more, t.requests = s.requests ++ more ∧ t.enqueued = s.enqueued ++ more ∧ t.pc = s.pc ∧
      t.invoked = s.invoked := by
  cases call with
  | connect event callback =>
    cases run
    exact ⟨[], by simp, by simp, rfl, rfl⟩
  | fire event context =>
    simp only [callStep] at run
    split at run
    · cases run
      exact ⟨_, rfl, rfl, rfl, rfl⟩
    · cases run

/-- Only the start of its job takes the pump out of idleness. -/
theorem step_idle {returns : Request C X → Bool} {s t : Pump E C X} {a : Action E C X}
    (inside : a ≠ .execute) (run : step returns s a = some t) (idle : s.pc = .idle) :
    t.pc = .idle := by
  cases step_stepped run with
  | called run =>
    obtain ⟨_, _, _, pc, _⟩ := callStep_appends run
    exact pc.trans idle
  | enters => exact absurd rfl inside
  | leaves => rfl
  | invokes pc => simp [idle] at pc
  | returned pc => simp [idle] at pc
  | threw => rfl
  | pops pc => simp [idle] at pc

theorem staged_pump {returns : Request C X → Bool} {l : Loop} {g g' : Game E C X I}
    {a : Action E C X} (staged : Staged l g) (inside : a ≠ .execute)
    (run : pumpStep returns g a = some g') : Staged l g' := by
  obtain ⟨frames, polling, after, pumpIdle, writerIdle⟩ := staged
  obtain ⟨aside, stepped⟩ := pumpStep_aside run
  constructor
  · rw [aside.frames, frames]
  · rw [aside.polling, polling]
  · exact after
  · exact fun other => step_idle inside stepped (pumpIdle other)
  · rw [aside.writer]
    exact writerIdle

/-- The bodies keep to their jobs, also when something throws. -/
theorem staged_body {returns : Request C X → Bool} {l : Loop} {g g' : Game E C X I}
    {a : BodyAction E C X I} (staged : Staged l g) (run : bodyStep returns g a = some g') :
    Staged l g' := by
  obtain ⟨frames, polling, after, pumpIdle, writerIdle⟩ := staged
  cases a with
  | pump a =>
    have staged : Staged l g := ⟨frames, polling, after, pumpIdle, writerIdle⟩
    cases a with
    | execute => cases run
    | call call =>
      simp only [bodyStep] at run
      split at run
      · exact staged_pump staged (by simp) run
      · exact staged_pump staged (by simp) run
      · cases run
    | test | callbackReturn | callbackThrow | pop => exact staged_pump staged (by simp) run
  | callbackWrite fn =>
    simp only [bodyStep] at run
    split at run
    · cases run
      exact ⟨frames, polling, after, pumpIdle, writerIdle⟩
    · cases run
  | enqueue fn =>
    cases run
    exact ⟨frames, polling, after, pumpIdle, writerIdle⟩
  | tryPop =>
    simp only [bodyStep] at run
    split at run
    · cases run
      exact ⟨frames, polling, after, pumpIdle, fun _ => rfl⟩
    · rename_i popping _
      cases run
      refine ⟨frames, polling, after, pumpIdle, fun other => ?_⟩
      rw [writerIdle other] at popping
      cases popping
    · cases run
  | writeReturn =>
    simp only [bodyStep] at run
    split at run
    · rename_i calling
      cases run
      refine ⟨frames, polling, after, pumpIdle, fun other => ?_⟩
      rw [writerIdle other] at calling
      cases calling
    · cases run
  | writeThrow =>
    simp only [bodyStep] at run
    split at run
    · cases run
      exact ⟨frames, polling, after, pumpIdle, fun _ => rfl⟩
    · cases run

/-- The scheduler starts and ends the jobs as in the loop. -/
theorem staged_job {returns : Request C X → Bool} {l l' : Loop} {g g' : Game E C X I}
    {e : Event UInt32 GameJob} (staged : Staged l g) (paced : loopStep l e = some l')
    (run : jobStep returns g e = some g') : Staged l' g' := by
  obtain ⟨frames, polling, after, pumpIdle, writerIdle⟩ := staged
  cases e with
  | started w job =>
    cases job with
    | writeJob =>
      simp only [loopStep] at paced
      split at paced
      · rename_i waiting
        cases paced
        cases run
        refine ⟨frames, polling, fun begun => ?_, pumpIdle, fun no => absurd rfl no⟩
        have done := (after begun).1
        rw [waiting] at done
        cases done
      · cases paced
    | eventPump =>
      simp only [loopStep] at paced
      split at paced
      · rename_i waiting
        cases paced
        obtain ⟨aside, _⟩ := pumpStep_aside run
        refine ⟨?_, ?_, fun begun => ?_, fun no => absurd rfl no, ?_⟩
        · rw [aside.frames, frames]
        · rw [aside.polling, polling]
        · have done := (after begun).2
          rw [waiting] at done
          cases done
        · rw [aside.writer]
          exact writerIdle
      · cases paced
    | renderJob =>
      simp only [loopStep] at paced
      split at paced
      · rename_i others
        cases paced
        cases run
        exact ⟨frames, ⟨fun _ => rfl, fun _ => rfl⟩, fun _ => ⟨others.1, others.2.1⟩, pumpIdle,
          writerIdle⟩
      · cases paced
  | ended w job threw =>
    cases job with
    | writeJob =>
      simp only [loopStep, jobStep] at paced run
      split at paced
      · rename_i running
        cases paced
        split at run
        · rename_i idle
          cases run
          refine ⟨frames, polling, fun begun => ?_, pumpIdle, fun _ => idle⟩
          have done := (after begun).1
          rw [running] at done
          cases done
        · cases run
      · cases paced
    | eventPump =>
      simp only [loopStep, jobStep] at paced run
      split at paced
      · rename_i running
        cases paced
        split at run
        · rename_i idle
          cases run
          refine ⟨frames, polling, fun begun => ?_, fun _ => idle, writerIdle⟩
          have done := (after begun).2
          rw [running] at done
          cases done
        · cases run
      · cases paced
    | renderJob =>
      simp only [loopStep] at paced
      split at paced
      · rename_i running
        cases paced
        cases run
        obtain ⟨wrote, pumped⟩ := after (by rw [running]; decide)
        exact ⟨congrArg Nat.succ frames, by simp [Loop.between], fun no => absurd rfl no,
          fun _ => pumpIdle (by rw [pumped]; decide), fun _ => writerIdle (by rw [wrote]; decide)⟩
      · cases paced

theorem requested_fresh : Requested (.between 0) (.fresh : Game E C X I) := by
  refine ⟨fired_start, inOrder_start, fun _ _ => rfl, rfl, rfl, within_empty, ?_, ?_⟩
  · intro x among
    cases among
  · intro req calling
    cases calling

/-- The queue of the pump is what was fired and not yet invoked. -/
theorem left_pending {l : Loop} {g : Game E C X I} (requested : Requested l g) :
    (left g.fired g.invokedAt).map Prod.snd = g.pump.pending := by
  rw [left, List.map_drop, requested.sent, requested.counted, requested.inOrder.order,
    List.drop_left]

theorem requested_same {l l' : Loop} {g g' : Game E C X I} (requested : Requested l g)
    (pumping : l'.pumping = l.pumping) (frames : l'.frames = l.frames)
    (pumpless : Pumpless g g') (now : g'.frames = g.frames) : Requested l' g' := by
  obtain ⟨pump, fired, invokedAt⟩ := pumpless
  constructor
  · rw [pump]
    exact requested.fired
  · rw [pump]
    exact requested.inOrder
  · rw [pump, pumping]
    exact requested.emptied
  · rw [pump, fired]
    exact requested.sent
  · rw [pump, invokedAt]
    exact requested.counted
  · rw [fired, invokedAt]
    exact requested.punctual
  · rw [fired, invokedAt, pumping, frames]
    exact requested.ahead
  · rw [pump, invokedAt, now]
    exact requested.current

theorem requested_called {l : Loop} {g : Game E C X I} {pump : Pump E C X} {call : Call E C X}
    (staged : Staged l g) (requested : Requested l g) (may : MayCall l g)
    (run : callStep g.pump call = some pump) : Requested l { g with
      pump := pump
      fired := g.fired ++ (owed g.pump.calls call).map fun req => (g.due, req) } := by
  obtain ⟨fired, inOrder, emptied, sent, counted, punctual, ahead, current⟩ := requested
  have stepped : Stepped (fun _ => true) g.pump (.call call) pump := .called run
  obtain ⟨_, pc, invoked, _, requests, enqueued⟩ := callStep_cases fired.wired run
  constructor
  · exact fired_step fired stepped
  · exact inOrder_step fired inOrder stepped (by simp)
  · intro running idle
    exfalso
    rw [pc] at idle
    rcases may with polls | ⟨req, calling⟩ | waiting
    · rw [polling_pumped staged polls] at running
      cases running
    · rw [calling] at idle
      cases idle
    · rw [waiting] at running
      cases running
  · rw [List.map_append, sent, enqueued, List.map_map]
    exact congrArg _ (List.map_id _)
  · rw [counted, invoked]
  · exact within_send punctual _
  · intro x among
    rw [left_send punctual.count] at among
    rcases List.mem_append.mp among with before | new
    · exact ahead x before
    · obtain ⟨req, _, rfl⟩ := List.mem_map.mp new
      exact mayCall_due staged may
  · intro req calling
    rw [pc] at calling
    exact current req calling

theorem requested_invokes {l : Loop} {g : Game E C X I} {req : Request C X}
    {rest : List (Request C X)} (staged : Staged l g) (requested : Requested l g)
    (pc : g.pump.pc = .test) (front : g.pump.requests = req :: rest) : Requested l { g with
      pump := { g.pump with pc := .calling req, invoked := g.pump.invoked ++ [req] }
      invokedAt := g.invokedAt ++ [g.frames] } := by
  have queue := left_pending requested
  obtain ⟨fired, inOrder, emptied, sent, counted, punctual, ahead, current⟩ := requested
  have stepped : Stepped (fun _ => true) g.pump .test _ := .invokes pc front
  simp only [Pump.pending, pc, front] at queue
  obtain ⟨x, more, there, same, _⟩ := List.map_eq_cons_iff.mp queue
  have running := running_of_busy staged (by simp [pc])
  have now : g.frames = x.1 := by
    rw [ahead x (there ▸ List.mem_cons_self), running, staged.frames]
    rfl
  constructor
  · exact fired_step fired stepped
  · exact inOrder_step fired inOrder stepped (by simp)
  · intro _ idle
    cases idle
  · exact sent
  · simp [counted]
  · exact within_take punctual there now
  · intro y among
    rw [left_take there] at among
    exact ahead y (there ▸ List.mem_cons_of_mem _ among)
  · intro _ _
    exact List.getLast?_concat

/-- The steps of the pump that neither fire nor invoke. -/
theorem requested_aside (returns : Request C X → Bool) {l : Loop} {g : Game E C X I}
    {pump : Pump E C X} {a : Action E C X} (requested : Requested l g)
    (stepped : Stepped returns g.pump a pump) (quiet : a ≠ .callbackThrow)
    (sent : pump.enqueued = g.pump.enqueued) (counted : pump.invoked = g.pump.invoked)
    (calling : ∀ req, pump.pc ≠ .calling req)
    (emptied : l.pumping = .running → pump.pc = .idle → pump.requests = []) :
    Requested l { g with pump := pump } := by
  constructor
  · exact fired_step requested.fired stepped
  · exact inOrder_step requested.fired requested.inOrder stepped quiet
  · exact emptied
  · rw [sent]
    exact requested.sent
  · rw [counted]
    exact requested.counted
  · exact requested.punctual
  · exact requested.ahead
  · exact fun req at_ => absurd at_ (calling req)

theorem requested_pump {returns : Request C X → Bool} {l : Loop} {g g' : Game E C X I}
    {a : Action E C X} (staged : Staged l g) (requested : Requested l g)
    (may : ∀ call, a = .call call → MayCall l g) (quiet : a ≠ .callbackThrow)
    (run : pumpStep returns g a = some g') : Requested l g' := by
  simp only [pumpStep] at run
  split at run
  · rename_i pump taken
    have stepped := step_stepped taken
    cases run
    cases stepped with
    | @called call _ run =>
      obtain ⟨_, _, invoked, _, _, enqueued⟩ := callStep_cases requested.fired.wired run
      have holds := requested_called staged requested (may call rfl) run
      simpa only [enqueued, invoked, List.drop_left, List.drop_length, List.map_nil,
        List.append_nil] using holds
    | invokes pc front =>
      have holds := requested_invokes staged requested pc front
      simpa only [List.drop_left, List.drop_length, List.map_nil, List.append_nil,
        List.map_singleton] using holds
    | enters pc =>
      have holds := requested_aside returns requested (.enters pc) (by simp) rfl rfl
        (by simp) (fun _ idle => by cases idle)
      simpa only [List.drop_length, List.map_nil, List.append_nil] using holds
    | leaves pc empty =>
      have holds := requested_aside returns requested (.leaves pc empty) (by simp)
        rfl rfl (by simp) (fun _ _ => empty)
      simpa only [List.drop_length, List.map_nil, List.append_nil] using holds
    | returned pc can =>
      have holds := requested_aside returns requested (.returned pc can) (by simp) rfl rfl
        (by simp) (fun _ idle => by cases idle)
      simpa only [List.drop_length, List.map_nil, List.append_nil] using holds
    | threw pc => exact absurd rfl quiet
    | pops pc =>
      have holds := requested_aside returns requested (.pops pc) (by simp) rfl rfl
        (by simp) (fun _ idle => by cases idle)
      simpa only [List.drop_length, List.map_nil, List.append_nil] using holds
  · cases run

theorem requested_body {returns : Request C X → Bool} {l : Loop} {g g' : Game E C X I}
    {a : BodyAction E C X I} (staged : Staged l g) (requested : Requested l g)
    (quiet : calm a = true) (run : bodyStep returns g a = some g') : Requested l g' := by
  cases a with
  | pump a =>
    cases a with
    | execute => cases run
    | call call =>
      simp only [bodyStep] at run
      split at run
      · rename_i req calling
        exact requested_pump staged requested (fun _ _ => Or.inr (Or.inl ⟨req, calling⟩))
          (by simp) run
      · rename_i polling _
        exact requested_pump staged requested (fun _ _ => Or.inl polling) (by simp) run
      · cases run
    | callbackThrow => cases quiet
    | test | callbackReturn | pop =>
      exact requested_pump staged requested (fun _ no => by cases no) (by simp) run
  | enqueue fn =>
    cases run
    exact requested_same requested rfl rfl ⟨rfl, rfl, rfl⟩ rfl
  | callbackWrite fn | tryPop | writeReturn | writeThrow =>
    simp only [bodyStep] at run
    split at run <;> cases run <;> exact requested_same requested rfl rfl ⟨rfl, rfl, rfl⟩ rfl

/-- The pump ends with an empty queue, and the frame with requests for the
    next one. -/
theorem requested_job {returns : Request C X → Bool} {l l' : Loop} {g g' : Game E C X I}
    {e : Event UInt32 GameJob} (staged : Staged l g) (requested : Requested l g)
    (paced : loopStep l e = some l') (run : jobStep returns g e = some g') :
    Requested l' g' := by
  cases e with
  | started w job =>
    cases job with
    | writeJob | renderJob =>
      simp only [loopStep] at paced
      split at paced
      · cases paced
        cases run
        exact requested_same requested rfl rfl ⟨rfl, rfl, rfl⟩ rfl
      · cases paced
    | eventPump =>
      simp only [loopStep] at paced
      split at paced
      · rename_i waiting
        cases paced
        have entered := requested_pump staged requested (fun _ no => by cases no) (by simp) run
        have testing : g'.pump.pc = .test := by
          have stepped := (pumpStep_aside run).2
          generalize g'.pump = pump at stepped ⊢
          cases step_stepped stepped
          rfl
        refine ⟨entered.fired, entered.inOrder, ?_, entered.sent, entered.counted,
          entered.punctual, ?_, entered.current⟩
        · intro _ idle
          rw [testing] at idle
          cases idle
        · have ahead := entered.ahead
          simpa only [waiting, reduceCtorEq, if_false] using ahead
      · cases paced
  | ended w job threw =>
    cases job with
    | writeJob =>
      simp only [loopStep, jobStep] at paced run
      split at paced <;> cases paced
      split at run <;> cases run
      exact requested_same requested rfl rfl ⟨rfl, rfl, rfl⟩ rfl
    | eventPump =>
      simp only [loopStep, jobStep] at paced run
      split at paced
      · rename_i running
        cases paced
        split at run
        · rename_i idle
          cases run
          have queue := left_pending requested
          simp only [Pump.pending, idle, requested.emptied running idle] at queue
          refine ⟨requested.fired, requested.inOrder, (fun no => by cases no), requested.sent,
            requested.counted, requested.punctual, ?_, requested.current⟩
          intro x among
          rw [List.map_eq_nil_iff.mp queue] at among
          cases among
        · cases run
      · cases paced
    | renderJob =>
      simp only [loopStep] at paced
      split at paced
      · rename_i running
        cases paced
        cases run
        have pumped := (staged.after (by rw [running]; decide)).2
        refine ⟨requested.fired, requested.inOrder, (fun no => by cases no), requested.sent,
          requested.counted, requested.punctual, ?_, ?_⟩
        · have ahead := requested.ahead
          simpa only [pumped, if_true, Loop.between, reduceCtorEq, if_false] using ahead
        · intro req calling
          rw [staged.pumpIdle (by rw [pumped]; decide)] at calling
          cases calling
      · cases paced

theorem written_tryPop {returns : Request C X → Bool} {l : Loop} {g g' : Game E C X I}
    (staged : Staged l g) (written : Written l g) (run : bodyStep returns g .tryPop = some g') :
    Written l g' := by
  obtain ⟨queued, applied, recent, settled, origin⟩ := written
  simp only [bodyStep] at run
  split at run
  · rename_i popping empty
    cases run
    refine ⟨queued, applied, recent, ?_, origin⟩
    intro _ x among
    rw [empty] at queued
    rw [List.map_eq_nil_iff.mp queued.symm] at among
    cases among
  · rename_i fn rest popping front
    cases run
    rw [front] at queued
    obtain ⟨x, more, there, _, others⟩ := List.map_eq_cons_iff.mp queued.symm
    refine ⟨?_, ?_, ?_, ?_, origin⟩
    · rw [left_take there, others]
    · exact within_take applied there (recent x (there ▸ List.mem_cons_self))
    · intro y among
      rw [left_take there] at among
      exact recent y (there ▸ List.mem_cons_of_mem _ among)
    · rintro (done | ⟨_, idle⟩)
      · have busy := staged.writerIdle (by rw [done]; decide)
        rw [popping] at busy
        cases busy
      · cases idle
  · cases run

theorem written_body {returns : Request C X → Bool} {l : Loop} {g g' : Game E C X I}
    {a : BodyAction E C X I} (staged : Staged l g) (requested : Requested l g)
    (written : Written l g) (quiet : calm a = true) (run : bodyStep returns g a = some g') :
    Written l g' := by
  cases a with
  | pump a =>
    cases a with
    | execute => cases run
    | call call =>
      simp only [bodyStep] at run
      split at run
      · exact written_aside written rfl (pumpStep_aside run).1
      · exact written_aside written rfl (pumpStep_aside run).1
      · cases run
    | test | callbackReturn | callbackThrow | pop =>
      exact written_aside written rfl (pumpStep_aside run).1
  | callbackWrite fn =>
    simp only [bodyStep] at run
    split at run
    · rename_i req calling
      cases run
      refine written_enqueue written ?_ fn
      intro i here
      cases here
      rw [← requested.counted, ← List.getLast?_eq_getElem?]
      exact requested.current req calling
    · cases run
  | enqueue fn =>
    cases run
    exact written_enqueue written (fun _ no => by cases no) fn
  | tryPop => exact written_tryPop staged written run
  | writeReturn =>
    simp only [bodyStep] at run
    split at run
    · rename_i calling
      cases run
      refine ⟨written.queued, written.applied, written.recent, ?_, written.origin⟩
      rintro (done | ⟨_, idle⟩)
      · have busy := staged.writerIdle (by rw [done]; decide)
        rw [calling] at busy
        cases busy
      · cases idle
    · cases run
  | writeThrow => cases quiet

/-- The write job ends with an empty queue, so at the end of the frame only
    writes of this frame are left. -/
theorem written_job {returns : Request C X → Bool} {l l' : Loop} {g g' : Game E C X I}
    {e : Event UInt32 GameJob} (staged : Staged l g) (written : Written l g)
    (paced : loopStep l e = some l') (run : jobStep returns g e = some g') : Written l' g' := by
  cases e with
  | started w job =>
    cases job with
    | writeJob =>
      simp only [loopStep] at paced
      split at paced
      · cases paced
        cases run
        refine ⟨written.queued, written.applied, written.recent, ?_, written.origin⟩
        rintro (done | ⟨_, idle⟩)
        · cases done
        · cases idle
      · cases paced
    | eventPump =>
      simp only [loopStep] at paced
      split at paced
      · cases paced
        exact written_aside written rfl (pumpStep_aside run).1
      · cases paced
    | renderJob =>
      simp only [loopStep] at paced
      split at paced
      · cases paced
        cases run
        exact ⟨written.queued, written.applied, written.recent, written.settled, written.origin⟩
      · cases paced
  | ended w job threw =>
    cases job with
    | writeJob =>
      simp only [loopStep, jobStep] at paced run
      split at paced
      · rename_i running
        cases paced
        split at run
        · rename_i idle
          cases run
          exact ⟨written.queued, written.applied, written.recent,
            fun _ => written.settled (Or.inr ⟨running, idle⟩), written.origin⟩
        · cases run
      · cases paced
    | eventPump =>
      simp only [loopStep, jobStep] at paced run
      split at paced <;> cases paced
      split at run <;> cases run
      exact ⟨written.queued, written.applied, written.recent, written.settled, written.origin⟩
    | renderJob =>
      simp only [loopStep] at paced
      split at paced
      · rename_i running
        cases paced
        cases run
        have wrote := (staged.after (by rw [running]; decide)).1
        refine ⟨written.queued, written.applied, ?_, ?_, written.origin⟩
        · intro x among
          rw [written.settled (Or.inl wrote) x among]
          exact ⟨Nat.le_succ _, Nat.le_refl _⟩
        · rintro (done | ⟨now, _⟩)
          · cases done
          · cases now
      · cases paced

theorem flowing_fresh : Flowing (.between 0) (.fresh : Game E C X I) :=
  ⟨staged_fresh, requested_fresh, written_fresh⟩

theorem flowing_pump {returns : Request C X → Bool} {l : Loop} {g g' : Game E C X I}
    {a : Action E C X} (flowing : Flowing l g) (may : ∀ call, a = .call call → MayCall l g)
    (quiet : a ≠ .callbackThrow) (inside : a ≠ .execute)
    (run : pumpStep returns g a = some g') : Flowing l g' := by
  obtain ⟨staged, requested, written⟩ := flowing
  exact ⟨staged_pump staged inside run, requested_pump staged requested may quiet run,
    written_aside written rfl (pumpStep_aside run).1⟩

theorem flowing_body {returns : Request C X → Bool} {l : Loop} {g g' : Game E C X I}
    {a : BodyAction E C X I} (flowing : Flowing l g) (quiet : calm a = true)
    (run : bodyStep returns g a = some g') : Flowing l g' := by
  obtain ⟨staged, requested, written⟩ := flowing
  exact ⟨staged_body staged run, requested_body staged requested quiet run,
    written_body staged requested written quiet run⟩

theorem flowing_job {returns : Request C X → Bool} {l l' : Loop} {g g' : Game E C X I}
    {e : Event UInt32 GameJob} (flowing : Flowing l g) (paced : loopStep l e = some l')
    (run : jobStep returns g e = some g') : Flowing l' g' := by
  obtain ⟨staged, requested, written⟩ := flowing
  exact ⟨staged_job staged paced run, requested_job staged requested paced run,
    written_job staged written paced run⟩

theorem jobStep_fired {returns : Request C X → Bool} {g g' : Game E C X I}
    {e : Event UInt32 GameJob} (run : jobStep returns g e = some g') : g.fired <+: g'.fired := by
  cases e with
  | started w job =>
    cases job with
    | eventPump => exact (pumpStep_aside run).1.fired
    | writeJob | renderJob => cases run; exact List.prefix_refl _
  | ended w job threw =>
    cases job with
    | renderJob => cases run; exact List.prefix_refl _
    | writeJob | eventPump =>
      simp only [jobStep] at run
      split at run
      · cases run
        exact List.prefix_refl _
      · cases run

theorem bodyStep_fired {returns : Request C X → Bool} {g g' : Game E C X I}
    {a : BodyAction E C X I} (run : bodyStep returns g a = some g') : g.fired <+: g'.fired := by
  cases a with
  | pump a =>
    cases a with
    | execute => cases run
    | call call =>
      simp only [bodyStep] at run
      split at run
      · exact (pumpStep_aside run).1.fired
      · exact (pumpStep_aside run).1.fired
      · cases run
    | test | callbackReturn | callbackThrow | pop => exact (pumpStep_aside run).1.fired
  | enqueue fn => cases run; exact List.prefix_refl _
  | callbackWrite fn | tryPop | writeReturn | writeThrow =>
    simp only [bodyStep] at run
    split at run <;> cases run <;> exact List.prefix_refl _

/-- The scheduler enqueues no write. -/
theorem jobStep_enqueued {returns : Request C X → Bool} {g g' : Game E C X I}
    {e : Event UInt32 GameJob} (run : jobStep returns g e = some g') :
    g'.enqueued = g.enqueued := by
  cases e with
  | started w job =>
    cases job with
    | eventPump => exact (pumpStep_aside run).1.enqueued
    | writeJob | renderJob => cases run; rfl
  | ended w job threw =>
    cases job with
    | renderJob => cases run; rfl
    | writeJob | eventPump =>
      simp only [jobStep] at run
      split at run <;> cases run
      rfl

/-- The record grows by what is enqueued. -/
theorem bodyStep_enqueued {returns : Request C X → Bool} {g g' : Game E C X I}
    {a : BodyAction E C X I} (run : bodyStep returns g a = some g') :
    g'.enqueued.map (fun x => x.2.2) = g.enqueued.map (fun x => x.2.2) ++ a.write.toList := by
  cases a with
  | pump a =>
    have still (b : Action E C X) (run : pumpStep returns g b = some g') :
        g'.enqueued.map (fun x => x.2.2) = g.enqueued.map (fun x => x.2.2) ++ [] := by
      rw [(pumpStep_aside run).1.enqueued, List.append_nil]
    cases a with
    | execute => cases run
    | call call =>
      simp only [bodyStep] at run
      split at run
      · exact still _ run
      · exact still _ run
      · cases run
    | test | callbackReturn | callbackThrow | pop => exact still _ run
  | enqueue fn =>
    cases run
    exact List.map_append
  | callbackWrite fn =>
    simp only [bodyStep] at run
    split at run <;> cases run
    exact List.map_append
  | tryPop | writeReturn | writeThrow =>
    simp only [bodyStep] at run
    split at run <;> cases run <;> exact (List.append_nil _).symm

/-- Frames only end with the renderer. -/
theorem jobStep_polling {returns : Request C X → Bool} {g g' : Game E C X I}
    {e : Event UInt32 GameJob} (run : jobStep returns g e = some g') :
    (g'.frames = g.frames ∧ (g.polling = true → g'.polling = true)) ∨
      g'.frames = g.frames + 1 := by
  cases e with
  | started w job =>
    cases job with
    | eventPump =>
      obtain ⟨aside, _⟩ := pumpStep_aside run
      exact Or.inl ⟨aside.frames, fun polling => aside.polling.trans polling⟩
    | writeJob => cases run; exact Or.inl ⟨rfl, id⟩
    | renderJob => cases run; exact Or.inl ⟨rfl, fun _ => rfl⟩
  | ended w job threw =>
    cases job with
    | renderJob => cases run; exact Or.inr rfl
    | writeJob | eventPump =>
      simp only [jobStep] at run
      split at run <;> cases run
      exact Or.inl ⟨rfl, id⟩

theorem bodyStep_polling {returns : Request C X → Bool} {g g' : Game E C X I}
    {a : BodyAction E C X I} (run : bodyStep returns g a = some g') :
    g'.frames = g.frames ∧ g'.polling = g.polling := by
  cases a with
  | pump a =>
    have still (b : Action E C X) (run : pumpStep returns g b = some g') :
        g'.frames = g.frames ∧ g'.polling = g.polling :=
      ⟨(pumpStep_aside run).1.frames, (pumpStep_aside run).1.polling⟩
    cases a with
    | execute => cases run
    | call call =>
      simp only [bodyStep] at run
      split at run
      · exact still _ run
      · exact still _ run
      · cases run
    | test | callbackReturn | callbackThrow | pop => exact still _ run
  | enqueue fn => cases run; exact ⟨rfl, rfl⟩
  | callbackWrite fn | tryPop | writeReturn | writeThrow =>
    simp only [bodyStep] at run
    split at run <;> cases run <;> exact ⟨rfl, rfl⟩

/-- What was fired for a frame that is over has been invoked in it. -/
theorem flowing_invoked {l : Loop} {g : Game E C X I} (flowing : Flowing l g) {i due : Nat}
    {req : Request C X} (there : g.fired[i]? = some (due, req)) (beyond : due < g.frames) :
    g.pump.invoked[i]? = some req ∧ g.invokedAt[i]? = some due := by
  obtain ⟨staged, requested, _⟩ := flowing
  have newer : ∀ y ∈ left g.fired g.invokedAt, (due, req).1 < y.1 := by
    intro y among
    rw [requested.ahead y among]
    have same := staged.frames
    split
    · change due < _
      omega
    · change due < _
      omega
  obtain ⟨f, stamped, now⟩ := within_past requested.punctual there newer
  have inside : i < g.pump.invoked.length := by
    rw [← requested.counted]
    exact (List.getElem?_eq_some_iff.mp stamped).1
  refine ⟨?_, by rw [stamped, now]⟩
  have whole : g.pump.enqueued[i]? = some req := by
    rw [← requested.sent, List.getElem?_map, there]
    rfl
  rw [requested.inOrder.order, List.getElem?_append_left inside] at whole
  exact whole

/-- A write of an earlier frame was applied, unless it came in the last one. -/
theorem flowing_applied {l : Loop} {g : Game E C X I} (flowing : Flowing l g) {i frame : Nat}
    {origin : Option Nat} {fn : I} (there : g.enqueued[i]? = some (frame, origin, fn))
    (beyond : frame + 1 < g.frames) : ∃ f, g.appliedAt[i]? = some f ∧ Soon frame f := by
  apply within_past flowing.written.applied there
  intro y among
  have recent := flowing.written.recent y among
  change frame < y.1
  simp only [Soon] at recent
  omega

end GameBodies
