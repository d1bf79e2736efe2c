import SteampunkGame.Game.Running

/-!
The game when callbacks and writes throw. The exception ends the job of the
frame; a write that threw is gone, and a request whose callback threw is the
first one of the next frame. So each exception costs the others a frame.
-/
namespace GameThrows
open SchedPool SchedSystem SchedRunner GameWorld GameLoop GameMainLoop GameBodies GameRunning
open GameEvent GameEventQueue Runs
open GameJob
variable {E C X I : Type}

def writeThrew : BodyAction E C X I → Bool
  | .writeThrow => true
  | _ => false

def threw : Action E C X → Bool
  | .callbackThrow => true
  | _ => false

def callbackThrew : BodyAction E C X I → Bool
  | .pump a => threw a
  | _ => false

/-- Such steps of the bodies, among all steps. -/
def among (kind : BodyAction E C X I → Bool) : RunAction E C X I → Bool
  | .body a => kind a
  | .sched _ | .setup _ | .poll _ => false

theorem calm_among (s : Running E C X I) (a : RunAction E C X I) (quiet : Calm s a) :
    among writeThrew a = false ∧ among callbackThrew a = false := by
  cases a with
  | body a =>
    cases a with
    | pump a =>
      cases a with
      | callbackThrow => cases quiet
      | _ => exact ⟨rfl, rfl⟩
    | writeThrow => cases quiet
    | _ => exact ⟨rfl, rfl⟩
  | _ => exact ⟨rfl, rfl⟩

/-- An item that is still in its queue, by the frame that it should leave it in
    at the latest. Once the job is over it has missed this frame. -/
def Due (limit throws frames : Nat) (settled : Prop) : Prop :=
  frames ≤ limit + throws ∧ (settled → frames < limit + throws)

def WriterSettled (l : Loop) (g : Game E C X I) : Prop :=
  l.writing = .done ∨ l.writing = .running ∧ g.writer = .idle

def PumpSettled (l : Loop) (g : Game E C X I) : Prop :=
  l.pumping = .done ∨ l.pumping = .running ∧ g.pump.pc = .idle

/-- The write with number `j`, since when so many writes threw. -/
def WriteDue (j throws : Nat) (l : Loop) (g : Game E C X I) : Prop :=
  ∀ x, g.enqueued[j]? = some x → g.appliedAt.length ≤ j →
    Due (x.1 + 1) throws g.frames (WriterSettled l g)

def RequestDue (j throws : Nat) (l : Loop) (g : Game E C X I) : Prop :=
  ∀ x, g.fired[j]? = some x → g.fired.length ≤ j + g.pump.requests.length →
    Due x.1 throws g.frames (PumpSettled l g)

/-- Exceptions or not, the queues hold what was not taken out of them. -/
structure Balanced (g : Game E C X I) : Prop where
  writes : g.appliedAt.length + g.queue.length = g.enqueued.length
  fired : g.fired.length = g.pump.enqueued.length
  requests : g.pump.requests.length ≤ g.pump.enqueued.length

def busy : PumpPc C X → Bool
  | .calling _ | .popping => true
  | .idle | .test => false

/-- The request whose callback was called and that is not popped yet. -/
def inHand (s : Pump E C X) : List (Request C X) := if busy s.pc then s.requests.take 1 else []

/-- The callbacks of the requests `done` have returned. Every other call was
    one that threw. -/
structure Repeated (throws : Nat) (s : Pump E C X) (done : List (Request C X)) : Prop where
  order : s.enqueued = done ++ s.requests
  hand : busy s.pc = true → s.requests ≠ []
  calls : ∃ earlier, s.invoked = earlier ++ inHand s ∧ done.Sublist earlier ∧
    earlier.length = done.length + throws

theorem due_mono {limit throws frames : Nat} {settled settled' : Prop}
    (due : Due limit throws frames settled) (less : settled' → settled) :
    Due limit throws frames settled' :=
  ⟨due.1, fun now => due.2 (less now)⟩

theorem due_threw {limit throws frames : Nat} {settled settled' : Prop}
    (due : Due limit throws frames settled) : Due limit (throws + 1) frames settled' :=
  ⟨by have := due.1; omega, fun _ => by have := due.1; omega⟩

/-- The frame is over. -/
theorem due_frame {limit throws frames : Nat} {settled settled' : Prop}
    (due : Due limit throws frames settled) (ended : settled) (next : ¬ settled') :
    Due limit throws (frames + 1) settled' :=
  ⟨due.2 ended, fun now => absurd now next⟩

theorem balanced_fresh : Balanced (.fresh : Game E C X I) := ⟨rfl, rfl, Nat.le_refl _⟩

theorem repeated_start : Repeated 0 (start : Pump E C X) [] :=
  ⟨rfl, fun no => (by cases no), [], rfl, .slnil, rfl⟩

variable {l l' : Loop} {g g' : Game E C X I} {j throws : Nat}

/-- Steps that neither enqueue nor call a write. -/
theorem writeDue_same (due : WriteDue j throws l g) (enqueued : g'.enqueued = g.enqueued)
    (applied : g'.appliedAt = g.appliedAt) (frames : g'.frames = g.frames)
    (less : WriterSettled l' g' → WriterSettled l g) : WriteDue j throws l' g' := by
  intro x there waiting
  rw [enqueued] at there
  rw [applied] at waiting
  rw [frames]
  exact due_mono (due x there waiting) less

theorem writeDue_aside (due : WriteDue j throws l g) (writing : l'.writing = l.writing)
    (aside : Aside g g') : WriteDue j throws l' g' := by
  apply writeDue_same due aside.enqueued aside.appliedAt aside.frames
  rw [WriterSettled, WriterSettled, writing, aside.writer]
  exact id

theorem writeDue_enqueue (due : WriteDue j throws l g) (origin : Option Nat) (fn : I) :
    WriteDue j throws l (g.enqueue origin fn) := by
  intro x there waiting
  by_cases early : j < g.enqueued.length
  · rw [Game.enqueue, List.getElem?_append_left early] at there
    exact due x there waiting
  · rw [Game.enqueue, List.getElem?_append_right (Nat.not_lt.mp early),
      List.getElem?_singleton] at there
    split at there
    · cases there
      exact ⟨by simp only [Game.enqueue]; omega, fun _ => by simp only [Game.enqueue]; omega⟩
    · cases there

theorem requestDue_same (due : RequestDue j throws l g) (fired : g'.fired = g.fired)
    (requests : g'.pump.requests.length ≤ g.pump.requests.length) (frames : g'.frames = g.frames)
    (less : PumpSettled l' g' → PumpSettled l g) : RequestDue j throws l' g' := by
  intro x there waiting
  rw [fired] at there waiting
  rw [frames]
  exact due_mono (due x there (by omega)) less

variable [DecidableEq E] {returns : Request C X → Bool}

theorem repeated_step {throws : Nat} {s t : Pump E C X} {done : List (Request C X)}
    {a : Action E C X} (repeated : Repeated throws s done) (run : Stepped returns s a t) :
    ∃ done', Repeated (throws + (threw a).toNat) t done' := by
  obtain ⟨order, hand, earlier, invoked, inside, count⟩ := repeated
  cases run with
  | called run =>
    obtain ⟨more, requests, enqueued, pc, same⟩ := callStep_appends run
    refine ⟨done, ?_, ?_, earlier, ?_, inside, count⟩
    · rw [enqueued, requests, order, List.append_assoc]
    · rw [pc, requests]
      intro calling none_
      exact hand calling (List.append_eq_nil_iff.mp none_).1
    · rw [same, invoked, inHand, inHand, pc, requests]
      split
      · rename_i calling
        obtain ⟨req, rest, front⟩ := List.exists_cons_of_ne_nil (hand calling)
        simp [front]
      · rfl
  | enters pc | leaves pc =>
    refine ⟨done, order, fun no => (by cases no), earlier, ?_, inside, count⟩
    simpa [inHand, busy, pc] using invoked
  | @invokes req rest pc front =>
    refine ⟨done, order, fun _ => (by simp [front]), earlier, ?_, inside, count⟩
    simp [inHand, busy, pc, front, invoked]
  | returned pc =>
    refine ⟨done, order, fun _ => hand (by simp [pc, busy]), earlier, ?_, inside, count⟩
    simpa [inHand, busy, pc] using invoked
  | threw pc =>
    obtain ⟨req, rest, front⟩ := List.exists_cons_of_ne_nil (hand (by simp [pc, busy]))
    refine ⟨done, order, fun no => (by cases no), earlier ++ [req], ?_, ?_, ?_⟩
    · simpa [inHand, busy, pc, front] using invoked
    · exact inside.trans (List.sublist_append_left _ _)
    · rw [List.length_append, List.length_singleton, count]
      exact Nat.add_assoc _ _ _
  | pops pc =>
    obtain ⟨req, rest, front⟩ := List.exists_cons_of_ne_nil (hand (by simp [pc, busy]))
    refine ⟨done ++ [req], ?_, fun no => (by cases no), earlier ++ [req], ?_, ?_, ?_⟩
    · simp [order, front]
    · simpa [inHand, busy, pc, front] using invoked
    · exact inside.append (List.Sublist.refl _)
    · simp only [List.length_append, List.length_singleton, count, threw, Bool.toNat_false]
      omega

theorem pumpStep_sends {a : Action E C X}
    (run : pumpStep returns g a = some g') :
    ∃ more, g'.pump.enqueued = g.pump.enqueued ++ more ∧
      g'.fired = g.fired ++ more.map fun req => (g.due, req) := by
  simp only [pumpStep] at run
  split at run
  · rename_i pump taken
    cases run
    have grown : ∃ more, pump.enqueued = g.pump.enqueued ++ more := by
      cases step_stepped taken with
      | called run =>
        obtain ⟨more, _, enqueued, _⟩ := callStep_appends run
        exact ⟨more, enqueued⟩
      | _ => exact ⟨[], (List.append_nil _).symm⟩
    obtain ⟨more, grown⟩ := grown
    exact ⟨more, grown, by simp [grown]⟩
  · cases run

theorem balanced_pump {a : Action E C X} (balanced : Balanced g)
    (run : pumpStep returns g a = some g') : Balanced g' := by
  obtain ⟨writes, fired, requests⟩ := balanced
  obtain ⟨more, grown, sent⟩ := pumpStep_sends run
  obtain ⟨aside, stepped⟩ := pumpStep_aside run
  refine ⟨?_, ?_, ?_⟩
  · rw [aside.appliedAt, aside.queue, aside.enqueued]
    exact writes
  · rw [sent, grown, List.length_append, List.length_append, List.length_map, fired]
  · generalize g'.pump = pump at stepped ⊢
    cases step_stepped stepped with
    | called run =>
      obtain ⟨more, requests', enqueued, _⟩ := callStep_appends run
      rw [requests', enqueued, List.length_append, List.length_append]
      exact Nat.add_le_add_right requests _
    | pops =>
      rw [List.length_tail]
      exact (Nat.sub_le _ 1).trans requests
    | _ => exact requests

theorem balanced_body {a : BodyAction E C X I} (balanced : Balanced g)
    (run : bodyStep returns g a = some g') : Balanced g' := by
  cases a with
  | pump a =>
    cases a with
    | execute => cases run
    | call call =>
      simp only [bodyStep] at run
      split at run
      · exact balanced_pump balanced run
      · exact balanced_pump balanced run
      · cases run
    | test | callbackReturn | callbackThrow | pop => exact balanced_pump balanced run
  | callbackWrite fn =>
    simp only [bodyStep] at run
    split at run
    · cases run
      obtain ⟨writes, fired, requests⟩ := balanced
      exact ⟨by simp [Game.enqueue, ← writes, Nat.add_assoc], fired, requests⟩
    · cases run
  | enqueue fn =>
    cases run
    obtain ⟨writes, fired, requests⟩ := balanced
    exact ⟨by simp [Game.enqueue, ← writes, Nat.add_assoc], fired, requests⟩
  | tryPop =>
    simp only [bodyStep] at run
    split at run
    · cases run
      exact ⟨balanced.writes, balanced.fired, balanced.requests⟩
    · rename_i front
      cases run
      obtain ⟨writes, fired, requests⟩ := balanced
      refine ⟨?_, fired, requests⟩
      rw [front, List.length_cons] at writes
      simp only [List.length_append, List.length_singleton]
      omega
    · cases run
  | writeReturn | writeThrow =>
    simp only [bodyStep] at run
    split at run
    · cases run
      exact ⟨balanced.writes, balanced.fired, balanced.requests⟩
    · cases run

theorem balanced_job {e : Event UInt32 GameJob} (balanced : Balanced g)
    (run : jobStep returns g e = some g') : Balanced g' := by
  cases e with
  | started w job =>
    cases job with
    | eventPump => exact balanced_pump balanced run
    | writeJob | renderJob =>
      cases run
      exact ⟨balanced.writes, balanced.fired, balanced.requests⟩
  | ended w job threw =>
    cases job with
    | writeJob | eventPump =>
      simp only [jobStep] at run
      split at run <;> cases run
      exact balanced
    | renderJob =>
      cases run
      exact ⟨balanced.writes, balanced.fired, balanced.requests⟩

theorem writeDue_body {a : BodyAction E C X I} (balanced : Balanced g)
    (due : WriteDue j throws l g) (run : bodyStep returns g a = some g') :
    WriteDue j (throws + (writeThrew a).toNat) l g' := by
  cases a with
  | pump a =>
    cases a with
    | execute => cases run
    | call call =>
      simp only [bodyStep] at run
      split at run
      · exact writeDue_aside due rfl (pumpStep_aside run).1
      · exact writeDue_aside due rfl (pumpStep_aside run).1
      · cases run
    | test | callbackReturn | callbackThrow | pop =>
      exact writeDue_aside due rfl (pumpStep_aside run).1
  | callbackWrite fn =>
    simp only [bodyStep] at run
    split at run
    · cases run
      exact writeDue_enqueue due _ fn
    · cases run
  | enqueue fn =>
    cases run
    exact writeDue_enqueue due _ fn
  | tryPop =>
    simp only [bodyStep] at run
    split at run
    · rename_i empty
      cases run
      intro x there waiting
      have writes := balanced.writes
      have inside := (List.getElem?_eq_some_iff.mp there).1
      rw [empty, List.length_nil] at writes
      simp only at waiting inside
      omega
    · cases run
      intro x there waiting
      rw [List.length_append, List.length_singleton] at waiting
      refine due_mono (due x there (Nat.le_of_succ_le waiting)) ?_
      rintro (done | ⟨_, idle⟩)
      · exact Or.inl done
      · cases idle
    · cases run
  | writeReturn =>
    simp only [bodyStep] at run
    split at run
    · cases run
      refine writeDue_same due rfl rfl rfl ?_
      rintro (done | ⟨_, idle⟩)
      · exact Or.inl done
      · cases idle
    · cases run
  | writeThrow =>
    simp only [bodyStep] at run
    split at run
    · cases run
      intro x there waiting
      exact due_threw (due x there waiting)
    · cases run

theorem writeDue_job {e : Event UInt32 GameJob} (staged : Staged l g)
    (due : WriteDue j throws l g) (paced : loopStep l e = some l')
    (run : jobStep returns g e = some g') : WriteDue j throws l' g' := by
  cases e with
  | started w job =>
    cases job with
    | writeJob =>
      simp only [loopStep] at paced
      split at paced
      · cases paced
        cases run
        refine writeDue_same due rfl rfl rfl ?_
        rintro (done | ⟨_, idle⟩)
        · cases done
        · cases idle
      · cases paced
    | eventPump =>
      simp only [loopStep] at paced
      split at paced
      · cases paced
        exact writeDue_aside due rfl (pumpStep_aside run).1
      · cases paced
    | renderJob =>
      simp only [loopStep] at paced
      split at paced
      · cases paced
        cases run
        exact writeDue_same due rfl rfl rfl id
      · cases paced
  | ended w job threw =>
    cases job with
    | writeJob =>
      simp only [loopStep, jobStep] at paced run
      split at paced
      · rename_i running
        cases paced
        split at run
        · rename_i idle
          cases run
          exact writeDue_same due rfl rfl rfl fun _ => Or.inr ⟨running, idle⟩
        · cases run
      · cases paced
    | eventPump =>
      simp only [loopStep, jobStep] at paced run
      split at paced
      · cases paced
        split at run <;> cases run
        exact writeDue_same due rfl rfl rfl id
      · cases paced
    | renderJob =>
      simp only [loopStep] at paced
      split at paced
      · rename_i running
        cases paced
        cases run
        intro x there waiting
        have wrote := (staged.after (by rw [running]; exact Stage.noConfusion)).1
        refine due_frame (due x there waiting) (Or.inl wrote) ?_
        rintro (done | ⟨running, _⟩)
        · cases done
        · cases running
      · cases paced

theorem requestDue_called {call : Call E C X} (staged : Staged l g)
    (may : MayCall l g) (due : RequestDue j throws l g)
    (run : pumpStep returns g (.call call) = some g') : RequestDue j throws l g' := by
  obtain ⟨more, grown, sent⟩ := pumpStep_sends run
  obtain ⟨aside, stepped⟩ := pumpStep_aside run
  obtain ⟨more', requests, enqueued, pc, _⟩ := callStep_appends stepped
  have same : more' = more := List.append_cancel_left (enqueued.symm.trans grown)
  have settles : PumpSettled l g' → PumpSettled l g := by
    rw [PumpSettled, PumpSettled, pc]
    exact id
  intro x there waiting
  rw [sent, requests, same, List.length_append, List.length_append, List.length_map] at waiting
  rw [sent] at there
  rw [aside.frames]
  by_cases early : j < g.fired.length
  · rw [List.getElem?_append_left early] at there
    exact due_mono (due x there (by omega)) settles
  · rw [List.getElem?_append_right (Nat.not_lt.mp early), List.getElem?_map] at there
    obtain ⟨req, _, rfl⟩ := Option.map_eq_some_iff.mp there
    have stamp := mayCall_due staged may
    constructor
    · have frames := staged.frames
      simp only [stamp]
      split <;> omega
    · intro settled
      rcases settles settled with done | ⟨running, idle⟩
      · have frames := staged.frames
        simp only [stamp, done, if_true]
        omega
      · exfalso
        rcases may with polling | ⟨req, calling⟩ | waits
        · rw [polling_pumped staged polling] at running
          cases running
        · rw [calling] at idle
          cases idle
        · rw [waits] at running
          cases running

/-- The steps of the pump itself, once its job was started. -/
theorem requestDue_pump {a : Action E C X} (inside : a ≠ .execute)
    (quiet : ∀ call, a ≠ .call call) (due : RequestDue j throws l g)
    (run : pumpStep returns g a = some g') :
    RequestDue j (throws + (threw a).toNat) l g' := by
  simp only [pumpStep] at run
  split at run
  · rename_i pump taken
    cases run
    cases step_stepped taken with
    | called => exact absurd rfl (quiet _)
    | enters => exact absurd rfl inside
    | leaves pc empty =>
      intro x there waiting
      simp only [List.drop_length, List.map_nil, List.append_nil, empty, List.length_nil]
        at there waiting
      have inside := (List.getElem?_eq_some_iff.mp there).1
      omega
    | invokes | returned =>
      refine requestDue_same due (by simp) (Nat.le_refl _) rfl ?_
      rintro (done | ⟨_, idle⟩)
      · exact Or.inl done
      · cases idle
    | threw =>
      intro x there waiting
      simp only [List.drop_length, List.map_nil, List.append_nil] at there waiting
      exact due_threw (due x there waiting)
    | pops =>
      refine requestDue_same due (by simp) (by simp) rfl ?_
      rintro (done | ⟨_, idle⟩)
      · exact Or.inl done
      · cases idle
  · cases run

theorem requestDue_body {a : BodyAction E C X I} (staged : Staged l g)
    (due : RequestDue j throws l g) (run : bodyStep returns g a = some g') :
    RequestDue j (throws + (callbackThrew a).toNat) l g' := by
  cases a with
  | pump a =>
    cases a with
    | execute => cases run
    | call call =>
      simp only [bodyStep] at run
      split at run
      · rename_i req calling
        exact requestDue_called staged (Or.inr (Or.inl ⟨req, calling⟩)) due run
      · rename_i polling _
        exact requestDue_called staged (Or.inl polling) due run
      · cases run
    | test | callbackReturn | callbackThrow | pop =>
      exact requestDue_pump (by simp) (by simp) due run
  | enqueue fn =>
    cases run
    exact requestDue_same due rfl (Nat.le_refl _) rfl id
  | callbackWrite fn | tryPop | writeReturn | writeThrow =>
    simp only [bodyStep] at run
    split at run <;> cases run <;> exact requestDue_same due rfl (Nat.le_refl _) rfl id

theorem requestDue_job {e : Event UInt32 GameJob} (staged : Staged l g)
    (due : RequestDue j throws l g) (paced : loopStep l e = some l')
    (run : jobStep returns g e = some g') : RequestDue j throws l' g' := by
  cases e with
  | started w job =>
    cases job with
    | writeJob | renderJob =>
      simp only [loopStep] at paced
      split at paced
      · cases paced
        cases run
        exact requestDue_same due rfl (Nat.le_refl _) rfl id
      · cases paced
    | eventPump =>
      simp only [loopStep] at paced
      split at paced
      · cases paced
        simp only [jobStep, pumpStep] at run
        split at run
        · rename_i taken
          cases run
          cases step_stepped taken with
          | enters =>
            refine requestDue_same due (by simp) (Nat.le_refl _) rfl ?_
            rintro (done | ⟨_, idle⟩)
            · cases done
            · cases idle
        · cases run
      · cases paced
  | ended w job threw =>
    cases job with
    | writeJob =>
      simp only [loopStep, jobStep] at paced run
      split at paced
      · cases paced
        split at run <;> cases run
        exact requestDue_same due rfl (Nat.le_refl _) rfl id
      · cases paced
    | eventPump =>
      simp only [loopStep, jobStep] at paced run
      split at paced
      · rename_i running
        cases paced
        split at run
        · rename_i idle
          cases run
          exact requestDue_same due rfl (Nat.le_refl _) rfl fun _ => Or.inr ⟨running, idle⟩
        · cases run
      · cases paced
    | renderJob =>
      simp only [loopStep] at paced
      split at paced
      · rename_i running
        cases paced
        cases run
        intro x there waiting
        have pumped := (staged.after (by rw [running]; exact Stage.noConfusion)).2
        refine due_frame (due x there waiting) (Or.inl pumped) ?_
        rintro (done | ⟨running, _⟩)
        · cases done
        · cases running
      · cases paced

theorem repeated_pump {a : Action E C X} (repeated : ∃ done, Repeated throws g.pump done)
    (run : pumpStep returns g a = some g') :
    ∃ done, Repeated (throws + (threw a).toNat) g'.pump done := by
  obtain ⟨done, repeated⟩ := repeated
  exact repeated_step repeated (step_stepped (pumpStep_aside run).2)

theorem repeated_body {a : BodyAction E C X I} (repeated : ∃ done, Repeated throws g.pump done)
    (run : bodyStep returns g a = some g') :
    ∃ done, Repeated (throws + (callbackThrew a).toNat) g'.pump done := by
  cases a with
  | pump a =>
    cases a with
    | execute => cases run
    | call call =>
      simp only [bodyStep] at run
      split at run
      · exact repeated_pump repeated run
      · exact repeated_pump repeated run
      · cases run
    | test | callbackReturn | callbackThrow | pop => exact repeated_pump repeated run
  | enqueue fn =>
    cases run
    exact repeated
  | callbackWrite fn | tryPop | writeReturn | writeThrow =>
    simp only [bodyStep] at run
    split at run <;> cases run <;> exact repeated

theorem repeated_job {e : Event UInt32 GameJob} (repeated : ∃ done, Repeated throws g.pump done)
    (run : jobStep returns g e = some g') : ∃ done, Repeated throws g'.pump done := by
  cases e with
  | started w job =>
    cases job with
    | eventPump => exact repeated_pump repeated run
    | writeJob | renderJob =>
      cases run
      exact repeated
  | ended w job threw =>
    cases job with
    | writeJob | eventPump =>
      simp only [jobStep] at run
      split at run <;> cases run
      exact repeated
    | renderJob =>
      cases run
      exact repeated

/-- What a step keeps of the loop and the game, when some of the bodies' steps
    are counted. -/
structure Kept (returns : Request C X → Bool) (kind : BodyAction E C X I → Bool)
    (inv : Nat → Loop → Game E C X I → Prop) : Prop where
  job : ∀ k l l' g g' e, Staged l g → inv k l g → loopStep l e = some l' →
    jobStep returns g e = some g' → inv k l' g'
  body : ∀ k l g g' a, Staged l g → inv k l g → bodyStep returns g a = some g' →
    inv (k + (kind a).toNat) l g'
  called : ∀ k l g g' call, Staged l g → inv k l g → MayCall l g →
    pumpStep returns g (.call call) = some g' → inv k l g'

theorem writeDue_kept : Kept returns (writeThrew : BodyAction E C X I → Bool)
    fun k l g => Balanced g ∧ WriteDue j k l g where
  job := by
    rintro k l l' g g' e staged ⟨balanced, due⟩ paced run
    exact ⟨balanced_job balanced run, writeDue_job staged due paced run⟩
  body := by
    rintro k l g g' a _ ⟨balanced, due⟩ run
    exact ⟨balanced_body balanced run, writeDue_body balanced due run⟩
  called := by
    rintro k l g g' call _ ⟨balanced, due⟩ _ run
    exact ⟨balanced_pump balanced run, writeDue_aside due rfl (pumpStep_aside run).1⟩

theorem requestDue_kept : Kept returns (callbackThrew : BodyAction E C X I → Bool)
    fun k l g => Balanced g ∧ RequestDue j k l g where
  job := by
    rintro k l l' g g' e staged ⟨balanced, due⟩ paced run
    exact ⟨balanced_job balanced run, requestDue_job staged due paced run⟩
  body := by
    rintro k l g g' a staged ⟨balanced, due⟩ run
    exact ⟨balanced_body balanced run, requestDue_body staged due run⟩
  called := by
    rintro k l g g' call staged ⟨balanced, due⟩ may run
    exact ⟨balanced_pump balanced run, requestDue_called staged may due run⟩

theorem repeated_kept : Kept returns (callbackThrew : BodyAction E C X I → Bool)
    fun k _ g => Balanced g ∧ ∃ done, Repeated k g.pump done where
  job := by
    rintro k l l' g g' e _ ⟨balanced, repeated⟩ _ run
    exact ⟨balanced_job balanced run, repeated_job repeated run⟩
  body := by
    rintro k l g g' a _ ⟨balanced, repeated⟩ run
    exact ⟨balanced_body balanced run, repeated_body repeated run⟩
  called := by
    rintro k l g g' call _ ⟨balanced, repeated⟩ _ run
    exact ⟨balanced_pump balanced run, repeated_pump repeated run⟩

variable {n next : UInt32} {r : Runner GameJob} {fuel : Nat} {char : Int8 → X} {keyDown : E}
  {kind : BodyAction E C X I → Bool} {inv : Nat → Loop → Game E C X I → Prop}
  {s t : Running E C X I}

theorem kept_step (kept : Kept returns kind inv) (static : StaticPool n r.pool)
    (bound : next ≤ n) (built : world r.pool = .ok r) (enough : 3 ≤ fuel) {k : Nat}
    {a : RunAction E C X I} (posed : Posed n next r s)
    (holds : inv k (loopOf s.sched.system.log) s.game)
    (run : runStep n fuel returns char keyDown s a = some t) :
    inv (k + (among kind a).toNat) (loopOf t.sched.system.log) t.game := by
  have later := (posed_step static bound built enough posed run).looping
  obtain ⟨looping, staged⟩ := posed
  cases runStep_moved run with
  | calm taken same =>
    rw [calm_log looping later taken same]
    exact holds
  | job taken one did =>
    exact kept.job _ _ _ _ _ _ staged holds (job_paced looping later taken one) did
  | body did => exact kept.body _ _ _ _ _ staged holds did
  | setup before did =>
    have waiting := unstarted static.positive bound looping before
    exact kept.called _ _ _ _ _ staged holds (Or.inr (Or.inr waiting)) did
  | key polling did => exact kept.called _ _ _ _ _ staged holds (Or.inl polling) did
  | quit | other => exact holds

theorem kept_run (kept : Kept returns kind inv) (static : StaticPool n r.pool) (bound : next ≤ n)
    (built : world r.pool = .ok r) (enough : 3 ≤ fuel) {k : Nat}
    {actions : List (RunAction E C X I)} (posed : Posed n next r s)
    (holds : inv k (loopOf s.sched.system.log) s.game)
    (run : runActions (runStep n fuel returns char keyDown) actions s = some t) :
    Posed n next r t ∧
      inv (k + actions.countP (among kind)) (loopOf t.sched.system.log) t.game := by
  have keep : ∀ (k : Nat) (s : Running E C X I) (a : RunAction E C X I) (t : Running E C X I),
      Posed n next r s ∧ inv k (loopOf s.sched.system.log) s.game →
      runStep n fuel returns char keyDown s a = some t →
      Posed n next r t ∧
        inv (k + (among kind a).toNat) (loopOf t.sched.system.log) t.game := by
    rintro k s a t ⟨posed, holds⟩ run
    exact ⟨posed_step static bound built enough posed run,
      kept_step kept static bound built enough posed holds run⟩
  exact runActions_counted keep ⟨posed, holds⟩ run

/-- Any static pool and any interleaving, whatever throws and how often: a
    write that came in in some frame is called in the next one at the latest,
    or one frame later for every write that threw since. A request leaves the
    queue in the frame that it is due in, or one frame later for every callback
    that threw since. The callbacks of the requests that left have returned in
    the order of the requests, and each call beyond these is one that threw or
    the one that is running. The writes that came in are those that the steps
    have enqueued. -/
theorem delays_bounded {n next : UInt32} {pool : WorkerPool} (static : StaticPool n pool)
    (bound : next ≤ n) : ∃ r, world pool = .ok r ∧ ∀ fuel, 3 ≤ fuel →
      ∀ (returns : Request C X → Bool) (char : Int8 → X) (keyDown : E)
        (before after : List (RunAction E C X I)) (s t : Running E C X I),
      runActions (runStep n fuel returns char keyDown) before (begin r next) = some s →
      runActions (runStep n fuel returns char keyDown) after s = some t →
      t.game.enqueued.map (fun x => x.2.2) = (before ++ after).filterMap asked ∧
      (∀ (j frame : Nat) (origin : Option Nat) (fn : I), s.game.enqueued.length ≤ j →
        t.game.enqueued[j]? = some (frame, origin, fn) →
        frame + 1 + after.countP (among writeThrew) < t.game.frames →
        j < t.game.appliedAt.length) ∧
      (∀ (j frame : Nat) (req : Request C X), s.game.fired.length ≤ j →
        t.game.fired[j]? = some (frame, req) →
        frame + after.countP (among callbackThrew) < t.game.frames →
        j + t.game.pump.requests.length < t.game.fired.length) ∧
      ∃ done, t.game.pump.enqueued = done ++ t.game.pump.requests ∧
        done.Sublist t.game.pump.invoked ∧
        t.game.pump.invoked.length = done.length + before.countP (among callbackThrew) +
          after.countP (among callbackThrew) + (busy t.game.pump.pc).toNat := by
  obtain ⟨r, built, same, _⟩ := world_graph pool
  rw [← same] at static built
  refine ⟨r, by rw [← same]; exact built, ?_⟩
  intro fuel enough returns char keyDown before after s t first second
  have started : Balanced (.fresh : Game E C X I) ∧ ∃ done, Repeated 0 (start : Pump E C X) done :=
    ⟨balanced_fresh, [], repeated_start⟩
  obtain ⟨posed, balanced, repeated⟩ :=
    kept_run repeated_kept static bound built enough posed_begin started first
  have holds := kept_run repeated_kept static bound built enough posed ⟨balanced, repeated⟩ second
  obtain ⟨_, _, done, order, hand, earlier, invoked, inside, count⟩ := holds
  refine ⟨running_enqueued (runActions_append first second), ?_, ?_, done, order, ?_, ?_⟩
  · intro j frame origin fn later there long
    by_contra waiting
    have due : WriteDue j 0 (loopOf s.sched.system.log) s.game := by
      intro x there
      exact absurd (List.getElem?_eq_some_iff.mp there).1 (Nat.not_lt.mpr later)
    have holds := kept_run writeDue_kept static bound built enough posed ⟨balanced, due⟩ second
    have most := (holds.2.2 _ there (Nat.not_lt.mp waiting)).1
    simp only at most
    omega
  · intro j frame req later there long
    by_contra waiting
    have due : RequestDue j 0 (loopOf s.sched.system.log) s.game := by
      intro x there
      exact absurd (List.getElem?_eq_some_iff.mp there).1 (Nat.not_lt.mpr later)
    have holds := kept_run requestDue_kept static bound built enough posed ⟨balanced, due⟩ second
    have most := (holds.2.2 _ there (Nat.not_lt.mp waiting)).1
    simp only at most
    omega
  · rw [invoked]
    exact inside.trans (List.sublist_append_left _ _)
  · have one : (inHand t.game.pump).length = (busy t.game.pump.pc).toNat := by
      rw [inHand]
      cases calling : busy t.game.pump.pc with
      | false => rfl
      | true =>
        obtain ⟨req, rest, front⟩ := List.exists_cons_of_ne_nil (hand calling)
        simp [front]
    rw [invoked, List.length_append, one, count]
    omega

omit [DecidableEq E] in
/-- One write and one callback throw between parts of a run in which nothing
    does. -/
theorem throws_count {first second third : List (RunAction E C X I)}
    (firstCalm : ∀ a ∈ first, among writeThrew a = false ∧ among callbackThrew a = false)
    (secondCalm : ∀ a ∈ second, among writeThrew a = false ∧ among callbackThrew a = false)
    (thirdCalm : ∀ a ∈ third, among writeThrew a = false ∧ among callbackThrew a = false) :
    (first ++ .body .writeThrow :: (second ++ .body (.pump .callbackThrow) :: third)).countP
        (among writeThrew) = 1 ∧
      (first ++ .body .writeThrow :: (second ++ .body (.pump .callbackThrow) :: third)).countP
        (among callbackThrew) = 1 := by
  have none_ {kind : BodyAction E C X I → Bool} {part : List (RunAction E C X I)}
      (quiet : ∀ a ∈ part, among kind a = false) : part.countP (among kind) = 0 := by
    simpa [List.countP_eq_zero] using quiet
  simp only [List.countP_append, List.countP_cons, none_ fun a mem => (firstCalm a mem).1,
    none_ fun a mem => (firstCalm a mem).2, none_ fun a mem => (secondCalm a mem).1,
    none_ fun a mem => (secondCalm a mem).2, none_ fun a mem => (thirdCalm a mem).1,
    none_ fun a mem => (thirdCalm a mem).2]
  exact ⟨rfl, rfl⟩

abbrev throwStep : Running Unit Nat Int8 Nat → RunAction Unit Nat Int8 Nat →
    Option (Running Unit Nat Int8 Nat) := runStep 2 3 (fun _ => true) id ()

/-- Two writes come in and a key is polled in the first frame, where the first
    write throws. In the second frame the other write is called and the callback
    throws, and in the third the callback is called again. -/
theorem delays_bounded_two : ∃ r, world (filledPool 2) = .ok r ∧
    ∃ (actions : List (RunAction Unit Nat Int8 Nat)) (t : Running Unit Nat Int8 Nat),
      runActions throwStep actions (begin r 1) = some t ∧
      actions.countP (among writeThrew) = 1 ∧ actions.countP (among callbackThrew) = 1 ∧
      t.game.frames = 3 ∧ t.game.enqueued = [(0, none, 5), (0, none, 6)] ∧
      1 < t.game.appliedAt.length ∧ t.game.fired = [(1, ⟨7, 97⟩)] ∧ t.game.pump.requests = [] ∧
      t.game.pump.invoked.length = 2 := by
  obtain ⟨r, built, holds⟩ := delays_bounded (E := Unit) (C := Nat) (X := Int8) (I := Nat)
    (filledPool_static (n := 2) (by decide)) (show (1 : UInt32) ≤ 2 by decide)
  have run : ((runWithin throwStep Calm [.setup (.connect () 7), .body (.enqueue 5),
      .body (.enqueue 6)] (begin r 1)).bind fun s =>
      (throwStep (drive throwStep turns 25 s) (.body .writeThrow)).bind fun u =>
      (throwStep (drive throwStep turns 37 u) (.poll (.keyDown 97))).bind fun v =>
      (throwStep (drive throwStep turns 60 v) (.body (.pump .callbackThrow))).map fun w =>
      decide ((drive throwStep turns 105 w).game.frames = 3) &&
        decide ((drive throwStep turns 105 w).game.enqueued = [(0, none, 5), (0, none, 6)]) &&
        decide ((drive throwStep turns 105 w).game.fired = [(1, ⟨7, 97⟩)]) &&
        decide ((drive throwStep turns 105 w).game.pump.enqueued.length = 1) &&
        !busy (drive throwStep turns 105 w).game.pump.pc) = some true := by
    cases built
    decide +kernel
  simp only [Option.bind_eq_some_iff, Option.map_eq_some_iff, Bool.and_eq_true,
    decide_eq_true_eq, Bool.not_eq_true'] at run
  obtain ⟨s, setup, u, wrote, v, polled, w, threw, ⟨⟨⟨last, enqueued⟩, fired⟩, one⟩, idle⟩ := run
  have early : Reaches throwStep Calm (begin r 1) (drive throwStep turns 25 s) :=
    (runWithin_reaches setup).trans (drive_reaches turns_calm 25 s)
  have middle : Reaches throwStep Calm u (drive throwStep turns 60 v) :=
    (drive_reaches turns_calm 37 u).trans
      (.head ⟨.poll _, trivial, polled⟩ (drive_reaches turns_calm 60 v))
  have late : Reaches throwStep Calm w (drive throwStep turns 105 w) :=
    drive_reaches turns_calm 105 w
  obtain ⟨first, before, firstCalm⟩ := reaches_actions calm_among early
  obtain ⟨second, between, secondCalm⟩ := reaches_actions calm_among middle
  obtain ⟨third, after, thirdCalm⟩ := reaches_actions calm_among late
  have taken : runActions throwStep
      (first ++ .body .writeThrow :: (second ++ .body (.pump .callbackThrow) :: third))
      (begin r 1) = some (drive throwStep turns 105 w) := by
    apply runActions_append before
    simp only [runActions, wrote]
    apply runActions_append between
    simp only [runActions, threw]
    exact after
  obtain ⟨writeOnce, callbackOnce⟩ := throws_count firstCalm secondCalm thirdCalm
  obtain ⟨_, writes, requests, done, order, _, calls⟩ :=
    holds 3 (by decide) _ _ _ [] _ _ _ rfl taken
  rw [writeOnce, enqueued, last] at writes
  rw [callbackOnce, fired, last] at requests
  have gone := requests 0 1 ⟨7, 97⟩ (Nat.zero_le _) rfl (by decide)
  have empty : (drive throwStep turns 105 w).game.pump.requests = [] := by
    rw [← List.length_eq_zero_iff]
    simp only [List.length_singleton] at gone
    omega
  refine ⟨r, built, _, _, taken, writeOnce, callbackOnce, last, enqueued,
    writes 1 0 none 6 (Nat.zero_le _) rfl (by decide), fired, empty, ?_⟩
  rw [order, empty, List.append_nil] at one
  rw [calls, one, callbackOnce, idle]
  rfl

end GameThrows
