import SteampunkGame.Game.Running

/-!
What the renderer sees of the objects. Writes come from any thread at any time,
but the objects change only while the write job calls them, so each frame is
rendered from one snapshot.
-/
namespace GameSnapshot
open SchedPool SchedRunner GameWorld GameLoop GameMainLoop GameBodies GameRunning
open GameEvent GameEventQueue Runs TimedQueue
variable {E C X I S : Type}

/-- The game with the state that its writes change. -/
structure Stored (E C X I S : Type) where
  running : Running E C X I
  objects : S

/-- The writes that were called, in order. -/
def called (g : Game E C X I) : List I :=
  (g.enqueued.take g.appliedAt.length).map fun x => x.2.2

/-- The write that is popped and called. -/
def popped (queue : List I) : RunAction E C X I → Option I
  | .body .tryPop => queue.head?
  | _ => none

/-- What a step does to the writes: it pops one, or pops none and may enqueue. -/
inductive Wrote (g g' : Game E C X I) (a : RunAction E C X I) : Prop where
  | popped {fn : I} {rest : List I} (front : g.queue = fn :: rest)
      (pop : popped g.queue a = some fn) (enqueued : g'.enqueued = g.enqueued)
      (appliedAt : g'.appliedAt = g.appliedAt ++ [g.frames])
  | grew (pop : popped g.queue a = none) (enqueued : g.enqueued <+: g'.enqueued)
      (appliedAt : g'.appliedAt = g.appliedAt)

theorem popped_other {queue : List I} {a : RunAction E C X I} (other : a ≠ .body .tryPop) :
    popped queue a = none := by
  cases a with
  | body a =>
    cases a with
    | tryPop => exact absurd rfl other
    | _ => rfl
  | _ => rfl

theorem wrote_aside {g g' : Game E C X I} {a : RunAction E C X I} (aside : Aside g g')
    (other : a ≠ .body .tryPop) : Wrote g g' a :=
  .grew (popped_other other) (aside.enqueued ▸ List.prefix_refl _) aside.appliedAt

theorem called_wrote {l : Loop} {g g' : Game E C X I} {a : RunAction E C X I}
    (written : Written l g) (wrote : Wrote g g' a) :
    called g' = called g ++ (popped g.queue a).toList := by
  cases wrote with
  | popped front pop enqueued appliedAt =>
    have queued := written.queued
    rw [front] at queued
    obtain ⟨x, more, there, same, _⟩ := List.map_eq_cons_iff.mp queued.symm
    have first : g.enqueued[g.appliedAt.length]? = some x := by
      rw [← List.head?_drop, ← left, there]
      rfl
    rw [called, enqueued, appliedAt, List.length_append, List.length_singleton,
      List.take_add_one, first, List.map_append, pop, ← same]
    rfl
  | grew pop enqueued appliedAt =>
    obtain ⟨more, grown⟩ := enqueued
    rw [pop, called, appliedAt, ← grown, List.take_append_of_le_length written.applied.count]
    exact (List.append_nil _).symm

theorem applied_wrote {g g' : Game E C X I} {a : RunAction E C X I} (wrote : Wrote g g' a) :
    g'.appliedAt = g.appliedAt ++ (popped g.queue a).toList.map fun _ => g.frames := by
  cases wrote with
  | popped front pop enqueued appliedAt =>
    rw [appliedAt, pop]
    rfl
  | grew pop enqueued appliedAt =>
    rw [appliedAt, pop]
    exact (List.append_nil _).symm

variable [DecidableEq E]

def storedStep (apply : S → I → S) (n : UInt32) (fuel : Nat) (returns : Request C X → Bool)
    (char : Int8 → X) (keyDown : E) (s : Stored E C X I S) (a : RunAction E C X I) :
    Option (Stored E C X I S) :=
  (runStep n fuel returns char keyDown s.running a).map fun g =>
    ⟨g, (popped s.running.game.queue a).elim s.objects (apply s.objects)⟩

def CalmStored (s : Stored E C X I S) (a : RunAction E C X I) : Prop := Calm s.running a

instance (s : Stored E C X I S) (a : RunAction E C X I) : Decidable (CalmStored s a) :=
  inferInstanceAs (Decidable (Calm s.running a))

variable {n next : UInt32} {r : Runner GameJob} {fuel : Nat} {returns : Request C X → Bool}
  {char : Int8 → X} {keyDown : E} {g g' : Running E C X I} {apply : S → I → S} {start : S}
  {s t : Stored E C X I S}

theorem job_wrote {g g' : Game E C X I} {e : SchedSystem.Event UInt32 GameJob} {a : LoopAction}
    (run : jobStep returns g e = some g') : Wrote g g' (.sched a) := by
  cases e with
  | started w job =>
    cases job with
    | eventPump => exact wrote_aside (pumpStep_aside run).1 (by simp)
    | writeJob | renderJob =>
      cases run
      exact .grew rfl (List.prefix_refl _) rfl
  | ended w job threw =>
    cases job with
    | renderJob =>
      cases run
      exact .grew rfl (List.prefix_refl _) rfl
    | writeJob | eventPump =>
      simp only [jobStep] at run
      split at run <;> cases run
      exact .grew rfl (List.prefix_refl _) rfl

theorem body_wrote {g g' : Game E C X I} {a : BodyAction E C X I}
    (run : bodyStep returns g a = some g') : Wrote g g' (.body a) := by
  cases a with
  | pump a =>
    cases a with
    | execute => cases run
    | call call =>
      simp only [bodyStep] at run
      split at run
      · exact wrote_aside (pumpStep_aside run).1 (by simp)
      · exact wrote_aside (pumpStep_aside run).1 (by simp)
      · cases run
    | test | callbackReturn | callbackThrow | pop =>
      exact wrote_aside (pumpStep_aside run).1 (by simp)
  | callbackWrite fn =>
    simp only [bodyStep] at run
    split at run <;> cases run
    exact .grew rfl (List.prefix_append _ _) rfl
  | enqueue fn =>
    cases run
    exact .grew rfl (List.prefix_append _ _) rfl
  | tryPop =>
    simp only [bodyStep] at run
    split at run
    · rename_i empty
      cases run
      exact .grew (by rw [empty]; rfl) (List.prefix_refl _) rfl
    · rename_i front
      cases run
      exact .popped front (by rw [front]; rfl) rfl rfl
    · cases run
  | writeReturn | writeThrow =>
    simp only [bodyStep] at run
    split at run <;> cases run
    exact .grew rfl (List.prefix_refl _) rfl

theorem runStep_wrote {a : RunAction E C X I}
    (run : runStep n fuel returns char keyDown g a = some g') : Wrote g.game g'.game a := by
  cases runStep_moved run with
  | calm => exact .grew rfl (List.prefix_refl _) rfl
  | job _ _ did => exact job_wrote did
  | body did => exact body_wrote did
  | setup _ did | key _ did => exact wrote_aside (pumpStep_aside did).1 (by simp)
  | quit | other => exact .grew rfl (List.prefix_refl _) rfl

theorem storedStep_running {a : RunAction E C X I}
    (run : storedStep apply n fuel returns char keyDown s a = some t) :
    runStep n fuel returns char keyDown s.running a = some t.running ∧
      t.objects = (popped s.running.game.queue a).elim s.objects (apply s.objects) := by
  obtain ⟨g, taken, eq⟩ := Option.map_eq_some_iff.mp run
  cases eq
  exact ⟨taken, rfl⟩

/-- The objects are what the writes that were called have made of them. -/
structure Kept (n next : UInt32) (r : Runner GameJob) (apply : S → I → S) (start : S)
    (s : Stored E C X I S) : Prop where
  alive : Alive n next r s.running
  objects : s.objects = (called s.running.game).foldl apply start

theorem kept_step (static : StaticPool n r.pool) (bound : next ≤ n)
    (built : world r.pool = .ok r) (enough : 3 ≤ fuel) {a : RunAction E C X I}
    (kept : Kept n next r apply start s) (quiet : CalmStored s a)
    (run : storedStep apply n fuel returns char keyDown s a = some t) :
    Kept n next r apply start t ∧ called s.running.game <+: called t.running.game := by
  obtain ⟨alive, objects⟩ := kept
  obtain ⟨taken, later⟩ := storedStep_running run
  have grew := called_wrote alive.flowing.written (runStep_wrote taken)
  refine ⟨⟨alive_step static bound built enough alive quiet taken, ?_⟩, ?_⟩
  · rw [later, grew, List.foldl_append, objects]
    cases popped s.running.game.queue a <;> rfl
  · rw [grew]
    exact List.prefix_append _ _

/-- While a renderer runs the queue is left alone. -/
theorem polling_unpopped (alive : Alive n next r g) (polling : g.game.polling = true)
    {a : RunAction E C X I} (run : runStep n fuel returns char keyDown g a = some g') :
    popped g.game.queue a = none := by
  have staged := alive.flowing.staged
  have idle : g.game.writer = .idle := by
    apply staged.writerIdle
    rw [(staged.after (by rw [staged.polling.mp polling]; decide)).1]
    decide
  cases a with
  | body a =>
    cases a with
    | tryPop =>
      obtain ⟨game, did, _⟩ := Option.map_eq_some_iff.mp run
      simp only [bodyStep, idle] at did
      cases did
    | _ => rfl
  | _ => rfl

theorem polling_applied (alive : Alive n next r g) (polling : g.game.polling = true) {i : Nat}
    {x : Nat × Option Nat × I} (there : g.game.enqueued[i]? = some x)
    (early : x.1 < g.game.frames) : i < g.game.appliedAt.length := by
  obtain ⟨staged, _, written⟩ := alive.flowing
  have wrote := (staged.after (by rw [staged.polling.mp polling]; decide)).1
  have newer : ∀ y ∈ left g.game.enqueued g.game.appliedAt, x.1 < y.1 := by
    intro y among
    rw [written.settled (Or.inl wrote) y among]
    exact early
  obtain ⟨f, stamped, _⟩ := within_past written.applied there newer
  exact (List.getElem?_eq_some_iff.mp stamped).1

/-- The renderer of a frame sees the objects as the first writes, in the order
    in which they were enqueued, have left them, and all writes of the frames
    before are among these. It sees the same as long as it runs, and later
    renderers see what more writes made of it. -/
theorem render_snapshot {n next : UInt32} {pool : WorkerPool} (static : StaticPool n pool)
    (bound : next ≤ n) : ∃ r, world pool = .ok r ∧ ∀ fuel, 3 ≤ fuel →
      ∀ (returns : Request C X → Bool) (char : Int8 → X) (keyDown : E) (apply : S → I → S)
        (start : S) (s : Stored E C X I S),
      Reaches (storedStep apply n fuel returns char keyDown) CalmStored ⟨begin r next, start⟩ s →
      s.running.game.polling = true →
      s.objects = (called s.running.game).foldl apply start ∧
      (∀ (i : Nat) (x : Nat × Option Nat × I), s.running.game.enqueued[i]? = some x →
        x.1 < s.running.game.frames → i < s.running.game.appliedAt.length) ∧
      ∀ t, Reaches (storedStep apply n fuel returns char keyDown) CalmStored s t →
        called s.running.game <+: called t.running.game ∧
        (t.running.game.frames = s.running.game.frames → t.objects = s.objects) := by
  obtain ⟨r, built, same, _⟩ := world_graph pool
  rw [← same] at static built
  refine ⟨r, by rw [← same]; exact built, ?_⟩
  intro fuel enough returns char keyDown apply start s walk polling
  have keep (s t : Stored E C X I S) (a : RunAction E C X I) (kept : Kept n next r apply start s)
      (quiet : CalmStored s a)
      (run : storedStep apply n fuel returns char keyDown s a = some t) :=
    kept_step static bound built enough kept quiet run
  have kept : Kept n next r apply start s :=
    reaches_invariant (fun s a t kept quiet run => (keep s t a kept quiet run).1) walk
      ⟨alive_begin, rfl⟩
  refine ⟨kept.objects, ?_, ?_⟩
  · intro i x there early
    exact polling_applied kept.alive polling there early
  · intro t later
    have holds := reaches_invariant (I := fun t : Stored E C X I S =>
        Kept n next r apply start t ∧ called s.running.game <+: called t.running.game ∧
          ((t.running.game.frames = s.running.game.frames ∧ t.running.game.polling = true ∧
            t.objects = s.objects) ∨
            s.running.game.frames < t.running.game.frames)) ?_ later
      ⟨kept, List.prefix_refl _, Or.inl ⟨rfl, polling, rfl⟩⟩
    · obtain ⟨_, grew, still⟩ := holds
      refine ⟨grew, fun frames => ?_⟩
      rcases still with ⟨_, _, objects⟩ | beyond
      · exact objects
      · omega
    · rintro u a v ⟨now, grew, still⟩ quiet run
      obtain ⟨after, more⟩ := keep u v a now quiet run
      refine ⟨after, grew.trans more, ?_⟩
      obtain ⟨taken, changed⟩ := storedStep_running run
      have moved := runStep_polling taken
      rcases still with ⟨frames, polls, objects⟩ | beyond
      · rcases moved with ⟨same, on⟩ | next_
        · exact Or.inl ⟨same.trans frames, on polls,
            by rw [changed, polling_unpopped now.alive polls taken]; exact objects⟩
        · right
          omega
      · right
        rcases moved with ⟨same, _⟩ | next_ <;> omega

abbrev listStep : Stored Unit Nat Int8 Nat (List Nat) → RunAction Unit Nat Int8 Nat →
    Option (Stored Unit Nat Int8 Nat (List Nat)) :=
  storedStep (fun objects fn => objects ++ [fn]) 2 3 (fun _ => true) id ()

/-- One write comes in before the first frame, and another one while its
    renderer runs. -/
theorem render_snapshot_two : ∃ r, world (filledPool 2) = .ok r ∧
    ∃ s t : Stored Unit Nat Int8 Nat (List Nat),
      Reaches listStep CalmStored ⟨begin r 1, []⟩ s ∧ s.running.game.polling = true ∧
      called s.running.game = [5] ∧ s.objects = [5] ∧ Reaches listStep CalmStored s t ∧
      t.running.game.queue = [6] ∧ t.objects = s.objects := by
  obtain ⟨r, built, holds⟩ := render_snapshot (E := Unit) (C := Nat) (X := Int8) (I := Nat)
    (S := List Nat) (filledPool_static (n := 2) (by decide)) (show (1 : UInt32) ≤ 2 by decide)
  have run : ((listStep ⟨begin r 1, []⟩ (.body (.enqueue 5))).bind fun first =>
      (listStep (drive listStep turns 64 first) (.body (.enqueue 6))).map fun t =>
      decide ((drive listStep turns 64 first).running.game.polling = true) &&
        decide (called (drive listStep turns 64 first).running.game = [5]) &&
        decide ((drive listStep turns 64 first).running.game.frames = 0) &&
        decide (t.running.game.frames = 0) && decide (t.running.game.queue = [6])) =
      some true := by
    cases built
    decide +kernel
  simp only [Option.bind_eq_some_iff, Option.map_eq_some_iff, Bool.and_eq_true,
    decide_eq_true_eq] at run
  obtain ⟨first, wrote, t, later, ⟨⟨⟨polling, five⟩, frame⟩, same⟩, queue⟩ := run
  have walk : Reaches listStep CalmStored ⟨begin r 1, []⟩ (drive listStep turns 64 first) :=
    .head ⟨.body (.enqueue 5), rfl, wrote⟩
      (drive_reaches (fun a among s => turns_calm a among s.running) 64 first)
  have more : Reaches listStep CalmStored (drive listStep turns 64 first) t :=
    .head ⟨.body (.enqueue 6), rfl, later⟩ .refl
  obtain ⟨objects, _, after⟩ := holds 3 (by decide) _ _ _ _ _ _ walk polling
  rw [five] at objects
  exact ⟨r, built, _, t, walk, polling, five, objects, more, queue,
    (after t more).2 (same.trans frame.symm)⟩

end GameSnapshot
