import SteampunkGame.Game.Running

/-!
A key from `poll_events` to the objects. The renderer fires `key_down`, the
pump of the next frame calls the callbacks, and what these enqueue is written
in that frame or in the one after it.
-/
namespace GameInput
open SchedPool SchedRunner GameWorld GameLoop GameMainLoop GameBodies GameRunning
open GameEvent GameEventQueue Runs TimedQueue
variable {E C X I : Type} [DecidableEq E]
variable {n next : UInt32} {r : Runner GameJob} {fuel : Nat} {returns : Request C X → Bool}
  {char : Int8 → X} {keyDown : E} {g g' h : Running E C X I}

theorem runStep_fired {a : RunAction E C X I}
    (run : runStep n fuel returns char keyDown g a = some g') :
    g.game.fired <+: g'.game.fired := by
  cases runStep_moved run with
  | calm | quit | other => exact List.prefix_refl _
  | job _ _ did => exact jobStep_fired did
  | body did => exact bodyStep_fired did
  | setup _ did | key _ did => exact (pumpStep_aside did).1.fired

theorem reaches_fired (walk : Reaches (runStep n fuel returns char keyDown) Calm g h) :
    g.game.fired <+: h.game.fired := by
  induction walk with
  | refl => exact List.prefix_refl _
  | tail _ move ih =>
    obtain ⟨a, _, run⟩ := move
    exact ih.trans (runStep_fired run)

/-- What a key fires, and for which frame. -/
theorem polled_fired (alive : Alive n next r g) {sym : Int32}
    (run : runStep n fuel returns char keyDown g (.poll (.keyDown sym)) = some g') :
    g'.game.fired = g.game.fired ++ (connected keyDown g.game.pump.calls).map fun callback =>
      (g.game.frames + 1, ⟨callback, char sym.toInt8⟩) := by
  cases runStep_moved run with
  | key polling did =>
    simp only [pumpStep] at did
    split at did
    · rename_i pump taken
      cases did
      cases step_stepped taken with
      | called called =>
        obtain ⟨_, _, _, _, _, enqueued⟩ :=
          callStep_cases alive.flowing.requested.fired.wired called
        simp only [enqueued, List.drop_left, owed, List.map_map, Game.due, polling, if_true]
        rfl
    · cases did

/-- Any static pool and any interleaving, where neither callbacks nor writes
    throw: when a key is polled in some frame, each callback that is connected
    to `key_down` is called once for it, in the next frame, with the key code
    as a `char`; every write that it enqueues comes in in that frame and is
    applied in it or in the one after it. While the renderer polls the pump
    does not run, so the two do not meet in the queue. -/
theorem key_latency {n next : UInt32} {pool : WorkerPool} (static : StaticPool n pool)
    (bound : next ≤ n) : ∃ r, world pool = .ok r ∧ ∀ fuel, 3 ≤ fuel →
      ∀ (returns : Request C X → Bool) (char : Int8 → X) (keyDown : E)
        (g g' h : Running E C X I) (sym : Int32),
      Reaches (runStep n fuel returns char keyDown) Calm (begin r next) g →
      runStep n fuel returns char keyDown g (.poll (.keyDown sym)) = some g' →
      Reaches (runStep n fuel returns char keyDown) Calm g' h →
      g.game.pump.pc = .idle ∧
      ∀ (i : Nat) (callback : C), (connected keyDown g.game.pump.calls)[i]? = some callback →
        g.game.frames + 1 < h.game.frames →
        h.game.pump.invoked[g.game.pump.enqueued.length + i]? =
            some ⟨callback, char sym.toInt8⟩ ∧
          h.game.invokedAt[g.game.pump.enqueued.length + i]? = some (g.game.frames + 1) ∧
          ∀ (j frame : Nat) (fn : I), h.game.enqueued[j]? =
              some (frame, some (g.game.pump.enqueued.length + i), fn) →
            frame = g.game.frames + 1 ∧ (g.game.frames + 2 < h.game.frames →
              ∃ f, h.game.appliedAt[j]? = some f ∧ Soon (g.game.frames + 1) f) := by
  obtain ⟨r, built, same, _⟩ := world_graph pool
  rw [← same] at static built
  refine ⟨r, by rw [← same]; exact built, ?_⟩
  intro fuel enough returns char keyDown g g' h sym walk polled later
  have here := alive_reaches static bound built enough alive_begin walk
  have quiet : Calm g (.poll (.keyDown sym)) := trivial
  have again := alive_step static bound built enough here quiet polled
  have there := alive_reaches static bound built enough again later
  constructor
  · cases runStep_moved polled with
    | key polling _ =>
      apply here.flowing.staged.pumpIdle
      rw [polling_pumped here.flowing.staged polling]
      decide
  intro i callback connected_ beyond
  have fired : h.game.fired[g.game.pump.enqueued.length + i]? =
      some (g.game.frames + 1, ⟨callback, char sym.toInt8⟩) := by
    have counted := congrArg List.length here.flowing.requested.sent
    rw [List.length_map] at counted
    obtain ⟨rest, grown⟩ := reaches_fired later
    rw [← grown, polled_fired here polled, List.append_assoc, ← counted,
      List.getElem?_append_right (Nat.le_add_right _ _), Nat.add_sub_cancel_left]
    rw [List.getElem?_append_left, List.getElem?_map, connected_]
    · rfl
    · rw [List.length_map]
      exact (List.getElem?_eq_some_iff.mp connected_).1
  obtain ⟨invoked, stamped⟩ := flowing_invoked there.flowing fired beyond
  refine ⟨invoked, stamped, ?_⟩
  intro j frame fn enqueued
  have origin := there.flowing.written.origin _ (List.mem_of_getElem? enqueued) _ rfl
  have now : frame = g.game.frames + 1 := by
    rw [stamped] at origin
    exact (Option.some.inj origin).symm
  refine ⟨now, fun longer => ?_⟩
  obtain ⟨f, applied, soon⟩ := flowing_applied there.flowing enqueued (by omega)
  exact ⟨f, applied, now ▸ soon⟩

abbrev keyStep : Running Unit Nat Int8 Nat → RunAction Unit Nat Int8 Nat →
    Option (Running Unit Nat Int8 Nat) := runStep 2 3 (fun _ => true) id ()

/-- `a` is polled in the first frame. In the second the callback enqueues a
    write when the queue was emptied already, which is applied in the third. -/
theorem key_latency_two : ∃ r, world (filledPool 2) = .ok r ∧
    ∃ g g' h : Running Unit Nat Int8 Nat, Reaches keyStep Calm (begin r 1) g ∧
      keyStep g (.poll (.keyDown 97)) = some g' ∧ Reaches keyStep Calm g' h ∧
      h.game.frames = 3 ∧ h.game.pump.invoked[0]? = some ⟨7, 97⟩ ∧
      h.game.invokedAt[0]? = some 1 ∧ ∃ f, h.game.appliedAt[0]? = some f ∧ Soon 1 f := by
  obtain ⟨r, built, holds⟩ := key_latency (E := Unit) (C := Nat) (X := Int8) (I := Nat)
    (filledPool_static (n := 2) (by decide)) (show (1 : UInt32) ≤ 2 by decide)
  have run : ((keyStep (begin r 1) (.setup (.connect () 7))).bind fun s =>
      (keyStep (drive keyStep turns 62 s) (.poll (.keyDown 97))).bind fun g' =>
      (keyStep (drive keyStep turns 58 g') (.body (.callbackWrite 5))).map fun t =>
      decide (connected () (drive keyStep turns 62 s).game.pump.calls = [7]) &&
        decide ((drive keyStep turns 62 s).game.pump.enqueued.length = 0) &&
        decide ((drive keyStep turns 62 s).game.frames = 0) &&
        decide ((drive keyStep turns 107 t).game.frames = 3) &&
        decide ((drive keyStep turns 107 t).game.enqueued = [(1, some 0, 5)])) = some true := by
    cases built
    decide +kernel
  simp only [Option.bind_eq_some_iff, Option.map_eq_some_iff, Bool.and_eq_true,
    decide_eq_true_eq] at run
  obtain ⟨s, setup, g', polled, t, wrote, ⟨⟨⟨calls, none_⟩, first⟩, last⟩, write⟩ := run
  have walk : Reaches keyStep Calm (begin r 1) (drive keyStep turns 62 s) :=
    .head ⟨.setup _, trivial, setup⟩ (drive_reaches turns_calm 62 s)
  have later : Reaches keyStep Calm g' (drive keyStep turns 107 t) :=
    (drive_reaches turns_calm 58 g').trans
      (.head ⟨.body (.callbackWrite 5), rfl, wrote⟩ (drive_reaches turns_calm 107 t))
  obtain ⟨_, called⟩ := holds 3 (by decide) _ _ _ _ _ _ _ walk polled later
  rw [calls, none_, first, last, write] at called
  obtain ⟨invoked, stamped, writes⟩ := called 0 7 rfl (by decide)
  obtain ⟨_, applied⟩ := writes 0 1 5 rfl
  exact ⟨r, built, _, g', _, walk, polled, later, last, invoked, stamped, applied (by decide)⟩

end GameInput
