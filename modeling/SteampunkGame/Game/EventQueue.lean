import SteampunkGame.Game.Event
import SteampunkGame.Lib.Runs

/-!
`game::event_pump` together with the events whose requests it runs. A callback
may connect and fire while the pump is in it, so these calls are steps of their
own, possible at any time.
-/
namespace GameEventQueue
open GameEvent Runs
variable {E C X : Type}

inductive Call (E C X : Type) where
  | connect (event : E) (callback : C)
  | fire (event : E) (context : X)
  deriving DecidableEq, Repr

/-- The next step of `execute`. `calling` is inside the callback of the copy
    that was made of the front request. -/
inductive PumpPc (C X : Type) where
  | idle
  | test
  | calling (req : Request C X)
  | popping
  deriving DecidableEq, Repr

/-- `calls`, `enqueued` and `invoked` record what was done; no step reads
    them. -/
structure Pump (E C X : Type) where
  events : E → EventBase C
  requests : List (Request C X)
  pc : PumpPc C X
  calls : List (Call E C X)
  enqueued : List (Request C X)
  invoked : List (Request C X)

inductive Action (E C X : Type) where
  | call (call : Call E C X)
  | execute
  | test
  | callbackReturn
  | callbackThrow
  | pop
  deriving DecidableEq, Repr

def start : Pump E C X := ⟨fun _ => .empty, [], .idle, [], [], []⟩

/-- The queue without the request whose callback was already called. -/
def Pump.pending (s : Pump E C X) : List (Request C X) :=
  match s.pc with
  | .calling _ | .popping => s.requests.tail
  | _ => s.requests

/-- What holds as long as no callback throws. -/
structure InOrder (s : Pump E C X) : Prop where
  order : s.enqueued = s.invoked ++ s.pending
  busy : s.pc ≠ .idle → s.pc ≠ .test → s.requests ≠ []

theorem inOrder_start : InOrder (start : Pump E C X) := ⟨rfl, fun busy => absurd rfl busy⟩

variable [DecidableEq E]

/-- `connection_base::fire` enqueues the requests. -/
def callStep (s : Pump E C X) : Call E C X → Option (Pump E C X)
  | .connect event callback =>
      some { s with
        events := Function.update s.events event ((s.events event).connect callback)
        calls := s.calls ++ [.connect event callback] }
  | .fire event context =>
      match (s.events event).fire context with
      | .ok requests =>
          some { s with
            requests := s.requests ++ requests
            calls := s.calls ++ [.fire event context]
            enqueued := s.enqueued ++ requests }
      | .error _ => none

/-- Whether the callback of a request can return is up to the callback. An
    exception leaves `execute` before the request is popped. -/
def step (returns : Request C X → Bool) (s : Pump E C X) :
    Action E C X → Option (Pump E C X)
  | .call call => callStep s call
  | .execute =>
      match s.pc with
      | .idle => some { s with pc := .test }
      | _ => none
  | .test =>
      match s.pc, s.requests with
      | .test, [] => some { s with pc := .idle }
      | .test, req :: _ => some { s with pc := .calling req, invoked := s.invoked ++ [req] }
      | _, _ => none
  | .callbackReturn =>
      match s.pc with
      | .calling req => if returns req then some { s with pc := .popping } else none
      | _ => none
  | .callbackThrow =>
      match s.pc with
      | .calling _ => some { s with pc := .idle }
      | _ => none
  | .pop =>
      match s.pc with
      | .popping => some { s with pc := .test, requests := s.requests.tail }
      | _ => none

/-- The callbacks connected to an event, in order. -/
def connected (event : E) (calls : List (Call E C X)) : List C :=
  calls.filterMap fun call => match call with
    | .connect other callback => if other = event then some callback else none
    | .fire _ _ => none

/-- The requests that a call owes, after the calls before it. -/
def owed (before : List (Call E C X)) : Call E C X → List (Request C X)
  | .connect _ _ => []
  | .fire event context => (connected event before).map fun callback => ⟨callback, context⟩

def owedFrom (before : List (Call E C X)) : List (Call E C X) → List (Request C X)
  | [] => []
  | call :: rest => owed before call ++ owedFrom (before ++ [call]) rest

/-- Every vector holds the living connections that were made, in order. -/
def Wired (s : Pump E C X) : Prop :=
  ∀ event, ∃ cns : List (Connection C), (s.events event).cnVector = cns.map some ∧
    cns.map Connection.callback = connected event s.calls ∧
    ∀ cn ∈ cns, (s.events event).alive cn.id = true

theorem owedFrom_concat (before calls : List (Call E C X)) (call : Call E C X) :
    owedFrom before (calls ++ [call]) = owedFrom before calls ++ owed (before ++ calls) call := by
  induction calls generalizing before with
  | nil => simp [owedFrom]
  | cons first rest ih => simp [owedFrom, ih]

theorem wired_start : Wired (start : Pump E C X) :=
  fun _ => ⟨[], rfl, rfl, fun _ among => by cases among⟩

/-- A wired event fires one request for each of its connections. -/
theorem wired_fire {s : Pump E C X} (wired : Wired s) (event : E) (context : X) :
    (s.events event).fire context = .ok (owed s.calls (.fire event context)) := by
  obtain ⟨cns, vector, callbacks, living⟩ := wired event
  rw [EventBase.fire, vector, fireAll_alive living, owed, ← callbacks, List.map_map]
  rfl

theorem wired_connect {s : Pump E C X} (wired : Wired s) (event : E) (callback : C) :
    Wired { s with
      events := Function.update s.events event ((s.events event).connect callback)
      calls := s.calls ++ [.connect event callback] } := by
  intro other
  obtain ⟨cns, vector, callbacks, living⟩ := wired other
  by_cases here : other = event
  · subst here
    refine ⟨cns ++ [⟨(s.events other).made, callback⟩], ?_, ?_, ?_⟩
    · simp [EventBase.connect, vector]
    · simp [callbacks, connected]
    · intro cn among
      simp only [Function.update_self, EventBase.connect]
      by_cases new : cn.id = (s.events other).made
      · rw [new, Function.update_self]
      · rw [Function.update_of_ne new]
        rcases List.mem_append.mp among with early | last
        · exact living cn early
        · rw [List.mem_singleton.mp last] at new
          exact absurd rfl new
  · refine ⟨cns, ?_, ?_, ?_⟩
    · simp [here, vector]
    · simp [callbacks, connected, Ne.symm here]
    · simpa [here] using living

/-- All that a call does. -/
theorem callStep_cases {s t : Pump E C X} {call : Call E C X} (wired : Wired s)
    (run : callStep s call = some t) : Wired t ∧ t.pc = s.pc ∧ t.invoked = s.invoked ∧
      t.calls = s.calls ++ [call] ∧ t.requests = s.requests ++ owed s.calls call ∧
      t.enqueued = s.enqueued ++ owed s.calls call := by
  cases call with
  | connect event callback =>
    cases run
    exact ⟨wired_connect wired event callback, rfl, rfl, rfl, by simp [owed], by simp [owed]⟩
  | fire event context =>
    simp only [callStep, wired_fire wired event context, Option.some.injEq] at run
    subst run
    refine ⟨?_, rfl, rfl, rfl, rfl, rfl⟩
    intro other
    obtain ⟨cns, vector, callbacks, living⟩ := wired other
    exact ⟨cns, vector, by simp [callbacks, connected], living⟩

/-- All that a step does. -/
inductive Stepped (returns : Request C X → Bool) (s : Pump E C X) :
    Action E C X → Pump E C X → Prop where
  | called {call : Call E C X} {t : Pump E C X} (run : callStep s call = some t) :
      Stepped returns s (.call call) t
  | enters (pc : s.pc = .idle) : Stepped returns s .execute { s with pc := .test }
  | leaves (pc : s.pc = .test) (empty : s.requests = []) :
      Stepped returns s .test { s with pc := .idle }
  | invokes {req : Request C X} {rest : List (Request C X)} (pc : s.pc = .test)
      (front : s.requests = req :: rest) :
      Stepped returns s .test { s with pc := .calling req, invoked := s.invoked ++ [req] }
  | returned {req : Request C X} (pc : s.pc = .calling req) (can : returns req = true) :
      Stepped returns s .callbackReturn { s with pc := .popping }
  | threw {req : Request C X} (pc : s.pc = .calling req) :
      Stepped returns s .callbackThrow { s with pc := .idle }
  | pops (pc : s.pc = .popping) :
      Stepped returns s .pop { s with pc := .test, requests := s.requests.tail }

theorem step_stepped {returns : Request C X → Bool} {s t : Pump E C X} {a : Action E C X}
    (run : step returns s a = some t) : Stepped returns s a t := by
  cases a with
  | call call => exact .called run
  | execute =>
    simp only [step] at run
    split at run
    · cases run
      exact .enters ‹_›
    · cases run
  | test =>
    simp only [step] at run
    split at run
    · cases run
      exact .leaves ‹_› ‹_›
    · cases run
      exact .invokes ‹_› ‹_›
    · cases run
  | callbackReturn =>
    simp only [step] at run
    split at run
    · split at run
      · cases run
        exact .returned ‹_› ‹_›
      · cases run
    · cases run
  | callbackThrow =>
    simp only [step] at run
    split at run
    · cases run
      exact .threw ‹_›
    · cases run
  | pop =>
    simp only [step] at run
    split at run
    · cases run
      exact .pops ‹_›
    · cases run

/-- What holds in all runs: the queue was given what the calls owe. -/
structure Fired (s : Pump E C X) : Prop where
  wired : Wired s
  owed : s.enqueued = owedFrom [] s.calls

theorem fired_start : Fired (start : Pump E C X) := ⟨wired_start, rfl⟩

theorem fired_step {returns : Request C X → Bool} {s t : Pump E C X} {a : Action E C X}
    (fired : Fired s) (stepped : Stepped returns s a t) : Fired t := by
  obtain ⟨wired, enqueued⟩ := fired
  cases stepped with
  | called run =>
    obtain ⟨still, _, _, calls, _, more⟩ := callStep_cases wired run
    exact ⟨still, by rw [more, calls, owedFrom_concat, enqueued, List.nil_append]⟩
  | _ => exact ⟨wired, enqueued⟩

theorem inOrder_step {returns : Request C X → Bool} {s t : Pump E C X} {a : Action E C X}
    (fired : Fired s) (inOrder : InOrder s) (stepped : Stepped returns s a t)
    (quiet : a ≠ .callbackThrow) : InOrder t := by
  obtain ⟨order, busy⟩ := inOrder
  cases stepped with
  | called run =>
    obtain ⟨_, pc, invoked, _, requests, more⟩ := callStep_cases fired.wired run
    constructor
    · rw [more, order, invoked, List.append_assoc]
      congr 1
      simp only [Pump.pending, pc, requests]
      split
      · rename_i req at_
        exact (List.tail_append_of_ne_nil (busy (by simp [at_]) (by simp [at_]))).symm
      · rename_i at_
        exact (List.tail_append_of_ne_nil (busy (by simp [at_]) (by simp [at_]))).symm
      · rfl
    · intro idle test
      rw [pc] at idle test
      rw [requests]
      exact fun empty => busy idle test (List.append_eq_nil_iff.mp empty).1
  | enters pc =>
    exact ⟨by simpa [Pump.pending, pc] using order, fun _ test => absurd rfl test⟩
  | leaves pc empty =>
    exact ⟨by simpa [Pump.pending, pc] using order, fun idle => absurd rfl idle⟩
  | invokes pc front =>
    refine ⟨?_, fun _ _ => by simp [front]⟩
    simpa [Pump.pending, pc, front] using order
  | returned pc can =>
    exact ⟨by simpa [Pump.pending, pc] using order,
      fun _ _ => busy (by simp [pc]) (by simp [pc])⟩
  | threw pc => exact absurd rfl quiet
  | pops pc =>
    exact ⟨by simpa [Pump.pending, pc] using order, fun _ test => absurd rfl test⟩

end GameEventQueue
