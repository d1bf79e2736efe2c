import SteampunkGame.Game.EventQueue

/-!
`event_base::yield`, called any number of times by threads of their own beside
the pump. The callback that it connects refers to a promise on the stack of the
call, and nothing disconnects it.
-/
namespace GameEventYield
open GameEvent GameEventQueue Runs
variable {E C X Y : Type}

/-- A callback of the program, or the one that the call `y` of `yield`
    connects. -/
inductive Callback (C Y : Type) where
  | user (callback : C)
  | setValue (y : Y)
  deriving DecidableEq, Repr

/-- A call of `yield`; while it waits its promise is in scope. -/
inductive YieldPc (X : Type) where
  | notCalled
  | waiting (promise : Option X)
  | returned (context : X)
  deriving DecidableEq, Repr

def YieldPc.called : YieldPc X → Bool
  | .notCalled => false
  | _ => true

/-- The promise has no value yet. -/
def YieldPc.pending : YieldPc X → Bool
  | .notCalled | .waiting none => true
  | _ => false

/-- What `set_value` met. -/
inductive Outcome where
  | stored
  | alreadySatisfied
  | outOfScope
  deriving DecidableEq, Repr

/-- `firesSince` records the contexts with which the event of a call was fired
    since it connected, and `setCalls` the calls of `set_value`; no step reads
    them. -/
structure Yielding (E C X Y : Type) where
  pump : Pump E (Callback C Y) X
  yields : Y → YieldPc X
  firesSince : Y → List X
  setCalls : List (Y × Outcome)

inductive Action (E C X : Type) (Y : Type) where
  | connect (event : E) (callback : C)
  | fire (event : E) (context : X)
  | execute
  | test
  | callbackReturn
  | callbackThrow
  | pop
  | yieldConnect (y : Y)
  | yieldReturn (y : Y)
  deriving DecidableEq, Repr

def begin : Yielding E C X Y := ⟨start, fun _ => .notCalled, fun _ => [], []⟩

section
variable [DecidableEq E]

def pumpStep (s : Yielding E C X Y) (a : GameEventQueue.Action E (Callback C Y) X) :
    Option (Yielding E C X Y) :=
  match GameEventQueue.step (fun _ => true) s.pump a with
  | some pump => some { s with pump := pump }
  | none => none

theorem pumpStep_stepped {s t : Yielding E C X Y} {a : GameEventQueue.Action E (Callback C Y) X}
    (run : pumpStep s a = some t) :
    ∃ pump, Stepped (fun _ => true) s.pump a pump ∧ t = { s with pump := pump } := by
  simp only [pumpStep] at run
  split at run
  · rename_i pump moved
    cases run
    exact ⟨pump, step_stepped moved, rfl⟩
  · cases run

/-- As long as no callback of a `yield` is called. -/
structure Untouched (s : Yielding E C X Y) : Prop where
  setCalls : s.setCalls = []
  pending : ∀ y, (s.yields y).pending = true

end

section
variable [DecidableEq Y]

def Yielding.setYield (s : Yielding E C X Y) (y : Y) (pc : YieldPc X) : Yielding E C X Y :=
  { s with yields := Function.update s.yields y pc }

@[simp] theorem setYield_pump (s : Yielding E C X Y) (y : Y) (pc : YieldPc X) :
    (s.setYield y pc).pump = s.pump := rfl

@[simp] theorem setYield_firesSince (s : Yielding E C X Y) (y : Y) (pc : YieldPc X) :
    (s.setYield y pc).firesSince = s.firesSince := rfl

@[simp] theorem setYield_self (s : Yielding E C X Y) (y : Y) (pc : YieldPc X) :
    (s.setYield y pc).yields y = pc := by
  simp [Yielding.setYield]

@[simp] theorem setYield_other (s : Yielding E C X Y) {y z : Y} (other : z ≠ y)
    (pc : YieldPc X) : (s.setYield y pc).yields z = s.yields z := by
  simp [Yielding.setYield, other]

/-- `promise.set_value` in the callback of `y`. -/
def setValue (s : Yielding E C X Y) (y : Y) (context : X) : Yielding E C X Y :=
  match s.yields y with
  | .waiting none =>
      { s.setYield y (.waiting (some context)) with setCalls := s.setCalls ++ [(y, .stored)] }
  | .waiting (some _) => { s with setCalls := s.setCalls ++ [(y, .alreadySatisfied)] }
  | _ => { s with setCalls := s.setCalls ++ [(y, .outOfScope)] }

theorem setValue_outcome (s : Yielding E C X Y) (y : Y) (context : X) :
    (setValue s y context).yields y = .waiting (some context) ∨
      ∃ set ∈ (setValue s y context).setCalls, set.2 ≠ .stored := by
  unfold setValue
  split
  · left
    exact setYield_self _ _ _
  · right
    exact ⟨(y, .alreadySatisfied), by simp, by simp⟩
  · right
    exact ⟨(y, .outOfScope), by simp, by simp⟩

/-- The callback that is called next does its work at once. -/
def called (s : Yielding E C X Y) : Yielding E C X Y :=
  match s.pump.pc with
  | .calling ⟨.setValue y, context⟩ => setValue s y context
  | _ => s

/-- A `set_value` that stores returns, and one that finds a value throws. -/
def Yielding.canReturn (s : Yielding E C X Y) : Bool :=
  match s.pump.pc, s.setCalls.getLast? with
  | .calling ⟨.setValue _, _⟩, some (_, outcome) => outcome = .stored
  | _, _ => true

def Yielding.canThrow (s : Yielding E C X Y) : Bool :=
  match s.pump.pc, s.setCalls.getLast? with
  | .calling ⟨.setValue _, _⟩, some (_, outcome) => outcome = .alreadySatisfied
  | _, _ => true

end

variable [DecidableEq E] [DecidableEq Y]

/-- `target` is the event on which a call of `yield` is made. -/
def step (target : Y → E) (s : Yielding E C X Y) : Action E C X Y → Option (Yielding E C X Y)
  | .connect event callback => pumpStep s (.call (.connect event (.user callback)))
  | .fire event context =>
      match pumpStep s (.call (.fire event context)) with
      | some s =>
          some { s with firesSince := fun y =>
            if (s.yields y).called = true ∧ target y = event then s.firesSince y ++ [context]
            else s.firesSince y }
      | none => none
  | .execute => pumpStep s .execute
  | .test =>
      match pumpStep s .test with
      | some s => some (called s)
      | none => none
  | .callbackReturn => if s.canReturn then pumpStep s .callbackReturn else none
  | .callbackThrow => if s.canThrow then pumpStep s .callbackThrow else none
  | .pop => pumpStep s .pop
  | .yieldConnect y =>
      match s.yields y with
      | .notCalled =>
          match pumpStep s (.call (.connect (target y) (.setValue y))) with
          | some s => some (s.setYield y (.waiting none))
          | none => none
      | _ => none
  | .yieldReturn y =>
      match s.yields y with
      | .waiting (some context) => some (s.setYield y (.returned context))
      | _ => none

/-- All that a step does. -/
inductive Moved (target : Y → E) (s : Yielding E C X Y) :
    Action E C X Y → Yielding E C X Y → Prop where
  | connects {event : E} {callback : C} {pump : Pump E (Callback C Y) X}
      (stepped : Stepped (fun _ => true) s.pump (.call (.connect event (.user callback))) pump) :
      Moved target s (.connect event callback) { s with pump := pump }
  | fires {event : E} {context : X} {pump : Pump E (Callback C Y) X}
      (stepped : Stepped (fun _ => true) s.pump (.call (.fire event context)) pump) :
      Moved target s (.fire event context) { s with
        pump := pump
        firesSince := fun y =>
          if (s.yields y).called = true ∧ target y = event then s.firesSince y ++ [context]
          else s.firesSince y }
  | enters (pc : s.pump.pc = .idle) :
      Moved target s .execute { s with pump := { s.pump with pc := .test } }
  | leaves (pc : s.pump.pc = .test) (empty : s.pump.requests = []) :
      Moved target s .test { s with pump := { s.pump with pc := .idle } }
  | invokes {req : Request (Callback C Y) X} {rest : List (Request (Callback C Y) X)}
      (pc : s.pump.pc = .test) (front : s.pump.requests = req :: rest) :
      Moved target s .test (called { s with pump := { s.pump with
        pc := .calling req
        invoked := s.pump.invoked ++ [req] } })
  | returned {req : Request (Callback C Y) X} (pc : s.pump.pc = .calling req) :
      Moved target s .callbackReturn { s with pump := { s.pump with pc := .popping } }
  | threw {req : Request (Callback C Y) X} (pc : s.pump.pc = .calling req) :
      Moved target s .callbackThrow { s with pump := { s.pump with pc := .idle } }
  | pops (pc : s.pump.pc = .popping) :
      Moved target s .pop { s with pump := { s.pump with
        pc := .test
        requests := s.pump.requests.tail } }
  | yieldConnects {y : Y} {pump : Pump E (Callback C Y) X} (new : s.yields y = .notCalled)
      (stepped : Stepped (fun _ => true) s.pump (.call (.connect (target y) (.setValue y))) pump) :
      Moved target s (.yieldConnect y) ({ s with pump := pump }.setYield y (.waiting none))
  | yieldReturns {y : Y} {context : X} (filled : s.yields y = .waiting (some context)) :
      Moved target s (.yieldReturn y) (s.setYield y (.returned context))

theorem step_moved {target : Y → E} {s t : Yielding E C X Y} {a : Action E C X Y}
    (run : step target s a = some t) : Moved target s a t := by
  cases a with
  | connect event callback =>
    have moved : pumpStep s (.call (.connect event (.user callback))) = some t := run
    obtain ⟨pump, stepped, rfl⟩ := pumpStep_stepped moved
    exact .connects stepped
  | fire event context =>
    simp only [step] at run
    split at run
    · rename_i u moved
      cases run
      obtain ⟨pump, stepped, rfl⟩ := pumpStep_stepped moved
      exact .fires stepped
    · cases run
  | execute =>
    obtain ⟨pump, stepped, rfl⟩ := pumpStep_stepped run
    cases stepped with
    | enters pc => exact .enters pc
  | test =>
    simp only [step] at run
    split at run
    · rename_i u moved
      cases run
      obtain ⟨pump, stepped, rfl⟩ := pumpStep_stepped moved
      cases stepped with
      | leaves pc empty => exact .leaves pc empty
      | invokes pc front => exact .invokes pc front
    · cases run
  | callbackReturn =>
    simp only [step] at run
    split at run
    · obtain ⟨pump, stepped, rfl⟩ := pumpStep_stepped run
      cases stepped with
      | returned pc can => exact .returned pc
    · cases run
  | callbackThrow =>
    simp only [step] at run
    split at run
    · obtain ⟨pump, stepped, rfl⟩ := pumpStep_stepped run
      cases stepped with
      | threw pc => exact .threw pc
    · cases run
  | pop =>
    have moved : pumpStep s .pop = some t := run
    obtain ⟨pump, stepped, rfl⟩ := pumpStep_stepped moved
    cases stepped with
    | pops pc => exact .pops pc
  | yieldConnect y =>
    simp only [step] at run
    split at run
    · rename_i new
      split at run
      · rename_i u moved
        cases run
        obtain ⟨pump, stepped, rfl⟩ := pumpStep_stepped moved
        exact .yieldConnects new stepped
      · cases run
    · cases run
  | yieldReturn y =>
    simp only [step] at run
    split at run
    · cases run
      exact .yieldReturns ‹_›
    · cases run

/-- The callback is not one of a call that has returned. -/
def Yielding.outlives (s : Yielding E C X Y) : Callback C Y → Bool
  | .user _ => true
  | .setValue y =>
      match s.yields y with
      | .returned _ => false
      | _ => true

/-- Each callback of a `yield` was called at most once and while its promise
    was in scope and not satisfied; a call that has returned gave the context of
    the first fire after it connected, and left no connection behind. -/
structure Clean (s : Yielding E C X Y) : Prop where
  once : ∀ y, s.setCalls.countP (fun set => set.1 = y) ≤ 1
  stored : ∀ set ∈ s.setCalls, set.2 = .stored
  first : ∀ y context, s.yields y = .returned context →
    (s.firesSince y).head? = some context
  restored : ∀ event, (s.pump.events event).cnVector.map (Option.map Connection.callback) =
    ((connected event s.pump.calls).filter s.outlives).map some

/-- The callback that is called next is not that of a `yield`. -/
def UserNext (s : Yielding E C X Y) : Action E C X Y → Prop
  | .test => ∀ req rest y, s.pump.requests = req :: rest → req.callback ≠ .setValue y
  | _ => True

def isSet (y : Y) : Callback C Y → Bool
  | .setValue z => z = y
  | .user _ => false

/-- The requests for the callback of `y`. -/
def requestsOf (y : Y) (requests : List (Request (Callback C Y) X)) :
    List (Request (Callback C Y) X) :=
  requests.filter fun req => isSet y req.callback

/-- The front request was taken up. -/
def PumpPc.busy : PumpPc C X → Bool
  | .calling _ | .popping => true
  | _ => false

/-- What a call of `yield` hears: one request for each fire since it connected,
    and as long as its promise has no value none of these was taken up. -/
structure Heard (target : Y → E) (s : Yielding E C X Y) : Prop where
  fired : Fired s.pump
  connects : ∀ y event, (connected event s.pump.calls).filter (isSet y) =
    if (s.yields y).called = true ∧ target y = event then [Callback.setValue y] else []
  silent : ∀ y, (s.yields y).called = false → s.firesSince y = []
  fires : ∀ y, (requestsOf y s.pump.enqueued).map Request.context = s.firesSince y
  queued : ∀ y, (s.yields y).pending = true →
    requestsOf y s.pump.requests = requestsOf y s.pump.enqueued
  taken : PumpPc.busy s.pump.pc = true → ∃ req rest, s.pump.requests = req :: rest ∧
    ∀ y, isSet y req.callback = true → (s.yields y).pending = false
  value : ∀ y context, s.yields y = .waiting (some context) ∨ s.yields y = .returned context →
    (s.firesSince y).head? = some context

theorem requestsOf_append (y : Y) (xs ys : List (Request (Callback C Y) X)) :
    requestsOf y (xs ++ ys) = requestsOf y xs ++ requestsOf y ys := by
  simp [requestsOf]

theorem requestsOf_other {y : Y} {req : Request (Callback C Y) X}
    {rest : List (Request (Callback C Y) X)} (other : isSet y req.callback = false) :
    requestsOf y (req :: rest) = requestsOf y rest := by
  simp [requestsOf, other]

/-- A fire makes one request for a call of `yield` that has connected. -/
theorem requestsOf_fire {target : Y → E} {s : Yielding E C X Y} (heard : Heard target s) (y : Y)
    (event : E) (context : X) : requestsOf y (owed s.pump.calls (.fire event context)) =
      if (s.yields y).called = true ∧ target y = event then [⟨.setValue y, context⟩] else [] := by
  have connects := congrArg (List.map fun callback => (⟨callback, context⟩ : Request _ X))
    (heard.connects y event)
  rw [requestsOf, owed, List.filter_map]
  refine Eq.trans connects ?_
  split <;> rfl

theorem heard_begin (target : Y → E) : Heard target (begin : Yielding E C X Y) where
  fired := fired_start
  connects := fun y event => by simp [begin, start, connected, YieldPc.called]
  silent := fun _ _ => rfl
  fires := fun _ => rfl
  queued := fun _ _ => rfl
  taken := fun busy => by cases busy
  value := fun y context got => by rcases got with got | got <;> cases got

/-- The steps of the pump that call nothing and take nothing out. -/
theorem heard_paced {target : Y → E} {s : Yielding E C X Y} (heard : Heard target s)
    {pc : PumpPc (Callback C Y) X}
    (calmer : PumpPc.busy pc = true → PumpPc.busy s.pump.pc = true) :
    Heard target { s with pump := { s.pump with pc := pc } } :=
  ⟨⟨heard.fired.wired, heard.fired.owed⟩, heard.connects, heard.silent, heard.fires, heard.queued,
    fun busy => heard.taken (calmer busy), heard.value⟩

theorem heard_fires {target : Y → E} {s : Yielding E C X Y} (heard : Heard target s) {event : E}
    {context : X} {pump : Pump E (Callback C Y) X}
    (stepped : Stepped (fun _ => true) s.pump (.call (.fire event context)) pump) :
    Heard target { s with
      pump := pump
      firesSince := fun y =>
        if (s.yields y).called = true ∧ target y = event then s.firesSince y ++ [context]
        else s.firesSince y } := by
  have fired := fired_step heard.fired stepped
  cases stepped with
  | called call =>
    obtain ⟨_, pc, _, calls, requests, enqueued⟩ := callStep_cases heard.fired.wired call
    have owes := requestsOf_fire heard
    constructor
    · exact fired
    · intro y other
      rw [calls]
      simpa [connected] using heard.connects y other
    · intro y silent
      dsimp only at silent ⊢
      rw [if_neg (by simp [silent]), heard.silent y silent]
    · intro y
      dsimp only
      rw [enqueued, requestsOf_append, owes, List.map_append, heard.fires y]
      split <;> simp
    · intro y pending
      rw [requests, enqueued, requestsOf_append, requestsOf_append, heard.queued y pending]
    · intro busy
      rw [pc] at busy
      obtain ⟨req, rest, front, taken⟩ := heard.taken busy
      exact ⟨req, rest ++ owed s.pump.calls (.fire event context), by rw [requests, front]; rfl,
        taken⟩
    · intro y got value
      have first := heard.value y got value
      dsimp only
      split
      · rw [List.head?_append, first]
        rfl
      · exact first

theorem heard_connects {target : Y → E} {s : Yielding E C X Y} (heard : Heard target s) {event : E}
    {callback : C} {pump : Pump E (Callback C Y) X}
    (stepped : Stepped (fun _ => true) s.pump (.call (.connect event (.user callback))) pump) :
    Heard target { s with pump := pump } := by
  have fired := fired_step heard.fired stepped
  cases stepped with
  | called call =>
    obtain ⟨_, pc, _, calls, requests, enqueued⟩ := callStep_cases heard.fired.wired call
    rw [owed, List.append_nil] at requests enqueued
    refine ⟨fired, ?_, heard.silent, ?_, ?_, ?_, heard.value⟩
    · intro y other
      have before := heard.connects y other
      rw [calls]
      by_cases same : event = other <;> simpa [connected, same, isSet] using before
    · simpa only [enqueued] using heard.fires
    · simpa only [requests, enqueued] using heard.queued
    · simpa only [requests, pc] using heard.taken

theorem heard_yieldConnects {target : Y → E} {s : Yielding E C X Y} (heard : Heard target s) {y : Y}
    {pump : Pump E (Callback C Y) X} (new : s.yields y = .notCalled)
    (stepped : Stepped (fun _ => true) s.pump (.call (.connect (target y) (.setValue y))) pump) :
    Heard target ({ s with pump := pump }.setYield y (.waiting none)) := by
  have fired := fired_step heard.fired stepped
  cases stepped with
  | called call =>
    obtain ⟨_, pc, _, calls, requests, enqueued⟩ := callStep_cases heard.fired.wired call
    rw [owed, List.append_nil] at requests enqueued
    constructor
    · exact fired
    · intro z other
      have before := heard.connects z other
      rw [setYield_pump, calls, connected, List.filterMap_append, List.filter_append,
        ← connected, before]
      by_cases same : z = y
      · subst same
        rw [new, setYield_self]
        by_cases here : target z = other <;> simp [here, isSet, YieldPc.called]
      · rw [setYield_other _ same]
        by_cases here : target y = other <;> simp [here, isSet, Ne.symm same]
    · intro z silent
      by_cases same : z = y
      · subst same
        simp [YieldPc.called] at silent
      · rw [setYield_other _ same] at silent
        exact heard.silent z silent
    · simpa only [setYield_pump, setYield_firesSince, enqueued] using heard.fires
    · intro z pending
      rw [setYield_pump, requests, enqueued]
      by_cases same : z = y
      · subst same
        exact heard.queued z (by rw [new]; rfl)
      · rw [setYield_other _ same] at pending
        exact heard.queued z pending
    · intro busy
      rw [setYield_pump, pc] at busy
      obtain ⟨req, rest, front, taken⟩ := heard.taken busy
      refine ⟨req, rest, by rw [setYield_pump, requests, front], ?_⟩
      intro z mine
      by_cases same : z = y
      · subst same
        have none := taken z mine
        rw [new] at none
        cases none
      · rw [setYield_other _ same]
        exact taken z mine
    · intro z context got
      by_cases same : z = y
      · subst same
        simp at got
      · rw [setYield_other _ same] at got
        exact heard.value z context got

/-- A call gets the value of its promise, or returns it. -/
theorem heard_value {target : Y → E} {s : Yielding E C X Y} (heard : Heard target s) {y : Y}
    {pc : YieldPc X} (called : (s.yields y).called = true) (filled : pc.called = true)
    (got : pc.pending = false)
    (value : ∀ context, pc = .waiting (some context) ∨ pc = .returned context →
      (s.firesSince y).head? = some context) : Heard target (s.setYield y pc) := by
  refine ⟨heard.fired, ?_, ?_, heard.fires, ?_, ?_, ?_⟩
  · intro z event
    have before := heard.connects z event
    by_cases same : z = y
    · subst same
      simpa [filled, called] using before
    · simpa [same] using before
  · intro z silent
    by_cases same : z = y
    · subst same
      simp [filled] at silent
    · rw [setYield_other _ same] at silent
      exact heard.silent z silent
  · intro z pending
    by_cases same : z = y
    · subst same
      simp [got] at pending
    · rw [setYield_other _ same] at pending
      exact heard.queued z pending
  · intro busy
    obtain ⟨req, rest, front, taken⟩ := heard.taken busy
    refine ⟨req, rest, front, ?_⟩
    intro z mine
    by_cases same : z = y
    · subst same
      simp [got]
    · rw [setYield_other _ same]
      exact taken z mine
  · intro z context holds
    by_cases same : z = y
    · subst same
      rw [setYield_self] at holds
      exact value context holds
    · rw [setYield_other _ same] at holds
      exact heard.value z context holds

theorem heard_yieldReturns {target : Y → E} {s : Yielding E C X Y} (heard : Heard target s) {y : Y}
    {context : X} (filled : s.yields y = .waiting (some context)) :
    Heard target (s.setYield y (.returned context)) := by
  apply heard_value heard (by rw [filled]; rfl) rfl rfl
  rintro other (got | got)
  · cases got
  · cases got
    exact heard.value y context (Or.inl filled)

theorem heard_pops {target : Y → E} {s : Yielding E C X Y} (heard : Heard target s)
    (pc : s.pump.pc = .popping) : Heard target { s with pump := { s.pump with
      pc := .test
      requests := s.pump.requests.tail } } := by
  obtain ⟨req, rest, front, taken⟩ := heard.taken (by rw [pc]; rfl)
  have idle : ¬ PumpPc.busy (.test : PumpPc (Callback C Y) X) = true := fun busy => by cases busy
  refine ⟨⟨heard.fired.wired, heard.fired.owed⟩, heard.connects, heard.silent, heard.fires, ?_,
    fun busy => absurd busy idle, heard.value⟩
  intro y pending
  have queued := heard.queued y pending
  cases mine : isSet y req.callback with
  | true =>
    rw [taken y mine] at pending
    cases pending
  | false =>
    rw [front, requestsOf_other mine] at queued
    simpa only [front, List.tail_cons] using queued

theorem heard_setCalls {target : Y → E} {s : Yielding E C X Y} (heard : Heard target s)
    (setCalls : List (Y × Outcome)) : Heard target { s with setCalls := setCalls } :=
  ⟨heard.fired, heard.connects, heard.silent, heard.fires, heard.queued, heard.taken, heard.value⟩

/-- The front request is taken up when its promise, if it is for one, has a
    value. -/
theorem heard_invoked {target : Y → E} {s : Yielding E C X Y} (heard : Heard target s)
    {req : Request (Callback C Y) X} {rest : List (Request (Callback C Y) X)}
    (front : s.pump.requests = req :: rest)
    (filled : ∀ y, isSet y req.callback = true → (s.yields y).pending = false) :
    Heard target { s with pump := { s.pump with
      pc := .calling req
      invoked := s.pump.invoked ++ [req] } } :=
  ⟨⟨heard.fired.wired, heard.fired.owed⟩, heard.connects, heard.silent, heard.fires, heard.queued,
    fun _ => ⟨req, rest, front, filled⟩, heard.value⟩

/-- The first request that is taken up for a call comes from its first fire. -/
theorem heard_front {target : Y → E} {s : Yielding E C X Y} (heard : Heard target s) {y : Y}
    {context : X} {rest : List (Request (Callback C Y) X)}
    (front : s.pump.requests = ⟨.setValue y, context⟩ :: rest)
    (pending : (s.yields y).pending = true) :
    (s.firesSince y).head? = some context := by
  have queued := heard.queued y pending
  rw [← heard.fires y, ← queued, front]
  simp [requestsOf, isSet]

theorem heard_invokes {target : Y → E} {s : Yielding E C X Y} (heard : Heard target s)
    {req : Request (Callback C Y) X} {rest : List (Request (Callback C Y) X)}
    (front : s.pump.requests = req :: rest) : Heard target (called { s with pump := { s.pump with
      pc := .calling req
      invoked := s.pump.invoked ++ [req] } }) := by
  obtain ⟨callback, context⟩ := req
  cases callback with
  | user callback => exact heard_invoked heard front (fun y mine => by cases mine)
  | setValue y =>
    have only : ∀ z, isSet z (.setValue y : Callback C Y) = true → z = y := by
      intro z mine
      simpa [isSet, eq_comm] using mine
    simp only [called, setValue]
    split
    · rename_i at_
      have first := heard_front heard front (by rw [at_]; rfl)
      have valued : Heard target (s.setYield y (.waiting (some context))) := by
        refine heard_value heard (by rw [at_]; rfl) rfl rfl ?_
        rintro other (got | got)
        · cases got
          exact first
        · cases got
      refine heard_setCalls (heard_invoked valued front ?_) _
      intro z mine
      rw [only z mine, setYield_self]
      rfl
    · rename_i at_
      refine heard_setCalls (heard_invoked heard front ?_) _
      intro z mine
      rw [only z mine, at_]
      rfl
    · rename_i no other
      refine heard_setCalls (heard_invoked heard front ?_) _
      intro z mine
      rw [only z mine]
      cases at_ : s.yields y with
      | notCalled =>
        have first := heard_front heard front (by rw [at_]; rfl)
        rw [heard.silent y (by rw [at_]; rfl)] at first
        cases first
      | waiting promise =>
        cases promise with
        | none => exact absurd at_ no
        | some value => rfl
      | returned value => rfl

theorem heard_moved {target : Y → E} {s t : Yielding E C X Y} {a : Action E C X Y}
    (heard : Heard target s) (moved : Moved target s a t) : Heard target t := by
  cases moved with
  | connects stepped => exact heard_connects heard stepped
  | fires stepped => exact heard_fires heard stepped
  | invokes pc front => exact heard_invokes heard front
  | pops pc => exact heard_pops heard pc
  | yieldConnects new stepped => exact heard_yieldConnects heard new stepped
  | yieldReturns filled => exact heard_yieldReturns heard filled
  | enters pc => exact heard_paced heard (fun busy => by cases busy)
  | leaves pc empty => exact heard_paced heard (fun busy => by cases busy)
  | returned pc => exact heard_paced heard (fun _ => by rw [pc]; rfl)
  | threw pc => exact heard_paced heard (fun busy => by cases busy)

theorem heard_reaches {target : Y → E} {guard : Yielding E C X Y → Action E C X Y → Prop}
    {s : Yielding E C X Y} (walk : Reaches (step target) guard begin s) : Heard target s :=
  reaches_invariant (fun _ _ _ heard _ run => heard_moved heard (step_moved run)) walk
    (heard_begin target)

theorem untouched_moved {target : Y → E} {s t : Yielding E C X Y} {a : Action E C X Y}
    (untouched : Untouched s) (user : UserNext s a) (moved : Moved target s a t) :
    Untouched t := by
  cases moved with
  | @invokes req rest pc front =>
    obtain ⟨callback, context⟩ := req
    cases callback with
    | user callback => exact ⟨untouched.setCalls, untouched.pending⟩
    | setValue y => exact absurd rfl (user _ _ y front)
  | @yieldConnects y pump new stepped =>
    refine ⟨untouched.setCalls, ?_⟩
    intro z
    by_cases same : z = y
    · subst same
      rw [setYield_self]
      rfl
    · rw [setYield_other _ same]
      exact untouched.pending z
  | @yieldReturns y context filled =>
    have pending := untouched.pending y
    rw [filled] at pending
    cases pending
  | _ => exact ⟨untouched.setCalls, untouched.pending⟩

/-- The callbacks in the vector of an event, which are never removed. -/
theorem heard_vector {target : Y → E} {s : Yielding E C X Y} (heard : Heard target s)
    (event : E) : (s.pump.events event).cnVector.map (Option.map Connection.callback) =
      (connected event s.pump.calls).map some := by
  obtain ⟨cns, vector, callbacks, _⟩ := heard.fired.wired event
  rw [vector, ← callbacks, List.map_map, List.map_map]
  rfl

theorem clean_untouched {target : Y → E} {s : Yielding E C X Y} (heard : Heard target s)
    (untouched : Untouched s) : Clean s := by
  constructor
  · intro y
    simp [untouched.setCalls]
  · simp [untouched.setCalls]
  · intro y context returned
    exact heard.value y context (Or.inr returned)
  · intro event
    rw [heard_vector heard, List.filter_eq_self.mpr]
    intro callback _
    cases callback with
    | user callback => rfl
    | setValue y =>
      have pending := untouched.pending y
      simp only [Yielding.outlives]
      split
      · rename_i context at_
        rw [at_] at pending
        cases pending
      · rfl

/-- A call of `yield` that has returned leaves its connection behind. -/
theorem returned_unclean {target : Y → E} {s : Yielding E C X Y} (heard : Heard target s) {y : Y}
    {context : X} (returned : s.yields y = .returned context) : ¬ Clean s := by
  intro clean
  have restored := clean.restored (target y)
  rw [heard_vector heard] at restored
  have lengths := congrArg List.length restored
  have connects := heard.connects y (target y)
  rw [returned, if_pos ⟨rfl, rfl⟩] at connects
  have among : Callback.setValue y ∈ connected (target y) s.pump.calls := by
    have member : Callback.setValue y ∈ (connected (target y) s.pump.calls).filter (isSet y) := by
      rw [connects]
      exact List.mem_singleton.mpr rfl
    exact (List.mem_filter.mp member).1
  rw [List.length_map, List.length_map] at lengths
  have shorter : ((connected (target y) s.pump.calls).filter s.outlives).length <
      (connected (target y) s.pump.calls).length :=
    List.length_filter_lt_length_iff_exists.mpr
      ⟨Callback.setValue y, among, by simp [Yielding.outlives, returned]⟩
  omega

/-- In all runs a call of `yield` returns the context of the first fire after
    it connected. In runs in which no callback of a `yield` is called all else
    is clean as well, and after such a callback was called it does not stay
    so. -/
theorem yield_clean_up (target : Y → E) :
    (∀ s : Yielding E C X Y, Reaches (step target) anyAction begin s →
      ∀ y context, s.yields y = .returned context → (s.firesSince y).head? = some context) ∧
    (∀ s : Yielding E C X Y, Reaches (step target) UserNext begin s → Clean s) ∧
    ∀ (s : Yielding E C X Y) a t, Reaches (step target) anyAction begin s → ¬ UserNext s a →
      step target s a = some t → ∃ u, Reaches (step target) anyAction t u ∧ ¬ Clean u := by
  refine ⟨?_, ?_, ?_⟩
  · intro s walk y context returned
    exact (heard_reaches walk).value y context (Or.inr returned)
  · intro s walk
    have untouched := reaches_invariant
      (fun _ _ _ before user run => untouched_moved before user (step_moved run)) walk
      ⟨rfl, fun _ => rfl⟩
    exact clean_untouched (heard_reaches walk) untouched
  · intro s a t walk broken run
    have heard := heard_moved (heard_reaches walk) (step_moved run)
    cases step_moved run with
    | @invokes req rest pc front =>
      simp only [UserNext, not_forall, not_not] at broken
      obtain ⟨_, _, y, front', mine⟩ := broken
      rw [front] at front'
      cases front'
      obtain ⟨callback, context⟩ := req
      cases mine
      let invoked : Yielding E C X Y := { s with pump := { s.pump with
        pc := .calling ⟨.setValue y, context⟩
        invoked := s.pump.invoked ++ [⟨.setValue y, context⟩] } }
      rcases setValue_outcome invoked y context with stored | ⟨set, among, failed⟩
      · have returns : ∀ u : Yielding E C X Y, u.yields y = .waiting (some context) →
            step target u (.yieldReturn y) = some (u.setYield y (.returned context)) := by
          intro u at_
          simp only [step, at_]
        have last := returns _ stored
        exact ⟨_, .single ⟨.yieldReturn y, trivial, last⟩,
          returned_unclean (heard_moved heard (step_moved last)) (setYield_self _ _ _)⟩
      · exact ⟨_, .refl, fun clean => failed (clean.stored set among)⟩
    | leaves pc empty =>
      simp only [UserNext, not_forall, not_not] at broken
      obtain ⟨_, _, y, front, _⟩ := broken
      rw [empty] at front
      cases front
    | _ => exact absurd trivial broken

/-- A call of `yield` waits on one event while another one is fired. -/
theorem yield_clean_up_waiting : ∃ s : Yielding Bool Nat Nat Unit, Clean s ∧
    s.yields () = .waiting none ∧ s.pump.invoked = [⟨.user 3, 1⟩] := by
  have run : ∃ s : Yielding Bool Nat Nat Unit, Reaches (step fun _ => false) UserNext begin s ∧
      s.yields () = .waiting none ∧ s.pump.invoked = [⟨.user 3, 1⟩] := by
    refine ⟨_, .head ⟨.yieldConnect (), trivial, rfl⟩ (.head ⟨.connect true 3, trivial, rfl⟩
      (.head ⟨.fire true 1, trivial, rfl⟩ (.head ⟨.execute, trivial, rfl⟩
      (.single ⟨.test, ?_, rfl⟩)))), rfl, rfl⟩
    intro req rest y front mine
    cases front
    cases mine
  obtain ⟨s, walk, waiting, invoked⟩ := run
  exact ⟨s, (yield_clean_up fun _ => false).2.1 s walk, waiting, invoked⟩

/-- One event, one call of `yield` and two fires; the call returns after the
    first. -/
def firedTwice : List (Action Unit Unit Nat Unit) :=
  [.yieldConnect (), .fire () 1, .execute, .test, .yieldReturn (), .callbackReturn, .pop, .test,
    .fire () 2, .execute, .test]

/-- The callback outlives the call, and `set_value` is applied to a promise
    that is gone. -/
theorem yield_leaves_callback : ∃ s : Yielding Unit Unit Nat Unit,
    Reaches (step fun _ => ()) anyAction begin s ∧
      s.yields () = .returned 1 ∧ ((), Outcome.outOfScope) ∈ s.setCalls ∧
      (s.pump.events ()).cnVector.length = 1 ∧ ¬ Clean s := by
  have run : ∃ s : Yielding Unit Unit Nat Unit,
      runActions (step fun _ => ()) firedTwice begin = some s ∧ s.yields () = .returned 1 ∧
        s.setCalls = [((), .stored), ((), .outOfScope)] ∧
        (s.pump.events ()).cnVector.length = 1 := ⟨_, rfl, rfl, rfl, rfl⟩
  obtain ⟨s, taken, returned, sets, length⟩ := run
  refine ⟨s, runActions_reaches taken, returned, by simp [sets], length, ?_⟩
  intro clean
  have failed := clean.stored ((), .outOfScope) (by simp [sets])
  cases failed

end GameEventYield
