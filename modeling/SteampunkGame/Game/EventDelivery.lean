import SteampunkGame.Game.EventQueue

/-!
What `game::event<T>` makes of the untyped requests. `fire` puts its argument
into a `std::any`, and the callback that `connect` wraps takes it out again.
For a `T` that is `std::any` itself, which is the default, the first of these
does nothing, while the second still takes out something.
-/
namespace GameEventDelivery
open GameEvent GameEventQueue Runs
variable {E K T : Type} {val : T → Type}

/-- The argument of the class template. -/
inductive Ty (T : Type) where
  | stdAny
  | plain (t : T)
  deriving DecidableEq, Repr

/-- A `std::any`, which is empty or holds a value of some type. -/
inductive Any (val : T → Type) where
  | empty
  | hold (t : T) (v : val t)
  | nest (inner : Any val)

abbrev Value (val : T → Type) : Ty T → Type
  | .stdAny => Any val
  | .plain t => val t

/-- `std::any(context)`, which copies an argument that is one already. -/
def toAny : (type : Ty T) → Value val type → Any val
  | .stdAny, context => context
  | .plain t, context => .hold t context

/-- `std::any_cast<T>`; `none` stands for `std::bad_any_cast`. -/
def anyCast [DecidableEq T] : (type : Ty T) → Any val → Option (Value val type)
  | .stdAny, .nest inner => some inner
  | .plain t, .hold u v => if same : u = t then some (same ▸ v) else none
  | _, _ => none

/-- A callback as it was given to `event_base::connect`, or to the `connect` of
    an `event<T>`, which wraps it. -/
inductive Callback (K T : Type) where
  | base (callback : K)
  | typed (type : Ty T) (callback : K)
  deriving DecidableEq, Repr

abbrev EventRequest (K : Type) (val : T → Type) := Request (Callback K T) (Any val)

theorem nest_ne (inner : Any val) : Any.nest inner ≠ inner := by
  induction inner with
  | empty => simp
  | hold t v => simp
  | nest inner ih => exact fun same => ih (Any.nest.inj same)

variable [DecidableEq E] [DecidableEq T]

/-- A wrapped callback is only reached if its argument can be taken out. -/
def returns (req : EventRequest K val) : Bool :=
  match req.callback with
  | .base _ => true
  | .typed type _ => (anyCast type req.context).isSome

/-- A typed callback gets the value that its event was fired with. -/
def GetsBack (req : EventRequest K val) : Prop :=
  match req.callback with
  | .base _ => True
  | .typed type _ =>
      ∀ v : Value val type, req.context = toAny type v → anyCast type req.context = some v

/-- Each fire has enqueued its requests, each request was invoked once and in
    order or is still to be, and a call of `execute` that is about to return
    has run them all. -/
structure Delivered (s : Pump E (Callback K T) (Any val)) : Prop where
  fires : s.enqueued = owedFrom [] s.calls
  order : s.enqueued = s.invoked ++ s.pending
  done : ∀ t, step returns s .test = some t → t.pc = .idle →
    t.requests = [] ∧ t.invoked = t.enqueued
  back : ∀ req ∈ s.invoked, GetsBack req

/-- No callback throws. -/
def Quiet (_ : Pump E (Callback K T) (Any val)) : Action E (Callback K T) (Any val) → Prop
  | .callbackThrow => False
  | _ => True

/-- A callback that an `event<std::any>` connected. -/
def castsAny (req : EventRequest K val) : Bool :=
  match req.callback with
  | .typed .stdAny _ => true
  | _ => false

/-- The callback that is called next is none of these. -/
def CastOk (s : Pump E (Callback K T) (Any val)) : Action E (Callback K T) (Any val) → Prop
  | .test => s.requests.head?.any castsAny = false
  | _ => True

instance (s : Pump E (Callback K T) (Any val)) (a : Action E (Callback K T) (Any val)) :
    Decidable (Quiet s a ∧ CastOk s a) :=
  match a with
  | .callbackThrow => .isFalse fun both => both.1
  | .test => decidable_of_iff (s.requests.head?.any castsAny = false)
      ⟨fun castOk => ⟨trivial, castOk⟩, fun both => both.2⟩
  | .call _ | .execute | .callbackReturn | .pop => .isTrue ⟨trivial, trivial⟩

theorem anyCast_stdAny (a : Any val) : anyCast .stdAny a ≠ some a := by
  cases a with
  | nest inner => exact fun same => nest_ne inner (Option.some.inj same).symm
  | empty => simp [anyCast]
  | hold t v => simp [anyCast]

theorem anyCast_plain {t : T} (v : val t) : anyCast (.plain t) (toAny (.plain t) v) = some v := by
  simp [anyCast, toAny]

/-- The value comes back for every type but `std::any`. -/
theorem getsBack_iff (req : EventRequest K val) : GetsBack req ↔ castsAny req = false := by
  obtain ⟨callback, context⟩ := req
  unfold GetsBack castsAny
  cases callback with
  | base callback => simp
  | typed type callback =>
    cases type with
    | stdAny =>
      constructor
      · intro back
        exact absurd (back context rfl) (anyCast_stdAny context)
      · intro other
        cases other
    | plain t =>
      constructor
      · simp
      · rintro _ v same
        dsimp only at same ⊢
        rw [same]
        exact @anyCast_plain T val _ t v

theorem delivered_of {s : Pump E (Callback K T) (Any val)} (fired : Fired s) (inOrder : InOrder s)
    (back : ∀ req ∈ s.invoked, GetsBack req) : Delivered s := by
  refine ⟨fired.owed, inOrder.order, ?_, back⟩
  intro t run idle
  cases step_stepped run with
  | leaves pc empty =>
    have all := inOrder.order
    simp only [Pump.pending, pc, empty, List.append_nil] at all
    exact ⟨empty, all.symm⟩
  | invokes pc front => cases idle

/-- Any connects and fires, also from inside callbacks, and any calls of
    `execute`, with no exceptions. As long as no callback that an
    `event<std::any>` connected is called everything is delivered; calling one
    fails to give it the value. -/
theorem event_delivery :
    (∀ s, Reaches (step (@returns K T val _)) (fun s a => Quiet s a ∧ CastOk s a)
        (start (E := E)) s → Delivered s) ∧
    ∀ s a t, Reaches (step (@returns K T val _)) Quiet (start (E := E)) s →
      ¬ CastOk s a → step returns s a = some t → ¬ Delivered t := by
  constructor
  · intro s walk
    have holds := reaches_invariant (I := fun s => Fired s ∧ InOrder s ∧
        ∀ req ∈ s.invoked, GetsBack req) ?_ walk ⟨fired_start, inOrder_start, by simp [start]⟩
    · exact delivered_of holds.1 holds.2.1 holds.2.2
    · rintro s a t ⟨fired, inOrder, back⟩ ⟨quiet, castOk⟩ run
      have stepped := step_stepped run
      refine ⟨fired_step fired stepped, inOrder_step fired inOrder stepped ?_, ?_⟩
      · rintro rfl
        exact quiet
      cases stepped with
      | called called =>
        rw [(callStep_cases fired.wired called).2.2.1]
        exact back
      | invokes pc front =>
        intro req among
        rcases List.mem_append.mp among with early | last
        · exact back req early
        · rw [List.mem_singleton.mp last, getsBack_iff]
          simpa [CastOk, front] using castOk
      | _ => exact back
  · intro s a t _ broken run delivered
    cases step_stepped run with
    | @invokes req rest pc front =>
      apply broken
      simpa [CastOk, front] using (getsBack_iff req).mp (delivered.back req (by simp))
    | leaves pc empty =>
      apply broken
      simp [CastOk, empty]
    | _ => exact broken trivial

def five : Any fun _ : Unit => Nat := .hold () 5
def six : Any fun _ : Unit => Nat := .hold () 6

/-- The callback of a typed event fires the event again. -/
theorem event_delivery_nested : ∃ s : Pump Unit (Callback Nat Unit) (Any fun _ => Nat),
    Delivered s ∧ s.pc = .idle ∧ s.requests = [] ∧
      s.invoked = [⟨.typed (.plain ()) 0, five⟩, ⟨.typed (.plain ()) 0, six⟩] := by
  have run : ∃ s : Pump Unit (Callback Nat Unit) (Any fun _ => Nat),
      runWithin (step returns) (fun s a => Quiet s a ∧ CastOk s a)
        [.call (.connect () (.typed (.plain ()) 0)), .call (.fire () five), .execute, .test,
          .call (.fire () six), .callbackReturn, .pop, .test, .callbackReturn, .pop, .test] start =
        some s ∧ s.pc = .idle ∧ s.requests = [] ∧
      s.invoked = [⟨.typed (.plain ()) 0, five⟩, ⟨.typed (.plain ()) 0, six⟩] :=
    ⟨_, rfl, rfl, rfl, rfl⟩
  obtain ⟨s, taken, idle, empty, invoked⟩ := run
  exact ⟨s, event_delivery.1 s (runWithin_reaches taken), idle, empty, invoked⟩

/-- A callback on an `event<std::any>` that is fired with a number is not
    reached, and one that is fired with a nested value gets the inner one. -/
theorem any_event_loses_value : ∃ s t : Pump Unit (Callback Nat Unit) (Any fun _ => Nat),
    runActions (step returns) [.call (.connect () (.typed .stdAny 0)),
      .call (.fire () (toAny .stdAny five)), .execute, .test] start = some s ∧
    s.pc = .calling ⟨.typed .stdAny 0, five⟩ ∧ anyCast .stdAny five = none ∧ ¬ Delivered s ∧
    runActions (step returns) [.call (.connect () (.typed .stdAny 0)),
      .call (.fire () (toAny .stdAny (.nest five))), .execute, .test, .callbackReturn, .pop,
      .test] start = some t ∧
    t.pc = .idle ∧ anyCast .stdAny (.nest five) = some five ∧ ¬ Delivered t := by
  refine ⟨_, _, rfl, rfl, rfl, ?_, rfl, rfl, rfl, ?_⟩
  · intro delivered
    cases (getsBack_iff _).mp (delivered.back _ (List.mem_singleton.mpr rfl))
  · intro delivered
    cases (getsBack_iff _).mp (delivered.back _ (List.mem_singleton.mpr rfl))

end GameEventDelivery
