import Mathlib.Data.List.Nodup
import Mathlib.Logic.Function.Basic

/-!
`game::event_base` and `game::connection_base`. A connection is known by its
number in the order of the `connect` calls of its event, and its callback
never changes; the vector holds shared pointers, of which a moved-from one is
null.
-/
namespace GameEvent
variable {C X : Type}

structure Connection (C : Type) where
  id : Nat
  callback : C
  deriving DecidableEq, Repr

/-- `event_invocation_request`. -/
structure Request (C X : Type) where
  callback : C
  context : X
  deriving DecidableEq, Repr

structure EventBase (C : Type) where
  cnVector : List (Option (Connection C))
  alive : Nat → Bool
  made : Nat

inductive Fault where
  | nullPointer
  deriving DecidableEq, Repr

def EventBase.empty : EventBase C := ⟨[], fun _ => false, 0⟩

def EventBase.connect (e : EventBase C) (callback : C) : EventBase C where
  cnVector := e.cnVector ++ [some ⟨e.made, callback⟩]
  alive := Function.update e.alive e.made true
  made := e.made + 1

/-- The pointer is to the connection `k`. -/
def pointsTo (k : Nat) : Option (Connection C) → Bool
  | some cn => cn.id = k
  | none => false

/-- `std::ranges::remove` without an `erase`: the kept entries move forward, and
    what stands behind them was moved from, unless it is the value itself. -/
def rangesRemove (k : Nat) (v : List (Option (Connection C))) : List (Option (Connection C)) :=
  let kept := v.filter fun entry => !pointsTo k entry
  kept ++ (v.drop kept.length).map fun entry => if pointsTo k entry then entry else none

def EventBase.detach (e : EventBase C) (k : Nat) : EventBase C :=
  { e with alive := Function.update e.alive k false, cnVector := rangesRemove k e.cnVector }

def EventBase.attach (e : EventBase C) (k : Nat) : EventBase C :=
  { e with alive := Function.update e.alive k true }

/-- The loop of `fire`, with the requests that it enqueues. -/
def fireAll (alive : Nat → Bool) (context : X) :
    List (Option (Connection C)) → Except Fault (List (Request C X))
  | [] => .ok []
  | none :: _ => .error .nullPointer
  | some cn :: rest =>
      match fireAll alive context rest with
      | .ok requests =>
          .ok (if alive cn.id then ⟨cn.callback, context⟩ :: requests else requests)
      | .error fault => .error fault

def EventBase.fire (e : EventBase C) (context : X) : Except Fault (List (Request C X)) :=
  fireAll e.alive context e.cnVector

/-- The loop of `disconnect_all` reads the vector that its calls of `detach`
    rearrange. `detached` records these calls. -/
def disconnectFrom : Nat → Nat → EventBase C → List Nat → Except Fault (EventBase C × List Nat)
  | 0, _, e, detached => .ok (e, detached)
  | n + 1, i, e, detached =>
      match e.cnVector[i]? with
      | some (some cn) => disconnectFrom n (i + 1) (e.detach cn.id) (detached ++ [cn.id])
      | _ => .error .nullPointer

def EventBase.disconnectAll (e : EventBase C) : Except Fault (EventBase C × List Nat) :=
  match disconnectFrom e.cnVector.length 0 e [] with
  | .ok (e, detached) => .ok ({ e with cnVector := [] }, detached)
  | .error fault => .error fault

inductive Op (C : Type) where
  | connect (callback : C)
  | detach (k : Nat)
  | attach (k : Nat)
  deriving DecidableEq, Repr

/-- Calls on an event and on the connections that were made with it. -/
def step (e : EventBase C) : Op C → Option (EventBase C)
  | .connect callback => some (e.connect callback)
  | .detach k => if k < e.made then some (e.detach k) else none
  | .attach k => if k < e.made then some (e.attach k) else none

/-- A vector without null entries and dead connections fires all of them. -/
theorem fireAll_alive {alive : Nat → Bool} {cns : List (Connection C)}
    (living : ∀ cn ∈ cns, alive cn.id = true) (context : X) :
    fireAll alive context (cns.map some) = .ok (cns.map fun cn => ⟨cn.callback, context⟩) := by
  induction cns with
  | nil => rfl
  | cons cn rest ih =>
    simp only [List.mem_cons, forall_eq_or_imp] at living
    simp [fireAll, ih living.2, living.1]

theorem rangesRemove_length (k : Nat) (v : List (Option (Connection C))) :
    (rangesRemove k v).length = v.length := by
  have shorter := List.length_filter_le (fun entry => !pointsTo k entry) v
  simp only [rangesRemove, List.length_append, List.length_map, List.length_drop]
  omega

/-- Nothing moves if the connection is not in the vector, or is its last entry. -/
theorem rangesRemove_absent {k : Nat} {v : List (Option (Connection C))}
    (absent : ∀ entry ∈ v, pointsTo k entry = false) : rangesRemove k v = v := by
  have kept : v.filter (fun entry => !pointsTo k entry) = v := by
    rw [List.filter_eq_self]
    intro entry among
    rw [absent entry among]
    rfl
  simp [rangesRemove, kept]

theorem rangesRemove_last {k : Nat} {v : List (Option (Connection C))}
    {last : Option (Connection C)} (absent : ∀ entry ∈ v, pointsTo k entry = false)
    (here : pointsTo k last = true) : rangesRemove k (v ++ [last]) = v ++ [last] := by
  have kept : (v ++ [last]).filter (fun entry => !pointsTo k entry) = v := by
    rw [List.filter_append, List.filter_eq_self.mpr]
    · simp [here]
    · intro entry among
      rw [absent entry among]
      rfl
  simp [rangesRemove, kept, here]

/-- A null entry stays, and one that is last stays last. -/
theorem rangesRemove_null {k : Nat} {v : List (Option (Connection C))} (null : none ∈ v) :
    none ∈ rangesRemove k v := by
  rw [rangesRemove, List.mem_append]
  exact Or.inl (List.mem_filter.mpr ⟨null, rfl⟩)

/-- Behind the entry that is removed the last one is moved forward. -/
theorem rangesRemove_inner {k : Nat} {v : List (Option (Connection C))}
    {last : Option (Connection C)} (inside : ∃ entry ∈ v, pointsTo k entry = true)
    (other : pointsTo k last = false) :
    ∃ front, rangesRemove k (v ++ [last]) = front ++ [none] := by
  have shorter : (v.filter fun entry => !pointsTo k entry).length < v.length := by
    apply List.length_filter_lt_length_iff_exists.mpr
    obtain ⟨entry, among, points⟩ := inside
    exact ⟨entry, among, by simp [points]⟩
  have kept : (v ++ [last]).filter (fun entry => !pointsTo k entry) =
      v.filter (fun entry => !pointsTo k entry) ++ [last] := by
    simp [List.filter_append, other]
  simp only [rangesRemove, kept]
  rw [List.drop_append_of_le_length
      (by simp only [List.length_append, List.length_singleton]; omega),
    List.map_append, List.map_singleton, other, ← List.append_assoc]
  exact ⟨_, rfl⟩

theorem rangesRemove_nullLast (k : Nat) (v : List (Option (Connection C))) :
    ∃ front, rangesRemove k (v ++ [none]) = front ++ [none] := by
  by_cases inside : ∃ entry ∈ v, pointsTo k entry = true
  · exact rangesRemove_inner inside rfl
  · refine ⟨v, rangesRemove_absent ?_⟩
    intro entry among
    rcases List.mem_append.mp among with early | null
    · by_contra points
      exact inside ⟨entry, early, by simpa using points⟩
    · rw [List.mem_singleton.mp null]
      rfl

end GameEvent
