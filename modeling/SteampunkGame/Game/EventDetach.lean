import Mathlib.Data.List.Induction
import SteampunkGame.Game.Event
import SteampunkGame.Lib.Runs

/-!
What `detach` does to the other connections of an event. The vector is only
as it should be while nothing but its last entry was ever detached.
-/
namespace GameEventDetach
open GameEvent Runs
variable {C X : Type}

/-- The connections in the order of their `connect` calls, each with whether
    the last call on it was not a `detach`. -/
def record (cns : List (C × Bool)) : Op C → List (C × Bool)
  | .connect callback => cns ++ [(callback, true)]
  | .detach k => cns.modify k fun cn => (cn.1, false)
  | .attach k => cns.modify k fun cn => (cn.1, true)

def recorded (ops : List (Op C)) : List (C × Bool) := ops.foldl record []

/-- One request for each connection that is attached. -/
def requests (cns : List (C × Bool)) (context : X) : List (Request C X) :=
  (cns.filter fun cn => cn.2).map fun cn => ⟨cn.1, context⟩

/-- Only the connection that was made last is ever detached. -/
def OnlyLast (ops : List (Op C)) : Prop :=
  ∀ before k rest, ops = before ++ .detach k :: rest → (recorded before).length = k + 1

/-- The entries of the vector with nothing missing. -/
def entries (cns : List (C × Bool)) : List (Option (Connection C)) :=
  cns.zipIdx.map fun cn => some ⟨cn.2, cn.1.1⟩

structure Follows (cns : List (C × Bool)) (e : EventBase C) : Prop where
  made : e.made = cns.length
  alive : ∀ i cn, cns[i]? = some cn → e.alive i = cn.2

theorem entries_concat (cns : List (C × Bool)) (cn : C × Bool) :
    entries (cns ++ [cn]) = entries cns ++ [some ⟨cns.length, cn.1⟩] := by
  simp [entries, List.zipIdx_append]

theorem entries_modify (cns : List (C × Bool)) (k : Nat) (flag : Bool) :
    entries (cns.modify k fun cn => (cn.1, flag)) = entries cns := by
  apply List.ext_getElem?
  intro i
  simp only [entries, List.getElem?_map, List.getElem?_zipIdx, List.getElem?_modify]
  cases cns[i]? with
  | none => rfl
  | some cn => by_cases here : k = i <;> simp [here]

theorem entries_id {cns : List (C × Bool)} {entry : Option (Connection C)} {k : Nat}
    (among : entry ∈ entries cns) (points : pointsTo k entry = true) : k < cns.length := by
  simp only [entries, List.mem_map, List.mem_zipIdx_iff_getElem?] at among
  obtain ⟨⟨cn, i⟩, found, rfl⟩ := among
  obtain ⟨inside, _⟩ := List.getElem?_eq_some_iff.mp found
  simp only [pointsTo, decide_eq_true_eq] at points
  omega

theorem entries_points {cns : List (C × Bool)} {k : Nat} (inside : k < cns.length) :
    ∃ entry ∈ entries cns, pointsTo k entry = true := by
  refine ⟨some ⟨k, cns[k].1⟩, ?_, by simp [pointsTo]⟩
  simp only [entries, List.mem_map, List.mem_zipIdx_iff_getElem?]
  exact ⟨(cns[k], k), List.getElem?_eq_getElem inside, rfl⟩

theorem entries_notNull (cns : List (C × Bool)) : none ∉ entries cns := by
  simp [entries]

theorem fireAll_entries {alive : Nat → Bool} {cns : List (C × Bool)} (context : X) (n : Nat)
    (flags : ∀ i cn, cns[i]? = some cn → alive (n + i) = cn.2) :
    fireAll alive context ((cns.zipIdx n).map fun cn => some ⟨cn.2, cn.1.1⟩) =
      .ok (requests cns context) := by
  induction cns generalizing n with
  | nil => rfl
  | cons cn rest ih =>
    have later := ih (n + 1) (fun i next found => by
      rw [Nat.add_assoc, Nat.add_comm 1]
      exact flags (i + 1) next found)
    have first : alive n = cn.2 := flags 0 cn rfl
    simp only [List.zipIdx_cons, List.map_cons, fireAll, later, first, requests, List.filter_cons]
    split <;> rfl

theorem follows_record {cns : List (C × Bool)} {e e' : EventBase C} {op : Op C}
    (follows : Follows cns e) (run : step e op = some e') : Follows (record cns op) e' := by
  obtain ⟨made, alive⟩ := follows
  have flagged : ∀ k flag, ∀ i cn, (cns.modify k fun cn => (cn.1, flag))[i]? = some cn →
      Function.update e.alive k flag i = cn.2 := by
    intro k flag i cn found
    rw [List.getElem?_modify] at found
    cases old : cns[i]? with
    | none => simp [old] at found
    | some cn' =>
      by_cases here : k = i
      · subst here
        simp [old] at found
        simp [← found]
      · simp [old, here] at found
        rw [Function.update_of_ne (Ne.symm here), alive i cn' old, found]
  cases op with
  | connect callback =>
    cases run
    refine ⟨by simp [EventBase.connect, record, made], ?_⟩
    intro i cn found
    simp only [record, List.getElem?_append] at found
    simp only [EventBase.connect, made]
    split at found
    · rw [Function.update_of_ne (by omega), alive i cn found]
    · have last : i = cns.length := by
        obtain ⟨inside, _⟩ := List.getElem?_eq_some_iff.mp found
        simp only [List.length_singleton] at inside
        omega
      simp [last] at found
      simp [last, ← found]
  | detach k =>
    simp only [step] at run
    split at run
    · cases run
      exact ⟨by simp [EventBase.detach, record, made], flagged k false⟩
    · cases run
  | attach k =>
    simp only [step] at run
    split at run
    · cases run
      exact ⟨by simp [EventBase.attach, record, made], flagged k true⟩
    · cases run

/-- What one call may do and keep the vector whole. -/
def Harmless (cns : List (C × Bool)) : Op C → Prop
  | .detach k => cns.length = k + 1
  | _ => True

theorem entries_record {cns : List (C × Bool)} {e e' : EventBase C} {op : Op C}
    (follows : Follows cns e) (whole : e.cnVector = entries cns) (harmless : Harmless cns op)
    (run : step e op = some e') : e'.cnVector = entries (record cns op) := by
  cases op with
  | connect callback =>
    cases run
    simp [EventBase.connect, record, entries_concat, whole, follows.made]
  | detach k =>
    simp only [step] at run
    split at run
    · cases run
      have split := List.eq_nil_or_concat' cns
      rcases split with empty | ⟨front, last, rfl⟩
      · simp [Harmless, empty] at harmless
      · simp only [Harmless, List.length_append, List.length_singleton] at harmless
        rw [record, entries_modify, entries_concat, EventBase.detach, whole, entries_concat,
          rangesRemove_last]
        · intro entry among
          by_contra points
          have early := entries_id among (by simpa using points)
          omega
        · simp only [pointsTo, decide_eq_true_eq]
          omega
    · cases run
  | attach k =>
    simp only [step] at run
    split at run
    · cases run
      rw [record, entries_modify, EventBase.attach, whole]
    · cases run

theorem null_record {cns : List (C × Bool)} {e e' : EventBase C} {op : Op C}
    (follows : Follows cns e) (whole : e.cnVector = entries cns) (harmful : ¬ Harmless cns op)
    (run : step e op = some e') : none ∈ e'.cnVector := by
  cases op with
  | detach k =>
    simp only [step] at run
    split at run
    · rename_i made
      cases run
      rw [follows.made] at made
      rcases List.eq_nil_or_concat' cns with empty | ⟨front, last, rfl⟩
      · simp [empty] at made
      · simp only [Harmless, List.length_append, List.length_singleton] at harmful made
        have other : pointsTo k (some (⟨front.length, last.1⟩ : Connection C)) = false := by
          simp only [pointsTo, decide_eq_false_iff_not]
          omega
        obtain ⟨rest, moved⟩ := rangesRemove_inner
          (entries_points (show k < front.length by omega)) other
        rw [EventBase.detach, whole, entries_concat, moved]
        simp
    · cases run
  | connect callback => exact absurd trivial harmful
  | attach k => exact absurd trivial harmful

theorem null_stays {e e' : EventBase C} {op : Op C} (null : none ∈ e.cnVector)
    (run : step e op = some e') : none ∈ e'.cnVector := by
  cases op with
  | connect callback =>
    cases run
    exact List.mem_append_left _ null
  | detach k =>
    simp only [step] at run
    split at run
    · cases run
      exact rangesRemove_null null
    · cases run
  | attach k =>
    simp only [step] at run
    split at run
    · cases run
      exact null
    · cases run

theorem onlyLast_concat (ops : List (Op C)) (op : Op C) :
    OnlyLast (ops ++ [op]) ↔ OnlyLast ops ∧ Harmless (recorded ops) op := by
  constructor
  · intro only
    refine ⟨?_, ?_⟩
    · intro before k rest split
      exact only before k (rest ++ [op]) (by rw [split]; simp)
    · cases op with
      | detach k => exact only ops k [] rfl
      | connect callback => trivial
      | attach k => trivial
  · rintro ⟨only, harmless⟩ before k rest split
    rcases List.eq_nil_or_concat' rest with rfl | ⟨front, last, rfl⟩
    · obtain ⟨same, eq⟩ := List.append_inj' split rfl
      rw [← same]
      cases eq
      exact harmless
    · have same : ops ++ [op] = (before ++ .detach k :: front) ++ [last] := by
        rw [split]
        simp
      exact only before k front (List.append_inj' same rfl).1

/-- After any calls the vector has all entries in order, or a null entry. -/
theorem calls_follow {ops : List (Op C)} {e : EventBase C}
    (run : runActions step ops .empty = some e) :
    Follows (recorded ops) e ∧
      (OnlyLast ops ∧ e.cnVector = entries (recorded ops) ∨
        ¬ OnlyLast ops ∧ none ∈ e.cnVector) := by
  induction ops using List.reverseRecOn generalizing e with
  | nil =>
    cases run
    refine ⟨⟨rfl, fun i cn found => by simp [recorded] at found⟩, Or.inl ⟨?_, rfl⟩⟩
    intro before k rest split
    simp at split
  | append_singleton ops op ih =>
    rw [runActions_concat, Option.bind_eq_some_iff] at run
    obtain ⟨middle, before, last⟩ := run
    have snoc : recorded (ops ++ [op]) = record (recorded ops) op := by simp [recorded]
    obtain ⟨follows, vector⟩ := ih before
    rw [onlyLast_concat, snoc]
    refine ⟨follows_record follows last, ?_⟩
    rcases vector with ⟨only, whole⟩ | ⟨moved, null⟩
    · by_cases harmless : Harmless (recorded ops) op
      · exact Or.inl ⟨⟨only, harmless⟩, entries_record follows whole harmless last⟩
      · exact Or.inr ⟨fun both => harmless both.2, null_record follows whole harmless last⟩
    · exact Or.inr ⟨fun both => moved both.1, null_stays null last⟩

/-- After any calls of `connect`, `detach` and `attach` the vector has no null
    entry and `fire` makes the requests of the attached connections in order
    exactly if only the connection that was made last was ever detached. -/
theorem detach_others_iff (ops : List (Op C)) (context : X) {e : EventBase C}
    (run : runActions step ops .empty = some e) :
    none ∉ e.cnVector ∧ e.fire context = .ok (requests (recorded ops) context) ↔ OnlyLast ops := by
  obtain ⟨follows, ⟨only, whole⟩ | ⟨moved, null⟩⟩ := calls_follow run
  · have fired := fireAll_entries context 0 (fun i cn found => by
      rw [Nat.zero_add]
      exact follows.alive i cn found)
    rw [EventBase.fire, whole]
    exact ⟨fun _ => only, fun _ => ⟨entries_notNull _, fired⟩⟩
  · exact ⟨fun both => absurd null both.1, fun only => absurd only moved⟩

/-- The connection that was made last goes and comes back. -/
theorem detach_others_last : ∃ e,
    runActions step [.connect 5, .connect 6, .detach 1, .attach 1] .empty = some e ∧
      none ∉ e.cnVector ∧ e.fire () = .ok [⟨5, ()⟩, ⟨6, ()⟩] := by
  obtain ⟨e, run⟩ : ∃ e, runActions step
      [.connect 5, .connect 6, .detach 1, .attach 1] .empty = some e := ⟨_, rfl⟩
  refine ⟨e, run, (detach_others_iff _ () run).mpr ?_⟩
  have none : OnlyLast ([] : List (Op Nat)) := fun before k rest split => by simp at split
  have one := (onlyLast_concat [] (.connect 5)).mpr ⟨none, trivial⟩
  have two := (onlyLast_concat [.connect 5] (.connect 6)).mpr ⟨one, trivial⟩
  have gone := (onlyLast_concat [.connect 5, .connect 6] (.detach 1)).mpr ⟨two, rfl⟩
  exact (onlyLast_concat [.connect 5, .connect 6, .detach 1] (.attach 1)).mpr ⟨gone, trivial⟩

/-- Of two connections the first is detached, and `fire` meets a null pointer. -/
theorem detached_first_faults : ∃ e, runActions step [.connect 5, .connect 6, .detach 0] .empty =
      some e ∧ e.cnVector = [some ⟨1, 6⟩, none] ∧ e.fire () = .error .nullPointer ∧
      ¬ (none ∉ e.cnVector ∧ e.fire () =
        .ok (requests (recorded [.connect 5, .connect 6, .detach 0]) ())) := by
  refine ⟨_, rfl, rfl, rfl, ?_⟩
  rintro ⟨whole, _⟩
  revert whole
  decide

end GameEventDetach
