import Mathlib.Data.List.Induction
import Mathlib.Data.List.Nodup
import SteampunkGame.Game.Event
import SteampunkGame.Lib.Runs

/-!
`disconnect_all` walks over the vector that its own calls of `detach`
rearrange. With a second entry the first `detach` leaves a null pointer at the
end, and the walk comes to it.
-/
namespace GameDisconnectAll
open GameEvent Runs
variable {C : Type}

inductive Call (C : Type) where
  | op (op : Op C)
  | disconnectAll
  deriving DecidableEq, Repr

def callStep (e : EventBase C) : Call C → Option (EventBase C)
  | .op op => step e op
  | .disconnectAll =>
      match e.disconnectAll with
      | .ok (e, _) => some e
      | .error _ => none

/-- Every connection is detached once and dead, and the vector is empty. -/
def DisconnectsAll (e : EventBase C) : Prop :=
  ∃ e' detached, e.disconnectAll = .ok (e', detached) ∧
    (detached.map some).Perm (e.cnVector.map fun entry => entry.map Connection.id) ∧
    (∀ cn, some cn ∈ e.cnVector → e'.alive cn.id = false) ∧ e'.cnVector = [] ∧
    ∀ (X : Type) (context : X), e'.fire context = .ok []

/-- The connections in the vector. -/
def ids (v : List (Option (Connection C))) : List Nat :=
  v.filterMap fun entry => entry.map Connection.id

/-- No connection stands in the vector twice, and a null entry is not alone. -/
structure Sound (e : EventBase C) : Prop where
  distinct : (ids e.cnVector).Nodup
  made : ∀ k ∈ ids e.cnVector, k < e.made
  null : none ∈ e.cnVector → 1 < e.cnVector.length

theorem mem_ids {k : Nat} {v : List (Option (Connection C))} :
    k ∈ ids v ↔ ∃ entry ∈ v, pointsTo k entry = true := by
  simp only [ids, List.mem_filterMap, Option.map_eq_some_iff]
  constructor
  · rintro ⟨entry, among, cn, rfl, rfl⟩
    exact ⟨some cn, among, by simp [pointsTo]⟩
  · rintro ⟨entry, among, points⟩
    cases entry with
    | none => cases points
    | some cn => exact ⟨some cn, among, cn, rfl, by simpa [pointsTo] using points⟩

theorem ids_sublist {v w : List (Option (Connection C))} (sub : v.Sublist w) :
    (ids v).Sublist (ids w) := sub.filterMap _

/-- The kept connections, and behind them only the one that was removed. -/
theorem ids_remove (k : Nat) (v : List (Option (Connection C))) :
    ∃ behind : List (Option (Connection C)), behind.Sublist v ∧
      (∀ entry ∈ behind, pointsTo k entry = true) ∧
      ids (rangesRemove k v) = ids (v.filter fun entry => !pointsTo k entry) ++ ids behind := by
  have erased : ∀ w : List (Option (Connection C)),
      ids (w.map fun entry => if pointsTo k entry then entry else none) =
        ids (w.filter (pointsTo k)) := by
    intro w
    induction w with
    | nil => rfl
    | cons entry rest ih =>
      simp only [ids] at ih ⊢
      by_cases points : pointsTo k entry = true <;> simp [points, List.filterMap_cons, ih]
  refine ⟨(v.drop (v.filter fun entry => !pointsTo k entry).length).filter (pointsTo k),
    List.filter_sublist.trans (List.drop_sublist _ _), ?_, ?_⟩
  · intro entry among
    exact (List.mem_filter.mp among).2
  · rw [← erased]
    simp only [rangesRemove, ids, List.filterMap_append]

theorem sound_remove {v : List (Option (Connection C))} (distinct : (ids v).Nodup) (k : Nat) :
    (ids (rangesRemove k v)).Nodup ∧ ∀ j ∈ ids (rangesRemove k v), j ∈ ids v := by
  obtain ⟨behind, sub, only, shape⟩ := ids_remove k v
  rw [shape]
  constructor
  · refine List.nodup_append.mpr ⟨(ids_sublist List.filter_sublist).nodup distinct,
      (ids_sublist sub).nodup distinct, ?_⟩
    rintro a kept b last rfl
    obtain ⟨entry, among, here⟩ := mem_ids.mp kept
    obtain ⟨other, later, there⟩ := mem_ids.mp last
    have removed := only other later
    have keeps := (List.mem_filter.mp among).2
    cases entry with
    | none => cases here
    | some cn =>
      cases other with
      | none => cases there
      | some cn' =>
        simp only [pointsTo, decide_eq_true_eq] at here there removed keeps
        simp only [Bool.not_eq_true', decide_eq_false_iff_not] at keeps
        omega
  · intro j among
    rcases List.mem_append.mp among with kept | last
    · exact (ids_sublist List.filter_sublist).mem kept
    · exact (ids_sublist sub).mem last

theorem remove_null {v : List (Option (Connection C))} {k : Nat}
    (found : none ∈ rangesRemove k v) : none ∈ v ∨ 1 < v.length := by
  rcases v with _ | ⟨entry, _ | ⟨next, rest⟩⟩
  · simp [rangesRemove] at found
  · left
    by_cases points : pointsTo k entry = true <;> simpa [rangesRemove, points] using found
  · right
    simp

theorem sound_empty : Sound (.empty : EventBase C) := by
  constructor <;> simp [EventBase.empty, ids]

theorem sound_detach {e : EventBase C} (sound : Sound e) (k : Nat) : Sound (e.detach k) := by
  obtain ⟨distinct, made, null⟩ := sound
  obtain ⟨still, fewer⟩ := sound_remove distinct k
  refine ⟨still, fun j among => made j (fewer j among), ?_⟩
  intro found
  simp only [EventBase.detach, rangesRemove_length] at found ⊢
  rcases remove_null found with before | long
  · exact null before
  · exact long

theorem sound_connect {e : EventBase C} (sound : Sound e) (callback : C) :
    Sound (e.connect callback) := by
  obtain ⟨distinct, made, null⟩ := sound
  have snoc : ids (e.connect callback).cnVector = ids e.cnVector ++ [e.made] := by
    simp [EventBase.connect, ids]
  constructor
  · rw [snoc, List.nodup_append]
    refine ⟨distinct, List.nodup_singleton _, ?_⟩
    rintro a early b last rfl
    have less := made a early
    rw [List.mem_singleton] at last
    omega
  · intro k among
    rw [snoc, List.mem_append, List.mem_singleton] at among
    simp only [EventBase.connect]
    rcases among with early | last
    · have less := made k early
      omega
    · omega
  · intro found
    simp only [EventBase.connect, List.mem_append, List.mem_singleton, List.length_append,
      List.length_singleton] at found ⊢
    rcases found with before | last
    · have long := null before
      omega
    · cases last

theorem sound_callStep {e e' : EventBase C} {call : Call C} (sound : Sound e)
    (run : callStep e call = some e') : Sound e' := by
  cases call with
  | op op =>
    cases op with
    | connect callback =>
      cases run
      exact sound_connect sound callback
    | detach k =>
      simp only [callStep, step] at run
      split at run
      · cases run
        exact sound_detach sound k
      · cases run
    | attach k =>
      simp only [callStep, step] at run
      split at run
      · cases run
        exact ⟨sound.distinct, sound.made, sound.null⟩
      · cases run
  | disconnectAll =>
    simp only [callStep, EventBase.disconnectAll] at run
    split at run
    · rename_i loop
      split at loop
      · cases loop
        cases run
        constructor <;> simp [ids]
      · cases loop
    · cases run

/-- A null entry at the end stays there until the walk comes to it. -/
theorem disconnectFrom_null {n i : Nat} {e : EventBase C} {front : List (Option (Connection C))}
    (null : e.cnVector = front ++ [none]) (left : i + n = front.length + 1) (some_left : 0 < n)
    (detached : List Nat) : disconnectFrom n i e detached = .error .nullPointer := by
  induction n generalizing i e front detached with
  | zero => omega
  | succ n ih =>
    simp only [disconnectFrom]
    split
    · rename_i cn found
      obtain ⟨rest, moved⟩ := rangesRemove_nullLast cn.id front
      have same := congrArg List.length moved
      simp only [rangesRemove_length, List.length_append, List.length_singleton] at same
      have more : 0 < n := by
        rw [null, List.getElem?_append] at found
        split at found
        · omega
        · have last : i - front.length = 0 := by omega
          rw [last] at found
          cases found
      exact ih (by rw [EventBase.detach, null, moved]) (by omega) more _
    · rfl

theorem disconnectAll_null {e : EventBase C} (sound : Sound e) (long : 1 < e.cnVector.length) :
    e.disconnectAll = .error .nullPointer := by
  have fails : disconnectFrom e.cnVector.length 0 e [] = .error .nullPointer := by
    rcases List.eq_nil_or_concat' e.cnVector with empty | ⟨front, last, split⟩
    · rw [empty] at long
      cases long
    rcases front with _ | ⟨first, rest⟩
    · rw [split] at long
      simp at long
    have size : e.cnVector.length = rest.length + 1 + 1 := by simp [split]
    rw [size, disconnectFrom]
    split
    · rename_i cn found
      rw [split] at found
      cases found
      -- the last entry is another connection, so it moves and leaves a null
      have other : pointsTo cn.id last = false := by
        by_contra points
        have distinct := sound.distinct
        rw [split, ids, List.cons_append, List.filterMap_cons] at distinct
        simp only [Option.map_some, List.nodup_cons] at distinct
        exact distinct.1 (mem_ids.mpr ⟨last, by simp, by simpa using points⟩)
      obtain ⟨moved, shape⟩ := rangesRemove_inner (v := some cn :: rest)
        ⟨some cn, List.mem_cons_self, by simp [pointsTo]⟩ other
      have same := congrArg List.length shape
      simp only [rangesRemove_length, List.length_append, List.length_cons] at same
      exact disconnectFrom_null (by rw [EventBase.detach, split, shape]) (by omega) (by omega) _
    · rfl
  rw [EventBase.disconnectAll, fails]

theorem disconnectAll_short {e : EventBase C} (sound : Sound e) (short : e.cnVector.length ≤ 1) :
    DisconnectsAll e := by
  rcases vector : e.cnVector with _ | ⟨entry, _ | ⟨next, rest⟩⟩
  · refine ⟨{ e with cnVector := [] }, [], ?_, ?_, ?_, rfl, fun X context => rfl⟩
    · simp [EventBase.disconnectAll, vector, disconnectFrom]
    · simp [vector]
    · simp [vector]
  · cases entry with
    | none =>
      have long := sound.null (by simp [vector])
      omega
    | some cn =>
      refine ⟨{ e.detach cn.id with cnVector := [] }, [cn.id], ?_, ?_, ?_, rfl,
        fun X context => rfl⟩
      · simp [EventBase.disconnectAll, vector, disconnectFrom]
      · simp [vector]
      · intro other among
        rw [vector, List.mem_singleton, Option.some.injEq] at among
        simp [EventBase.detach, among]
  · simp [vector] at short

/-- Whatever was called on the event and its connections before,
    `disconnect_all` does what it says for at most one connection. -/
theorem disconnect_all_iff {e : EventBase C} (walk : Reaches callStep anyAction .empty e) :
    DisconnectsAll e ↔ e.cnVector.length ≤ 1 := by
  have sound := reaches_invariant (fun _ _ _ before _ run => sound_callStep before run) walk
    sound_empty
  constructor
  · rintro ⟨e', detached, run, _⟩
    by_contra long
    rw [disconnectAll_null sound (by omega)] at run
    cases run
  · exact disconnectAll_short sound

theorem disconnect_all_one : DisconnectsAll (.connect .empty 7) :=
  (disconnect_all_iff (.single ⟨.op (.connect 7), trivial, rfl⟩)).mpr (by decide)

/-- Two connections: the second one is never detached, and the walk ends at a
    null pointer. -/
theorem disconnect_all_two_faults :
    runActions callStep [.op (.connect 7), .op (.connect 8)] .empty =
      some (.connect (.connect .empty 7) 8) ∧
    (EventBase.connect (.connect .empty 7) 8).disconnectAll = .error .nullPointer ∧
    ¬ DisconnectsAll (.connect (.connect .empty 7) 8) := by
  have fault : (EventBase.connect (.connect .empty 7) 8).disconnectAll = .error .nullPointer := rfl
  refine ⟨rfl, fault, ?_⟩
  rintro ⟨e', detached, run, _⟩
  rw [fault] at run
  cases run

end GameDisconnectAll
