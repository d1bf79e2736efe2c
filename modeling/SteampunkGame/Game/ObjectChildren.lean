import SteampunkGame.Lib.IteratorVector

/-!
Children of a `game::object` and the functions that it queues for the write
job. `remove_child` looks the child up when it is called, but the iterator is
used when the queue is drained. Functions of other objects do not touch this
vector and are left out of the queue.
-/
namespace GameObject
open IteratorVector
variable {C : Type}

/-- A queued function with what its closure captured. -/
inductive Write (C : Type) where
  | pushBack (child : C)
  | erase (found : Nat)
  deriving DecidableEq, Repr

structure Object (C : Type) where
  children : Vec C
  queue : List (Write C)

inductive Call (C : Type) where
  | addChild (child : C)
  | removeChild (child : C)
  deriving DecidableEq, Repr

def Object.enqueue (o : Object C) (fn : Write C) : Object C := { o with queue := o.queue ++ [fn] }

def Object.addChild (o : Object C) (child : C) : Object C := o.enqueue (.pushBack child)

/-- `write_job::execute`. There is no result after undefined behaviour. -/
def execute (grow : Nat → Nat) : List (Write C) → Vec C → Option (Vec C)
  | [], children => some children
  | .pushBack child :: rest, children => execute grow rest (children.pushBack grow child)
  | .erase found :: rest, children =>
      match children.erase found with
      | none => none
      | some erased => execute grow rest erased

def adds (calls : List (Call C)) : Nat := calls.countP (· matches .addChild _)
def removes (calls : List (Call C)) : Nat := calls.countP (· matches .removeChild _)

/-- No addition among these calls meets a full vector, when each removal
    before it made room for one child. -/
def Roomy (children : Vec C) (earlier : List (Call C)) : Prop :=
  ∀ before child, before ++ [.addChild child] <+: earlier →
    children.items.length + adds before ≠ children.capacity + removes before

theorem roomy_concat {children : Vec C} {earlier : List (Call C)} {call : Call C} :
    Roomy children (earlier ++ [call]) ↔ Roomy children earlier ∧
      ∀ child, call = .addChild child →
        children.items.length + adds earlier ≠ children.capacity + removes earlier := by
  constructor
  · intro roomy
    constructor
    · intro before child made
      exact roomy before child (made.trans (List.prefix_append _ _))
    · intro child same
      exact roomy earlier child (by simp [same])
  · intro both before child made
    rw [List.prefix_concat_iff] at made
    cases made with
    | inl last =>
      obtain ⟨here, added⟩ := List.append_inj' last rfl
      rw [here]
      exact both.2 child (List.singleton_inj.mp added).symm
    | inr inside => exact both.1 before child inside

variable [DecidableEq C]

def Object.removeChild (o : Object C) (child : C) : Object C :=
  o.enqueue (.erase (o.children.find child))

def Object.call (o : Object C) : Call C → Object C
  | .addChild child => o.addChild child
  | .removeChild child => o.removeChild child

/-- All calls between two runs of the write job, which left the queue empty. -/
def queued (children : Vec C) (calls : List (Call C)) : Object C :=
  calls.foldl Object.call ⟨children.mark, []⟩

/-- One frame: the calls, then the run of the write job. -/
def frame (grow : Nat → Nat) (children : Vec C) (calls : List (Call C)) : Option (Vec C) :=
  execute grow (queued children calls).queue (queued children calls).children

/-- The calls applied at once and in order. -/
def sequential (children : List C) (calls : List (Call C)) : List C :=
  calls.foldl (fun children call =>
    match call with
    | .addChild child => children ++ [child]
    | .removeChild child => children.erase child) children

/-- The function that a call queues while the vector is `children`. -/
def write (children : Vec C) : Call C → Write C
  | .addChild child => .pushBack child
  | .removeChild child => .erase (children.find child)

theorem queued_eq (children : Vec C) (calls : List (Call C)) :
    queued children calls = ⟨children.mark, calls.map (write children)⟩ := by
  have general : ∀ queue, calls.foldl Object.call ⟨children.mark, queue⟩ =
      ⟨children.mark, queue ++ calls.map (write children)⟩ := by
    induction calls with
    | nil => intro queue; rw [List.map_nil, List.append_nil]; rfl
    | cons call rest ih =>
      intro queue
      cases call with
      | addChild child => exact (ih _).trans (by simp [write])
      | removeChild child => exact (ih _).trans (by simp [write, Vec.find])
  exact general []

/-- The iterator that `remove_child` took is valid when it is used. -/
structure StillValid (children : Vec C) (earlier : List (Call C)) (child : C) : Prop where
  present : child ∈ children.items
  behind : ∀ other, .removeChild other ∈ earlier →
    children.items.idxOf child < children.items.idxOf other
  roomy : Roomy children earlier

/-- The vector after the functions of the calls `earlier`, none of which used
    an invalid iterator. -/
structure Kept (children : Vec C) (earlier : List (Call C)) (v : Vec C) : Prop where
  items : v.items = sequential children.items earlier
  keeps : Keeps children.items v
  valid : ∀ p, p < v.intact ↔ p < children.items.length ∧
    (∀ other, .removeChild other ∈ earlier → p < children.items.idxOf other) ∧
    Roomy children earlier
  size : Roomy children earlier → v.capacity = children.capacity ∧
    v.items.length + removes earlier = children.items.length + adds earlier

theorem kept_start (children : Vec C) : Kept children [] children.mark := by
  have roomy : Roomy children [] := by
    intro before child made
    simp at made
  constructor
  · rfl
  · exact keeps_mark children
  · intro p
    simp [roomy]
  · intro _
    exact ⟨rfl, rfl⟩

theorem sequential_concat (children : List C) (earlier : List (Call C)) (call : Call C) :
    sequential children (earlier ++ [call]) =
      match call with
      | .addChild child => sequential children earlier ++ [child]
      | .removeChild child => (sequential children earlier).erase child :=
  List.foldl_concat _ _ _ _

theorem kept_add {children v : Vec C} {earlier : List (Call C)} (kept : Kept children earlier v)
    (grow : Nat → Nat) (child : C) :
    Kept children (earlier ++ [.addChild child]) (v.pushBack grow child) := by
  have removed : ∀ other, Call.removeChild other ∈ earlier ++ [.addChild child] ↔
      .removeChild other ∈ earlier := by simp
  have counts : adds (earlier ++ [.addChild child]) = adds earlier + 1 ∧
      removes (earlier ++ [.addChild child]) = removes earlier := by simp [adds, removes]
  have room : Roomy children (earlier ++ [.addChild child]) ↔
      Roomy children earlier ∧ v.items.length ≠ v.capacity := by
    rw [roomy_concat]
    constructor
    · intro both
      refine ⟨both.1, ?_⟩
      obtain ⟨capacity, size⟩ := kept.size both.1
      have spare := both.2 child rfl
      omega
    · intro both
      refine ⟨both.1, fun _ _ => ?_⟩
      obtain ⟨capacity, size⟩ := kept.size both.1
      have spare := both.2
      omega
  constructor
  · rw [pushBack_items, kept.items, sequential_concat]
  · exact keeps_pushBack kept.keeps grow child
  · intro p
    simp only [removed, room]
    by_cases full : v.items.length = v.capacity
    · rw [pushBack_full full]
      simp [full]
    · rw [(pushBack_spare full child).1, kept.valid]
      simp [full]
  · intro roomy
    obtain ⟨before, spare⟩ := room.mp roomy
    obtain ⟨capacity, size⟩ := kept.size before
    rw [(pushBack_spare spare child).2, pushBack_items, List.length_append, counts.1, counts.2]
    refine ⟨capacity, ?_⟩
    rw [List.length_singleton]
    omega

theorem kept_remove {children v after : Vec C} {earlier : List (Call C)} {child : C}
    (kept : Kept children earlier v) (valid : children.find child < v.intact)
    (run : v.erase (children.find child) = some after) :
    Kept children (earlier ++ [.removeChild child]) after := by
  obtain ⟨w, same, items, capacity, intact⟩ := keeps_erase_first kept.keeps valid
  rw [show children.items.idxOf child = children.find child from rfl, run] at same
  cases same
  have present : child ∈ v.items := by
    have first := keeps_first kept.keeps valid
    have inside := v.bounded
    exact List.idxOf_lt_length_iff.mp (by rw [first]; exact Nat.lt_of_lt_of_le valid inside)
  have some_left := List.length_pos_of_mem present
  have removed : ∀ other, Call.removeChild other ∈ earlier ++ [.removeChild child] ↔
      .removeChild other ∈ earlier ∨ other = child := by simp
  have counts : adds (earlier ++ [.removeChild child]) = adds earlier ∧
      removes (earlier ++ [.removeChild child]) = removes earlier + 1 := by simp [adds, removes]
  have room : Roomy children (earlier ++ [.removeChild child]) ↔ Roomy children earlier := by
    simp [roomy_concat]
  have now := (kept.valid (children.find child)).mp valid
  constructor
  · rw [items, kept.items, sequential_concat]
  · exact keeps_erase kept.keeps run
  · intro p
    simp only [removed, room]
    rw [intact]
    constructor
    · intro below
      refine ⟨Nat.lt_trans below now.1, ?_, now.2.2⟩
      intro other which
      cases which with
      | inl earlier => exact Nat.lt_trans below (now.2.1 other earlier)
      | inr this => rw [this]; exact below
    · intro all
      exact all.2.1 child (Or.inr rfl)
  · intro roomy
    obtain ⟨whole, size⟩ := kept.size (room.mp roomy)
    rw [capacity, items, List.length_erase_of_mem present, counts.1, counts.2]
    exact ⟨whole, by omega⟩

theorem stillValid_iff {children v : Vec C} {earlier : List (Call C)} {child : C}
    (kept : Kept children earlier v) :
    StillValid children earlier child ↔ children.find child < v.intact := by
  rw [kept.valid]
  constructor
  · intro still
    exact ⟨List.idxOf_lt_length_iff.mpr still.present, still.behind, still.roomy⟩
  · intro now
    exact ⟨List.idxOf_lt_length_iff.mp now.1, now.2.1, now.2.2⟩

/-- From a kept state on, the remaining functions do what the remaining calls
    ask for exactly if every removal among them still has a valid iterator. -/
theorem execute_kept {children v : Vec C} {earlier : List (Call C)} (grow : Nat → Nat)
    (later : List (Call C)) (kept : Kept children earlier v) :
    (∃ after, execute grow (later.map (write children)) v = some after ∧
      after.items = sequential children.items (earlier ++ later)) ↔
    ∀ between child, between ++ [.removeChild child] <+: later →
      StillValid children (earlier ++ between) child := by
  induction later generalizing earlier v with
  | nil =>
    rw [List.append_nil]
    constructor
    · intro _ between child made
      simp at made
    · intro _
      exact ⟨v, rfl, kept.items⟩
  | cons call rest ih =>
    have shift : earlier ++ call :: rest = earlier ++ [call] ++ rest := by simp
    have tail : ∀ {P : List (Call C) → C → Prop},
        (∀ between child, between ++ [.removeChild child] <+: call :: rest →
          P (earlier ++ between) child) ↔
        (∀ child, call = .removeChild child → P earlier child) ∧
          ∀ between child, between ++ [.removeChild child] <+: rest →
            P (earlier ++ [call] ++ between) child := by
      intro P
      constructor
      · intro all
        constructor
        · intro child same
          have now := all [] child (by rw [same]; exact List.prefix_append [_] rest)
          rwa [List.append_nil] at now
        · intro between child made
          have now := all (call :: between) child (List.cons_prefix_cons.mpr ⟨rfl, made⟩)
          rwa [List.append_assoc]
      · intro both between child made
        cases between with
        | nil =>
          have same := (List.cons_prefix_cons.mp made).1
          rw [List.append_nil]
          exact both.1 child same.symm
        | cons first more =>
          obtain ⟨same, inside⟩ := List.cons_prefix_cons.mp made
          have now := both.2 more child inside
          rw [same]
          rwa [List.append_assoc] at now
    rw [tail, shift]
    cases call with
    | addChild child =>
      have next := ih (kept_add kept grow child)
      simp only [List.map_cons, write, execute, next]
      simp
    | removeChild child =>
      simp only [List.map_cons, write, execute]
      by_cases valid : children.find child < v.intact
      · obtain ⟨after, run, _⟩ := erase_valid valid
        have next := ih (kept_remove kept valid run)
        have still := (stillValid_iff kept).mpr valid
        simp only [run, next, Call.removeChild.injEq, forall_eq']
        simp [still]
      · have invalid : ¬ StillValid children earlier child := by
          rw [stillValid_iff kept]
          exact valid
        rw [erase_invalid (Nat.not_lt.mp valid)]
        constructor
        · intro ran
          obtain ⟨after, run, _⟩ := ran
          cases run
        · intro both
          exact absurd (both.1 child rfl) invalid

/-- The deferred calls have the effect of the same calls made at once, and
    no function uses an invalid iterator, if and only if each removed child
    was there when the frame began, stands in front of all children removed
    before it, and no earlier addition met a full vector. -/
theorem deferred_sequential_iff (grow : Nat → Nat) (children : Vec C) (calls : List (Call C)) :
    (∃ after, frame grow children calls = some after ∧
      after.items = sequential children.items calls) ↔
    ∀ earlier child, earlier ++ [.removeChild child] <+: calls →
      StillValid children earlier child := by
  rw [frame, queued_eq]
  exact execute_kept grow calls (kept_start children)

/-- Two children removed in their order: the first removal invalidates the
    iterator to the second. -/
theorem second_removal_undefined :
    ¬ ∃ after, frame (· * 2) ⟨[0, 1], 2, 2, by decide, by decide⟩
        [.removeChild 0, .removeChild 1] = some after ∧
      after.items = sequential [0, 1] [.removeChild 0, .removeChild 1] := by
  intro deferred
  obtain ⟨after, run, _⟩ := deferred
  have undefined : frame (· * 2) ⟨[0, 1], 2, 2, by decide, by decide⟩
      [.removeChild 0, .removeChild 1] = none := by decide
  rw [undefined] at run
  cases run

end GameObject
