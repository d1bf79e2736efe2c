import Mathlib.Data.Finset.Max
import Mathlib.Data.Finset.Sort
import Mathlib.Data.Fintype.Card

/-!
A bit vector as the set of its one bits, and resources that are held in parts:
each holder has a set, no two of them meet, and together they are all there is.
-/
namespace BitMask

section Bits
variable {w : Nat}

def bits (x : BitVec w) : Finset (Fin w) := Finset.univ.filter fun i => x.getLsbD i = true

@[simp] theorem mem_bits {x : BitVec w} {i : Fin w} : i ∈ bits x ↔ x.getLsbD i = true := by
  simp [bits]

theorem bits_andNot (x y : BitVec w) : bits (x &&& ~~~y) = bits x \ bits y := by
  ext i
  simp

theorem bits_zero : bits (0 : BitVec w) = ∅ := by
  ext i
  simp

theorem bits_eq_empty {x : BitVec w} : bits x = ∅ ↔ x = 0 := by
  constructor
  · intro none
    apply BitVec.eq_of_getLsbD_eq
    intro i inside
    have absent : (⟨i, inside⟩ : Fin w) ∉ bits x := by simp [none]
    simpa using absent
  · rintro rfl
    exact bits_zero

theorem card_bits_le (x : BitVec w) : (bits x).card ≤ w := by
  have most := Finset.card_le_univ (bits x)
  rwa [Fintype.card_fin] at most

theorem bits_injective {x y : BitVec w} (same : bits x = bits y) : x = y := by
  apply BitVec.eq_of_getLsbD_eq
  intro i inside
  have both : (⟨i, inside⟩ : Fin w) ∈ bits x ↔ (⟨i, inside⟩ : Fin w) ∈ bits y := by rw [same]
  rw [mem_bits, mem_bits] at both
  exact Bool.eq_iff_iff.mpr both

theorem bits_twoPow (i : Fin w) : bits (BitVec.twoPow w i) = {i} := by
  ext j
  simp [Fin.ext_iff, eq_comm]

def Lowest (x : BitVec w) (i : Fin w) : Prop := i ∈ bits x ∧ ∀ j ∈ bits x, i ≤ j

theorem exists_lowest {x : BitVec w} (some : x ≠ 0) : ∃ i, Lowest x i := by
  have inhabited : (bits x).Nonempty := by
    rw [Finset.nonempty_iff_ne_empty]
    exact fun none => some (bits_eq_empty.mp none)
  exact ⟨(bits x).min' inhabited, (bits x).min'_mem inhabited, (bits x).min'_le⟩

theorem lowest_not_zero {x : BitVec w} {i : Fin w} (low : Lowest x i) : x ≠ 0 := by
  rintro rfl
  have among := low.1
  rw [bits_zero] at among
  exact absurd among (Finset.notMem_empty i)

/-- The two operands of the bit trick need not be one value. Of the first one
    stays what is the lowest one bit of the second, or a higher zero bit. -/
theorem mem_andNotPred {x : BitVec w} {i : Fin w} (low : Lowest x i) (y : BitVec w) (j : Fin w) :
    j ∈ bits (y &&& ~~~(x - 1)) ↔ j ∈ bits y ∧ (j = i ∨ i < j ∧ j ∉ bits x) := by
  have flipped : ~~~(x - 1#w) = -x := by
    rw [BitVec.not_sub_one_eq_not_add_one, BitVec.neg_eq_not_add]
  have carried : (∃ k, k < j.val ∧ x.getLsbD k = true) ↔ i < j := by
    constructor
    · rintro ⟨k, earlier, one⟩
      have least := low.2 ⟨k, Nat.lt_trans earlier j.isLt⟩ (mem_bits.mpr one)
      exact lt_of_le_of_lt least earlier
    · exact fun behind => ⟨i, behind, mem_bits.mp low.1⟩
  rw [show (1 : BitVec w) = 1#w from rfl, flipped]
  simp only [mem_bits, BitVec.getLsbD_and, BitVec.getLsbD_neg, Bool.and_eq_true, j.isLt,
    decide_true, Bool.true_and, carried]
  refine and_congr_right fun _ => ?_
  rcases lt_trichotomy j i with before | same | behind
  · have zero : x.getLsbD j = false := by
      rw [Bool.eq_false_iff]
      exact fun one => absurd before (not_lt.mpr (low.2 j (mem_bits.mpr one)))
    rw [zero]
    simp [before.ne, not_lt_of_gt before]
  · subst same
    rw [mem_bits.mp low.1]
    simp
  · simp [behind, behind.ne']

/-- With one value for both it is the lowest one bit. -/
theorem bits_lowest {x : BitVec w} {i : Fin w} (low : Lowest x i) :
    bits (x &&& ~~~(x - 1)) = {i} := by
  ext j
  rw [mem_andNotPred low, Finset.mem_singleton]
  constructor
  · rintro ⟨one, same | ⟨_, zero⟩⟩
    · exact same
    · exact absurd one zero
  · rintro rfl
    exact ⟨low.1, Or.inl rfl⟩

/-- Its one bits in increasing order. -/
def ones (x : BitVec w) : List (Fin w) := (bits x).sort

theorem ones_lowest {x : BitVec w} {i : Fin w} (low : Lowest x i) {y : BitVec w}
    (rest : bits y = bits x \ {i}) : ones x = i :: ones y := by
  have split : bits x = insert i (bits y) := by
    rw [rest, Finset.insert_sdiff_self_of_mem low.1]
  unfold ones
  rw [split]
  apply Finset.sort_insert
  · intro j later
    rw [rest, Finset.mem_sdiff] at later
    exact low.2 j later.1
  · rw [rest]
    simp

end Bits

section Upper
variable {κ : Type*} [LinearOrder κ]

/-- With every member all larger elements of the whole belong to the part. -/
structure UpperPart (all part : Finset κ) : Prop where
  inside : part ⊆ all
  upward : ∀ c ∈ part, ∀ b ∈ all, c < b → b ∈ part

theorem upperPart_self (all : Finset κ) : UpperPart all all :=
  ⟨fun _ => id, fun _ _ _ among _ => among⟩

/-- Taking the least member, or nothing. -/
theorem upperPart_take [DecidableEq κ] {all part taken : Finset κ} (upper : UpperPart all part)
    (least : ∀ b ∈ taken, ∀ c ∈ part, b ≤ c) : UpperPart all (part \ taken) := by
  refine ⟨Finset.sdiff_subset.trans upper.inside, ?_⟩
  intro c member b among later
  rw [Finset.mem_sdiff] at member ⊢
  refine ⟨upper.upward c member.1 b among later, ?_⟩
  intro gone
  exact absurd later (not_lt.mpr (least b gone c member.1))

/-- A part that still has the least member of a larger one is all of it. -/
theorem upperPart_eq {all part larger : Finset κ} (upper : UpperPart all part)
    (wider : UpperPart all larger) (within : part ⊆ larger) {i : κ} (still : i ∈ part)
    (least : ∀ c ∈ larger, i ≤ c) : larger = part := by
  apply Finset.Subset.antisymm ?_ within
  intro c among
  rcases (least c among).lt_or_eq with later | same
  · exact upper.upward i still c (wider.inside among) later
  · exact same ▸ still

end Upper

section Holders
variable {ι κ : Type*}

/-- No two holders meet. -/
def Apart (held : ι → Finset κ) : Prop := Pairwise (Function.onFun Disjoint held)

/-- Some holder has it. -/
def Held (held : ι → Finset κ) (c : κ) : Prop := ∃ a, c ∈ held a

/-- All there is, in parts. -/
structure Shares (all : Finset κ) (held : ι → Finset κ) : Prop where
  apart : Apart held
  whole : ∀ c, c ∈ all ↔ Held held c

theorem apart_lose {held after : ι → Finset κ} (apart : Apart held)
    (less : ∀ a, after a ⊆ held a) : Apart after :=
  fun a b other => (apart other).mono (less a) (less b)

theorem held_lose {held after : ι → Finset κ} (less : ∀ a, after a ⊆ held a) {c : κ}
    (still : Held after c) : Held held c := by
  obtain ⟨a, has⟩ := still
  exact ⟨a, less a has⟩

/-- What one holder gives up while all others keep theirs is gone. -/
theorem lost_apart {held after : ι → Finset κ} (apart : Apart held)
    (less : ∀ a, after a ⊆ held a) {a : ι} {c : κ} (had : c ∈ held a) (gave : c ∉ after a) :
    ¬ Held after c := by
  rintro ⟨b, has⟩
  by_cases same : b = a
  · subst same
    exact gave has
  · exact Finset.disjoint_left.mp (apart same) (less b has) had

variable [DecidableEq ι] [DecidableEq κ]

/-- A part goes from one holder to one that had none. -/
def give (held : ι → Finset κ) (src dst : ι) (part : Finset κ) : ι → Finset κ :=
  Function.update (Function.update held src (held src \ part)) dst part

theorem give_dst (held : ι → Finset κ) (src dst : ι) (part : Finset κ) :
    give held src dst part dst = part := by
  simp [give]

theorem give_src (held : ι → Finset κ) {src dst : ι} (part : Finset κ) (other : src ≠ dst) :
    give held src dst part src = held src \ part := by
  simp [give, other]

theorem give_other (held : ι → Finset κ) {src dst a : ι} (part : Finset κ) (first : a ≠ src)
    (second : a ≠ dst) : give held src dst part a = held a := by
  simp [give, first, second]

theorem apart_give {held : ι → Finset κ} {src dst : ι} {part : Finset κ} (apart : Apart held)
    (other : src ≠ dst) (own : part ⊆ held src) : Apart (give held src dst part) := by
  have fresh : ∀ a, a ≠ dst → Disjoint (give held src dst part a) part := by
    intro a elsewhere
    by_cases from_ : a = src
    · subst from_
      rw [give_src held part other]
      exact Finset.sdiff_disjoint
    · rw [give_other held part from_ elsewhere]
      exact (apart from_).mono_right own
  have less : ∀ a, a ≠ dst → give held src dst part a ⊆ held a := by
    intro a elsewhere
    by_cases from_ : a = src
    · subst from_
      rw [give_src held part other]
      exact Finset.sdiff_subset
    · rw [give_other held part from_ elsewhere]
  intro a b differ
  rw [Function.onFun_apply]
  by_cases left : a = dst
  · subst left
    rw [give_dst]
    exact (fresh b (Ne.symm differ)).symm
  · by_cases right : b = dst
    · subst right
      rw [give_dst]
      exact fresh a left
    · exact (apart differ).mono (less a left) (less b right)

theorem held_give {held : ι → Finset κ} {src dst : ι} {part : Finset κ} (other : src ≠ dst)
    (own : part ⊆ held src) (none : held dst = ∅) (c : κ) :
    Held (give held src dst part) c ↔ Held held c := by
  constructor
  · rintro ⟨a, has⟩
    by_cases there : a = dst
    · subst there
      rw [give_dst] at has
      exact ⟨src, own has⟩
    · by_cases from_ : a = src
      · subst from_
        rw [give_src held part other] at has
        exact ⟨a, (Finset.mem_sdiff.mp has).1⟩
      · rw [give_other held part from_ there] at has
        exact ⟨a, has⟩
  · rintro ⟨a, has⟩
    by_cases from_ : a = src
    · subst from_
      by_cases given : c ∈ part
      · exact ⟨dst, by rwa [give_dst]⟩
      · exact ⟨a, by rw [give_src held part other]; exact Finset.mem_sdiff.mpr ⟨has, given⟩⟩
    · have there : a ≠ dst := by
        rintro rfl
        simp [none] at has
      exact ⟨a, by rwa [give_other held part from_ there]⟩

end Holders

end BitMask
