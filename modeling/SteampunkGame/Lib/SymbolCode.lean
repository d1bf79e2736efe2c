import Mathlib.Data.List.Basic

/-!
Texts that are written symbol by symbol and read back, and texts that are put
together with separators. The reader of a code has to know where the writing
of one symbol ends, whatever comes behind it. Texts of the program are lists
of signed bytes.
-/
namespace SymbolCode
variable {α β : Type*}

def char (c : Char) : Int8 := (UInt8.ofNat c.toNat).toInt8

def chars (s : String) : List Int8 := s.toList.map char

theorem ofNat_char {c : Char} (small : c.toNat < 256) :
    Char.ofNat (char c).toUInt8.toNat = c := by
  have same : (char c).toUInt8.toNat = c.toNat := by
    simp [char, Nat.mod_eq_of_lt small]
  rw [same, Char.ofNat_toNat]

/-- A text of one-byte characters can be told from its bytes. -/
theorem map_char_injective {s t : List Char} (first : ∀ c ∈ s, c.toNat < 256)
    (second : ∀ c ∈ t, c.toNat < 256) (same : s.map char = t.map char) : s = t := by
  have back : ∀ text : List Char, (∀ c ∈ text, c.toNat < 256) →
      (text.map char).map (fun b => Char.ofNat b.toUInt8.toNat) = text := by
    intro text small
    rw [List.map_map]
    exact (List.map_congr_left fun c among => ofNat_char (small c among)).trans (List.map_id _)
  rw [← back s first, ← back t second, same]

/-- A property of each item of a list, checked item by item. -/
theorem forall_of_all {p : β → Prop} [DecidablePred p] {items : List β}
    (checked : (items.all fun b => decide (p b)) = true) : ∀ b ∈ items, p b := by
  intro b among
  exact of_decide_eq_true (List.all_eq_true.mp checked b among)

/-- The decoder takes the code of one symbol off the front of any text. -/
structure ReadsBack (code : α → List β) (decode : List β → List α) : Prop where
  empty : decode [] = []
  symbol : ∀ a rest, decode (code a ++ rest) = a :: decode rest

theorem decode_code {code : α → List β} {decode : List β → List α} (reads : ReadsBack code decode)
    (xs : List α) : decode (xs.flatMap code) = xs := by
  induction xs with
  | nil => exact reads.empty
  | cons a rest ih => rw [List.flatMap_cons, reads.symbol, ih]

variable [DecidableEq β]

/-- The parts before and behind the first separator. -/
def splitFirst (sep : β) : List β → List β × List β
  | [] => ([], [])
  | b :: rest =>
      if b = sep then ([], rest)
      else ((b :: (splitFirst sep rest).1), (splitFirst sep rest).2)

theorem splitFirst_append {sep : β} {before : List β} (absent : sep ∉ before) (behind : List β) :
    splitFirst sep (before ++ sep :: behind) = (before, behind) := by
  induction before with
  | nil => simp [splitFirst]
  | cons b rest ih =>
    simp only [List.mem_cons, not_or] at absent
    simp [splitFirst, Ne.symm absent.1, ih absent.2]

end SymbolCode
