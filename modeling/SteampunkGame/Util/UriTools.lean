import SteampunkGame.Lib.SymbolCode

/-!
`util::url_encode` and `util::mailto`. Of a stream the fill character and the
base stay set, and the width is for one item only.
-/
namespace UtilUriTools
open SymbolCode

/-- The part of `std::ostringstream` that the encoder uses. -/
structure OStream where
  text : List Int8
  fill : Int8
  base : Nat
  width : Nat
  deriving DecidableEq, Repr

def OStream.empty : OStream := ⟨[], char ' ', 10, 0⟩

/-- Formatted output of one item, filled up on its left side. -/
def OStream.put (s : OStream) (item : List Int8) : OStream :=
  { s with
    text := s.text ++ (List.replicate (s.width - item.length) s.fill ++ item)
    width := 0 }

def OStream.putInt (s : OStream) (n : Nat) : OStream :=
  s.put ((Nat.toDigits s.base n).map char)

def OStream.setw (s : OStream) (n : Nat) : OStream := { s with width := n }

/-- `std::isalnum` of the "C" locale, on the promoted `char`. -/
def isalnum (c : Int) : Bool :=
  (48 ≤ c && c ≤ 57) || (65 ≤ c && c ≤ 90) || (97 ≤ c && c ≤ 122)

/-- The characters that `url_encode` keeps intact. -/
def accepted (c : Int8) : Bool :=
  isalnum c.toInt || c = char '-' || c = char '_' || c = char '.' || c = char '~'

/-- The body of the loop in `url_encode`. -/
def encodeChar (escaped : OStream) (c : Int8) : OStream :=
  if accepted c then escaped.put [c]
  else ((escaped.put [char '%']).setw 2).putInt c.toUInt8.toNat

def urlEncode (str : List Int8) : List Int8 :=
  (str.foldl encodeChar { OStream.empty with fill := char '0', base := 16 }).text

structure Mailto where
  email : List Int8
  subject : List Int8
  body : List Int8
  deriving DecidableEq, Repr

def Mailto.toString (m : Mailto) : List Int8 :=
  let ss := ((OStream.empty.put (chars "mailto:")).put (urlEncode m.email)).put (chars "?")
  let ss := ((ss.put (chars "subject=")).put (urlEncode m.subject)).put (chars "&")
  ((ss.put (chars "body=")).put (urlEncode m.body)).text

/-- How one character is written. -/
def escape (c : Int8) : List Int8 :=
  if accepted c then [c]
  else [char '%', char (c.toUInt8.toNat / 16).digitChar, char (c.toUInt8.toNat % 16).digitChar]

/-- The value of a hex digit of either case. -/
def hexValue (c : Int8) : Option Nat :=
  if 48 ≤ c.toInt ∧ c.toInt ≤ 57 then some (c.toInt.toNat - 48)
  else if 97 ≤ c.toInt ∧ c.toInt ≤ 102 then some (c.toInt.toNat - 87)
  else if 65 ≤ c.toInt ∧ c.toInt ≤ 70 then some (c.toInt.toNat - 55)
  else none

/-- A percent sign with two hex digits stands for their byte, and everything
    else for itself. -/
def percentDecode : List Int8 → List Int8
  | c :: h :: l :: rest =>
      if c = char '%' then
        match hexValue h, hexValue l with
        | some high, some low => (UInt8.ofNat (16 * high + low)).toInt8 :: percentDecode rest
        | _, _ => c :: percentDecode (h :: l :: rest)
      else c :: percentDecode (h :: l :: rest)
  | text => text

/-- Unreserved characters, and percent signs with exactly two hex digits. -/
inductive Escaped : List Int8 → Prop where
  | nil : Escaped []
  | plain {c : Int8} {rest : List Int8} (kept : accepted c = true) (tail : Escaped rest) :
      Escaped (c :: rest)
  | percent {h l : Int8} {rest : List Int8} (high : (hexValue h).isSome)
      (low : (hexValue l).isSome) (tail : Escaped rest) :
      Escaped (char '%' :: h :: l :: rest)

/-- The three parts of a URI with two parameters, and the parameters' names. -/
def parse (uri : List Int8) : Mailto × List Int8 × List Int8 :=
  let (address, query) := splitFirst (char '?') uri
  let (first, second) := splitFirst (char '&') query
  let (subject, subjectValue) := splitFirst (char '=') first
  let (body, bodyValue) := splitFirst (char '=') second
  (⟨percentDecode (address.drop (chars "mailto:").length), percentDecode subjectValue,
    percentDecode bodyValue⟩, subject, body)

theorem digit_kept {d : Nat} (digit : d < 16) :
    hexValue (char d.digitChar) = some d ∧ accepted (char d.digitChar) = true := by
  have all : ∀ d : Fin 16, hexValue (char d.val.digitChar) = some d.val ∧
      accepted (char d.val.digitChar) = true := by decide
  exact all ⟨d, digit⟩

/-- A byte in two digits, the first one by the fill character if it is zero. -/
theorem twoDigits {n : Nat} (byte : n < 256) :
    List.replicate (2 - (Nat.toDigits 16 n).length) '0' ++ Nat.toDigits 16 n =
      [(n / 16).digitChar, (n % 16).digitChar] := by
  by_cases small : n < 16
  · have none : n / 16 = 0 := by omega
    have same : n % 16 = n := by omega
    rw [none, same, Nat.toDigits_of_lt_base small]
    rfl
  · have high : n / 16 < 16 := by omega
    rw [Nat.toDigits_of_base_le (by decide) (by omega), Nat.toDigits_of_lt_base high]
    rfl

/-- Fill character and base are as set before the loop, and the width is used
    up, so that every character is written alike. -/
theorem encodeChar_escape (text : List Int8) (c : Int8) :
    encodeChar ⟨text, char '0', 16, 0⟩ c = ⟨text ++ escape c, char '0', 16, 0⟩ := by
  have digits := congrArg (List.map char) (twoDigits c.toUInt8.toNat_lt)
  simp only [List.map_append, List.map_replicate, List.map_cons, List.map_nil] at digits
  unfold encodeChar escape
  split
  · simp [OStream.put]
  · simp [OStream.put, OStream.putInt, OStream.setw, digits]

theorem urlEncode_escape (str : List Int8) : urlEncode str = str.flatMap escape := by
  have general : ∀ text, (str.foldl encodeChar ⟨text, char '0', 16, 0⟩).text =
      text ++ str.flatMap escape := by
    induction str with
    | nil => simp
    | cons c rest ih =>
      intro text
      rw [List.foldl_cons, encodeChar_escape, ih, List.append_assoc, List.flatMap_cons]
  exact general []

theorem percentDecode_plain {c : Int8} (plain : c ≠ char '%') (rest : List Int8) :
    percentDecode (c :: rest) = c :: percentDecode rest := by
  rcases rest with _ | ⟨h, _ | ⟨l, rest⟩⟩
  · rfl
  · rfl
  · rw [percentDecode, if_neg plain]

theorem escape_readsBack : ReadsBack escape percentDecode := by
  constructor
  · rfl
  · intro c rest
    unfold escape
    split
    · rename_i kept
      have plain : c ≠ char '%' := by
        intro same
        rw [same] at kept
        revert kept
        decide
      exact percentDecode_plain plain rest
    · have byte := c.toUInt8.toNat_lt
      have high := (digit_kept (show c.toUInt8.toNat / 16 < 16 by omega)).1
      have low := (digit_kept (show c.toUInt8.toNat % 16 < 16 by omega)).1
      have whole : 16 * (c.toUInt8.toNat / 16) + c.toUInt8.toNat % 16 = c.toUInt8.toNat := by
        omega
      simp [percentDecode, high, low, whole]

theorem escape_mem {b c : Int8} (written : b ∈ escape c) : accepted b = true ∨ b = char '%' := by
  unfold escape at written
  split at written
  · rename_i kept
    rw [List.mem_singleton] at written
    exact Or.inl (written ▸ kept)
  · have byte := c.toUInt8.toNat_lt
    simp only [List.mem_cons, List.not_mem_nil, or_false] at written
    rcases written with percent | high | low
    · exact Or.inr percent
    · exact Or.inl (high ▸ (digit_kept (by omega)).2)
    · exact Or.inl (low ▸ (digit_kept (by omega)).2)

theorem urlEncode_escaped (str : List Int8) : Escaped (urlEncode str) := by
  rw [urlEncode_escape]
  induction str with
  | nil => exact .nil
  | cons c rest ih =>
    rw [List.flatMap_cons]
    unfold escape
    split
    · rename_i kept
      exact .plain kept ih
    · have byte := c.toUInt8.toNat_lt
      have high := (digit_kept (show c.toUInt8.toNat / 16 < 16 by omega)).1
      have low := (digit_kept (show c.toUInt8.toNat % 16 < 16 by omega)).1
      exact .percent (by rw [high]; rfl) (by rw [low]; rfl) ih

/-- A character that is neither kept nor the percent sign does not occur. -/
theorem separator_absent {sep : Int8} (reserved : accepted sep = false) (other : sep ≠ char '%')
    (str : List Int8) : sep ∉ urlEncode str := by
  intro among
  rw [urlEncode_escape, List.mem_flatMap] at among
  obtain ⟨c, _, written⟩ := among
  rcases escape_mem written with kept | percent
  · rw [reserved] at kept
    cases kept
  · exact other percent

theorem toString_parts (m : Mailto) :
    m.toString = chars "mailto:" ++ urlEncode m.email ++ chars "?subject=" ++
      urlEncode m.subject ++ chars "&body=" ++ urlEncode m.body := by
  simp [Mailto.toString, OStream.put, OStream.empty, chars]

theorem parse_toString (m : Mailto) :
    parse m.toString = (m, chars "subject", chars "body") := by
  have query : ∀ str, char '?' ∉ urlEncode str := separator_absent (by decide) (by decide)
  have next : ∀ str, char '&' ∉ urlEncode str := separator_absent (by decide) (by decide)
  have address : char '?' ∉ chars "mailto:" ++ urlEncode m.email := by
    rw [List.mem_append]
    rintro (scheme | email)
    · revert scheme
      decide
    · exact query _ email
  have first : char '&' ∉ chars "subject=" ++ urlEncode m.subject := by
    rw [List.mem_append]
    rintro (name | subject)
    · revert name
      decide
    · exact next _ subject
  have shape : m.toString = (chars "mailto:" ++ urlEncode m.email) ++ char '?' ::
      ((chars "subject=" ++ urlEncode m.subject) ++ char '&' ::
        (chars "body=" ++ urlEncode m.body)) := by
    rw [toString_parts]
    simp [chars]
  have subject : splitFirst (char '=') (chars "subject=" ++ urlEncode m.subject) =
      (chars "subject", urlEncode m.subject) :=
    splitFirst_append (show char '=' ∉ chars "subject" by decide) _
  have body : splitFirst (char '=') (chars "body=" ++ urlEncode m.body) =
      (chars "body", urlEncode m.body) :=
    splitFirst_append (show char '=' ∉ chars "body" by decide) _
  have decoded : ∀ str, percentDecode (urlEncode str) = str := by
    intro str
    rw [urlEncode_escape]
    exact decode_code escape_readsBack str
  simp only [parse, shape, splitFirst_append address, splitFirst_append first, subject, body,
    List.drop_left, decoded]

/-- What `to_string` writes consists of escaped parts between fixed texts, and
    the three fields are read back from it, so that it determines them. -/
theorem mailto_round_trip (m : Mailto) :
    (∃ email subject body, Escaped email ∧ Escaped subject ∧ Escaped body ∧
      m.toString = chars "mailto:" ++ email ++ chars "?subject=" ++ subject ++
        chars "&body=" ++ body) ∧
    parse m.toString = (m, chars "subject", chars "body") ∧
    ∀ other : Mailto, other.toString = m.toString → other = m := by
  refine ⟨?_, parse_toString m, ?_⟩
  · exact ⟨urlEncode m.email, urlEncode m.subject, urlEncode m.body, urlEncode_escaped _,
      urlEncode_escaped _, urlEncode_escaped _, toString_parts m⟩
  · intro other same
    have read := parse_toString other
    rw [same, parse_toString m] at read
    exact (congrArg Prod.fst read).symm

end UtilUriTools
