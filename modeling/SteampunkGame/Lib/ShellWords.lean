import SteampunkGame.Lib.SymbolCode

/-!
How a POSIX shell recognises the tokens of a command line: operators are taken
as long as they can be, blanks end words, and quotes take characters away from
both. Texts in which the shell has more to do than that, an expansion or a
continued line, are not read here. Words keep for each character whether it was
quoted.
-/
namespace ShellWords
open SymbolCode

def backslash : Int8 := 92
def singleQuote : Int8 := 39
def doubleQuote : Int8 := 34
def backquote : Int8 := 96
def dollar : Int8 := 36
def newline : Int8 := 10

def blanks : List Int8 := [char ' ', 9]

def operators : List (List Int8) :=
  ["&", "&&", "|", "||", ";", ";;", "(", ")", "<", ">", ">|", "<<", "<<-", "<&", ">&",
    "<>"].map chars ++ [[newline]]

/-- The characters at which something other than the word goes on. -/
def special : List Int8 :=
  [backslash, singleQuote, doubleQuote, backquote, dollar, newline, 9] ++ chars " &|;()<>"

abbrev Text := List (Int8 × Bool)

inductive Token where
  | word (text : Text)
  | operator (text : List Int8)
  deriving DecidableEq, Repr

inductive Quoting where
  | unquoted | backslash | single | double | doubleBackslash
  deriving DecidableEq, Repr

inductive Current where
  | between
  | word (text : Text) (quoting : Quoting)
  | operator (text : List Int8)
  | comment
  deriving DecidableEq, Repr

structure Lexer where
  read : List Token
  current : Current
  deriving DecidableEq, Repr

/-- An unquoted character of a word, or the opening of its next quotes. -/
def wordChar (read : List Token) (text : Text) (c : Int8) : Option Lexer :=
  if c = backslash then some ⟨read, .word text .backslash⟩
  else if c = singleQuote then some ⟨read, .word text .single⟩
  else if c = doubleQuote then some ⟨read, .word text .double⟩
  else if c = dollar ∨ c = backquote then none
  else some ⟨read, .word (text ++ [(c, false)]) .unquoted⟩

def tokenStart (read : List Token) (c : Int8) : Option Lexer :=
  if [c] ∈ operators then some ⟨read, .operator [c]⟩
  else if c ∈ blanks then some ⟨read, .between⟩
  else if c = char '#' then some ⟨read, .comment⟩
  else wordChar read [] c

/-- A character behind a backslash. A newline there continues the line. -/
def afterBackslash (read : List Token) (text : Text) (c : Int8) : Option Lexer :=
  if c = newline then none else some ⟨read, .word (text ++ [(c, true)]) .unquoted⟩

/-- In double quotes a backslash stands for itself unless what is behind it has
    a meaning there. -/
def afterDoubleBackslash (read : List Token) (text : Text) (c : Int8) : Option Lexer :=
  if c = newline then none
  else if c ∈ [dollar, backquote, doubleQuote, backslash] then
    some ⟨read, .word (text ++ [(c, true)]) .double⟩
  else some ⟨read, .word (text ++ [(backslash, true), (c, true)]) .double⟩

def inDouble (read : List Token) (text : Text) (c : Int8) : Option Lexer :=
  if c = doubleQuote then some ⟨read, .word text .unquoted⟩
  else if c = backslash then some ⟨read, .word text .doubleBackslash⟩
  else if c = dollar ∨ c = backquote then none
  else some ⟨read, .word (text ++ [(c, true)]) .double⟩

def inSingle (read : List Token) (text : Text) (c : Int8) : Lexer :=
  if c = singleQuote then ⟨read, .word text .unquoted⟩
  else ⟨read, .word (text ++ [(c, true)]) .single⟩

def inWord (read : List Token) (text : Text) (c : Int8) : Option Lexer :=
  if [c] ∈ operators then some ⟨read ++ [.word text], .operator [c]⟩
  else if c ∈ blanks then some ⟨read ++ [.word text], .between⟩
  else wordChar read text c

def step (s : Lexer) (c : Int8) : Option Lexer :=
  match s.current with
  | .between => tokenStart s.read c
  | .comment => if c = newline then some ⟨s.read, .operator [c]⟩ else some s
  | .operator text =>
      if text ++ [c] ∈ operators then some ⟨s.read, .operator (text ++ [c])⟩
      else tokenStart (s.read ++ [.operator text]) c
  | .word text .unquoted => inWord s.read text c
  | .word text .backslash => afterBackslash s.read text c
  | .word text .single => some (inSingle s.read text c)
  | .word text .double => inDouble s.read text c
  | .word text .doubleBackslash => afterDoubleBackslash s.read text c

/-- At the end of the input no quotes may be open. -/
def finish (s : Lexer) : Option (List Token) :=
  match s.current with
  | .between | .comment => some s.read
  | .operator text => some (s.read ++ [.operator text])
  | .word text .unquoted => some (s.read ++ [.word text])
  | .word _ _ => none

def lex (s : Lexer) (input : List Int8) : Option Lexer := input.foldlM step s

def tokens (input : List Int8) : Option (List Token) :=
  (lex ⟨[], .between⟩ input).bind finish

def unquoted (text : List Int8) : Text := text.map fun c => (c, false)

def quoted (text : List Int8) : Text := text.map fun c => (c, true)

/-- Nothing in the word is replaced by other text: it is no pattern for file
    names, and it does not begin with the name of a home directory. -/
def literal (word : Text) : Bool :=
  word.all (fun c => c.2 || !(chars "*?[").contains c.1) && word.head? != some (char '~', false)

/-- The shell finds the given words in the text, each character of them as it
    stands there, and nothing else. -/
def ReadsAs (input : List Int8) (words : List (List Int8)) : Prop :=
  ∃ read : List Text, tokens input = some (read.map Token.word) ∧
    (∀ word ∈ read, literal word = true) ∧ read.map (List.map Prod.fst) = words

theorem lex_append (s : Lexer) (first second : List Int8) :
    lex s (first ++ second) = (lex s first).bind fun t => lex t second :=
  List.foldlM_append

theorem lex_cons (s : Lexer) (c : Int8) (rest : List Int8) :
    lex s (c :: rest) = (step s c).bind fun t => lex t rest :=
  List.foldlM_cons

theorem operator_special {c : Int8} (starts : [c] ∈ operators) : c ∈ special := by
  have all : ∀ text ∈ operators, text.length = 1 → text.headD 0 ∈ special :=
    forall_of_all (by decide)
  exact all [c] starts rfl

theorem blank_special {c : Int8} (blank : c ∈ blanks) : c ∈ special := by
  have all : ∀ b ∈ blanks, b ∈ special := forall_of_all (by decide)
  exact all c blank

theorem wordChar_plain {c : Int8} (plain : c ∉ special) (read : List Token) (text : Text) :
    wordChar read text c = some ⟨read, .word (text ++ [(c, false)]) .unquoted⟩ := by
  have other : ∀ {b : Int8}, b ∈ special → c ≠ b := fun among same => plain (same ▸ among)
  have expands : ¬ (c = dollar ∨ c = backquote) := by
    rintro (same | same)
    · exact other (by decide) same
    · exact other (by decide) same
  rw [wordChar, if_neg (other (by decide)), if_neg (other (by decide)),
    if_neg (other (by decide)), if_neg expands]

theorem inWord_plain {c : Int8} (plain : c ∉ special) (read : List Token) (text : Text) :
    inWord read text c = some ⟨read, .word (text ++ [(c, false)]) .unquoted⟩ := by
  rw [inWord, if_neg fun starts => plain (operator_special starts),
    if_neg fun blank => plain (blank_special blank), wordChar_plain plain]

/-- Characters without a meaning make the word longer. -/
theorem lex_word {more : List Int8} (plain : ∀ c ∈ more, c ∉ special) (read : List Token)
    (text : Text) :
    lex ⟨read, .word text .unquoted⟩ more =
      some ⟨read, .word (text ++ unquoted more) .unquoted⟩ := by
  induction more generalizing text with
  | nil => simp [lex, unquoted]
  | cons c rest ih =>
    have here : step ⟨read, .word text .unquoted⟩ c =
        some ⟨read, .word (text ++ [(c, false)]) .unquoted⟩ :=
      inWord_plain (plain c List.mem_cons_self) read text
    rw [lex_cons, here, Option.bind_some, ih fun b among => plain b (List.mem_cons_of_mem c among)]
    simp [unquoted]

theorem tokenStart_plain {c : Int8} (plain : c ∉ special) (hash : c ≠ char '#')
    (read : List Token) : tokenStart read c = some ⟨read, .word (unquoted [c]) .unquoted⟩ := by
  rw [tokenStart, if_neg fun starts => plain (operator_special starts),
    if_neg fun blank => plain (blank_special blank), if_neg hash, wordChar_plain plain]
  rfl

/-- A text that nothing in it ends is one word. -/
theorem lex_between {c : Int8} {rest : List Int8} (plain : ∀ b ∈ c :: rest, b ∉ special)
    (hash : c ≠ char '#') (read : List Token) :
    lex ⟨read, .between⟩ (c :: rest) = some ⟨read, .word (unquoted (c :: rest)) .unquoted⟩ := by
  have here : step ⟨read, .between⟩ c = some ⟨read, .word (unquoted [c]) .unquoted⟩ :=
    tokenStart_plain (plain c List.mem_cons_self) hash read
  rw [lex_cons, here, Option.bind_some,
    lex_word fun b among => plain b (List.mem_cons_of_mem c among)]
  rfl

/-- So is one behind an operator that it does not make longer. -/
theorem lex_operator {text : List Int8} {c : Int8} {rest : List Int8}
    (ends : text ++ [c] ∉ operators) (plain : ∀ b ∈ c :: rest, b ∉ special)
    (hash : c ≠ char '#') (read : List Token) :
    lex ⟨read, .operator text⟩ (c :: rest) =
      some ⟨read ++ [.operator text], .word (unquoted (c :: rest)) .unquoted⟩ := by
  have here : step ⟨read, .operator text⟩ c = step ⟨read ++ [.operator text], .between⟩ c := by
    simp only [step]
    rw [if_neg ends]
  rw [lex_cons, here, ← lex_cons, lex_between plain hash]

/-- Between single quotes every character stands for itself. -/
theorem lex_single {more : List Int8} (plain : singleQuote ∉ more) (read : List Token)
    (text : Text) :
    lex ⟨read, .word text .single⟩ (more ++ [singleQuote]) =
      some ⟨read, .word (text ++ quoted more) .unquoted⟩ := by
  induction more generalizing text with
  | nil => simp [lex, step, inSingle, quoted]
  | cons c rest ih =>
    rw [List.mem_cons, not_or] at plain
    have here : step ⟨read, .word text .single⟩ c =
        some ⟨read, .word (text ++ [(c, true)]) .single⟩ := by
      simp only [step, inSingle]
      rw [if_neg (Ne.symm plain.1)]
    rw [List.cons_append, lex_cons, here, Option.bind_some, ih plain.2]
    simp [quoted]

theorem readsAs_words {input : List Int8} {words : List (List Int8)}
    (reads : ReadsAs input words) {read : List Token} (found : tokens input = some read)
    (text : List Int8) : Token.operator text ∉ read := by
  obtain ⟨parts, same, _⟩ := reads
  rw [found, Option.some.injEq] at same
  rw [same, List.mem_map]
  rintro ⟨word, _, isWord⟩
  cases isWord

theorem literal_quoted (text : List Int8) : literal (quoted text) = true := by
  cases text <;> simp [literal, quoted]

/-- A program and one argument in single quotes. -/
theorem quoted_reads {c : Int8} {program argument : List Int8}
    (plain : ∀ b ∈ c :: program, b ∉ special) (hash : c ≠ char '#')
    (stands : literal (unquoted (c :: program)) = true) (inside : singleQuote ∉ argument) :
    ReadsAs (c :: program ++ char ' ' :: singleQuote :: (argument ++ [singleQuote]))
      [c :: program, argument] := by
  refine ⟨[unquoted (c :: program), quoted argument], ?_, ?_, ?_⟩
  · have blank : step ⟨[], .word (unquoted (c :: program)) .unquoted⟩ (char ' ') =
        some ⟨[.word (unquoted (c :: program))], .between⟩ := rfl
    have opens : step ⟨[.word (unquoted (c :: program))], .between⟩ singleQuote =
        some ⟨[.word (unquoted (c :: program))], .word [] .single⟩ := rfl
    rw [tokens, lex_append, lex_between plain hash, Option.bind_some, lex_cons, blank,
      Option.bind_some, lex_cons, opens, Option.bind_some, lex_single inside]
    rfl
  · intro word among
    rcases List.mem_cons.mp among with rfl | second
    · exact stands
    · rw [List.mem_singleton.mp second]
      exact literal_quoted argument
  · simp [unquoted, quoted, Function.comp_def]

end ShellWords
