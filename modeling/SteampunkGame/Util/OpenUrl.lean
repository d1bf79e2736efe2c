import Mathlib.Data.List.TakeWhile
import SteampunkGame.Lib.ShellWords
import SteampunkGame.Util.UriTools

/-!
`platform::open_url` on Linux, as `exception_filter` calls it with the mail of
a crash report. The URL is put behind the program's name as it is, and the
shell of `std::system` reads the two as one text.
-/
namespace UtilOpenUrl
open SymbolCode UtilUriTools ShellWords

/-- What a C function reads of the characters of a string. -/
def cStr (s : List Int8) : List Int8 := s.takeWhile fun c => c != 0

/-- The argument of `std::system` in `open_url`. -/
def openUrl (url : List Int8) : List Int8 := cStr (chars "xdg-open " ++ url)

/-- The characters up to the first parameter's end. -/
def subjectPart (m : Mailto) : List Int8 :=
  chars "mailto:" ++ urlEncode m.email ++ chars "?subject=" ++ urlEncode m.subject

def bodyPart (m : Mailto) : List Int8 := chars "body=" ++ urlEncode m.body

theorem urlEncode_plain {str : List Int8} {c : Int8} (among : c ∈ urlEncode str) :
    c ∉ special := by
  have all : ∀ b ∈ special, accepted b = false ∧ b ≠ char '%' :=
    forall_of_all (by decide)
  intro meant
  exact separator_absent (all c meant).1 (all c meant).2 str among

theorem subjectPart_plain (m : Mailto) : ∀ c ∈ subjectPart m, c ∉ special := by
  have scheme : ∀ c ∈ chars "mailto:", c ∉ special := forall_of_all (by decide)
  have name : ∀ c ∈ chars "?subject=", c ∉ special := forall_of_all (by decide)
  intro c among
  simp only [subjectPart, List.mem_append] at among
  rcases among with ((first | email) | second) | subject
  · exact scheme c first
  · exact urlEncode_plain email
  · exact name c second
  · exact urlEncode_plain subject

theorem bodyPart_plain (m : Mailto) : ∀ c ∈ bodyPart m, c ∉ special := by
  have name : ∀ c ∈ chars "body=", c ∉ special := forall_of_all (by decide)
  intro c among
  rw [bodyPart, List.mem_append] at among
  rcases among with first | body
  · exact name c first
  · exact urlEncode_plain body

theorem toString_cut (m : Mailto) : m.toString = subjectPart m ++ char '&' :: bodyPart m := by
  rw [toString_parts]
  simp [subjectPart, bodyPart, chars]

theorem toString_absent {sep : Int8} (reserved : accepted sep = false) (other : sep ≠ char '%')
    (fixed : sep ∉ chars "mailto:" ++ chars "?subject=" ++ chars "&body=") (m : Mailto) :
    sep ∉ m.toString := by
  have encoded : ∀ str, sep ∉ urlEncode str := separator_absent reserved other
  simp only [List.mem_append, not_or] at fixed
  simp only [toString_parts, List.mem_append, not_or]
  exact ⟨⟨⟨⟨⟨fixed.1.1, encoded _⟩, fixed.1.2⟩, encoded _⟩, fixed.2⟩, encoded _⟩

theorem cStr_whole {s : List Int8} (absent : 0 ∉ s) : cStr s = s := by
  rw [cStr, List.takeWhile_eq_self_iff]
  intro c among
  rw [bne_iff_ne]
  rintro rfl
  exact absent among

/-- No field can cut the command short by an end of string. -/
theorem openUrl_whole (m : Mailto) :
    openUrl m.toString = chars "xdg-open " ++ m.toString := by
  refine cStr_whole ?_
  rw [List.mem_append, not_or]
  exact ⟨by decide, toString_absent (by decide) (by decide) (by decide) m⟩

/-- The separator of the two parameters is an operator of the shell. The word
    before it is where the parameters begin in the URI, and the second one is a
    word of its own behind it. -/
theorem openUrl_tokens (m : Mailto) :
    tokens (openUrl m.toString) =
      some [.word (unquoted (chars "xdg-open")), .word (unquoted (subjectPart m)),
        .operator (chars "&"), .word (unquoted (bodyPart m))] := by
  have program : lex ⟨[], .between⟩ (chars "xdg-open ") =
      some ⟨[.word (unquoted (chars "xdg-open"))], .between⟩ := by decide
  have uri : ∀ read, lex ⟨read, .between⟩ (subjectPart m) =
      some ⟨read, .word (unquoted (subjectPart m)) .unquoted⟩ :=
    lex_between (subjectPart_plain m) (by decide)
  have separator : ∀ read text, step ⟨read, .word text .unquoted⟩ (char '&') =
      some ⟨read ++ [.word text], .operator (chars "&")⟩ := fun _ _ => rfl
  have body : ∀ read, lex ⟨read, .operator (chars "&")⟩ (bodyPart m) =
      some ⟨read ++ [.operator (chars "&")], .word (unquoted (bodyPart m)) .unquoted⟩ :=
    lex_operator (by decide) (bodyPart_plain m) (by decide)
  rw [tokens, openUrl_whole, toString_cut, lex_append, program, Option.bind_some, lex_append,
    uri, Option.bind_some, lex_cons, separator, Option.bind_some, body]
  rfl

/-- In single quotes the shell would read every URI of the encoder whole. -/
theorem quoted_uri_reads (m : Mailto) :
    ReadsAs (chars "xdg-open" ++ char ' ' :: singleQuote :: (m.toString ++ [singleQuote]))
      [chars "xdg-open", m.toString] :=
  quoted_reads (c := char 'x') (forall_of_all (by decide)) (by decide) (by decide)
    (toString_absent (by decide) (by decide) (by decide) m)

/-- Whatever the fields are, the shell runs the program on the URI up to its
    second parameter only, and does not read the URI as one literal word. -/
theorem mail_never_whole (m : Mailto) :
    tokens (openUrl m.toString) =
        some [.word (unquoted (chars "xdg-open")), .word (unquoted (subjectPart m)),
          .operator (chars "&"), .word (unquoted (bodyPart m))] ∧
      ¬ ReadsAs (openUrl m.toString) [chars "xdg-open", m.toString] := by
  refine ⟨openUrl_tokens m, fun reads => ?_⟩
  exact readsAs_words reads (openUrl_tokens m) (chars "&") (by simp)

/-- The three fields of one character each. -/
def shortMail : Mailto := ⟨chars "a", chars "b", chars "c"⟩

theorem short_mail_cut :
    tokens (openUrl shortMail.toString) =
        some [.word (unquoted (chars "xdg-open")), .word (unquoted (chars "mailto:a?subject=b")),
          .operator (chars "&"), .word (unquoted (chars "body=c"))] ∧
      ¬ ReadsAs (openUrl shortMail.toString) [chars "xdg-open", shortMail.toString] := by
  have found : tokens (openUrl shortMail.toString) =
      some [.word (unquoted (chars "xdg-open")), .word (unquoted (chars "mailto:a?subject=b")),
        .operator (chars "&"), .word (unquoted (chars "body=c"))] := by decide
  exact ⟨found, fun reads => readsAs_words reads found (chars "&") (by simp)⟩

end UtilOpenUrl
