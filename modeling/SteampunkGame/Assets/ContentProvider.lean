import Mathlib.Logic.Function.Basic
import SteampunkGame.Lib.Runs
import SteampunkGame.Lib.SymbolCode

/-!
`assets::content_provider::get_font` and the handles that it gives out. The
cache holds weak pointers, and nothing ever removes an entry from it.
-/
namespace AssetsContentProvider
open SymbolCode Runs

/-- The file system and SDL_ttf as far as `get_font` asks them. -/
structure Files where
  exists_ : List Int8 → Bool
  openFont : List Int8 → Int32 → Bool

/-- Fonts are numbered in the order in which they were opened, and `opened`
    says for what; a font is closed when its last handle goes. -/
structure Provider where
  fontCache : List Int8 → Option Nat
  handles : Nat → Nat
  opened : List (List Int8 × UInt32)

def fresh : Provider := ⟨fun _ => none, fun _ => 0, []⟩

def getFontKey (path : List Int8) (size : UInt32) : List Int8 :=
  path ++ chars ";size=" ++ (Nat.toDigits 10 size.toNat).map char

/-- `std::weak_ptr::lock`; without a living handle it gives a null pointer. -/
def Provider.lock (p : Provider) (font : Nat) : Option Nat × Provider :=
  if p.handles font = 0 then (none, p)
  else (some font, { p with handles := Function.update p.handles font (p.handles font + 1) })

def Provider.getFont (files : Files) (relativePath : List Int8) (size : UInt32) (p : Provider) :
    Except String (Option Nat × Provider) :=
  let key := getFontKey relativePath size
  match p.fontCache key with
  | some font => .ok (p.lock font)
  | none =>
      if files.exists_ relativePath = false then .error "Font does not exist"
      else if files.openFont relativePath size.toInt32 = false then
        .error "man the fonts just dont be fonting"
      else
        let font := p.opened.length
        .ok (some font, {
          fontCache := Function.update p.fontCache key (some font)
          handles := Function.update p.handles font 1
          opened := p.opened ++ [(relativePath, size)] })

inductive Action where
  | getFont (relativePath : List Int8) (size : UInt32)
  | copy (font : Nat)
  | release (font : Nat)
  deriving DecidableEq, Repr

/-- The owner of a handle may copy it; a call that throws changes nothing. -/
def step (files : Files) (p : Provider) : Action → Option Provider
  | .getFont relativePath size =>
      match p.getFont files relativePath size with
      | .ok (_, p) => some p
      | .error _ => some p
  | .copy font =>
      if p.handles font = 0 then none
      else some { p with handles := Function.update p.handles font (p.handles font + 1) }
  | .release font =>
      if p.handles font = 0 then none
      else some { p with handles := Function.update p.handles font (p.handles font - 1) }

/-- The font was opened before, and all its handles are gone. -/
def Expired (p : Provider) (path : List Int8) (size : UInt32) : Prop :=
  ∃ font, p.opened[font]? = some (path, size) ∧ p.handles font = 0

/-- A call gives a font: the one that is still alive, or else a new one that it
    opens and caches. -/
def Serves (files : Files) (p : Provider) (path : List Int8) (size : UInt32) : Prop :=
  ∃ font q, p.getFont files path size = .ok (some font, q) ∧
    (∀ living, p.opened[living]? = some (path, size) → p.handles living ≠ 0 →
      font = living ∧ q.opened = p.opened) ∧
    ((∀ earlier, p.opened[earlier]? = some (path, size) → p.handles earlier = 0) →
      font = p.opened.length ∧ q.opened = p.opened ++ [(path, size)] ∧
        q.fontCache (getFontKey path size) = some font)

/-- Cache entries and opened fonts are the same, by path and size. -/
structure Sound (p : Provider) : Prop where
  cached : ∀ key font, p.fontCache key = some font →
    ∃ path size, key = getFontKey path size ∧ p.opened[font]? = some (path, size)
  listed : ∀ font path size, p.opened[font]? = some (path, size) →
    p.fontCache (getFontKey path size) = some font

theorem isDigit_bounds {c : Char} (digit : c.isDigit) : 48 ≤ c.toNat ∧ c.toNat ≤ 57 := by
  simp only [Char.isDigit, Bool.and_eq_true, decide_eq_true_eq] at digit
  exact digit

/-- The digits end the key at its last equals sign, so a path that looks like a
    key itself does no harm. -/
theorem getFontKey_injective {path other : List Int8} {size size' : UInt32}
    (same : getFontKey path size = getFontKey other size') : path = other ∧ size = size' := by
  have digits : ∀ n, ∀ c ∈ Nat.toDigits 10 n, 48 ≤ c.toNat ∧ c.toNat ≤ 57 :=
    fun n c among => isDigit_bounds (Nat.isDigit_of_mem_toDigits (by decide) (by decide) among)
  have absent : ∀ n, char '=' ∉ ((Nat.toDigits 10 n).map char).reverse := by
    intro n among
    rw [List.mem_reverse, List.mem_map] at among
    obtain ⟨c, digit, equal⟩ := among
    have bounds := digits n c digit
    have back := ofNat_char (show c.toNat < 256 by omega)
    rw [equal] at back
    rw [← back] at bounds
    revert bounds
    decide
  have split : ∀ path size, splitFirst (char '=') (getFontKey path size).reverse =
      (((Nat.toDigits 10 size.toNat).map char).reverse, (path ++ chars ";size").reverse) := by
    intro path size
    have shape : (getFontKey path size).reverse = ((Nat.toDigits 10 size.toNat).map char).reverse ++
        char '=' :: (path ++ chars ";size").reverse := by simp [getFontKey, chars]
    rw [shape, splitFirst_append (absent size.toNat)]
  have parts := split path size
  rw [same, split other size', Prod.mk.injEq, List.reverse_inj, List.reverse_inj,
    List.append_left_inj] at parts
  obtain ⟨number, text⟩ := parts
  refine ⟨text.symm, ?_⟩
  have small : ∀ n, ∀ c ∈ Nat.toDigits 10 n, c.toNat < 256 := by
    intro n c among
    have bounds := digits n c among
    omega
  have numerals := map_char_injective (small _) (small _) number
  have value := congrArg (Nat.ofDigitChars 10 · 0) numerals
  simp only [Nat.ofDigitChars_ten_toDigits] at value
  exact (UInt32.toNat_inj.mp value).symm

theorem sound_fresh : Sound fresh := by
  constructor
  · intro key font found
    cases found
  · intro font path size found
    cases found

theorem sound_handles {p : Provider} (sound : Sound p) (handles : Nat → Nat) :
    Sound { p with handles := handles } := ⟨sound.cached, sound.listed⟩

theorem sound_getFont {files : Files} {p q : Provider} {path : List Int8} {size : UInt32}
    {font : Option Nat} (sound : Sound p) (run : p.getFont files path size = .ok (font, q)) :
    Sound q := by
  unfold Provider.getFont at run
  dsimp only at run
  split at run
  · unfold Provider.lock at run
    split at run
    · cases run
      exact sound
    · cases run
      exact sound_handles sound _
  · rename_i missing
    split at run
    · cases run
    · split at run
      · cases run
      · cases run
        constructor
        · intro key font found
          dsimp only at found ⊢
          by_cases here : key = getFontKey path size
          · subst here
            rw [Function.update_self] at found
            cases found
            exact ⟨path, size, rfl, List.getElem?_concat_length⟩
          · rw [Function.update_of_ne here] at found
            obtain ⟨other, size', shape, listed⟩ := sound.cached key font found
            obtain ⟨inside, _⟩ := List.getElem?_eq_some_iff.mp listed
            exact ⟨other, size', shape, by rw [List.getElem?_append_left inside, listed]⟩
        · intro font other size' found
          dsimp only at found ⊢
          rw [List.getElem?_append] at found
          split at found
          · have cached := sound.listed font other size' found
            have apart : getFontKey other size' ≠ getFontKey path size := by
              intro equal
              rw [equal, missing] at cached
              cases cached
            rw [Function.update_of_ne apart, cached]
          · rename_i beyond
            have last : font = p.opened.length := by
              obtain ⟨inside, _⟩ := List.getElem?_eq_some_iff.mp found
              simp only [List.length_cons, List.length_nil] at inside
              omega
            rw [last, Nat.sub_self] at found
            cases found
            rw [last, Function.update_self]

theorem sound_step {files : Files} {p q : Provider} {a : Action} (sound : Sound p)
    (run : step files p a = some q) : Sound q := by
  cases a with
  | getFont path size =>
    simp only [step] at run
    split at run
    · rename_i font q' called
      cases run
      exact sound_getFont sound called
    · cases run
      exact sound
  | copy font =>
    simp only [step] at run
    split at run
    · cases run
    · cases run
      exact sound_handles sound _
  | release font =>
    simp only [step] at run
    split at run
    · cases run
    · cases run
      exact sound_handles sound _

theorem sound_reaches {files : Files} {p : Provider}
    (walk : Reaches (step files) anyAction fresh p) : Sound p :=
  reaches_invariant (fun _ _ _ sound _ run => sound_step sound run) walk sound_fresh

theorem serves_iff {files : Files} {p : Provider} {path : List Int8} {size : UInt32}
    (sound : Sound p) (there : files.exists_ path = true)
    (opens : files.openFont path size.toInt32 = true) :
    Serves files p path size ↔ ¬ Expired p path size := by
  cases entry : p.fontCache (getFontKey path size) with
  | none =>
    have unopened : ∀ font : Nat, p.opened[font]? ≠ some (path, size) := by
      intro font found
      have cached := sound.listed font path size found
      rw [entry] at cached
      cases cached
    constructor
    · rintro _ ⟨font, found, _⟩
      exact unopened font found
    · intro _
      refine ⟨p.opened.length, _, by simp [Provider.getFont, entry, there, opens]; rfl, ?_, ?_⟩
      · intro living found
        exact absurd found (unopened living)
      · intro _
        exact ⟨rfl, rfl, Function.update_self ..⟩
  | some font =>
    obtain ⟨other, size', shape, listed⟩ := sound.cached _ font entry
    obtain ⟨rfl, rfl⟩ := getFontKey_injective shape
    have only : ∀ living : Nat, p.opened[living]? = some (path, size) → living = font := by
      intro living found
      have cached := sound.listed living path size found
      rw [entry] at cached
      exact (Option.some.inj cached).symm
    by_cases gone : p.handles font = 0
    · constructor
      · rintro ⟨given, q, run, _⟩
        simp [Provider.getFont, entry, Provider.lock, gone] at run
      · intro living
        exact absurd ⟨font, listed, gone⟩ living
    · constructor
      · rintro _ ⟨expired, found, none⟩
        rw [only expired found] at none
        exact gone none
      · intro _
        refine ⟨font, _, by simp [Provider.getFont, entry, Provider.lock, gone]; rfl, ?_, ?_⟩
        · intro living found _
          exact ⟨(only living found).symm, rfl⟩
        · intro closed
          exact absurd (closed font listed) gone

/-- Whatever was opened, copied and released before, a call serves its font
    unless all handles of that font have gone. -/
theorem font_cache_iff {files : Files} {p : Provider}
    (walk : Reaches (step files) anyAction fresh p) {path : List Int8} {size : UInt32}
    (there : files.exists_ path = true) (opens : files.openFont path size.toInt32 = true) :
    Serves files p path size ↔ ¬ Expired p path size :=
  serves_iff (sound_reaches walk) there opens

def allFiles : Files := ⟨fun _ => true, fun _ _ => true⟩

/-- The second of two handles is still there. -/
theorem font_cache_living : ∃ p, Reaches (step allFiles) anyAction fresh p ∧
    p.handles 0 = 1 ∧ Serves allFiles p (chars "a.ttf") 12 := by
  have run : ∃ p, runActions (step allFiles) [.getFont (chars "a.ttf") 12,
      .getFont (chars "a.ttf") 12, .release 0] fresh = some p ∧ p.handles 0 = 1 ∧
      p.opened = [(chars "a.ttf", 12)] := ⟨_, rfl, rfl, rfl⟩
  obtain ⟨p, taken, handles, opened⟩ := run
  have walk := runActions_reaches taken
  refine ⟨p, walk, handles, (font_cache_iff walk rfl rfl).mpr ?_⟩
  rintro ⟨font, found, gone⟩
  cases font with
  | zero => omega
  | succ later =>
    rw [opened] at found
    cases found

/-- The only handle is released, and the next call gives a null pointer. -/
theorem released_font_null : ∃ p, Reaches (step allFiles) anyAction fresh p ∧
    p.getFont allFiles (chars "a.ttf") 12 = .ok (none, p) ∧
    ¬ Serves allFiles p (chars "a.ttf") 12 := by
  have run : ∃ p, runActions (step allFiles) [.getFont (chars "a.ttf") 12, .release 0] fresh =
      some p ∧ p.getFont allFiles (chars "a.ttf") 12 = .ok (none, p) := ⟨_, rfl, rfl⟩
  obtain ⟨p, taken, null⟩ := run
  refine ⟨p, runActions_reaches taken, null, ?_⟩
  rintro ⟨font, q, given, _⟩
  rw [null] at given
  cases given

theorem getFont_cached {files : Files} {p q : Provider} {path : List Int8} {size : UInt32}
    {font : Nat} (run : p.getFont files path size = .ok (some font, q)) :
    q.fontCache (getFontKey path size) = some font := by
  unfold Provider.getFont at run
  dsimp only at run
  split at run
  · rename_i entry cached
    unfold Provider.lock at run
    split at run
    · cases run
    · cases run
      exact cached
  · split at run
    · cases run
    · split at run
      · cases run
      · cases run
        exact Function.update_self ..

/-- Keys are equal only for the same path and size, whatever the path contains,
    and so a call never gives a font that was opened for something else. -/
theorem font_keys_distinct :
    (∀ (path other : List Int8) (size size' : UInt32),
      getFontKey path size = getFontKey other size' → path = other ∧ size = size') ∧
    ∀ (files : Files) (p : Provider), Reaches (step files) anyAction fresh p →
      ∀ path size font q, p.getFont files path size = .ok (some font, q) →
        q.opened[font]? = some (path, size) := by
  refine ⟨fun _ _ _ _ same => getFontKey_injective same, ?_⟩
  intro files p walk path size font q run
  have sound := sound_getFont (sound_reaches walk) run
  obtain ⟨other, size', shape, listed⟩ := sound.cached _ font (getFont_cached run)
  obtain ⟨rfl, rfl⟩ := getFontKey_injective shape
  exact listed

/-- A path that ends like a key. -/
theorem font_keys_distinct_separator :
    getFontKey (chars "a;size=1") 2 ≠ getFontKey (chars "a") 12 := by
  intro same
  obtain ⟨path, _⟩ := font_keys_distinct.1 _ _ _ _ same
  revert path
  decide

end AssetsContentProvider
