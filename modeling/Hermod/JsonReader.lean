import Hermod.JsonText
import Mathlib.Data.List.Nodup
import Mathlib.Data.List.TakeDrop

/-!
Reading JSON text. Blanks may stand between the tokens, strings are unescaped, numbers
are taken by their grammar and must be in range, and arrays and objects can only be nested
to a limit. What is written of a value is read back as that value, whatever follows it.
-/
namespace Hermod.JsonText

open TextLines (Text)

def isBlank (c : Char) : Bool := c = ' ' || c = '\n' || c = '\t' || c = '\r'

def skipBlanks (s : Text) : Text := s.dropWhile isBlank

def skipWord (word s : Text) : Option Text :=
  if word.isPrefixOf s then some (s.drop word.length) else none

/-! Strings. -/

def hexValue (c : Char) : Option ℕ :=
  if c.isDigit then some (c.toNat - 48)
  else if 'a' ≤ c ∧ c ≤ 'f' then some (c.toNat - 87)
  else if 'A' ≤ c ∧ c ≤ 'F' then some (c.toNat - 55)
  else none

def readHex : Text → Option (ℕ × Text)
  | a :: b :: c :: d :: s => do
    let a ← hexValue a
    let b ← hexValue b
    let c ← hexValue c
    let d ← hexValue d
    some (((a * 16 + b) * 16 + c) * 16 + d, s)
  | _ => none

/-- The two halves of a character beyond the first plane stand next to each other. -/
def readUnicode (s : Text) : Option (Char × Text) := do
  let (high, s) ← readHex s
  if 0xDC00 ≤ high ∧ high < 0xE000 then none
  else if 0xD800 ≤ high ∧ high < 0xDC00 then
    let s ← skipWord ['\\', 'u'] s
    let (low, s) ← readHex s
    if 0xDC00 ≤ low ∧ low < 0xE000 then
      some (Char.ofNat (0x10000 + (high - 0xD800) * 0x400 + (low - 0xDC00)), s)
    else none
  else some (Char.ofNat high, s)

def readEscape : Text → Option (Char × Text)
  | [] => none
  | c :: s =>
    if c = '"' ∨ c = '\\' ∨ c = '/' then some (c, s)
    else if c = 'b' then some (Char.ofNat 8, s)
    else if c = 'f' then some (Char.ofNat 12, s)
    else if c = 'n' then some ('\n', s)
    else if c = 'r' then some ('\r', s)
    else if c = 't' then some ('\t', s)
    else if c = 'u' then readUnicode s
    else none

/-- Up to the closing quotation mark. Each turn takes a character at least. -/
def readChars : ℕ → Text → Option (Text × Text)
  | fuel + 1, c :: s =>
    if c = '"' then some ([], s)
    else if c = '\\' then do
      let (c, s) ← readEscape s
      let (t, s) ← readChars fuel s
      some (c :: t, s)
    else if c.toNat < 32 then none
    else do
      let (t, s) ← readChars fuel s
      some (c :: t, s)
  | _, _ => none

def readString (s : Text) : Option (Text × Text) := readChars s.length s

/-! Numbers. -/

def numberChars : Text := "0123456789+-.eE".toList

def readDigits (s : Text) : Option (Text × Text) :=
  match s.span Char.isDigit with
  | ([], _) => none
  | (digits, s) => some (digits, s)

/-- A number does not begin with a zero that is followed by further digits. -/
def readInteger (s : Text) : Option (Text × Text) := do
  let (digits, s) ← readDigits s
  if digits.head? = some '0' ∧ digits ≠ ['0'] then none else some (digits, s)

def readFraction : Text → Option (Text × Text)
  | '.' :: s => do
    let (digits, s) ← readDigits s
    some ('.' :: digits, s)
  | s => some ([], s)

def readSign : Text → Text × Text
  | '+' :: s => (['+'], s)
  | '-' :: s => (['-'], s)
  | s => ([], s)

def readExponent : Text → Option (Text × Text)
  | c :: s =>
    if c = 'e' ∨ c = 'E' then do
      let (sign, s) := readSign s
      let (digits, s) ← readDigits s
      some (c :: sign ++ digits, s)
    else some ([], c :: s)
  | [] => some ([], [])

def readMinus : Text → Text × Text
  | '-' :: s => (['-'], s)
  | s => ([], s)

def readLexeme (s : Text) : Option (Text × Text) := do
  let (minus, s) := readMinus s
  let (integer, s) ← readInteger s
  let (fraction, s) ← readFraction s
  let (exponent, s) ← readExponent s
  some (minus ++ integer ++ fraction ++ exponent, s)

def Number.ofText (text : Text) : Option Number :=
  if h : ∀ c ∈ text, c ∈ "0123456789+-.eE".toList then some ⟨text, h⟩ else none

/-! Values. -/

section Lists

variable {α : Type} (item : Text → Option (α × Text)) (close : Char)

def readMore : ℕ → Text → Option (List α × Text)
  | 0, _ => none
  | fuel + 1, s =>
    match skipBlanks s with
    | [] => none
    | c :: s =>
      if c = close then some ([], s)
      else if c = ',' then do
        let (a, s) ← item s
        let (as, s) ← readMore fuel s
        some (a :: as, s)
      else none

def readList (s : Text) : Option (List α × Text) :=
  match skipBlanks s with
  | [] => none
  | c :: s =>
    if c = close then some ([], s)
    else do
      let (a, s) ← item (c :: s)
      let (as, s) ← readMore item close s.length s
      some (a :: as, s)

end Lists

def readField (value : Text → Option (Json × Text)) (s : Text) :
    Option ((Text × Json) × Text) := do
  let s ← skipWord ['"'] (skipBlanks s)
  let (key, s) ← readString s
  let s ← skipWord [':'] (skipBlanks s)
  let (v, s) ← value s
  some ((key, v), s)

/-- A value that begins with `c`. What is in an array or object is read by `inner`. -/
def readNode (finite : Text → Bool) (inner : Option (Text → Option (Json × Text))) (c : Char)
    (s : Text) : Option (Json × Text) :=
  if c = '"' then do
    let (t, s) ← readString s
    some (.string t, s)
  else if c = '[' then do
    let (items, s) ← readList (← inner) ']' s
    some (.array items, s)
  else if c = '\x7b' then do
    let (fields, s) ← readList (readField (← inner)) '\x7d' s
    some (.object fields, s)
  else if c = 'n' then (skipWord "ull".toList s).map fun s => (.null, s)
  else if c = 't' then (skipWord "rue".toList s).map fun s => (.bool true, s)
  else if c = 'f' then (skipWord "alse".toList s).map fun s => (.bool false, s)
  else do
    let (text, s) ← readLexeme (c :: s)
    if finite text then some (.number (← Number.ofText text), s) else none

/-- A value in which arrays and objects are nested to `depth` levels. -/
def readValue (finite : Text → Bool) : ℕ → Text → Option (Json × Text)
  | 0, s =>
    match skipBlanks s with
    | [] => none
    | c :: s => readNode finite none c s
  | depth + 1, s =>
    match skipBlanks s with
    | [] => none
    | c :: s => readNode finite (some (readValue finite depth)) c s

/-- The parser refuses the 128th level. -/
def maxDepth : ℕ := 127

def fromStr (finite : Text → Bool) (s : Text) : Option Json := do
  let (v, s) ← readValue finite maxDepth s
  if skipBlanks s = [] then some v else none

namespace Json

/-- An object is a map, in which a later field replaces an earlier one of its name. -/
def get (key : Text) : Json → Option Json
  | object fields => (fields.reverse.find? fun f => f.1 = key).map Prod.snd
  | _ => none

def asStr : Json → Option Text
  | string s => some s
  | _ => none

/-- A field whose key no other field has. -/
theorem get_eq {fields : List (Text × Json)} (hnodup : (fields.map Prod.fst).Nodup) {key : Text}
    {v : Json} (hmem : (key, v) ∈ fields) : (object fields).get key = some v := by
  have hsome : (fields.reverse.find? fun f => f.1 = key).isSome := by
    rw [List.find?_isSome]
    exact ⟨(key, v), List.mem_reverse.mpr hmem, decide_eq_true rfl⟩
  obtain ⟨f, hf⟩ := Option.isSome_iff_exists.mp hsome
  have hkey : f.1 = key := by
    have hfound := List.find?_some hf
    exact of_decide_eq_true hfound
  have hfields : f ∈ fields := List.mem_reverse.mp (List.mem_of_find?_eq_some hf)
  have heq : f = (key, v) := List.inj_on_of_nodup_map hnodup hfields hmem hkey
  rw [get, hf, heq]
  rfl

/-- What a reader takes for a number, in range, and everything else, nested to no more than
`depth` levels. -/
def Readable (finite : Text → Bool) : ℕ → Json → Prop
  | _, .number n => readLexeme n.text = some (n.text, []) ∧ finite n.text = true
  | 0, .array _ => False
  | 0, .object _ => False
  | depth + 1, .array items => ∀ v ∈ items, Readable finite depth v
  | depth + 1, .object fields => ∀ f ∈ fields, Readable finite depth f.2
  | _, _ => True

end Json

/-! Strings that have been escaped. -/

theorem hexValue_digitChar : ∀ n < 16, hexValue (Nat.digitChar n) = some n := by decide

theorem readEscape_control {c : Char} (hc : c.toNat < 32) (s : Text) :
    readEscape ('u' :: '0' :: '0' :: Nat.digitChar (c.toNat / 16) ::
      Nat.digitChar (c.toNat % 16) :: s) = some (c, s) := by
  have hhigh := hexValue_digitChar (c.toNat / 16) (by omega)
  have hlow := hexValue_digitChar (c.toNat % 16) (by omega)
  have hzero : hexValue '0' = some 0 := rfl
  have hvalue : ((0 * 16 + 0) * 16 + c.toNat / 16) * 16 + c.toNat % 16 = c.toNat := by omega
  have hread : readHex ('0' :: '0' :: Nat.digitChar (c.toNat / 16) ::
      Nat.digitChar (c.toNat % 16) :: s) = some (c.toNat, s) := by
    simp only [readHex, hzero, hhigh, hlow, Option.bind_eq_bind, Option.bind_some, hvalue]
  have hone : readEscape ('u' :: '0' :: '0' :: Nat.digitChar (c.toNat / 16) ::
      Nat.digitChar (c.toNat % 16) :: s) = readUnicode ('0' :: '0' ::
      Nat.digitChar (c.toNat / 16) :: Nat.digitChar (c.toNat % 16) :: s) := rfl
  rw [hone, readUnicode, hread]
  simp only [Option.bind_eq_bind, Option.bind_some]
  rw [if_neg (by omega), if_neg (by omega), Char.ofNat_toNat]

/-- An escaped character is read back in one turn. -/
theorem readChars_escapeChar (c : Char) (fuel : ℕ) (s : Text) :
    readChars (fuel + 1) (escapeChar c ++ s) =
      (readChars fuel s).map fun p => (c :: p.1, p.2) := by
  have hbind : ∀ (d : Char), ((readChars fuel s).bind fun p => some (d :: p.1, p.2)) =
      (readChars fuel s).map fun p => (d :: p.1, p.2) := by
    intro d
    cases readChars fuel s <;> rfl
  have hescape : ∀ {e : Text} {d : Char}, readEscape (e ++ s) = some (d, s) →
      readChars (fuel + 1) ('\\' :: e ++ s) =
        (readChars fuel s).map fun p => (d :: p.1, p.2) := by
    intro e d he
    rw [List.cons_append, readChars, if_neg (by decide), if_pos rfl, he]
    exact hbind d
  unfold escapeChar
  split_ifs with h1 h2 h3 h4 h5 h6 h7 h8
  · rw [h1]
    exact hescape rfl
  · rw [h2]
    exact hescape rfl
  · rw [h3]
    exact hescape rfl
  · rw [h4]
    exact hescape rfl
  · rw [h5]
    exact hescape rfl
  · rw [h6]
    exact hescape rfl
  · rw [h7]
    exact hescape rfl
  · exact hescape (readEscape_control h8 s)
  · rw [List.singleton_append, readChars, if_neg h1, if_neg h2, if_neg h8]
    exact hbind c

/-- An escaped string is read back up to its quotation mark. -/
theorem readChars_flatMap (t : Text) {fuel : ℕ} (hfuel : t.length < fuel) (s : Text) :
    readChars fuel (t.flatMap escapeChar ++ '"' :: s) = some (t, s) := by
  induction t generalizing fuel with
  | nil =>
    obtain ⟨fuel, rfl⟩ : ∃ k, fuel = k + 1 := ⟨fuel - 1, by omega⟩
    rfl
  | cons c t ih =>
    obtain ⟨fuel, rfl⟩ : ∃ k, fuel = k + 1 := ⟨fuel - 1, by omega⟩
    have hrest := ih (Nat.succ_lt_succ_iff.mp hfuel)
    rw [List.flatMap_cons, List.append_assoc, readChars_escapeChar, hrest]
    rfl

theorem length_le_flatMap_escapeChar (t : Text) : t.length ≤ (t.flatMap escapeChar).length := by
  induction t with
  | nil => exact Nat.le_refl 0
  | cons c t ih =>
    have hpos : 0 < (escapeChar c).length := by
      unfold escapeChar
      split_ifs <;> simp
    rw [List.flatMap_cons, List.length_append, List.length_cons]
    omega

theorem readString_escaped (t s : Text) :
    readString (t.flatMap escapeChar ++ '"' :: s) = some (t, s) := by
  have hlength := length_le_flatMap_escapeChar t
  apply readChars_flatMap
  rw [List.length_append, List.length_cons]
  omega

/-! Numbers with a text behind them. -/

def Ends (s : Text) : Prop := ∀ c ∈ s.head?, c ∉ numberChars

theorem ends_nil : Ends [] := fun c hc => by simp at hc

theorem ends_cons {c : Char} (hc : c ∉ numberChars) (s : Text) : Ends (c :: s) := by
  intro d hd
  rw [List.head?_cons, Option.mem_some_iff] at hd
  rwa [← hd]

theorem digit_mem_numberChars : ∀ n < 58, 48 ≤ n → Char.ofNat n ∈ numberChars := by decide

theorem isDigit_eq_false {c : Char} (hc : c ∉ numberChars) : c.isDigit = false := by
  by_contra hdigit
  rw [Bool.not_eq_false, Char.isDigit_iff_toNat] at hdigit
  have hmem := digit_mem_numberChars c.toNat (Nat.lt_succ_of_le hdigit.2) hdigit.1
  rw [Char.ofNat_toNat] at hmem
  exact hc hmem

/-- What the reader takes does not depend on a text behind, if that ends the number. -/
def Extends (r : Text → Option (Text × Text)) : Prop :=
  ∀ s t s' more, Ends more → r s = some (t, s') → r (s ++ more) = some (t, s' ++ more)

/-- What stops the span may stand in the text behind. -/
theorem span_append {p : Char → Bool} {more : Text} (hmore : ∀ c ∈ more.head?, p c = false)
    (s : Text) : (s ++ more).span p = ((s.span p).1, (s.span p).2 ++ more) := by
  simp only [List.span_eq_takeWhile_dropWhile]
  induction s with
  | nil =>
    cases more with
    | nil => rfl
    | cons c more =>
      have hc := hmore c rfl
      simp [hc]
  | cons c s ih =>
    rw [Prod.mk.injEq] at ih
    obtain ⟨htake, hdrop⟩ := ih
    by_cases hc : p c = true
    · simp [hc, htake, hdrop]
    · simp [hc]

theorem extends_readDigits : Extends readDigits := by
  intro s t s' more hmore h
  have hspan := span_append (p := Char.isDigit)
    (fun c hc => isDigit_eq_false (hmore c hc)) s
  unfold readDigits at h ⊢
  rw [hspan]
  generalize s.span Char.isDigit = p at h ⊢
  obtain ⟨digits, rest⟩ := p
  cases digits with
  | nil => cases h
  | cons d ds =>
    simp only [Option.some.injEq, Prod.mk.injEq] at h
    obtain ⟨rfl, rfl⟩ := h
    rfl

theorem extends_readInteger : Extends readInteger := by
  intro s t s' more hmore h
  simp only [readInteger, Option.bind_eq_bind, Option.bind_eq_some_iff] at h
  obtain ⟨⟨digits, rest⟩, hdigits, h⟩ := h
  have hextended := extends_readDigits s digits rest more hmore hdigits
  simp only [readInteger, hextended, Option.bind_eq_bind, Option.bind_some]
  split at h
  · cases h
  · rename_i hzero
    simp only [Option.some.injEq, Prod.mk.injEq] at h
    obtain ⟨rfl, rfl⟩ := h
    rw [if_neg hzero]

theorem readFraction_of_ne {c : Char} (hc : c ≠ '.') (s : Text) :
    readFraction (c :: s) = some ([], c :: s) := by
  unfold readFraction
  split
  · rename_i heq
    exact absurd (List.cons.inj heq).1 hc
  · rfl

theorem extends_readFraction : Extends readFraction := by
  intro s t s' more hmore h
  have hnone : readFraction more = some ([], more) := by
    cases more with
    | nil => rfl
    | cons c more =>
      have hc : c ≠ '.' := by
        rintro rfl
        exact hmore '.' rfl (by decide)
      exact readFraction_of_ne hc more
  cases s with
  | nil =>
    obtain ⟨rfl, rfl⟩ : [] = t ∧ [] = s' := by simpa [readFraction] using h
    exact hnone
  | cons c s =>
    by_cases hc : c = '.'
    · subst hc
      simp only [readFraction, Option.bind_eq_bind, Option.bind_eq_some_iff] at h
      obtain ⟨⟨digits, rest⟩, hdigits, h⟩ := h
      have hextended := extends_readDigits s digits rest more hmore hdigits
      simp only [Option.some.injEq, Prod.mk.injEq] at h
      obtain ⟨rfl, rfl⟩ := h
      simp only [List.cons_append, readFraction, hextended, Option.bind_eq_bind, Option.bind_some]
    · rw [readFraction_of_ne hc] at h
      simp only [Option.some.injEq, Prod.mk.injEq] at h
      obtain ⟨rfl, rfl⟩ := h
      exact readFraction_of_ne hc (s ++ more)

theorem readSign_append {s more : Text} (hs : s ≠ []) :
    readSign (s ++ more) = ((readSign s).1, (readSign s).2 ++ more) := by
  cases s with
  | nil => exact absurd rfl hs
  | cons c s =>
    rw [List.cons_append]
    by_cases hplus : c = '+'
    · subst hplus
      rfl
    · by_cases hminus : c = '-'
      · subst hminus
        rfl
      · have hother : ∀ s, readSign (c :: s) = ([], c :: s) := by
          intro s
          unfold readSign
          split
          · rename_i heq
            exact absurd (List.cons.inj heq).1 hplus
          · rename_i heq
            exact absurd (List.cons.inj heq).1 hminus
          · rfl
        rw [hother, hother]
        rfl

theorem extends_readExponent : Extends readExponent := by
  intro s t s' more hmore h
  cases s with
  | nil =>
    obtain ⟨rfl, rfl⟩ : [] = t ∧ [] = s' := by simpa [readExponent] using h
    cases more with
    | nil => rfl
    | cons c more =>
      have hc : ¬ (c = 'e' ∨ c = 'E') := by
        rintro (rfl | rfl)
        · exact hmore 'e' rfl (by decide)
        · exact hmore 'E' rfl (by decide)
      rw [List.nil_append, readExponent, if_neg hc]
  | cons c s =>
    rw [List.cons_append]
    rw [readExponent] at h ⊢
    split
    · rename_i hc
      rw [if_pos hc] at h
      simp only [Option.bind_eq_bind, Option.bind_eq_some_iff] at h
      obtain ⟨⟨digits, rest⟩, hdigits, h⟩ := h
      have hs : s ≠ [] := by
        rintro rfl
        cases hdigits
      have hextended := extends_readDigits _ digits rest more hmore hdigits
      simp only [Option.some.injEq, Prod.mk.injEq] at h
      obtain ⟨rfl, rfl⟩ := h
      simp only [readSign_append hs, hextended, Option.bind_eq_bind, Option.bind_some]
    · rename_i hc
      rw [if_neg hc] at h
      simp only [Option.some.injEq, Prod.mk.injEq] at h
      obtain ⟨rfl, rfl⟩ := h
      rfl

theorem readMinus_append {s more : Text} (hs : s ≠ []) :
    readMinus (s ++ more) = ((readMinus s).1, (readMinus s).2 ++ more) := by
  cases s with
  | nil => exact absurd rfl hs
  | cons c s =>
    rw [List.cons_append]
    by_cases hminus : c = '-'
    · subst hminus
      rfl
    · have hother : ∀ s, readMinus (c :: s) = ([], c :: s) := by
        intro s
        unfold readMinus
        split
        · rename_i heq
          exact absurd (List.cons.inj heq).1 hminus
        · rfl
      rw [hother, hother]
      rfl

/-- A number is read alike, whatever stands behind its end. -/
theorem extends_readLexeme : Extends readLexeme := by
  intro s t s' more hmore h
  have hs : s ≠ [] := by
    rintro rfl
    cases h
  simp only [readLexeme, Option.bind_eq_bind, Option.bind_eq_some_iff] at h
  obtain ⟨⟨integer, s₁⟩, hinteger, ⟨fraction, s₂⟩, hfraction, ⟨exponent, s₃⟩, hexponent, h⟩ := h
  have h₁ := extends_readInteger _ integer s₁ more hmore hinteger
  have h₂ := extends_readFraction _ fraction s₂ more hmore hfraction
  have h₃ := extends_readExponent _ exponent s₃ more hmore hexponent
  simp only [Option.some.injEq, Prod.mk.injEq] at h
  obtain ⟨rfl, rfl⟩ := h
  simp only [readLexeme, readMinus_append hs, h₁, h₂, h₃, Option.bind_eq_bind, Option.bind_some]

/-! Lists of items, each of which is read whatever stands behind it. -/

section Lists

variable {α : Type} {item : Text → Option (α × Text)} {text : α → Text} {close : Char}

def Begins (close : Char) (s : Text) : Prop :=
  ∃ c t, s = c :: t ∧ isBlank c = false ∧ c ≠ close

theorem skipBlanks_cons {c : Char} (hc : isBlank c = false) (s : Text) :
    skipBlanks (c :: s) = c :: s := by
  simp [skipBlanks, hc]

/-- Items behind commas are read back up to the closing bracket. -/
theorem readMore_flatMap (hclose : isBlank close = false) (hcomma : close ≠ ',')
    (hends : close ∉ numberChars) {as : List α}
    (hitem : ∀ a ∈ as, ∀ more, Ends more → item (text a ++ more) = some (a, more))
    {fuel : ℕ} (hfuel : as.length < fuel) (s : Text) :
    readMore item close fuel (as.flatMap (fun a => ',' :: text a) ++ close :: s) =
      some (as, s) := by
  induction as generalizing fuel with
  | nil =>
    obtain ⟨fuel, rfl⟩ : ∃ k, fuel = k + 1 := ⟨fuel - 1, by omega⟩
    rw [List.flatMap_nil, List.nil_append, readMore, skipBlanks_cons hclose]
    exact if_pos rfl
  | cons a as ih =>
    obtain ⟨fuel, rfl⟩ : ∃ k, fuel = k + 1 := ⟨fuel - 1, by omega⟩
    rw [List.forall_mem_cons] at hitem
    have hends : Ends (as.flatMap (fun a => ',' :: text a) ++ close :: s) := by
      cases as with
      | nil => exact ends_cons hends s
      | cons b bs => exact ends_cons (by decide) _
    have ha := hitem.1 _ hends
    have hrest := ih hitem.2 (Nat.succ_lt_succ_iff.mp hfuel)
    rw [List.flatMap_cons, List.cons_append, List.cons_append, List.append_assoc, readMore,
      skipBlanks_cons (by decide)]
    simp only [if_neg hcomma.symm, if_true, ha, hrest, Option.bind_eq_bind, Option.bind_some]

theorem length_le_flatMap_cons (as : List α) (t : α → Text) :
    as.length ≤ (as.flatMap fun a => ',' :: t a).length := by
  induction as with
  | nil => exact Nat.le_refl 0
  | cons a as ih =>
    rw [List.flatMap_cons, List.length_append, List.length_cons, List.length_cons]
    omega

theorem readList_nil (hclose : isBlank close = false) (s : Text) :
    readList item close (close :: s) = some ([], s) := by
  rw [readList, skipBlanks_cons hclose]
  exact if_pos rfl

theorem readList_cons (hclose : isBlank close = false) (hcomma : close ≠ ',')
    (hends : close ∉ numberChars) {a : α} {as : List α} (hbegins : Begins close (text a))
    (hitem : ∀ b ∈ a :: as, ∀ more, Ends more → item (text b ++ more) = some (b, more))
    (s : Text) :
    readList item close (text a ++ as.flatMap (fun b => ',' :: text b) ++ close :: s) =
      some (a :: as, s) := by
  rw [List.forall_mem_cons] at hitem
  have hrest : Ends (as.flatMap (fun b => ',' :: text b) ++ close :: s) := by
    cases as with
    | nil => exact ends_cons hends s
    | cons b bs => exact ends_cons (by decide) _
  have ha := hitem.1 _ hrest
  have hfuel : as.length < (as.flatMap (fun b => ',' :: text b) ++ close :: s).length := by
    have hlength := length_le_flatMap_cons as text
    rw [List.length_append, List.length_cons]
    omega
  have hmore := readMore_flatMap hclose hcomma hends hitem.2 hfuel s
  obtain ⟨c, t, htext, hblank, hne⟩ := hbegins
  rw [List.append_assoc]
  rw [htext, List.cons_append] at ha ⊢
  rw [readList, skipBlanks_cons hblank]
  simp only [if_neg hne, ha, hmore, Option.bind_eq_bind, Option.bind_some]

end Lists

/-! Values. -/

theorem writeItems_cons (v : Json) (vs : List Json) :
    Json.writeItems (v :: vs) = v.write ++ vs.flatMap fun w => ',' :: w.write := by
  induction vs generalizing v with
  | nil => rw [Json.writeItems, List.flatMap_nil, List.append_nil]
  | cons w vs ih => rw [Json.writeItems, ih w, List.flatMap_cons, List.cons_append]

theorem writeFields_cons (f : Text × Json) (fs : List (Text × Json)) :
    Json.writeFields (f :: fs) =
      Json.writeField f ++ fs.flatMap fun g => ',' :: Json.writeField g := by
  induction fs generalizing f with
  | nil => rw [Json.writeFields, List.flatMap_nil, List.append_nil]
  | cons g fs ih => rw [Json.writeFields, ih g, List.flatMap_cons, List.cons_append]

/-- A number begins with a digit or a minus sign. -/
theorem readLexeme_head {s t s' : Text} (h : readLexeme s = some (t, s')) :
    ∃ c rest, s = c :: rest ∧ (c = '-' ∨ c.isDigit = true) := by
  cases s with
  | nil => cases h
  | cons c s =>
    refine ⟨c, s, rfl, ?_⟩
    by_cases hminus : c = '-'
    · exact Or.inl hminus
    · right
      by_contra hdigit
      have hnone : readDigits (c :: s) = none := by
        rw [readDigits, List.span_eq_takeWhile_dropWhile, List.takeWhile_cons_of_neg hdigit]
      have hother : readMinus (c :: s) = ([], c :: s) := by
        unfold readMinus
        split
        · rename_i heq
          exact absurd (List.cons.inj heq).1 hminus
        · rfl
      simp only [readLexeme, hother, readInteger, hnone, Option.bind_eq_bind,
        Option.bind_none] at h
      cases h

theorem Number.ofText_text (n : Number) : Number.ofText n.text = some n := dif_pos n.digits

/-- The first character of what is written of a value decides how it is read. -/
theorem isBlank_of_isDigit {c : Char} (hc : c = '-' ∨ c.isDigit = true) :
    isBlank c = false ∧ c ∉ ['"', '[', '\x7b', 'n', 't', 'f', ']', '\x7d'] := by
  rcases hc with rfl | hdigit
  · exact ⟨rfl, by decide⟩
  · rw [Char.isDigit_iff_toNat] at hdigit
    have hall : ∀ n < 58, 48 ≤ n → isBlank (Char.ofNat n) = false ∧
        Char.ofNat n ∉ ['"', '[', '\x7b', 'n', 't', 'f', ']', '\x7d'] := by decide
    have hc := hall c.toNat (Nat.lt_succ_of_le hdigit.2) hdigit.1
    rwa [Char.ofNat_toNat] at hc

/-- No value begins with a blank or a closing bracket. -/
theorem begins_write {finite : Text → Bool} {depth : ℕ} {v : Json}
    (hv : v.Readable finite depth) {close : Char} (hclose : close = ']' ∨ close = '\x7d') :
    Begins close v.write := by
  have hfixed : ∀ c t, isBlank c = false → c ≠ ']' → c ≠ '\x7d' → Begins close (c :: t) := by
    intro c t hblank hsquare hcurly
    refine ⟨c, t, rfl, hblank, ?_⟩
    rcases hclose with rfl | rfl
    · exact hsquare
    · exact hcurly
  cases v with
  | null => exact hfixed 'n' _ rfl (by decide) (by decide)
  | bool b =>
    cases b
    · exact hfixed 'f' _ rfl (by decide) (by decide)
    · exact hfixed 't' _ rfl (by decide) (by decide)
  | number n =>
    have hlexeme : readLexeme n.text = some (n.text, []) := by
      cases depth with
      | zero => exact hv.1
      | succ depth => exact hv.1
    obtain ⟨c, rest, htext, hc⟩ := readLexeme_head hlexeme
    obtain ⟨hblank, hno⟩ := isBlank_of_isDigit hc
    rw [Json.write, htext]
    simp only [List.mem_cons, not_or] at hno
    exact hfixed c rest hblank hno.2.2.2.2.2.2.1 hno.2.2.2.2.2.2.2.1
  | string s => exact hfixed '"' _ rfl (by decide) (by decide)
  | array items => exact hfixed '[' _ rfl (by decide) (by decide)
  | object fields => exact hfixed '\x7b' _ rfl (by decide) (by decide)

section Values

variable {finite : Text → Bool}

theorem skipWord_append (word s : Text) : skipWord word (word ++ s) = some s := by
  have hword : word.isPrefixOf (word ++ s) = true :=
    List.isPrefixOf_iff_prefix.mpr (List.prefix_append word s)
  rw [skipWord, if_pos hword, List.drop_left]

/-- The reader of a value goes by its first character. -/
theorem readValue_cons (finite : Text → Bool) {c : Char} (hc : isBlank c = false) (depth : ℕ)
    (s : Text) :
    ∃ inner, (∀ d, depth = d + 1 → inner = some (readValue finite d)) ∧
      readValue finite depth (c :: s) = readNode finite inner c s := by
  cases depth with
  | zero =>
    refine ⟨none, ?_, ?_⟩
    · intro d hd
      omega
    · rw [readValue, skipBlanks_cons hc]
  | succ depth =>
    refine ⟨some (readValue finite depth), ?_, ?_⟩
    · intro d hd
      rw [Nat.succ.inj hd]
    · rw [readValue, skipBlanks_cons hc]

/-- A number in range is read back. -/
theorem readValue_number {n : Number} (hread : readLexeme n.text = some (n.text, []))
    (hfinite : finite n.text = true) (depth : ℕ) {more : Text} (hmore : Ends more) :
    readValue finite depth (n.text ++ more) = some (.number n, more) := by
  obtain ⟨c, rest, htext, hc⟩ := readLexeme_head hread
  obtain ⟨hblank, hno⟩ := isBlank_of_isDigit hc
  simp only [List.mem_cons, not_or] at hno
  have hall := extends_readLexeme n.text n.text [] more hmore hread
  have hself := n.ofText_text
  rw [htext, List.cons_append, List.nil_append] at hall
  rw [htext] at hfinite hself
  rw [htext, List.cons_append]
  obtain ⟨inner, -, hnode⟩ := readValue_cons finite hblank depth (rest ++ more)
  rw [hnode, readNode, if_neg hno.1, if_neg hno.2.1, if_neg hno.2.2.1, if_neg hno.2.2.2.1,
    if_neg hno.2.2.2.2.1, if_neg hno.2.2.2.2.2.1]
  simp only [hall, Option.bind_eq_bind, Option.bind_some, hfinite, if_true, hself]

/-- A string is read back. -/
theorem readValue_string (t : Text) (depth : ℕ) (more : Text) :
    readValue finite depth (quote t ++ more) = some (.string t, more) := by
  have hread := readString_escaped t more
  have htext : quote t ++ more = '"' :: (t.flatMap escapeChar ++ '"' :: more) := by
    simp [quote]
  obtain ⟨inner, -, hnode⟩ := readValue_cons finite (c := '"') rfl depth
    (t.flatMap escapeChar ++ '"' :: more)
  rw [htext, hnode, readNode, if_pos rfl, hread]
  rfl

/-- A field is its quoted key, a colon and its value. -/
theorem readField_write {value : Text → Option (Json × Text)} {f : Text × Json} {more : Text}
    (hvalue : value (f.2.write ++ more) = some (f.2, more)) :
    readField value (Json.writeField f ++ more) = some (f, more) := by
  obtain ⟨key, v⟩ := f
  have hkey := readString_escaped key (':' :: (v.write ++ more))
  have htext : Json.writeField (key, v) ++ more =
      '"' :: (key.flatMap escapeChar ++ '"' :: ':' :: (v.write ++ more)) := by
    simp [Json.writeField, quote]
  have hquote := skipWord_append ['"'] (key.flatMap escapeChar ++ '"' :: ':' :: (v.write ++ more))
  have hcolon := skipWord_append [':'] (v.write ++ more)
  rw [List.singleton_append] at hquote hcolon
  rw [htext, readField, skipBlanks_cons rfl]
  simp only [hquote, hkey, Option.bind_eq_bind, Option.bind_some]
  rw [skipBlanks_cons rfl]
  simp only [hcolon, hvalue, Option.bind_some]

theorem begins_writeField (f : Text × Json) : Begins '\x7d' (Json.writeField f) := by
  obtain ⟨key, v⟩ := f
  exact ⟨'"', _, rfl, rfl, by decide⟩

/-- By induction on the depth: what stands in an array or object is one level less deep. -/
theorem readValue_write {depth : ℕ} {v : Json} (hv : v.Readable finite depth) {more : Text}
    (hmore : Ends more) : readValue finite depth (v.write ++ more) = some (v, more) := by
  induction depth generalizing v more with
  | zero =>
    cases v with
    | null => rfl
    | bool b => cases b <;> rfl
    | number n => exact readValue_number hv.1 hv.2 0 hmore
    | string t => exact readValue_string t 0 more
    | array items => exact hv.elim
    | object fields => exact hv.elim
  | succ depth ih =>
    cases v with
    | null => rfl
    | bool b => cases b <;> rfl
    | number n => exact readValue_number hv.1 hv.2 _ hmore
    | string t => exact readValue_string t _ more
    | array items =>
      have hread : readList (readValue finite depth) ']' (Json.writeItems items ++ ']' :: more) =
          some (items, more) := by
        cases items with
        | nil => exact readList_nil rfl more
        | cons w ws =>
          rw [writeItems_cons]
          apply readList_cons rfl (by decide) (by decide)
          · exact begins_write (hv w (List.mem_cons_self ..)) (Or.inl rfl)
          · exact fun u hu rest hrest => ih (hv u hu) hrest
      have htext : (Json.array items).write ++ more =
          '[' :: (Json.writeItems items ++ ']' :: more) := by simp [Json.write]
      obtain ⟨inner, hinner, hnode⟩ := readValue_cons finite (c := '[') rfl (depth + 1)
        (Json.writeItems items ++ ']' :: more)
      rw [htext, hnode, readNode, if_neg (by decide), if_pos rfl, hinner depth rfl]
      simp only [hread, Option.bind_eq_bind, Option.bind_some]
    | object fields =>
      have hread : readList (readField (readValue finite depth)) '\x7d'
          (Json.writeFields fields ++ '\x7d' :: more) = some (fields, more) := by
        cases fields with
        | nil => exact readList_nil rfl more
        | cons f fs =>
          rw [writeFields_cons]
          apply readList_cons rfl (by decide) (by decide)
          · exact begins_writeField f
          · exact fun g hg rest hrest => readField_write (ih (hv g hg) hrest)
      have htext : (Json.object fields).write ++ more =
          '\x7b' :: (Json.writeFields fields ++ '\x7d' :: more) := by simp [Json.write]
      obtain ⟨inner, hinner, hnode⟩ := readValue_cons finite (c := '\x7b') rfl
        (depth + 1) (Json.writeFields fields ++ '\x7d' :: more)
      rw [htext, hnode, readNode, if_neg (by decide), if_neg (by decide), if_pos rfl,
        hinner depth rfl]
      simp only [hread, Option.bind_eq_bind, Option.bind_some]

/-- A value is read back from its text. -/
theorem fromStr_write {v : Json} (hv : v.Readable finite maxDepth) :
    fromStr finite v.write = some v := by
  have hread := readValue_write hv ends_nil
  rw [List.append_nil] at hread
  rw [fromStr, hread]
  rfl

end Values

example : (fromStr (fun _ => true) " \x7b\"a\" : [ -1.5e3 , \"\\u00e9\\/\" ] \x7d ".toList).bind
    (Json.get "a".toList) =
    some (.array [.number ⟨"-1.5e3".toList, by decide⟩, .string ['é', '/']]) := by rfl

end Hermod.JsonText
