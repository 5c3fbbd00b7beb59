import Hermod.TextLines

/-!
Markup as a browser cuts it into tokens. Text is read character by character, a reference
stands for the characters that it names, and what begins like a tag or a comment is read
to its end. The references with a name, the characters of references with a number and the
references within attributes are parameters. Elements whose content is read as plain text
are not told apart.
-/
namespace Hermod.Html

open TextLines (Text)

abbrev Attribute := Text × Text

inductive Token
  | char (c : Char)
  | startTag (name : Text) (attributes : List Attribute) (selfClosing : Bool)
  | endTag (name : Text)
  /-- Comments and declarations. -/
  | comment
  deriving DecidableEq

structure Tables where
  named : Text → Option Text
  numbered : ℕ → Char
  attributeValue : Text → Text

/-- Names are of letters and digits, perhaps with a semicolon, and stand for no more
characters than they have. References begin with an ampersand. -/
structure Tables.Lawful (T : Tables) : Prop where
  name : ∀ n r, T.named n = some r → ∀ c ∈ n, c.isAlphanum = true ∨ c = ';'
  shorter : ∀ n r, T.named n = some r → r.length ≤ n.length
  attributeValue : ∀ v, '&' ∉ v → T.attributeValue v = v

/-! Line ends. -/

/-- A carriage return ends a line, with a newline behind it or not. -/
def normaliseFrom : Bool → Text → Text
  | _, [] => []
  | afterReturn, c :: s =>
    if c = '\r' then '\n' :: normaliseFrom true s
    else if c = '\n' ∧ afterReturn = true then normaliseFrom false s
    else c :: normaliseFrom false s

def normalise (s : Text) : Text := normaliseFrom false s

/-! Tags. -/

def isSpace (c : Char) : Bool := c = ' ' || c = '\t' || c = '\n' || c = '\x0c'

inductive TagState
  | beforeAttribute
  | attributeName (name : Text)
  | afterAttributeName (name : Text)
  | beforeValue (name : Text)
  | quoted (name : Text) (quote : Char) (value : Text)
  | unquoted (name value : Text)
  | afterQuoted
  | selfClosing

inductive Progress
  | goOn (state : TagState) (attributes : List Attribute)
  | done (selfClosing : Bool) (attributes : List Attribute)

section Reading

variable (T : Tables)

/-- The first attribute of a name counts. -/
def add (attributes : List Attribute) (name value : Text) : List Attribute :=
  if attributes.any (·.1 = name) then attributes
  else attributes ++ [(name, T.attributeValue value)]

def beginAttribute (attributes : List Attribute) (c : Char) : Progress :=
  if isSpace c then .goOn .beforeAttribute attributes
  else if c = '/' then .goOn .selfClosing attributes
  else if c = '>' then .done false attributes
  else .goOn (.attributeName [c.toLower]) attributes

def tagStep (attributes : List Attribute) (state : TagState) (c : Char) : Progress :=
  match state with
  | .beforeAttribute | .afterQuoted => beginAttribute attributes c
  | .attributeName name =>
    if isSpace c then .goOn (.afterAttributeName name) attributes
    else if c = '=' then .goOn (.beforeValue name) attributes
    else if c = '/' then .goOn .selfClosing (add T attributes name [])
    else if c = '>' then .done false (add T attributes name [])
    else .goOn (.attributeName (name ++ [c.toLower])) attributes
  | .afterAttributeName name =>
    if isSpace c then .goOn (.afterAttributeName name) attributes
    else if c = '=' then .goOn (.beforeValue name) attributes
    else beginAttribute (add T attributes name []) c
  | .beforeValue name =>
    if isSpace c then .goOn (.beforeValue name) attributes
    else if c = '"' ∨ c = '\'' then .goOn (.quoted name c []) attributes
    else if c = '>' then .done false (add T attributes name [])
    else .goOn (.unquoted name [c]) attributes
  | .quoted name quote value =>
    if c = quote then .goOn .afterQuoted (add T attributes name value)
    else .goOn (.quoted name quote (value ++ [c])) attributes
  | .unquoted name value =>
    if isSpace c then .goOn .beforeAttribute (add T attributes name value)
    else if c = '>' then .done false (add T attributes name value)
    else .goOn (.unquoted name (value ++ [c])) attributes
  | .selfClosing => if c = '>' then .done true attributes else beginAttribute attributes c

def readAttributes : TagState → List Attribute → Text → Option (List Attribute × Bool × Text)
  | _, _, [] => none
  | state, attributes, c :: s =>
    match tagStep T attributes state c with
    | .goOn state attributes => readAttributes state attributes s
    | .done selfClosing attributes => some (attributes, selfClosing, s)

def isTagNameChar (c : Char) : Bool := !isSpace c && c ≠ '/' && c ≠ '>'

/-- A tag from its name on. A tag that does not end is not read at all, nor is anything
behind it. -/
def readTag (tag : Text → List Attribute → Bool → Token) (s : Text) : List Token × Text :=
  match readAttributes T .beforeAttribute [] (s.dropWhile isTagNameChar) with
  | some (attributes, selfClosing, rest) =>
    ([tag ((s.takeWhile isTagNameChar).map Char.toLower) attributes selfClosing], rest)
  | none => ([], [])

/-! Comments. -/

def afterGreater (s : Text) : Text := (s.dropWhile (· ≠ '>')).drop 1

def afterComment : Text → Text
  | [] => []
  | c :: s =>
    if ("-->".toList).isPrefixOf (c :: s) then s.drop 2
    else if ("--!>".toList).isPrefixOf (c :: s) then s.drop 3
    else afterComment s

def afterDeclaration (s : Text) : Text :=
  if ("-->".toList).isPrefixOf s then s.drop 3
  else if ("--->".toList).isPrefixOf s then s.drop 4
  else if ("--".toList).isPrefixOf s then afterComment (s.drop 2)
  else afterGreater s

/-! References. -/

def longestName (read : Text) : Text → Option (Text × Text)
  | [] => none
  | c :: s =>
    (longestName (read ++ [c]) s).or ((T.named (read ++ [c])).map fun r => (read ++ [c], r))

def isHexDigit (c : Char) : Bool :=
  c.isDigit || ('a' ≤ c && c ≤ 'f') || ('A' ≤ c && c ≤ 'F')

def hexDigit (c : Char) : ℕ :=
  if c.isDigit then c.toNat - '0'.toNat else c.toLower.toNat - 'a'.toNat + 10

def number (base : ℕ) (digits : Text) : ℕ := digits.foldl (fun n c => n * base + hexDigit c) 0

/-- A number of digits, perhaps with a semicolon: its character, and how much it takes. -/
def readNumber (base : ℕ) (isDigit : Char → Bool) (s : Text) : Option (Text × ℕ) :=
  let digits := s.takeWhile isDigit
  if digits = [] then none
  else some ([T.numbered (number base digits)],
    digits.length + if (s.drop digits.length).head? = some ';' then 1 else 0)

def numericReference (s : Text) : Option (Text × ℕ) :=
  if s.head? = some 'x' ∨ s.head? = some 'X' then
    (readNumber T 16 isHexDigit (s.drop 1)).map fun r => (r.1, r.2 + 1)
  else readNumber T 10 Char.isDigit s

def reference (s : Text) : Option (Text × ℕ) :=
  if s.head? = some '#' then (numericReference T (s.drop 1)).map fun r => (r.1, r.2 + 1)
  else (longestName T [] s).map fun m => (m.2, m.1.length)

/-! Tokens. -/

def readEnd : Text → List Token × Text
  | [] => ([.char '<', .char '/'], [])
  | c :: s =>
    if c.isAlpha then readTag T (fun name _ _ => .endTag name) (c :: s)
    else if c = '>' then ([], s)
    else ([.comment], afterGreater (c :: s))

def readMarkup : Text → List Token × Text
  | [] => ([.char '<'], [])
  | c :: s =>
    if c.isAlpha then readTag T .startTag (c :: s)
    else if c = '/' then readEnd T s
    else if c = '!' then ([.comment], afterDeclaration s)
    else if c = '?' then ([.comment], afterGreater s)
    else ([.char '<'], c :: s)

/-- The tokens that a character begins, and what is left. Null characters are left out. -/
def next (c : Char) (s : Text) : List Token × Text :=
  if c = '<' then readMarkup T s
  else if c = '&' then
    match reference T s with
    | some (r, taken) => (r.map .char, s.drop taken)
    | none => ([.char '&'], s)
  else if c = '\x00' then ([], s)
  else ([.char c], s)

end Reading

/-! What is left gets shorter. -/

section Lengths

variable {T : Tables}

theorem length_readAttributes {state : TagState} {attributes : List Attribute} {s rest : Text}
    {read : List Attribute} {selfClosing : Bool}
    (h : readAttributes T state attributes s = some (read, selfClosing, rest)) :
    rest.length < s.length := by
  induction s generalizing state attributes with
  | nil => simp [readAttributes] at h
  | cons c s ih =>
    rw [readAttributes] at h
    split at h
    · have hlt := ih h
      rw [List.length_cons]
      omega
    · simp only [Option.some.injEq, Prod.mk.injEq] at h
      rw [← h.2.2, List.length_cons]
      omega

/-- A tag is one token, or takes all that is left. -/
theorem readTag_cases (tag : Text → List Attribute → Bool → Token) (c : Char) (s : Text) :
    (∃ name attributes selfClosing rest, rest.length ≤ s.length ∧
        readTag T tag (c :: s) = ([tag name attributes selfClosing], rest)) ∨
      readTag T tag (c :: s) = ([], []) := by
  unfold readTag
  split
  · rename_i attributes selfClosing rest h
    refine Or.inl ⟨_, attributes, selfClosing, rest, ?_, rfl⟩
    have hlt := length_readAttributes h
    have hle := (List.dropWhile_suffix (l := c :: s) isTagNameChar).length_le
    rw [List.length_cons] at hle
    omega
  · exact Or.inr rfl

theorem length_readTag (tag : Text → List Attribute → Bool → Token) (c : Char) (s : Text) :
    (readTag T tag (c :: s)).2.length ≤ s.length := by
  rcases readTag_cases (T := T) tag c s with ⟨name, attributes, selfClosing, rest, hle, h⟩ | h
  · rw [h]
    exact hle
  · rw [h]
    exact Nat.zero_le _

theorem length_afterGreater (s : Text) : (afterGreater s).length ≤ s.length := by
  have hle := (List.dropWhile_suffix (l := s) (· ≠ '>')).length_le
  unfold afterGreater
  rw [List.length_drop]
  omega

theorem length_afterComment (s : Text) : (afterComment s).length ≤ s.length := by
  induction s with
  | nil => exact Nat.le_refl _
  | cons c s ih =>
    unfold afterComment
    split
    · rw [List.length_drop, List.length_cons]
      omega
    · split
      · rw [List.length_drop, List.length_cons]
        omega
      · rw [List.length_cons]
        omega

theorem length_afterDeclaration (s : Text) : (afterDeclaration s).length ≤ s.length := by
  unfold afterDeclaration
  split
  · rw [List.length_drop]
    omega
  · split
    · rw [List.length_drop]
      omega
    · split
      · have hle := length_afterComment (s.drop 2)
        rw [List.length_drop] at hle
        omega
      · exact length_afterGreater s

theorem length_readEnd (s : Text) : (readEnd T s).2.length ≤ s.length := by
  cases s with
  | nil => exact Nat.le_refl _
  | cons c s =>
    rw [readEnd]
    split
    · have hle := length_readTag (T := T) (fun name _ _ => .endTag name) c s
      rw [List.length_cons]
      omega
    · split
      · exact Nat.le_succ _
      · exact length_afterGreater (c :: s)

/-- Reading markup goes forward, so the tokenizer ends. -/
theorem length_readMarkup (s : Text) : (readMarkup T s).2.length ≤ s.length := by
  cases s with
  | nil => exact Nat.le_refl _
  | cons c s =>
    have hend := length_readEnd (T := T) s
    have htag := length_readTag (T := T) .startTag c s
    have hdeclaration := length_afterDeclaration s
    have hgreater := length_afterGreater s
    rw [readMarkup, List.length_cons]
    split
    · omega
    · split
      · omega
      · split
        · exact Nat.le_succ_of_le hdeclaration
        · split
          · exact Nat.le_succ_of_le hgreater
          · exact Nat.le_refl _

theorem length_next (c : Char) (s : Text) : (next T c s).2.length ≤ s.length := by
  unfold next
  split
  · exact length_readMarkup s
  · split
    · split
      · rw [List.length_drop]
        omega
      · exact Nat.le_refl _
    · split
      · exact Nat.le_refl _
      · exact Nat.le_refl _

end Lengths

def tokens (T : Tables) : Text → List Token
  | [] => []
  | c :: s => (next T c s).1 ++ tokens T (next T c s).2
termination_by s => s.length
decreasing_by
  have hle := length_next (T := T) c s
  rw [List.length_cons]
  omega

/-! Texts in which there is nothing but characters. -/

def Opens (c : Char) : Prop := c.isAlpha = true ∨ c = '/' ∨ c = '!' ∨ c = '?'

instance (c : Char) : Decidable (Opens c) := inferInstanceAs (Decidable (_ ∨ _))

/-- The text has no null character, no `<` that begins a tag or a comment and no `&` that
begins a reference. -/
def Clean (T : Tables) : Text → Prop
  | [] => True
  | c :: s =>
    c ≠ '\x00' ∧ (c = '<' → ∀ d ∈ s.head?, ¬ Opens d) ∧ (c = '&' → reference T s = none) ∧
      Clean T s

def leading (ts : List Token) : ℕ := (ts.takeWhile fun t => t matches .char _).length

@[simp] theorem leading_nil : leading [] = 0 := rfl

@[simp] theorem leading_char (c : Char) (ts : List Token) :
    leading (.char c :: ts) = leading ts + 1 := rfl

@[simp] theorem leading_startTag (n : Text) (as : List Attribute) (b : Bool) (ts : List Token) :
    leading (.startTag n as b :: ts) = 0 := rfl

@[simp] theorem leading_endTag (n : Text) (ts : List Token) : leading (.endTag n :: ts) = 0 := rfl

@[simp] theorem leading_comment (ts : List Token) : leading (.comment :: ts) = 0 := rfl

theorem leading_chars (s : Text) (ts : List Token) :
    leading (s.map .char ++ ts) = s.length + leading ts := by
  induction s with
  | nil => simp
  | cons c s ih =>
    rw [List.map_cons, List.cons_append, leading_char, ih, List.length_cons]
    omega

section Texts

variable {T : Tables}

@[simp] theorem tokens_nil : tokens T [] = [] := by rw [tokens]

theorem tokens_cons (c : Char) (s : Text) :
    tokens T (c :: s) = (next T c s).1 ++ tokens T (next T c s).2 := by rw [tokens]

/-- Within a tag there is no text. -/
theorem leading_readTag {tag : Text → List Attribute → Bool → Token}
    (htag : ∀ n as b ts, leading (tag n as b :: ts) = 0) (c : Char) (s : Text) :
    leading ((readTag T tag (c :: s)).1 ++ tokens T (readTag T tag (c :: s)).2) = 0 := by
  rcases readTag_cases (T := T) tag c s with ⟨name, attributes, selfClosing, rest, -, h⟩ | h
  · rw [h]
    exact htag _ _ _ _
  · rw [h]
    simp

theorem leading_endTag_text {c : Char} (hc : c.isAlpha = true) (s : Text) :
    leading (tokens T ('<' :: '/' :: c :: s)) = 0 := by
  have hnext : next T '<' ('/' :: c :: s) = readTag T (fun name _ _ => .endTag name) (c :: s) := by
    have hslash : Char.isAlpha '/' = false := by decide
    simp [next, readMarkup, readEnd, hc, hslash]
  rw [tokens_cons, hnext]
  exact leading_readTag (fun _ _ _ _ => rfl) c s

/-- References end in front of `<`. -/
theorem takeWhile_append_less {p : Char → Bool} (hp : p '<' = false) (s z : Text) :
    (s ++ '<' :: z).takeWhile p = s.takeWhile p := by
  induction s with
  | nil => simp [hp]
  | cons c s ih =>
    rw [List.cons_append, List.takeWhile_cons, List.takeWhile_cons, ih]

/-- A reference with a number ends before the next tag. -/
theorem readNumber_append {base : ℕ} {isDigit : Char → Bool} (hdigit : isDigit '<' = false)
    (s z : Text) : readNumber T base isDigit (s ++ '<' :: z) = readNumber T base isDigit s := by
  have hle : (s.takeWhile isDigit).length ≤ s.length := (List.takeWhile_prefix _).length_le
  have hhead : ((s ++ '<' :: z).drop (s.takeWhile isDigit).length).head? = some ';' ↔
      (s.drop (s.takeWhile isDigit).length).head? = some ';' := by
    rw [List.drop_append_of_le_length hle, List.head?_append]
    cases (s.drop (s.takeWhile isDigit).length).head? with
    | none => simp
    | some c => simp
  unfold readNumber
  rw [takeWhile_append_less hdigit]
  simp only [hhead]

theorem readNumber_le {base : ℕ} {isDigit : Char → Bool} {s r : Text} {taken : ℕ}
    (h : readNumber T base isDigit s = some (r, taken)) : r.length ≤ taken ∧ taken ≤ s.length := by
  unfold readNumber at h
  simp only at h
  split at h
  · cases h
  · rename_i hne
    have hpos : 0 < (s.takeWhile isDigit).length := List.length_pos_of_ne_nil hne
    have hle : (s.takeWhile isDigit).length ≤ s.length := (List.takeWhile_prefix _).length_le
    rw [Option.some.injEq, Prod.mk.injEq] at h
    obtain ⟨rfl, rfl⟩ := h
    split
    · rename_i hsemi
      have hmore : (s.drop (s.takeWhile isDigit).length) ≠ [] := by
        intro hnil
        rw [hnil] at hsemi
        cases hsemi
      have hlen : 0 < (s.drop (s.takeWhile isDigit).length).length :=
        List.length_pos_of_ne_nil hmore
      rw [List.length_drop] at hlen
      exact ⟨by simp, by omega⟩
    · exact ⟨hpos, by omega⟩

theorem longestName_eq_none (hT : T.Lawful) {read : Text} (hread : '<' ∈ read) (s : Text) :
    longestName T read s = none := by
  induction s generalizing read with
  | nil => rfl
  | cons c s ih =>
    have hmem : '<' ∈ read ++ [c] := List.mem_append_left _ hread
    have hnone : T.named (read ++ [c]) = none := by
      cases hname : T.named (read ++ [c]) with
      | none => rfl
      | some r => exact absurd (hT.name _ r hname '<' hmem) (by decide)
    rw [longestName, ih hmem, hnone]
    rfl

/-- A reference with a name ends before the next tag. -/
theorem longestName_append (hT : T.Lawful) (read s z : Text) :
    longestName T read (s ++ '<' :: z) = longestName T read s := by
  induction s generalizing read with
  | nil =>
    have hmem : '<' ∈ read ++ ['<'] := by simp
    have hnone : T.named (read ++ ['<']) = none := by
      cases hname : T.named (read ++ ['<']) with
      | none => rfl
      | some r => exact absurd (hT.name _ r hname '<' hmem) (by decide)
    have hrest := longestName_eq_none hT hmem z
    rw [List.nil_append]
    simp [longestName, hrest, hnone]
  | cons c s ih => rw [List.cons_append, longestName, longestName, ih]

/-- What is found is a name of the tables, no longer than the text. -/
theorem longestName_spec {read s n r : Text} (h : longestName T read s = some (n, r)) :
    T.named n = some r ∧ n.length ≤ read.length + s.length := by
  induction s generalizing read with
  | nil => cases h
  | cons c s ih =>
    rw [longestName, Option.or_eq_some_iff] at h
    rcases h with h | ⟨-, h⟩
    · obtain ⟨hname, hlen⟩ := ih h
      rw [List.length_append, List.length_singleton] at hlen
      rw [List.length_cons]
      exact ⟨hname, by omega⟩
    · obtain ⟨r', hname, heq⟩ := Option.map_eq_some_iff.mp h
      rw [Prod.mk.injEq] at heq
      obtain ⟨rfl, rfl⟩ := heq
      rw [List.length_append, List.length_singleton, List.length_cons]
      exact ⟨hname, by omega⟩

theorem head?_append_less (s z : Text) {c : Char} (hc : c ≠ '<') :
    (s ++ '<' :: z).head? = some c ↔ s.head? = some c := by
  cases s with
  | nil => simp [hc.symm]
  | cons d s => simp

theorem numericReference_append (s z : Text) :
    numericReference T (s ++ '<' :: z) = numericReference T s := by
  unfold numericReference
  simp only [head?_append_less s z (show 'x' ≠ '<' by decide),
    head?_append_less s z (show 'X' ≠ '<' by decide)]
  split
  · rename_i hx
    cases s with
    | nil => simp at hx
    | cons d s =>
      rw [List.cons_append, List.drop_succ_cons, List.drop_zero, List.drop_succ_cons,
        List.drop_zero, readNumber_append (by decide)]
  · rw [readNumber_append (by decide)]

/-- What a reference is does not depend on the text behind the next `<`. -/
theorem reference_append (hT : T.Lawful) (s z : Text) :
    reference T (s ++ '<' :: z) = reference T s := by
  unfold reference
  simp only [head?_append_less s z (show '#' ≠ '<' by decide)]
  split
  · rename_i hsharp
    cases s with
    | nil => simp at hsharp
    | cons d s =>
      rw [List.cons_append, List.drop_succ_cons, List.drop_zero, List.drop_succ_cons,
        List.drop_zero, numericReference_append]
  · rw [longestName_append hT]

theorem numericReference_le {s r : Text} {taken : ℕ} (h : numericReference T s = some (r, taken)) :
    r.length ≤ taken ∧ taken ≤ s.length := by
  unfold numericReference at h
  split at h
  · rename_i hx
    obtain ⟨⟨r', taken'⟩, hread, heq⟩ := Option.map_eq_some_iff.mp h
    have hle := readNumber_le hread
    rw [List.length_drop] at hle
    rw [Prod.mk.injEq] at heq
    obtain ⟨rfl, rfl⟩ := heq
    have hpos : 0 < s.length :=
      hx.elim (fun h => List.length_pos_of_mem (List.mem_of_head? h))
        fun h => List.length_pos_of_mem (List.mem_of_head? h)
    exact ⟨Nat.le_succ_of_le hle.1, by omega⟩
  · exact readNumber_le h

/-- A reference stands for no more characters than it takes. -/
theorem reference_le (hT : T.Lawful) {s r : Text} {taken : ℕ}
    (h : reference T s = some (r, taken)) : r.length ≤ taken ∧ taken ≤ s.length := by
  unfold reference at h
  split at h
  · rename_i hsharp
    obtain ⟨⟨r', taken'⟩, hread, heq⟩ := Option.map_eq_some_iff.mp h
    have hle := numericReference_le hread
    rw [List.length_drop] at hle
    rw [Prod.mk.injEq] at heq
    obtain ⟨rfl, rfl⟩ := heq
    have hpos : 0 < s.length := List.length_pos_of_mem (List.mem_of_head? hsharp)
    exact ⟨Nat.le_succ_of_le hle.1, by omega⟩
  · obtain ⟨⟨n, r'⟩, hlong, heq⟩ := Option.map_eq_some_iff.mp h
    obtain ⟨hname, hlen⟩ := longestName_spec hlong
    have hshort := hT.shorter n r' hname
    rw [Prod.mk.injEq] at heq
    obtain ⟨rfl, rfl⟩ := heq
    rw [List.length_nil, Nat.zero_add] at hlen
    exact ⟨hshort, hlen⟩

/-- Markup that begins within the text is read as fewer characters than it has. -/
theorem leading_readMarkup {z : Text} {d : Char} (hd : Opens d) {w : Text}
    (hle : ∀ v : Text, v.length < w.length →
      leading (tokens T (v ++ '<' :: z)) ≤ v.length) :
    leading ((readMarkup T (d :: (w ++ '<' :: z))).1 ++
      tokens T (readMarkup T (d :: (w ++ '<' :: z))).2) ≤ w.length := by
  rw [readMarkup]
  by_cases halpha : d.isAlpha = true
  · rw [if_pos halpha, leading_readTag (fun _ _ _ _ => rfl)]
    exact Nat.zero_le _
  · rw [if_neg halpha]
    rcases hd with hd | rfl | rfl | rfl
    · exact absurd hd halpha
    · rw [if_pos rfl]
      cases w with
      | nil =>
        have hcomment : (readEnd T ([] ++ '<' :: z)).1 = [.comment] := by
          have hless : Char.isAlpha '<' = false := by decide
          simp [readEnd, hless]
        rw [hcomment]
        exact Nat.zero_le _
      | cons f w =>
        rw [List.cons_append, readEnd]
        split
        · rw [leading_readTag (fun _ _ _ _ => rfl)]
          exact Nat.zero_le _
        · split
          · have hrest := hle w (by simp)
            rw [List.nil_append, List.length_cons]
            exact Nat.le_succ_of_le hrest
          · exact Nat.zero_le _
    · exact Nat.zero_le _
    · exact Nat.zero_le _

theorem readMarkup_of_not_opens {d : Char} (hd : ¬ Opens d) (s : Text) :
    readMarkup T (d :: s) = ([.char '<'], d :: s) := by
  unfold Opens at hd
  rw [not_or, not_or, not_or] at hd
  rw [readMarkup, if_neg hd.1, if_neg hd.2.1, if_neg hd.2.2.1, if_neg hd.2.2.2]

/-- A character is read as itself, which leaves it to the rest whether the text is clean, or
the text is not clean and fewer characters are read than there are. -/
theorem next_text (hT : T.Lawful) (c : Char) (w : Text) {z : Text}
    (hle : ∀ v : Text, v.length ≤ w.length →
      leading (tokens T (v ++ '<' :: z)) ≤ v.length) :
    (next T c (w ++ '<' :: z) = ([.char c], w ++ '<' :: z) ∧ (Clean T (c :: w) ↔ Clean T w)) ∨
      (¬ Clean T (c :: w) ∧
        leading ((next T c (w ++ '<' :: z)).1 ++ tokens T (next T c (w ++ '<' :: z)).2) ≤
          w.length) := by
  by_cases hless : c = '<'
  · subst hless
    cases w with
    | nil =>
      refine Or.inl ⟨?_, by simp [Clean]⟩
      rw [next, if_pos rfl]
      exact readMarkup_of_not_opens (by decide) _
    | cons d w =>
      by_cases hd : Opens d
      · refine Or.inr ⟨fun h => h.2.1 rfl d rfl hd, ?_⟩
        have hfew := leading_readMarkup (z := z) hd (w := w)
          fun v hv => hle v (by rw [List.length_cons]; omega)
        rw [List.length_cons]
        exact Nat.le_succ_of_le hfew
      · refine Or.inl ⟨?_, by simp [Clean, hd]⟩
        rw [next, if_pos rfl]
        exact readMarkup_of_not_opens hd _
  · by_cases hamp : c = '&'
    · subst hamp
      have href := reference_append hT w z
      cases hw : reference T w with
      | none =>
        refine Or.inl ⟨?_, by simp [Clean, hw]⟩
        simp [next, href, hw]
      | some r =>
        obtain ⟨r, taken⟩ := r
        obtain ⟨hshort, hwithin⟩ := reference_le hT hw
        have hdirty : ¬ Clean T ('&' :: w) := by
          intro h
          rw [h.2.2.1 rfl] at hw
          cases hw
        refine Or.inr ⟨hdirty, ?_⟩
        have hnext : next T '&' (w ++ '<' :: z) = (r.map .char, w.drop taken ++ '<' :: z) := by
          rw [← List.drop_append_of_le_length hwithin]
          simp [next, href, hw]
        have hrest := hle (w.drop taken) (by rw [List.length_drop]; omega)
        rw [List.length_drop] at hrest
        rw [hnext, leading_chars]
        dsimp only
        omega
    · by_cases hnull : c = '\x00'
      · refine Or.inr ⟨fun h => h.1 hnull, ?_⟩
        have hrest := hle w (Nat.le_refl _)
        rw [next, if_neg hless, if_neg hamp, if_pos hnull]
        exact hrest
      · refine Or.inl ⟨?_, by simp [Clean, hless, hamp, hnull]⟩
        rw [next, if_neg hless, if_neg hamp, if_neg hnull]

/-- Text in front of an end tag is read as its characters if it is clean, and as fewer of
them if it is not. -/
theorem tokens_text (hT : T.Lawful) {e : Char} (he : e.isAlpha = true) (z w : Text) :
    (Clean T w → tokens T (w ++ '<' :: '/' :: e :: z) =
        w.map .char ++ tokens T ('<' :: '/' :: e :: z)) ∧
      (¬ Clean T w → leading (tokens T (w ++ '<' :: '/' :: e :: z)) < w.length) := by
  induction hlen : w.length using Nat.strongRecOn generalizing w with
  | _ n ih =>
    have hend := leading_endTag_text (T := T) he z
    have hle : ∀ v : Text, v.length < n →
        leading (tokens T (v ++ '<' :: '/' :: e :: z)) ≤ v.length := by
      intro v hv
      obtain ⟨hclean, hdirty⟩ := ih v.length hv v rfl
      by_cases h : Clean T v
      · rw [hclean h, leading_chars, hend]
        exact Nat.le_refl _
      · exact Nat.le_of_lt (hdirty h)
    cases w with
    | nil => exact ⟨fun _ => rfl, fun h => absurd trivial h⟩
    | cons c w =>
      rw [List.length_cons] at hlen
      obtain ⟨hclean, hdirty⟩ := ih w.length (by omega) w rfl
      rw [List.cons_append, tokens_cons]
      rcases next_text hT c w (z := '/' :: e :: z) (fun v hv => hle v (by omega)) with
        ⟨hnext, hiff⟩ | ⟨hnot, hfew⟩
      · rw [hnext, hiff]
        refine ⟨fun h => by rw [hclean h]; rfl, fun h => ?_⟩
        have hlt := hdirty h
        rw [List.singleton_append, leading_char]
        dsimp only
        omega
      · exact ⟨fun h => absurd h hnot, fun _ => by omega⟩

/-! Tags that are written plainly. -/

def openTag (name : Text) : Text := '<' :: name ++ ['>']

def closeTag (name : Text) : Text := '<' :: '/' :: name ++ ['>']

def openTagWith (name key value : Text) : Text :=
  '<' :: name ++ ' ' :: key ++ '=' :: '"' :: value ++ ['"', '>']

structure IsTagName (name : Text) : Prop where
  head : ∃ c n, name = c :: n ∧ c.isAlpha = true
  plain : ∀ c ∈ name, isTagNameChar c = true ∧ c.toLower = c ∧ isSpace c = false ∧ c ≠ '='

theorem isTagName_of_check {name : Text} (hhead : name.head?.any Char.isAlpha = true)
    (hplain : ∀ c ∈ name, isTagNameChar c = true ∧ c.toLower = c ∧ isSpace c = false ∧ c ≠ '=') :
    IsTagName name := by
  refine ⟨?_, hplain⟩
  cases name with
  | nil => simp at hhead
  | cons c n => exact ⟨c, n, rfl, by simpa using hhead⟩

theorem map_toLower_eq {name : Text} (hname : IsTagName name) : name.map Char.toLower = name := by
  have hid : name.map Char.toLower = name.map id :=
    List.map_congr_left fun c hc => (hname.plain c hc).2.1
  rw [hid, List.map_id]

/-- A plain name is read up to the character behind it. -/
theorem readTag_plain {name : Text} (hname : IsTagName name) {c : Char}
    (hc : isTagNameChar c = false) (tag : Text → List Attribute → Bool → Token) (s : Text) :
    readTag T tag (name ++ c :: s) =
      match readAttributes T .beforeAttribute [] (c :: s) with
      | some (attributes, selfClosing, rest) => ([tag name attributes selfClosing], rest)
      | none => ([], []) := by
  have hpos : ∀ d ∈ name, isTagNameChar d = true := fun d hd => (hname.plain d hd).1
  have htake : (name ++ c :: s).takeWhile isTagNameChar = name := by
    rw [List.takeWhile_append_of_pos hpos]
    simp [hc]
  have hdrop : (name ++ c :: s).dropWhile isTagNameChar = c :: s := by
    rw [List.dropWhile_append_of_pos hpos]
    simp [hc]
  rw [readTag, htake, hdrop, map_toLower_eq hname]

theorem readAttributes_greater (attributes : List Attribute) (s : Text) :
    readAttributes T .beforeAttribute attributes ('>' :: s) = some (attributes, false, s) := by
  have hspace : isSpace '>' = false := by decide
  simp [readAttributes, tagStep, beginAttribute, hspace]

theorem readMarkup_startTag {name : Text} (hname : IsTagName name) (s : Text) :
    readMarkup T (name ++ s) = readTag T .startTag (name ++ s) := by
  obtain ⟨c, n, rfl, hc⟩ := hname.head
  rw [List.cons_append, readMarkup, if_pos hc]

theorem tokens_openTag {name : Text} (hname : IsTagName name) (s : Text) :
    tokens T (openTag name ++ s) = .startTag name [] false :: tokens T s := by
  have hnext : next T '<' (name ++ '>' :: s) = ([.startTag name [] false], s) := by
    rw [next, if_pos rfl, readMarkup_startTag hname, readTag_plain hname (by decide),
      readAttributes_greater]
  have hsplit : openTag name ++ s = '<' :: (name ++ '>' :: s) := by simp [openTag]
  rw [hsplit, tokens_cons, hnext]
  rfl

theorem tokens_closeTag {name : Text} (hname : IsTagName name) (s : Text) :
    tokens T (closeTag name ++ s) = .endTag name :: tokens T s := by
  have hslash : Char.isAlpha '/' = false := by decide
  have hend : readEnd T (name ++ '>' :: s) =
      readTag T (fun name _ _ => .endTag name) (name ++ '>' :: s) := by
    obtain ⟨c, n, rfl, hc⟩ := hname.head
    rw [List.cons_append, readEnd, if_pos hc]
  have hnext : next T '<' ('/' :: (name ++ '>' :: s)) = ([.endTag name], s) := by
    have hread : readEnd T (name ++ '>' :: s) = ([.endTag name], s) := by
      rw [hend, readTag_plain hname (by decide), readAttributes_greater]
    simp [next, readMarkup, hslash, hread]
  have hsplit : closeTag name ++ s = '<' :: '/' :: (name ++ '>' :: s) := by simp [closeTag]
  rw [hsplit, tokens_cons, hnext]
  rfl

/-- A value is read up to its closing quote. -/
theorem readAttributes_quoted {quote : Char} {value : Text} (hvalue : quote ∉ value)
    (attributes : List Attribute) (name read s : Text) :
    readAttributes T (.quoted name quote read) attributes (value ++ quote :: s) =
      readAttributes T .afterQuoted (add T attributes name (read ++ value)) s := by
  induction value generalizing read with
  | nil => simp [readAttributes, tagStep]
  | cons c value ih =>
    have hne : c ≠ quote := fun h => hvalue (h ▸ List.mem_cons_self ..)
    have hrest := ih (fun h => hvalue (List.mem_cons_of_mem c h)) (read ++ [c])
    simpa [readAttributes, tagStep, hne] using hrest

theorem readAttributes_name {name : Text} (hname : IsTagName name) (attributes : List Attribute)
    (read s : Text) :
    readAttributes T (.attributeName read) attributes (name ++ '=' :: s) =
      readAttributes T (.beforeValue (read ++ name)) attributes s := by
  have hplain := hname.plain
  clear hname
  induction name generalizing read with
  | nil =>
    have hspace : isSpace '=' = false := by decide
    simp [readAttributes, tagStep, hspace]
  | cons c name ih =>
    obtain ⟨hchar, hlower, hspace, hequals⟩ := hplain c (List.mem_cons_self ..)
    rw [isTagNameChar, hspace] at hchar
    have hsplit : c ≠ '/' ∧ c ≠ '>' := by simpa using hchar
    have hrest := ih (read ++ [c]) fun d hd => hplain d (List.mem_cons_of_mem c hd)
    simpa [readAttributes, tagStep, hspace, hequals, hsplit.1, hsplit.2, hlower] using hrest

/-- A tag with an attribute whose value has no quote. -/
theorem tokens_openTagWith {name key : Text} (hname : IsTagName name)
    (hkey : IsTagName key) {value : Text} (hvalue : '"' ∉ value) (s : Text) :
    tokens T (openTagWith name key value ++ s) =
      .startTag name [(key, T.attributeValue value)] false :: tokens T s := by
  have hspace : isSpace ' ' = true := by decide
  have hquote : isSpace '"' = false := by decide
  have hgreater : isSpace '>' = false := by decide
  have hread : readAttributes T .beforeAttribute []
      (' ' :: (key ++ '=' :: '"' :: (value ++ '"' :: '>' :: s))) =
        some ([(key, T.attributeValue value)], false, s) := by
    obtain ⟨c, n, rfl, hc⟩ := hkey.head
    obtain ⟨hchar, hlower, hcspace, hequals⟩ := hkey.plain c (List.mem_cons_self ..)
    rw [isTagNameChar, hcspace] at hchar
    have hsplit : c ≠ '/' ∧ c ≠ '>' := by simpa using hchar
    have hfirst : readAttributes T .beforeAttribute []
        (' ' :: (c :: n ++ '=' :: '"' :: (value ++ '"' :: '>' :: s))) =
          readAttributes T (.attributeName []) []
            (c :: n ++ '=' :: '"' :: (value ++ '"' :: '>' :: s)) := by
      simp [readAttributes, tagStep, beginAttribute, hspace, hcspace, hequals, hsplit.1, hsplit.2,
        hlower]
    have hvalues : readAttributes T (.beforeValue (c :: n)) []
        ('"' :: (value ++ '"' :: '>' :: s)) =
          readAttributes T (.quoted (c :: n) '"' []) [] (value ++ '"' :: '>' :: s) := by
      simp [readAttributes, tagStep, hquote]
    have hlast : readAttributes T .afterQuoted [(c :: n, T.attributeValue value)] ('>' :: s) =
        some ([(c :: n, T.attributeValue value)], false, s) := by
      simp [readAttributes, tagStep, beginAttribute, hgreater]
    rw [hfirst, readAttributes_name hkey, List.nil_append, hvalues, readAttributes_quoted hvalue,
      List.nil_append, ← hlast]
    rfl
  have hnext : next T '<' (name ++ ' ' :: (key ++ '=' :: '"' :: (value ++ '"' :: '>' :: s))) =
      ([.startTag name [(key, T.attributeValue value)] false], s) := by
    rw [next, if_pos rfl, readMarkup_startTag hname, readTag_plain hname (by decide), hread]
  have hsplit : openTagWith name key value ++ s =
      '<' :: (name ++ ' ' :: (key ++ '=' :: '"' :: (value ++ '"' :: '>' :: s))) := by
    simp [openTagWith]
  rw [hsplit, tokens_cons, hnext]
  rfl

end Texts

/-! Texts whose line ends are normalised. -/

theorem normaliseFrom_append_cons {c : Char} (hc : c ≠ '\r' ∧ c ≠ '\n') (afterReturn : Bool)
    (w s : Text) : normaliseFrom afterReturn (w ++ c :: s) =
      normaliseFrom afterReturn w ++ c :: normaliseFrom false s := by
  induction w generalizing afterReturn with
  | nil => simp [normaliseFrom, hc.1, hc.2]
  | cons d w ih =>
    rw [List.cons_append, normaliseFrom, normaliseFrom]
    split
    · rw [ih, List.cons_append]
    · split
      · rw [ih]
      · rw [ih, List.cons_append]

/-- Text without carriage returns stays as it is. -/
theorem normalise_append {a : Text} (ha : '\r' ∉ a) (s : Text) :
    normalise (a ++ s) = a ++ normalise s := by
  unfold normalise
  induction a with
  | nil => rfl
  | cons c a ih =>
    have hc : c ≠ '\r' := fun h => ha (h ▸ List.mem_cons_self ..)
    rw [List.cons_append, normaliseFrom, if_neg hc, if_neg (by simp),
      ih fun h => ha (List.mem_cons_of_mem c h), List.cons_append]

theorem length_normaliseFrom_le (afterReturn : Bool) (s : Text) :
    (normaliseFrom afterReturn s).length ≤ s.length := by
  induction s generalizing afterReturn with
  | nil => simp [normaliseFrom]
  | cons c s ih =>
    have htrue := ih true
    have hfalse := ih false
    rw [normaliseFrom]
    split
    · simpa using htrue
    · split
      · exact Nat.le_succ_of_le hfalse
      · simpa using hfalse

/-- No carriage return is left. -/
theorem return_notMem_normaliseFrom (afterReturn : Bool) (s : Text) :
    '\r' ∉ normaliseFrom afterReturn s := by
  induction s generalizing afterReturn with
  | nil => simp [normaliseFrom]
  | cons c s ih =>
    rw [normaliseFrom]
    split
    · simp [ih]
    · rename_i hc
      split
      · exact ih false
      · simp [ih, Ne.symm hc]

theorem normalise_eq_self_iff (s : Text) : normalise s = s ↔ '\r' ∉ s := by
  constructor
  · intro h hmem
    rw [← h] at hmem
    exact return_notMem_normaliseFrom false s hmem
  · intro h
    have happ := normalise_append h []
    simpa [normalise, normaliseFrom] using happ

end Hermod.Html
