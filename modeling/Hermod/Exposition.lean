import Hermod.TextLines

/-!
The text format in which metrics are exposed. A line is a comment or a sample, which has a
name, labels in braces, a value and perhaps a timestamp. Comments that begin with `HELP` or
`TYPE` describe the family of a name. In a valid exposition no two samples are of one
series, a family is described at most once, and its lines stand together.
-/
namespace Hermod.Exposition

open TextLines

def escapeChar (c : Char) : Text :=
  if c = '\\' then ['\\', '\\']
  else if c = '\n' then ['\\', 'n']
  else if c = '"' then ['\\', '"']
  else [c]

def escape (s : Text) : Text := s.flatMap escapeChar

def unescape (c : Char) : Char := if c = 'n' then '\n' else c

def readQuoted : Text → Option (Text × Text)
  | [] => none
  | '"' :: s => some ([], s)
  | ['\\'] => none
  | '\\' :: c :: s => (readQuoted s).map fun p => (unescape c :: p.1, p.2)
  | c :: s => (readQuoted s).map fun p => (c :: p.1, p.2)

abbrev Label := Text × Text

def label (l : Label) : Text := l.1 ++ '=' :: '"' :: escape l.2 ++ ['"']

/-- The labels behind the first one, and the brace at the end. -/
def moreLabels : List Label → Text
  | [] => ['}']
  | l :: ls => ',' :: label l ++ moreLabels ls

def firstLabels : List Label → Text
  | [] => ['}']
  | l :: ls => label l ++ moreLabels ls

/-- Without labels there are braces or not. -/
structure Sample where
  name : Text
  labels : Option (List Label)
  value : Text
  timestamp : Option Text

def braced (labels : Option (List Label)) : Text :=
  labels.elim [] fun ls => '{' :: firstLabels ls

namespace Sample

def labelList (s : Sample) : List Label := s.labels.getD []

theorem labelList_map {s t : Sample} {f : Label → Label}
    (h : t.labels = s.labels.map (List.map f)) : t.labelList = s.labelList.map f := by
  unfold labelList
  rw [h]
  cases s.labels <;> rfl

def numbers (s : Sample) : Text := s.value ++ s.timestamp.elim [] (' ' :: ·)

def render (s : Sample) : Text := s.name ++ braced s.labels ++ ' ' :: s.numbers

def SameSeries (s t : Sample) : Prop := s.name = t.name ∧ s.labelList.Perm t.labelList

end Sample

inductive Line
  | comment (text : Text)
  | sample (s : Sample)

def isBlank (c : Char) : Bool := c = ' ' || c = '\t'

def nextWord (s : Text) : Text × Text :=
  ((s.dropWhile isBlank).takeWhile (!isBlank ·), (s.dropWhile isBlank).dropWhile (!isBlank ·))

namespace Line

def render : Line → Text
  | comment text => '#' :: text
  | sample s => s.render

def sample? : Line → Option Sample
  | comment _ => none
  | sample s => some s

def description : Line → Option (Text × Text)
  | comment text =>
    let keyword := nextWord text
    let name := nextWord keyword.2
    if (keyword.1 = "HELP".toList ∨ keyword.1 = "TYPE".toList) ∧ name.1 ≠ [] then
      some (keyword.1, name.1)
    else none
  | sample _ => none

def family : Line → Option Text
  | comment text => (comment text).description.map Prod.snd
  | sample s => some s.name

end Line

def text (ls : List Line) : Text := ls.flatMap fun l => l.render ++ ['\n']

/-! The lines of the format. -/

def isNameChar (c : Char) : Bool := c.isAlphanum || c = '_' || c = ':'

def IsName (n : Text) : Prop := (∀ c ∈ n, isNameChar c) ∧ n.head?.any (!·.isDigit) = true

instance (n : Text) : Decidable (IsName n) := inferInstanceAs (Decidable (_ ∧ _))

def isNumberChar (c : Char) : Bool := c.isAlphanum || c = '+' || c = '-' || c = '.'

def IsNumber (v : Text) : Prop := v ≠ [] ∧ ∀ c ∈ v, isNumberChar c

instance (v : Text) : Decidable (IsNumber v) := inferInstanceAs (Decidable (_ ∧ _))

/-- What the name and the numbers of a sample are made of, empty or not. -/
structure Sample.Lexical (s : Sample) : Prop where
  name : ∀ c ∈ s.name, isNameChar c
  labels : ∀ l ∈ s.labelList, ∀ c ∈ l.1, isNameChar c
  value : IsNumber s.value
  timestamp : ∀ t ∈ s.timestamp, IsNumber t

structure Sample.WellFormed (s : Sample) : Prop extends s.Lexical where
  isName : IsName s.name
  isLabelName : ∀ l ∈ s.labelList, IsName l.1 ∧ ':' ∉ l.1
  distinct : (s.labelList.map Prod.fst).Nodup

def Line.Lexical : Line → Prop
  | comment text => '\n' ∉ text
  | sample s => s.Lexical

def Line.WellFormed : Line → Prop
  | comment text => '\n' ∉ text
  | sample s => s.WellFormed

/-- All lines that belong to the family, and comments between them, stand together. -/
def Together (family : Text) (ls : List Line) : Prop :=
  ∃ before group after, ls = before ++ group ++ after ∧
    (∀ l ∈ group, l.family = some family ∨ l.family = none) ∧
    ∀ l ∈ before ++ after, l.family ≠ some family

structure Valid (ls : List Line) : Prop where
  unique : (ls.filterMap Line.sample?).Pairwise fun s t => ¬ s.SameSeries t
  described : (ls.filterMap Line.description).Nodup
  together : ∀ family, Together family ls

/-- The lines of the text, which may lack the last newline, are those of a valid
exposition. -/
def IsExposition (body : Text) : Prop :=
  ∃ ls, (∀ l ∈ ls, l.WellFormed) ∧ lines body = ls.map Line.render ∧ Valid ls

/-! Reading a line back. -/

/-- An escaped value is read back up to its quote. -/
theorem readQuoted_escape (v s : Text) : readQuoted (escape v ++ '"' :: s) = some (v, s) := by
  induction v with
  | nil => rfl
  | cons c v ih =>
    have hcons : escape (c :: v) = escapeChar c ++ escape v := List.flatMap_cons
    rw [hcons, List.append_assoc]
    by_cases hslash : c = '\\'
    · simp [escapeChar, hslash, readQuoted, ih, unescape]
    · by_cases hline : c = '\n'
      · simp [escapeChar, hline, readQuoted, ih, unescape]
      · by_cases hquote : c = '"'
        · simp [escapeChar, hquote, readQuoted, ih, unescape]
        · simp [escapeChar, hslash, hline, hquote, readQuoted, ih]

theorem escape_quote_inj {v w s t : Text} (h : escape v ++ '"' :: s = escape w ++ '"' :: t) :
    v = w ∧ s = t := by
  have hread := congrArg readQuoted h
  rw [readQuoted_escape, readQuoted_escape, Option.some.injEq, Prod.mk.injEq] at hread
  exact hread

theorem label_append (l : Label) (s : Text) :
    label l ++ s = l.1 ++ '=' :: '"' :: (escape l.2 ++ '"' :: s) := by
  simp [label]

theorem label_append_inj {l m : Label} (hl : ∀ c ∈ l.1, isNameChar c)
    (hm : ∀ c ∈ m.1, isNameChar c) {s t : Text} (h : label l ++ s = label m ++ t) :
    l = m ∧ s = t := by
  rw [label_append, label_append] at h
  obtain ⟨hname, -, hrest⟩ := append_cons_inj hl hm (by decide) (by decide) h
  obtain ⟨hvalue, hst⟩ := escape_quote_inj (List.cons.inj hrest).2
  exact ⟨Prod.ext hname hvalue, hst⟩

/-- Labels can be told from what follows them. -/
theorem moreLabels_append_inj {ls ms : List Label} (hls : ∀ l ∈ ls, ∀ c ∈ l.1, isNameChar c)
    (hms : ∀ m ∈ ms, ∀ c ∈ m.1, isNameChar c) {s t : Text}
    (h : moreLabels ls ++ s = moreLabels ms ++ t) : ls = ms ∧ s = t := by
  induction ls generalizing ms with
  | nil =>
    cases ms with
    | nil => exact ⟨rfl, (List.cons.inj h).2⟩
    | cons m ms => simp [moreLabels] at h
  | cons l ls ih =>
    cases ms with
    | nil => simp [moreLabels] at h
    | cons m ms =>
      simp only [moreLabels, List.cons_append, List.append_assoc, List.cons.injEq, true_and] at h
      obtain ⟨rfl, hrest⟩ :=
        label_append_inj (hls l (List.mem_cons_self ..)) (hms m (List.mem_cons_self ..)) h
      obtain ⟨rfl, hst⟩ := ih (fun k hk => hls k (List.mem_cons_of_mem l hk))
        (fun k hk => hms k (List.mem_cons_of_mem _ hk)) hrest
      exact ⟨rfl, hst⟩

/-- A label does not begin with the brace at the end. -/
theorem brace_ne_label {l : Label} (hl : ∀ c ∈ l.1, isNameChar c) (s t : Text) :
    '}' :: s ≠ label l ++ t := by
  intro h
  rw [label_append] at h
  cases hname : l.1 with
  | nil => simp [hname] at h
  | cons c name =>
    rw [hname, List.cons_append, List.cons.injEq] at h
    have hchar := hl c (by simp [hname])
    rw [← h.1] at hchar
    exact absurd hchar (by decide)

theorem firstLabels_append_inj {ls ms : List Label} (hls : ∀ l ∈ ls, ∀ c ∈ l.1, isNameChar c)
    (hms : ∀ m ∈ ms, ∀ c ∈ m.1, isNameChar c) {s t : Text}
    (h : firstLabels ls ++ s = firstLabels ms ++ t) : ls = ms ∧ s = t := by
  cases ls with
  | nil =>
    cases ms with
    | nil => exact ⟨rfl, (List.cons.inj h).2⟩
    | cons m ms =>
      rw [firstLabels, firstLabels, List.append_assoc] at h
      exact absurd h (brace_ne_label (hms m (List.mem_cons_self ..)) _ _)
  | cons l ls =>
    cases ms with
    | nil =>
      rw [firstLabels, firstLabels, List.append_assoc] at h
      exact absurd h.symm (brace_ne_label (hls l (List.mem_cons_self ..)) _ _)
    | cons m ms =>
      rw [firstLabels, firstLabels, List.append_assoc, List.append_assoc] at h
      obtain ⟨rfl, hrest⟩ :=
        label_append_inj (hls l (List.mem_cons_self ..)) (hms m (List.mem_cons_self ..)) h
      obtain ⟨rfl, hst⟩ := moreLabels_append_inj (fun k hk => hls k (List.mem_cons_of_mem l hk))
        (fun k hk => hms k (List.mem_cons_of_mem _ hk)) hrest
      exact ⟨rfl, hst⟩

/-- Labels in braces, or none, can be told from the value behind them. -/
theorem braced_append_inj {ls ms : Option (List Label)}
    (hls : ∀ l ∈ ls.getD [], ∀ c ∈ l.1, isNameChar c)
    (hms : ∀ m ∈ ms.getD [], ∀ c ∈ m.1, isNameChar c) {s t : Text}
    (h : braced ls ++ ' ' :: s = braced ms ++ ' ' :: t) : ls = ms ∧ s = t := by
  cases ls with
  | none =>
    cases ms with
    | none => exact ⟨rfl, (List.cons.inj h).2⟩
    | some ms => simp [braced] at h
  | some ls =>
    cases ms with
    | none => simp [braced] at h
    | some ms =>
      simp only [braced, Option.elim_some, List.cons_append, List.cons.injEq, true_and] at h
      obtain ⟨rfl, hrest⟩ := firstLabels_append_inj hls hms h
      exact ⟨rfl, (List.cons.inj hrest).2⟩

/-- Behind the name stands a blank or a brace. -/
theorem braced_append_eq_cons (ls : Option (List Label)) (s : Text) :
    ∃ c t, braced ls ++ ' ' :: s = c :: t ∧ isNameChar c = false := by
  cases ls with
  | none => exact ⟨' ', s, rfl, by decide⟩
  | some ls => exact ⟨'\x7b', firstLabels ls ++ ' ' :: s, rfl, by decide⟩

/-- The name and the labels of a sample are read back, whatever follows its number. -/
theorem render_append_inj {s t : Sample} (hs : s.Lexical) (ht : t.Lexical) {r u : Text}
    (h : s.render ++ r = t.render ++ u) :
    s.name = t.name ∧ s.labels = t.labels ∧ s.numbers ++ r = t.numbers ++ u := by
  simp only [Sample.render, List.append_assoc, List.cons_append] at h
  obtain ⟨c, v, hc, hcname⟩ := braced_append_eq_cons s.labels (s.numbers ++ r)
  obtain ⟨d, w, hd, hdname⟩ := braced_append_eq_cons t.labels (t.numbers ++ u)
  have hsplit := h
  rw [hc, hd] at hsplit
  obtain ⟨hname, -, -⟩ := append_cons_inj hs.name ht.name (by simp [hcname]) (by simp [hdname])
    hsplit
  rw [hname, List.append_right_inj] at h
  obtain ⟨hlabels, hnumbers⟩ := braced_append_inj hs.labels ht.labels h
  exact ⟨hname, hlabels, hnumbers⟩

theorem IsName.ne_nil {n : Text} (hn : IsName n) : n ≠ [] := by
  rintro rfl
  have hhead := hn.2
  simp at hhead

theorem IsNumber.notMem {v : Text} (hv : IsNumber v) {c : Char} (hc : isNumberChar c = false) :
    c ∉ v := by
  intro h
  have hnumber := hv.2 c h
  rw [hc] at hnumber
  cases hnumber

theorem numbers_inj {s t : Sample} (hs : s.Lexical) (ht : t.Lexical)
    (h : s.numbers = t.numbers) : s.value = t.value ∧ s.timestamp = t.timestamp := by
  have hblank : isNumberChar ' ' = false := by decide
  have hmem : ∀ {u : Text}, IsNumber u → ∀ (v w : Text), u ≠ v ++ ' ' :: w := by
    intro u hu v w heq
    exact hu.notMem hblank (heq ▸ List.mem_append_right v (List.mem_cons_self ..))
  unfold Sample.numbers at h
  cases hst : s.timestamp with
  | none =>
    cases htt : t.timestamp with
    | none => simpa [hst, htt] using h
    | some u =>
      simp only [hst, htt, Option.elim_none, Option.elim_some, List.append_nil] at h
      exact absurd h (hmem hs.value _ _)
  | some u =>
    cases htt : t.timestamp with
    | none =>
      simp only [hst, htt, Option.elim_none, Option.elim_some, List.append_nil] at h
      exact absurd h.symm (hmem ht.value _ _)
    | some v =>
      simp only [hst, htt, Option.elim_some] at h
      obtain ⟨hvalue, -, hrest⟩ := append_cons_inj (P := (isNumberChar · = true)) hs.value.2
        ht.value.2 (by simp [hblank]) (by simp [hblank]) h
      exact ⟨hvalue, by rw [hrest]⟩

theorem Sample.render_inj {s t : Sample} (hs : s.Lexical) (ht : t.Lexical)
    (h : s.render = t.render) : s = t := by
  have hnil : s.render ++ [] = t.render ++ [] := by rw [h]
  obtain ⟨hname, hlabels, hnumbers⟩ := render_append_inj hs ht hnil
  obtain ⟨hvalue, htime⟩ := numbers_inj hs ht (by simpa using hnumbers)
  cases s
  cases t
  simp_all

/-- A sample does not begin as a comment does. -/
theorem hash_ne_head_render {s : Sample} (hs : s.Lexical) : s.render.head? ≠ some '#' := by
  intro h
  cases hname : s.name with
  | nil =>
    cases hlabels : s.labels <;> simp [Sample.render, hname, hlabels, braced] at h
  | cons c n =>
    rw [Sample.render, List.append_assoc, hname, List.cons_append, List.head?_cons,
      Option.some.injEq] at h
    have hchar := hs.name c (by simp [hname])
    rw [h] at hchar
    exact absurd hchar (by decide)

theorem Line.WellFormed.lexical {l : Line} (hl : l.WellFormed) : l.Lexical := by
  cases l with
  | comment text => exact hl
  | sample s => exact hl.toLexical

/-- No two lines are written alike. -/
theorem render_inj {l m : Line} (hl : l.Lexical) (hm : m.Lexical) (h : l.render = m.render) :
    l = m := by
  have hhash : ∀ {text : Text} {s : Sample}, s.Lexical → '#' :: text ≠ s.render := by
    intro text s hs heq
    exact hash_ne_head_render hs (by rw [← heq, List.head?_cons])
  cases l with
  | comment text =>
    cases m with
    | comment text' => exact congrArg Line.comment (List.cons.inj h).2
    | sample t => exact absurd h (hhash hm)
  | sample s =>
    cases m with
    | comment text' => exact absurd h.symm (hhash hl)
    | sample t => exact congrArg Line.sample (Sample.render_inj hl hm h)

theorem map_render_inj {ls ms : List Line} (hls : ∀ l ∈ ls, l.Lexical)
    (hms : ∀ m ∈ ms, m.Lexical) (h : ls.map Line.render = ms.map Line.render) : ls = ms := by
  induction ls generalizing ms with
  | nil => exact (List.map_eq_nil_iff.mp h.symm).symm
  | cons l ls ih =>
    cases ms with
    | nil => simp at h
    | cons m ms =>
      rw [List.map_cons, List.map_cons, List.cons.injEq] at h
      rw [render_inj (hls l (List.mem_cons_self ..)) (hms m (List.mem_cons_self ..)) h.1,
        ih (fun k hk => hls k (List.mem_cons_of_mem l hk))
          (fun k hk => hms k (List.mem_cons_of_mem m hk)) h.2]

/-- A text is an exposition exactly when the lines that it has are valid ones. -/
theorem isExposition_iff {body : Text} {ls : List Line} (hls : ∀ l ∈ ls, l.Lexical)
    (hbody : lines body = ls.map Line.render) :
    IsExposition body ↔ (∀ l ∈ ls, l.WellFormed) ∧ Valid ls := by
  constructor
  · rintro ⟨ms, hms, hlines, hvalid⟩
    rw [map_render_inj hls (fun m hm => (hms m hm).lexical) (hbody.symm.trans hlines)]
    exact ⟨hms, hvalid⟩
  · rintro ⟨hwell, hvalid⟩
    exact ⟨ls, hwell, hbody, hvalid⟩

/-! Families whose lines stand together. -/

theorem Together.append {family : Text} {ls a b : List Line} (h : Together family ls)
    (ha : ∀ l ∈ a, l.family ≠ some family) (hb : ∀ l ∈ b, l.family ≠ some family) :
    Together family (a ++ ls ++ b) := by
  obtain ⟨before, group, after, rfl, hgroup, hothers⟩ := h
  refine ⟨a ++ before, group, after ++ b, by simp, hgroup, ?_⟩
  intro l hl
  simp only [List.mem_append] at hl hothers
  rcases hl with (hl | hl) | (hl | hl)
  · exact ha l hl
  · exact hothers l (Or.inl hl)
  · exact hothers l (Or.inr hl)
  · exact hb l hl

/-- A family without lines. -/
theorem together_of_absent {family : Text} {ls : List Line}
    (h : ∀ l ∈ ls, l.family ≠ some family) : Together family ls :=
  ⟨ls, [], [], by simp, by simp, by simpa using h⟩

/-- Between two lines of a family there is none of another. -/
theorem Together.between {family : Text} {ls : List Line} (h : Together family ls)
    {x y z : Line} (hsub : [x, y, z].Sublist ls) (hx : x.family = some family)
    (hz : z.family = some family) : y.family = some family ∨ y.family = none := by
  obtain ⟨before, group, after, rfl, hgroup, hothers⟩ := h
  have hbefore : x ∉ before := fun hmem => hothers x (List.mem_append_left _ hmem) hx
  have hafter : z ∉ after := fun hmem => hothers z (List.mem_append_right _ hmem) hz
  obtain ⟨front, back, hsplit, hfront, hback⟩ := List.sublist_append_iff.mp hsub
  have hnil : back = [] := by
    rcases List.eq_nil_or_concat back with hnil | ⟨init, last, hconcat⟩
    · exact hnil
    · have hlast : last = z := by
        have heq := congrArg List.getLast? hsplit
        rw [hconcat, List.concat_eq_append, ← List.append_assoc, List.getLast?_concat] at heq
        simpa using heq.symm
      rw [hconcat, hlast] at hback
      exact absurd (hback.subset (by simp)) hafter
  rw [hnil, List.append_nil] at hsplit
  rw [← hsplit] at hfront
  obtain ⟨first, rest, hsplit', hfirst, hrest⟩ := List.sublist_append_iff.mp hfront
  cases first with
  | nil =>
    rw [List.nil_append] at hsplit'
    rw [← hsplit'] at hrest
    exact hgroup y (hrest.subset (by simp))
  | cons w first =>
    rw [List.cons_append, List.cons.injEq] at hsplit'
    rw [← hsplit'.1] at hfirst
    exact absurd (hfirst.subset (List.mem_cons_self ..)) hbefore

/-! The lines of a text. -/

theorem newline_notMem_escape (v : Text) : '\n' ∉ escape v := by
  intro h
  obtain ⟨c, -, hc⟩ := List.mem_flatMap.mp h
  unfold escapeChar at hc
  split at hc
  · simp at hc
  · split at hc
    · simp at hc
    · rename_i hline
      split at hc
      · simp at hc
      · exact hline (List.mem_singleton.mp hc).symm

theorem newline_notMem_label {l : Label} (hl : ∀ c ∈ l.1, isNameChar c) : '\n' ∉ label l := by
  have hname : '\n' ∉ l.1 := fun h => absurd (hl _ h) (by decide)
  simp [label, hname, newline_notMem_escape]

theorem newline_notMem_moreLabels {ls : List Label} (hls : ∀ l ∈ ls, ∀ c ∈ l.1, isNameChar c) :
    '\n' ∉ moreLabels ls := by
  induction ls with
  | nil => simp [moreLabels]
  | cons l ls ih =>
    have hl := newline_notMem_label (hls l (List.mem_cons_self ..))
    have hrest := ih fun k hk => hls k (List.mem_cons_of_mem l hk)
    simp [moreLabels, hl, hrest]

theorem newline_notMem_braced {ls : Option (List Label)}
    (hls : ∀ l ∈ ls.getD [], ∀ c ∈ l.1, isNameChar c) : '\n' ∉ braced ls := by
  cases ls with
  | none => simp [braced]
  | some ls =>
    cases ls with
    | nil => simp [braced, firstLabels]
    | cons l ls =>
      have hl := newline_notMem_label (hls l (List.mem_cons_self ..))
      have hrest := newline_notMem_moreLabels fun k hk => hls k (List.mem_cons_of_mem l hk)
      simp [braced, firstLabels, hl, hrest]

/-- Behind the labels of a sample stand a blank and what numbers are made of. -/
theorem mem_numbers {s : Sample} (hs : s.Lexical) {c : Char} (hc : c ∈ s.numbers) :
    isNumberChar c = true ∨ c = ' ' := by
  rcases List.mem_append.mp hc with hc | hc
  · exact Or.inl (hs.value.2 c hc)
  · cases htime : s.timestamp with
    | none => simp [htime] at hc
    | some t =>
      simp only [htime, Option.elim_some, List.mem_cons] at hc
      rcases hc with hc | hc
      · exact Or.inr hc
      · exact Or.inl ((hs.timestamp t htime).2 c hc)

theorem numbers_ne_nil {s : Sample} (hs : s.Lexical) : s.numbers ≠ [] := by
  simp [Sample.numbers, hs.value.1]

theorem Sample.newline_notMem_render {s : Sample} (hs : s.Lexical) : '\n' ∉ s.render := by
  have hname : '\n' ∉ s.name := fun h => absurd (hs.name _ h) (by decide)
  have hnumbers : '\n' ∉ s.numbers := fun h =>
    absurd (mem_numbers hs h) (by decide)
  simp [Sample.render, hname, newline_notMem_braced hs.labels, hnumbers]

theorem newline_notMem_render {l : Line} (hl : l.Lexical) : '\n' ∉ l.render := by
  cases l with
  | comment text =>
    have htext : '\n' ∉ text := hl
    simp [Line.render, htext]
  | sample s => exact Sample.newline_notMem_render hl

/-- A sample does not end with a carriage return. -/
theorem stripCr_render {s : Sample} (hs : s.Lexical) : stripCr s.render = s.render := by
  have hlast : s.render.getLast? = s.numbers.getLast? := by
    have happ : s.render = s.name ++ braced s.labels ++ [' '] ++ s.numbers := by
      simp [Sample.render]
    rw [happ, List.getLast?_append_of_ne_nil _ (numbers_ne_nil hs)]
  unfold stripCr
  rw [if_neg]
  intro hcr
  rw [hlast] at hcr
  exact absurd (mem_numbers hs (List.mem_of_getLast? hcr)) (by decide)

def Line.trimmed : Line → Line
  | comment text => comment (stripCr text)
  | sample s => sample s

theorem Line.Lexical.trimmed {l : Line} (hl : l.Lexical) : l.trimmed.Lexical := by
  cases l with
  | comment text => exact newline_notMem_stripCr hl
  | sample s => exact hl

theorem Line.WellFormed.trimmed {l : Line} (hl : l.WellFormed) : l.trimmed.WellFormed := by
  cases l with
  | comment text => exact newline_notMem_stripCr hl
  | sample s => exact hl

theorem stripCr_line {l : Line} (hl : l.Lexical) : stripCr l.render = l.trimmed.render := by
  cases l with
  | comment text => exact stripCr_append_cons (c := '#') (by decide) [] text
  | sample s => exact stripCr_render hl

/-- A text is split into the lines that it was made of. -/
theorem lines_text {ls : List Line} (hls : ∀ l ∈ ls, l.Lexical) :
    lines (text ls) = ls.map fun l => stripCr l.render := by
  have htext : text ls = (ls.map Line.render).flatMap (· ++ ['\n']) := by
    rw [text, List.flatMap_map]
  have hlines : ∀ l ∈ ls.map Line.render, '\n' ∉ l := by
    intro l hl
    obtain ⟨m, hm, rfl⟩ := List.mem_map.mp hl
    exact newline_notMem_render (hls m hm)
  rw [htext, lines_terminated hlines, List.map_map]
  rfl

end Hermod.Exposition
