import Hermod.Exposition
import Hermod.Prometheus

/-!
Metrics without the suffixes of their names. The suffixes are taken off by replacements in
the whole line of a sample, each of a suffix and the character behind it. At the end of the
name this takes the suffix off, and within the value of a label it changes the value. A name
can lose several suffixes, one after the other.
-/
namespace Hermod.SuffixStripping

open TextLines Exposition
open Prometheus (replace replaceFrom stripLine stripPrometheusSuffixes)

/-! Replacing in a text. -/

section Replace

variable {pat rep : Text}

@[simp] theorem replaceFrom_nil (skip : ℕ) : replaceFrom pat rep skip [] = [] := by
  cases skip <;> rfl

theorem replaceFrom_skip (a s : Text) :
    replaceFrom pat rep a.length (a ++ s) = replaceFrom pat rep 0 s := by
  induction a with
  | nil => rfl
  | cons c a ih => exact ih

theorem replaceFrom_found (hpat : pat ≠ []) (s : Text) :
    replaceFrom pat rep 0 (pat ++ s) = rep ++ replaceFrom pat rep 0 s := by
  cases pat with
  | nil => exact absurd rfl hpat
  | cons p pat =>
    have hfound : (p :: pat).isPrefixOf (p :: (pat ++ s)) = true :=
      List.isPrefixOf_iff_prefix.mpr (List.prefix_append (p :: pat) s)
    have hskip : (p :: pat).length - 1 = pat.length := by simp
    rw [List.cons_append, replaceFrom, if_pos hfound, hskip, replaceFrom_skip]

theorem replaceFrom_other {c : Char} {s : Text} (h : ¬ pat <+: c :: s) :
    replaceFrom pat rep 0 (c :: s) = c :: replaceFrom pat rep 0 s := by
  rw [replaceFrom, if_neg]
  exact fun hfound => h (List.isPrefixOf_iff_prefix.mp hfound)

/-- A text is empty, or begins with the pattern, or goes on behind its first character. -/
theorem replace_induction {motive : Text → Prop} (hpat : pat ≠ []) (nil : motive [])
    (found : ∀ s, motive s → motive (pat ++ s))
    (other : ∀ c s, ¬ pat <+: c :: s → motive s → motive (c :: s)) (s : Text) : motive s := by
  induction hlen : s.length using Nat.strong_induction_on generalizing s with
  | _ n ih =>
    cases s with
    | nil => exact nil
    | cons c s =>
      by_cases hfound : pat <+: c :: s
      · obtain ⟨t, ht⟩ := hfound
        have hpos : 0 < pat.length := List.length_pos_of_ne_nil hpat
        have hless : t.length < n := by
          rw [← hlen, ← ht, List.length_append]
          omega
        rw [← ht]
        exact found t (ih t.length hless t rfl)
      · have hless : s.length < n := by
          rw [← hlen, List.length_cons]
          omega
        exact other c s hfound (ih s.length hless s rfl)

theorem replaceFrom_of_not_infix {s : Text} (h : ¬ pat <:+: s) : replaceFrom pat rep 0 s = s := by
  induction s with
  | nil => rfl
  | cons c s ih =>
    rw [List.infix_cons_iff, not_or] at h
    rw [replaceFrom_other h.1, ih h.2]

/-- Replacing by something shorter makes no text longer. -/
theorem length_replaceFrom_le (hpat : pat ≠ []) (hlen : rep.length ≤ pat.length) (s : Text) :
    (replaceFrom pat rep 0 s).length ≤ s.length := by
  induction s using replace_induction hpat with
  | nil => exact Nat.le_refl _
  | found s ih =>
    rw [replaceFrom_found hpat, List.length_append, List.length_append]
    omega
  | other c s hother ih =>
    rw [replaceFrom_other hother, List.length_cons, List.length_cons]
    omega

/-- A text in which the pattern is found is shorter without it. -/
theorem length_replaceFrom_lt (hpat : pat ≠ []) (hlen : rep.length < pat.length) {s : Text}
    (h : pat <:+: s) : (replaceFrom pat rep 0 s).length < s.length := by
  induction s using replace_induction hpat with
  | nil => exact absurd (List.infix_nil.mp h) hpat
  | found s ih =>
    have hle := length_replaceFrom_le hpat (Nat.le_of_lt hlen) s
    rw [replaceFrom_found hpat, List.length_append, List.length_append]
    omega
  | other c s hother ih =>
    have htail := ih ((List.infix_cons_iff.mp h).resolve_left hother)
    rw [replaceFrom_other hother, List.length_cons, List.length_cons]
    omega

theorem prefix_of_prefix_append_cons {c : Char} (hc : c ∉ pat) {a s : Text}
    (h : pat <+: a ++ c :: s) : pat <+: a := by
  by_cases hlen : pat.length ≤ a.length
  · exact List.prefix_of_prefix_length_le h (List.prefix_append a _) hlen
  · have hlong : a ++ [c] <+: pat := by
      refine List.prefix_of_prefix_length_le ⟨s, ?_⟩ h ?_
      · simp
      · rw [List.length_append, List.length_singleton]
        omega
    exact absurd (hlong.subset (by simp)) hc

/-- A character that the pattern lacks cuts the text. -/
theorem replaceFrom_append_cons (hpat : pat ≠ []) {c : Char} (hc : c ∉ pat) (a s : Text) :
    replaceFrom pat rep 0 (a ++ c :: s) =
      replaceFrom pat rep 0 a ++ c :: replaceFrom pat rep 0 s := by
  induction a using replace_induction hpat with
  | nil =>
    have hother : ¬ pat <+: c :: s := fun h =>
      hpat (List.prefix_nil.mp (prefix_of_prefix_append_cons (a := []) hc h))
    rw [List.nil_append, replaceFrom_other hother, replaceFrom_nil, List.nil_append]
  | found a ih =>
    rw [List.append_assoc, replaceFrom_found hpat, replaceFrom_found hpat, ih, List.append_assoc]
  | other d a hother ih =>
    have hother' : ¬ pat <+: d :: (a ++ c :: s) := fun h =>
      hother (prefix_of_prefix_append_cons (a := d :: a) hc h)
    rw [List.cons_append, replaceFrom_other hother', replaceFrom_other hother, ih,
      List.cons_append]

theorem replaceFrom_of_notMem {c : Char} (hc : c ∈ pat) {s : Text} (hs : c ∉ s) :
    replaceFrom pat rep 0 s = s :=
  replaceFrom_of_not_infix fun h => hs (h.subset hc)

end Replace

/-! Taking a suffix off. -/

def dropSuffix (suffix n : Text) : Text :=
  if suffix <:+ n then n.take (n.length - suffix.length) else n

section DropSuffix

variable {suffix n : Text}

@[simp] theorem dropSuffix_append (suffix n : Text) : dropSuffix suffix (n ++ suffix) = n := by
  simp [dropSuffix]

theorem dropSuffix_of_not_suffix (h : ¬ suffix <:+ n) : dropSuffix suffix n = n := if_neg h

theorem prefix_dropSuffix (suffix n : Text) : dropSuffix suffix n <+: n := by
  unfold dropSuffix
  split
  · exact List.take_prefix _ _
  · exact List.prefix_refl n

/-- A name stays as it is when it does not end with the suffix. -/
theorem dropSuffix_eq_self_iff (hne : suffix ≠ []) : dropSuffix suffix n = n ↔ ¬ suffix <:+ n := by
  constructor
  · rintro h ⟨m, rfl⟩
    rw [dropSuffix_append] at h
    have hlen := congrArg List.length h
    have hpos : 0 < suffix.length := List.length_pos_of_ne_nil hne
    rw [List.length_append] at hlen
    omega
  · exact dropSuffix_of_not_suffix

theorem dropSuffix_cons (c : Char) (n : Text) :
    dropSuffix suffix (c :: n) = if suffix = c :: n then [] else c :: dropSuffix suffix n := by
  by_cases hwhole : suffix = c :: n
  · rw [if_pos hwhole, hwhole]
    simpa using dropSuffix_append (c :: n) []
  · rw [if_neg hwhole]
    by_cases hsuffix : suffix <:+ n
    · obtain ⟨m, rfl⟩ := hsuffix
      rw [dropSuffix_append, ← List.cons_append, dropSuffix_append]
    · have hcons : ¬ suffix <:+ c :: n := by
        rw [List.suffix_cons_iff]
        exact not_or.mpr ⟨hwhole, hsuffix⟩
      rw [dropSuffix_of_not_suffix hcons, dropSuffix_of_not_suffix hsuffix]

/-- A suffix in front of its terminator is taken off the word that it ends. -/
theorem replaceFrom_word {t : Char} (hne : suffix ≠ []) (hsuffix : t ∉ suffix) (hn : t ∉ n)
    (s : Text) : replaceFrom (suffix ++ [t]) [t] 0 (n ++ t :: s) =
      dropSuffix suffix n ++ t :: replaceFrom (suffix ++ [t]) [t] 0 s := by
  have hpat : suffix ++ [t] ≠ [] := by simp
  have hwhole : ∀ {m : Text}, t ∉ m → suffix ++ [t] <+: m ++ t :: s → suffix = m := by
    rintro m hm ⟨u, hu⟩
    rw [List.append_assoc, List.singleton_append] at hu
    exact (append_cons_inj (P := (· ≠ t)) (fun c hc heq => hsuffix (heq ▸ hc))
      (fun c hc heq => hm (heq ▸ hc)) (by simp) (by simp) hu).1
  induction n with
  | nil =>
    have hother : ¬ suffix ++ [t] <+: t :: s := fun h => hne (hwhole List.not_mem_nil h)
    have hnil : dropSuffix suffix [] = [] := by simp [dropSuffix]
    rw [hnil, List.nil_append, List.nil_append, replaceFrom_other hother]
  | cons c n ih =>
    rw [dropSuffix_cons]
    by_cases heq : suffix = c :: n
    · have hsplit : c :: n ++ t :: s = suffix ++ [t] ++ s := by simp [heq]
      rw [if_pos heq, hsplit, replaceFrom_found hpat, List.singleton_append, List.nil_append]
    · have hother : ¬ suffix ++ [t] <+: c :: (n ++ t :: s) := fun h => heq (hwhole hn h)
      have htail : t ∉ n := fun h => hn (List.mem_cons_of_mem c h)
      rw [if_neg heq, List.cons_append, replaceFrom_other hother, ih htail, List.cons_append]

end DropSuffix

/-! The replacements of a line, one after the other. -/

structure Replacement where
  suffix : Text
  terminator : Char

namespace Replacement

def pattern (r : Replacement) : Text := r.suffix ++ [r.terminator]

def replaceIn (s : Text) (r : Replacement) : Text := replaceFrom r.pattern [r.terminator] 0 s

/-- Suffixes are of small letters behind an underscore, and a blank or a brace follows. -/
structure Lawful (r : Replacement) : Prop where
  underscore : r.suffix.head? = some '_'
  letters : ∀ c ∈ r.suffix, c.isLower ∨ c = '_'
  terminator : r.terminator = ' ' ∨ r.terminator = '\x7b'

end Replacement

def replacements : List Replacement :=
  [⟨"_total".toList, ' '⟩, ⟨"_total".toList, '\x7b'⟩, ⟨"_int".toList, ' '⟩,
    ⟨"_int".toList, '\x7b'⟩, ⟨"_double".toList, ' '⟩, ⟨"_double".toList, '\x7b'⟩]

theorem lawful_replacements : ∀ r ∈ replacements, r.Lawful := by
  intro r hr
  simp only [replacements, List.mem_cons, List.not_mem_nil, or_false] at hr
  rcases hr with rfl | rfl | rfl | rfl | rfl | rfl <;>
    exact ⟨by decide, by decide, by decide⟩

theorem stripLine_eq {line : Text} (h : line.head? ≠ some '#') :
    stripLine line = replacements.foldl Replacement.replaceIn line := by
  rw [stripLine, if_neg h]
  rfl

def replaceAll (s : Text) : Text := replacements.foldl Replacement.replaceIn s

section Lawful

variable {r : Replacement}

theorem Replacement.Lawful.ne_nil (hr : r.Lawful) : r.suffix ≠ [] := by
  intro h
  have hhead := hr.underscore
  simp [h] at hhead

theorem Replacement.Lawful.notMem_suffix (hr : r.Lawful) {c : Char}
    (hc : c.isLower = false ∧ c ≠ '_') : c ∉ r.suffix := by
  intro h
  rcases hr.letters c h with hlower | hunder
  · rw [hc.1] at hlower
    cases hlower
  · exact hc.2 hunder

/-- A pattern is of small letters, underscores and the character behind. -/
theorem Replacement.Lawful.notMem (hr : r.Lawful) {c : Char}
    (hc : (c.isLower = false ∧ c ≠ '_') ∧ c ≠ ' ' ∧ c ≠ '\x7b') : c ∉ r.pattern := by
  intro h
  rcases List.mem_append.mp h with h | h
  · exact hr.notMem_suffix hc.1 h
  · rw [List.mem_singleton.mp h] at hc
    rcases hr.terminator with heq | heq
    · exact hc.2.1 heq
    · exact hc.2.2 heq

theorem Replacement.Lawful.terminator_notMem (hr : r.Lawful) : r.terminator ∉ r.suffix := by
  apply hr.notMem_suffix
  rcases hr.terminator with h | h <;> rw [h] <;> decide

theorem Replacement.Lawful.length_lt (hr : r.Lawful) :
    [r.terminator].length < r.pattern.length := by
  have hpos : 0 < r.suffix.length := List.length_pos_of_ne_nil hr.ne_nil
  rw [Replacement.pattern, List.length_append]
  omega

theorem Replacement.pattern_ne_nil (r : Replacement) : r.pattern ≠ [] := by
  simp [Replacement.pattern]

/-- Where the pattern begins there is an underscore. -/
theorem Replacement.Lawful.not_prefix (hr : r.Lawful) {c : Char} (hc : c ≠ '_') (s : Text) :
    ¬ r.pattern <+: c :: s := by
  rintro ⟨u, hu⟩
  cases hsuffix : r.suffix with
  | nil => exact hr.ne_nil hsuffix
  | cons d suffix =>
    have hhead := hr.underscore
    rw [hsuffix, List.head?_cons, Option.some.injEq] at hhead
    simp only [Replacement.pattern, hsuffix, List.cons_append, List.cons.injEq] at hu
    exact hc (hu.1.symm.trans hhead)

theorem Replacement.Lawful.not_isNameChar (hr : r.Lawful) : isNameChar r.terminator = false := by
  rcases hr.terminator with h | h <;> rw [h] <;> decide

/-- Words without the terminator stay as they are. -/
theorem Replacement.Lawful.replaceIn_word (hr : r.Lawful) {s : Text} (hs : ∀ c ∈ s, isNameChar c) :
    Replacement.replaceIn s r = s := by
  refine replaceFrom_of_notMem (c := r.terminator) (by simp [Replacement.pattern]) ?_
  intro h
  have hname := hs _ h
  rw [hr.not_isNameChar] at hname
  cases hname

theorem Replacement.Lawful.replaceIn_cut (hr : r.Lawful) {c : Char}
    (hc : (c.isLower = false ∧ c ≠ '_') ∧ c ≠ ' ' ∧ c ≠ '\x7b') (a s : Text) :
    Replacement.replaceIn (a ++ c :: s) r =
      Replacement.replaceIn a r ++ c :: Replacement.replaceIn s r :=
  replaceFrom_append_cons r.pattern_ne_nil (hr.notMem hc) a s

theorem Replacement.Lawful.replaceIn_cons (hr : r.Lawful) {c : Char} (hc : c ≠ '_') (s : Text) :
    Replacement.replaceIn (c :: s) r = c :: Replacement.replaceIn s r :=
  replaceFrom_other (hr.not_prefix hc s)

end Lawful

/-! Replacements in the values of labels. -/

def Plain (c : Char) : Prop := c ≠ '\\' ∧ c ≠ '\n' ∧ c ≠ '"'

theorem escapeChar_plain {c : Char} (hc : Plain c) : escapeChar c = [c] := by
  simp [escapeChar, hc.1, hc.2.1, hc.2.2]

theorem escapeChar_of_not_plain {c : Char} (hc : ¬ Plain c) :
    ∃ d, escapeChar c = ['\\', d] ∧ d ≠ '_' := by
  unfold Plain at hc
  by_cases hslash : c = '\\'
  · exact ⟨'\\', by simp [escapeChar, hslash], by decide⟩
  · by_cases hline : c = '\n'
    · exact ⟨'n', by simp [escapeChar, hline], by decide⟩
    · have hquote : c = '"' := by
        by_contra hne
        exact hc ⟨hslash, hline, hne⟩
      exact ⟨'"', by simp [escapeChar, hquote], by decide⟩

theorem escape_cons (c : Char) (s : Text) : escape (c :: s) = escapeChar c ++ escape s :=
  List.flatMap_cons

theorem escape_append_plain {a : Text} (ha : ∀ c ∈ a, Plain c) (s : Text) :
    escape (a ++ s) = a ++ escape s := by
  induction a with
  | nil => rfl
  | cons c a ih =>
    rw [List.cons_append, escape_cons, escapeChar_plain (ha c (List.mem_cons_self ..)),
      ih fun d hd => ha d (List.mem_cons_of_mem c hd)]
    rfl

/-- What an escaped text begins with is there without the escapes as well. -/
theorem prefix_of_prefix_escape {a : Text} (ha : ∀ c ∈ a, Plain c) {s : Text}
    (h : a <+: escape s) : a <+: s := by
  induction a generalizing s with
  | nil => exact List.nil_prefix
  | cons c a ih =>
    have hc := ha c (List.mem_cons_self ..)
    cases s with
    | nil => exact absurd (List.prefix_nil.mp h) (by simp)
    | cons d s =>
      rw [escape_cons] at h
      by_cases hd : Plain d
      · rw [escapeChar_plain hd, List.singleton_append, List.cons_prefix_cons] at h
        rw [List.cons_prefix_cons]
        exact ⟨h.1, ih (fun e he => ha e (List.mem_cons_of_mem c he)) h.2⟩
      · obtain ⟨e, he, -⟩ := escapeChar_of_not_plain hd
        rw [he, List.cons_append, List.cons_prefix_cons] at h
        exact absurd h.1 hc.1

/-- A replacement does the same in the escaped text. -/
theorem escape_replaceIn {r : Replacement} (hr : r.Lawful) (v : Text) :
    Replacement.replaceIn (escape v) r = escape (Replacement.replaceIn v r) := by
  have hpat : ∀ c ∈ r.pattern, Plain c := by
    intro c hc
    refine ⟨?_, ?_, ?_⟩ <;> rintro rfl <;> exact hr.notMem (by decide) hc
  have hrep : ∀ c ∈ [r.terminator], Plain c := fun c hc =>
    hpat c (List.mem_append_right r.suffix hc)
  unfold Replacement.replaceIn
  induction v using replace_induction r.pattern_ne_nil with
  | nil => simp [escape]
  | found s ih =>
    rw [escape_append_plain hpat, replaceFrom_found r.pattern_ne_nil,
      replaceFrom_found r.pattern_ne_nil, escape_append_plain hrep, ih]
  | other c s hother ih =>
    rw [escape_cons, replaceFrom_other hother, escape_cons, ← ih]
    by_cases hc : Plain c
    · have hother' : ¬ r.pattern <+: c :: escape s := by
        intro h
        have hescape : r.pattern <+: escape (c :: s) := by
          rwa [escape_cons, escapeChar_plain hc]
        exact hother (prefix_of_prefix_escape hpat hescape)
      rw [escapeChar_plain hc, List.singleton_append, replaceFrom_other hother',
        List.singleton_append]
    · obtain ⟨d, hd, hunder⟩ := escapeChar_of_not_plain hc
      rw [hd, List.cons_append, List.cons_append, List.nil_append,
        replaceFrom_other (hr.not_prefix (by decide) _),
        replaceFrom_other (hr.not_prefix hunder _)]
      rfl

def relabel (r : Replacement) (l : Label) : Label := (l.1, Replacement.replaceIn l.2 r)

section Labels

variable {r : Replacement}

theorem replaceIn_label (hr : r.Lawful) {l : Label} (hl : ∀ c ∈ l.1, isNameChar c) (s : Text) :
    Replacement.replaceIn (label l ++ s) r =
      label (relabel r l) ++ Replacement.replaceIn s r := by
  rw [label_append, label_append, hr.replaceIn_cut (by decide), hr.replaceIn_word hl,
    hr.replaceIn_cons (by decide), hr.replaceIn_cut (by decide), escape_replaceIn hr]
  rfl

/-- Within the braces only values of labels are touched. -/
theorem replaceIn_moreLabels (hr : r.Lawful) {ls : List Label}
    (hls : ∀ l ∈ ls, ∀ c ∈ l.1, isNameChar c) (s : Text) :
    Replacement.replaceIn (moreLabels ls ++ s) r =
      moreLabels (ls.map (relabel r)) ++ Replacement.replaceIn s r := by
  induction ls with
  | nil => exact hr.replaceIn_cons (by decide) s
  | cons l ls ih =>
    have hl := hls l (List.mem_cons_self ..)
    have hrest := ih fun k hk => hls k (List.mem_cons_of_mem l hk)
    simp only [moreLabels, List.map_cons, List.cons_append, List.append_assoc]
    rw [hr.replaceIn_cons (by decide), replaceIn_label hr hl, hrest]

theorem replaceIn_firstLabels (hr : r.Lawful) {ls : List Label}
    (hls : ∀ l ∈ ls, ∀ c ∈ l.1, isNameChar c) (s : Text) :
    Replacement.replaceIn (firstLabels ls ++ s) r =
      firstLabels (ls.map (relabel r)) ++ Replacement.replaceIn s r := by
  cases ls with
  | nil => exact hr.replaceIn_cons (by decide) s
  | cons l ls =>
    have hl := hls l (List.mem_cons_self ..)
    have hrest := replaceIn_moreLabels hr (fun k hk => hls k (List.mem_cons_of_mem l hk)) s
    simp only [firstLabels, List.map_cons, List.append_assoc]
    rw [replaceIn_label hr hl, hrest]

end Labels

/-! Samples without their suffixes. -/

def opening (labels : Option (List Label)) : Char := if labels.isSome then '\x7b' else ' '

def Replacement.sample (s : Sample) (r : Replacement) : Sample :=
  { s with
    name := if opening s.labels = r.terminator then dropSuffix r.suffix s.name else s.name
    labels := s.labels.map (List.map (relabel r)) }

def stripName (n : Text) : Text :=
  dropSuffix "_double".toList (dropSuffix "_int".toList (dropSuffix "_total".toList n))

def stripped (s : Sample) : Sample :=
  { s with
    name := stripName s.name
    labels := s.labels.map (List.map fun l => (l.1, replaceAll l.2)) }

theorem lexical_relabeled {s t : Sample} (hs : s.Lexical) {f : Label → Label}
    (hf : ∀ l, (f l).1 = l.1) (hname : t.name <+: s.name)
    (hlabels : t.labels = s.labels.map (List.map f)) (hvalue : t.value = s.value)
    (htime : t.timestamp = s.timestamp) : t.Lexical where
  name c hc := hs.name c (hname.subset hc)
  labels := by
    intro l hl c hc
    rw [Sample.labelList_map hlabels] at hl
    obtain ⟨m, hm, rfl⟩ := List.mem_map.mp hl
    rw [hf] at hc
    exact hs.labels m hm c hc
  value := by
    rw [hvalue]
    exact hs.value
  timestamp := by
    rw [htime]
    exact hs.timestamp

section Samples

variable {r : Replacement} {s : Sample}

theorem lexical_sample (hs : s.Lexical) : (r.sample s).Lexical := by
  refine lexical_relabeled hs (f := relabel r) (fun _ => rfl) ?_ rfl rfl rfl
  unfold Replacement.sample
  split
  · exact prefix_dropSuffix _ _
  · exact List.prefix_refl _

theorem prefix_stripName (n : Text) : stripName n <+: n :=
  ((prefix_dropSuffix _ _).trans (prefix_dropSuffix _ _)).trans (prefix_dropSuffix _ _)

theorem lexical_stripped (hs : s.Lexical) : (stripped s).Lexical :=
  lexical_relabeled hs (f := fun l => (l.1, replaceAll l.2)) (fun _ => rfl)
    (prefix_stripName s.name) rfl rfl rfl

theorem notMem_name (hs : s.Lexical) {c : Char} (hc : isNameChar c = false) : c ∉ s.name := by
  intro h
  have hname := hs.name c h
  rw [hc] at hname
  cases hname

theorem notMem_numbers (hs : s.Lexical) {c : Char} (hc : isNumberChar c = false ∧ c ≠ ' ') :
    c ∉ ' ' :: s.numbers := by
  rw [List.mem_cons, not_or]
  refine ⟨hc.2, fun h => ?_⟩
  rcases mem_numbers hs h with hnumber | hblank
  · rw [hc.1] at hnumber
    cases hnumber
  · exact hc.2 hblank

/-- There is no underscore behind the labels. -/
theorem replaceIn_numbers (hr : r.Lawful) (hs : s.Lexical) :
    Replacement.replaceIn (' ' :: s.numbers) r = ' ' :: s.numbers := by
  have hunder : '_' ∈ r.pattern :=
    List.mem_append_left _ (List.mem_of_mem_head? hr.underscore)
  exact replaceFrom_of_notMem hunder (notMem_numbers hs (by decide))

/-- The suffix is taken off the name where the terminator is what follows it. -/
theorem replaceIn_name (hr : r.Lawful) (hs : s.Lexical) (t : Text) :
    Replacement.replaceIn (s.name ++ r.terminator :: t) r =
      dropSuffix r.suffix s.name ++ r.terminator :: Replacement.replaceIn t r :=
  replaceFrom_word hr.ne_nil hr.terminator_notMem (notMem_name hs hr.not_isNameChar) t

/-- Without labels a replacement touches the name only. -/
theorem replaceIn_render_bare (hr : r.Lawful) (hs : s.Lexical) (hlabels : s.labels = none) :
    Replacement.replaceIn s.render r = (r.sample s).render := by
  have hrender : s.render = s.name ++ ' ' :: s.numbers := by
    simp [Sample.render, braced, hlabels]
  rcases hr.terminator with ht | ht
  · have hfound := replaceIn_name hr hs s.numbers
    have htail := hr.replaceIn_cons (c := ' ') (by decide) s.numbers
    rw [replaceIn_numbers hr hs, List.cons.injEq] at htail
    rw [ht, ← htail.2] at hfound
    rw [hrender, hfound]
    simp [Replacement.sample, Sample.render, braced, opening, hlabels, ht, Sample.numbers]
  · have hbrace : '\x7b' ∉ s.name ++ ' ' :: s.numbers := by
      rw [List.mem_append, not_or]
      exact ⟨notMem_name hs (by decide), notMem_numbers hs (by decide)⟩
    have hmem : '\x7b' ∈ r.pattern := by simp [Replacement.pattern, ht]
    have hsame : replaceFrom r.pattern [r.terminator] 0 (s.name ++ ' ' :: s.numbers) =
        s.name ++ ' ' :: s.numbers := replaceFrom_of_notMem hmem hbrace
    rw [hrender, Replacement.replaceIn, hsame]
    simp [Replacement.sample, Sample.render, braced, opening, hlabels, ht, Sample.numbers]

/-- With labels a replacement touches the name and the values of labels. -/
theorem replaceIn_render_braced (hr : r.Lawful) (hs : s.Lexical) {ls : List Label}
    (hlabels : s.labels = some ls) :
    Replacement.replaceIn s.render r = (r.sample s).render := by
  have hls : ∀ l ∈ ls, ∀ c ∈ l.1, isNameChar c := by
    simpa [Sample.labelList, hlabels] using hs.labels
  have hrender : s.render = s.name ++ '\x7b' :: (firstLabels ls ++ ' ' :: s.numbers) := by
    simp [Sample.render, braced, hlabels]
  have hrest := replaceIn_firstLabels hr hls (' ' :: s.numbers)
  rw [replaceIn_numbers hr hs] at hrest
  rcases hr.terminator with ht | ht
  · have hbrace : '\x7b' ∉ r.pattern := by
      rw [Replacement.pattern, List.mem_append, not_or]
      exact ⟨hr.notMem_suffix (by decide), by simp [ht]⟩
    have hcut := @replaceFrom_append_cons _ [r.terminator] r.pattern_ne_nil _ hbrace s.name
      (firstLabels ls ++ ' ' :: s.numbers)
    have hname := hr.replaceIn_word hs.name
    unfold Replacement.replaceIn at hname hrest ⊢
    rw [hrender, hcut, hname, hrest]
    simp [Replacement.sample, Sample.render, braced, opening, hlabels, ht, Sample.numbers]
  · have hfound := replaceIn_name hr hs (firstLabels ls ++ ' ' :: s.numbers)
    rw [ht, hrest] at hfound
    rw [hrender, hfound]
    simp [Replacement.sample, Sample.render, braced, opening, hlabels, ht, Sample.numbers]

theorem replaceIn_render (hr : r.Lawful) (hs : s.Lexical) :
    Replacement.replaceIn s.render r = (r.sample s).render := by
  cases hlabels : s.labels with
  | none => exact replaceIn_render_bare hr hs hlabels
  | some ls => exact replaceIn_render_braced hr hs hlabels

theorem foldl_replaceIn_render {rs : List Replacement} (hrs : ∀ r ∈ rs, r.Lawful)
    (hs : s.Lexical) :
    rs.foldl Replacement.replaceIn s.render = (rs.foldl Replacement.sample s).render := by
  induction rs generalizing s with
  | nil => rfl
  | cons r rs ih =>
    rw [List.foldl_cons, List.foldl_cons, replaceIn_render (hrs r (List.mem_cons_self ..)) hs,
      ih (fun q hq => hrs q (List.mem_cons_of_mem r hq)) (lexical_sample hs)]

theorem opening_map (f : List Label → List Label) (labels : Option (List Label)) :
    opening (labels.map f) = opening labels := by
  cases labels <;> rfl

theorem foldl_sample (s : Sample) : replacements.foldl Replacement.sample s = stripped s := by
  have hopening : opening s.labels = ' ' ∨ opening s.labels = '\x7b' := by
    unfold opening
    split
    · exact Or.inr rfl
    · exact Or.inl rfl
  rcases hopening with h | h <;>
    simp [replacements, Replacement.sample, opening_map, h, stripped, stripName, replaceAll,
      relabel, Function.comp_def]

/-- The replacements in a sample's line take suffixes off its name and are made in the
values of its labels. -/
theorem stripLine_render (hs : s.Lexical) : stripLine s.render = (stripped s).render := by
  rw [stripLine_eq (hash_ne_head_render hs), foldl_replaceIn_render lawful_replacements hs,
    foldl_sample]

end Samples

/-! What the stripping is meant to do, and where it does. -/

def withoutSuffix (n : Text) : Text :=
  if "_total".toList <:+ n then dropSuffix "_total".toList n
  else if "_int".toList <:+ n then dropSuffix "_int".toList n
  else dropSuffix "_double".toList n

def renamed (s : Sample) : Sample := { s with name := withoutSuffix s.name }

def renamedLine : Line → Line
  | .comment text => .comment text
  | .sample s => .sample (renamed s)

/-- Line by line only the names of samples are changed, and samples of different series stay
apart. -/
def NamesOnly (ls : List Line) : Prop :=
  stripPrometheusSuffixes (text ls) = joinLines (ls.map fun l => (renamedLine l).render) ∧
    ∀ s t, Line.sample s ∈ ls → Line.sample t ∈ ls → (renamed s).SameSeries (renamed t) →
      s.SameSeries t

/-- Two suffixes of which the second is taken off after the first. -/
def EndsTwice (n : Text) : Prop :=
  "_int_total".toList <:+ n ∨ "_double_total".toList <:+ n ∨ "_double_int".toList <:+ n

/-- No comment ends with a carriage return, no name with two suffixes, no label has a suffix
in front of a blank or a brace in its value, and no two samples with the same labels have
names that differ in the suffix alone. -/
structure Harmless (ls : List Line) : Prop where
  comments : ∀ text, Line.comment text ∈ ls → text.getLast? ≠ some '\r'
  names : ∀ s, Line.sample s ∈ ls → ¬ EndsTwice s.name
  values : ∀ s, Line.sample s ∈ ls → ∀ l ∈ s.labelList, ∀ r ∈ replacements, ¬ r.pattern <:+: l.2
  apart : ∀ s t, Line.sample s ∈ ls → Line.sample t ∈ ls → s.labelList.Perm t.labelList →
    withoutSuffix s.name = withoutSuffix t.name → s.name = t.name

/-- No replacement makes a text longer. -/
theorem length_foldl_replaceIn_le {rs : List Replacement} (hrs : ∀ r ∈ rs, r.Lawful) (v : Text) :
    (rs.foldl Replacement.replaceIn v).length ≤ v.length := by
  induction rs generalizing v with
  | nil => exact Nat.le_refl _
  | cons r rs ih =>
    have hle : (Replacement.replaceIn v r).length ≤ v.length :=
      length_replaceFrom_le r.pattern_ne_nil
        (Nat.le_of_lt (hrs r (List.mem_cons_self ..)).length_lt) v
    have hrest := ih (fun q hq => hrs q (List.mem_cons_of_mem r hq)) (Replacement.replaceIn v r)
    rw [List.foldl_cons]
    omega

/-- A text that gets shorter stays so. -/
theorem foldl_replaceIn_eq_self_iff {rs : List Replacement} (hrs : ∀ r ∈ rs, r.Lawful)
    (v : Text) : rs.foldl Replacement.replaceIn v = v ↔ ∀ r ∈ rs, ¬ r.pattern <:+: v := by
  induction rs with
  | nil => simp
  | cons r rs ih =>
    have hr := hrs r (List.mem_cons_self ..)
    have htail : ∀ q ∈ rs, q.Lawful := fun q hq => hrs q (List.mem_cons_of_mem r hq)
    rw [List.foldl_cons, List.forall_mem_cons]
    by_cases hfound : r.pattern <:+: v
    · refine iff_of_false ?_ fun h => h.1 hfound
      intro heq
      have hlt : (Replacement.replaceIn v r).length < v.length :=
        length_replaceFrom_lt r.pattern_ne_nil hr.length_lt hfound
      have hle := length_foldl_replaceIn_le htail (Replacement.replaceIn v r)
      rw [heq] at hle
      omega
    · have hself : Replacement.replaceIn v r = v := replaceFrom_of_not_infix hfound
      rw [hself, ih htail]
      exact ⟨fun h => ⟨hfound, h⟩, And.right⟩

theorem replaceAll_eq_self_iff (v : Text) :
    replaceAll v = v ↔ ∀ r ∈ replacements, ¬ r.pattern <:+: v :=
  foldl_replaceIn_eq_self_iff lawful_replacements v

/-- Two suffixes leave a name alone only when it ends with neither. -/
theorem dropSuffix_dropSuffix_eq_self_iff {a b n : Text} (ha : a ≠ []) (hb : b ≠ []) :
    dropSuffix a (dropSuffix b n) = n ↔ ¬ b <:+ n ∧ ¬ a <:+ n := by
  constructor
  · intro h
    have hinner : dropSuffix b n = n := by
      have hle := (prefix_dropSuffix a (dropSuffix b n)).length_le
      rw [h] at hle
      exact (prefix_dropSuffix b n).eq_of_length_le hle
    rw [hinner] at h
    exact ⟨(dropSuffix_eq_self_iff hb).mp hinner, (dropSuffix_eq_self_iff ha).mp h⟩
  · rintro ⟨hnb, hna⟩
    rw [dropSuffix_of_not_suffix hnb, dropSuffix_of_not_suffix hna]

theorem not_suffix_append {a b : Text} (hends : a.getLast? ≠ b.getLast?) (ha : a ≠ [])
    (hb : b ≠ []) (n : Text) : ¬ a <:+ n ++ b := by
  rintro ⟨m, hm⟩
  have hlast := congrArg List.getLast? hm
  rw [List.getLast?_append_of_ne_nil _ ha, List.getLast?_append_of_ne_nil _ hb] at hlast
  exact hends hlast

/-- One suffix is all that is taken off exactly where the name does not end with two. -/
theorem stripName_eq_iff (n : Text) : stripName n = withoutSuffix n ↔ ¬ EndsTwice n := by
  have hnint : "_int".toList ≠ [] := by decide
  have hndouble : "_double".toList ≠ [] := by decide
  have hinttotal : "_int_total".toList = "_int".toList ++ "_total".toList := by decide
  have hdoubletotal : "_double_total".toList = "_double".toList ++ "_total".toList := by decide
  have hdoubleint : "_double_int".toList = "_double".toList ++ "_int".toList := by decide
  unfold EndsTwice
  by_cases htotal : "_total".toList <:+ n
  · rw [withoutSuffix, if_pos htotal, stripName]
    obtain ⟨m, rfl⟩ := htotal
    have hno : ¬ "_double_int".toList <:+ m ++ "_total".toList :=
      not_suffix_append (by decide) (by decide) (by decide) m
    rw [dropSuffix_append, dropSuffix_dropSuffix_eq_self_iff hndouble hnint, hinttotal,
      hdoubletotal, List.suffix_append_self_iff, List.suffix_append_self_iff]
    simp only [hno, or_false, not_or]
  · rw [withoutSuffix, if_neg htotal, stripName, dropSuffix_of_not_suffix htotal]
    have htwice : ∀ a : Text, ¬ a ++ "_total".toList <:+ n := fun a h =>
      htotal ((List.suffix_append a _).trans h)
    have hno := htwice "_int".toList
    have hno' := htwice "_double".toList
    rw [← hinttotal] at hno
    rw [← hdoubletotal] at hno'
    by_cases hint : "_int".toList <:+ n
    · rw [if_pos hint]
      obtain ⟨m, rfl⟩ := hint
      rw [dropSuffix_append, dropSuffix_eq_self_iff hndouble, hdoubleint,
        List.suffix_append_self_iff]
      simp only [hno, hno', false_or]
    · have hno'' : ¬ "_double_int".toList <:+ n := by
        rw [hdoubleint]
        exact fun h => hint ((List.suffix_append _ _).trans h)
      rw [if_neg hint, dropSuffix_of_not_suffix hint]
      simp only [hno, hno', hno'', or_false, not_false_eq_true]

/-- A sample loses more than a suffix when its name ends with two, or a label has one in its
value. -/
theorem stripped_eq_renamed_iff (s : Sample) :
    stripped s = renamed s ↔
      ¬ EndsTwice s.name ∧ ∀ l ∈ s.labelList, ∀ r ∈ replacements, ¬ r.pattern <:+: l.2 := by
  have hlabels : s.labels.map (List.map fun l => (l.1, replaceAll l.2)) = s.labels ↔
      ∀ l ∈ s.labelList, replaceAll l.2 = l.2 := by
    unfold Sample.labelList
    cases s.labels with
    | none => simp
    | some ls =>
      have hid : (ls.map fun l => (l.1, replaceAll l.2)) = ls ↔
          (ls.map fun l => (l.1, replaceAll l.2)) = ls.map id := by rw [List.map_id]
      rw [Option.map_some, Option.some.injEq, hid, List.map_eq_map_iff]
      simp [Prod.ext_iff]
  rw [← stripName_eq_iff]
  simp only [← replaceAll_eq_self_iff]
  rw [← hlabels]
  simp [stripped, renamed]

theorem renamed_lexical {s : Sample} (hs : s.Lexical) : (renamed s).Lexical := by
  refine lexical_relabeled hs (f := id) (fun _ => rfl) ?_ ?_ rfl rfl
  · unfold renamed withoutSuffix
    split
    · exact prefix_dropSuffix _ _
    · split
      · exact prefix_dropSuffix _ _
      · exact prefix_dropSuffix _ _
  · unfold renamed
    cases s.labels <;> simp

def outcome : Line → Line
  | .comment text => .comment (stripCr text)
  | .sample s => .sample (stripped s)

theorem outcome_lexical {l : Line} (hl : l.Lexical) : (outcome l).Lexical := by
  cases l with
  | comment text => exact newline_notMem_stripCr hl
  | sample s => exact lexical_stripped hl

theorem stripLine_stripCr {l : Line} (hl : l.Lexical) :
    stripLine (stripCr l.render) = (outcome l).render := by
  rw [stripCr_line hl]
  cases l with
  | comment text =>
    simp [stripLine, Line.trimmed, Line.render, outcome]
  | sample s => exact stripLine_render hl

/-- Stripping a text line by line. -/
theorem stripPrometheusSuffixes_text {ls : List Line} (hls : ∀ l ∈ ls, l.Lexical) :
    stripPrometheusSuffixes (text ls) = joinLines (ls.map fun l => (outcome l).render) := by
  rw [stripPrometheusSuffixes, lines_text hls, List.map_map]
  exact congrArg joinLines (List.map_congr_left fun l hl => stripLine_stripCr (hls l hl))

theorem renamedLine_lexical {l : Line} (hl : l.Lexical) : (renamedLine l).Lexical := by
  cases l with
  | comment text => exact hl
  | sample s => exact renamed_lexical hl

/-- When a line becomes the same line under its new name. -/
theorem outcome_eq_renamedLine_iff (l : Line) :
    outcome l = renamedLine l ↔
      (∀ text, l = .comment text → text.getLast? ≠ some '\r') ∧
        ∀ s, l = .sample s →
          ¬ EndsTwice s.name ∧ ∀ l ∈ s.labelList, ∀ r ∈ replacements, ¬ r.pattern <:+: l.2 := by
  cases l with
  | comment text =>
    rw [outcome, renamedLine, Line.comment.injEq, stripCr_eq_self_iff]
    simp
  | sample s =>
    rw [outcome, renamedLine, Line.sample.injEq, stripped_eq_renamed_iff]
    simp

/-- The text comes out line by line as it should exactly when each line does. -/
theorem stripPrometheusSuffixes_eq_iff {ls : List Line} (hls : ∀ l ∈ ls, l.Lexical) :
    stripPrometheusSuffixes (text ls) = joinLines (ls.map fun l => (renamedLine l).render) ↔
      ∀ l ∈ ls, outcome l = renamedLine l := by
  rw [stripPrometheusSuffixes_text hls]
  constructor
  · intro h l hl
    have hmap := joinLines_inj (by simp) ?_ ?_ h
    · have hrender := List.map_eq_map_iff.mp hmap l hl
      exact render_inj (outcome_lexical (hls l hl)) (renamedLine_lexical (hls l hl)) hrender
    · intro line hline
      obtain ⟨m, hm, rfl⟩ := List.mem_map.mp hline
      exact newline_notMem_render (outcome_lexical (hls m hm))
    · intro line hline
      obtain ⟨m, hm, rfl⟩ := List.mem_map.mp hline
      exact newline_notMem_render (renamedLine_lexical (hls m hm))
  · intro h
    exact congrArg joinLines (List.map_congr_left fun l hl => by rw [h l hl])

/-- Stripping changes names only, and keeps series apart, exactly in a harmless
exposition. -/
theorem names_only_iff {ls : List Line} (hls : ∀ l ∈ ls, l.WellFormed) :
    NamesOnly ls ↔ Harmless ls := by
  unfold NamesOnly
  rw [stripPrometheusSuffixes_eq_iff fun l hl => (hls l hl).lexical]
  constructor
  · rintro ⟨hlines, hapart⟩
    have hline := fun l hl => (outcome_eq_renamedLine_iff l).mp (hlines l hl)
    exact {
      comments := fun text htext => (hline _ htext).1 text rfl
      names := fun s hs => ((hline _ hs).2 s rfl).1
      values := fun s hs => ((hline _ hs).2 s rfl).2
      apart := fun s t hs ht hlabels hname => (hapart s t hs ht ⟨hname, hlabels⟩).1 }
  · intro h
    refine ⟨fun l hl => (outcome_eq_renamedLine_iff l).mpr ⟨?_, ?_⟩, ?_⟩
    · rintro text rfl
      exact h.comments text hl
    · rintro s rfl
      exact ⟨h.names s hl, h.values s hl⟩
    · intro s t hs ht hsame
      exact ⟨h.apart s t hs ht hsame.2 hsame.1, hsame.2⟩

def labeled (value : String) : Line :=
  .sample ⟨"m".toList, some [("job".toList, value.toList)], "1".toList, none⟩

theorem labeled_wellFormed (value : String) : (labeled value).WellFormed := by
  have hname : IsName "m".toList := by decide
  have hlabel : IsName "job".toList ∧ ':' ∉ "job".toList := by decide
  have hvalue : IsNumber "1".toList := by decide
  exact {
    name := hname.1
    labels := by simpa [Sample.labelList] using hlabel.1.1
    value := hvalue
    timestamp := by simp
    isName := hname
    isLabelName := by simpa [Sample.labelList] using hlabel
    distinct := by simp [Sample.labelList] }

theorem names_only_iff_labeled :
    (∀ l ∈ [labeled "node"], l.WellFormed) ∧
      (NamesOnly [labeled "node"] ↔ Harmless [labeled "node"]) := by
  have hwell : ∀ l ∈ [labeled "node"], l.WellFormed := by
    intro l hl
    rw [List.mem_singleton.mp hl]
    exact labeled_wellFormed "node"
  exact ⟨hwell, names_only_iff hwell⟩

/-- The value of the label loses its suffix. -/
theorem label_value_changed :
    (labeled "a_total b").WellFormed ∧
      stripPrometheusSuffixes (text [labeled "a_total b"]) = "m\x7bjob=\"a b\"\x7d 1".toList ∧
      ¬ NamesOnly [labeled "a_total b"] := by
  refine ⟨labeled_wellFormed _, by decide +kernel, ?_⟩
  intro h
  exact absurd h.1 (by decide +kernel)

end Hermod.SuffixStripping
