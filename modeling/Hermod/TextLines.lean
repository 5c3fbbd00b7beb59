import Mathlib.Data.List.Basic

/-!
Texts as lists of characters, cut into lines and put together again. A line ends at a
newline, with a carriage return before it or not, and the last line need not be ended.
Texts can be concatenated line by line unless one without a final newline is followed by
another.
-/
namespace Hermod.TextLines

abbrev Text := List Char

/-- The characters of a text are checked one by one, not all characters that there are. -/
instance (priority := 2000) (s : Text) (p : Char → Prop) [DecidablePred p] :
    Decidable (∀ c ∈ s, p c) :=
  List.decidableBAll p s

def stripCr (line : Text) : Text := if line.getLast? = some '\r' then line.dropLast else line

theorem stripCr_eq_self_iff (line : Text) : stripCr line = line ↔ line.getLast? ≠ some '\r' := by
  unfold stripCr
  split
  · rename_i hcr
    refine iff_of_false ?_ (fun h => h hcr)
    intro h
    have hlen := congrArg List.length h
    have hne : line ≠ [] := by
      rintro rfl
      simp at hcr
    have hpos : 0 < line.length := List.length_pos_of_ne_nil hne
    rw [List.length_dropLast] at hlen
    omega
  · rename_i hcr
    exact iff_of_true rfl hcr

theorem newline_notMem_stripCr {l : Text} (hl : '\n' ∉ l) : '\n' ∉ stripCr l := by
  unfold stripCr
  split
  · exact fun h => hl (List.dropLast_subset l h)
  · exact hl

theorem stripCr_append_cons {c : Char} (hc : c ≠ '\r') (a s : Text) :
    stripCr (a ++ c :: s) = a ++ c :: stripCr s := by
  have hlast : (a ++ c :: s).getLast? = s.getLast?.or (some c) := by
    rw [List.getLast?_append, List.getLast?_cons]
    cases s.getLast? <;> rfl
  unfold stripCr
  by_cases hcr : s.getLast? = some '\r'
  · have hne : s ≠ [] := by
      rintro rfl
      simp at hcr
    rw [if_pos hcr, if_pos (by rw [hlast, hcr]; rfl), List.dropLast_append_of_ne_nil (by simp),
      List.dropLast_cons_of_ne_nil hne]
  · rw [if_neg hcr, if_neg]
    rw [hlast]
    cases hs : s.getLast? with
    | none => simpa using hc
    | some d => simpa [hs] using hcr

/-- The lines from here on; `line` is what has been read of the current one, reversed. -/
def linesFrom (line : Text) : Text → List Text
  | [] => if line = [] then [] else [line.reverse]
  | c :: cs =>
    if c = '\n' then stripCr line.reverse :: linesFrom [] cs else linesFrom (c :: line) cs

def lines (s : Text) : List Text := linesFrom [] s

def joinLines (ls : List Text) : Text := ['\n'].intercalate ls

/-- The text does not end with a newline, so what is put behind it goes on with its last
line. -/
def Open (s : Text) : Prop := s.getLast?.any (· ≠ '\n') = true

instance (s : Text) : Decidable (Open s) := inferInstanceAs (Decidable (_ = true))

@[simp] theorem not_open_nil : ¬ Open [] := by simp [Open]

@[simp] theorem open_append_singleton (s : Text) (c : Char) : Open (s ++ [c]) ↔ c ≠ '\n' := by
  simp [Open]

theorem open_append {s t : Text} (ht : t ≠ []) : Open (s ++ t) ↔ Open t := by
  simp [Open, List.getLast?_append, List.getLast?_eq_some_getLast ht]

theorem open_append_iff (s t : Text) : Open (s ++ t) ↔ Open t ∨ t = [] ∧ Open s := by
  by_cases ht : t = []
  · simp [ht]
  · simp [open_append ht, ht]

/-- A text that is not open is empty or ends with a newline. -/
theorem eq_nil_or_terminated {s : Text} (hs : ¬ Open s) : s = [] ∨ ∃ t, s = t ++ ['\n'] := by
  rcases List.eq_nil_or_concat s with rfl | ⟨t, c, rfl⟩
  · exact Or.inl rfl
  · right
    simp only [List.concat_eq_append, open_append_singleton, ne_eq, not_not] at hs
    exact ⟨t, by rw [hs, List.concat_eq_append]⟩

theorem linesFrom_append_newline (line s t : Text) :
    linesFrom line (s ++ '\n' :: t) = linesFrom line (s ++ ['\n']) ++ lines t := by
  induction s generalizing line with
  | nil => simp [linesFrom, lines]
  | cons c s ih =>
    by_cases hc : c = '\n'
    · simp [linesFrom, hc, ih]
    · simp [linesFrom, hc, ih]

/-- Behind a text that is not open the lines start afresh. -/
theorem lines_append {s : Text} (hs : ¬ Open s) (t : Text) :
    lines (s ++ t) = lines s ++ lines t := by
  rcases eq_nil_or_terminated hs with rfl | ⟨u, rfl⟩
  · rfl
  · rw [List.append_assoc]
    exact linesFrom_append_newline [] u t

/-- There are as many lines as newlines, and one more that is open. -/
theorem length_linesFrom (line s : Text) :
    (linesFrom line s).length =
      s.count '\n' + if Open s ∨ s = [] ∧ line ≠ [] then 1 else 0 := by
  induction s generalizing line with
  | nil => by_cases h : line = [] <;> simp [linesFrom, h]
  | cons c s ih =>
    have hopen : Open (c :: s) ↔ Open s ∨ s = [] ∧ c ≠ '\n' := by
      have happ := open_append_iff [c] s
      have hone := open_append_singleton [] c
      rw [List.nil_append] at hone
      rwa [hone] at happ
    by_cases hc : c = '\n'
    · subst hc
      simp only [hopen, ne_eq, not_true_eq_false, and_false, or_false]
      simp [linesFrom, ih]
      omega
    · simp [linesFrom, hc, ih, hopen]

/-- There are as many lines as newlines, and one more where the text is open. -/
theorem length_lines (s : Text) :
    (lines s).length = s.count '\n' + if Open s then 1 else 0 := by
  simp [lines, length_linesFrom]

/-- Lines have no newlines. -/
theorem newline_notMem_of_mem_linesFrom {line s l : Text} (hline : '\n' ∉ line)
    (h : l ∈ linesFrom line s) : '\n' ∉ l := by
  induction s generalizing line with
  | nil =>
    by_cases hnil : line = []
    · simp [linesFrom, hnil] at h
    · simp only [linesFrom, hnil, if_false, List.mem_singleton] at h
      simpa [h] using hline
  | cons c s ih =>
    by_cases hc : c = '\n'
    · simp only [linesFrom, hc, if_true, List.mem_cons] at h
      rcases h with rfl | h
      · exact newline_notMem_stripCr fun hmem => hline (List.mem_reverse.mp hmem)
      · exact ih List.not_mem_nil h
    · simp only [linesFrom, hc, if_false] at h
      refine ih ?_ h
      simp only [List.mem_cons, not_or]
      exact ⟨fun heq => hc heq.symm, hline⟩

theorem newline_notMem_of_mem_lines {s l : Text} (h : l ∈ lines s) : '\n' ∉ l :=
  newline_notMem_of_mem_linesFrom List.not_mem_nil h

/-- Concatenating texts can only lose lines. -/
theorem length_lines_flatten_le (ts : List Text) :
    (lines ts.flatten).length ≤ (ts.map lines).flatten.length := by
  induction ts with
  | nil => exact Nat.le_refl _
  | cons t ts ih =>
    have hle : (lines (t ++ ts.flatten)).length ≤ (lines t).length + (lines ts.flatten).length := by
      simp only [length_lines, List.count_append, open_append_iff]
      by_cases ht : Open t
      · by_cases hts : Open ts.flatten
        · simp only [ht, hts, if_true, true_or]
          omega
        · by_cases hnil : ts.flatten = []
          · simp [ht, hnil]
          · simp [ht, hts, hnil]
      · by_cases hts : Open ts.flatten
        · simp only [ht, hts, if_true, true_or, if_false]
          omega
        · simp [ht, hts]
    rw [List.flatten_cons, List.map_cons, List.flatten_cons, List.length_append]
    omega

/-- The lines of a concatenation are those of its parts exactly when nothing stands
behind an open part. -/
theorem lines_flatten_iff (ts : List Text) :
    lines ts.flatten = (ts.map lines).flatten ↔ ts.Pairwise fun t u => Open t → u = [] := by
  induction ts with
  | nil =>
    refine iff_of_true ?_ List.Pairwise.nil
    simp [lines, linesFrom]
  | cons t ts ih =>
    rw [List.flatten_cons, List.map_cons, List.flatten_cons, List.pairwise_cons]
    by_cases ht : Open t
    · constructor
      · intro h
        have hnil : ts.flatten = [] := by
          by_contra hne
          have hlen := congrArg List.length h
          have hle := length_lines_flatten_le ts
          rw [List.length_append, length_lines, length_lines t, List.count_append] at hlen
          rw [length_lines] at hle
          simp only [open_append hne, ht, if_true] at hlen
          omega
        have hall : ∀ u ∈ ts, u = [] := List.flatten_eq_nil_iff.mp hnil
        exact ⟨fun u hu _ => hall u hu,
          List.pairwise_of_forall_mem_list fun _ _ u hu _ => hall u hu⟩
      · intro h
        have hall : ∀ u ∈ ts, u = [] := fun u hu => h.1 u hu ht
        have hlines : (ts.map lines).flatten = [] := by
          rw [List.flatten_eq_nil_iff]
          intro l hl
          obtain ⟨u, hu, rfl⟩ := List.mem_map.mp hl
          rw [hall u hu]
          rfl
        rw [List.flatten_eq_nil_iff.mpr hall, hlines, List.append_nil, List.append_nil]
    · rw [lines_append ht, List.append_right_inj, ih]
      exact ⟨fun h => ⟨fun _ _ hopen => absurd hopen ht, h⟩, And.right⟩

/-! Lines joined with newlines. -/

theorem joinLines_concat {ls : List Text} (hls : ls ≠ []) (l : Text) :
    joinLines (ls ++ [l]) = joinLines ls ++ '\n' :: l := by
  induction ls with
  | nil => exact absurd rfl hls
  | cons m ls ih =>
    by_cases hnil : ls = []
    · simp [joinLines, hnil]
    · have hcons : ∀ ms, ms ≠ [] → joinLines (m :: ms) = m ++ ['\n'] ++ joinLines ms :=
        fun ms hms => List.intercalate_cons_of_ne_nil hms
      rw [List.cons_append, hcons _ (by simp), ih hnil, hcons ls hnil]
      simp

/-- Joined lines are open unless the last one is empty. -/
theorem open_joinLines_iff {ls : List Text} (hls : ∀ l ∈ ls, '\n' ∉ l) :
    Open (joinLines ls) ↔ ls.getLast?.any (· ≠ []) = true := by
  have hline : ∀ l : Text, '\n' ∉ l → (Open l ↔ l ≠ []) := by
    intro l hl
    rcases List.eq_nil_or_concat l with rfl | ⟨l, c, rfl⟩
    · simp
    · rw [List.concat_eq_append, open_append_singleton]
      refine iff_of_true ?_ (by simp)
      rintro rfl
      simp at hl
  rcases List.eq_nil_or_concat ls with rfl | ⟨ls, l, rfl⟩
  · simp [joinLines]
  · rw [List.concat_eq_append] at hls ⊢
    have hl : '\n' ∉ l := hls l (by simp)
    by_cases hnil : ls = []
    · simpa [hnil, joinLines] using hline l hl
    · rw [joinLines_concat hnil, ← List.singleton_append, ← List.append_assoc, open_append_iff,
        hline l hl]
      simp

theorem joinLines_eq_nil_iff {ls : List Text} : joinLines ls = [] ↔ ls = [] ∨ ls = [[]] := by
  rcases List.eq_nil_or_concat ls with rfl | ⟨ls, l, rfl⟩
  · simp [joinLines]
  · rw [List.concat_eq_append]
    by_cases hnil : ls = []
    · simp [hnil, joinLines]
    · have hlen : ls.length ≠ 0 := by simpa using hnil
      have hne : ls ++ [l] ≠ [[]] := by
        intro h
        have hlength := congrArg List.length h
        simp only [List.length_append, List.length_singleton] at hlength
        omega
      simp [joinLines_concat hnil, hne]

/-! Reading lines that were put together. -/

/-- The first line is what stands in front of the first newline. -/
theorem linesFrom_line (read : Text) {l : Text} (hl : '\n' ∉ l) (t : Text) :
    linesFrom read (l ++ '\n' :: t) = stripCr (read.reverse ++ l) :: lines t := by
  induction l generalizing read with
  | nil => simp [linesFrom, lines]
  | cons c l ih =>
    have hne : ¬ c = '\n' := by
      rintro rfl
      exact hl (List.mem_cons_self ..)
    have htail : '\n' ∉ l := fun h => hl (List.mem_cons_of_mem c h)
    simp [linesFrom, hne, ih (c :: read) htail]

theorem lines_line {l : Text} (hl : '\n' ∉ l) (t : Text) :
    lines (l ++ '\n' :: t) = stripCr l :: lines t := linesFrom_line [] hl t

theorem linesFrom_open (read : Text) {l : Text} (hl : '\n' ∉ l) (hne : read ≠ [] ∨ l ≠ []) :
    linesFrom read l = [read.reverse ++ l] := by
  induction l generalizing read with
  | nil =>
    have hread : read ≠ [] := hne.resolve_right (by simp)
    simp [linesFrom, hread]
  | cons c l ih =>
    have hc : ¬ c = '\n' := by
      rintro rfl
      exact hl (List.mem_cons_self ..)
    have htail : '\n' ∉ l := fun h => hl (List.mem_cons_of_mem c h)
    have hrest := ih (c :: read) htail (Or.inl (by simp))
    simp [linesFrom, hc, hrest]

/-- A line that nothing ends is read as it is. -/
theorem lines_open {l : Text} (hl : '\n' ∉ l) (hne : l ≠ []) : lines l = [l] :=
  linesFrom_open [] hl (Or.inr hne)

/-- The first line of a text that begins with a part of it. -/
theorem lines_append_cons {a : Text} (ha : '\n' ∉ a) {c : Char} (hc : c ≠ '\n' ∧ c ≠ '\r')
    (s : Text) : ∃ x more, lines (a ++ c :: s) = (a ++ c :: x) :: more := by
  by_cases hs : '\n' ∈ s
  · obtain ⟨x, t, rfl, hx⟩ := List.eq_append_cons_of_mem hs
    have hline : '\n' ∉ a ++ c :: x := by
      simp [ha, hx, hc.1.symm]
    have hlines := lines_line hline t
    rw [stripCr_append_cons hc.2, List.append_assoc, List.cons_append] at hlines
    exact ⟨stripCr x, lines t, hlines⟩
  · have hline : '\n' ∉ a ++ c :: s := by
      simp [ha, hs, hc.1.symm]
    exact ⟨s, [], lines_open hline (by simp)⟩

theorem lines_terminated {ls : List Text} (h : ∀ l ∈ ls, '\n' ∉ l) :
    lines (ls.flatMap (· ++ ['\n'])) = ls.map stripCr := by
  induction ls with
  | nil => rfl
  | cons l ls ih =>
    have hline := lines_line (h l (List.mem_cons_self ..)) (ls.flatMap (· ++ ['\n']))
    rw [List.flatMap_cons, List.append_assoc, List.singleton_append, hline,
      ih fun m hm => h m (List.mem_cons_of_mem l hm), List.map_cons]

@[simp] theorem joinLines_singleton (l : Text) : joinLines [l] = l := by simp [joinLines]

theorem joinLines_cons {ls : List Text} (hls : ls ≠ []) (l : Text) :
    joinLines (l :: ls) = l ++ '\n' :: joinLines ls := by
  rw [joinLines, List.intercalate_cons_of_ne_nil hls, List.append_assoc]
  rfl

/-- What is put behind joined lines goes on with the last of them. -/
theorem lines_joinLines_append {ls : List Text} (h : ∀ l ∈ ls, '\n' ∉ l) (l t : Text) :
    lines (joinLines (ls ++ [l]) ++ t) = ls.map stripCr ++ lines (l ++ t) := by
  induction ls with
  | nil => simp
  | cons m ls ih =>
    have hline := lines_line (h m (List.mem_cons_self ..)) (joinLines (ls ++ [l]) ++ t)
    rw [List.cons_append, joinLines_cons (by simp), List.append_assoc, List.cons_append, hline,
      ih fun k hk => h k (List.mem_cons_of_mem m hk)]
    rfl

/-- Two texts begin with the same word, of the characters of `P`, when they are the same. -/
theorem append_cons_inj {P : Char → Prop} {a b s t : Text} {x y : Char} (ha : ∀ c ∈ a, P c)
    (hb : ∀ c ∈ b, P c) (hx : ¬ P x) (hy : ¬ P y) (h : a ++ x :: s = b ++ y :: t) :
    a = b ∧ x = y ∧ s = t := by
  induction a generalizing b with
  | nil =>
    cases b with
    | nil => simpa using h
    | cons d b =>
      rw [List.nil_append, List.cons_append, List.cons.injEq] at h
      exact absurd (h.1 ▸ hb d (List.mem_cons_self ..)) hx
  | cons c a ih =>
    cases b with
    | nil =>
      rw [List.nil_append, List.cons_append, List.cons.injEq] at h
      exact absurd (h.1 ▸ ha c (List.mem_cons_self ..)) hy
    | cons d b =>
      rw [List.cons_append, List.cons_append, List.cons.injEq] at h
      obtain ⟨rfl, hxy, hst⟩ := ih (fun e he => ha e (List.mem_cons_of_mem c he))
        (fun e he => hb e (List.mem_cons_of_mem d he)) h.2
      exact ⟨by rw [h.1], hxy, hst⟩

/-- As many lines without newlines, joined to the same text, are the same. -/
theorem joinLines_inj {ls ms : List Text} (hlen : ls.length = ms.length)
    (hls : ∀ l ∈ ls, '\n' ∉ l) (hms : ∀ l ∈ ms, '\n' ∉ l) (h : joinLines ls = joinLines ms) :
    ls = ms := by
  induction ls generalizing ms with
  | nil => exact (List.eq_nil_of_length_eq_zero hlen.symm).symm
  | cons l ls ih =>
    cases ms with
    | nil => simp at hlen
    | cons m ms =>
      have hlen' : ls.length = ms.length := by simpa using hlen
      by_cases hnil : ls = []
      · have hms' : ms = [] := by simpa [hnil] using hlen'.symm
        simpa [hnil, hms'] using h
      · have hms' : ms ≠ [] := by
          rintro rfl
          exact hnil (List.eq_nil_of_length_eq_zero hlen')
        rw [joinLines_cons hnil, joinLines_cons hms'] at h
        obtain ⟨rfl, -, hrest⟩ := append_cons_inj (P := (· ≠ '\n'))
          (fun c hc heq => hls l (List.mem_cons_self ..) (heq ▸ hc))
          (fun c hc heq => hms m (List.mem_cons_self ..) (heq ▸ hc)) (by simp) (by simp) h
        rw [ih hlen' (fun k hk => hls k (List.mem_cons_of_mem l hk))
          (fun k hk => hms k (List.mem_cons_of_mem l hk)) hrest]

/-! Counting what stands in a text. -/

/-- A character that the separator lacks stands in one of the parts. -/
theorem mem_intercalate_iff {c : Char} {sep : Text} (hc : c ∉ sep) (ls : List Text) :
    c ∈ sep.intercalate ls ↔ ∃ l ∈ ls, c ∈ l := by
  induction ls with
  | nil => simp
  | cons l ls ih =>
    by_cases hnil : ls = []
    · simp [hnil]
    · rw [List.intercalate_cons_of_ne_nil hnil, List.mem_append, List.mem_append, ih]
      simp [hc]

/-- Texts with a newline each have at least as many newlines together. -/
theorem length_le_count_flatten {ts : List Text} (h : ∀ t ∈ ts, 1 ≤ t.count '\n') :
    ts.length ≤ ts.flatten.count '\n' := by
  induction ts with
  | nil => simp
  | cons t ts ih =>
    have ht := h t (List.mem_cons_self ..)
    have hts := ih fun u hu => h u (List.mem_cons_of_mem t hu)
    rw [List.flatten_cons, List.count_append, List.length_cons]
    omega

/-- Texts with newlines make as many of them as there are texts exactly when each has one. -/
theorem count_flatten_eq_length_iff {ts : List Text} (h : ∀ t ∈ ts, 1 ≤ t.count '\n') :
    ts.flatten.count '\n' = ts.length ↔ ∀ t ∈ ts, t.count '\n' = 1 := by
  induction ts with
  | nil => simp
  | cons t ts ih =>
    have ht := h t (List.mem_cons_self ..)
    have htail : ∀ u ∈ ts, 1 ≤ u.count '\n' := fun u hu => h u (List.mem_cons_of_mem t hu)
    have hle := length_le_count_flatten htail
    rw [List.flatten_cons, List.count_append, List.length_cons, List.forall_mem_cons]
    constructor
    · intro hsum
      exact ⟨by omega, (ih htail).mp (by omega)⟩
    · rintro ⟨hone, hrest⟩
      have heq := (ih htail).mpr hrest
      omega

end Hermod.TextLines
