import Hermod.MetricsPaths
import Hermod.Runs
import Mathlib

/-!
The slug of a name as its words, which are the maximal runs of letters and digits in the
lower-cased name, with a dash between them. A slug has no upper-case characters left and is
its own slug.
-/
namespace Hermod.Slugs

open MetricsPaths Runs TracerState

/-- Upper-case characters are those that lower-casing changes. It leaves none behind. -/
structure LowerCases (u : Unicode) (isUppercase : Char → Bool) : Prop where
  unchanged : ∀ s, (∀ c ∈ s, isUppercase c = false) → u.toLowercase s = s
  lowered : ∀ s, ∀ c ∈ u.toLowercase s, isUppercase c = false
  ascii : ∀ c, c.toNat < 128 → isUppercase c = c.isUpper

theorem lowerCases_ascii : LowerCases .ascii Char.isUpper where
  unchanged s h := by
    have hid : s.map Char.toLower = s.map id := by
      apply List.map_congr_left
      intro c hc
      exact Char.toLower_eq_of_not_isUpper (by simp [h c hc])
    exact hid.trans (List.map_id s)
  lowered s c hc := by
    obtain ⟨d, -, rfl⟩ := List.mem_map.mp hc
    exact Char.isUpper_toLower_eq_false d
  ascii _ _ := rfl

def nameWords (u : Unicode) (name : String) : List (List Char) :=
  runs u.isAlphanumeric (u.toLowercase name.toList)

section Collapse

variable {u : Unicode} {s r : List Char} {rs : List (List Char)}

/-- A word passes through unchanged. -/
theorem collapse_append {lastWasDash : Bool} (hne : r ≠ []) (hr : ∀ c ∈ r, c ≠ '-')
    (s : List Char) : collapse lastWasDash (r ++ s) = r ++ collapse false s := by
  induction r generalizing lastWasDash with
  | nil => exact absurd rfl hne
  | cons c r ih =>
    have hc := hr c (List.mem_cons_self ..)
    rw [List.cons_append, collapse, if_neg hc]
    by_cases hnil : r = []
    · rw [hnil]
      rfl
    · rw [ih hnil fun d hd => hr d (List.mem_cons_of_mem c hd), List.cons_append]

def dashed (u : Unicode) (s : List Char) : List Char :=
  s.map fun c => if u.isAlphanumeric c then c else '-'

theorem dashed_word (hr : ∀ c ∈ r, u.isAlphanumeric c = true) : dashed u r = r := by
  have hid : dashed u r = r.map id := List.map_congr_left fun c hc => if_pos (hr c hc)
  rw [hid, List.map_id]

theorem dashed_gap {c : Char} (hc : u.isAlphanumeric c = false) (s : List Char) :
    dashed u (c :: s) = '-' :: dashed u s := by
  rw [dashed, List.map_cons, hc]
  rfl

/-- A word in front is kept as it is. -/
theorem collapse_word (hdash : u.isAlphanumeric '-' = false) (hne : r ≠ [])
    (hr : ∀ c ∈ r, u.isAlphanumeric c = true) (s : List Char) :
    collapse true (dashed u (r ++ s)) = r ++ collapse false (dashed u s) := by
  have happend : dashed u (r ++ s) = r ++ dashed u s := by
    rw [dashed, List.map_append]
    exact congrArg (· ++ dashed u s) (dashed_word hr)
  rw [happend]
  apply collapse_append hne
  rintro c hc rfl
  rw [hr _ hc] at hdash
  cases hdash

/-- What is collapsed is the words with dashes between them, and perhaps one more dash at the
end. By induction on the runs: a gap behind a run begins with the dash that is kept. -/
theorem collapse_runs (hdash : u.isAlphanumeric '-' = false)
    (h : MaximalRuns u.isAlphanumeric s rs) :
    ∃ t, (t = [] ∨ t = ['-'] ∧ rs ≠ []) ∧
      collapse true (dashed u s) = ['-'].intercalate rs ++ t := by
  induction h with
  | nil => exact ⟨[], Or.inl rfl, rfl⟩
  | gap hc h ih =>
    obtain ⟨t, ht, hcollapse⟩ := ih
    refine ⟨t, ht, ?_⟩
    rw [dashed_gap hc, ← hcollapse]
    rfl
  | @run r s rs hne hr hend h ih =>
    obtain ⟨t, ht, hcollapse⟩ := ih
    rw [collapse_word hdash hne hr]
    cases s with
    | nil =>
      have hnil : rs = [] := maximalRuns_iff.mp h
      refine ⟨[], Or.inl rfl, ?_⟩
      rw [hnil, List.intercalate_singleton]
      rfl
    | cons c s =>
      have hc : u.isAlphanumeric c = false := hend c rfl
      have hgap : collapse false (dashed u (c :: s)) = '-' :: (['-'].intercalate rs ++ t) := by
        rw [← hcollapse, dashed_gap hc]
        rfl
      rw [hgap]
      by_cases hnil : rs = []
      · have htail : t = [] := ht.resolve_right fun h => h.2 hnil
        refine ⟨['-'], Or.inr ⟨rfl, List.cons_ne_nil _ _⟩, ?_⟩
        rw [hnil, htail, List.intercalate_singleton]
        rfl
      · refine ⟨t, ht.imp_right fun h => ⟨h.1, List.cons_ne_nil _ _⟩, ?_⟩
        rw [intercalate_cons hnil, List.append_assoc, List.cons_append]

end Collapse

section Slug

variable {u : Unicode} {name : String}

theorem words_nameWords (u : Unicode) (name : String) :
    Words u.isAlphanumeric (nameWords u name) := (maximalRuns_runs _ _).words

/-- The words with dashes between them, or the letter that stands for none. -/
theorem slugify_words (hdash : u.isAlphanumeric '-' = false) (name : String) :
    (slugify u name).toList =
      if nameWords u name = [] then ['x'] else ['-'].intercalate (nameWords u name) := by
  have hwords := words_nameWords u name
  obtain ⟨t, ht, hcollapse⟩ : ∃ t, (t = [] ∨ t = ['-'] ∧ nameWords u name ≠ []) ∧
      collapse true (dashed u (u.toLowercase name.toList)) =
        ['-'].intercalate (nameWords u name) ++ t := collapse_runs hdash (maximalRuns_runs _ _)
  have hlast : (['-'].intercalate (nameWords u name)).getLast? ≠ some '-' := by
    intro hlast
    rw [getLast_intercalate hwords '-' hlast] at hdash
    cases hdash
  have htrim : (if (collapse true (dashed u (u.toLowercase name.toList))).getLast? = some '-' then
      (collapse true (dashed u (u.toLowercase name.toList))).dropLast
      else collapse true (dashed u (u.toLowercase name.toList))) =
        ['-'].intercalate (nameWords u name) := by
    rw [hcollapse]
    rcases ht with rfl | ⟨rfl, -⟩
    · rw [List.append_nil, if_neg hlast]
    · rw [List.getLast?_concat, if_pos rfl, List.dropLast_concat]
  unfold dashed at htrim
  simp only [slugify, htrim, String.toList_ofList, intercalate_eq_nil_iff hwords]

def slugWords (u : Unicode) (name : String) : List (List Char) :=
  if nameWords u name = [] then [['x']] else nameWords u name

theorem slugify_toList_eq (hdash : u.isAlphanumeric '-' = false) (name : String) :
    (slugify u name).toList = ['-'].intercalate (slugWords u name) := by
  rw [slugify_words hdash, slugWords]
  split
  · rw [List.intercalate_singleton]
  · rfl

theorem words_slugWords (hx : u.isAlphanumeric 'x' = true) (name : String) :
    Words u.isAlphanumeric (slugWords u name) := by
  unfold slugWords
  split
  · simpa [Words] using hx
  · exact words_nameWords u name

/-- There is nothing left to lower in a slug. -/
theorem toLowercase_slugify {isUppercase : Char → Bool} (hcase : LowerCases u isUppercase)
    (name : String) : u.toLowercase (slugify u name).toList = (slugify u name).toList := by
  apply hcase.unchanged
  intro c hc
  have hascii : ∀ c : Char, c.toNat < 128 → c.isUpper = false → isUppercase c = false := by
    intro c hc hno
    rw [hcase.ascii c hc, hno]
  rcases mem_slugify hc with rfl | hraw
  · exact hascii 'x' (by decide) (by decide)
  · obtain ⟨d, hd, rfl⟩ := List.mem_map.mp hraw
    split
    · exact hcase.lowered _ d hd
    · exact hascii '-' (by decide) (by decide)

/-- A slug is its own slug. -/
theorem slugify_slugify {isUppercase : Char → Bool} (hdash : u.isAlphanumeric '-' = false)
    (hx : u.isAlphanumeric 'x' = true) (hcase : LowerCases u isUppercase) (name : String) :
    slugify u (slugify u name) = slugify u name := by
  have hwords : nameWords u (slugify u name) = slugWords u name := by
    rw [nameWords, toLowercase_slugify hcase, slugify_toList_eq hdash]
    exact (maximalRuns_iff.mp (maximalRuns_intercalate hdash (words_slugWords hx name))).symm
  have hne : slugWords u name ≠ [] := by
    unfold slugWords
    split
    · exact List.cons_ne_nil _ _
    · assumption
  apply String.toList_inj.mp
  rw [slugify_words hdash, hwords, if_neg hne, slugify_toList_eq hdash]

end Slug

/-- A slug is made of the maximal runs of letters and digits of the lower-cased name with
dashes between them, so it is not empty, has no dash at an end and no two in a row, and is
its own slug. -/
theorem slugify_runs {u : Unicode} {isUppercase : Char → Bool}
    (hascii : ∀ c, c.toNat < 128 → u.isAlphanumeric c = c.isAlphanum)
    (hcase : LowerCases u isUppercase) (s : String) :
    (∃ rs, MaximalRuns u.isAlphanumeric (u.toLowercase s.toList) rs ∧
      slugify u s = if rs = [] then "x" else "-".intercalate (rs.map String.ofList)) ∧
    slugify u s ≠ "" ∧ (slugify u s).toList.head? ≠ some '-' ∧
    (slugify u s).toList.getLast? ≠ some '-' ∧ ¬ ['-', '-'] <:+: (slugify u s).toList ∧
    slugify u (slugify u s) = slugify u s := by
  have hdash : u.isAlphanumeric '-' = false := by
    rw [hascii _ (by decide)]
    decide
  have hx : u.isAlphanumeric 'x' = true := by
    rw [hascii _ (by decide)]
    decide
  have hlist := slugify_toList_eq hdash s
  have hwords := words_slugWords hx s
  refine ⟨⟨nameWords u s, maximalRuns_runs _ _, ?_⟩, ?_, ?_, ?_, ?_,
    slugify_slugify hdash hx hcase s⟩
  · apply String.toList_inj.mp
    rw [slugify_words hdash]
    split
    · rfl
    · rw [String.toList_intercalate, List.map_map]
      simp [Function.comp_def]
  · intro hempty
    exact slugify_ne_nil u s (by rw [hempty]; rfl)
  · intro hhead
    rw [hlist] at hhead
    rw [head_intercalate hwords '-' hhead] at hdash
    cases hdash
  · intro hlast
    rw [hlist] at hlast
    rw [getLast_intercalate hwords '-' hlast] at hdash
    cases hdash
  · rw [hlist]
    exact not_doubled_intercalate hdash hwords

theorem slugify_runs_ascii :
    (∃ rs, MaximalRuns Char.isAlphanum ("-My Node:3".toList.map Char.toLower) rs ∧
      slugify .ascii "-My Node:3" =
        if rs = [] then "x" else "-".intercalate (rs.map String.ofList)) ∧
    slugify .ascii "-My Node:3" ≠ "" ∧ (slugify .ascii "-My Node:3").toList.head? ≠ some '-' ∧
    (slugify .ascii "-My Node:3").toList.getLast? ≠ some '-' ∧
    ¬ ['-', '-'] <:+: (slugify .ascii "-My Node:3").toList ∧
    slugify .ascii (slugify .ascii "-My Node:3") = slugify .ascii "-My Node:3" :=
  slugify_runs (fun _ _ => rfl) lowerCases_ascii "-My Node:3"

end Hermod.Slugs
