import Mathlib.Data.List.Chain

/-!
The maximal runs of a list, which are its longest parts with a property throughout. What
stands between two of them, or at an end of the list, is a gap. A list of words with a
separator between them has the words for its runs.
-/
namespace Hermod.Runs

variable {α : Type} {p : α → Bool} {s r : List α} {rs rs' : List (List α)}

/-- The maximal runs of a list in their order. A run goes on to the end of the list or to a
gap, and begins at the start of the list or behind a gap. -/
inductive MaximalRuns (p : α → Bool) : List α → List (List α) → Prop
  | nil : MaximalRuns p [] []
  | gap {a : α} {s : List α} {rs : List (List α)} (ha : p a = false) (h : MaximalRuns p s rs) :
    MaximalRuns p (a :: s) rs
  | run {r s : List α} {rs : List (List α)} (hne : r ≠ []) (hr : ∀ a ∈ r, p a = true)
    (hend : ∀ a ∈ s.head?, p a = false) (h : MaximalRuns p s rs) :
    MaximalRuns p (r ++ s) (r :: rs)

def runs (p : α → Bool) : List α → List (List α)
  | [] => []
  | a :: s =>
    if p a then
      if s.head?.any p then (runs p s).modifyHead (a :: ·) else [a] :: runs p s
    else runs p s

/-- An element in front of a run begins that run. -/
theorem MaximalRuns.extend {a b : α} (ha : p a = true) (hb : s.head? = some b)
    (hpb : p b = true) (h : MaximalRuns p s rs) :
    MaximalRuns p (a :: s) (rs.modifyHead (a :: ·)) := by
  cases h with
  | nil => cases hb
  | gap hgap h =>
    rw [List.head?_cons, Option.some.injEq] at hb
    rw [hb, hpb] at hgap
    cases hgap
  | run hne hr hend h =>
    rw [List.modifyHead_cons, ← List.cons_append]
    exact MaximalRuns.run (List.cons_ne_nil _ _) (List.forall_mem_cons.mpr ⟨ha, hr⟩) hend h

/-- There are maximal runs, and they can be computed. -/
theorem maximalRuns_runs (p : α → Bool) (s : List α) : MaximalRuns p s (runs p s) := by
  induction s with
  | nil => exact MaximalRuns.nil
  | cons a s ih =>
    unfold runs
    by_cases ha : p a = true
    · rw [if_pos ha]
      cases hhead : s.head? with
      | none =>
        rw [Option.any_none, if_neg (by simp)]
        exact MaximalRuns.run (r := [a]) (by simp) (by simpa using ha) (by simp [hhead]) ih
      | some b =>
        by_cases hb : p b = true
        · rw [Option.any_some, if_pos hb]
          exact ih.extend ha hhead hb
        · rw [Option.any_some, if_neg hb]
          have hend : ∀ c ∈ s.head?, p c = false := by simpa [hhead] using hb
          exact MaximalRuns.run (r := [a]) (by simp) (by simpa using ha) hend ih
    · rw [if_neg ha]
      exact MaximalRuns.gap (by simpa using ha) ih

/-- A run and the gap behind it are split off. -/
theorem runs_append (hne : r ≠ []) (hr : ∀ a ∈ r, p a = true)
    (hend : ∀ a ∈ s.head?, p a = false) : runs p (r ++ s) = r :: runs p s := by
  induction r with
  | nil => exact absurd rfl hne
  | cons a r ih =>
    have ha := hr a (List.mem_cons_self ..)
    rw [List.cons_append, runs, if_pos ha]
    cases r with
    | nil =>
      rw [if_neg, List.nil_append]
      intro hany
      rw [List.nil_append, Option.any_eq_true] at hany
      obtain ⟨b, hb, hpb⟩ := hany
      rw [hend b hb] at hpb
      cases hpb
    | cons b r =>
      have hb := hr b (by simp)
      have hrest := ih (List.cons_ne_nil _ _) fun c hc => hr c (List.mem_cons_of_mem a hc)
      rw [if_pos (by simpa using hb), hrest, List.modifyHead_cons]

/-- A list has its maximal runs and no others. -/
theorem maximalRuns_iff : MaximalRuns p s rs ↔ rs = runs p s := by
  constructor
  · intro h
    induction h with
    | nil => rfl
    | gap ha h ih => rw [runs, if_neg (by simp [ha]), ih]
    | run hne hr hend h ih => rw [runs_append hne hr hend, ih]
  · rintro rfl
    exact maximalRuns_runs p s

def Words (p : α → Bool) (rs : List (List α)) : Prop := ∀ r ∈ rs, r ≠ [] ∧ ∀ a ∈ r, p a = true

theorem MaximalRuns.words (h : MaximalRuns p s rs) : Words p rs := by
  induction h with
  | nil => exact fun r hr => absurd hr List.not_mem_nil
  | gap ha h ih => exact ih
  | run hne hr hend h ih => exact List.forall_mem_cons.mpr ⟨⟨hne, hr⟩, ih⟩

/-! Words with a separator between them. -/

section Joined

variable {sep : α}

theorem Words.tail (h : Words p (r :: rs)) : Words p rs := fun w hw =>
  h w (List.mem_cons_of_mem r hw)

theorem intercalate_cons (hnil : rs ≠ []) :
    [sep].intercalate (r :: rs) = r ++ sep :: [sep].intercalate rs := by
  rw [List.intercalate_cons_of_ne_nil hnil, List.append_assoc, List.singleton_append]

/-- The words between separators are the maximal runs. -/
theorem maximalRuns_intercalate (hsep : p sep = false) (h : Words p rs) :
    MaximalRuns p ([sep].intercalate rs) rs := by
  induction rs with
  | nil => exact MaximalRuns.nil
  | cons r rs ih =>
    obtain ⟨hne, hr⟩ := h r (List.mem_cons_self ..)
    by_cases hnil : rs = []
    · have hlast := MaximalRuns.run (s := []) hne hr (by simp) MaximalRuns.nil
      rw [List.append_nil] at hlast
      rwa [hnil, List.intercalate_singleton]
    · rw [intercalate_cons hnil]
      exact MaximalRuns.run hne hr (by simpa using hsep) (MaximalRuns.gap hsep (ih h.tail))

theorem intercalate_eq_nil_iff (h : Words p rs) : [sep].intercalate rs = [] ↔ rs = [] := by
  cases rs with
  | nil => simp
  | cons r rs =>
    refine iff_of_false ?_ (List.cons_ne_nil _ _)
    have hne := (h r (List.mem_cons_self ..)).1
    by_cases hnil : rs = []
    · rwa [hnil, List.intercalate_singleton]
    · rw [intercalate_cons hnil]
      exact List.append_ne_nil_of_left_ne_nil hne _

theorem head_intercalate (h : Words p rs) : ∀ a ∈ ([sep].intercalate rs).head?, p a = true := by
  cases rs with
  | nil => simp
  | cons r rs =>
    obtain ⟨hne, hr⟩ := h r (List.mem_cons_self ..)
    have hhead : ([sep].intercalate (r :: rs)).head? = r.head? := by
      by_cases hnil : rs = []
      · rw [hnil, List.intercalate_singleton]
      · rw [intercalate_cons hnil, List.head?_append_of_ne_nil _ hne]
    rw [hhead]
    exact fun a ha => hr a (List.mem_of_mem_head? ha)

theorem getLast_intercalate (h : Words p rs) :
    ∀ a ∈ ([sep].intercalate rs).getLast?, p a = true := by
  induction rs with
  | nil => simp
  | cons r rs ih =>
    by_cases hnil : rs = []
    · rw [hnil, List.intercalate_singleton]
      exact fun a ha => (h r (List.mem_cons_self ..)).2 a (List.mem_of_getLast? ha)
    · have hrest : [sep].intercalate rs ≠ [] := mt (intercalate_eq_nil_iff h.tail).mp hnil
      rw [List.intercalate_cons_of_ne_nil hnil, List.getLast?_append_of_ne_nil _ hrest]
      exact ih h.tail

/-- No two separators stand side by side. -/
theorem isChain_intercalate (h : Words p rs) :
    ([sep].intercalate rs).IsChain fun a b => p a = true ∨ p b = true := by
  induction rs with
  | nil => simp
  | cons r rs ih =>
    obtain ⟨hne, hr⟩ := h r (List.mem_cons_self ..)
    have hword : r.IsChain fun a b => p a = true ∨ p b = true := by
      apply List.Pairwise.isChain
      exact List.pairwise_of_forall_mem_list fun a ha b _ => Or.inl (hr a ha)
    by_cases hnil : rs = []
    · rwa [hnil, List.intercalate_singleton]
    · rw [intercalate_cons hnil, List.isChain_append]
      refine ⟨hword, ?_, fun a ha b _ => Or.inl (hr a (List.mem_of_getLast? ha))⟩
      rw [List.isChain_cons]
      exact ⟨fun b hb => Or.inr (head_intercalate h.tail b hb), ih h.tail⟩

/-- No two separators stand next to each other. -/
theorem not_doubled_intercalate (hsep : p sep = false) (h : Words p rs) :
    ¬ [sep, sep] <:+: [sep].intercalate rs := by
  intro hdouble
  obtain ⟨front, back, heq⟩ := hdouble
  have hchain : (front ++ [sep, sep] ++ back).IsChain fun a b => p a = true ∨ p b = true := by
    rw [heq]
    exact isChain_intercalate h
  have hpair := hchain.left_of_append.right_of_append
  simp [hsep] at hpair

end Joined

end Hermod.Runs
