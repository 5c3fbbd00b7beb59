import Mathlib.Data.List.Sort

/-!
Where a stable sort puts an element. The elements ahead of it in the result are those
listed before it that may come first and those listed after it that must come first.
-/
namespace Hermod.StableSort

variable {α : Type} {r : α → α → Prop}

section insert

variable {a x : α} {p q u v : List α}

/-- An element that may come ahead of `x` is inserted somewhere ahead of it. -/
theorem insert_ahead (hsplit : p ++ x :: q = u ++ v) (hu : ∀ y ∈ u, ¬ r a y) (ha : r a x) :
    ∃ p', u ++ a :: v = p' ++ x :: q ∧ p'.length = p.length + 1 := by
  rcases List.append_eq_append_iff.mp hsplit with ⟨w, rfl, hw⟩ | ⟨w, rfl, rfl⟩
  · cases w with
    | nil =>
      rw [List.nil_append] at hw
      exact ⟨p ++ [a], by rw [← hw]; simp, by rw [List.length_append]; rfl⟩
    | cons b w =>
      rw [List.cons_append, List.cons.injEq] at hw
      exact absurd ha (hw.1 ▸ hu b (List.mem_append_right p (List.mem_cons_self ..)))
  · refine ⟨u ++ a :: w, by simp, ?_⟩
    rw [List.length_append, List.length_cons, List.length_append]
    omega

/-- An element that must not come ahead of `x` is inserted behind it. -/
theorem insert_behind (hsplit : p ++ x :: q = u ++ v) (hv : ∀ y ∈ v, r a y) (ha : ¬ r a x) :
    ∃ q', u ++ a :: v = p ++ x :: q' := by
  rcases List.append_eq_append_iff.mp hsplit with ⟨w, rfl, hw⟩ | ⟨w, rfl, rfl⟩
  · cases w with
    | nil =>
      rw [List.nil_append] at hw
      exact absurd (hv x (hw ▸ List.mem_cons_self ..)) ha
    | cons b w =>
      rw [List.cons_append, List.cons.injEq] at hw
      obtain ⟨rfl, rfl⟩ := hw
      exact ⟨w ++ a :: v, by simp⟩
  · exact absurd (hv x (List.mem_append_right w (List.mem_cons_self ..))) ha

end insert

variable [DecidableRel r]

/-- The position in sorted order of `x`, which is listed between `before` and `after`. -/
def rank (r : α → α → Prop) [DecidableRel r] (before : List α) (x : α) (after : List α) : ℕ :=
  before.countP (fun y => r y x) + after.countP (fun y => ¬ r x y)

theorem rank_cons (a : α) (before : List α) (x : α) (after : List α) :
    rank r (a :: before) x after = rank r before x after + if r a x then 1 else 0 := by
  simp only [rank, List.countP_cons, decide_eq_true_eq]
  omega

/-- A sorted list is split where an element is inserted. -/
theorem orderedInsert_split [IsTrans α r] (x : α) {l : List α} (h : l.Pairwise r) :
    ∃ u v, l = u ++ v ∧ l.orderedInsert r x = u ++ x :: v ∧
      (∀ y ∈ u, ¬ r x y) ∧ ∀ y ∈ v, r x y := by
  induction l with
  | nil => exact ⟨[], [], rfl, rfl, by simp, by simp⟩
  | cons a l ih =>
    rw [List.pairwise_cons] at h
    by_cases ha : r x a
    · refine ⟨[], a :: l, rfl, List.orderedInsert_cons_of_le r l ha, by simp, ?_⟩
      intro y hy
      rcases List.mem_cons.mp hy with rfl | hy
      · exact ha
      · exact IsTrans.trans _ _ _ ha (h.1 y hy)
    · obtain ⟨u, v, rfl, hins, hu, hv⟩ := ih h.2
      refine ⟨a :: u, v, rfl, ?_, ?_, hv⟩
      · rw [List.orderedInsert_of_not_le r _ ha, hins, List.cons_append]
      · exact List.forall_mem_cons.mpr ⟨ha, hu⟩

theorem countP_of_split {p : α → Prop} [DecidablePred p] {u v : List α} (hu : ∀ y ∈ u, p y)
    (hv : ∀ y ∈ v, ¬ p y) : (u ++ v).countP (fun y => p y) = u.length := by
  rw [List.countP_append, List.countP_eq_length.mpr fun y hy => decide_eq_true (hu y hy),
    List.countP_eq_zero.mpr fun y hy hp => hv y hy (of_decide_eq_true hp), Nat.add_zero]

/-- The sorted list around an element, by induction on what is listed before it. -/
theorem insertionSort_split [Std.Total r] [IsTrans α r] (before : List α) (x : α)
    (after : List α) :
    ∃ p q, (before ++ x :: after).insertionSort r = p ++ x :: q ∧
      p.length = rank r before x after := by
  induction before with
  | nil =>
    obtain ⟨u, v, hsplit, hins, hu, hv⟩ :=
      orderedInsert_split x (List.pairwise_insertionSort r after)
    refine ⟨u, v, hins, ?_⟩
    rw [rank, List.countP_nil, Nat.zero_add,
      ← (List.perm_insertionSort r after).countP_eq, hsplit]
    exact (countP_of_split hu fun y hy hn => hn (hv y hy)).symm
  | cons a before ih =>
    obtain ⟨p, q, hsort, hlen⟩ := ih
    obtain ⟨u, v, hsplit, hins, hu, hv⟩ :=
      orderedInsert_split a (List.pairwise_insertionSort r (before ++ x :: after))
    rw [hsort] at hsplit
    rw [List.cons_append, List.insertionSort_cons, hins, rank_cons, ← hlen]
    by_cases ha : r a x
    · obtain ⟨p', heq, hlen'⟩ := insert_ahead hsplit hu ha
      exact ⟨p', q, heq, by rw [hlen', if_pos ha]⟩
    · obtain ⟨q', heq⟩ := insert_behind hsplit hv ha
      exact ⟨p, q', heq, by rw [if_neg ha, Nat.add_zero]⟩

theorem rank_lt_length [Std.Total r] [IsTrans α r] (before : List α) (x : α)
    (after : List α) : rank r before x after < (before ++ x :: after).length := by
  obtain ⟨p, q, hsort, hlen⟩ := insertionSort_split (r := r) before x after
  have hlength := congrArg List.length hsort
  rw [List.length_insertionSort, @List.length_append _ p, List.length_cons] at hlength
  omega

section Nodup

variable [Std.Total r] [IsTrans α r] {before after : List α} {x : α} {n : ℕ}

/-- The rank says where an element stands when the list is sorted. -/
theorem rank_lt_of_mem_take (hnodup : (before ++ x :: after).Nodup)
    (hx : x ∈ ((before ++ x :: after).insertionSort r).take n) :
    rank r before x after < n := by
  obtain ⟨p, q, hsort, hlen⟩ := insertionSort_split (r := r) before x after
  have hsorted := (List.perm_insertionSort r (before ++ x :: after)).nodup_iff.mpr hnodup
  rw [hsort] at hx hsorted
  by_contra hle
  rw [List.take_append_of_le_length (by omega)] at hx
  have hdisjoint := List.disjoint_of_nodup_append hsorted
  exact hdisjoint (List.mem_of_mem_take hx) (List.mem_cons_self ..)

theorem le_rank_of_mem_drop (hnodup : (before ++ x :: after).Nodup)
    (hx : x ∈ ((before ++ x :: after).insertionSort r).drop n) :
    n ≤ rank r before x after := by
  obtain ⟨p, q, hsort, hlen⟩ := insertionSort_split (r := r) before x after
  have hsorted := (List.perm_insertionSort r (before ++ x :: after)).nodup_iff.mpr hnodup
  rw [hsort] at hx hsorted
  by_contra hlt
  have hq : x ∈ q := by
    have hdrop : (p ++ x :: q).drop n = q.drop (n - p.length - 1) := by
      have hn : n = p.length + (1 + (n - p.length - 1)) := by omega
      conv_lhs => rw [hn, ← List.drop_drop, List.drop_left, ← List.drop_drop]
      rfl
    rw [hdrop] at hx
    exact List.mem_of_mem_drop hx
  have hcons := (List.nodup_append.mp hsorted).2.1
  exact (List.nodup_cons.mp hcons).1 hq

end Nodup

/-- Of two elements that may stand in the order in which they are listed, the first has
the smaller rank. -/
theorem rank_lt_of_before [Std.Total r] [IsTrans α r] {a b c : List α} {x y : α} (h : r x y) :
    rank r a x (b ++ y :: c) < rank r (a ++ x :: b) y c := by
  have ha : a.countP (fun z => r z x) ≤ a.countP (fun z => r z y) := by
    refine List.countP_mono_left fun z _ hz => ?_
    exact decide_eq_true (IsTrans.trans _ _ _ (of_decide_eq_true hz) h)
  have hb : b.countP (fun z => ¬ r x z) ≤ b.countP (fun z => r z y) := by
    refine List.countP_mono_left fun z _ hz => ?_
    have hzx : r z x := ((Std.Total.total x z).resolve_left (of_decide_eq_true hz))
    exact decide_eq_true (IsTrans.trans _ _ _ hzx h)
  have hc : c.countP (fun z => ¬ r x z) ≤ c.countP (fun z => ¬ r y z) := by
    refine List.countP_mono_left fun z _ hz => ?_
    exact decide_eq_true fun hyz => of_decide_eq_true hz (IsTrans.trans _ _ _ h hyz)
  simp only [rank, List.countP_append, List.countP_cons, h, not_true_eq_false, decide_false,
    decide_true, if_true, Bool.false_eq_true, if_false]
  omega

/-- A choice of the first `n` elements, where elements may stand in either order. -/
def Firsts (r : α → α → Prop) (l : List α) (n : ℕ) (kept : List α) : Prop :=
  ∃ rest, (kept ++ rest).Perm l ∧ kept.length = min n l.length ∧ ∀ x ∈ kept, ∀ y ∈ rest, r x y

theorem Firsts.subset {s : α → α → Prop} {l kept : List α} {n : ℕ} (h : Firsts s l n kept) :
    kept ⊆ l := by
  obtain ⟨rest, hperm, -⟩ := h
  exact fun x hx => hperm.mem_iff.mp (List.mem_append_left rest hx)

/-- Sorting gives one of the choices. -/
theorem firsts_take [Std.Total r] [IsTrans α r] (l : List α) (n : ℕ) :
    Firsts r l n ((l.insertionSort r).take n) := by
  have hsplit : (l.insertionSort r).take n ++ (l.insertionSort r).drop n = l.insertionSort r :=
    List.take_append_drop n _
  have hsorted := List.pairwise_insertionSort r l
  refine ⟨(l.insertionSort r).drop n, ?_, ?_, ?_⟩
  · rw [hsplit]
    exact List.perm_insertionSort r l
  · rw [List.length_take, List.length_insertionSort]
  · rw [← hsplit] at hsorted
    exact (List.pairwise_append.mp hsorted).2.2

/-- Of two elements that may stand in the order in which they are listed, the first is not
left behind. -/
theorem notMem_drop_of_before [Std.Total r] [IsTrans α r] {a b c : List α} {x y : α} {n : ℕ}
    (hnodup : (a ++ x :: b ++ y :: c).Nodup) (h : r x y)
    (hy : y ∈ ((a ++ x :: b ++ y :: c).insertionSort r).take n) :
    x ∉ ((a ++ x :: b ++ y :: c).insertionSort r).drop n := by
  intro hx
  have hrank := rank_lt_of_before (a := a) (b := b) (c := c) h
  have hlt := rank_lt_of_mem_take hnodup hy
  rw [List.append_assoc, List.cons_append] at hnodup hx
  have hle := le_rank_of_mem_drop hnodup hx
  omega

/-- Where a choice leaves out one of the elements sorted first, it has taken one that is
sorted behind it and might stand before it. -/
theorem Firsts.exchange [Std.Total r] [IsTrans α r] {l kept : List α} {n : ℕ} {x : α}
    (hnodup : l.Nodup) (h : Firsts r l n kept) (hx : x ∈ (l.insertionSort r).take n)
    (hkept : x ∉ kept) : ∃ y ∈ kept, y ∈ (l.insertionSort r).drop n ∧ r y x := by
  have hmem : ∀ y ∈ kept, y ∈ (l.insertionSort r).take n ++ (l.insertionSort r).drop n := by
    intro y hy
    rw [List.take_append_drop, List.mem_insertionSort]
    exact h.subset hy
  obtain ⟨rest, hperm, hlength, horder⟩ := h
  have hrest : x ∈ rest := by
    have hl : x ∈ l := (List.mem_insertionSort r).mp (List.mem_of_mem_take hx)
    exact (List.mem_append.mp (hperm.mem_iff.mpr hl)).resolve_left hkept
  by_contra hno
  have hsubset : kept ⊆ (l.insertionSort r).take n := by
    intro y hy
    refine (List.mem_append.mp (hmem y hy)).resolve_right fun hdrop => ?_
    exact hno ⟨y, hy, hdrop, horder y hy x hrest⟩
  have hkeptNodup : kept.Nodup := (hperm.nodup_iff.mpr hnodup).of_append_left
  have hsubperm := List.subperm_of_subset hkeptNodup hsubset
  have hle : ((l.insertionSort r).take n).length ≤ kept.length := by
    rw [List.length_take, List.length_insertionSort, hlength]
  exact hkept ((hsubperm.perm_of_length_le hle).mem_iff.mpr hx)

end Hermod.StableSort
