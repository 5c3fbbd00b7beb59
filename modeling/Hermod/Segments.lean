import Mathlib.Data.List.Sort

/-!
A log kept in segments, which are read back in the order of their names. What is appended
to the segment with the greatest name, or to a new one behind it, is appended to the log.
-/
namespace Hermod.Segments

variable {α β : Type} [LinearOrder α]

def read (names : List α) (content : α → List β) : List β :=
  ((names.insertionSort (· ≤ ·)).map content).flatten

variable {names names' : List α} {content content' : α → List β} {last : α}

/-- What is read depends on the names as a set, and on what is stored under them. -/
theorem read_congr (hnodup : names.Nodup) (hnodup' : names'.Nodup)
    (hmem : ∀ n, n ∈ names' ↔ n ∈ names) (hcontent : ∀ n ∈ names, content' n = content n) :
    read names' content' = read names content := by
  have hperm : names'.Perm names := (List.perm_ext_iff_of_nodup hnodup' hnodup).mpr hmem
  have hsort : names'.insertionSort (· ≤ ·) = names.insertionSort (· ≤ ·) :=
    List.Perm.eq_of_sortedLE List.sortedLE_insertionSort List.sortedLE_insertionSort
      (((List.perm_insertionSort (· ≤ ·) names').trans hperm).trans
        (List.perm_insertionSort (· ≤ ·) names).symm)
  rw [read, read, hsort]
  congr 1
  apply List.map_congr_left
  intro n hn
  exact hcontent n ((List.mem_insertionSort (· ≤ ·)).mp hn)

/-- The greatest name comes last. -/
theorem insertionSort_eq_concat (hlast : last ∈ names) (hmax : ∀ n ∈ names, n ≤ last) :
    names.insertionSort (· ≤ ·) = (names.erase last).insertionSort (· ≤ ·) ++ [last] := by
  have hsorted : ((names.erase last).insertionSort (· ≤ ·) ++ [last]).SortedLE := by
    rw [List.sortedLE_iff_pairwise, List.pairwise_append]
    refine ⟨List.sortedLE_insertionSort.pairwise, List.pairwise_singleton .., ?_⟩
    intro n hn m hm
    rw [List.mem_singleton.mp hm]
    exact hmax n (List.mem_of_mem_erase ((List.mem_insertionSort (· ≤ ·)).mp hn))
  refine List.Perm.eq_of_sortedLE List.sortedLE_insertionSort hsorted ?_
  have herase : names.Perm (last :: names.erase last) := List.perm_cons_erase hlast
  have hconcat : (last :: names.erase last).Perm (names.erase last ++ [last]) :=
    (List.perm_append_singleton last _).symm
  have hrest : ((names.erase last).insertionSort (· ≤ ·) ++ [last]).Perm
      (names.erase last ++ [last]) := (List.perm_insertionSort ..).append_right [last]
  exact (List.perm_insertionSort ..).trans ((herase.trans hconcat).trans hrest.symm)

theorem read_eq_append_last (hlast : last ∈ names) (hmax : ∀ n ∈ names, n ≤ last) :
    read names content = read (names.erase last) content ++ content last := by
  rw [read, insertionSort_eq_concat hlast hmax, List.map_append, List.flatten_append,
    List.map_singleton, List.flatten_singleton, read]

/-- Appending to the last segment appends to the log. -/
theorem read_append (hnodup : names.Nodup) (hlast : last ∈ names) (hmax : ∀ n ∈ names, n ≤ last)
    {more : List β} (hmore : content' last = content last ++ more)
    (hsame : ∀ n ∈ names, n ≠ last → content' n = content n) :
    read names content' = read names content ++ more := by
  have hrest : read (names.erase last) content' = read (names.erase last) content := by
    apply read_congr (hnodup.erase last) (hnodup.erase last) (fun _ => Iff.rfl)
    intro n hn
    obtain ⟨hne, hn⟩ := (hnodup.mem_erase_iff).mp hn
    exact hsame n hn hne
  rw [read_eq_append_last hlast hmax, read_eq_append_last hlast hmax, hrest, hmore,
    List.append_assoc]

/-- So does a new segment behind all others. -/
theorem read_insert (hnodup : names.Nodup) (hnodup' : names'.Nodup) (hnew : last ∉ names)
    (hmem : ∀ n, n ∈ names' ↔ n = last ∨ n ∈ names) (hmax : ∀ n ∈ names, n ≤ last)
    (hsame : ∀ n ∈ names, content' n = content n) :
    read names' content' = read names content ++ content' last := by
  have hlast : last ∈ names' := (hmem last).mpr (Or.inl rfl)
  have hmax' : ∀ n ∈ names', n ≤ last := by
    intro n hn
    rcases (hmem n).mp hn with rfl | hn
    · exact le_rfl
    · exact hmax n hn
  rw [read_eq_append_last hlast hmax']
  congr 1
  apply read_congr hnodup (hnodup'.erase last) ?_ hsame
  intro n
  rw [hnodup'.mem_erase_iff, hmem]
  constructor
  · intro h
    exact h.2.resolve_left h.1
  · intro hn
    exact ⟨fun heq => hnew (heq ▸ hn), Or.inr hn⟩

/-- If every segment behind one that is kept is kept as well, the others are read first. -/
theorem read_split {kept : α → Prop} [DecidablePred kept]
    (hupper : ∀ n ∈ names, ∀ m ∈ names, kept n → n ≤ m → kept m) :
    read names content =
      read (names.filter fun n => ¬ kept n) content ++ read (names.filter fun n => kept n) content
    := by
  have hsorted : ((names.filter fun n => ¬ kept n).insertionSort (· ≤ ·) ++
      (names.filter fun n => kept n).insertionSort (· ≤ ·)).SortedLE := by
    rw [List.sortedLE_iff_pairwise, List.pairwise_append]
    refine ⟨List.sortedLE_insertionSort.pairwise, List.sortedLE_insertionSort.pairwise, ?_⟩
    intro n hn m hm
    obtain ⟨hn, hlost⟩ := List.mem_filter.mp ((List.mem_insertionSort (· ≤ ·)).mp hn)
    obtain ⟨hm, hkept⟩ := List.mem_filter.mp ((List.mem_insertionSort (· ≤ ·)).mp hm)
    by_contra hlt
    have hle : m ≤ n := le_of_not_ge hlt
    exact of_decide_eq_true hlost (hupper m hm n hn (of_decide_eq_true hkept) hle)
  have hperm : (names.insertionSort (· ≤ ·)).Perm
      ((names.filter fun n => ¬ kept n).insertionSort (· ≤ ·) ++
        (names.filter fun n => kept n).insertionSort (· ≤ ·)) := by
    have hparts :
        (names.filter (fun n => kept n) ++ names.filter fun n => ¬ kept n).Perm names := by
      simpa using List.filter_append_perm (fun n => decide (kept n)) names
    refine (List.perm_insertionSort ..).trans (hparts.symm.trans ?_)
    refine List.perm_append_comm.trans ?_
    exact (List.perm_insertionSort ..).symm.append (List.perm_insertionSort ..).symm
  have hsort := List.Perm.eq_of_sortedLE List.sortedLE_insertionSort hsorted hperm
  rw [read, hsort, List.map_append, List.flatten_append, read, read]

end Hermod.Segments
