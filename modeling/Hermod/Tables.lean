import Mathlib.Data.List.AList
import Mathlib.Data.List.Sort

/-!
Tables rebuilt by insertion. A table is written as the list of its entries, in whatever
order it keeps them, and read back by inserting one entry after the other. The order may
change on the way, what each key holds does not. A table that keeps its entries in the order
of their keys has them in that order again.
-/
namespace Hermod.Tables

variable {α β : Type} [DecidableEq α]

def insertEntries (table : AList fun _ : α => β) (ps : List (α × β)) : AList fun _ : α => β :=
  ps.foldl (fun table p => table.insert p.1 p.2) table

theorem lookup_insertEntries_of_not_mem {ps : List (α × β)} {k : α} (hk : k ∉ ps.map Prod.fst)
    (table : AList fun _ : α => β) : (insertEntries table ps).lookup k = table.lookup k := by
  induction ps generalizing table with
  | nil => rfl
  | cons p ps ih =>
    rw [List.map_cons, List.mem_cons, not_or] at hk
    have hloop := ih hk.2 (table.insert p.1 p.2)
    rwa [AList.lookup_insert_ne hk.1] at hloop

/-- Entries under distinct keys are found again. -/
theorem lookup_insertEntries_of_mem {ps : List (α × β)} (hnodup : (ps.map Prod.fst).Nodup)
    {p : α × β} (hp : p ∈ ps) (table : AList fun _ : α => β) :
    (insertEntries table ps).lookup p.1 = some p.2 := by
  induction ps generalizing table with
  | nil => exact absurd hp List.not_mem_nil
  | cons q ps ih =>
    rw [List.map_cons, List.nodup_cons] at hnodup
    rcases List.mem_cons.mp hp with rfl | hp
    · have hloop := lookup_insertEntries_of_not_mem hnodup.1 (table.insert p.1 p.2)
      rwa [AList.lookup_insert] at hloop
    · exact ih hnodup.2 hp (table.insert q.1 q.2)

theorem mem_insertEntries {k : α} {ps : List (α × β)} {table : AList fun _ : α => β} :
    k ∈ insertEntries table ps ↔ k ∈ table ∨ k ∈ ps.map Prod.fst := by
  induction ps generalizing table with
  | nil => simp only [insertEntries, List.foldl_nil, List.map_nil, List.not_mem_nil, or_false]
  | cons p ps ih =>
    have hloop := @ih (table.insert p.1 p.2)
    rw [AList.mem_insert] at hloop
    rw [List.map_cons, List.mem_cons]
    exact hloop.trans (by rw [or_comm (a := k = p.1), or_assoc])

/-- Nothing is in a table that was not inserted. -/
theorem mem_entries_insertEntries {ps : List (α × β)} {table : AList fun _ : α => β}
    {e : Sigma fun _ : α => β} (he : e ∈ (insertEntries table ps).entries) :
    e ∈ table.entries ∨ (e.1, e.2) ∈ ps := by
  induction ps generalizing table with
  | nil => exact Or.inl he
  | cons p ps ih =>
    rcases @ih (table.insert p.1 p.2) he with hinserted | hrest
    · rw [AList.entries_insert] at hinserted
      rcases List.mem_cons.mp hinserted with rfl | hold
      · exact Or.inr (List.mem_cons_self ..)
      · exact Or.inl ((List.kerase_sublist _ _).subset hold)
    · exact Or.inr (List.mem_cons_of_mem _ hrest)

/-- A table read back from its entries holds what it held. -/
theorem lookup_rebuilt (table : AList fun _ : α => β) (ps : List (α × β))
    (hps : table.entries = ps.map fun p => ⟨p.1, p.2⟩) (k : α) :
    (insertEntries ∅ ps).lookup k = table.lookup k := by
  have hkeys : table.keys = ps.map Prod.fst := by
    rw [AList.keys, List.keys, hps, List.map_map]
    rfl
  have hnodup := table.keys_nodup
  rw [hkeys] at hnodup
  by_cases hk : k ∈ ps.map Prod.fst
  · obtain ⟨p, hp, rfl⟩ := List.mem_map.mp hk
    have hentry : (⟨p.1, p.2⟩ : Sigma fun _ : α => β) ∈ table.entries := by
      rw [hps]
      exact List.mem_map_of_mem hp
    rw [lookup_insertEntries_of_mem hnodup hp, AList.mem_lookup_iff.mpr hentry]
  · have hmem : k ∉ table := by rwa [AList.mem_keys, hkeys]
    rw [lookup_insertEntries_of_not_mem hk, AList.lookup_eq_none.mpr hmem, AList.lookup_empty]

/-! Tables in the order of their keys. -/

def pairs (table : AList fun _ : α => β) : List (α × β) := table.entries.map fun e => (e.1, e.2)

omit [DecidableEq α] in
theorem map_fst_pairs (table : AList fun _ : α => β) :
    (pairs table).map Prod.fst = table.keys := by
  rw [pairs, List.map_map]
  rfl

/-- The pairs are what can be looked up. -/
theorem mem_pairs {table : AList fun _ : α => β} {p : α × β} :
    p ∈ pairs table ↔ table.lookup p.1 = some p.2 := by
  rw [pairs, List.mem_map]
  constructor
  · intro h
    obtain ⟨e, he, rfl⟩ := h
    exact AList.mem_lookup_iff.mpr he
  · intro h
    exact ⟨⟨p.1, p.2⟩, AList.mem_lookup_iff.mp h, rfl⟩

/-- Pairs with keys of their own all stay. -/
theorem pairs_insertEntries {ps : List (α × β)} (hnodup : (ps.map Prod.fst).Nodup) :
    (pairs (insertEntries ∅ ps)).Perm ps := by
  have hpairs : (pairs (insertEntries (∅ : AList fun _ : α => β) ps)).Nodup := by
    apply List.Nodup.of_map Prod.fst
    rw [map_fst_pairs]
    exact (insertEntries ∅ ps).keys_nodup
  apply (List.perm_ext_iff_of_nodup hpairs (List.Nodup.of_map _ hnodup)).mpr
  intro p
  rw [mem_pairs]
  constructor
  · intro h
    by_cases hp : p.1 ∈ ps.map Prod.fst
    · obtain ⟨q, hq, hkey⟩ := List.mem_map.mp hp
      have hlookup := lookup_insertEntries_of_mem hnodup hq ∅
      rw [hkey, h, Option.some.injEq] at hlookup
      rwa [Prod.ext hkey.symm hlookup]
    · rw [lookup_insertEntries_of_not_mem hp, AList.lookup_empty] at h
      cases h
  · intro h
    exact lookup_insertEntries_of_mem hnodup h ∅

section Ordered

variable (le : α → α → Prop) [DecidableRel le]

def inOrder (table : AList fun _ : α => β) : List (α × β) :=
  (pairs table).insertionSort fun p q => le p.1 q.1

omit [DecidableEq α] in
theorem inOrder_perm (table : AList fun _ : α => β) : (inOrder le table).Perm (pairs table) :=
  List.perm_insertionSort _ _

omit [DecidableEq α] in
theorem keys_inOrder_nodup (table : AList fun _ : α => β) :
    ((inOrder le table).map Prod.fst).Nodup := by
  have hperm := (inOrder_perm le table).map Prod.fst
  rw [map_fst_pairs] at hperm
  exact hperm.nodup_iff.mpr table.keys_nodup

omit [DecidableEq α] in
theorem pairwise_inOrder [Std.Total le] [IsTrans α le] (table : AList fun _ : α => β) :
    (inOrder le table).Pairwise fun p q => le p.1 q.1 := by
  have htotal : Std.Total fun p q : α × β => le p.1 q.1 := ⟨fun p q => Std.Total.total p.1 q.1⟩
  have htrans : IsTrans (α × β) fun p q => le p.1 q.1 := ⟨fun _ _ _ => IsTrans.trans _ _ _⟩
  exact List.pairwise_insertionSort _ _

/-- Pairs that are in order already stay as they are. -/
theorem inOrder_insertEntries [Std.Total le] [IsTrans α le] [Std.Antisymm le] {ps : List (α × β)}
    (hnodup : (ps.map Prod.fst).Nodup) (hsorted : ps.Pairwise fun p q => le p.1 q.1) :
    inOrder le (insertEntries ∅ ps) = ps := by
  have hperm := (inOrder_perm le (insertEntries ∅ ps)).trans (pairs_insertEntries hnodup)
  refine List.Perm.eq_of_pairwise ?_ (pairwise_inOrder le _) hsorted hperm
  intro p q hp hq hpq hqp
  exact List.inj_on_of_nodup_map hnodup (hperm.mem_iff.mp hp) hq (antisymm hpq hqp)

end Ordered

end Hermod.Tables
