import Mathlib.Data.List.Nodup
import Mathlib.Data.List.Basic

/-!
Maps that remember the order in which their keys were first inserted. Inserting under
a key that is present replaces the value in place; removing a key keeps the order of
the others. The keys are distinct by construction.
-/
namespace Hermod

structure IndexMap (κ ν : Type) where
  entries : List (κ × ν)
  nodup : (entries.map Prod.fst).Nodup

namespace IndexMap

variable {κ ν : Type}

def empty : IndexMap κ ν := ⟨[], List.nodup_nil⟩

def values (m : IndexMap κ ν) : List ν := m.entries.map Prod.snd

theorem mem_values {m : IndexMap κ ν} {v : ν} : v ∈ m.values ↔ ∃ k, (k, v) ∈ m.entries := by
  constructor
  · intro h
    obtain ⟨⟨k, v'⟩, he, rfl⟩ := List.mem_map.mp h
    exact ⟨k, he⟩
  · intro h'
    obtain ⟨k, he⟩ := h'
    exact List.mem_map.mpr ⟨(k, v), he, rfl⟩

variable [DecidableEq κ]

theorem map_fst_replace (entries : List (κ × ν)) (k : κ) (v : ν) :
    (entries.map fun e => if e.1 = k then (k, v) else e).map Prod.fst = entries.map Prod.fst := by
  rw [List.map_map]
  apply List.map_congr_left
  intro e _
  by_cases he : e.1 = k
  · simp [he]
  · simp [he]

def insert (m : IndexMap κ ν) (k : κ) (v : ν) : IndexMap κ ν :=
  if h : k ∈ m.entries.map Prod.fst then
    ⟨m.entries.map fun e => if e.1 = k then (k, v) else e, by
      rw [map_fst_replace]
      exact m.nodup⟩
  else
    ⟨m.entries ++ [(k, v)], by
      rw [List.map_append, List.map_singleton]
      exact m.nodup.append (List.nodup_singleton k) (by simpa using h)⟩

/-- Remove a key, keeping the order of the rest. -/
def shiftRemove (m : IndexMap κ ν) (k : κ) : IndexMap κ ν :=
  ⟨m.entries.filter fun e => e.1 ≠ k, m.nodup.sublist (List.filter_sublist.map Prod.fst)⟩

/-- The new entry, or an old one under another key. -/
theorem mem_insert {m : IndexMap κ ν} {k k' : κ} {v v' : ν} :
    (k', v') ∈ (m.insert k v).entries ↔
      (k' = k ∧ v' = v) ∨ (k' ≠ k ∧ (k', v') ∈ m.entries) := by
  unfold insert
  split
  · rename_i hk
    rw [List.mem_map]
    constructor
    · intro h
      obtain ⟨⟨j, w⟩, he, heq⟩ := h
      by_cases hj : j = k
      · rw [if_pos hj, Prod.mk.injEq] at heq
        exact Or.inl ⟨heq.1.symm, heq.2.symm⟩
      · rw [if_neg hj, Prod.mk.injEq] at heq
        obtain ⟨rfl, rfl⟩ := heq
        exact Or.inr ⟨hj, he⟩
    · intro h
      rcases h with ⟨rfl, rfl⟩ | ⟨hne, he⟩
      · obtain ⟨e, he, hek⟩ := List.mem_map.mp hk
        exact ⟨e, he, by rw [if_pos hek]⟩
      · exact ⟨(k', v'), he, by rw [if_neg hne]⟩
  · rename_i hk
    rw [List.mem_append, List.mem_singleton, Prod.mk.injEq]
    constructor
    · intro h
      rcases h with he | heq
      · by_cases hne : k' = k
        · subst hne
          exact absurd (List.mem_map.mpr ⟨_, he, rfl⟩) hk
        · exact Or.inr ⟨hne, he⟩
      · exact Or.inl heq
    · intro h
      rcases h with heq | ⟨-, he⟩
      · exact Or.inr heq
      · exact Or.inl he

theorem mem_shiftRemove {m : IndexMap κ ν} {k k' : κ} {v : ν} :
    (k', v) ∈ (m.shiftRemove k).entries ↔ k' ≠ k ∧ (k', v) ∈ m.entries := by
  rw [shiftRemove, List.mem_filter, decide_eq_true_eq, and_comm]

theorem entries_insert {m : IndexMap κ ν} {k : κ} (h : k ∉ m.entries.map Prod.fst) (v : ν) :
    (m.insert k v).entries = m.entries ++ [(k, v)] := by
  rw [insert, dif_neg h]

end IndexMap

end Hermod
