import Mathlib.Data.List.Infix

/-!
Longest-prefix match. A partial function on lists is searched along the prefixes of a
key, the longest first, and the first prefix that has a value decides.
-/
namespace Hermod.LongestPrefix

variable {α β : Type}

def search (f : List α → Option β) (ns : List α) : Option β := ns.inits.reverse.findSome? f

/-- `key` has the value `v`, and no longer prefix of `ns` has a value. -/
structure Decides (f : List α → Option β) (ns key : List α) (v : β) : Prop where
  isPrefix : key <+: ns
  value : f key = some v
  longest : ∀ key', key' <+: ns → f key' ≠ none → key'.length ≤ key.length

theorem search_nil (f : List α → Option β) : search f [] = f [] := by
  cases h : f [] <;> simp [search, h]

theorem search_concat (f : List α → Option β) (ns : List α) (a : α) :
    search f (ns ++ [a]) = (f (ns ++ [a])).or (search f ns) := by
  have hinits : (ns ++ [a]).inits.reverse = (ns ++ [a]) :: ns.inits.reverse := by
    simp [List.inits_append]
  rw [search, hinits, List.findSome?_cons, search]
  cases f (ns ++ [a]) <;> rfl

/-- Where the whole key has a value, that value decides. -/
theorem Decides.self {f : List α → Option β} {ns : List α} {v : β} (h : f ns = some v) :
    Decides f ns ns v :=
  ⟨List.prefix_refl ns, h, fun _ hkey _ => hkey.length_le⟩

/-- Where it has none, its last element does not matter. -/
theorem decides_concat_iff {f : List α → Option β} {ns key : List α} {a : α} {v : β}
    (h : f (ns ++ [a]) = none) : Decides f (ns ++ [a]) key v ↔ Decides f ns key v := by
  have hbegins : ∀ key', f key' ≠ none → (key' <+: ns ++ [a] ↔ key' <+: ns) := by
    intro key' hkey'
    rw [List.prefix_concat_iff, or_iff_right]
    intro heq
    exact hkey' (heq ▸ h)
  constructor
  · intro hd
    have hkey : f key ≠ none := by simp [hd.value]
    exact ⟨(hbegins key hkey).mp hd.isPrefix, hd.value, fun key' hkey' hv =>
      hd.longest key' ((hbegins key' hv).mpr hkey') hv⟩
  · intro hd
    have hkey : f key ≠ none := by simp [hd.value]
    exact ⟨(hbegins key hkey).mpr hd.isPrefix, hd.value, fun key' hkey' hv =>
      hd.longest key' ((hbegins key' hv).mp hkey') hv⟩

/-- The key that decides is unique, as two prefixes of one length are equal. -/
theorem Decides.unique {f : List α → Option β} {ns key key' : List α} {v v' : β}
    (h : Decides f ns key v) (h' : Decides f ns key' v') : key = key' ∧ v = v' := by
  have hle : key.length ≤ key'.length := h'.longest key h.isPrefix (by simp [h.value])
  have hge : key'.length ≤ key.length := h.longest key' h'.isPrefix (by simp [h'.value])
  have heq : key = key' := by
    refine List.IsPrefix.eq_of_length ?_ (by omega)
    exact List.prefix_of_prefix_length_le h.isPrefix h'.isPrefix hle
  subst heq
  have hv := h.value
  rw [h'.value, Option.some.injEq] at hv
  exact ⟨rfl, hv.symm⟩

/-- The search finds a value exactly at the longest prefix that has one. -/
theorem search_eq_some_iff {f : List α → Option β} {ns : List α} {v : β} :
    search f ns = some v ↔ ∃ key, Decides f ns key v := by
  induction ns using List.reverseRecOn with
  | nil =>
    rw [search_nil]
    constructor
    · intro h
      exact ⟨[], Decides.self h⟩
    · intro h
      obtain ⟨key, hkey⟩ := h
      rw [← List.prefix_nil.mp hkey.isPrefix]
      exact hkey.value
  | append_singleton ns a ih =>
    rw [search_concat]
    cases h : f (ns ++ [a]) with
    | none =>
      rw [Option.none_or, ih]
      simp only [decides_concat_iff h]
    | some w =>
      rw [Option.some_or]
      constructor
      · intro hv
        exact ⟨ns ++ [a], Decides.self (h.trans hv)⟩
      · intro hd
        obtain ⟨key, hkey⟩ := hd
        rw [((Decides.self h).unique hkey).2]

theorem search_eq_none_iff {f : List α → Option β} {ns : List α} :
    search f ns = none ↔ ∀ key, key <+: ns → f key = none := by
  simp [search, List.findSome?_eq_none_iff]

end Hermod.LongestPrefix
