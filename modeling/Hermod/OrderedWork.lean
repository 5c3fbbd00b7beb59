import Mathlib.Data.List.Basic

/-!
Work that comes in order and is done in order. What is done is always the first part of what
was due, and all of it but what is left, unless something was given up. That is only where the
work has stopped for good.
-/
namespace Hermod.OrderedWork

/-- Of what was to be done in order, some is done and some is left. The rest was given up,
which is only where `stopped` holds. -/
def Served {α : Type} (done left due : List α) (stopped : Prop) : Prop :=
  ∃ lost, done ++ lost ++ left = due ∧ (lost ≠ [] → stopped)

variable {α : Type} {done left due : List α} {stopped stopped' : Prop}

theorem Served.first (h : Served done left due stopped) : done <+: due := by
  obtain ⟨lost, rfl, -⟩ := h
  rw [List.append_assoc]
  exact List.prefix_append _ _

theorem Served.all (h : Served done left due stopped) (hgoing : ¬ stopped) :
    done ++ left = due := by
  obtain ⟨lost, hdue, hlost⟩ := h
  by_cases hnil : lost = []
  · rwa [hnil, List.append_nil] at hdue
  · exact absurd (hlost hnil) hgoing

theorem Served.imp (h : Served done left due stopped) (himp : stopped → stopped') :
    Served done left due stopped' := by
  obtain ⟨lost, hdue, hlost⟩ := h
  exact ⟨lost, hdue, fun hne => himp (hlost hne)⟩

/-- More comes to be done. -/
theorem Served.arrive (h : Served done left due stopped) (more : List α) :
    Served done (left ++ more) (due ++ more) stopped := by
  obtain ⟨lost, hdue, hlost⟩ := h
  exact ⟨lost, by rw [← hdue, List.append_assoc, List.append_assoc, List.append_assoc], hlost⟩

theorem Served.advance (next : List α) (h : Served done (next ++ left) due stopped)
    (hgoing : ¬ stopped) : Served (done ++ next) left due stopped := by
  refine ⟨[], ?_, fun hne => absurd rfl hne⟩
  rw [← h.all hgoing, List.append_nil, List.append_assoc]

/-- What comes next is given up. -/
theorem Served.drop (next : List α) (h : Served done (next ++ left) due stopped)
    (himp : stopped → stopped') (hstopped : next ≠ [] → stopped') :
    Served done left due stopped' := by
  obtain ⟨lost, hdue, hlost⟩ := h
  refine ⟨lost ++ next, ?_, ?_⟩
  · rw [← hdue]
    simp only [List.append_assoc]
  · intro hne
    by_cases hnil : lost = []
    · rw [hnil, List.nil_append] at hne
      exact hstopped hne
    · exact himp (hlost hnil)

end Hermod.OrderedWork
