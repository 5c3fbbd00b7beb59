import Hermod.Transitions

/-!
Servers that take the messages of an inbox in order, by steps of their own. Some messages
end the server. A budget says how many more messages the own steps can take when nothing
comes from outside. Every urgent message can be taken, at every moment of a run, exactly
when each urgent message that arrives finds a budget for it.
-/
namespace Hermod.Service

open Transitions

/-- A system with the messages that wait in its inbox, unless it has ended. -/
structure Server (σ ε μ : Type) where
  step : σ → ε → Option σ
  own : ε → Prop
  arrives : ε → Option μ
  inbox : σ → Option (List μ)
  ends : μ → Prop
  urgent : μ → Prop

namespace Server

variable {σ ε μ : Type} (sv : Server σ ε μ)

def Takes (s : σ) (k : ℕ) : Prop :=
  ∃ es t, (∀ e ∈ es, sv.own e) ∧ run sv.step s es = some t ∧
    ∀ ms left, sv.inbox s = some ms → sv.inbox t = some left → left = ms.drop k

def Responsive (s : σ) : Prop :=
  ∀ ms i m, sv.inbox s = some ms → ms[i]? = some m → sv.urgent m → sv.Takes s (i + 1)

/-- One of the messages within the budget ends the server, or no message beyond it is
urgent. -/
def Covered (budget : ℕ) (ms : List μ) : Prop :=
  (∃ m ∈ ms.take budget, sv.ends m) ∨ ∀ m ∈ ms.drop budget, ¬ sv.urgent m

/-- An urgent message arrives where the budget exceeds the messages before it, or where
one of those within it ends the server. -/
def InTime (budget : σ → ℕ) (s : σ) (e : ε) : Prop :=
  ∀ m ms, sv.arrives e = some m → sv.urgent m → sv.inbox s = some ms →
    ms.length < budget s ∨ ∃ m' ∈ ms.take (budget s), sv.ends m'

/-- An own step does not touch the inbox and keeps the budget, or takes one message. With
a message and a budget there is an own step, and it takes the message or leaves less
work. Other steps bring messages, end the server or start it anew, or raise the budget. -/
structure Budgeted (budget work : σ → ℕ) : Prop where
  own : ∀ s e t, sv.own e → sv.step s e = some t →
    (sv.inbox t = sv.inbox s ∧ budget t = budget s) ∨
      ∃ m rest, sv.inbox s = some (m :: rest) ∧ 0 < budget s ∧
        ((sv.ends m ∧ sv.inbox t = none) ∨
          (¬ sv.ends m ∧ sv.inbox t = some rest ∧ budget t + 1 = budget s))
  arrive : ∀ s e t m, sv.arrives e = some m → sv.step s e = some t →
    ∃ ms, sv.inbox s = some ms ∧ sv.inbox t = some (ms ++ [m]) ∧ budget t = budget s
  other : ∀ s e t, ¬ sv.own e → sv.arrives e = none → sv.step s e = some t →
    sv.inbox t = none ∨ sv.inbox t = some [] ∨ (sv.inbox t = sv.inbox s ∧ budget s ≤ budget t)
  progress : ∀ s m rest, sv.inbox s = some (m :: rest) → 0 < budget s →
    ∃ e t, sv.own e ∧ sv.step s e = some t ∧ (sv.inbox t = sv.inbox s → work t < work s)

variable {sv} {budget work : σ → ℕ}

/-! What the own steps can take. -/

/-- With a budget, own steps take the first message or end the server with it. -/
theorem Budgeted.take_first (hb : sv.Budgeted budget work) {s : σ} {m : μ} {rest : List μ}
    (hs : sv.inbox s = some (m :: rest)) (hbudget : 0 < budget s) :
    ∃ es t, (∀ e ∈ es, sv.own e) ∧ run sv.step s es = some t ∧
      ((sv.ends m ∧ sv.inbox t = none) ∨
        (¬ sv.ends m ∧ sv.inbox t = some rest ∧ budget t + 1 = budget s)) := by
  induction hw : work s using Nat.strongRecOn generalizing s with
  | ind w ih =>
    obtain ⟨e, t, he, hstep, hwork⟩ := hb.progress s m rest hs hbudget
    rcases hb.own s e t he hstep with ⟨hsame, hkeep⟩ | ⟨m', rest', hs', -, htook⟩
    · have hlt : work t < w := hw ▸ hwork hsame
      obtain ⟨es, u, hown, hrun, hu⟩ := ih (work t) hlt (hsame.trans hs) (hkeep ▸ hbudget) rfl
      refine ⟨e :: es, u, ?_, run_cons_iff.mpr ⟨t, hstep, hrun⟩, hkeep ▸ hu⟩
      exact List.forall_mem_cons.mpr ⟨he, hown⟩
    · rw [hs, Option.some.injEq, List.cons.injEq] at hs'
      obtain ⟨rfl, rfl⟩ := hs'
      exact ⟨[e], t, List.forall_mem_singleton.mpr he, run_cons_iff.mpr ⟨t, hstep, rfl⟩, htook⟩

theorem takes_zero (s : σ) : sv.Takes s 0 := by
  refine ⟨[], s, fun e he => absurd he List.not_mem_nil, rfl, ?_⟩
  intro ms left hms hleft
  rw [hms, Option.some.injEq] at hleft
  rw [List.drop_zero, hleft]

theorem takes_of_ended {s t : σ} {es : List ε} (hown : ∀ e ∈ es, sv.own e)
    (hrun : run sv.step s es = some t) (ht : sv.inbox t = none) (k : ℕ) : sv.Takes s k := by
  refine ⟨es, t, hown, hrun, ?_⟩
  intro ms left _ hleft
  rw [ht] at hleft
  cases hleft

/-- Own steps before the first message is taken count as well. -/
theorem Takes.after {s t : σ} {es : List ε} {m : μ} {rest : List μ} {k : ℕ}
    (hown : ∀ e ∈ es, sv.own e) (hrun : run sv.step s es = some t)
    (hs : sv.inbox s = some (m :: rest)) (ht : sv.inbox t = some rest) (h : sv.Takes t k) :
    sv.Takes s (k + 1) := by
  obtain ⟨es', u, hown', hrun', hleft⟩ := h
  refine ⟨es ++ es', u, ?_, run_append hrun hrun', ?_⟩
  · intro e he
    rcases List.mem_append.mp he with he | he
    · exact hown e he
    · exact hown' e he
  · intro ms left hms hu
    rw [hs, Option.some.injEq] at hms
    rw [← hms, List.drop_succ_cons]
    exact hleft rest left ht hu

theorem pos_of_within {b i : ℕ} {ms : List μ} (h : i < b ∨ ∃ m ∈ ms.take b, sv.ends m) :
    0 < b := by
  by_contra hzero
  simp [Nat.eq_zero_of_not_pos hzero] at h

/-- A message that does not end the server uses up one of the budget. -/
theorem within_cons_iff {b i : ℕ} {m : μ} {ms : List μ} (hm : ¬ sv.ends m) :
    (i + 1 < b + 1 ∨ ∃ m' ∈ (m :: ms).take (b + 1), sv.ends m') ↔
      (i < b ∨ ∃ m' ∈ ms.take b, sv.ends m') := by
  simp [hm]

/-- Within the budget every message can be taken, and so can all others when one of those
within it ends the server. -/
theorem Budgeted.takes (hb : sv.Budgeted budget work) {s : σ} {ms : List μ} {i : ℕ}
    (hs : sv.inbox s = some ms) (hi : i < ms.length)
    (h : i < budget s ∨ ∃ m ∈ ms.take (budget s), sv.ends m) : sv.Takes s (i + 1) := by
  induction i generalizing s ms with
  | zero =>
    obtain ⟨m, rest, rfl⟩ := List.exists_cons_of_length_pos hi
    obtain ⟨es, t, hown, hrun, htook⟩ := hb.take_first hs (pos_of_within h)
    rcases htook with ⟨-, hnone⟩ | ⟨-, hrest, -⟩
    · exact takes_of_ended hown hrun hnone _
    · exact Takes.after hown hrun hs hrest (takes_zero t)
  | succ i ih =>
    obtain ⟨m, rest, rfl⟩ := List.exists_cons_of_length_pos (Nat.zero_lt_of_lt hi)
    obtain ⟨es, t, hown, hrun, htook⟩ := hb.take_first hs (pos_of_within h)
    rcases htook with ⟨-, hnone⟩ | ⟨hends, hrest, hspent⟩
    · exact takes_of_ended hown hrun hnone _
    · rw [← hspent, within_cons_iff hends] at h
      exact Takes.after hown hrun hs hrest (ih hrest (Nat.lt_of_succ_lt_succ hi) h)

/-- Beyond the budget a message is taken only with one that ends the server. -/
theorem Budgeted.covered_of_takes (hb : sv.Budgeted budget work) {s : σ} {ms : List μ} {i : ℕ}
    (hs : sv.inbox s = some ms) (hi : i < ms.length) (h : sv.Takes s (i + 1)) :
    i < budget s ∨ ∃ m ∈ ms.take (budget s), sv.ends m := by
  obtain ⟨es, t, hown, hrun, hleft⟩ := h
  replace hleft : ∀ left, sv.inbox t = some left → left = ms.drop (i + 1) :=
    fun left => hleft ms left hs
  induction es generalizing s ms i with
  | nil =>
    rw [run, Option.some.injEq] at hrun
    have hlen := congrArg List.length (hleft ms (hrun ▸ hs))
    rw [List.length_drop] at hlen
    omega
  | cons e es ih =>
    obtain ⟨s', hstep, hrun'⟩ := run_cons_iff.mp hrun
    obtain ⟨he, hown'⟩ := List.forall_mem_cons.mp hown
    rcases hb.own s e s' he hstep with ⟨hsame, hkeep⟩ | ⟨m, rest, hs', hbudget, htook⟩
    · rw [← hkeep]
      exact ih (hsame.trans hs) hi hown' hrun' hleft
    · rw [hs, Option.some.injEq] at hs'
      subst hs'
      rcases htook with ⟨hends, -⟩ | ⟨hends, hrest, hspent⟩
      · obtain ⟨b, hbud⟩ := Nat.exists_eq_add_of_lt hbudget
        refine Or.inr ⟨m, ?_, hends⟩
        rw [hbud, Nat.zero_add, List.take_succ_cons]
        exact List.mem_cons_self ..
      · cases i with
        | zero => exact Or.inl hbudget
        | succ i =>
          rw [← hspent, within_cons_iff hends]
          exact ih hrest (Nat.lt_of_succ_lt_succ hi) hown' hrun' hleft

/-- Every urgent message can be taken exactly when the budget covers them. -/
theorem Budgeted.responsive_iff (hb : sv.Budgeted budget work) {s : σ} {ms : List μ}
    (hs : sv.inbox s = some ms) : sv.Responsive s ↔ sv.Covered (budget s) ms := by
  constructor
  · intro h
    by_cases hends : ∃ m ∈ ms.take (budget s), sv.ends m
    · exact Or.inl hends
    · refine Or.inr ?_
      intro m hm hurgent
      obtain ⟨i, hi⟩ := List.mem_iff_getElem?.mp hm
      rw [List.getElem?_drop] at hi
      have hlt := (List.getElem?_eq_some_iff.mp hi).1
      rcases hb.covered_of_takes hs hlt (h ms _ m hs hi hurgent) with hlt' | hends'
      · omega
      · exact hends hends'
  · intro h ms' i m hs' hi hurgent
    rw [hs, Option.some.injEq] at hs'
    subst hs'
    apply hb.takes hs (List.getElem?_eq_some_iff.mp hi).1
    rcases h with hends | hnone
    · exact Or.inr hends
    · by_cases hlt : i < budget s
      · exact Or.inl hlt
      · refine absurd hurgent (hnone m ?_)
        rw [List.mem_iff_getElem?]
        refine ⟨i - budget s, ?_⟩
        rw [List.getElem?_drop, Nat.add_sub_cancel' (Nat.le_of_not_lt hlt)]
        exact hi

theorem responsive_of_none {s : σ} (hs : sv.inbox s = none) : sv.Responsive s := by
  intro ms i m hms
  rw [hs] at hms
  cases hms

theorem responsive_of_nil {s : σ} (hs : sv.inbox s = some []) : sv.Responsive s := by
  intro ms i m hms hi
  rw [hs, Option.some.injEq] at hms
  rw [← hms, List.getElem?_nil] at hi
  cases hi

/-! Runs. -/

theorem Covered.mono {b b' : ℕ} {ms : List μ} (h : sv.Covered b ms) (hb : b ≤ b') :
    sv.Covered b' ms := by
  rcases h with ⟨m, hm, hends⟩ | hnone
  · exact Or.inl ⟨m, (List.take_subset_take_left ms hb) hm, hends⟩
  · exact Or.inr fun m hm => hnone m (List.drop_subset_drop_left ms hb hm)

theorem covered_cons {b : ℕ} {m : μ} {ms : List μ} (hm : ¬ sv.ends m) :
    sv.Covered (b + 1) (m :: ms) ↔ sv.Covered b ms := by
  simp [Covered, hm]

/-- A further message matters only where it is urgent. -/
theorem covered_concat_iff {b : ℕ} {m : μ} {ms : List μ} (h : sv.Covered b ms) :
    sv.Covered b (ms ++ [m]) ↔
      (sv.urgent m → ms.length < b ∨ ∃ m' ∈ ms.take b, sv.ends m') := by
  by_cases hlt : ms.length < b
  · refine iff_of_true (Or.inr ?_) fun _ => Or.inl hlt
    rw [List.drop_eq_nil_of_le (by rw [List.length_append, List.length_singleton]; omega)]
    exact fun m hm => absurd hm List.not_mem_nil
  · have hle : b ≤ ms.length := Nat.le_of_not_lt hlt
    rw [Covered, List.take_append_of_le_length hle, List.drop_append_of_le_length hle]
    constructor
    · intro hcov hurgent
      rcases hcov with hends | hnone
      · exact Or.inr hends
      · exact absurd hurgent (hnone m (List.mem_append_right _ (List.mem_singleton_self m)))
    · intro hurgent
      rcases h with hends | hnone
      · exact Or.inl hends
      · by_cases hm : sv.urgent m
        · rcases hurgent hm with hlt' | hends
          · exact absurd hlt' hlt
          · exact Or.inl hends
        · refine Or.inr ?_
          intro m' hm'
          rcases List.mem_append.mp hm' with hm' | hm'
          · exact hnone m' hm'
          · rwa [List.mem_singleton.mp hm']

/-- A step leaves the server responsive exactly when what arrives is in time. -/
theorem Budgeted.responsive_step_iff (hb : sv.Budgeted budget work) {s t : σ} {e : ε}
    (hs : sv.Responsive s) (h : sv.step s e = some t) :
    sv.Responsive t ↔ sv.InTime budget s e := by
  cases harr : sv.arrives e with
  | some m =>
    obtain ⟨ms, hms, hms', hkeep⟩ := hb.arrive s e t m harr h
    have hcov := (hb.responsive_iff hms).mp hs
    rw [hb.responsive_iff hms', hkeep, covered_concat_iff hcov]
    constructor
    · intro hurgent m' ms' hm' hu hms'
      rw [harr, Option.some.injEq] at hm'
      rw [hms, Option.some.injEq] at hms'
      subst hm' hms'
      exact hurgent hu
    · intro hin hu
      exact hin m ms harr hu hms
  | none =>
    have hin : sv.InTime budget s e := by
      intro m ms hm
      rw [harr] at hm
      cases hm
    refine iff_of_true ?_ hin
    have hkeep : sv.inbox t = sv.inbox s → budget s ≤ budget t → sv.Responsive t := by
      intro hsame hle
      cases hms : sv.inbox s with
      | none => exact responsive_of_none (hsame.trans hms)
      | some ms =>
        rw [hb.responsive_iff (hsame.trans hms)]
        exact ((hb.responsive_iff hms).mp hs).mono hle
    by_cases hown : sv.own e
    · rcases hb.own s e t hown h with ⟨hsame, hbud⟩ | ⟨m, rest, hms, -, htook⟩
      · exact hkeep hsame (Nat.le_of_eq hbud.symm)
      · rcases htook with ⟨-, hnone⟩ | ⟨hends, hrest, hspent⟩
        · exact responsive_of_none hnone
        · have hcov := (hb.responsive_iff hms).mp hs
          rw [← hspent, covered_cons hends] at hcov
          exact (hb.responsive_iff hrest).mpr hcov
    · rcases hb.other s e t hown harr h with hnone | hnil | ⟨hsame, hle⟩
      · exact responsive_of_none hnone
      · exact responsive_of_nil hnil
      · exact hkeep hsame hle

/-- At every moment of a run all urgent messages can be taken exactly when each of them
arrived in time. -/
theorem Budgeted.reached_responsive_iff (hb : sv.Budgeted budget work) {s t : σ} {es : List ε}
    (hs : sv.Responsive s) (h : run sv.step s es = some t) :
    (∀ m, Reached sv.step s es m → sv.Responsive m) ↔
      Along sv.step (sv.InTime budget) s es :=
  reached_iff_along (I := fun _ => True)
    (fun _ _ _ _ hs' hstep => ⟨trivial, hb.responsive_step_iff hs' hstep⟩) trivial hs h

end Server

end Hermod.Service
