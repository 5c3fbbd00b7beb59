import Mathlib.Data.List.Basic

/-!
Runs of a partial step function over events. A run is the list of its events; the
step function says which state each event leads to, and refuses the events that
cannot happen. What one step preserves a run preserves, and what a step preserves
exactly under a condition holds at the end exactly when every step met the condition.
-/
namespace Hermod.Transitions

variable {σ ε : Type}

def run (step : σ → ε → Option σ) (s : σ) : List ε → Option σ
  | [] => some s
  | e :: es => (step s e).bind fun s' => run step s' es

/-- Every step of the run starts in a state, and with an event, that `P` relates. -/
def Along (step : σ → ε → Option σ) (P : σ → ε → Prop) (s : σ) : List ε → Prop
  | [] => True
  | e :: es => P s e ∧ ∀ s', step s e = some s' → Along step P s' es

variable {step : σ → ε → Option σ}

theorem run_cons_iff {s t : σ} {e : ε} {es : List ε} :
    run step s (e :: es) = some t ↔ ∃ s', step s e = some s' ∧ run step s' es = some t :=
  Option.bind_eq_some_iff

/-- Two runs, one after the other. -/
theorem run_append {s t u : σ} {es es' : List ε} (h : run step s es = some t)
    (h' : run step t es' = some u) : run step s (es ++ es') = some u := by
  induction es generalizing s with
  | nil =>
    rw [run, Option.some.injEq] at h
    rwa [h]
  | cons e es ih =>
    obtain ⟨s', he, hes⟩ := run_cons_iff.mp h
    exact run_cons_iff.mpr ⟨s', he, ih hes⟩

/-- A run and its last step. -/
theorem run_concat_iff {s t : σ} {e : ε} {es : List ε} :
    run step s (es ++ [e]) = some t ↔ ∃ u, run step s es = some u ∧ step u e = some t := by
  induction es generalizing s with
  | nil => simp [run]
  | cons e' es ih =>
    rw [List.cons_append, run_cons_iff]
    constructor
    · intro h
      obtain ⟨s', he, hes⟩ := h
      obtain ⟨u, hu, hut⟩ := ih.mp hes
      exact ⟨u, run_cons_iff.mpr ⟨s', he, hu⟩, hut⟩
    · intro h
      obtain ⟨u, hu, hut⟩ := h
      obtain ⟨s', he, hes⟩ := run_cons_iff.mp hu
      exact ⟨s', he, ih.mpr ⟨u, hes, hut⟩⟩

/-- A run goes on from where its beginning has led. -/
theorem run_of_append {s t u : σ} {es es' : List ε} (h : run step s (es ++ es') = some u)
    (h' : run step s es = some t) : run step t es' = some u := by
  induction es generalizing s with
  | nil =>
    rw [run, Option.some.injEq] at h'
    rwa [← h']
  | cons e es ih =>
    obtain ⟨s', he, hes⟩ := run_cons_iff.mp h
    obtain ⟨s'', he', hes'⟩ := run_cons_iff.mp h'
    rw [he, Option.some.injEq] at he'
    subst he'
    exact ih hes hes'

/-- What every step preserves, a run preserves. -/
theorem run_invariant {I : σ → Prop} (hstep : ∀ s e s', I s → step s e = some s' → I s')
    {s t : σ} {es : List ε} (hs : I s) (h : run step s es = some t) : I t := by
  induction es generalizing s with
  | nil =>
    rw [run, Option.some.injEq] at h
    rwa [← h]
  | cons e es ih =>
    obtain ⟨s', he, hes⟩ := run_cons_iff.mp h
    exact ih (hstep s e s' hs he) hes

/-- The same for the steps that meet `P`. -/
theorem run_invariant_along {I : σ → Prop} {P : σ → ε → Prop}
    (hstep : ∀ s e s', I s → P s e → step s e = some s' → I s') {s t : σ} {es : List ε}
    (hs : I s) (hP : Along step P s es) (h : run step s es = some t) : I t := by
  induction es generalizing s with
  | nil =>
    rw [run, Option.some.injEq] at h
    rwa [← h]
  | cons e es ih =>
    obtain ⟨s', he, hes⟩ := run_cons_iff.mp h
    exact ih (hstep s e s' hs hP.1 he) (hP.2 s' he) hes

theorem along_of_forall {H : ε → Prop} (s : σ) {es : List ε} (h : ∀ e ∈ es, H e) :
    Along step (fun _ e => H e) s es := by
  induction es generalizing s with
  | nil => exact trivial
  | cons e es ih =>
    exact ⟨h e (List.mem_cons_self ..), fun s' _ =>
      ih s' fun e' he' => h e' (List.mem_cons_of_mem _ he')⟩

theorem Along.and {P P' : σ → ε → Prop} {s : σ} {es : List ε} (h : Along step P s es)
    (h' : Along step P' s es) : Along step (fun s e => P s e ∧ P' s e) s es := by
  induction es generalizing s with
  | nil => exact trivial
  | cons e es ih => exact ⟨⟨h.1, h'.1⟩, fun s' he => ih (h.2 s' he) (h'.2 s' he)⟩

/-- Along a run means along its beginning and, from where that leads, along its end. -/
theorem Along.of_append {P : σ → ε → Prop} {s : σ} {es es' : List ε}
    (h : Along step P s (es ++ es')) :
    Along step P s es ∧ ∀ t, run step s es = some t → Along step P t es' := by
  induction es generalizing s with
  | nil =>
    refine ⟨trivial, fun t ht => ?_⟩
    rw [run, Option.some.injEq] at ht
    rwa [← ht]
  | cons e es ih =>
    refine ⟨⟨h.1, fun s' he => (ih (h.2 s' he)).1⟩, fun t ht => ?_⟩
    obtain ⟨s', he, hes⟩ := run_cons_iff.mp ht
    exact (ih (h.2 s' he)).2 t hes

theorem Along.append {P : σ → ε → Prop} {s : σ} {es es' : List ε} (h : Along step P s es)
    (h' : ∀ t, run step s es = some t → Along step P t es') : Along step P s (es ++ es') := by
  induction es generalizing s with
  | nil => exact h' s rfl
  | cons e es ih =>
    refine ⟨h.1, fun s' he => ih (h.2 s' he) ?_⟩
    intro t ht
    exact h' t (run_cons_iff.mpr ⟨s', he, ht⟩)

/-- What an invariant of the steps that meet `P` implies, with `P`, holds along their run. -/
theorem Along.of_invariant {I : σ → Prop} {P Q : σ → ε → Prop}
    (h : ∀ s e, I s → P s e → Q s e)
    (hstep : ∀ s e s', I s → P s e → step s e = some s' → I s') {s : σ} {es : List ε}
    (hs : I s) (hP : Along step P s es) : Along step Q s es := by
  induction es generalizing s with
  | nil => exact trivial
  | cons e es ih =>
    exact ⟨h s e hs hP.1, fun s' he => ih (hstep s e s' hs hP.1 he) (hP.2 s' he)⟩

/-- Where each step keeps `Q` exactly when it meets `P`, the end of a run satisfies `Q`
exactly when its start does and every step meets `P`. -/
theorem run_iff_along {I Q : σ → Prop} {H P : σ → ε → Prop}
    (hstep : ∀ s e s', I s → H s e → step s e = some s' → I s' ∧ (Q s' ↔ Q s ∧ P s e))
    {s t : σ} {es : List ε} (hs : I s) (hH : Along step H s es) (h : run step s es = some t) :
    Q t ↔ Q s ∧ Along step P s es := by
  induction es generalizing s with
  | nil =>
    rw [run, Option.some.injEq] at h
    rw [← h, Along, and_true]
  | cons e es ih =>
    obtain ⟨s', he, hes⟩ := run_cons_iff.mp h
    obtain ⟨hs', hQ⟩ := hstep s e s' hs hH.1 he
    rw [ih hs' (hH.2 s' he) hes, hQ, and_assoc, Along]
    refine and_congr_right fun _ => and_congr_right fun _ => ?_
    constructor
    · intro halong s'' he'
      rw [he, Option.some.injEq] at he'
      rwa [← he']
    · intro halong
      exact halong s' he

/-- The states that a run passes through, its start included. -/
def Reached (step : σ → ε → Option σ) (s : σ) (es : List ε) (m : σ) : Prop :=
  ∃ pre, pre.IsPrefix es ∧ run step s pre = some m

/-- The start, or a state reached after the first step. -/
theorem reached_cons_iff {s m : σ} {e : ε} {es : List ε} :
    Reached step s (e :: es) m ↔ m = s ∨ ∃ s', step s e = some s' ∧ Reached step s' es m := by
  constructor
  · intro h
    obtain ⟨pre, hpre, hrun⟩ := h
    rcases List.prefix_cons_iff.mp hpre with rfl | ⟨tail, rfl, htail⟩
    · rw [run, Option.some.injEq] at hrun
      exact Or.inl hrun.symm
    · obtain ⟨s', he, hes⟩ := run_cons_iff.mp hrun
      exact Or.inr ⟨s', he, tail, htail, hes⟩
  · intro h
    rcases h with rfl | ⟨s', he, pre, hpre, hrun⟩
    · exact ⟨[], List.nil_prefix, rfl⟩
    · exact ⟨e :: pre, List.cons_prefix_cons.mpr ⟨rfl, hpre⟩, run_cons_iff.mpr ⟨s', he, hrun⟩⟩

/-- Where a step that meets `H` leads to a state with `Q` exactly when it meets `P`, all
states of a run have `Q` exactly when all its steps meet `P`. -/
theorem reached_iff_along_of {I Q : σ → Prop} {H P : σ → ε → Prop}
    (hstep : ∀ s e s', I s → Q s → H s e → step s e = some s' → I s' ∧ (Q s' ↔ P s e))
    {s t : σ} {es : List ε} (hs : I s) (hQ : Q s) (hH : Along step H s es)
    (h : run step s es = some t) :
    (∀ m, Reached step s es m → Q m) ↔ Along step P s es := by
  induction es generalizing s with
  | nil =>
    refine iff_of_true ?_ trivial
    intro m h'
    obtain ⟨pre, hpre, hrun⟩ := h'
    rw [List.prefix_nil.mp hpre, run, Option.some.injEq] at hrun
    rwa [← hrun]
  | cons e es ih =>
    obtain ⟨s', he, hes⟩ := run_cons_iff.mp h
    obtain ⟨hs', hQ'⟩ := hstep s e s' hs hQ hH.1 he
    have hreach : (∀ m, Reached step s (e :: es) m → Q m) ↔
        ∀ m, Reached step s' es m → Q m := by
      constructor
      · intro hall m hm
        exact hall m (reached_cons_iff.mpr (Or.inr ⟨s', he, hm⟩))
      · intro hall m hm
        rcases reached_cons_iff.mp hm with rfl | ⟨s'', he', hm'⟩
        · exact hQ
        · rw [he, Option.some.injEq] at he'
          exact hall m (he' ▸ hm')
    rw [hreach, Along]
    constructor
    · intro hall
      have hQs' : Q s' := hall s' ⟨[], List.nil_prefix, rfl⟩
      refine ⟨hQ'.mp hQs', fun s'' he' => ?_⟩
      rw [he, Option.some.injEq] at he'
      exact he' ▸ (ih hs' hQs' (hH.2 s' he) hes).mp hall
    · intro h'
      obtain ⟨hP, halong⟩ := h'
      exact (ih hs' (hQ'.mpr hP) (hH.2 s' he) hes).mpr (halong s' he)

/-- The same for all steps. -/
theorem reached_iff_along {I Q : σ → Prop} {P : σ → ε → Prop}
    (hstep : ∀ s e s', I s → Q s → step s e = some s' → I s' ∧ (Q s' ↔ P s e))
    {s t : σ} {es : List ε} (hs : I s) (hQ : Q s) (h : run step s es = some t) :
    (∀ m, Reached step s es m → Q m) ↔ Along step P s es :=
  reached_iff_along_of (H := fun _ _ => True) (fun s e s' hs hQ _ => hstep s e s' hs hQ) hs hQ
    (along_of_forall s fun _ _ => trivial) h

/-- Two runs side by side. -/
def pairStep (step : σ → ε → Option σ) (p : σ × σ) (e : ε × ε) : Option (σ × σ) :=
  (step p.1 e.1).bind fun s => (step p.2 e.2).map fun t => (s, t)

theorem pairStep_iff {p q : σ × σ} {e : ε × ε} :
    pairStep step p e = some q ↔ step p.1 e.1 = some q.1 ∧ step p.2 e.2 = some q.2 := by
  rw [pairStep, Option.bind_eq_some_iff]
  constructor
  · intro h'
    obtain ⟨s, hs, h⟩ := h'
    obtain ⟨t, ht, rfl⟩ := Option.map_eq_some_iff.mp h
    exact ⟨hs, ht⟩
  · intro h'
    obtain ⟨hs, ht⟩ := h'
    exact ⟨q.1, hs, by rw [ht]; rfl⟩

/-- Two runs of one length are one run side by side. -/
theorem run_pair {es : List (ε × ε)} {p q : σ × σ} (h : run step p.1 (es.map Prod.fst) = some q.1)
    (h' : run step p.2 (es.map Prod.snd) = some q.2) : run (pairStep step) p es = some q := by
  induction es generalizing p with
  | nil =>
    rw [List.map_nil, run, Option.some.injEq] at h h'
    exact congrArg some (Prod.ext h h')
  | cons e es ih =>
    obtain ⟨s, hs, h⟩ := run_cons_iff.mp h
    obtain ⟨s', hs', h'⟩ := run_cons_iff.mp h'
    exact run_cons_iff.mpr ⟨(s, s'), pairStep_iff.mpr ⟨hs, hs'⟩, ih h h'⟩

end Hermod.Transitions
