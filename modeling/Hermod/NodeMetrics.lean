import Hermod.EkgPoller

/-!
The metrics of a node as they go through its caches into its registry. A metric is what a
report is about: an EKG name together with the kind of its value, or a number found in
traces. Each is exported in a family, which it shares at most with labels if it is one. An
update is refused for good where its family is taken by another metric; otherwise it writes
into that family and touches nothing else.
-/
namespace Hermod.EkgPoller

open EkgMessages (EkgValue)
open MetricsRegistry MetricsRegistry.Registry
open TracerState (Unicode)
open Transitions

variable {F : Type}

inductive Metric
  | counter (name : String)
  | gauge (name : String)
  | label (name : String)
  | traceField (metricName : String)
  deriving DecidableEq

namespace Metric

def cache : Metric → Cache
  | counter _ => .counter
  | gauge _ => .gauge
  | label _ => .labelGauge
  | traceField _ => .traceGauge

def key (u : Unicode) : Metric → String
  | counter name => name
  | gauge name => name
  | label name => sanitiseName u (name ++ "_info")
  | traceField metricName => metricName

def slot (u : Unicode) (m : Metric) : Cache × String := (m.cache, m.key u)

def family (u : Unicode) : Metric → String
  | counter name => sanitiseName u name
  | gauge name => sanitiseName u name
  | label name => sanitiseName u (sanitiseName u (name ++ "_info"))
  | traceField metricName => metricName

def IsLabel : Metric → Prop
  | label _ => True
  | _ => False

def fresh : Metric → Family F
  | counter _ => .counter (.new [])
  | gauge _ => .gauge (.new [])
  | label _ => .gauge (.new ["value"])
  | traceField _ => .gauge (.new [])

def handle (u : Unicode) (s : Node F) (m : Metric) : Option String := s.caches (m.slot u)

def Fits : Metric → Family F → Prop
  | counter _, .counter vec => vec.labels = []
  | gauge _, .gauge vec => vec.labels = []
  | label _, .gauge vec => vec.labels = ["value"]
  | traceField _, .gauge vec => vec.labels = []
  | _, _ => False

end Metric

namespace Event

def metric : Event F → Metric
  | ekg name (.counter _) => .counter name
  | ekg name (.gauge _) => .gauge name
  | ekg name (.label _) => .label name
  | traceField metricName _ => .traceField metricName

def write (x : F64 F) (prev : String → Option Int64) : Event F → Family F → Option (Family F)
  | ekg name (.counter v), family =>
    let delta := increase ((prev name).getD 0) v
    if 0 < delta then family.incBy [] (UInt64.ofNat delta) else some family
  | ekg _ (.gauge v), family => family.set [] (x.ofInt v)
  | ekg _ (.label text), family => family.set [text] x.one
  | traceField _ value, family => family.set [] value

def remember (prev : String → Option Int64) : Event F → String → Option Int64
  | ekg name (.counter v) => Function.update prev name (some v)
  | _ => prev

end Event

theorem sanitiseName_sanitiseName (u : Unicode) (name : String) :
    sanitiseName u (sanitiseName u name) = sanitiseName u name := by
  simp only [sanitiseName, EkgBackend.sanitiseName, String.toList_ofList, List.map_map]
  congr 2
  funext c
  by_cases h : u.isAlphanumeric c = true ∨ c = '_'
  · simp only [Function.comp_apply, if_pos h]
  · simp only [Function.comp_apply, if_neg h, or_true, if_true]

/-- Metrics in one slot of the caches are one metric, or labels of one family. -/
theorem Metric.eq_of_slot {u : Unicode} {m m' : Metric} (h : m.slot u = m'.slot u) :
    m.family u = m'.family u ∧ (m = m' ∨ m.IsLabel ∧ m'.IsLabel) := by
  rw [slot, slot, Prod.mk.injEq] at h
  obtain ⟨hcache, hkey⟩ := h
  cases m <;> cases m' <;> simp only [cache, reduceCtorEq] at hcache
  case counter.counter => exact ⟨congrArg (sanitiseName u) hkey, Or.inl (congrArg counter hkey)⟩
  case gauge.gauge => exact ⟨congrArg (sanitiseName u) hkey, Or.inl (congrArg gauge hkey)⟩
  case label.label => exact ⟨congrArg (sanitiseName u) hkey, Or.inr ⟨trivial, trivial⟩⟩
  case traceField.traceField => exact ⟨hkey, Or.inl (congrArg traceField hkey)⟩

/-- Labels of one family are in one slot. -/
theorem Metric.slot_eq_of_labels {u : Unicode} {m m' : Metric} (hm : m.IsLabel) (hm' : m'.IsLabel)
    (h : m.family u = m'.family u) : m.slot u = m'.slot u := by
  cases m <;> cases m' <;> simp only [IsLabel] at hm hm'
  simp only [family, sanitiseName_sanitiseName] at h
  simp only [slot, cache, key, h]

theorem Metric.fits_fresh (m : Metric) : m.Fits (m.fresh : Family F) := by
  cases m <;> rfl

theorem Metric.fits_iff_of_labels {m m' : Metric} (hm : m.IsLabel) (hm' : m'.IsLabel)
    {family : Family F} : m.Fits family ↔ m'.Fits family := by
  cases m <;> cases m' <;> simp only [IsLabel] at hm hm'
  cases family with
  | gauge vec => exact Iff.rfl
  | counter vec => exact Iff.rfl

/-- A family that fits the metric takes what is reported of it. -/
theorem Event.write_fits (x : F64 F) (prev : String → Option Int64) {e : Event F}
    {old : Family F} (h : e.metric.Fits old) :
    ∃ new, e.write x prev old = some new ∧ e.metric.Fits new := by
  rcases e with ⟨name, v | v | text⟩ | ⟨metricName, value⟩ <;>
    rcases old with vec | vec <;> try exact h.elim
  · have hlabels : vec.labels = [] := h
    by_cases hpos : 0 < increase ((prev name).getD 0) v
    · rw [write, if_pos hpos, Family.incBy_counter (by rw [hlabels])]
      exact ⟨_, rfl, h⟩
    · rw [write, if_neg hpos]
      exact ⟨_, rfl, h⟩
  · have hlabels : vec.labels = [] := h
    rw [write, Family.set_gauge (by rw [hlabels])]
    exact ⟨_, rfl, h⟩
  · have hlabels : vec.labels = ["value"] := h
    rw [write, Family.set_gauge (by rw [hlabels]; rfl)]
    exact ⟨_, rfl, h⟩
  · have hlabels : vec.labels = [] := h
    rw [write, Family.set_gauge (by rw [hlabels])]
    exact ⟨_, rfl, h⟩

/-! The invariant. -/

/-- The caches hold registered families of the right kind, every registered family is in
the caches, and only labels share one. -/
structure Consistent (u : Unicode) (s : Node F) : Prop where
  opened : ∀ (m : Metric) h, m.handle u s = some h →
    h = m.family u ∧ ∃ family, s.registry h = some family ∧ m.Fits family
  owned : ∀ name, (s.registry name).isSome → ∃ m : Metric, m.handle u s = some name
  unique : ∀ (m m' : Metric) h, m.handle u s = some h → m'.handle u s = some h →
    m = m' ∨ m.IsLabel ∧ m'.IsLabel
  counted : ∀ name, Metric.handle u s (.counter name) = none → s.counterValues name = none

theorem consistent_new (u : Unicode) : Consistent u (Node.new : Node F) where
  opened _ _ h := by cases h
  owned _ h := by cases h
  unique _ _ _ h := by cases h
  counted _ _ := rfl

def Node.created (u : Unicode) (s : Node F) (m : Metric) : Node F :=
  { s with
    registry := Function.update s.registry (m.family u) (some m.fresh)
    caches := Function.update s.caches (m.slot u) (some (m.family u)) }

inductive Opened (u : Unicode) (s : Node F) (m : Metric) : Node F → Prop
  | cached (h : m.handle u s = some (m.family u)) : Opened u s m s
  | created (h : m.handle u s = none) (hr : ¬ s.registry.Refuses (m.family u) (m.key u)) :
      Opened u s m (s.created u m)

section Opened

variable {u : Unicode} {s t : Node F} {m m' : Metric}

theorem handle_created (u : Unicode) (s : Node F) (m m' : Metric) :
    m'.handle u (s.created u m) =
      if m'.slot u = m.slot u then some (m.family u) else m'.handle u s := by
  simp only [Metric.handle, Node.created, Function.update_apply]

theorem Opened.handle (h : Opened u s m t) : m.handle u t = some (m.family u) := by
  cases h with
  | cached h => exact h
  | created h hr => rw [handle_created, if_pos rfl]

theorem Opened.handle_mono (h : Opened u s m t) {f : String} (hm' : m'.handle u s = some f) :
    m'.handle u t = some f := by
  cases h with
  | cached h => exact hm'
  | created h hr =>
    rw [handle_created, if_neg, hm']
    intro hslot
    rw [Metric.handle, hslot] at hm'
    rw [Metric.handle, hm'] at h
    cases h

/-- A metric is cached after the opening if it was before, or shares the slot that was opened. -/
theorem Opened.handle_cases (h : Opened u s m t) {f : String} (hm' : m'.handle u t = some f) :
    m'.handle u s = some f ∨ m'.slot u = m.slot u ∧ f = m.family u := by
  cases h with
  | cached h => exact Or.inl hm'
  | created h hr =>
    rw [handle_created] at hm'
    split at hm'
    · rename_i hslot
      exact Or.inr ⟨hslot, (Option.some.inj hm').symm⟩
    · exact Or.inl hm'

theorem Opened.counterValues (h : Opened u s m t) : t.counterValues = s.counterValues := by
  cases h with
  | cached h => rfl
  | created h hr => rfl

theorem Opened.registry_of_ne (h : Opened u s m t) {name : String} (hne : name ≠ m.family u) :
    t.registry name = s.registry name := by
  cases h with
  | cached h => rfl
  | created h hr => exact Function.update_of_ne hne _ _

/-- Opening keeps caches and registry consistent. -/
theorem Opened.consistent (hs : Consistent u s) (h : Opened u s m t) : Consistent u t := by
  cases h with
  | cached h => exact hs
  | created h hr =>
    have hfree : ∀ m' : Metric, m'.handle u s ≠ some (m.family u) := by
      intro m' hm'
      obtain ⟨family, hfamily, -⟩ := (hs.opened m' _ hm').2
      exact hr (Or.inr (Or.inr ⟨family, hfamily⟩))
    refine ⟨?_, ?_, ?_, ?_⟩
    · intro m' f hm'
      rw [handle_created] at hm'
      split at hm'
      · rename_i hslot
        obtain ⟨hfamily, hsame⟩ := Metric.eq_of_slot hslot
        rw [← Option.some.inj hm']
        refine ⟨hfamily.symm, m.fresh, Function.update_self .., ?_⟩
        rcases hsame with rfl | ⟨hlabel', hlabel⟩
        · exact m'.fits_fresh
        · exact (Metric.fits_iff_of_labels hlabel hlabel').mp m.fits_fresh
      · obtain ⟨hf, family, hfamily, hfits⟩ := hs.opened m' f hm'
        refine ⟨hf, family, ?_, hfits⟩
        have hne : f ≠ m.family u := fun heq => hfree m' (heq ▸ hm')
        simpa only [Node.created, Function.update_of_ne hne] using hfamily
    · intro name hname
      by_cases heq : name = m.family u
      · exact ⟨m, by rw [handle_created, if_pos rfl, heq]⟩
      · simp only [Node.created, Function.update_of_ne heq] at hname
        obtain ⟨m', hm'⟩ := hs.owned name hname
        exact ⟨m', (Opened.created h hr).handle_mono hm'⟩
    · intro m₁ m₂ f h₁ h₂
      rw [handle_created] at h₁ h₂
      split at h₁
      · rename_i hslot₁
        split at h₂
        · rename_i hslot₂
          exact (Metric.eq_of_slot (hslot₁.trans hslot₂.symm)).2
        · exact absurd (h₂.trans h₁.symm) (hfree m₂)
      · split at h₂
        · exact absurd (h₁.trans h₂.symm) (hfree m₁)
        · exact hs.unique m₁ m₂ f h₁ h₂
    · intro name hname
      rw [handle_created] at hname
      split at hname
      · cases hname
      · exact hs.counted name hname

/-- What the family was when it was opened. -/
theorem Opened.old_cases (h : Opened u s m t) {old : Family F}
    (hold : t.registry (m.family u) = some old) :
    m.handle u s = some (m.family u) ∧ s.registry (m.family u) = some old ∨
      m.handle u s = none ∧ ¬ s.registry.Refuses (m.family u) (m.key u) ∧ old = m.fresh := by
  cases h with
  | cached h => exact Or.inl ⟨h, hold⟩
  | created h hr =>
    simp only [Node.created, Function.update_self, Option.some.injEq] at hold
    exact Or.inr ⟨h, hr, hold.symm⟩

end Opened

def Node.written (u : Unicode) (s : Node F) (e : Event F) (family : Family F) : Node F :=
  { s with
    registry := Function.update s.registry (e.metric.family u) (some family)
    counterValues := e.remember s.counterValues }

/-- What an update does: it is refused and changes nothing, or it writes into the family of
its metric, which it finds or creates. -/
inductive Updates (u : Unicode) (x : F64 F) (s : Node F) (e : Event F) : Node F → Prop
  | refused (h : e.metric.handle u s = none)
      (hr : s.registry.Refuses (e.metric.family u) (e.metric.key u)) : Updates u x s e s
  | written {t : Node F} {old new : Family F} (ho : Opened u s e.metric t)
      (hold : t.registry (e.metric.family u) = some old) (hfits : e.metric.Fits old)
      (hw : e.write x s.counterValues old = some new) : Updates u x s e (t.written u e new)

section Updates

variable {u : Unicode} {x : F64 F} {s t : Node F} {e : Event F}

/-- A metric is refused, or its family is found or created. -/
theorem getOrCreate_cases (hs : Consistent u s) (m : Metric) :
    (m.handle u s = none ∧ s.registry.Refuses (m.family u) (m.key u) ∧
      s.getOrCreate m.cache (m.key u) (m.family u) m.fresh = none) ∨
    ∃ t, Opened u s m t ∧
      s.getOrCreate m.cache (m.key u) (m.family u) m.fresh = some (t, m.family u) := by
  cases hm : m.handle u s with
  | some f =>
    obtain ⟨rfl, -⟩ := hs.opened m f hm
    refine Or.inr ⟨s, Opened.cached hm, ?_⟩
    rw [Metric.handle, Metric.slot] at hm
    rw [Node.getOrCreate, hm]
  | none =>
    by_cases hr : s.registry.Refuses (m.family u) (m.key u)
    · refine Or.inl ⟨rfl, hr, ?_⟩
      rw [Metric.handle, Metric.slot] at hm
      rw [Node.getOrCreate, hm]
      simp only [register_of_refuses hr, Option.map_none]
    · refine Or.inr ⟨_, Opened.created hm hr, ?_⟩
      rw [Metric.handle, Metric.slot] at hm
      rw [Node.getOrCreate, hm]
      simp only [register_of_not_refuses hr, Option.map_some, Node.created, Metric.slot]

theorem completed_setGauge {found : Option (Node F × String)} {name : String} {old new : Family F}
    {values : List String} {value : F} (hfound : found = some (t, name))
    (hold : t.registry name = some old) (hw : old.set values value = some new) :
    completed (s.setGauge found values value) =
      some { t with registry := Function.update t.registry name (some new) } := by
  rw [hfound, Node.setGauge]
  simp only [modify_of_some (f := fun family => family.set values value) hold hw, completed]

theorem completed_countUp {found : Option (Node F × String)} {name fqName : String} {v : Int64}
    {old new : Family F} (hfound : found = some (t, fqName)) (hold : t.registry fqName = some old)
    (hw : (Event.ekg name (.counter v)).write x t.counterValues old = some new) :
    completed (s.countUp found name v) =
      some { t with
        registry := Function.update t.registry fqName (some new)
        counterValues := Function.update t.counterValues name (some v) } := by
  rw [hfound, Node.countUp]
  rw [Event.write] at hw
  split at hw
  · rename_i hpos
    simp only [if_pos hpos, modify_of_some (f := fun family => family.incBy _ _) hold hw, completed]
  · rename_i hpos
    rw [Option.some.injEq] at hw
    have hsame : Function.update t.registry fqName (some new) = t.registry :=
      Function.update_eq_self_iff.mpr (by rw [hold, hw])
    simp only [if_neg hpos, completed, hsame]

/-- An update that finds or creates the family of its metric writes into it. -/
theorem step_written {old new : Family F}
    (hfound : s.getOrCreate e.metric.cache (e.metric.key u) (e.metric.family u) e.metric.fresh =
      some (t, e.metric.family u))
    (hold : t.registry (e.metric.family u) = some old)
    (hw : e.write x t.counterValues old = some new) :
    step u x s e = some (t.written u e new) := by
  rcases e with ⟨name, v | v | text⟩ | ⟨metricName, value⟩
  · exact completed_countUp (s := s) hfound hold hw
  · exact completed_setGauge (s := s) hfound hold hw
  · exact completed_setGauge (s := s) hfound hold hw
  · exact completed_setGauge (s := s) hfound hold hw

theorem setGauge_of_none {found : Option (Node F × String)} (hfound : found = none)
    (values : List String) (value : F) : s.setGauge found values value = .err s := by
  rw [hfound]
  rfl

theorem countUp_of_none {found : Option (Node F × String)} (hfound : found = none)
    (name : String) (v : Int64) : s.countUp found name v = .err s := by
  rw [hfound]
  rfl

/-- An update that neither finds nor creates the family of its metric fails. -/
theorem update_refused
    (hfound : s.getOrCreate e.metric.cache (e.metric.key u) (e.metric.family u) e.metric.fresh =
      none) : update u x s e = .err s := by
  rcases e with ⟨name, v | v | text⟩ | ⟨metricName, value⟩
  · exact countUp_of_none hfound _ _
  · exact setGauge_of_none hfound _ _
  · exact setGauge_of_none hfound _ _
  · exact setGauge_of_none hfound _ _

theorem Opened.registered (hs : Consistent u s) {m : Metric} (h : Opened u s m t) :
    ∃ old, t.registry (m.family u) = some old ∧ m.Fits old :=
  ((h.consistent hs).opened m _ h.handle).2

/-- An update never panics, and does one of the two things. -/
theorem step_updates (hs : Consistent u s) (e : Event F) :
    ∃ s', step u x s e = some s' ∧ Updates u x s e s' := by
  rcases getOrCreate_cases hs e.metric with ⟨hh, hr, hnone⟩ | ⟨t, ho, hfound⟩
  · have hstep : step u x s e = some s := by
      rw [step, update_refused hnone]
      rfl
    exact ⟨s, hstep, Updates.refused hh hr⟩
  · obtain ⟨old, hold, hfits⟩ := ho.registered hs
    obtain ⟨new, hw, -⟩ := Event.write_fits x s.counterValues hfits
    exact ⟨_, step_written hfound hold (by rw [ho.counterValues]; exact hw),
      Updates.written ho hold hfits hw⟩

theorem updates_of_step (hs : Consistent u s) {s' : Node F} (h : step u x s e = some s') :
    Updates u x s e s' := by
  obtain ⟨s'', hstep, hupdates⟩ := step_updates (x := x) hs e
  rw [h, Option.some.injEq] at hstep
  rwa [hstep]

theorem handle_written (u : Unicode) (t : Node F) (e : Event F) (new : Family F) (m : Metric) :
    m.handle u (t.written u e new) = m.handle u t := rfl

theorem registry_written (u : Unicode) (t : Node F) (e : Event F) (new : Family F) :
    (t.written u e new).registry (e.metric.family u) = some new := by
  simp only [Node.written, Function.update_self]

theorem registry_written_of_ne (t : Node F) {name : String} (h : name ≠ e.metric.family u)
    (new : Family F) : (t.written u e new).registry name = t.registry name := by
  simp only [Node.written, Function.update_of_ne h]

theorem remember_of_ne (prev : String → Option Int64) {name : String}
    (h : e.metric ≠ .counter name) : e.remember prev name = prev name := by
  rcases e with ⟨name', v | v | text⟩ | ⟨metricName, value⟩
  · have hne : name ≠ name' := fun heq => h (by rw [heq]; rfl)
    exact Function.update_of_ne hne _ _
  · rfl
  · rfl
  · rfl

theorem Opened.written_consistent (hs : Consistent u s) (ho : Opened u s e.metric t)
    {new : Family F} (hfits : e.metric.Fits new) : Consistent u (t.written u e new) := by
  have ht := ho.consistent hs
  refine ⟨?_, ?_, ht.unique, ?_⟩
  · intro m f hm
    rw [handle_written] at hm
    obtain ⟨hf, family, hfamily, hmfits⟩ := ht.opened m f hm
    refine ⟨hf, ?_⟩
    by_cases heq : f = e.metric.family u
    · refine ⟨new, by rw [heq, registry_written], ?_⟩
      rcases ht.unique m e.metric f hm (by rw [heq]; exact ho.handle) with rfl | ⟨hlabel, hlabel'⟩
      · exact hfits
      · exact (Metric.fits_iff_of_labels hlabel' hlabel).mp hfits
    · refine ⟨family, ?_, hmfits⟩
      rwa [registry_written_of_ne t heq]
  · intro name hname
    by_cases heq : name = e.metric.family u
    · exact ⟨e.metric, by rw [heq]; exact ho.handle⟩
    · rw [registry_written_of_ne t heq] at hname
      exact ht.owned name hname
  · intro name hname
    rw [handle_written] at hname
    have hne : e.metric ≠ .counter name := by
      intro heq
      rw [← heq, ho.handle] at hname
      cases hname
    exact (remember_of_ne _ hne).trans (ht.counted name hname)

/-- Updates keep caches and registry consistent. -/
theorem Updates.consistent (hs : Consistent u s) {s' : Node F} (h : Updates u x s e s') :
    Consistent u s' := by
  cases h with
  | refused _ _ => exact hs
  | written ho hold hfits hw =>
    obtain ⟨new, hw', hnew⟩ := Event.write_fits x s.counterValues hfits
    rw [hw, Option.some.injEq] at hw'
    subst hw'
    exact ho.written_consistent hs hnew

/-- No interleaving of updates panics. -/
theorem run_defined (hs : Consistent u s) (es : List (Event F)) :
    ∃ t, run (step u x) s es = some t ∧ Consistent u t := by
  induction es generalizing s with
  | nil => exact ⟨s, rfl, hs⟩
  | cons e es ih =>
    obtain ⟨s', hstep, hupdates⟩ := step_updates (x := x) hs e
    obtain ⟨t, hrun, ht⟩ := ih (hupdates.consistent hs)
    exact ⟨t, run_cons_iff.mpr ⟨s', hstep, hrun⟩, ht⟩

theorem Updates.handle_mono {s' : Node F} (h : Updates u x s e s') {m : Metric} {f : String}
    (hm : m.handle u s = some f) : m.handle u s' = some f := by
  cases h with
  | refused _ _ => exact hm
  | written ho hold hfits hw => exact ho.handle_mono hm

theorem Updates.extends {s' : Node F} (h : Updates u x s e s') :
    s.registry.Extends s'.registry := by
  cases h with
  | refused _ _ => exact fun _ hn => hn
  | written ho hold hfits hw =>
    intro name hname
    by_cases heq : name = e.metric.family u
    · rw [heq, registry_written]
      rfl
    · rwa [registry_written_of_ne _ heq, ho.registry_of_ne heq]

end Updates

/-! The updates so far are kept as history, the latest first. -/

structure Observed (F : Type) where
  node : Node F
  seen : List (Event F)

def Observed.new : Observed F := ⟨.new, []⟩

def record (u : Unicode) (x : F64 F) (o : Observed F) (e : Event F) : Option (Observed F) :=
  (step u x o.node e).map fun s => ⟨s, e :: o.seen⟩

/-- A metric that was reported is cached or refused for good, and one that is cached was
reported, up to labels that share a family. -/
structure Sound (u : Unicode) (o : Observed F) : Prop where
  consistent : Consistent u o.node
  refused : ∀ e ∈ o.seen, e.metric.handle u o.node = none →
    o.node.registry.Refuses (e.metric.family u) (e.metric.key u)
  reported : ∀ (m : Metric) f, m.handle u o.node = some f →
    ∃ e ∈ o.seen, e.metric.slot u = m.slot u

section Record

variable {u : Unicode} {x : F64 F} {o o' : Observed F} {e : Event F}

theorem sound_new : Sound u (Observed.new : Observed F) where
  consistent := consistent_new u
  refused _ h := absurd h List.not_mem_nil
  reported _ _ h := by cases h

theorem record_updates (ho : Sound u o) (h : record u x o e = some o') :
    Updates u x o.node e o'.node ∧ o'.seen = e :: o.seen := by
  obtain ⟨s, hstep, rfl⟩ := Option.map_eq_some_iff.mp h
  exact ⟨updates_of_step ho.consistent hstep, rfl⟩

/-- A family that can still be registered was not reported. -/
theorem Sound.slot_ne (ho : Sound u o) {m : Metric} (hnone : m.handle u o.node = none)
    (hfree : ¬ o.node.registry.Refuses (m.family u) (m.key u)) :
    ∀ e ∈ o.seen, e.metric.slot u ≠ m.slot u := by
  intro e he hslot
  have hrefused := ho.refused e he (by rwa [Metric.handle, hslot])
  have hkey : e.metric.key u = m.key u := congrArg Prod.snd hslot
  rw [(Metric.eq_of_slot hslot).1, hkey] at hrefused
  exact hfree hrefused

/-- A metric that was reported stays cached, or refused for good. -/
theorem Sound.record (ho : Sound u o) (h : record u x o e = some o') : Sound u o' := by
  obtain ⟨hupdates, hseen⟩ := record_updates ho h
  refine ⟨hupdates.consistent ho.consistent, ?_, ?_⟩
  · intro e' he' hnone
    have hnone' : e'.metric.handle u o.node = none := by
      cases hh : e'.metric.handle u o.node with
      | none => rfl
      | some f =>
        rw [hupdates.handle_mono hh] at hnone
        cases hnone
    rw [hseen] at he'
    rcases List.mem_cons.mp he' with rfl | he'
    · generalize o'.node = s' at hupdates hnone
      cases hupdates with
      | refused _ hr => exact hr
      | written hopen hold hfits hw =>
        rw [handle_written, hopen.handle] at hnone
        cases hnone
    · exact (ho.refused e' he' hnone').mono hupdates.extends
  · intro m f hm
    rw [hseen]
    have hcases : m.handle u o.node = some f ∨ e.metric.slot u = m.slot u := by
      generalize o'.node = s' at hupdates hm
      cases hupdates with
      | refused _ _ => exact Or.inl hm
      | written hopen hold hfits hw =>
        rw [handle_written] at hm
        exact (hopen.handle_cases hm).imp_right fun hslot => hslot.1.symm
    rcases hcases with hm | hslot
    · obtain ⟨e', he', hslot⟩ := ho.reported m f hm
      exact ⟨e', List.mem_cons_of_mem _ he', hslot⟩
    · exact ⟨e, List.mem_cons_self .., hslot⟩

/-- The history is the run. -/
theorem run_record_iff {es : List (Event F)} {s : Node F} {seen : List (Event F)} :
    run (record u x) o es = some ⟨s, seen⟩ ↔
      run (step u x) o.node es = some s ∧ seen = es.reverse ++ o.seen := by
  induction es generalizing o with
  | nil =>
    simp only [run, Option.some.injEq, List.reverse_nil, List.nil_append]
    constructor
    · intro h
      rw [h]
      exact ⟨rfl, rfl⟩
    · intro h
      rw [← h.1, h.2]
  | cons e es ih =>
    rw [run_cons_iff, run_cons_iff]
    constructor
    · intro h'
      obtain ⟨o', ho', hrun⟩ := h'
      obtain ⟨s', hstep, rfl⟩ := Option.map_eq_some_iff.mp ho'
      obtain ⟨hrun, hseen⟩ := ih.mp hrun
      exact ⟨⟨s', hstep, hrun⟩, by simpa using hseen⟩
    · intro h'
      obtain ⟨⟨s', hstep, hrun⟩, hseen⟩ := h'
      refine ⟨⟨s', e :: o.seen⟩, by rw [record, hstep, Option.map_some], ih.mpr ⟨hrun, ?_⟩⟩
      simpa using hseen

theorem run_record_defined (ho : Sound u o) (es : List (Event F)) :
    ∃ o', run (record u x) o es = some o' := by
  obtain ⟨s, hrun, -⟩ := run_defined (x := x) ho.consistent es
  exact ⟨⟨s, es.reverse ++ o.seen⟩, run_record_iff.mpr ⟨hrun, rfl⟩⟩

end Record

end Hermod.EkgPoller
