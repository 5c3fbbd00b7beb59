import Hermod.Significands
import Hermod.TracerState
import Mathlib.Data.Rat.Defs

/-!
The backend that records metrics. It keeps the vectors it has registered by metric name
and reuses them, so a gauge keeps the labels with which its name was first recorded.
Values are `f64`: a gauge has any rational number, and a counter a whole one, which is rounded
each time it is counted up. The metrics library is a parameter, as far as it accepts or refuses
what is registered.
-/
namespace Hermod.EkgBackend

open Significands (toF64)
open TracerState (Unicode)

inductive Metric
  | intM (name : String) (value : ℤ)
  | doubleM (name : String) (value : ℚ)
  | counterM (name : String) (amount : Option ℤ)
  | prometheusM (name : String) (labels : List (String × String))
  deriving DecidableEq

def Metric.name : Metric → String
  | intM name _ => name
  | doubleM name _ => name
  | counterM name _ => name
  | prometheusM name _ => name

/-- How the call of a backend ends. What it did before it failed or panicked stays done. -/
inductive Called (σ : Type)
  | ok (s : σ)
  | err (s : σ)
  | panicked (s : σ)

namespace Called

variable {σ τ : Type}

def state : Called σ → σ
  | ok s => s
  | err s => s
  | panicked s => s

def isPanic : Called σ → Bool
  | panicked _ => true
  | _ => false

def map (f : σ → τ) : Called σ → Called τ
  | ok s => ok (f s)
  | err s => err (f s)
  | panicked s => panicked (f s)

@[simp] theorem state_map (f : σ → τ) (r : Called σ) : (r.map f).state = f r.state := by
  cases r <;> rfl

@[simp] theorem isPanic_map (f : σ → τ) (r : Called σ) : (r.map f).isPanic = r.isPanic := by
  cases r <;> rfl

theorem map_map {υ : Type} (f : σ → τ) (g : τ → υ) (r : Called σ) :
    (r.map f).map g = r.map fun s => g (f s) := by
  cases r <;> rfl

end Called

/-- The metrics library: registering a vector under a name with a help text and label
names, and whether counters check that they are not decreased. -/
structure Prometheus (R : Type) where
  register : R → String → String → List String → Option R
  debugAssertions : Bool

structure MetricVec (V : Type) where
  labels : List String
  series : List String → Option V

abbrev GaugeVec := MetricVec ℚ

abbrev CounterVec := MetricVec ℤ

structure Ekg (R : Type) where
  registry : R
  gauges : String → Option GaugeVec
  counters : String → Option CounterVec

variable {R : Type}

namespace MetricVec

variable {V : Type}

def new (labels : List String) : MetricVec V := ⟨labels, fun _ => none⟩

/-- Another number of values than of labels is a panic. -/
def withLabelValues (v : MetricVec V) (values : List String) (f : Option V → V) :
    Option (MetricVec V) :=
  if values.length = v.labels.length then
    some { v with series := Function.update v.series values (some (f (v.series values))) }
  else none

end MetricVec

def sanitiseName (u : Unicode) (name : String) : String :=
  String.ofList (name.toList.map fun c => if u.isAlphanumeric c ∨ c = '_' then c else '_')

namespace Ekg

def getOrCreateGauge (u : Unicode) (p : Prometheus R) (ekg : Ekg R) (name : String)
    (labels : List String) : Option (Ekg R × GaugeVec) :=
  match ekg.gauges name with
  | some g => some (ekg, g)
  | none =>
    (p.register ekg.registry (sanitiseName u name) name labels).map fun registry =>
      let g : GaugeVec := .new labels
      ({ ekg with registry := registry, gauges := Function.update ekg.gauges name (some g) }, g)

def getOrCreateCounter (u : Unicode) (p : Prometheus R) (ekg : Ekg R) (name : String) :
    Option (Ekg R × CounterVec) :=
  match ekg.counters name with
  | some c => some (ekg, c)
  | none =>
    (p.register ekg.registry (sanitiseName u name) name []).map fun registry =>
      let c : CounterVec := .new []
      ({ ekg with registry := registry, counters := Function.update ekg.counters name (some c) },
        c)

def setGauge (u : Unicode) (p : Prometheus R) (ekg : Ekg R) (name : String)
    (labels : List (String × String)) (value : ℚ) : Called (Ekg R) :=
  match ekg.getOrCreateGauge u p name (labels.map Prod.fst) with
  | none => .err ekg
  | some (ekg, g) =>
    match g.withLabelValues (labels.map Prod.snd) fun _ => value with
    | none => .panicked ekg
    | some g => .ok { ekg with gauges := Function.update ekg.gauges name (some g) }

def incCounter (u : Unicode) (p : Prometheus R) (ekg : Ekg R) (name : String) (amount : ℤ) :
    Called (Ekg R) :=
  match ekg.getOrCreateCounter u p name with
  | none => .err ekg
  | some (ekg, c) =>
    match c.withLabelValues [] fun v =>
        if p.debugAssertions ∧ amount < 0 then v.getD 0
        else toF64 (v.getD 0 + toF64 amount) with
    | none => .panicked ekg
    | some c =>
      let ekg := { ekg with counters := Function.update ekg.counters name (some c) }
      if p.debugAssertions ∧ amount < 0 then .panicked ekg else .ok ekg

def recordMetric (u : Unicode) (p : Prometheus R) (ekg : Ekg R) : Metric → Called (Ekg R)
  | .intM name value => ekg.setGauge u p name [] (toF64 value)
  | .doubleM name value => ekg.setGauge u p name [] value
  | .counterM name amount => ekg.incCounter u p name (amount.getD 1)
  | .prometheusM name labels => ekg.setGauge u p name labels 1

def dispatch (u : Unicode) (p : Prometheus R) (ekg : Ekg R) : List Metric → Called (Ekg R)
  | [] => .ok ekg
  | metric :: metrics =>
    match ekg.recordMetric u p metric with
    | .panicked ekg => .panicked ekg
    | .ok ekg => ekg.dispatch u p metrics
    | .err ekg => ekg.dispatch u p metrics

/-- Every gauge has as many labels as `arity` gives its name, and no counter has any. -/
structure Settled (arity : String → ℕ) (ekg : Ekg R) : Prop where
  gauges : ∀ name g, ekg.gauges name = some g → g.labels.length = arity name
  counters : ∀ name c, ekg.counters name = some c → c.labels = []

def Fits (p : Prometheus R) (arity : String → ℕ) : Metric → Prop
  | .intM name _ => arity name = 0
  | .doubleM name _ => arity name = 0
  | .counterM _ amount => p.debugAssertions = true → 0 ≤ amount.getD 1
  | .prometheusM name labels => arity name = labels.length

variable {u : Unicode} {p : Prometheus R} {arity : String → ℕ} {ekg : Ekg R}

theorem Settled.updateGauge (h : ekg.Settled arity) {r : R} {name : String} {g : GaugeVec}
    (hg : g.labels.length = arity name) :
    Settled arity
      { ekg with registry := r, gauges := Function.update ekg.gauges name (some g) } where
  gauges n g' hg' := by
    simp only [Function.update_apply] at hg'
    split at hg'
    · rename_i hn
      rw [← Option.some.inj hg', hg, hn]
    · exact h.gauges n g' hg'
  counters := h.counters

theorem Settled.updateCounter (h : ekg.Settled arity) {r : R} {name : String} {c : CounterVec}
    (hc : c.labels = []) :
    Settled arity
      { ekg with registry := r, counters := Function.update ekg.counters name (some c) } where
  gauges := h.gauges
  counters n c' hc' := by
    simp only [Function.update_apply] at hc'
    split at hc'
    · rw [← Option.some.inj hc', hc]
    · exact h.counters n c' hc'

/-- A gauge that is made gets the labels that its name is to have. -/
theorem getOrCreateGauge_settled (h : ekg.Settled arity) {name : String} {labels : List String}
    (hl : labels.length = arity name) {ekg' : Ekg R} {g : GaugeVec}
    (hg : ekg.getOrCreateGauge u p name labels = some (ekg', g)) :
    ekg'.Settled arity ∧ g.labels.length = arity name := by
  unfold getOrCreateGauge at hg
  split at hg
  · rename_i g' hcached
    rw [Option.some.injEq, Prod.mk.injEq] at hg
    obtain ⟨rfl, rfl⟩ := hg
    exact ⟨h, h.gauges name g' hcached⟩
  · obtain ⟨r, -, hr⟩ := Option.map_eq_some_iff.mp hg
    rw [Prod.mk.injEq] at hr
    obtain ⟨rfl, rfl⟩ := hr
    exact ⟨h.updateGauge hl, hl⟩

theorem getOrCreateCounter_settled (h : ekg.Settled arity) {name : String} {ekg' : Ekg R}
    {c : CounterVec} (hc : ekg.getOrCreateCounter u p name = some (ekg', c)) :
    ekg'.Settled arity ∧ c.labels = [] := by
  unfold getOrCreateCounter at hc
  split at hc
  · rename_i c' hcached
    rw [Option.some.injEq, Prod.mk.injEq] at hc
    obtain ⟨rfl, rfl⟩ := hc
    exact ⟨h, h.counters name c' hcached⟩
  · obtain ⟨r, -, hr⟩ := Option.map_eq_some_iff.mp hc
    rw [Prod.mk.injEq] at hr
    obtain ⟨rfl, rfl⟩ := hr
    exact ⟨h.updateCounter rfl, rfl⟩

/-- Setting a gauge with the right number of labels does not panic. -/
theorem setGauge_settled (h : ekg.Settled arity) {name : String}
    {labels : List (String × String)} (hl : labels.length = arity name) (value : ℚ) :
    (ekg.setGauge u p name labels value).isPanic = false ∧
      (ekg.setGauge u p name labels value).state.Settled arity := by
  unfold setGauge
  split
  · exact ⟨rfl, h⟩
  · rename_i ekg' g hg
    obtain ⟨h', hg'⟩ := getOrCreateGauge_settled h (by rwa [List.length_map]) hg
    rw [MetricVec.withLabelValues, if_pos (by rw [List.length_map, hl, hg'])]
    exact ⟨rfl, h'.updateGauge hg'⟩

/-- Counting up does not panic, unless a negative amount is checked. -/
theorem incCounter_settled (h : ekg.Settled arity) {name : String} {amount : ℤ}
    (ha : p.debugAssertions = true → 0 ≤ amount) :
    (ekg.incCounter u p name amount).isPanic = false ∧
      (ekg.incCounter u p name amount).state.Settled arity := by
  have hno : ¬ (p.debugAssertions = true ∧ amount < 0) := by
    rintro ⟨hdebug, hneg⟩
    have := ha hdebug
    omega
  unfold incCounter
  split
  · exact ⟨rfl, h⟩
  · rename_i ekg' c hc
    obtain ⟨h', hc'⟩ := getOrCreateCounter_settled h hc
    rw [MetricVec.withLabelValues, if_pos (by rw [hc'])]
    simp only [if_neg hno]
    exact ⟨rfl, h'.updateCounter hc'⟩

/-- A metric that fits is recorded without a panic. -/
theorem recordMetric_settled (h : ekg.Settled arity) {m : Metric} (hm : Fits p arity m) :
    (ekg.recordMetric u p m).isPanic = false ∧ (ekg.recordMetric u p m).state.Settled arity := by
  cases m with
  | intM name value =>
    refine setGauge_settled h ?_ (toF64 value)
    exact hm.symm
  | doubleM name value =>
    refine setGauge_settled h ?_ value
    exact hm.symm
  | counterM name amount => exact incCounter_settled h hm
  | prometheusM name labels => exact setGauge_settled h hm.symm 1

/-- Metrics that keep to one number of labels for each name do not panic. -/
theorem dispatch_settled (h : ekg.Settled arity) {ms : List Metric}
    (hms : ∀ m ∈ ms, Fits p arity m) :
    (ekg.dispatch u p ms).isPanic = false ∧ (ekg.dispatch u p ms).state.Settled arity := by
  induction ms generalizing ekg with
  | nil => exact ⟨rfl, h⟩
  | cons m ms ih =>
    have hrest := fun m' hm' => hms m' (List.mem_cons_of_mem m hm')
    obtain ⟨hpanic, h'⟩ := recordMetric_settled (u := u) h (hms m (List.mem_cons_self ..))
    unfold dispatch
    cases hr : ekg.recordMetric u p m with
    | ok ekg' =>
      rw [hr] at h'
      exact ih h' hrest
    | err ekg' =>
      rw [hr] at h'
      exact ih h' hrest
    | panicked ekg' =>
      rw [hr] at hpanic
      cases hpanic

end Ekg

end Hermod.EkgBackend
