import Hermod.EkgBackend
import Mathlib.Data.Int.Order.Basic

/-!
What records of metrics do over the life of the backend. A gauge keeps the labels with which
its name was first recorded, and values are handed to it by position. So a record under the
same name panics when it brings another number of labels, and takes them for others when it
brings them in another order. A counter goes down when it is told to, unless it is so large
that the amount is lost in its rounding.
-/
namespace Hermod.MetricRecords

open EkgBackend EkgBackend.Ekg Significands
open TracerState (Unicode)

variable {R : Type}

def emptyEkg (registry : R) : Ekg R := ⟨registry, fun _ => none, fun _ => none⟩

/-! A panic ends the call of the backend that it happens in, and the metrics behind it in the
message are not recorded. -/

/-- Each record of the message that takes place satisfies `P`. -/
def EachRecord (u : Unicode) (p : Prometheus R) (P : Ekg R → Metric → Prop) :
    Ekg R → List Metric → Prop
  | _, [] => True
  | s, m :: ms => P s m ∧
      ((s.recordMetric u p m).isPanic = false → EachRecord u p P (s.recordMetric u p m).state ms)

def EachRun (u : Unicode) (p : Prometheus R) (P : Ekg R → Metric → Prop) :
    Ekg R → List (List Metric) → Prop
  | _, [] => True
  | s, msg :: msgs => EachRecord u p P s msg ∧ EachRun u p P (s.dispatch u p msg).state msgs

section Runs

variable {u : Unicode} {p : Prometheus R} {P Q : Ekg R → Metric → Prop} {J : Ekg R → Prop}

/-- The metrics of a message one after the other, up to a panic. -/
theorem dispatch_cons (s : Ekg R) (m : Metric) (ms : List Metric) :
    s.dispatch u p (m :: ms) =
      if (s.recordMetric u p m).isPanic then .panicked (s.recordMetric u p m).state
      else (s.recordMetric u p m).state.dispatch u p ms := by
  rw [dispatch]
  cases s.recordMetric u p m with
  | ok s' => rfl
  | err s' => rfl
  | panicked s' => rfl

/-- Dispatching succeeds exactly when no record panics. -/
theorem dispatch_ok_iff {s : Ekg R} {ms : List Metric} :
    (∃ s', s.dispatch u p ms = .ok s') ↔
      EachRecord u p (fun s m => (s.recordMetric u p m).isPanic = false) s ms := by
  induction ms generalizing s with
  | nil => exact iff_of_true ⟨s, rfl⟩ trivial
  | cons m ms ih =>
    rw [dispatch_cons, EachRecord]
    by_cases hpanic : (s.recordMetric u p m).isPanic = true
    · rw [if_pos hpanic]
      refine iff_of_false ?_ fun h => by rw [hpanic] at h; cases h.1
      intro h'
      obtain ⟨s', h⟩ := h'
      cases h
    · rw [if_neg hpanic, ih]
      have hno : (s.recordMetric u p m).isPanic = false := by simpa using hpanic
      exact ⟨fun h => ⟨hno, fun _ => h⟩, fun h => h.2 hno⟩

theorem eachRecord_and {s : Ekg R} {ms : List Metric} :
    EachRecord u p P s ms ∧ EachRecord u p Q s ms ↔
      EachRecord u p (fun s m => P s m ∧ Q s m) s ms := by
  induction ms generalizing s with
  | nil => exact and_self_iff
  | cons m ms ih =>
    simp only [EachRecord, ← ih]
    tauto

/-- What every record keeps, a message keeps. -/
theorem dispatch_keeps (hJ : ∀ s m, J s → J (s.recordMetric u p m).state) {s : Ekg R}
    (hs : J s) (ms : List Metric) : J (s.dispatch u p ms).state := by
  induction ms generalizing s with
  | nil => exact hs
  | cons m ms ih =>
    rw [dispatch_cons]
    split
    · exact hJ s m hs
    · exact ih (hJ s m hs)

theorem eachRecord_congr (hJ : ∀ s m, J s → J (s.recordMetric u p m).state)
    (hPQ : ∀ s m, J s → (P s m ↔ Q s m)) {s : Ekg R} (hs : J s) (ms : List Metric) :
    EachRecord u p P s ms ↔ EachRecord u p Q s ms := by
  induction ms generalizing s with
  | nil => exact Iff.rfl
  | cons m ms ih =>
    rw [EachRecord, EachRecord, hPQ s m hs, ih (hJ s m hs)]

/-- Where two properties of a record agree in the states that an invariant allows, they
agree over whole runs. -/
theorem eachRun_congr (hJ : ∀ s m, J s → J (s.recordMetric u p m).state)
    (hPQ : ∀ s m, J s → (P s m ↔ Q s m)) {s : Ekg R} (hs : J s) (msgs : List (List Metric)) :
    EachRun u p P s msgs ↔ EachRun u p Q s msgs := by
  induction msgs generalizing s with
  | nil => exact Iff.rfl
  | cons msg msgs ih =>
    rw [EachRun, EachRun, eachRecord_congr hJ hPQ hs, ih (dispatch_keeps hJ hs msg)]

theorem eachRecord_of_keeps (hJ : ∀ s m, J s → J (s.recordMetric u p m).state)
    (hP : ∀ s m, J s → P s m) {s : Ekg R} (hs : J s) (ms : List Metric) :
    EachRecord u p P s ms := by
  induction ms generalizing s with
  | nil => exact trivial
  | cons m ms ih => exact ⟨hP s m hs, fun _ => ih (hJ s m hs)⟩

/-- What holds of a record in the states that an invariant allows holds over whole runs. -/
theorem eachRun_of_keeps (hJ : ∀ s m, J s → J (s.recordMetric u p m).state)
    (hP : ∀ s m, J s → P s m) {s : Ekg R} (hs : J s) (msgs : List (List Metric)) :
    EachRun u p P s msgs := by
  induction msgs generalizing s with
  | nil => exact trivial
  | cons msg msgs ih =>
    exact ⟨eachRecord_of_keeps hJ hP hs msg, ih (dispatch_keeps hJ hs msg)⟩

end Runs

/-! Panics and counters. -/

def counterValue (s : Ekg R) (name : String) : ℤ :=
  ((s.counters name).bind fun c => c.series []).getD 0

def Climbs (u : Unicode) (p : Prometheus R) (s : Ekg R) (m : Metric) : Prop :=
  ∀ name, counterValue s name ≤ counterValue (s.recordMetric u p m).state name

/-- Each message is dispatched with success, and no counter ever goes down. -/
def Healthy (u : Unicode) (p : Prometheus R) : Ekg R → List (List Metric) → Prop
  | _, [] => True
  | s, msg :: msgs => (∃ s', s.dispatch u p msg = .ok s') ∧ EachRecord u p (Climbs u p) s msg ∧
      Healthy u p (s.dispatch u p msg).state msgs

def Refused (u : Unicode) (p : Prometheus R) (s : Ekg R) (name : String) : Prop :=
  s.counters name = none ∧ p.register s.registry (sanitiseName u name) name [] = none

/-- Nothing of the amount is left when it is added to the value. -/
def IsLost (value amount : ℤ) : Prop := toF64 (value + toF64 amount) = value

/-- The record brings as many labels as the gauge of its name has, if there is one. It brings
no negative amount to a counter, unless the counter is refused, or does not check the amount
and loses it. -/
def Safe (u : Unicode) (p : Prometheus R) (s : Ekg R) : Metric → Prop
  | .intM name _ => ∀ g, s.gauges name = some g → g.labels = []
  | .doubleM name _ => ∀ g, s.gauges name = some g → g.labels = []
  | .counterM name amount => Refused u p s name ∨ 0 ≤ amount.getD 1 ∨
      p.debugAssertions = false ∧ IsLost (counterValue s name) (amount.getD 1)
  | .prometheusM name labels => ∀ g, s.gauges name = some g → g.labels.length = labels.length

def Unlabelled (s : Ekg R) : Prop := ∀ name c, s.counters name = some c → c.labels = []

structure Counting (s : Ekg R) : Prop where
  unlabelled : Unlabelled s
  rounded : ∀ name, toF64 (counterValue s name) = counterValue s name

section Record

variable {u : Unicode} {p : Prometheus R} {s t : Ekg R}

/-- The gauge of a name is the cached one, or is registered with the labels at hand. -/
theorem getOrCreateGauge_cases {name : String} {labels : List String} {g : GaugeVec}
    (h : s.getOrCreateGauge u p name labels = some (t, g)) :
    t.counters = s.counters ∧ (s.gauges name = some g ∧ t = s ∨
      s.gauges name = none ∧ g = MetricVec.new labels) := by
  rw [getOrCreateGauge] at h
  split at h
  · rename_i g' hcached
    rw [Option.some.injEq, Prod.mk.injEq] at h
    obtain ⟨rfl, rfl⟩ := h
    exact ⟨rfl, Or.inl ⟨hcached, rfl⟩⟩
  · rename_i hnone
    obtain ⟨r, -, hr⟩ := Option.map_eq_some_iff.mp h
    rw [Prod.mk.injEq] at hr
    obtain ⟨rfl, rfl⟩ := hr
    exact ⟨rfl, Or.inr ⟨hnone, rfl⟩⟩

theorem getOrCreateGauge_cached {name : String} {labels : List String} {g : GaugeVec}
    (h : s.gauges name = some g) : s.getOrCreateGauge u p name labels = some (s, g) := by
  rw [getOrCreateGauge, h]

theorem not_cached_of_refused {name : String} {labels : List String} {g : GaugeVec}
    (h : s.getOrCreateGauge u p name labels = none) : s.gauges name ≠ some g := by
  intro hg
  rw [getOrCreateGauge_cached hg] at h
  cases h

theorem eq_of_cached {name : String} {labels : List String} {g g' : GaugeVec}
    (h : s.getOrCreateGauge u p name labels = some (t, g)) (hg : s.gauges name = some g') :
    g' = g := by
  rw [getOrCreateGauge_cached hg, Option.some.injEq, Prod.mk.injEq] at h
  exact h.2

/-- How a gauge is set: it is refused, or found with so many labels that the record panics,
or it gets the value. -/
theorem setGauge_cases (u : Unicode) (p : Prometheus R) (s : Ekg R) (name : String)
    (labels : List (String × String)) (value : ℚ) :
    s.getOrCreateGauge u p name (labels.map Prod.fst) = none ∧
        s.setGauge u p name labels value = .err s ∨
      ∃ t g, s.getOrCreateGauge u p name (labels.map Prod.fst) = some (t, g) ∧
        (labels.length ≠ g.labels.length ∧ s.setGauge u p name labels value = .panicked t ∨
          labels.length = g.labels.length ∧ s.setGauge u p name labels value =
            .ok { t with gauges := Function.update t.gauges name (some { g with
              series := Function.update g.series (labels.map Prod.snd) (some value) }) }) := by
  rw [setGauge]
  cases hfound : s.getOrCreateGauge u p name (labels.map Prod.fst) with
  | none => exact Or.inl ⟨rfl, rfl⟩
  | some r =>
    obtain ⟨t, g⟩ := r
    refine Or.inr ⟨t, g, rfl, ?_⟩
    simp only [MetricVec.withLabelValues, List.length_map]
    by_cases hlen : labels.length = g.labels.length
    · exact Or.inr ⟨hlen, by rw [if_pos hlen]⟩
    · exact Or.inl ⟨hlen, by rw [if_neg hlen]⟩

/-- Setting a gauge leaves the counters alone. -/
theorem counters_setGauge (u : Unicode) (p : Prometheus R) (s : Ekg R) (name : String)
    (labels : List (String × String)) (value : ℚ) :
    (s.setGauge u p name labels value).state.counters = s.counters := by
  rcases setGauge_cases u p s name labels value with ⟨-, hset⟩ | ⟨t, g, hfound, h⟩
  · rw [hset]
    rfl
  · have hcounters := (getOrCreateGauge_cases hfound).1
    rcases h with ⟨-, hset⟩ | ⟨-, hset⟩
    · rw [hset]
      exact hcounters
    · rw [hset]
      exact hcounters

/-- A gauge panics when it is cached with another number of labels. -/
theorem setGauge_isPanic_iff {name : String} {labels : List (String × String)} {value : ℚ} :
    (s.setGauge u p name labels value).isPanic = false ↔
      ∀ g, s.gauges name = some g → g.labels.length = labels.length := by
  rcases setGauge_cases u p s name labels value with ⟨hnone, hset⟩ | ⟨t, g, hfound, h⟩
  · refine iff_of_true (by rw [hset]; rfl) ?_
    intro g hg
    exact absurd hg (not_cached_of_refused hnone)
  · rcases h with ⟨hlen, hset⟩ | ⟨hlen, hset⟩
    · refine iff_of_false (by rw [hset]; nofun) ?_
      intro hall
      rcases (getOrCreateGauge_cases hfound).2 with ⟨hg, -⟩ | ⟨-, rfl⟩
      · exact hlen (hall g hg).symm
      · exact hlen (by rw [MetricVec.new, List.length_map])
    · refine iff_of_true (by rw [hset]; rfl) ?_
      intro g' hg'
      rw [eq_of_cached hfound hg', hlen]

theorem getOrCreateCounter_none_iff {name : String} :
    s.getOrCreateCounter u p name = none ↔ Refused u p s name := by
  rw [getOrCreateCounter, Refused]
  cases hcached : s.counters name with
  | none => simp only [Option.map_eq_none_iff, true_and]
  | some c => simp only [reduceCtorEq, false_and]

/-- The counter of a name is without labels and at its value, and the others stay. -/
theorem getOrCreateCounter_cases (hs : Unlabelled s) {name : String} {c : CounterVec}
    (h : s.getOrCreateCounter u p name = some (t, c)) :
    c.labels = [] ∧ (c.series []).getD 0 = counterValue s name ∧
      ∀ n, n ≠ name → t.counters n = s.counters n := by
  rw [getOrCreateCounter] at h
  split at h
  · rename_i c' hcached
    rw [Option.some.injEq, Prod.mk.injEq] at h
    obtain ⟨rfl, rfl⟩ := h
    exact ⟨hs name c' hcached, by rw [counterValue, hcached]; rfl, fun _ _ => rfl⟩
  · rename_i hnone
    obtain ⟨r, -, hr⟩ := Option.map_eq_some_iff.mp h
    rw [Prod.mk.injEq] at hr
    obtain ⟨rfl, rfl⟩ := hr
    refine ⟨rfl, by rw [counterValue, hnone]; rfl, ?_⟩
    intro n hn
    exact Function.update_of_ne hn ..

/-- A counter that checks is left with a panic, and otherwise it moves by the amount. -/
theorem incCounter_of_found (hs : Unlabelled s) {name : String} {c : CounterVec} (amount : ℤ)
    (h : s.getOrCreateCounter u p name = some (t, c)) :
    (s.incCounter u p name amount).isPanic = decide (p.debugAssertions = true ∧ amount < 0) ∧
      (s.incCounter u p name amount).state =
        { t with counters := Function.update t.counters name (some { c with
          series := Function.update c.series [] (some
            (if p.debugAssertions = true ∧ amount < 0 then counterValue s name
              else toF64 (counterValue s name + toF64 amount))) }) } := by
  obtain ⟨hlabels, hvalue, -⟩ := getOrCreateCounter_cases hs h
  rw [incCounter, h]
  simp only [MetricVec.withLabelValues, hlabels, List.length_nil, if_true, hvalue]
  by_cases hneg : p.debugAssertions = true ∧ amount < 0
  · simp only [if_pos hneg, decide_eq_true hneg]
    exact ⟨rfl, rfl⟩
  · simp only [if_neg hneg, decide_eq_false hneg]
    exact ⟨rfl, rfl⟩

/-- How a counter is moved: it is refused, or it stays without labels and the others at
their values. -/
theorem incCounter_cases (hs : Unlabelled s) (name : String) (amount : ℤ) :
    Refused u p s name ∧ s.incCounter u p name amount = .err s ∨
      ¬ Refused u p s name ∧ Unlabelled (s.incCounter u p name amount).state ∧
        (s.incCounter u p name amount).isPanic = decide (p.debugAssertions = true ∧ amount < 0) ∧
        counterValue (s.incCounter u p name amount).state name =
          (if p.debugAssertions = true ∧ amount < 0 then counterValue s name
            else toF64 (counterValue s name + toF64 amount)) ∧
        ∀ n, n ≠ name → counterValue (s.incCounter u p name amount).state n = counterValue s n := by
  cases hfound : s.getOrCreateCounter u p name with
  | none =>
    refine Or.inl ⟨getOrCreateCounter_none_iff.mp hfound, ?_⟩
    rw [incCounter, hfound]
  | some r =>
    obtain ⟨t, c⟩ := r
    obtain ⟨hlabels, -, hothers⟩ := getOrCreateCounter_cases hs hfound
    obtain ⟨hpanic, hstate⟩ := incCounter_of_found hs amount hfound
    have htaken : ¬ Refused u p s name := by
      intro hrefused
      rw [getOrCreateCounter_none_iff.mpr hrefused] at hfound
      cases hfound
    refine Or.inr ⟨htaken, ?_, hpanic, ?_, ?_⟩
    · intro n c' hc'
      rw [hstate] at hc'
      by_cases hn : n = name
      · subst n
        simp only [Function.update_self, Option.some.injEq] at hc'
        rw [← hc']
        exact hlabels
      · simp only [Function.update_of_ne hn] at hc'
        rw [hothers n hn] at hc'
        exact hs n c' hc'
    · rw [hstate, counterValue]
      simp only [Function.update_self, Option.bind_some, Option.getD_some]
    · intro n hn
      rw [hstate]
      simp only [counterValue, Function.update_of_ne hn, hothers n hn]

/-- Counting up rounds the value and gives no labels. -/
theorem incCounter_counting (hs : Counting s) (name : String) (amount : ℤ) :
    Counting (s.incCounter u p name amount).state := by
  rcases incCounter_cases hs.unlabelled name amount with
    ⟨-, hinc⟩ | ⟨-, hkept, -, hvalue, hothers⟩
  · rw [hinc]
    exact hs
  · refine ⟨hkept, fun n => ?_⟩
    by_cases hn : n = name
    · rw [hn, hvalue]
      split
      · exact hs.rounded name
      · exact toF64_toF64 _
    · rw [hothers n hn]
      exact hs.rounded n

/-- What a positive amount does to a counter is not to take it down, and a negative amount takes
it down or is lost. -/
theorem le_counted_iff {value amount : ℤ} (hvalue : toF64 value = value) :
    value ≤ toF64 (value + toF64 amount) ↔ 0 ≤ amount ∨ IsLost value amount := by
  rcases le_or_gt 0 amount with hamount | hamount
  · refine iff_of_true ?_ (Or.inl hamount)
    have hmore := toF64_nonneg hamount
    calc
      value = toF64 value := hvalue.symm
      _ ≤ toF64 (value + toF64 amount) := toF64_mono (by omega)
  · have hless := toF64_neg hamount
    have hle : toF64 (value + toF64 amount) ≤ toF64 value := toF64_mono (by omega)
    rw [IsLost, or_iff_right (by omega)]
    omega

/-- When counting up neither panics nor takes the counter down. -/
theorem incCounter_safe_iff (hs : Counting s) {name : String} {amount : ℤ} :
    ((s.incCounter u p name amount).isPanic = false ∧
        ∀ n, counterValue s n ≤ counterValue (s.incCounter u p name amount).state n) ↔
      Refused u p s name ∨ 0 ≤ amount ∨
        p.debugAssertions = false ∧ IsLost (counterValue s name) amount := by
  rcases incCounter_cases hs.unlabelled name amount with
    ⟨hrefused, hinc⟩ | ⟨htaken, -, hpanic, hvalue, hothers⟩
  · refine iff_of_true ?_ (Or.inl hrefused)
    rw [hinc]
    exact ⟨rfl, fun n => le_refl _⟩
  · have hcounted := @le_counted_iff _ amount (hs.rounded name)
    rw [or_iff_right htaken]
    constructor
    · intro hsafe
      obtain ⟨hno, hclimbs⟩ := hsafe
      have hneg : ¬ (p.debugAssertions = true ∧ amount < 0) := by
        rw [hpanic] at hno
        exact of_decide_eq_false hno
      have hname := hclimbs name
      rw [hvalue, if_neg hneg, hcounted] at hname
      rcases hname with hamount | hlost
      · exact Or.inl hamount
      · rcases le_or_gt 0 amount with hamount | hamount
        · exact Or.inl hamount
        · refine Or.inr ⟨?_, hlost⟩
          by_contra hdebug
          exact hneg ⟨by simpa using hdebug, hamount⟩
    · intro hsafe
      have hneg : ¬ (p.debugAssertions = true ∧ amount < 0) := by
        rintro ⟨hdebug, hamount⟩
        rcases hsafe with hpos | ⟨hrelease, -⟩
        · omega
        · rw [hdebug] at hrelease
          cases hrelease
      refine ⟨by rw [hpanic, decide_eq_false hneg], ?_⟩
      intro n
      by_cases hn : n = name
      · rw [hn, hvalue, if_neg hneg]
        exact hcounted.mpr (hsafe.imp_right And.right)
      · rw [hothers n hn]

theorem setGauge_climbs (name : String) (labels : List (String × String)) (value : ℚ) (n : String) :
    counterValue s n ≤ counterValue (s.setGauge u p name labels value).state n := by
  rw [counterValue, counterValue, counters_setGauge]

/-- Records keep counters rounded and without labels. -/
theorem recordMetric_counting (s : Ekg R) (m : Metric) (hs : Counting s) :
    Counting (s.recordMetric u p m).state := by
  have hgauge : ∀ name labels value, Counting (s.setGauge u p name labels value).state := by
    intro name labels value
    have hcounters := counters_setGauge u p s name labels value
    constructor
    · rw [Unlabelled, hcounters]
      exact hs.unlabelled
    · intro n
      rw [counterValue, hcounters]
      exact hs.rounded n
  cases m with
  | intM name value => exact hgauge name [] (toF64 value)
  | doubleM name value => exact hgauge name [] value
  | counterM name amount => exact incCounter_counting hs name (amount.getD 1)
  | prometheusM name labels => exact hgauge name labels 1

/-- One record neither panics nor takes a counter down exactly when it is safe. -/
theorem recordMetric_safe_iff (s : Ekg R) (m : Metric) (hs : Counting s) :
    ((s.recordMetric u p m).isPanic = false ∧ Climbs u p s m) ↔ Safe u p s m := by
  have hgauge : ∀ name labels value, ((s.setGauge u p name labels value).isPanic = false ∧
      ∀ n, counterValue s n ≤ counterValue (s.setGauge u p name labels value).state n) ↔
      ∀ g, s.gauges name = some g → g.labels.length = labels.length := by
    intro name labels value
    rw [and_iff_left (setGauge_climbs name labels value), setGauge_isPanic_iff]
  cases m with
  | intM name value =>
    refine (hgauge name [] (toF64 value)).trans ?_
    simp only [Safe, List.length_nil, List.length_eq_zero_iff]
  | doubleM name value =>
    refine (hgauge name [] value).trans ?_
    simp only [Safe, List.length_nil, List.length_eq_zero_iff]
  | counterM name amount => exact incCounter_safe_iff hs
  | prometheusM name labels => exact hgauge name labels 1

end Record

theorem emptyEkg_counting (registry : R) : Counting (emptyEkg registry) where
  unlabelled name c h := by cases h
  rounded _ := by
    show toF64 0 = 0
    decide

section Health

variable {u : Unicode} {p : Prometheus R}

theorem healthy_iff_eachRun {s : Ekg R} {msgs : List (List Metric)} :
    Healthy u p s msgs ↔
      EachRun u p (fun s m => (s.recordMetric u p m).isPanic = false ∧ Climbs u p s m) s msgs := by
  induction msgs generalizing s with
  | nil => exact Iff.rfl
  | cons msg msgs ih => rw [Healthy, EachRun, ih, dispatch_ok_iff, ← eachRecord_and, and_assoc]

/-- The backend stays healthy exactly while what is recorded is safe. -/
theorem healthy_iff_safe (registry : R) (msgs : List (List Metric)) :
    Healthy u p (emptyEkg registry) msgs ↔ EachRun u p (Safe u p) (emptyEkg registry) msgs :=
  healthy_iff_eachRun.trans (eachRun_congr recordMetric_counting recordMetric_safe_iff
    (emptyEkg_counting registry) msgs)

def distinctNames : Prometheus (List String) where
  register taken name _ _ := if name ∈ taken then none else some (name :: taken)
  debugAssertions := true

/-- The neighbours of a counter at `2 ^ 60` are too far away for one to be taken off it. -/
example : IsLost (2 ^ 60) (-1) := by
  unfold IsLost
  decide

/-- A gauge without labels is then recorded with one. -/
theorem labels_panic :
    ¬ Healthy .ascii distinctNames (emptyEkg [])
      [[.intM "x" 1], [.prometheusM "x" [("k", "v")]]] := by
  intro h
  obtain ⟨-, -, ⟨s, hs⟩, -⟩ := h
  have hpanic : ((((emptyEkg []).dispatch .ascii distinctNames [.intM "x" 1]).state).dispatch
      .ascii distinctNames [.prometheusM "x" [("k", "v")]]).isPanic = true := by
    decide
  rw [hs] at hpanic
  cases hpanic

end Health

/-! Labels. -/

/-- A record of labels that succeeds leaves a series at 1 with the labels that it brings. -/
def Carries (u : Unicode) (p : Prometheus R) (s : Ekg R) : Metric → Prop
  | .prometheusM name labels => ∀ s', s.recordMetric u p (.prometheusM name labels) = .ok s' →
      ∃ g, s'.gauges name = some g ∧ g.series (labels.map Prod.snd) = some 1 ∧
        (g.labels.zip (labels.map Prod.snd)).Perm labels
  | _ => True

/-- The labels, when they are brought into the order of the gauge's, have their values in the
same order as before. -/
def Aligned (s : Ekg R) : Metric → Prop
  | .prometheusM name labels => ∀ g, s.gauges name = some g → g.labels.length = labels.length →
      ∃ ls : List (String × String), ls.Perm labels ∧ ls.map Prod.fst = g.labels ∧
        ls.map Prod.snd = labels.map Prod.snd
  | _ => True

section Labels

variable {u : Unicode} {p : Prometheus R} {s : Ekg R}

/-- The cached keys and the values at hand give the labels of the record when one order of these
fits both. -/
theorem zip_perm_iff {keys : List String} {labels : List (String × String)}
    (hlen : keys.length = labels.length) :
    (keys.zip (labels.map Prod.snd)).Perm labels ↔
      ∃ ls : List (String × String), ls.Perm labels ∧ ls.map Prod.fst = keys ∧
        ls.map Prod.snd = labels.map Prod.snd := by
  constructor
  · intro hperm
    refine ⟨_, hperm, ?_, ?_⟩
    · exact List.map_fst_zip (by rw [List.length_map, hlen])
    · exact List.map_snd_zip (by rw [List.length_map, hlen])
  · intro h
    obtain ⟨ls, hperm, hkeys, hvalues⟩ := h
    have hzip := List.zip_of_prod hkeys hvalues
    rwa [← hzip]

/-- A gauge that is just registered has the labels in the order of the message. -/
theorem setGauge_carries_iff {name : String} {labels : List (String × String)} :
    (∀ s', s.setGauge u p name labels 1 = .ok s' →
      ∃ g, s'.gauges name = some g ∧ g.series (labels.map Prod.snd) = some 1 ∧
        (g.labels.zip (labels.map Prod.snd)).Perm labels) ↔
      ∀ g, s.gauges name = some g → g.labels.length = labels.length →
        ∃ ls : List (String × String), ls.Perm labels ∧ ls.map Prod.fst = g.labels ∧
          ls.map Prod.snd = labels.map Prod.snd := by
  rcases setGauge_cases u p s name labels 1 with ⟨hnone, hset⟩ | ⟨t, g, hfound, h⟩
  · refine iff_of_true (by rw [hset]; nofun) ?_
    intro g hg
    exact absurd hg (not_cached_of_refused hnone)
  · rcases h with ⟨hlen, hset⟩ | ⟨hlen, hset⟩
    · refine iff_of_true (by rw [hset]; nofun) ?_
      intro g' hg' hlen'
      rw [eq_of_cached hfound hg'] at hlen'
      exact absurd hlen'.symm hlen
    · have hleft : (∀ s', s.setGauge u p name labels 1 = .ok s' →
          ∃ g, s'.gauges name = some g ∧ g.series (labels.map Prod.snd) = some 1 ∧
            (g.labels.zip (labels.map Prod.snd)).Perm labels) ↔
          (g.labels.zip (labels.map Prod.snd)).Perm labels := by
        rw [hset]
        simp only [Called.ok.injEq, forall_eq', Function.update_self, Option.some.injEq,
          exists_eq_left', true_and]
      rw [hleft, zip_perm_iff hlen.symm]
      constructor
      · intro haligned g' hg' _
        rwa [eq_of_cached hfound hg']
      · intro haligned
        rcases (getOrCreateGauge_cases hfound).2 with ⟨hg, -⟩ | ⟨-, rfl⟩
        · exact haligned g hg hlen.symm
        · exact ⟨labels, .refl _, rfl, rfl⟩

/-- In every run, records succeed with the labels that they bring exactly when these are
aligned with the ones first recorded under the name. -/
theorem carries_iff_aligned (registry : R) (msgs : List (List Metric)) :
    EachRun u p (Carries u p) (emptyEkg registry) msgs ↔
      EachRun u p Aligned (emptyEkg registry) msgs := by
  refine eachRun_congr (J := fun _ => True) (fun _ _ _ => trivial) ?_ trivial msgs
  intro s m _
  cases m with
  | intM name value => exact Iff.rfl
  | doubleM name value => exact Iff.rfl
  | counterM name amount => exact Iff.rfl
  | prometheusM name labels => exact setGauge_carries_iff

/-- Where no two labels have the same value, only the order in which they were first recorded
is aligned. -/
theorem aligned_iff_of_nodup {name : String} {labels : List (String × String)}
    (hnodup : (labels.map Prod.snd).Nodup) :
    Aligned s (.prometheusM name labels) ↔ ∀ g, s.gauges name = some g →
      g.labels.length = labels.length → g.labels = labels.map Prod.fst := by
  constructor
  · intro h g hg hlen
    obtain ⟨ls, hperm, hkeys, hvalues⟩ := h g hg hlen
    have hsame : ls = labels := by
      refine List.ext_getElem hperm.length_eq ?_
      intro i hi hi'
      refine List.inj_on_of_nodup_map hnodup (hperm.subset (List.getElem_mem hi))
        (List.getElem_mem hi') ?_
      have hvalue := List.getElem_of_eq hvalues (i := i) (by rwa [List.length_map])
      rwa [List.getElem_map, List.getElem_map] at hvalue
    rw [← hkeys, hsame]
  · intro h g hg hlen
    exact ⟨labels, .refl _, (h g hg hlen).symm, rfl⟩

/-- The second record brings the labels of the first in the other order, and the series it
sets has their values swapped. -/
theorem labels_swapped :
    ¬ EachRun .ascii distinctNames (Carries .ascii distinctNames) (emptyEkg [])
      [[.prometheusM "x" [("a", "1"), ("b", "2")]],
        [.prometheusM "x" [("b", "2"), ("a", "1")]]] := by
  intro h
  obtain ⟨-, ⟨hcarries, -⟩, -⟩ := h
  obtain ⟨g, hg, -, hperm⟩ := hcarries _ rfl
  have hlabels : g.labels = ["a", "b"] :=
    (Option.some.inj (congrArg (Option.map MetricVec.labels) hg)).symm
  rw [hlabels] at hperm
  exact absurd hperm (by decide)

end Labels

end Hermod.MetricRecords
