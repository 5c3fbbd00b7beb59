import Hermod.MetricRecords
import Hermod.NodeMetrics

/-!
Which metric names are valid when they are sanitised. The sanitisers keep the letters and
digits of any script, a digit in front and the empty name, and a registry takes none of
these. A metric with such a name is dropped in every run, whether it comes from the poller,
the trace handler or the dispatcher.
-/
namespace Hermod.MetricNames

open EkgMessages (EkgValue)
open MetricsRegistry MetricsRegistry.Registry
open TracerState (Unicode)
open Transitions

/-- The name is not empty, no digit is in front, and its letters and digits are ASCII ones. -/
structure Sanitisable (u : Unicode) (name : String) : Prop where
  nonempty : name ≠ ""
  front : ∀ c ∈ name.toList.head?, c.isDigit = false
  ascii : ∀ c ∈ name.toList, u.isAlphanumeric c = true → c.isAlphanum = true

structure SanitisedWell (u : Unicode) (name : String) : Prop where
  poller : isValidMetricName (EkgPoller.sanitiseName u name) = true
  traceHandler : isValidMetricName (EkgPoller.sanitiseMetricName u name) = true
  backend : isValidMetricName (EkgBackend.sanitiseName u name) = true
  agree : EkgPoller.sanitiseName u name = EkgBackend.sanitiseName u name ∧
    EkgPoller.sanitiseMetricName u name = EkgBackend.sanitiseName u name

section Characters

variable {u : Unicode} {c : Char}

def sanitiseChar (u : Unicode) (c : Char) : Char := if u.isAlphanumeric c ∨ c = '_' then c else '_'

theorem sanitiseName_eq (u : Unicode) (name : String) :
    EkgBackend.sanitiseName u name = String.ofList (name.toList.map (sanitiseChar u)) := rfl

theorem sanitiseChar_of_alphanumeric (h : u.isAlphanumeric c = true) : sanitiseChar u c = c :=
  if_pos (Or.inl h)

theorem sanitiseChar_of_not_alphanumeric (h : ¬ u.isAlphanumeric c = true) :
    sanitiseChar u c = '_' := by
  unfold sanitiseChar
  by_cases hlow : c = '_'
  · rw [if_pos (Or.inr hlow), hlow]
  · rw [if_neg]
    simp [h, hlow]

theorem toNat_lt_of_isDigit (h : c.isDigit = true) : c.toNat < 128 := by
  have hle : c.toNat ≤ 57 := (Char.isDigit_iff_toNat.mp h).2
  omega

theorem not_isDigit_of_isAlpha (h : c.isAlpha = true) : c.isDigit = false := by
  by_contra hdigit
  rw [Bool.not_eq_false] at hdigit
  have hle : c.toNat ≤ 57 := (Char.isDigit_iff_toNat.mp hdigit).2
  have hletter : (65 ≤ c.toNat ∧ c.toNat ≤ 90) ∨ (97 ≤ c.toNat ∧ c.toNat ≤ 122) := by
    delta Char.isAlpha Char.isUpper Char.isLower at h
    simp only [Bool.or_eq_true, Bool.and_eq_true, decide_eq_true_eq] at h
    exact h
  omega

/-- An ASCII character that is kept is a letter or a digit and no colon or underscore. -/
theorem isNameStart_of_alphanumeric
    (hascii : ∀ c, c.toNat < 128 → u.isAlphanumeric c = c.isAlphanum)
    (h : u.isAlphanumeric c = true) : isNameStart c = c.isAlpha := by
  have hne : ∀ d : Char, d.toNat < 128 → d.isAlphanum = false → (c == d) = false := by
    intro d hd hno
    apply beq_eq_false_iff_ne.mpr
    rintro rfl
    rw [hascii c hd, hno] at h
    cases h
  have hlow := hne '_' (by decide) (by decide)
  have hcolon := hne ':' (by decide) (by decide)
  rw [isNameStart, hlow, hcolon, Bool.or_false, Bool.or_false]

/-- A sanitised character may stand in a name exactly when it was no foreign letter or digit. -/
theorem isNameChar_sanitiseChar_iff
    (hascii : ∀ c, c.toNat < 128 → u.isAlphanumeric c = c.isAlphanum) (c : Char) :
    (isNameStart (sanitiseChar u c) || (sanitiseChar u c).isDigit) = true ↔
      (u.isAlphanumeric c = true → c.isAlphanum = true) := by
  by_cases h : u.isAlphanumeric c = true
  · rw [sanitiseChar_of_alphanumeric h, isNameStart_of_alphanumeric hascii h]
    exact ⟨fun hname _ => hname, fun hname => hname h⟩
  · rw [sanitiseChar_of_not_alphanumeric h]
    exact iff_of_true (by decide) fun halnum => absurd halnum h

/-- It may begin a name when, besides, it was no digit. -/
theorem isNameStart_sanitiseChar_iff
    (hascii : ∀ c, c.toNat < 128 → u.isAlphanumeric c = c.isAlphanum)
    (hc : u.isAlphanumeric c = true → c.isAlphanum = true) :
    isNameStart (sanitiseChar u c) = true ↔ c.isDigit = false := by
  by_cases h : u.isAlphanumeric c = true
  · rw [sanitiseChar_of_alphanumeric h, isNameStart_of_alphanumeric hascii h]
    constructor
    · exact not_isDigit_of_isAlpha
    · intro hdigit
      have halnum := hc h
      rwa [Char.isAlphanum, hdigit, Bool.or_false] at halnum
  · rw [sanitiseChar_of_not_alphanumeric h]
    refine iff_of_true (by decide) ?_
    by_contra hdigit
    rw [Bool.not_eq_false] at hdigit
    apply h
    rw [hascii c (toNat_lt_of_isDigit hdigit), Char.isAlphanum, hdigit, Bool.or_true]

/-- The sanitised name is valid exactly when the name can be sanitised. -/
theorem isValidMetricName_sanitiseName_iff
    (hascii : ∀ c, c.toNat < 128 → u.isAlphanumeric c = c.isAlphanum) (name : String) :
    isValidMetricName (EkgBackend.sanitiseName u name) = true ↔ Sanitisable u name := by
  rw [isValidMetricName, sanitiseName_eq, String.toList_ofList]
  cases hname : name.toList with
  | nil =>
    refine iff_of_false (by simp) ?_
    intro h
    exact h.nonempty (String.toList_eq_nil_iff.mp hname)
  | cons c cs =>
    have hchars := isNameChar_sanitiseChar_iff hascii
    simp only [List.map_cons, Bool.and_eq_true, List.all_map, List.all_eq_true,
      Function.comp_apply, hchars]
    constructor
    · intro h
      obtain ⟨hstart, hrest⟩ := h
      have hc : u.isAlphanumeric c = true → c.isAlphanum = true :=
        (hchars c).mp (by rw [hstart, Bool.true_or])
      refine ⟨?_, ?_, ?_⟩
      · rintro rfl
        cases hname
      · rw [hname]
        rintro d hd
        rw [← Option.some.inj hd]
        exact (isNameStart_sanitiseChar_iff hascii hc).mp hstart
      · rw [hname]
        exact List.forall_mem_cons.mpr ⟨hc, hrest⟩
    · intro h
      have hall := h.ascii
      rw [hname] at hall
      obtain ⟨hc, hrest⟩ := List.forall_mem_cons.mp hall
      refine ⟨?_, hrest⟩
      apply (isNameStart_sanitiseChar_iff hascii hc).mpr
      exact h.front c (by rw [hname]; rfl)

theorem sanitisedWell_iff (hascii : ∀ c, c.toNat < 128 → u.isAlphanumeric c = c.isAlphanum)
    (name : String) : SanitisedWell u name ↔ Sanitisable u name := by
  constructor
  · intro h
    exact (isValidMetricName_sanitiseName_iff hascii name).mp h.backend
  · intro h
    have hvalid := (isValidMetricName_sanitiseName_iff hascii name).mpr h
    exact ⟨hvalid, hvalid, hvalid, rfl, rfl⟩

end Characters

/-! The metrics of a node. -/

section Node

open EkgPoller
open EkgBackend (Called)

variable {F : Type}

/-- What is reported to a node before its name is sanitised: an EKG metric, or a number in a
trace under the name that is built for it. -/
inductive Report (F : Type)
  | ekg (name : String) (value : EkgValue)
  | field (rawName : String) (value : F)

namespace Report

def event (u : Unicode) : Report F → Event F
  | ekg name value => .ekg name value
  | field rawName value => .traceField (sanitiseMetricName u rawName) value

def rawName : Report F → String
  | ekg name (.counter _) => name
  | ekg name (.gauge _) => name
  | ekg name (.label _) => name ++ "_info"
  | field rawName _ => rawName

theorem family_event (u : Unicode) (r : Report F) :
    (r.event u).metric.family u = sanitiseName u r.rawName := by
  rcases r with ⟨name, v | v | text⟩ | ⟨rawName, value⟩
  · rfl
  · rfl
  · exact sanitiseName_sanitiseName u (name ++ "_info")
  · rfl

end Report

/-- The update fails, and the name of its family is one that no registry takes. -/
def DroppedForName (u : Unicode) (x : F64 F) (s : Node F) (r : Report F) : Prop :=
  (∃ s', update u x s (r.event u) = .err s') ∧
    isValidMetricName ((r.event u).metric.family u) = false

def fieldReports (numbers : String → List (String × F)) (traces : List ProtocolTypes.TraceObject) :
    List (Report F) :=
  traces.flatMap fun t =>
    let segments := "_".intercalate t.toNamespace
    if segments = "" then []
    else (numbers t.toMachine).map fun p => .field (segments ++ "_" ++ p.1) p.2

/-- The trace handler takes in the reports in its traces. -/
theorem run_fieldReports (u : Unicode) (x : F64 F) (numbers : String → List (String × F))
    (s : Node F) (traces : List ProtocolTypes.TraceObject) :
    run (step u x) s ((fieldReports numbers traces).map (Report.event u)) =
      completed (s.pushTraceMetrics u numbers traces) := by
  have hevents : (fieldReports numbers traces).map (Report.event u) =
      (Node.traceFields u numbers traces).map fun p => .traceField p.1 p.2 := by
    simp only [fieldReports, Node.traceFields, List.map_flatMap]
    congr 1
    funext t
    split
    · rfl
    · rw [List.map_map, List.map_map]
      rfl
  rw [hevents, run_pushTraceMetrics]

def NamesValid (s : Node F) : Prop :=
  ∀ name, (s.registry name).isSome → isValidMetricName name = true

variable {u : Unicode} {x : F64 F} {s s' t : Node F}

/-- A family that is found or created has a valid name. -/
theorem family_valid_of_opened (hs : NamesValid s) (hcons : Consistent u s) {m : EkgPoller.Metric}
    (h : Opened u s m t) : isValidMetricName (m.family u) = true := by
  cases h with
  | cached h =>
    obtain ⟨-, family, hfamily, -⟩ := hcons.opened m _ h
    exact hs _ (by rw [hfamily]; rfl)
  | created h hr =>
    rw [Refuses, not_or, not_or] at hr
    simpa using hr.2.1

/-- An update registers no invalid name. -/
theorem NamesValid.step (hs : NamesValid s) (hcons : Consistent u s) {e : Event F}
    (h : EkgPoller.step u x s e = some s') : NamesValid s' := by
  cases updates_of_step hcons h with
  | refused _ _ => exact hs
  | written ho hold hfits hw =>
    intro name hname
    by_cases heq : name = e.metric.family u
    · rw [heq]
      exact family_valid_of_opened hs hcons ho
    · rw [registry_written_of_ne _ heq, ho.registry_of_ne heq] at hname
      exact hs name hname

theorem namesValid_new : NamesValid (Node.new : Node F) := by
  intro name hname
  cases hname

theorem namesValid_of_run (hcons : Consistent u s) (hs : NamesValid s) {es : List (Event F)}
    (h : run (step u x) s es = some s') : Consistent u s' ∧ NamesValid s' := by
  refine run_invariant (I := fun s => Consistent u s ∧ NamesValid s) ?_ ⟨hcons, hs⟩ h
  intro s e s' hs he
  exact ⟨(updates_of_step hs.1 he).consistent hs.1, hs.2.step hs.1 he⟩

/-- Neither the poller nor the trace handler panics in a call, and none of their calls gets a
name into the registry that is not valid. -/
theorem calls_complete (hcons : Consistent u s) (hs : NamesValid s) :
    (∀ metrics, ∃ s', completed (s.updateRegistry u x metrics) = some s' ∧
      Consistent u s' ∧ NamesValid s') ∧
    ∀ numbers traces, ∃ s', completed (s.pushTraceMetrics u numbers traces) = some s' ∧
      Consistent u s' ∧ NamesValid s' := by
  constructor
  · intro metrics
    obtain ⟨s', hrun, -⟩ := run_defined (x := x) hcons (metrics.entries.map fun e => .ekg e.1 e.2)
    exact ⟨s', run_updateRegistry s metrics ▸ hrun, namesValid_of_run hcons hs hrun⟩
  · intro numbers traces
    obtain ⟨s', hrun, -⟩ := run_defined (x := x) hcons
      ((fieldReports numbers traces).map (Report.event u))
    exact ⟨s', run_fieldReports u x numbers s traces ▸ hrun, namesValid_of_run hcons hs hrun⟩

/-- A report is dropped for its name in the states of a run exactly when the name cannot be
sanitised. -/
theorem droppedForName_iff (hascii : ∀ c, c.toNat < 128 → u.isAlphanumeric c = c.isAlphanum)
    (hs : NamesValid s) (hcons : Consistent u s) (r : Report F) :
    DroppedForName u x s r ↔ ¬ Sanitisable u r.rawName := by
  rw [DroppedForName, ← isValidMetricName_sanitiseName_iff hascii, Bool.not_eq_true,
    r.family_event]
  refine and_iff_right_of_imp ?_
  intro hinvalid
  rcases getOrCreate_cases hcons (r.event u).metric with ⟨-, -, hnone⟩ | ⟨t, ho, -⟩
  · exact ⟨s, update_refused hnone⟩
  · have hvalid := family_valid_of_opened hs hcons ho
    rw [r.family_event, hinvalid] at hvalid
    cases hvalid

end Node

/-! The metrics of the dispatcher's backend. -/

section Backend

open EkgBackend EkgBackend.Ekg MetricRecords

variable {R : Type}

def ChecksNames (p : Prometheus R) : Prop :=
  ∀ r name help labels r', p.register r name help labels = some r' → isValidMetricName name = true

def RecordDroppedForName (u : Unicode) (p : Prometheus R) (s : Ekg R) (m : Metric) : Prop :=
  (∃ s', s.recordMetric u p m = .err s') ∧ isValidMetricName (sanitiseName u m.name) = false

structure CachesValid (u : Unicode) (s : Ekg R) : Prop where
  gauges : ∀ name, (s.gauges name).isSome → isValidMetricName (sanitiseName u name) = true
  counters : ∀ name, (s.counters name).isSome → isValidMetricName (sanitiseName u name) = true

variable {u : Unicode} {p : Prometheus R} {s t : Ekg R} {name : String}

theorem cachesValid_emptyEkg (u : Unicode) (registry : R) : CachesValid u (emptyEkg registry) where
  gauges _ h := by cases h
  counters _ h := by cases h

theorem CachesValid.updateGauge (hs : CachesValid u s)
    (hvalid : isValidMetricName (sanitiseName u name) = true) (r : R) (g : GaugeVec) :
    CachesValid u { s with registry := r, gauges := Function.update s.gauges name (some g) } where
  gauges n hn := by
    by_cases heq : n = name
    · rwa [heq]
    · simp only [Function.update_of_ne heq] at hn
      exact hs.gauges n hn
  counters := hs.counters

theorem CachesValid.updateCounter (hs : CachesValid u s)
    (hvalid : isValidMetricName (sanitiseName u name) = true) (r : R) (c : CounterVec) :
    CachesValid u
      { s with registry := r, counters := Function.update s.counters name (some c) } where
  gauges := hs.gauges
  counters n hn := by
    by_cases heq : n = name
    · rwa [heq]
    · simp only [Function.update_of_ne heq] at hn
      exact hs.counters n hn

/-- The name of a gauge that is found or registered is valid. -/
theorem CachesValid.getOrCreateGauge (hp : ChecksNames p) (hs : CachesValid u s)
    {labels : List String} {g : GaugeVec}
    (h : s.getOrCreateGauge u p name labels = some (t, g)) :
    isValidMetricName (sanitiseName u name) = true ∧ CachesValid u t := by
  rw [Ekg.getOrCreateGauge] at h
  split at h
  · rename_i g' hcached
    rw [Option.some.injEq, Prod.mk.injEq] at h
    rw [← h.1]
    exact ⟨hs.gauges name (by rw [hcached]; rfl), hs⟩
  · obtain ⟨r, hregister, hr⟩ := Option.map_eq_some_iff.mp h
    have hvalid := hp _ _ _ _ _ hregister
    rw [← (Prod.mk.inj hr).1]
    exact ⟨hvalid, hs.updateGauge hvalid r _⟩

theorem CachesValid.getOrCreateCounter (hp : ChecksNames p) (hs : CachesValid u s)
    {c : CounterVec} (h : s.getOrCreateCounter u p name = some (t, c)) :
    isValidMetricName (sanitiseName u name) = true ∧ CachesValid u t := by
  rw [Ekg.getOrCreateCounter] at h
  split at h
  · rename_i c' hcached
    rw [Option.some.injEq, Prod.mk.injEq] at h
    rw [← h.1]
    exact ⟨hs.counters name (by rw [hcached]; rfl), hs⟩
  · obtain ⟨r, hregister, hr⟩ := Option.map_eq_some_iff.mp h
    have hvalid := hp _ _ _ _ _ hregister
    rw [← (Prod.mk.inj hr).1]
    exact ⟨hvalid, hs.updateCounter hvalid r _⟩

/-- Setting a gauge keeps names valid, and fails where its own is not. -/
theorem CachesValid.setGauge (hp : ChecksNames p) (hs : CachesValid u s) (name : String)
    (labels : List (String × String)) (value : ℚ) :
    CachesValid u (s.setGauge u p name labels value).state ∧
      (isValidMetricName (sanitiseName u name) = false →
        s.setGauge u p name labels value = .err s) := by
  rcases setGauge_cases u p s name labels value with ⟨-, hset⟩ | ⟨t, g, hfound, h⟩
  · rw [hset]
    exact ⟨hs, fun _ => rfl⟩
  · obtain ⟨hvalid, ht⟩ := hs.getOrCreateGauge hp hfound
    refine ⟨?_, fun hinvalid => by rw [hvalid] at hinvalid; cases hinvalid⟩
    rcases h with ⟨-, hset⟩ | ⟨-, hset⟩
    · rw [hset]
      exact ht
    · rw [hset]
      exact ht.updateGauge hvalid t.registry _

/-- Counting up keeps the caches valid, and a counter with an invalid name is refused. -/
theorem CachesValid.incCounter (hp : ChecksNames p) (hs : CachesValid u s) (name : String)
    (amount : ℤ) :
    CachesValid u (s.incCounter u p name amount).state ∧
      (isValidMetricName (sanitiseName u name) = false →
        s.incCounter u p name amount = .err s) := by
  rw [Ekg.incCounter]
  cases hfound : s.getOrCreateCounter u p name with
  | none => exact ⟨hs, fun _ => rfl⟩
  | some found =>
    obtain ⟨t, c⟩ := found
    obtain ⟨hvalid, ht⟩ := hs.getOrCreateCounter hp hfound
    refine ⟨?_, fun hinvalid => by rw [hvalid] at hinvalid; cases hinvalid⟩
    simp only [MetricVec.withLabelValues]
    split
    · exact ht
    · split
      · exact ht.updateCounter hvalid t.registry _
      · exact ht.updateCounter hvalid t.registry _

theorem CachesValid.recordMetric (hp : ChecksNames p) (hs : CachesValid u s) (m : Metric) :
    CachesValid u (s.recordMetric u p m).state ∧
      (isValidMetricName (sanitiseName u m.name) = false → s.recordMetric u p m = .err s) := by
  cases m with
  | intM name value => exact hs.setGauge hp name [] (Significands.toF64 value)
  | doubleM name value => exact hs.setGauge hp name [] value
  | counterM name amount => exact hs.incCounter hp name (amount.getD 1)
  | prometheusM name labels => exact hs.setGauge hp name labels 1

theorem recordDroppedForName_iff
    (hascii : ∀ c, c.toNat < 128 → u.isAlphanumeric c = c.isAlphanum) (hp : ChecksNames p)
    (hs : CachesValid u s) (m : Metric) :
    RecordDroppedForName u p s m ↔ ¬ Sanitisable u m.name := by
  rw [RecordDroppedForName, ← isValidMetricName_sanitiseName_iff hascii, Bool.not_eq_true]
  refine and_iff_right_of_imp ?_
  intro hinvalid
  exact ⟨s, (hs.recordMetric hp m).2 hinvalid⟩

end Backend

open EkgPoller MetricRecords

/-- A name is made a valid one, the same three times, exactly when it can be sanitised. In
every run of a node and of the backend the metrics with other names, and no more, are dropped
because of their names. -/
theorem sanitised_valid_iff {F R : Type} {u : Unicode}
    (hascii : ∀ c, c.toNat < 128 → u.isAlphanumeric c = c.isAlphanum) (x : F64 F)
    {p : EkgBackend.Prometheus R} (hp : ChecksNames p) :
    (∀ name, SanitisedWell u name ↔ Sanitisable u name) ∧
    (∀ (rs : List (Report F)) (s : Node F),
      run (step u x) Node.new (rs.map (Report.event u)) = some s →
        ∀ r, DroppedForName u x s r ↔ ¬ Sanitisable u r.rawName) ∧
    ∀ (registry : R) (msgs : List (List EkgBackend.Metric)),
      EachRun u p (fun s m => RecordDroppedForName u p s m ↔ ¬ Sanitisable u m.name)
        (emptyEkg registry) msgs := by
  refine ⟨sanitisedWell_iff hascii, ?_, ?_⟩
  · intro rs s hrun r
    obtain ⟨hcons, hs⟩ := namesValid_of_run (consistent_new u) namesValid_new hrun
    exact droppedForName_iff hascii hs hcons r
  · intro registry msgs
    exact eachRun_of_keeps (J := CachesValid u) (fun s m hs => (hs.recordMetric hp m).1)
      (fun s m hs => recordDroppedForName_iff hascii hp hs m) (cachesValid_emptyEkg u registry) msgs

def gaugeLibrary : EkgBackend.Prometheus (Registry ℤ) where
  register r name help labels := r.register name help (.gauge (.new labels))
  debugAssertions := false

theorem checksNames_gaugeLibrary : ChecksNames gaugeLibrary := by
  intro r name help labels r' h
  by_contra hinvalid
  rw [Bool.not_eq_true] at hinvalid
  have hrefused : r.Refuses name help := Or.inr (Or.inl hinvalid)
  have hnone : gaugeLibrary.register r name help labels = none := register_of_refuses hrefused
  rw [hnone] at h
  cases h

theorem sanitised_valid_iff_ascii :
    (SanitisedWell .ascii "rts.gc" ↔ Sanitisable .ascii "rts.gc") ∧
    (∃ s, run (step .ascii ⟨Int64.toInt, 1⟩) Node.new [.ekg "rts.gc" (.gauge 1)] = some s ∧
      (DroppedForName .ascii ⟨Int64.toInt, 1⟩ s (.ekg "2xx" (.counter 1)) ↔
        ¬ Sanitisable .ascii "2xx")) ∧
    EachRun .ascii gaugeLibrary
      (fun s m => RecordDroppedForName .ascii gaugeLibrary s m ↔ ¬ Sanitisable .ascii m.name)
      (emptyEkg fun _ => none) [[.intM "rts.gc" 1], [.counterM "2xx" none]] := by
  obtain ⟨hwell, hnode, hbackend⟩ := sanitised_valid_iff (u := .ascii) (fun _ _ => rfl)
    ⟨Int64.toInt, 1⟩ checksNames_gaugeLibrary
  obtain ⟨s, hrun, -⟩ := run_defined (x := ⟨Int64.toInt, 1⟩) (consistent_new .ascii)
    [.ekg "rts.gc" (.gauge 1)]
  exact ⟨hwell "rts.gc", ⟨s, hrun, hnode [.ekg "rts.gc" (.gauge 1)] s hrun _⟩, hbackend _ _⟩

/-- A digit in front stays there, and the counter is dropped by the node as by the backend. -/
theorem digit_in_front_dropped :
    ¬ SanitisedWell .ascii "2xx" ∧
      DroppedForName .ascii ⟨Int64.toInt, 1⟩ Node.new (.ekg "2xx" (.counter 1)) ∧
      RecordDroppedForName .ascii gaugeLibrary (emptyEkg fun _ => none) (.counterM "2xx" none) := by
  have hinvalid : isValidMetricName (EkgBackend.sanitiseName .ascii "2xx") = false := by decide
  refine ⟨?_, ⟨⟨_, rfl⟩, hinvalid⟩, ⟨⟨_, rfl⟩, hinvalid⟩⟩
  intro h
  have hvalid := h.backend
  rw [hinvalid] at hvalid
  cases hvalid

end Hermod.MetricNames
