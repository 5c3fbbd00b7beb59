import Hermod.NodeMetrics

/-!
Whether metrics of a node disturb each other. No metric ever overwrites another: one that is
registered shows what was reported of it. But the poller and the trace handler do not know
of each other's caches, nor does one cache of the poller of the next, and different names may
become one when they are sanitised. The first metric of a family then keeps all others out,
unless they are labels.
-/
namespace Hermod.MetricInterference

open EkgPoller
open MetricsRegistry
open TracerState (Unicode)
open Transitions

variable {F : Type}

def latest (m : Metric) (seen : List (Event F)) : Option (Event F) :=
  seen.find? fun e => decide (e.metric = m)

def reports (name : String) (seen : List (Event F)) : List Int64 :=
  seen.filterMap fun
    | .ekg name' (.counter v) => if name' = name then some v else none
    | _ => none

/-- What the reports of a counter add up to: each adds by how much it exceeds the one before.
Nothing is shown before the first increase. -/
def accumulated : List Int64 → Option UInt64
  | [] => none
  | v :: earlier =>
    let delta := increase (earlier.head?.getD 0) v
    if 0 < delta then some ((accumulated earlier).getD 0 + UInt64.ofNat delta)
    else accumulated earlier

def Shows (u : Unicode) (x : F64 F) (o : Observed F) (e : Event F) : Prop :=
  match e with
  | .ekg name (.counter _) =>
    o.node.registry.counterValue (e.metric.family u) [] = accumulated (reports name o.seen)
  | .ekg _ (.gauge v) => o.node.registry.gaugeValue (e.metric.family u) [] = some (x.ofInt v)
  | .ekg _ (.label text) => o.node.registry.gaugeValue (e.metric.family u) [text] = some x.one
  | .traceField _ value => o.node.registry.gaugeValue (e.metric.family u) [] = some value

/-- The same, where a counter too shows the very value of its latest report. -/
def ShowsLatest (u : Unicode) (x : F64 F) (o : Observed F) (e : Event F) : Prop :=
  match e with
  | .ekg _ (.counter v) => ∃ n, o.node.registry.counterValue (e.metric.family u) [] = some n ∧
      (n.toNat : ℤ) = v.toInt
  | _ => Shows u x o e

/-- Every metric that was reported, and whose family has a valid name, is registered and
shows what was reported of it. -/
def Exported (u : Unicode) (x : F64 F) (o : Observed F) : Prop :=
  ∀ m e, latest m o.seen = some e → isValidMetricName (m.family u) = true →
    (m.handle u o.node).isSome ∧ Shows u x o e

def ExportedLatest (u : Unicode) (x : F64 F) (o : Observed F) : Prop :=
  ∀ m e, latest m o.seen = some e → isValidMetricName (m.family u) = true →
    (m.handle u o.node).isSome ∧ ShowsLatest u x o e

/-- No other metric was reported in the family of this one, except labels beside a label. -/
def NoClash (u : Unicode) (o : Observed F) (e : Event F) : Prop :=
  isValidMetricName (e.metric.family u) = true →
    ∀ e' ∈ o.seen, e'.metric.family u = e.metric.family u →
      e'.metric = e.metric ∨ e'.metric.IsLabel ∧ e.metric.IsLabel

/-- The first report of a counter is positive, and none is below the one before. -/
def Rising (u : Unicode) (o : Observed F) (e : Event F) : Prop :=
  ∀ name v, e = .ekg name (.counter v) → isValidMetricName (e.metric.family u) = true →
    match (reports name o.seen).head? with
    | none => 0 < v.toInt
    | some prev => prev.toInt ≤ v.toInt

structure Tracks (u : Unicode) (x : F64 F) (o : Observed F) : Prop where
  counts : ∀ name, (Metric.handle u o.node (.counter name)).isSome →
    o.node.counterValues name = (reports name o.seen).head?
  shows : ∀ m e, latest m o.seen = some e → (m.handle u o.node).isSome → Shows u x o e

section History

variable {e : Event F} {seen : List (Event F)} {m : Metric}

theorem latest_self (e : Event F) (seen : List (Event F)) :
    latest e.metric (e :: seen) = some e := by
  simp [latest]

theorem latest_of_ne (h : e.metric ≠ m) : latest m (e :: seen) = latest m seen := by
  simp [latest, h]

theorem metric_of_latest (h : latest m seen = some e) : e.metric = m ∧ e ∈ seen := by
  have hmetric := List.find?_some h
  exact ⟨by simpa using hmetric, List.mem_of_find?_eq_some h⟩

theorem exists_latest (h : e ∈ seen) : ∃ e', latest e.metric seen = some e' := by
  rw [← Option.isSome_iff_exists, latest, List.find?_isSome]
  exact ⟨e, h, by simp⟩

theorem reports_of_ne {name : String} (h : e.metric ≠ .counter name) :
    reports name (e :: seen) = reports name seen := by
  rcases e with ⟨name', v | v | text⟩ | ⟨metricName, value⟩
  · have hne : name' ≠ name := fun heq => h (by rw [heq]; rfl)
    simp [reports, hne]
  · simp [reports]
  · simp [reports]
  · simp [reports]

theorem reports_self (name : String) (v : Int64) :
    reports name ((.ekg name (.counter v) : Event F) :: seen) = v :: reports name seen := by
  simp [reports]

/-- Without a report of the counter there are none. -/
theorem reports_eq_nil {name : String} (h : ∀ e ∈ seen, e.metric ≠ .counter name) :
    reports name seen = [] := by
  induction seen with
  | nil => rfl
  | cons e seen ih =>
    rw [reports_of_ne (h e (List.mem_cons_self ..))]
    exact ih fun e' he' => h e' (List.mem_cons_of_mem _ he')

/-- What a report shows depends on its own family and, for a counter, its own reports. -/
theorem Shows.congr {u : Unicode} {x : F64 F} {o o' : Observed F} (h : Shows u x o e)
    (hreg : o'.node.registry (e.metric.family u) = o.node.registry (e.metric.family u))
    (hreports : ∀ name, e.metric = .counter name → reports name o'.seen = reports name o.seen) :
    Shows u x o' e := by
  rcases e with ⟨name, v | v | text⟩ | ⟨metricName, value⟩
  · have hcounter := (Registry.values_congr hreg []).2
    simp only [Shows] at h ⊢
    rw [hcounter, hreports name rfl]
    exact h
  · exact (Registry.values_congr hreg []).1.trans h
  · exact (Registry.values_congr hreg [text]).1.trans h
  · exact (Registry.values_congr hreg []).1.trans h

/-- The latest report of a counter is the first of its reports. -/
theorem latest_counter_iff {name : String} {v : Int64} :
    latest (.counter name) seen = some (.ekg name (.counter v)) ↔
      (reports name seen).head? = some v := by
  induction seen with
  | nil => exact iff_of_false (by simp [latest]) (by simp [reports])
  | cons e seen ih =>
    by_cases he : e.metric = .counter name
    · rcases e with ⟨name', v' | v' | text⟩ | ⟨metricName, value⟩
      · obtain rfl : name' = name := Metric.counter.inj he
        rw [← he, latest_self, reports_self, List.head?_cons]
        simp only [Option.some.injEq, Event.ekg.injEq, EkgMessages.EkgValue.counter.injEq,
          true_and]
      · cases he
      · cases he
      · cases he
    · rw [latest_of_ne he, reports_of_ne he]
      exact ih

end History

section Step

variable {u : Unicode} {x : F64 F} {o o' : Observed F} {e : Event F} {t : Node F}

/-- What a counter's family and the poller's memory are before a report of it. -/
theorem counter_before (ho : Sound u o) (htracks : Tracks u x o) {name : String}
    {vec : SeriesVec UInt64} (hopen : Opened u o.node (.counter name) t)
    (hold : t.registry (Metric.family u (.counter name)) = some (.counter vec)) :
    o.node.counterValues name = (reports name o.seen).head? ∧
      vec.series [] = accumulated (reports name o.seen) := by
  rcases hopen.old_cases hold with ⟨hcached, hreg⟩ | ⟨hnone, hfree, hfresh⟩
  · have hsome : (Metric.handle u o.node (.counter name)).isSome :=
      Option.isSome_iff_exists.mpr ⟨_, hcached⟩
    refine ⟨htracks.counts name hsome, ?_⟩
    obtain ⟨e, he, hslot⟩ := ho.reported _ _ hcached
    have hmetric : e.metric = .counter name :=
      (Metric.eq_of_slot hslot).2.resolve_right fun h' => h'.2
    obtain ⟨e₁, hlatest⟩ := exists_latest he
    rw [hmetric] at hlatest
    have hshows := htracks.shows _ e₁ hlatest hsome
    obtain ⟨hmetric₁, -⟩ := metric_of_latest hlatest
    rcases e₁ with ⟨name', v | v | text⟩ | ⟨metricName, value⟩
    · obtain rfl : name' = name := Metric.counter.inj hmetric₁
      exact (Registry.counterValue_of_counter hreg []).symm.trans hshows
    · cases hmetric₁
    · cases hmetric₁
    · cases hmetric₁
  · have hnil : reports name o.seen = [] := by
      apply reports_eq_nil
      intro e he hmetric
      exact ho.slot_ne hnone hfree e he (by rw [hmetric])
    rw [hnil, ho.consistent.counted name hnone, Family.counter.inj hfresh]
    exact ⟨rfl, rfl⟩

/-- An update that is not refused is shown. -/
theorem shows_written (ho : Sound u o) (htracks : Tracks u x o) {old new : Family F}
    (hopen : Opened u o.node e.metric t) (hold : t.registry (e.metric.family u) = some old)
    (hfits : e.metric.Fits old) (hw : e.write x o.node.counterValues old = some new) :
    Shows u x ⟨t.written u e new, e :: o.seen⟩ e := by
  have hreg := registry_written u t e new
  rcases e with ⟨name, v | v | text⟩ | ⟨metricName, value⟩ <;>
    rcases old with vec | vec <;> try exact hfits.elim
  · obtain ⟨hprev, hseries⟩ := counter_before ho htracks hopen hold
    have hlabels : vec.labels = [] := hfits
    have haccumulated : new = .counter vec ∧
          accumulated (v :: reports name o.seen) = accumulated (reports name o.seen) ∨
        ∃ n, new = .counter (vec.put [] n) ∧ accumulated (v :: reports name o.seen) = some n := by
      rw [Event.write, hprev, Family.incBy_counter (by rw [hlabels]), hseries] at hw
      simp only [accumulated]
      split at hw
      · rename_i hpos
        rw [if_pos hpos]
        exact Or.inr ⟨_, (Option.some.inj hw).symm, rfl⟩
      · rename_i hpos
        rw [if_neg hpos]
        exact Or.inl ⟨(Option.some.inj hw).symm, rfl⟩
    simp only [Shows, reports_self]
    rcases haccumulated with ⟨rfl, hsame⟩ | ⟨n, rfl, hsome⟩
    · rw [Registry.counterValue_of_counter hreg, hseries, hsame]
    · rw [Registry.counterValue_of_counter hreg, SeriesVec.series_put_self, hsome]
  · have hlabels : vec.labels = [] := hfits
    rw [Event.write, Family.set_gauge (by rw [hlabels]), Option.some.injEq] at hw
    subst hw
    exact (Registry.gaugeValue_of_gauge hreg []).trans (SeriesVec.series_put_self ..)
  · have hlabels : vec.labels = ["value"] := hfits
    rw [Event.write, Family.set_gauge (by rw [hlabels]; rfl), Option.some.injEq] at hw
    subst hw
    exact (Registry.gaugeValue_of_gauge hreg [text]).trans (SeriesVec.series_put_self ..)
  · have hlabels : vec.labels = [] := hfits
    rw [Event.write, Family.set_gauge (by rw [hlabels]), Option.some.injEq] at hw
    subst hw
    exact (Registry.gaugeValue_of_gauge hreg []).trans (SeriesVec.series_put_self ..)

/-- A report of one label leaves what another in the same family shows. -/
theorem shows_label_beside {m : Metric} {e₁ : Event F} {old new : Family F} {s' : Node F}
    {seen' : List (Event F)} (hlabels : m.IsLabel ∧ e.metric.IsLabel) (hmetric : e₁.metric = m)
    (hfamily : m.family u = e.metric.family u)
    (hold : o.node.registry (e.metric.family u) = some old)
    (hw : e.write x o.node.counterValues old = some new) (hshows : Shows u x o e₁)
    (hreg : s'.registry (e.metric.family u) = some new) :
    Shows u x ⟨s', seen'⟩ e₁ := by
  subst hmetric
  rcases e with ⟨name, v | v | text⟩ | ⟨metricName, value⟩ <;>
    try exact hlabels.2.elim
  rcases e₁ with ⟨name', v | v | text'⟩ | ⟨metricName, value⟩ <;>
    try exact hlabels.1.elim
  simp only [Shows] at hshows ⊢
  rw [hfamily] at hshows ⊢
  cases old with
  | counter vec => cases hw
  | gauge vec =>
    rw [Registry.gaugeValue_of_gauge hold] at hshows
    rw [Event.write, Family.set, SeriesVec.withLabelValues] at hw
    split at hw
    · rw [Option.map_some, Option.some.injEq] at hw
      subst hw
      rw [Registry.gaugeValue_of_gauge hreg]
      by_cases htext : text' = text
      · rw [htext]
        exact SeriesVec.series_put_self ..
      · have hne : [text'] ≠ [text] := fun heq => htext (List.singleton_inj.mp heq)
        rwa [SeriesVec.series_put_of_ne vec hne]
    · cases hw

/-- A report that is refused changes nothing that is shown. -/
theorem Tracks.refused (htracks : Tracks u x o) (hnone : e.metric.handle u o.node = none) :
    Tracks u x ⟨o.node, e :: o.seen⟩ where
  counts name hname := by
    have hne : e.metric ≠ .counter name := by
      intro heq
      rw [← heq, hnone] at hname
      cases hname
    rw [reports_of_ne hne]
    exact htracks.counts name hname
  shows m e₁ hlatest hm := by
    have hne : e.metric ≠ m := by
      intro heq
      rw [← heq, hnone] at hm
      cases hm
    rw [latest_of_ne hne] at hlatest
    refine (htracks.shows m e₁ hlatest hm).congr rfl ?_
    intro name hname
    exact reports_of_ne fun heq => hne (heq.trans (hname.symm.trans (metric_of_latest hlatest).1))

/-- The poller remembers the latest report of every counter that is registered. -/
theorem Tracks.counts_written (htracks : Tracks u x o) (hopen : Opened u o.node e.metric t)
    {new : Family F} {name : String}
    (hname : (Metric.handle u (t.written u e new) (.counter name)).isSome) :
    (t.written u e new).counterValues name = (reports name (e :: o.seen)).head? := by
  by_cases heq : e.metric = .counter name
  · rcases e with ⟨name', v | v | text⟩ | ⟨metricName, value⟩
    · obtain rfl : name' = name := Metric.counter.inj heq
      rw [reports_self]
      exact Function.update_self ..
    · cases heq
    · cases heq
    · cases heq
  · rw [reports_of_ne heq]
    have hbefore : (Metric.handle u o.node (.counter name)).isSome := by
      obtain ⟨f, hf⟩ := Option.isSome_iff_exists.mp hname
      rw [handle_written] at hf
      rcases hopen.handle_cases hf with hf | ⟨hslot, -⟩
      · exact Option.isSome_iff_exists.mpr ⟨f, hf⟩
      · exact absurd ((Metric.eq_of_slot hslot).2.resolve_right fun h' => h'.1).symm heq
    have hsame := remember_of_ne t.counterValues heq
    rw [hopen.counterValues] at hsame
    rw [← htracks.counts name hbefore, ← hsame, ← hopen.counterValues]
    rfl

/-- What another metric shows stays. -/
theorem Tracks.shows_beside (ho : Sound u o) (htracks : Tracks u x o) {old new : Family F}
    (hopen : Opened u o.node e.metric t) (hold : t.registry (e.metric.family u) = some old)
    (hw : e.write x o.node.counterValues old = some new) {m : Metric} {e₁ : Event F}
    (hlatest : latest m o.seen = some e₁) (hsame : e.metric ≠ m)
    (hm : m.handle u t = some (m.family u)) :
    Shows u x ⟨t.written u e new, e :: o.seen⟩ e₁ := by
  obtain ⟨hmetric, he₁⟩ := metric_of_latest hlatest
  by_cases hfamily : m.family u = e.metric.family u
  · -- Only a label shares its family.
    have hlabels : m.IsLabel ∧ e.metric.IsLabel :=
      ((hopen.consistent ho.consistent).unique m e.metric _ hm
        (by rw [hfamily]; exact hopen.handle)).resolve_left fun heq => hsame heq.symm
    have hslot := Metric.slot_eq_of_labels hlabels.1 hlabels.2 hfamily
    rcases hopen.old_cases hold with ⟨hcached, hreg⟩ | ⟨hnone, hfree, -⟩
    · have hbefore : (m.handle u o.node).isSome := by
        rw [Metric.handle, hslot]
        exact Option.isSome_iff_exists.mpr ⟨_, hcached⟩
      exact shows_label_beside hlabels hmetric hfamily hreg hw
        (htracks.shows m e₁ hlatest hbefore) (registry_written u t e new)
    · exact absurd (by rw [hmetric, hslot]) (ho.slot_ne hnone hfree e₁ he₁)
  · have hbefore : m.handle u o.node = some (m.family u) :=
      (hopen.handle_cases hm).resolve_right fun h' => hfamily h'.2
    refine (htracks.shows m e₁ hlatest (by rw [hbefore]; rfl)).congr ?_ ?_
    · rw [hmetric, registry_written_of_ne t hfamily, hopen.registry_of_ne hfamily]
    · intro name hname
      exact reports_of_ne fun heq => hsame (heq.trans (hname.symm.trans hmetric))

/-- Updates keep what the poller remembers and what is shown in step. -/
theorem Tracks.record (ho : Sound u o) (htracks : Tracks u x o) (h : record u x o e = some o') :
    Tracks u x o' := by
  obtain ⟨hupdates, hseen⟩ := record_updates ho h
  have hsound := ho.record h
  obtain ⟨s', seen'⟩ := o'
  simp only at hupdates hseen
  subst hseen
  cases hupdates with
  | refused hnone _ => exact htracks.refused hnone
  | @written t old new hopen hold hfits hw =>
    refine ⟨fun name hname => htracks.counts_written hopen hname, ?_⟩
    intro m e₁ hlatest hm
    by_cases hsame : e.metric = m
    · subst hsame
      rw [latest_self, Option.some.injEq] at hlatest
      subst hlatest
      exact shows_written ho htracks hopen hold hfits hw
    · rw [latest_of_ne hsame] at hlatest
      obtain ⟨f, hf⟩ := Option.isSome_iff_exists.mp hm
      obtain ⟨rfl, -⟩ := hsound.consistent.opened m f hf
      rw [handle_written] at hf
      exact htracks.shows_beside ho hopen hold hw hlatest hsame hf

theorem key_ne_empty {m : Metric} (h : isValidMetricName (m.family u) = true) :
    m.key u ≠ "" := by
  intro hkey
  have hfamily : m.family u = "" := by
    cases m with
    | counter name => exact congrArg (sanitiseName u) hkey
    | gauge name => exact congrArg (sanitiseName u) hkey
    | label name => exact congrArg (sanitiseName u) hkey
    | traceField metricName => exact hkey
  rw [hfamily] at h
  cases h

/-- A valid name is refused only for a metric that was reported in the same family. -/
theorem exists_of_refuses (ho : Sound u o) {m : Metric}
    (hvalid : isValidMetricName (m.family u) = true)
    (hr : o.node.registry.Refuses (m.family u) (m.key u)) :
    ∃ e ∈ o.seen, e.metric.handle u o.node = some (m.family u) := by
  have htaken : (o.node.registry (m.family u)).isSome := by
    rcases hr with h | h | ⟨family, h⟩
    · exact absurd h (key_ne_empty hvalid)
    · rw [hvalid] at h
      cases h
    · rw [h]
      rfl
  obtain ⟨m', hm'⟩ := ho.consistent.owned _ htaken
  obtain ⟨e, he, hslot⟩ := ho.reported m' _ hm'
  exact ⟨e, he, by rwa [Metric.handle, hslot]⟩

/-- An update keeps everything exported exactly when it does not clash. -/
theorem exported_step_iff (ho : Sound u o) (htracks : Tracks u x o) (hq : Exported u x o)
    (h : record u x o e = some o') : Exported u x o' ↔ NoClash u o e := by
  obtain ⟨hupdates, hseen⟩ := record_updates ho h
  have hsound := ho.record h
  have htracks' := htracks.record ho h
  constructor
  · intro hq' hvalid e' he' hfamily
    have hcached : ∀ e₁ ∈ o'.seen, e₁.metric.family u = e.metric.family u →
        e₁.metric.handle u o'.node = some (e.metric.family u) := by
      intro e₁ he₁ hsame
      obtain ⟨e₂, hlatest⟩ := exists_latest he₁
      obtain ⟨hhandle, -⟩ := hq' _ e₂ hlatest (by rw [hsame]; exact hvalid)
      obtain ⟨f, hf⟩ := Option.isSome_iff_exists.mp hhandle
      rw [hf, (hsound.consistent.opened _ f hf).1, hsame]
    rw [hseen] at hcached
    exact hsound.consistent.unique _ _ _ (hcached e' (List.mem_cons_of_mem _ he') hfamily)
      (hcached e (List.mem_cons_self ..) rfl)
  · intro hclash m e₁ hlatest hvalid
    suffices hhandle : (m.handle u o'.node).isSome from
      ⟨hhandle, htracks'.shows m e₁ hlatest hhandle⟩
    rw [hseen] at hlatest
    by_cases hsame : e.metric = m
    · subst hsame
      generalize o'.node = s' at hupdates
      cases hupdates with
      | written hopen hold hfits hw =>
        rw [handle_written, hopen.handle]
        rfl
      | refused hnone hr =>
        obtain ⟨e', he', hhandle⟩ := exists_of_refuses ho hvalid hr
        have hfamily := (ho.consistent.opened _ _ hhandle).1.symm
        rcases hclash hvalid e' he' hfamily with heq | ⟨hlabel', hlabel⟩
        · rw [heq, hnone] at hhandle
          cases hhandle
        · rw [Metric.handle, Metric.slot_eq_of_labels hlabel' hlabel hfamily] at hhandle
          rw [Metric.handle, hhandle] at hnone
          cases hnone
    · rw [latest_of_ne hsame] at hlatest
      obtain ⟨f, hf⟩ := Option.isSome_iff_exists.mp (hq m e₁ hlatest hvalid).1
      exact Option.isSome_iff_exists.mpr ⟨f, hupdates.handle_mono hf⟩

/-! The very values of counters. -/

/-- The reports of every counter with a valid name add up to the latest of them. -/
def AddsUp (u : Unicode) (o : Observed F) : Prop :=
  ∀ name v, (reports name o.seen).head? = some v →
    isValidMetricName (Metric.family u (.counter name)) = true →
    ∃ n, accumulated (reports name o.seen) = some n ∧ (n.toNat : ℤ) = v.toInt

theorem toNat_increase {prev v : Int64} (hprev : 0 ≤ prev.toInt) :
    (increase prev v : ℤ) = max (v.toInt - prev.toInt) 0 := by
  have hhi := v.toInt_lt
  simp only [increase, saturatingSub]
  omega

theorem accumulated_cons {earlier : List Int64} {prev : Int64}
    (hprev : earlier.head?.getD 0 = prev) (v : Int64) :
    accumulated (v :: earlier) =
      if 0 < increase prev v then
        some ((accumulated earlier).getD 0 + UInt64.ofNat (increase prev v))
      else accumulated earlier := by
  subst hprev
  rfl

/-- A further report adds up exactly when it is not below the one before, or is positive
where there is none. -/
theorem addsUp_cons_iff {earlier : List Int64} {v : Int64}
    (h : ∀ prev, earlier.head? = some prev →
      ∃ n, accumulated earlier = some n ∧ (n.toNat : ℤ) = prev.toInt) :
    (∃ n, accumulated (v :: earlier) = some n ∧ (n.toNat : ℤ) = v.toInt) ↔
      match earlier.head? with
      | none => 0 < v.toInt
      | some prev => prev.toInt ≤ v.toInt := by
  have hhi := v.toInt_lt
  cases hhead : earlier.head? with
  | none =>
    have hnil : earlier = [] := List.head?_eq_none_iff.mp hhead
    subst hnil
    have hincrease : (increase 0 v : ℤ) = max (v.toInt - 0) 0 := toNat_increase (by decide)
    rw [@accumulated_cons [] 0 rfl v]
    by_cases hpos : 0 < increase 0 v
    · rw [if_pos hpos]
      refine iff_of_true ⟨_, rfl, ?_⟩ (by omega)
      rw [accumulated, Option.getD_none, UInt64.zero_add, UInt64.toNat_ofNat']
      omega
    · rw [if_neg hpos]
      refine iff_of_false ?_ (by omega)
      intro h'
      obtain ⟨n, hn, -⟩ := h'
      cases hn
  | some prev =>
    obtain ⟨n, hn, hprev⟩ := h prev hhead
    have hincrease := @toNat_increase prev v (by omega)
    rw [accumulated_cons (by rw [hhead]; rfl : earlier.head?.getD 0 = prev), hn]
    by_cases hpos : 0 < increase prev v
    · rw [if_pos hpos]
      refine iff_of_true ⟨_, rfl, ?_⟩ (by omega)
      rw [Option.getD_some, UInt64.toNat_add, UInt64.toNat_ofNat']
      omega
    · rw [if_neg hpos]
      simp only [Option.some.injEq, exists_eq_left']
      omega

/-- Reports go on adding up exactly when they rise. -/
theorem addsUp_step_iff (hq : AddsUp u o) (h : record u x o e = some o') :
    AddsUp u o' ↔ Rising u o e := by
  obtain ⟨s, -, rfl⟩ := Option.map_eq_some_iff.mp h
  have hself : ∀ name v, isValidMetricName (Metric.family u (.counter name)) = true →
      ((∃ n, accumulated (v :: reports name o.seen) = some n ∧ (n.toNat : ℤ) = v.toInt) ↔
        match (reports name o.seen).head? with
        | none => 0 < v.toInt
        | some prev => prev.toInt ≤ v.toInt) := by
    intro name v hvalid
    exact addsUp_cons_iff fun prev hprev => hq name prev hprev hvalid
  constructor
  · intro hq' name v he hvalid
    subst he
    have hsum := hq' name v (by rw [reports_self]; rfl) hvalid
    rw [reports_self] at hsum
    exact (hself name v hvalid).mp hsum
  · intro hrising name v hhead hvalid
    by_cases he : e.metric = .counter name
    · rcases e with ⟨name', v' | v' | text⟩ | ⟨metricName, value⟩
      · obtain rfl : name' = name := Metric.counter.inj he
        rw [reports_self] at hhead ⊢
        obtain rfl : v' = v := Option.some.inj hhead
        exact (hself name' v' hvalid).mpr (hrising name' v' rfl hvalid)
      · cases he
      · cases he
      · cases he
    · rw [reports_of_ne he] at hhead ⊢
      exact hq name v hhead hvalid

/-- Counters apart, to show what was reported is to show the latest value. -/
theorem exportedLatest_iff (htracks : Tracks u x o) :
    ExportedLatest u x o ↔ Exported u x o ∧ AddsUp u o := by
  constructor
  · intro hq
    constructor
    · intro m e hlatest hvalid
      obtain ⟨hhandle, -⟩ := hq m e hlatest hvalid
      exact ⟨hhandle, htracks.shows m e hlatest hhandle⟩
    · intro name v hhead hvalid
      have hlatest := latest_counter_iff.mpr hhead
      obtain ⟨hhandle, n, hn, hv⟩ := hq _ _ hlatest hvalid
      have hshows := htracks.shows _ _ hlatest hhandle
      exact ⟨n, hshows.symm.trans hn, hv⟩
  · intro h' m e hlatest hvalid
    obtain ⟨hq, hsum⟩ := h'
    obtain ⟨hhandle, hshows⟩ := hq m e hlatest hvalid
    refine ⟨hhandle, ?_⟩
    rcases e with ⟨name, v | v | text⟩ | ⟨metricName, value⟩
    · obtain ⟨rfl, -⟩ := metric_of_latest hlatest
      obtain ⟨n, hn, hv⟩ := hsum name v (latest_counter_iff.mp hlatest) hvalid
      exact ⟨n, hshows.trans hn, hv⟩
    · exact hshows
    · exact hshows
    · exact hshows

end Step

theorem tracks_new (u : Unicode) (x : F64 F) : Tracks u x Observed.new where
  counts _ h := by cases h
  shows _ _ h := by cases h

theorem exported_new (u : Unicode) (x : F64 F) : Exported u x Observed.new := by
  intro m e h
  cases h

theorem addsUp_new (u : Unicode) : AddsUp u (Observed.new : Observed F) := by
  intro name v h
  cases h

/-- In all states of a run every metric with a valid name is exported with what was reported
of it, exactly when no metric comes into a family of another. The counters among them show
their very latest values exactly when, besides, their reports do not fall. -/
theorem exported_iff_noClash (u : Unicode) (x : F64 F) (es : List (Event F)) :
    ((∀ o, Reached (record u x) Observed.new es o → Exported u x o) ↔
      Along (record u x) (fun o e => NoClash u o e) Observed.new es) ∧
    ((∀ o, Reached (record u x) Observed.new es o → ExportedLatest u x o) ↔
      Along (record u x) (fun o e => NoClash u o e ∧ Rising u o e) Observed.new es) := by
  obtain ⟨o, hrun⟩ := run_record_defined (x := x) (sound_new (u := u)) es
  constructor
  · refine reached_iff_along (I := fun o => Sound u o ∧ Tracks u x o) ?_
      ⟨sound_new, tracks_new u x⟩ (exported_new u x) hrun
    intro o e o' hI hQ hrecord
    obtain ⟨hsound, htracks⟩ := hI
    exact ⟨⟨hsound.record hrecord, htracks.record hsound hrecord⟩,
      exported_step_iff hsound htracks hQ hrecord⟩
  · refine reached_iff_along (I := fun o => Sound u o ∧ Tracks u x o) ?_
      ⟨sound_new, tracks_new u x⟩
      ((exportedLatest_iff (tracks_new u x)).mpr ⟨exported_new u x, addsUp_new u⟩) hrun
    intro o e o' hI hQ hrecord
    obtain ⟨hsound, htracks⟩ := hI
    have htracks' := htracks.record hsound hrecord
    obtain ⟨hexported, hsum⟩ := (exportedLatest_iff htracks).mp hQ
    refine ⟨⟨hsound.record hrecord, htracks'⟩, ?_⟩
    rw [exportedLatest_iff htracks', exported_step_iff hsound htracks hexported hrecord,
      addsUp_step_iff hsum hrecord]

/-- Two gauges whose names are the same when they are sanitised: the second is never
registered, and what the registry has under its name is the value of the first. -/
theorem second_gauge_lost :
    ∃ o, run (record .ascii ⟨Int64.toInt, 1⟩) Observed.new
        [.ekg "mem.used" (.gauge 1), .ekg "mem_used" (.gauge 2)] = some o ∧
      latest (.gauge "mem_used") o.seen = some (.ekg "mem_used" (.gauge 2)) ∧
      o.node.registry.gaugeValue "mem_used" [] = some 1 ∧
      ¬ Exported .ascii ⟨Int64.toInt, 1⟩ o ∧ ¬ ExportedLatest .ascii ⟨Int64.toInt, 1⟩ o := by
  obtain ⟨o, hrun⟩ := run_record_defined (x := ⟨Int64.toInt, 1⟩)
    (sound_new (u := Unicode.ascii)) [.ekg "mem.used" (.gauge 1), .ekg "mem_used" (.gauge 2)]
  have hseen : o.seen = [.ekg "mem_used" (.gauge 2), .ekg "mem.used" (.gauge 1)] :=
    (run_record_iff.mp hrun).2
  have hfacts : (run (record .ascii ⟨Int64.toInt, 1⟩) Observed.new
        [.ekg "mem.used" (.gauge 1), .ekg "mem_used" (.gauge 2)]).map (fun o =>
      (o.node.registry.gaugeValue "mem_used" [],
        (Metric.handle .ascii o.node (.gauge "mem_used")).isSome)) =
      some (some 1, false) := by
    decide +kernel
  simp only [hrun, Option.map_some, Option.some.injEq, Prod.mk.injEq] at hfacts
  obtain ⟨hone, hhandle⟩ := hfacts
  have hlatest : latest (.gauge "mem_used") o.seen = some (.ekg "mem_used" (.gauge 2)) := by
    rw [hseen]
    exact latest_self (.ekg "mem_used" (.gauge 2)) _
  have hvalid : isValidMetricName (Metric.family .ascii (.gauge "mem_used")) = true := by
    decide
  refine ⟨o, hrun, hlatest, hone, ?_, ?_⟩
  · intro hq
    rw [(hq _ _ hlatest hvalid).1] at hhandle
    cases hhandle
  · intro hq
    rw [(hq _ _ hlatest hvalid).1] at hhandle
    cases hhandle

end Hermod.MetricInterference
