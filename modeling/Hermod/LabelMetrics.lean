import Hermod.NodeMetrics

/-!
Labels of the EKG store. A label is exported as a gauge of value one whose label holds the
text. The gauge gets a series for each text it was ever set for and none is taken away, so
that what the registry says of a label is its current text only as long as the text stays.
-/
namespace Hermod.LabelMetrics

open EkgMessages (EkgValue)
open EkgPoller
open MetricsRegistry
open TracerState (Unicode)
open Transitions

variable {F : Type}

def latestValue (name : String) (seen : List (Event F)) : Option EkgValue :=
  seen.findSome? fun
    | .ekg name' value => if name' = name then some value else none
    | .traceField _ _ => none

/-- For every name whose latest value is a label and whose info gauge is registered, the
series that say one are that of the latest text and no other. -/
def CurrentTexts (u : Unicode) (x : F64 F) (o : Observed F) : Prop :=
  ∀ name text, latestValue name o.seen = some (.label text) →
    (Metric.handle u o.node (.label name)).isSome →
    ∃ vec, o.node.registry (Metric.family u (.label name)) = some (.gauge vec) ∧
      ∀ values, vec.series values = some x.one ↔ values = [text]

/-- A label is reported with the only text for which its info gauge, if it is registered,
has a series. -/
def Keeps (u : Unicode) (o : Observed F) (e : Event F) : Prop :=
  ∀ name text vec, e = .ekg name (.label text) →
    (Metric.handle u o.node (.label name)).isSome →
    o.node.registry (Metric.family u (.label name)) = some (.gauge vec) →
    ∀ values, vec.series values ≠ none → values = [text]

def Ones (u : Unicode) (x : F64 F) (o : Observed F) : Prop :=
  ∀ name vec, (Metric.handle u o.node (.label name)).isSome →
    o.node.registry (Metric.family u (.label name)) = some (.gauge vec) →
    ∀ values y, vec.series values = some y → y = x.one

section Step

variable {u : Unicode} {x : F64 F} {o o' : Observed F} {e : Event F}

theorem latestValue_of_ne {name : String} (h : ∀ value, e ≠ .ekg name value)
    (seen : List (Event F)) : latestValue name (e :: seen) = latestValue name seen := by
  rcases e with ⟨name', value⟩ | ⟨metricName, value⟩
  · have hne : name' ≠ name := fun heq => h value (by rw [heq])
    simp [latestValue, hne]
  · simp [latestValue]

theorem latestValue_self (name : String) (value : EkgValue) (seen : List (Event F)) :
    latestValue name (.ekg name value :: seen) = some value := by
  simp [latestValue]

/-- A label whose latest text is not that of the last report was reported before. -/
theorem exists_of_latestValue {name text : String} {seen : List (Event F)}
    (h : latestValue name seen = some (.label text)) : .ekg name (.label text) ∈ seen := by
  obtain ⟨e, he, hvalue⟩ := List.exists_of_findSome?_eq_some h
  rcases e with ⟨name', value⟩ | ⟨metricName, value⟩
  · simp only at hvalue
    split at hvalue
    · rename_i hname
      rw [Option.some.injEq] at hvalue
      rwa [hname, hvalue] at he
    · cases hvalue
  · cases hvalue

/-- An update of something else leaves the info gauges as they are. -/
theorem label_untouched (ho : Sound u o) (h : record u x o e = some o') {name : String}
    (hne : e.metric.slot u ≠ Metric.slot u (.label name))
    (hhandle : (Metric.handle u o'.node (.label name)).isSome) :
    (Metric.handle u o.node (.label name)).isSome ∧
      o'.node.registry (Metric.family u (.label name)) =
        o.node.registry (Metric.family u (.label name)) := by
  obtain ⟨hupdates, -⟩ := record_updates ho h
  have hsound := ho.record h
  obtain ⟨f, hf⟩ := Option.isSome_iff_exists.mp hhandle
  obtain ⟨rfl, -⟩ := hsound.consistent.opened _ f hf
  have hunique := hsound.consistent.unique e.metric (.label name)
  generalize o'.node = s' at hupdates hf hunique
  cases hupdates with
  | refused _ _ => exact ⟨by rw [hf]; rfl, rfl⟩
  | @written t old new hopen hold hfits hw =>
    rw [handle_written] at hf
    have hfamily : Metric.family u (.label name) ≠ e.metric.family u := by
      intro heq
      rcases hunique _ (by rw [heq]; exact hopen.handle) hf with hsame | ⟨hlabel, hlabel'⟩
      · exact hne (by rw [hsame])
      · exact hne (Metric.slot_eq_of_labels hlabel hlabel' heq.symm)
    have hbefore : Metric.handle u o.node (.label name) = some (Metric.family u (.label name)) :=
      (hopen.handle_cases hf).resolve_right fun h' => hne h'.1.symm
    refine ⟨by rw [hbefore]; rfl, ?_⟩
    rw [registry_written_of_ne t hfamily, hopen.registry_of_ne hfamily]

/-- What a report of a label does to its info gauge: unless it is refused, the gauge has
what it had, or nothing if it is new, and one for the text. -/
theorem label_written (ho : Sound u o) {name text : String}
    (h : record u x o (.ekg name (.label text)) = some o')
    (hhandle : (Metric.handle u o'.node (.label name)).isSome) :
    ∃ vec, o'.node.registry (Metric.family u (.label name)) = some (.gauge (vec.put [text] x.one)) ∧
      ((Metric.handle u o.node (.label name)).isSome ∧
          o.node.registry (Metric.family u (.label name)) = some (.gauge vec) ∨
        Metric.handle u o.node (.label name) = none ∧ vec = .new ["value"] ∧
          ¬ o.node.registry.Refuses (Metric.family u (.label name))
            (Metric.key u (.label name))) := by
  obtain ⟨hupdates, -⟩ := record_updates ho h
  generalize o'.node = s' at hupdates hhandle
  cases hupdates with
  | refused hnone _ =>
    change Metric.handle u o.node (.label name) = none at hnone
    rw [hnone] at hhandle
    cases hhandle
  | @written t old new hopen hold hfits hw =>
    have hgauge : ∃ vec, old = .gauge vec ∧ vec.labels = ["value"] := by
      cases old with
      | gauge vec => exact ⟨vec, rfl, hfits⟩
      | counter vec => exact hfits.elim
    obtain ⟨vec, rfl, hlabels⟩ := hgauge
    rw [Event.write, Family.set_gauge (by rw [hlabels]; rfl), Option.some.injEq] at hw
    subst hw
    refine ⟨vec, registry_written u t (.ekg name (.label text)) _, ?_⟩
    rcases hopen.old_cases hold with ⟨hcached, hreg⟩ | ⟨hnone, hfree, hfresh⟩
    · exact Or.inl ⟨Option.isSome_iff_exists.mpr ⟨_, hcached⟩, hreg⟩
    · exact Or.inr ⟨hnone, Family.gauge.inj hfresh, hfree⟩

/-- An update that is not a report of a label in the same family. -/
theorem slot_ne_or_label (u : Unicode) (e : Event F) (name : String) :
    e.metric.slot u ≠ Metric.slot u (.label name) ∨ ∃ name' text, e = .ekg name' (.label text) ∧
      Metric.slot u (.label name') = Metric.slot u (.label name) := by
  by_cases hslot : e.metric.slot u = Metric.slot u (.label name)
  · refine Or.inr ?_
    rcases e with ⟨name', v | v | text⟩ | ⟨metricName, value⟩
    · cases congrArg Prod.fst hslot
    · cases congrArg Prod.fst hslot
    · exact ⟨name', text, rfl, hslot⟩
    · cases congrArg Prod.fst hslot
  · exact Or.inl hslot

/-- Updates write nothing but one into info gauges. -/
theorem Ones.record (ho : Sound u o) (hones : Ones u x o) (h : record u x o e = some o') :
    Ones u x o' := by
  intro name vec hhandle hvec values y hy
  rcases slot_ne_or_label u e name with hne | ⟨name', text, rfl, hslot⟩
  · obtain ⟨hbefore, hsame⟩ := label_untouched ho h hne hhandle
    exact hones name vec hbefore (hsame ▸ hvec) values y hy
  · have hfamily := (Metric.eq_of_slot hslot).1
    rw [← hfamily] at hvec
    have hhandle' : (Metric.handle u o'.node (.label name')).isSome := by
      rwa [Metric.handle, hslot]
    obtain ⟨old, hnew, hold⟩ := label_written ho h hhandle'
    rw [hvec, Option.some.injEq, Family.gauge.injEq] at hnew
    subst hnew
    by_cases hvalues : values = [text]
    · subst hvalues
      rw [SeriesVec.series_put_self, Option.some.injEq] at hy
      exact hy.symm
    · rw [SeriesVec.series_put_of_ne old hvalues] at hy
      rcases hold with ⟨hcached, hreg⟩ | ⟨-, rfl, -⟩
      · exact hones name' old hcached hreg values y hy
      · cases hy

/-- After a report of a label that keeps its text, the info gauge has that text alone. -/
theorem series_of_keeps (ho : Sound u o) {name text : String}
    (h : record u x o (.ekg name (.label text)) = some o')
    (hkeeps : Keeps u o (.ekg name (.label text)))
    (hhandle : (Metric.handle u o'.node (.label name)).isSome) :
    ∃ vec, o'.node.registry (Metric.family u (.label name)) = some (.gauge vec) ∧
      ∀ values, vec.series values = some x.one ↔ values = [text] := by
  obtain ⟨old, hnew, hold⟩ := label_written ho h hhandle
  refine ⟨old.put [text] x.one, hnew, fun values => ?_⟩
  by_cases hvalues : values = [text]
  · subst hvalues
    rw [SeriesVec.series_put_self]
    exact iff_of_true rfl rfl
  · rw [SeriesVec.series_put_of_ne old hvalues]
    refine iff_of_false ?_ hvalues
    intro hone
    rcases hold with ⟨hcached, hreg⟩ | ⟨-, rfl, -⟩
    · have hsome : old.series values ≠ none := by
        rw [hone]
        exact Option.some_ne_none _
      exact hvalues (hkeeps name text old rfl hcached hreg values hsome)
    · cases hone

/-- Where the texts are current after a report of a label, it has kept the text. -/
theorem keeps_of_currentTexts (ho : Sound u o) (hones : Ones u x o)
    (h : record u x o e = some o') (hq : CurrentTexts u x o') : Keeps u o e := by
  obtain ⟨hupdates, hseen⟩ := record_updates ho h
  intro name text vec he hhandle hvec values hvalues
  subst he
  have hhandle' : (Metric.handle u o'.node (.label name)).isSome := by
    obtain ⟨f, hf⟩ := Option.isSome_iff_exists.mp hhandle
    exact Option.isSome_iff_exists.mpr ⟨f, hupdates.handle_mono hf⟩
  obtain ⟨old, hnew, hold⟩ := label_written ho h hhandle'
  have hsame : old = vec := by
    rcases hold with ⟨-, hreg⟩ | ⟨hnone, -⟩
    · rw [hvec, Option.some.injEq, Family.gauge.injEq] at hreg
      exact hreg.symm
    · rw [hnone] at hhandle
      cases hhandle
  subst hsame
  obtain ⟨new, hreg, hone⟩ := hq name text (by rw [hseen, latestValue_self]) hhandle'
  rw [hnew, Option.some.injEq, Family.gauge.injEq] at hreg
  subst hreg
  by_contra hne
  obtain ⟨y, hy⟩ := Option.ne_none_iff_exists'.mp hvalues
  have hyone := hones name old hhandle hvec values y hy
  apply hne
  rw [← hone, SeriesVec.series_put_of_ne old hne, hy, hyone]

/-- Another label in the same family has the text that is kept. -/
theorem text_of_keeps (ho : Sound u o) (hq : CurrentTexts u x o) {name name' text text' : String}
    (h : record u x o (.ekg name' (.label text')) = some o')
    (hkeeps : Keeps u o (.ekg name' (.label text')))
    (hslot : Metric.slot u (.label name') = Metric.slot u (.label name))
    (hhandle : (Metric.handle u o'.node (.label name')).isSome)
    (hlatest : latestValue name o.seen = some (.label text)) : text = text' := by
  obtain ⟨vec, hnew, hold⟩ := label_written ho h hhandle
  rcases hold with ⟨hcached, hreg⟩ | ⟨hnone, -, hfree⟩
  · have hcached' : (Metric.handle u o.node (.label name)).isSome := by
      rwa [Metric.handle, ← hslot]
    obtain ⟨vec', hreg', hone⟩ := hq name text hlatest hcached'
    rw [← (Metric.eq_of_slot hslot).1, hreg, Option.some.injEq, Family.gauge.injEq] at hreg'
    subst hreg'
    have hsome : vec.series [text] ≠ none := by
      rw [(hone [text]).mpr rfl]
      exact Option.some_ne_none _
    exact List.singleton_inj.mp (hkeeps name' text' vec rfl hcached hreg [text] hsome)
  · exact absurd hslot.symm (ho.slot_ne hnone hfree _ (exists_of_latestValue hlatest))

/-- While every label keeps its text, the series stay current. -/
theorem CurrentTexts.record (ho : Sound u o) (hq : CurrentTexts u x o)
    (h : record u x o e = some o') (hkeeps : Keeps u o e) : CurrentTexts u x o' := by
  have hseen := (record_updates ho h).2
  intro name text hlatest hhandle
  rw [hseen] at hlatest
  rcases slot_ne_or_label u e name with hne | ⟨name', text', rfl, hslot⟩
  · -- Nothing about this info gauge has changed.
    obtain ⟨hbefore, hsame⟩ := label_untouched ho h hne hhandle
    rw [hsame]
    refine hq name text ?_ hbefore
    by_cases he : ∃ value, e = .ekg name value
    · obtain ⟨value, rfl⟩ := he
      rw [latestValue_self, Option.some.injEq] at hlatest
      subst hlatest
      exact absurd rfl hne
    · rwa [latestValue_of_ne fun value heq => he ⟨value, heq⟩] at hlatest
  · have hhandle' : (Metric.handle u o'.node (.label name')).isSome := by
      rwa [Metric.handle, hslot]
    rw [← (Metric.eq_of_slot hslot).1]
    by_cases hname : name' = name
    · subst hname
      rw [latestValue_self, Option.some.injEq, EkgValue.label.injEq] at hlatest
      subst hlatest
      exact series_of_keeps ho h hkeeps hhandle'
    · rw [latestValue_of_ne fun value heq => hname (Event.ekg.inj heq).1] at hlatest
      rw [text_of_keeps ho hq h hkeeps hslot hhandle' hlatest]
      exact series_of_keeps ho h hkeeps hhandle'

theorem currentTexts_step_iff (ho : Sound u o) (hones : Ones u x o) (hq : CurrentTexts u x o)
    (h : record u x o e = some o') : CurrentTexts u x o' ↔ Keeps u o e :=
  ⟨keeps_of_currentTexts ho hones h, hq.record ho h⟩

end Step

theorem ones_new (u : Unicode) (x : F64 F) : Ones u x Observed.new := by
  intro name vec h
  cases h

theorem currentTexts_new (u : Unicode) (x : F64 F) : CurrentTexts u x Observed.new := by
  intro name text h
  cases h

/-- The registry says of every label its latest text and nothing else, in all states of a
run, exactly when no label is ever reported with another text than its info gauge has. -/
theorem currentTexts_iff_keeps (u : Unicode) (x : F64 F) (es : List (Event F)) :
    (∀ o, Reached (record u x) Observed.new es o → CurrentTexts u x o) ↔
      Along (record u x) (fun o e => Keeps u o e) Observed.new es := by
  obtain ⟨o, hrun⟩ := run_record_defined (x := x) (sound_new (u := u)) es
  refine reached_iff_along (I := fun o => Sound u o ∧ Ones u x o) ?_
    ⟨sound_new, ones_new u x⟩ (currentTexts_new u x) hrun
  intro o e o' hI hQ hrecord
  obtain ⟨hsound, hones⟩ := hI
  exact ⟨⟨hsound.record hrecord, hones.record hsound hrecord⟩,
    currentTexts_step_iff hsound hones hQ hrecord⟩

/-- A label that changes from one text to another is exported with both. -/
theorem both_texts_exported :
    ∃ o, run (record .ascii ⟨Int64.toInt, 1⟩) Observed.new
        [.ekg "version" (.label "1"), .ekg "version" (.label "2")] = some o ∧
      latestValue "version" o.seen = some (.label "2") ∧
      o.node.registry.gaugeValue "version_info" ["1"] = some 1 ∧
      o.node.registry.gaugeValue "version_info" ["2"] = some 1 ∧
      ¬ CurrentTexts .ascii ⟨Int64.toInt, 1⟩ o := by
  obtain ⟨o, hrun⟩ := run_record_defined (x := ⟨Int64.toInt, 1⟩)
    (sound_new (u := Unicode.ascii)) [.ekg "version" (.label "1"), .ekg "version" (.label "2")]
  have hfacts : (run (record .ascii ⟨Int64.toInt, 1⟩) Observed.new
        [.ekg "version" (.label "1"), .ekg "version" (.label "2")]).map (fun o =>
      (latestValue "version" o.seen, o.node.registry.gaugeValue "version_info" ["1"],
        o.node.registry.gaugeValue "version_info" ["2"],
        (Metric.handle .ascii o.node (.label "version")).isSome)) =
      some (some (.label "2"), some 1, some 1, true) := by
    decide
  simp only [hrun, Option.map_some, Option.some.injEq, Prod.mk.injEq] at hfacts
  obtain ⟨hlatest, hone, htwo, hhandle⟩ := hfacts
  refine ⟨o, hrun, hlatest, hone, htwo, ?_⟩
  intro h
  obtain ⟨vec, hvec, hiff⟩ := h "version" "2" hlatest hhandle
  have hname : Metric.family .ascii (.label "version") = "version_info" := by decide
  rw [hname] at hvec
  simp only [Registry.gaugeValue, hvec] at hone
  exact absurd ((hiff ["1"]).mp hone) (by decide)

end Hermod.LabelMetrics
