import Hermod.MetricInterference
import Hermod.Significands

/-!
What the counters of a node add up to. A report that exceeds the one before adds the
difference, and nothing else moves the counter. But the counter must have got its family,
which the first metric that is reported in it takes, and it is exported as a `f64`, which has
no value for every sum.
-/
namespace Hermod.CounterTotals

open EkgPoller MetricInterference MetricsRegistry
open Significands (toF64 toF64_mono toF64_nonneg)
open TracerState (Unicode)
open Transitions

variable {F : Type}

/-- The sum of the increases over the reports, the latest of which comes first. Before the
first the value is zero. -/
def total : List Int64 → ℤ
  | [] => 0
  | v :: earlier => total earlier + max 0 (v.toInt - (earlier.head?.getD 0).toInt)

def Countable (vs : List Int64) : Prop := (∀ v ∈ vs, 0 ≤ v.toInt) ∧ total vs < 2 ^ 64

def NonDecreasing (vs : List Int64) : Prop := vs.Pairwise fun v earlier => earlier.toInt ≤ v.toInt

def IsExported (u : Unicode) (name : String) (o : Observed F) : Prop :=
  (Metric.handle u o.node (.counter name)).isSome

instance (u : Unicode) (name : String) (o : Observed F) : Decidable (IsExported u name o) :=
  inferInstanceAs (Decidable (_ = true))

/-- The series of the counter, which is there from the first increase on. -/
def series (u : Unicode) (name : String) (o : Observed F) : Option UInt64 :=
  o.node.registry.counterValue (Metric.family u (.counter name)) []

/-- What the registry gives for the 64-bit number in a counter, which it casts. -/
def gathered (value : Option UInt64) : ℤ := toF64 (value.getD 0).toNat

def exported (u : Unicode) (name : String) (o : Observed F) : ℤ :=
  if IsExported u name o then gathered (series u name o) else 0

/-- A counter that was reported is exported with the sum of its increases, which is the
latest report where they only rose. -/
def Accumulates (u : Unicode) (name : String) (o : Observed F) : Prop :=
  reports name o.seen ≠ [] → Countable (reports name o.seen) →
    IsExported u name o ∧ exported u name o = total (reports name o.seen) ∧
      ∀ v, (reports name o.seen).head? = some v → NonDecreasing (reports name o.seen) →
        exported u name o = v.toInt

/-- The same, where a sum of zero too has a series. -/
def AccumulatesVisibly (u : Unicode) (name : String) (o : Observed F) : Prop :=
  Accumulates u name o ∧
    (reports name o.seen ≠ [] → Countable (reports name o.seen) → (series u name o).isSome)

/-- The first report of the counter finds a valid name in which nothing else was reported. -/
def FindsFree (u : Unicode) (name : String) (o : Observed F) (e : Event F) : Prop :=
  ∀ v, e = .ekg name (.counter v) → 0 ≤ v.toInt → reports name o.seen = [] →
    isValidMetricName (Metric.family u (.counter name)) = true ∧
      ∀ e' ∈ o.seen, e'.metric.family u ≠ Metric.family u (.counter name)

def SumExact (name : String) (o : Observed F) (e : Event F) : Prop :=
  ∀ v, e = .ekg name (.counter v) → Countable (v :: reports name o.seen) →
    toF64 (total (v :: reports name o.seen)) = total (v :: reports name o.seen)

def BeginsAbove (name : String) (o : Observed F) (e : Event F) : Prop :=
  ∀ v, e = .ekg name (.counter v) → 0 ≤ v.toInt → reports name o.seen = [] → 0 < v.toInt

/-! Sums. -/

section Sums

variable {v : Int64} {vs : List Int64}

theorem total_le_cons (v : Int64) (vs : List Int64) : total vs ≤ total (v :: vs) := by
  rw [total]
  omega

theorem Countable.tail (h : Countable (v :: vs)) : Countable vs := by
  have hle := total_le_cons v vs
  have hlt := h.2
  exact ⟨fun w hw => h.1 w (List.mem_cons_of_mem _ hw), by omega⟩

/-- The value before a report is not negative. -/
theorem Countable.head_nonneg (h : Countable vs) : 0 ≤ (vs.head?.getD 0).toInt := by
  cases vs with
  | nil => decide
  | cons w ws => exact h.1 w (List.mem_cons_self ..)

/-- What the poller adds up is the sum. -/
theorem accumulated_total (h : Countable vs) :
    (((accumulated vs).getD 0).toNat : ℤ) = total vs := by
  induction vs with
  | nil => rfl
  | cons v vs ih =>
    have hsum := ih h.tail
    have hincrease := @toNat_increase _ v h.tail.head_nonneg
    have hlt := h.2
    rw [total] at hlt ⊢
    rw [accumulated_cons rfl]
    by_cases hpos : 0 < increase (vs.head?.getD 0) v
    · rw [if_pos hpos, Option.getD_some, UInt64.toNat_add, UInt64.toNat_ofNat']
      omega
    · rw [if_neg hpos]
      omega

theorem gathered_accumulated (h : Countable vs) : gathered (accumulated vs) = toF64 (total vs) := by
  rw [gathered, accumulated_total h]

theorem accumulated_isSome_cons (h : (accumulated vs).isSome) :
    (accumulated (v :: vs)).isSome := by
  rw [accumulated_cons rfl]
  split
  · rfl
  · exact h

theorem accumulated_single_iff (h : 0 ≤ v.toInt) : (accumulated [v]).isSome ↔ 0 < v.toInt := by
  have hincrease : (increase 0 v : ℤ) = max (v.toInt - 0) 0 := toNat_increase (by decide)
  rw [@accumulated_cons [] 0 rfl v]
  by_cases hpos : 0 < increase 0 v
  · rw [if_pos hpos]
    exact iff_of_true rfl (by omega)
  · rw [if_neg hpos]
    exact iff_of_false Bool.false_ne_true (by omega)

/-- Increases of reports that only rise add up to the latest report. -/
theorem total_eq_head (h : Countable (v :: vs)) (hrose : NonDecreasing (v :: vs)) :
    total (v :: vs) = v.toInt := by
  induction vs generalizing v with
  | nil =>
    have hnonneg := h.1 v (List.mem_cons_self ..)
    have hzero : (Option.getD (none : Option Int64) 0).toInt = 0 := by decide
    simp only [total, List.head?_nil, hzero]
    omega
  | cons w ws ih =>
    rw [NonDecreasing, List.pairwise_cons] at hrose
    have hle := hrose.1 w (List.mem_cons_self ..)
    rw [total, ih h.tail hrose.2, List.head?_cons, Option.getD_some]
    omega

theorem countable_single (h : 0 ≤ v.toInt) : Countable [v] := by
  have hzero : (Option.getD (none : Option Int64) 0).toInt = 0 := by decide
  have hlt := v.toInt_lt
  refine ⟨fun w hw => by rwa [List.mem_singleton.mp hw], ?_⟩
  simp only [total, List.head?_nil, hzero]
  omega

end Sums

/-! What the registry shows. -/

section Shown

variable {u : Unicode} {x : F64 F} {name : String} {o o' : Observed F} {e : Event F}

theorem exists_latest_of_reports {seen : List (Event F)} (h : reports name seen ≠ []) :
    ∃ v, (reports name seen).head? = some v ∧
      latest (.counter name) seen = some (.ekg name (.counter v)) := by
  obtain ⟨v, vs, hvs⟩ := List.exists_cons_of_ne_nil h
  have hhead : (reports name seen).head? = some v := by rw [hvs, List.head?_cons]
  exact ⟨v, hhead, latest_counter_iff.mpr hhead⟩

/-- A counter that is exported was reported. -/
theorem reports_ne_nil (ho : Sound u o) (h : IsExported u name o) : reports name o.seen ≠ [] := by
  obtain ⟨f, hf⟩ := Option.isSome_iff_exists.mp h
  obtain ⟨e, he, hslot⟩ := ho.reported _ f hf
  have hmetric : e.metric = .counter name :=
    (Metric.eq_of_slot hslot).2.resolve_right fun h' => h'.2
  obtain ⟨e₁, hlatest⟩ := exists_latest he
  rw [hmetric] at hlatest
  intro hnil
  have hmem := metric_of_latest hlatest
  rcases e₁ with ⟨name', v | v | text⟩ | ⟨metricName, value⟩
  · obtain rfl : name' = name := Metric.counter.inj hmem.1
    have hhead := latest_counter_iff.mp hlatest
    rw [hnil] at hhead
    cases hhead
  · cases hmem.1
  · cases hmem.1
  · cases hmem.1

theorem exists_report (h : e.metric = .counter name) : ∃ v, e = .ekg name (.counter v) := by
  rcases e with ⟨name', v | v | text⟩ | ⟨metricName, value⟩
  · obtain rfl : name' = name := Metric.counter.inj h
    exact ⟨v, rfl⟩
  · cases h
  · cases h
  · cases h

theorem report_inj {v w : Int64}
    (h : (.ekg name (.counter v) : Event F) = .ekg name (.counter w)) : v = w :=
  EkgMessages.EkgValue.counter.inj (Event.ekg.inj h).2

theorem series_eq (htracks : Tracks u x o) (h : IsExported u name o)
    (hreports : reports name o.seen ≠ []) :
    series u name o = accumulated (reports name o.seen) := by
  obtain ⟨v, -, hlatest⟩ := exists_latest_of_reports hreports
  exact htracks.shows _ _ hlatest h

theorem exported_eq (ho : Sound u o) (htracks : Tracks u x o) (h : IsExported u name o)
    (hcount : Countable (reports name o.seen)) :
    exported u name o = toF64 (total (reports name o.seen)) := by
  rw [exported, if_pos h, series_eq htracks h (reports_ne_nil ho h), gathered_accumulated hcount]

/-- It only matters whether the counter is exported and its sum is one of `f64`. -/
theorem accumulates_iff (ho : Sound u o) (htracks : Tracks u x o) :
    Accumulates u name o ↔
      (reports name o.seen ≠ [] → Countable (reports name o.seen) → IsExported u name o ∧
        toF64 (total (reports name o.seen)) = total (reports name o.seen)) := by
  constructor
  · intro h hreports hcount
    obtain ⟨hexported, hsum, -⟩ := h hreports hcount
    rw [exported_eq ho htracks hexported hcount] at hsum
    exact ⟨hexported, hsum⟩
  · intro h hreports hcount
    obtain ⟨hexported, hexact⟩ := h hreports hcount
    have hsum := exported_eq ho htracks hexported hcount
    rw [hexact] at hsum
    refine ⟨hexported, hsum, ?_⟩
    intro v hhead hrose
    obtain ⟨vs, hvs⟩ := List.head?_eq_some_iff.mp hhead
    rw [hvs] at hcount hrose hsum
    rw [hsum, total_eq_head hcount hrose]

/-- The exported value does not go down. -/
theorem exported_le (ho : Sound u o) (htracks : Tracks u x o) (h : record u x o e = some o')
    (hcount : Countable (reports name o'.seen)) : exported u name o ≤ exported u name o' := by
  obtain ⟨hupdates, hseen⟩ := record_updates ho h
  by_cases hexported : IsExported u name o
  · have hexported' : IsExported u name o' := by
      obtain ⟨f, hf⟩ := Option.isSome_iff_exists.mp hexported
      exact Option.isSome_iff_exists.mpr ⟨f, hupdates.handle_mono hf⟩
    have hgrows : Countable (reports name o.seen) ∧
        total (reports name o.seen) ≤ total (reports name o'.seen) := by
      rw [hseen] at hcount ⊢
      by_cases he : e.metric = .counter name
      · obtain ⟨v, rfl⟩ := exists_report he
        rw [reports_self] at hcount ⊢
        exact ⟨hcount.tail, total_le_cons v _⟩
      · rw [reports_of_ne he] at hcount ⊢
        exact ⟨hcount, le_refl _⟩
    have hvalue := exported_eq ho htracks hexported hgrows.1
    have hvalue' := exported_eq (ho.record h) (htracks.record ho h) hexported' hcount
    rw [hvalue, hvalue']
    exact toF64_mono hgrows.2
  · rw [exported, if_neg hexported, exported]
    split
    · exact toF64_nonneg (Int.natCast_nonneg _)
    · exact Int.le_refl _

/-- A family in which something was reported is taken, cached or not. -/
theorem refuses_of_seen (ho : Sound u o) {e' : Event F} (he' : e' ∈ o.seen) {m : Metric}
    (hvalid : isValidMetricName (m.family u) = true)
    (hfamily : e'.metric.family u = m.family u) :
    o.node.registry.Refuses (m.family u) (m.key u) := by
  cases hhandle : e'.metric.handle u o.node with
  | some f =>
    obtain ⟨rfl, family, hregistered, -⟩ := ho.consistent.opened _ f hhandle
    exact Or.inr (Or.inr ⟨family, by rw [← hfamily, hregistered]⟩)
  | none =>
    have hrefused := ho.refused e' he' hhandle
    rw [hfamily] at hrefused
    rcases hrefused with hkey | hinvalid | htaken
    · exact absurd hkey (key_ne_empty (by rw [hfamily]; exact hvalid))
    · exact Or.inr (Or.inl hinvalid)
    · exact Or.inr (Or.inr htaken)

/-- The first report of a counter has it exported exactly when its name is valid and the
family free. -/
theorem isExported_first_iff (ho : Sound u o) (hfirst : reports name o.seen = [])
    (hmetric : e.metric = .counter name) (h : record u x o e = some o') :
    IsExported u name o' ↔ isValidMetricName (Metric.family u (.counter name)) = true ∧
      ∀ e' ∈ o.seen, e'.metric.family u ≠ Metric.family u (.counter name) := by
  have hunexported : ¬ IsExported u name o := fun hexported => reports_ne_nil ho hexported hfirst
  have hupdates := (record_updates ho h).1
  rw [IsExported, ← hmetric] at hunexported ⊢
  generalize o'.node = s' at hupdates ⊢
  constructor
  · intro hexported
    cases hupdates with
    | refused hnone _ => exact absurd hexported hunexported
    | written hopen hold hfits hw =>
      cases hopen with
      | cached hcached => exact absurd (by rw [hcached]; rfl) hunexported
      | created hnone hr =>
        have hvalid : isValidMetricName (e.metric.family u) = true := by
          by_contra hinvalid
          exact hr (Or.inr (Or.inl (Bool.not_eq_true _ ▸ hinvalid)))
        exact ⟨hvalid, fun e' he' hfamily => hr (refuses_of_seen ho he' hvalid hfamily)⟩
  · intro hfree
    cases hupdates with
    | written hopen hold hfits hw =>
      rw [handle_written, hopen.handle]
      rfl
    | refused hnone hr =>
      obtain ⟨e', he', hhandle⟩ := exists_of_refuses ho hfree.1 hr
      exact absurd (ho.consistent.opened _ _ hhandle).1.symm (hfree.2 e' he')

/-- What a report needs for the counter to be exported with it. -/
theorem accumulates_step_iff (ho : Sound u o) (htracks : Tracks u x o)
    (hq : Accumulates u name o) (h : record u x o e = some o') :
    Accumulates u name o' ↔ FindsFree u name o e ∧ SumExact name o e := by
  rw [accumulates_iff ho htracks] at hq
  rw [accumulates_iff (ho.record h) (htracks.record ho h)]
  obtain ⟨hupdates, hseen⟩ := record_updates ho h
  have hstays : IsExported u name o → IsExported u name o' := by
    intro hexported
    obtain ⟨f, hf⟩ := Option.isSome_iff_exists.mp hexported
    exact Option.isSome_iff_exists.mpr ⟨f, hupdates.handle_mono hf⟩
  by_cases he : e.metric = .counter name
  · obtain ⟨v, rfl⟩ := exists_report he
    rw [hseen, reports_self]
    constructor
    · intro hq'
      refine ⟨?_, ?_⟩
      · intro w hw hnonneg hfirst
        obtain rfl := (report_inj hw).symm
        rw [hfirst] at hq'
        have hexported := (hq' (List.cons_ne_nil _ _) (countable_single hnonneg)).1
        exact (isExported_first_iff ho hfirst he h).mp hexported
      · intro w hw hcount
        obtain rfl := (report_inj hw).symm
        exact (hq' (List.cons_ne_nil _ _) hcount).2
    · intro hcond _ hcount
      obtain ⟨hfree, hexact⟩ := hcond
      refine ⟨?_, hexact v rfl hcount⟩
      by_cases hfirst : reports name o.seen = []
      · have hnonneg := hcount.1 v (List.mem_cons_self ..)
        exact (isExported_first_iff ho hfirst he h).mpr (hfree v rfl hnonneg hfirst)
      · exact hstays (hq hfirst hcount.tail).1
  · have hother : ∀ v, e ≠ .ekg name (.counter v) := by
      intro v hv
      exact absurd (by rw [hv]; rfl) he
    refine iff_of_true ?_ ⟨fun v hv => absurd hv (hother v), fun v hv => absurd hv (hother v)⟩
    rw [hseen, reports_of_ne he]
    intro hreports hcount
    exact ⟨hstays (hq hreports hcount).1, (hq hreports hcount).2⟩

/-- The series is there where what the reports add up to is. -/
theorem accumulatesVisibly_iff (htracks : Tracks u x o) :
    AccumulatesVisibly u name o ↔ Accumulates u name o ∧
      (reports name o.seen ≠ [] → Countable (reports name o.seen) →
        (accumulated (reports name o.seen)).isSome) := by
  refine and_congr_right fun hq => forall_congr' fun hreports => forall_congr' fun hcount => ?_
  rw [series_eq htracks (hq hreports hcount).1 hreports]

/-- A series that is to be there at once needs a first report above zero. -/
theorem accumulatesVisibly_step_iff (ho : Sound u o) (htracks : Tracks u x o)
    (hq : AccumulatesVisibly u name o) (h : record u x o e = some o') :
    AccumulatesVisibly u name o' ↔
      (FindsFree u name o e ∧ SumExact name o e) ∧ BeginsAbove name o e := by
  obtain ⟨haccumulates, hvisible⟩ := (accumulatesVisibly_iff htracks).mp hq
  rw [accumulatesVisibly_iff (htracks.record ho h),
    accumulates_step_iff ho htracks haccumulates h, (record_updates ho h).2]
  refine and_congr_right fun _ => ?_
  by_cases he : e.metric = .counter name
  · obtain ⟨v, rfl⟩ := exists_report he
    rw [reports_self]
    by_cases hfirst : reports name o.seen = []
    · rw [hfirst]
      constructor
      · intro hvisible' w hw hnonneg _
        obtain rfl := (report_inj hw).symm
        exact (accumulated_single_iff hnonneg).mp
          (hvisible' (List.cons_ne_nil _ _) (countable_single hnonneg))
      · intro hbegins _ hcount
        have hnonneg := hcount.1 v (List.mem_cons_self ..)
        exact (accumulated_single_iff hnonneg).mpr (hbegins v rfl hnonneg hfirst)
    · refine iff_of_true ?_ ?_
      · intro _ hcount
        exact accumulated_isSome_cons (hvisible hfirst hcount.tail)
      · intro w _ _ hnil
        exact absurd hnil hfirst
  · refine iff_of_true ?_ ?_
    · rw [reports_of_ne he]
      exact hvisible
    · intro v hv
      exact absurd (by rw [hv]; rfl) he

end Shown

/-- In all states of a run a counter that was reported is exported with the sum of its
increases, and with its latest report where the reports only rose, exactly when its first
report finds its family free and every sum is exact; its series is there exactly when, besides,
the first report is positive. The exported value never goes down. -/
theorem accumulates_iff_findsFree (u : Unicode) (x : F64 F) (name : String) (es : List (Event F)) :
    ((∀ o, Reached (record u x) Observed.new es o → Accumulates u name o) ↔
      Along (record u x) (fun o e => FindsFree u name o e ∧ SumExact name o e)
        Observed.new es) ∧
    ((∀ o, Reached (record u x) Observed.new es o → AccumulatesVisibly u name o) ↔
      Along (record u x)
        (fun o e => (FindsFree u name o e ∧ SumExact name o e) ∧ BeginsAbove name o e)
        Observed.new es) ∧
    ∀ o, Reached (record u x) Observed.new es o → ∀ e o', record u x o e = some o' →
      Countable (reports name o'.seen) → exported u name o ≤ exported u name o' := by
  obtain ⟨o, hrun⟩ := run_record_defined (x := x) (sound_new (u := u)) es
  have hstart : Accumulates u name (Observed.new : Observed F) := by
    intro hreports
    exact absurd rfl hreports
  have hstep : ∀ o e o', Sound u o ∧ Tracks u x o → record u x o e = some o' →
      Sound u o' ∧ Tracks u x o' := by
    intro o e o' hI hrecord
    exact ⟨hI.1.record hrecord, hI.2.record hI.1 hrecord⟩
  refine ⟨?_, ?_, ?_⟩
  · refine reached_iff_along (I := fun o => Sound u o ∧ Tracks u x o) ?_
      ⟨sound_new, tracks_new u x⟩ hstart hrun
    intro o e o' hI hQ hrecord
    exact ⟨hstep o e o' hI hrecord, accumulates_step_iff hI.1 hI.2 hQ hrecord⟩
  · refine reached_iff_along (I := fun o => Sound u o ∧ Tracks u x o) ?_
      ⟨sound_new, tracks_new u x⟩ ⟨hstart, fun hreports => absurd rfl hreports⟩ hrun
    intro o e o' hI hQ hrecord
    exact ⟨hstep o e o' hI hrecord, accumulatesVisibly_step_iff hI.1 hI.2 hQ hrecord⟩
  · intro o hreached e o' hrecord hcount
    obtain ⟨pre, -, hpre⟩ := hreached
    have hI : Sound u o ∧ Tracks u x o :=
      run_invariant (I := fun o => Sound u o ∧ Tracks u x o) hstep ⟨sound_new, tracks_new u x⟩ hpre
    exact exported_le hI.1 hI.2 hrecord hcount

/-- A counter whose name is that of a gauge when they are sanitised: the gauge came first,
and the counter never adds anything up. -/
theorem counter_behind_gauge :
    ∃ o, run (record .ascii ⟨Int64.toInt, 1⟩) Observed.new
        [.ekg "a.b" (.gauge 1), .ekg "a_b" (.counter 5)] = some o ∧
      reports "a_b" o.seen = [5] ∧ Countable [5] ∧ exported .ascii "a_b" o = 0 ∧
      ¬ Accumulates .ascii "a_b" o := by
  obtain ⟨o, hrun⟩ := run_record_defined (x := ⟨Int64.toInt, 1⟩)
    (sound_new (u := Unicode.ascii)) [.ekg "a.b" (.gauge 1), .ekg "a_b" (.counter 5)]
  have hseen : o.seen = [.ekg "a_b" (.counter 5), .ekg "a.b" (.gauge 1)] :=
    (run_record_iff.mp hrun).2
  have hunexported : (run (record .ascii ⟨Int64.toInt, 1⟩) Observed.new
        [.ekg "a.b" (.gauge 1), .ekg "a_b" (.counter 5)]).map (fun o =>
      decide (IsExported .ascii "a_b" o)) = some false := by
    decide +kernel
  rw [hrun, Option.map_some, Option.some.injEq, decide_eq_false_iff_not] at hunexported
  have hreports : reports "a_b" o.seen = [5] := by
    rw [hseen]
    decide
  have hcount : Countable [5] := countable_single (by decide)
  refine ⟨o, hrun, hreports, hcount, if_neg hunexported, ?_⟩
  intro hq
  rw [Accumulates, hreports] at hq
  exact hunexported (hq (List.cons_ne_nil _ _) hcount).1

end Hermod.CounterTotals
