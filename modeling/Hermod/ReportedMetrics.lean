import Hermod.CounterTotals
import Hermod.EkgSession

/-!
From the messages of a node to what its registry shows. The node writes messages in any form
that the decoder reads; the values that they give to a name are, in order, those that the
poller has written or is about to write. Unless metrics share a family, the registry shows
the last value of each name, and for a counter the sum of its increases.
-/
namespace Hermod.ReportedMetrics

open ByteChannels CounterTotals Decoding EkgMessages EkgPoller EkgSession MetricInterference
open MetricsRegistry
open Significands (toF64)
open TracerState (Unicode)
open Transitions

variable {F : Type}

def valueOf (name : String) : EkgMessage → Option EkgValue
  | .resp metrics => metrics.lookup name
  | _ => none

def valuesIn (name : String) (updates : List (String × EkgValue)) : List EkgValue :=
  updates.filterMap fun p => if p.1 = name then some p.2 else none

def counts (values : List EkgValue) : List Int64 :=
  values.filterMap fun
    | .counter v => some v
    | _ => none

/-- No metric is in the family of another, except labels beside a label. -/
def Separate (u : Unicode) (seen : List (EkgPoller.Event F)) : Prop :=
  ∀ e ∈ seen, ∀ e' ∈ seen, e'.metric.family u = e.metric.family u →
    e'.metric = e.metric ∨ e'.metric.IsLabel ∧ e.metric.IsLabel

instance (m : Metric) : Decidable m.IsLabel :=
  match m with
  | .label _ => isTrue trivial
  | .counter _ => isFalse id
  | .gauge _ => isFalse id
  | .traceField _ => isFalse id

instance (u : Unicode) (seen : List (EkgPoller.Event F)) : Decidable (Separate u seen) :=
  inferInstanceAs (Decidable (∀ e ∈ seen, ∀ e' ∈ seen, _ → _))

/-- The decoder reads the bytes, in whatever form they are, as the message. -/
def IsRead (m : EkgMessage) (bytes : Bytes) : Prop :=
  ∃ m', Same m m' ∧ Decoder.Parses EkgMessage.decode bytes m'

/-- The registry shows the last value of the name, for a counter the `f64` that is nearest to
the sum of its increases. -/
def Displays (u : Unicode) (x : F64 F) (registry : Registry F) (name : String)
    (values : List EkgValue) : Prop :=
  match values.getLast? with
  | none => True
  | some (.counter _) =>
    isValidMetricName (Metric.family u (.counter name)) = true →
      Countable (counts values).reverse →
        gathered (registry.counterValue (Metric.family u (.counter name)) []) =
          toF64 (total (counts values).reverse)
  | some (.gauge v) =>
    isValidMetricName (Metric.family u (.gauge name)) = true →
      registry.gaugeValue (Metric.family u (.gauge name)) [] = some (x.ofInt v)
  | some (.label text) =>
    isValidMetricName (Metric.family u (.label name)) = true →
      registry.gaugeValue (Metric.family u (.label name)) [text] = some x.one

theorem isRead_of_wireForm {m : EkgMessage} {bytes : Bytes} (h : WireForm m bytes)
    (hm : Sized m) : IsRead m bytes := h.parses hm

/-! Values in messages and values in updates. -/

theorem valuesIn_append (name : String) (ps qs : List (String × EkgValue)) :
    valuesIn name (ps ++ qs) = valuesIn name ps ++ valuesIn name qs := List.filterMap_append

theorem valueOf_same {m m' : EkgMessage} (h : Same m m') (name : String) :
    valueOf name m = valueOf name m' := by
  cases m <;> cases m' <;> try exact h.elim
  · rfl
  · exact h name
  · rfl

theorem filterMap_valueOf_same {ms ms' : List EkgMessage} (h : List.Forall₂ Same ms ms')
    (name : String) : ms.filterMap (valueOf name) = ms'.filterMap (valueOf name) := by
  induction h with
  | nil => rfl
  | cons hsame _ ih => rw [List.filterMap_cons, List.filterMap_cons, valueOf_same hsame name, ih]

/-- A name stands once in a map. -/
theorem valuesIn_entries (name : String) (l : List (Sigma fun _ : String => EkgValue))
    (hl : l.NodupKeys) :
    valuesIn name (l.map fun e => (e.1, e.2)) = (l.dlookup name).toList := by
  induction l with
  | nil => rfl
  | cons e l ih =>
    rw [List.nodupKeys_cons] at hl
    have hrest := ih hl.2
    rw [valuesIn] at hrest
    rw [valuesIn, List.map_cons, List.filterMap_cons]
    by_cases hname : e.1 = name
    · subst hname
      rw [List.dlookup_eq_none.mpr hl.1] at hrest
      rw [hrest, if_pos rfl, List.dlookup_cons_eq]
      rfl
    · rw [hrest, if_neg hname, List.dlookup_cons_ne]
      exact fun heq => hname heq.symm

/-- A message gives a name at most one value, in whatever order it is written. -/
theorem valuesIn_ordering {m : EkgMessage} {order : List (String × EkgValue)}
    (h : Ordering m order) (name : String) :
    valuesIn name order = (valueOf name m).toList := by
  cases m with
  | req getAll =>
    rw [show order = [] from h]
    rfl
  | done =>
    rw [show order = [] from h]
    rfl
  | resp metrics =>
    have hperm : (valuesIn name order).Perm (valuesIn name (entries metrics)) :=
      List.Perm.filterMap _ h
    rw [entries, valuesIn_entries name _ metrics.nodupKeys] at hperm
    show _ = (metrics.lookup name).toList
    rw [AList.lookup]
    cases hlookup : metrics.entries.dlookup name with
    | none =>
      rw [hlookup] at hperm
      exact List.perm_nil.mp hperm
    | some v =>
      rw [hlookup] at hperm
      exact List.perm_singleton.mp hperm

/-- The updates for some messages give a name the values of the messages. -/
theorem valuesIn_orderings {ms : List EkgMessage} {orders : List (List (String × EkgValue))}
    (h : List.Forall₂ Ordering ms orders) (name : String) :
    valuesIn name orders.flatten = ms.filterMap (valueOf name) := by
  induction h with
  | nil => rfl
  | @cons m order _ _ hordering _ ih =>
    rw [List.flatten_cons, valuesIn_append, valuesIn_ordering hordering, ih, List.filterMap_cons]
    cases valueOf name m with
    | none => rfl
    | some v => rfl

/-! Updates and what the registry shows. -/

section Registry

variable {u : Unicode} {x : F64 F} {o : Observed F} {name : String}

/-- The reports of a counter are the values that were written, latest first. -/
theorem reports_reverse (name : String) (seen : List (EkgPoller.Event F)) :
    (reports name seen).reverse = counts (valuesIn name (ekgUpdates seen)) := by
  induction seen with
  | nil => rfl
  | cons e seen ih =>
    rcases e with ⟨name', value⟩ | ⟨metricName, value⟩
    · rw [ekgUpdates_ekg, valuesIn_append, counts, List.filterMap_append, ← counts, ← ih]
      by_cases hname : name' = name
      · subst hname
        cases value <;> simp [valuesIn, reports]
      · cases value <;> simp [valuesIn, reports, hname]
    · rw [ekgUpdates_traceField, ← ih]
      simp [reports]

/-- The last value of a name is the latest report of its metric. -/
theorem latest_of_getLast {seen : List (EkgPoller.Event F)} {v : EkgValue}
    (h : (valuesIn name (ekgUpdates seen)).getLast? = some v) :
    latest (EkgPoller.Event.metric (.ekg name v : EkgPoller.Event F)) seen =
      some (.ekg name v) := by
  induction seen with
  | nil => cases h
  | cons e seen ih =>
    rcases e with ⟨name', value⟩ | ⟨metricName, value⟩
    · rw [ekgUpdates_ekg, valuesIn_append] at h
      by_cases hname : name' = name
      · subst hname
        have hlast : valuesIn name' [(name', value)] = [value] := by simp [valuesIn]
        rw [hlast, List.getLast?_concat, Option.some.injEq] at h
        subst h
        exact latest_self _ _
      · have hlast : valuesIn name [(name', value)] = [] := by simp [valuesIn, hname]
        rw [hlast, List.append_nil] at h
        rw [latest_of_ne, ih h]
        cases value <;> cases v <;> simp [EkgPoller.Event.metric, hname]
    · rw [ekgUpdates_traceField] at h
      rw [latest_of_ne, ih h]
      cases v <;> simp [EkgPoller.Event.metric]

/-- Without a clash everything that was reported is exported. -/
theorem exported_of_separate {es : List (EkgPoller.Event F)}
    (h : run (record u x) Observed.new es = some o) (hseparate : Separate u o.seen) :
    Exported u x o := by
  have hinvariant : Sound u o ∧ Tracks u x o ∧ (Separate u o.seen → Exported u x o) := by
    refine run_invariant
      (I := fun o => Sound u o ∧ Tracks u x o ∧ (Separate u o.seen → Exported u x o)) ?_
      ⟨sound_new, tracks_new u x, fun _ => exported_new u x⟩ h
    intro o e o' hI hrecord
    obtain ⟨hsound, htracks, hexported⟩ := hI
    refine ⟨hsound.record hrecord, htracks.record hsound hrecord, ?_⟩
    intro hall
    rw [(record_updates hsound hrecord).2] at hall
    have hbefore : Separate u o.seen := fun e₁ h₁ e₂ h₂ =>
      hall e₁ (List.mem_cons_of_mem _ h₁) e₂ (List.mem_cons_of_mem _ h₂)
    apply (exported_step_iff hsound htracks (hexported hbefore) hrecord).mpr
    intro _ e' he'
    exact hall e (List.mem_cons_self ..) e' (List.mem_cons_of_mem _ he')
  exact hinvariant.2.2 hseparate

/-- What is exported displays the updates of the poller. -/
theorem displays_of_exported (h : Exported u x o) (name : String) :
    Displays u x o.node.registry name (valuesIn name (ekgUpdates o.seen)) := by
  unfold Displays
  split
  · trivial
  · rename_i v hlast
    intro hvalid hcount
    have hshows : o.node.registry.counterValue (Metric.family u (.counter name)) [] =
        accumulated (reports name o.seen) := (h _ _ (latest_of_getLast hlast) hvalid).2
    rw [← reports_reverse, List.reverse_reverse] at hcount ⊢
    rw [hshows]
    exact gathered_accumulated hcount
  · rename_i v hlast
    intro hvalid
    exact (h _ _ (latest_of_getLast hlast) hvalid).2
  · rename_i text hlast
    intro hvalid
    exact (h _ _ (latest_of_getLast hlast) hvalid).2

end Registry

section Sessions

variable {u : Unicode} {x : F64 F} {requestFull : Bool} {s : Session F}
  {sent : List (EkgMessage × Bytes)}

theorem exists_same {done : List (EkgMessage × Bytes)} {received : List EkgMessage}
    (h : List.Forall₂ (fun p m => Same p.1 m) done received) {m : EkgMessage}
    (hm : m ∈ received) : ∃ p ∈ done, Same p.1 m := by
  induction h with
  | nil => exact absurd hm List.not_mem_nil
  | @cons p m' done received hsame _ ih =>
    rcases List.mem_cons.mp hm with rfl | hm
    · exact ⟨p, List.mem_cons_self .., hsame⟩
    · obtain ⟨q, hq, hqm⟩ := ih hm
      exact ⟨q, List.mem_cons_of_mem _ hq, hqm⟩

/-- Of what a node writes, the messages it has sent are received, and the loop stops at none
of the bytes between them. -/
theorem received_same (h : Sequential u x requestFull s)
    (hread : ∀ p ∈ sent, IsRead p.1 p.2)
    (hwritten : s.written.IsPrefix (sent.map Prod.snd).flatten) :
    List.Forall₂ (fun p m => Same p.1 m) (sent.take s.received.length) s.received ∧
      ∀ e, EkgMessage.decode.run s.channel.bytes = .error e → e = .endOfInput := by
  obtain ⟨more, hmore⟩ := hwritten
  obtain ⟨done, todo, rfl, hsame, hleft⟩ :=
    h.decodes.of_encodings (R := Same) rfl hread hmore
  have hlength := hsame.length_eq
  rw [← hlength, List.take_left]
  refine ⟨hsame, ?_⟩
  intro e hrun
  by_contra hne
  have hstays := EkgMessage.decode.stable hrun hne more
  rw [hleft] at hstays
  cases todo with
  | nil =>
    cases hstays
    exact hne rfl
  | cons p todo =>
    obtain ⟨m, -, hp⟩ := hread p (List.mem_append_right _ (List.mem_cons_self ..))
    rw [Decoder.encodings_cons, hp] at hstays
    cases hstays

/-- For a node that writes messages in any form that the decoder reads: the messages that the
loop has received are the first of those, the values that they give to a name are those written
and about to be written, in order, and without a clash the registry shows their last between
two requests, for a counter the sum of its increases. Only a request from the node ends the
loop with a decoding error. -/
theorem registry_displays {es : List (EkgSession.Event F)}
    (hread : ∀ p ∈ sent, IsRead p.1 p.2)
    (hrun : run (Session.step u x requestFull) Session.new es = some s)
    (hwritten : s.written.IsPrefix (sent.map Prod.snd).flatten) :
    List.Forall₂ (fun p m => Same p.1 m) (sent.take s.received.length) s.received ∧
    (∀ name, valuesIn name (ekgUpdates s.observed.seen) ++ valuesIn name s.phase.pending =
      (sent.take s.received.length).filterMap fun p => valueOf name p.1) ∧
    (s.phase.pending = [] → Separate u s.observed.seen → ∀ name,
      Displays u x s.observed.node.registry name
        ((sent.take s.received.length).filterMap fun p => valueOf name p.1)) ∧
    ∀ e, s.phase = .returned (.error (.decoding e)) →
      ∃ p ∈ sent.take s.received.length, ∃ getAll, p.1 = .req getAll := by
  have h : Sequential u x requestFull s :=
    run_invariant (I := Sequential u x requestFull) (fun _ _ _ hs hstep => hs.step hstep)
      (sequential_new u x requestFull) hrun
  obtain ⟨hsame, hclean⟩ := received_same h hread hwritten
  have hvalues : ∀ name, valuesIn name (ekgUpdates s.observed.seen) ++
      valuesIn name s.phase.pending =
        (sent.take s.received.length).filterMap fun p => valueOf name p.1 := by
    intro name
    obtain ⟨orders, horders, hflatten⟩ := h.updates
    have hreceived := valuesIn_orderings horders name
    rw [hflatten, valuesIn_append] at hreceived
    have hmessages : List.Forall₂ Same ((sent.take s.received.length).map Prod.fst)
        s.received := List.forall₂_map_left_iff.mpr hsame
    rw [hreceived, ← filterMap_valueOf_same hmessages, List.filterMap_map]
    rfl
  refine ⟨hsame, hvalues, ?_, ?_⟩
  · intro hpending hseparate name
    have hname := hvalues name
    rw [hpending, valuesIn, valuesIn, List.filterMap_nil, List.append_nil] at hname
    rw [← hname]
    exact displays_of_exported (exported_of_separate h.registry hseparate) name
  · intro e hphase
    have hfollows := h.follows
    rw [hphase] at hfollows
    rcases hfollows with ⟨ms, getAll, hreceived, -, -⟩ | ⟨-, hrejected, hne⟩
    · have hlast : EkgMessage.req getAll ∈ s.received := by
        rw [hreceived]
        exact List.mem_append_right _ (List.mem_singleton_self _)
      obtain ⟨p, hp, hpsame⟩ := exists_same hsame hlast
      refine ⟨p, hp, getAll, ?_⟩
      generalize p.1 = m at hpsame ⊢
      cases m with
      | req getAll' => exact congrArg EkgMessage.req hpsame
      | resp metrics => exact hpsame.elim
      | done => exact hpsame.elim
    · exact absurd (hclean e hrejected) hne

end Sessions

/-- Two responses of which the second raises the counter, with a gauge beside it. -/
theorem registry_displays_counter :
    let first : Metrics := AList.insert "b" (.gauge 7) (AList.insert "a" (.counter 5) ∅)
    let second : Metrics := AList.insert "a" (.counter 8) ∅
    let written := (EkgMessage.resp first).encode ++ (EkgMessage.resp second).encode
    ∃ s : Session ℤ, run (Session.step .ascii ⟨Int64.toInt, 1⟩ false) Session.new
        [.writes written, .poll, .arrives 60, .receives [("b", .gauge 7), ("a", .counter 5)],
          .updates, .traceField "c" 1, .updates, .sleeps, .poll,
          .receives [("a", .counter 8)], .updates] = some s ∧
      Displays .ascii ⟨Int64.toInt, 1⟩ s.observed.node.registry "a" [.counter 5, .counter 8] ∧
      Displays .ascii ⟨Int64.toInt, 1⟩ s.observed.node.registry "b" [.gauge 7] := by
  intro first second written
  have hfacts : (run (Session.step .ascii (⟨Int64.toInt, 1⟩ : F64 ℤ) false) Session.new
        [.writes written, .poll, .arrives 60, .receives [("b", .gauge 7), ("a", .counter 5)],
          .updates, .traceField "c" 1, .updates, .sleeps, .poll,
          .receives [("a", .counter 8)], .updates]).map (fun s =>
      (decide (s.written = written), s.received.length, decide (s.phase.pending = []),
        decide (Separate .ascii s.observed.seen))) = some (true, 2, true, true) := by
    decide +kernel
  obtain ⟨s, hrun, hs⟩ := Option.map_eq_some_iff.mp hfacts
  simp only [Prod.mk.injEq, decide_eq_true_eq] at hs
  obtain ⟨hwritten, hlength, hpending, hseparate⟩ := hs
  have hname : ∀ name ∈ ["a", "b"], ProtocolTypes.SizedStr name := by
    unfold ProtocolTypes.SizedStr
    decide
  have hfirst : Sized (.resp first) := by
    have hentries : first.entries = [⟨"b", .gauge 7⟩, ⟨"a", .counter 5⟩] := by decide
    refine ⟨by decide, ?_⟩
    rw [hentries]
    simp [SizedValue, hname]
  have hsecond : Sized (.resp second) := by
    have hentries : second.entries = [⟨"a", .counter 8⟩] := by decide
    refine ⟨by decide, ?_⟩
    rw [hentries]
    simp [SizedValue, hname]
  let sent : List (EkgMessage × Bytes) :=
    [(.resp first, (EkgMessage.resp first).encode), (.resp second, (EkgMessage.resp second).encode)]
  have hread : ∀ p ∈ sent, IsRead p.1 p.2 := by
    intro p hp
    rcases List.mem_cons.mp hp with rfl | hp
    · exact isRead_of_wireForm (WireForm.encoder _) hfirst
    · rw [List.mem_singleton.mp hp]
      exact isRead_of_wireForm (WireForm.encoder _) hsecond
  have hprefix : s.written.IsPrefix (sent.map Prod.snd).flatten := by
    rw [hwritten]
    exact List.prefix_refl _
  have hdisplays := (registry_displays hread hrun hprefix).2.2.1 hpending hseparate
  rw [hlength] at hdisplays
  exact ⟨s, hrun, hdisplays "a", hdisplays "b"⟩

end Hermod.ReportedMetrics
