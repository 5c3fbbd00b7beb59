import Hermod.JsonReader
import Hermod.ReportedMetrics
import Hermod.TracingLayer
import Mathlib.Data.List.TakeWhile

/-!
From the events of an application to the gauges of its node. The layer writes the fields of
an event as a JSON object in the order of their names; the tracer reads the object again and
sets a gauge for each of its numbers. How floating-point numbers are written and read is a
parameter; integers are written by their digits.
-/
namespace Hermod.EventGauges

open EkgPoller JsonText MetricInterference MetricsRegistry ProtocolTypes ReportedMetrics
open TextLines (Text)
open TracerState (Unicode)
open TracingLayer (JsonMap Layer Stamp TracingEvent extractNamespace traceObject visit)
open Transitions

variable {F : Type}

/-! Integers. -/

def intText (z : ℤ) : Text :=
  if z < 0 then '-' :: Nat.toDigits 10 z.natAbs else Nat.toDigits 10 z.natAbs

theorem isDigit_toDigits {n : ℕ} {c : Char} (hc : c ∈ Nat.toDigits 10 n) : c.isDigit = true :=
  Nat.isDigit_of_mem_toDigits (by norm_num) (by norm_num) hc

theorem mem_numberChars_of_isDigit {c : Char} (h : c.isDigit = true) : c ∈ numberChars := by
  by_contra hc
  rw [isDigit_eq_false hc] at h
  cases h

theorem intText_digits (z : ℤ) : ∀ c ∈ intText z, c ∈ numberChars := by
  have hdigits : ∀ c ∈ Nat.toDigits 10 z.natAbs, c ∈ numberChars :=
    fun c hc => mem_numberChars_of_isDigit (isDigit_toDigits hc)
  intro c hc
  unfold intText at hc
  split at hc
  · rcases List.mem_cons.mp hc with rfl | hc
    · decide
    · exact hdigits c hc
  · exact hdigits c hc

def intNumber (z : ℤ) : Number := ⟨intText z, intText_digits z⟩

/-- The digits of a number that is not zero do not begin with a zero. -/
theorem head_toDigits {n : ℕ} (hn : 0 < n) : (Nat.toDigits 10 n).head? ≠ some '0' := by
  induction n using Nat.strong_induction_on with
  | _ n ih =>
    by_cases hlt : n < 10
    · rw [Nat.toDigits_of_lt_base hlt]
      have hall : ∀ m < 10, 0 < m → (some (Nat.digitChar m)) ≠ some '0' := by decide
      exact hall n hlt hn
    · have hle : 10 ≤ n := by omega
      rw [Nat.toDigits_of_base_le (by norm_num) hle]
      have hrest := ih (n / 10) (by omega) (by omega)
      rw [List.head?_append_of_ne_nil _ Nat.toDigits_ne_nil]
      exact hrest

/-- Digits without a leading zero are read back. -/
theorem readInteger_toDigits (n : ℕ) :
    readInteger (Nat.toDigits 10 n) = some (Nat.toDigits 10 n, []) := by
  have hspan : (Nat.toDigits 10 n).span Char.isDigit = (Nat.toDigits 10 n, []) := by
    have hdigits : ∀ c ∈ Nat.toDigits 10 n, c.isDigit = true := fun c hc => isDigit_toDigits hc
    rw [List.span_eq_takeWhile_dropWhile, List.takeWhile_eq_self_iff.mpr hdigits,
      List.dropWhile_eq_nil_iff.mpr hdigits]
  have hread : readDigits (Nat.toDigits 10 n) = some (Nat.toDigits 10 n, []) := by
    rw [readDigits, hspan]
    cases hdigits : Nat.toDigits 10 n with
    | nil => exact absurd hdigits Nat.toDigits_ne_nil
    | cons c cs => rfl
  have hzero : ¬ ((Nat.toDigits 10 n).head? = some '0' ∧ Nat.toDigits 10 n ≠ ['0']) := by
    rintro ⟨hhead, hne⟩
    rcases Nat.eq_zero_or_pos n with rfl | hpos
    · exact hne (Nat.toDigits_zero 10)
    · exact head_toDigits hpos hhead
  rw [readInteger, hread]
  exact if_neg hzero

theorem readMinus_digits {s : Text} (hs : ∀ c ∈ s, c.isDigit = true) : readMinus s = ([], s) := by
  unfold readMinus
  split
  · exact absurd (hs '-' (List.mem_cons_self ..)) (by decide)
  · rfl

theorem readLexeme_intText (z : ℤ) : readLexeme (intText z) = some (intText z, []) := by
  have hread := readInteger_toDigits z.natAbs
  unfold intText
  split
  · rw [readLexeme, readMinus]
    simp [hread, readFraction, readExponent]
  · rw [readLexeme, readMinus_digits fun c hc => isDigit_toDigits hc]
    simp [hread, readFraction, readExponent]

/-! Values as JSON. -/

/-- What the JSON library makes of numbers. It writes floating-point numbers that are finite,
and reads whatever it writes. -/
structure Numbers (F : Type) where
  text : UInt64 → Option Number
  finite : Text → Bool
  asF64 : Number → F
  reads : ∀ bits n, text bits = some n →
    readLexeme n.text = some (n.text, []) ∧ finite n.text = true
  integers : ∀ z : ℤ, -2 ^ 63 ≤ z → z < 2 ^ 64 → finite (intText z) = true

namespace Numbers

variable (N : Numbers F)

def number : TracingLayer.Json → Option Number
  | .f64 bits => N.text bits
  | .i64 v => some (intNumber v.toInt)
  | .u64 v => some (intNumber v.toNat)
  | _ => none

/-- A floating-point number that is not finite is written as null. -/
def json : TracingLayer.Json → Json
  | .f64 bits => (N.text bits).elim .null .number
  | .i64 v => .number (intNumber v.toInt)
  | .u64 v => .number (intNumber v.toNat)
  | .bool b => .bool b
  | .string s => .string s.toList

def fieldsOf (map : JsonMap) : List (String × TracingLayer.Json) := Tables.inOrder (· ≤ ·) map

def toJson (map : JsonMap) : Json :=
  .object ((fieldsOf map).map fun p => (p.1.toList, N.json p.2))

def toString (map : JsonMap) : Option String := some (String.ofList (N.toJson map).write)

def asNumber : Json → Option Number
  | .number n => some n
  | _ => none

/-- The fields of a JSON object that are numbers, in the order of the map they are read
into. -/
def ofText (text : String) : List (String × F) :=
  match fromStr N.finite text.toList with
  | some (.object fields) =>
    (Tables.inOrder (· ≤ ·) (Tables.insertEntries (∅ : AList fun _ : String => Json)
      (fields.map fun f => (String.ofList f.1, f.2)))).filterMap fun p =>
        (asNumber p.2).map fun n => (p.1, N.asF64 n)
  | _ => []

def ofEvent (event : TracingEvent) : List (String × F) :=
  (fieldsOf (visit event.fields)).filterMap fun p =>
    (N.number p.2).map fun n => (p.1, N.asF64 n)

def gauges (u : Unicode) (layer : Layer) (event : TracingEvent) : List (String × F) :=
  let segments := "_".intercalate (extractNamespace layer event.target)
  if segments = "" then []
  else (N.ofEvent event).map fun p => (sanitiseMetricName u (segments ++ "_" ++ p.1), p.2)

/-- The number in a field is that of its JSON. -/
theorem asNumber_json (v : TracingLayer.Json) : asNumber (N.json v) = N.number v := by
  cases v with
  | f64 bits =>
    rw [json, number]
    cases N.text bits with
    | none => rfl
    | some n => rfl
  | i64 v => rfl
  | u64 v => rfl
  | bool b => rfl
  | string s => rfl

/-- What the JSON library writes it can read. -/
theorem readable_json (v : TracingLayer.Json) (depth : ℕ) :
    (N.json v).Readable N.finite depth := by
  cases v with
  | f64 bits =>
    rw [json]
    cases hn : N.text bits with
    | none => cases depth <;> trivial
    | some n => cases depth <;> exact N.reads bits n hn
  | i64 v =>
    have hlo := v.le_toInt
    have hhi := v.toInt_lt
    have hread := And.intro (readLexeme_intText v.toInt) (N.integers v.toInt hlo (by omega))
    cases depth <;> exact hread
  | u64 v =>
    have hhi := v.toNat_lt
    have hread := And.intro (readLexeme_intText v.toNat) (N.integers v.toNat (by omega) (by omega))
    cases depth <;> exact hread
  | bool b => cases depth <;> trivial
  | string s => cases depth <;> trivial

/-- The object that is written is read. -/
theorem fromStr_toJson (map : JsonMap) :
    fromStr N.finite (N.toJson map).write = some (N.toJson map) := by
  apply fromStr_write
  show ∀ f ∈ _, _
  intro f hf
  obtain ⟨p, -, rfl⟩ := List.mem_map.mp hf
  exact N.readable_json p.2 126

/-- The fields keep their order. -/
theorem inOrder_fields (map : JsonMap) :
    Tables.inOrder (· ≤ ·) (Tables.insertEntries (∅ : AList fun _ : String => Json)
      ((fieldsOf map).map fun p => (p.1, N.json p.2))) =
        (fieldsOf map).map fun p => (p.1, N.json p.2) := by
  apply Tables.inOrder_insertEntries
  · rw [List.map_map]
    exact Tables.keys_inOrder_nodup (· ≤ ·) map
  · exact List.pairwise_map.mpr (Tables.pairwise_inOrder (· ≤ ·) map)

/-- The numbers in the text of an event are those of its fields. -/
theorem ofText_toJson (map : JsonMap) :
    N.ofText (String.ofList (N.toJson map).write) =
      (fieldsOf map).filterMap fun p => (N.number p.2).map fun n => (p.1, N.asF64 n) := by
  have hkeys : ((fieldsOf map).map fun p => (p.1.toList, N.json p.2)).map
      (fun f => (String.ofList f.1, f.2)) = (fieldsOf map).map fun p => (p.1, N.json p.2) := by
    rw [List.map_map]
    apply List.map_congr_left
    intro p _
    simp
  rw [ofText, String.toList_ofList, N.fromStr_toJson, toJson]
  simp only [hkeys, N.inOrder_fields, List.filterMap_map]
  apply List.filterMap_congr
  intro p _
  simp only [Function.comp_apply, asNumber_json]

/-- The trace handler finds the gauges of the events in their traces. -/
theorem traceFields_events (u : Unicode) (layer : Layer) (events : List (Stamp × TracingEvent)) :
    Node.traceFields u N.ofText
        (events.map fun e => traceObject layer N.toString e.1 e.2) =
      events.flatMap fun e => N.gauges u layer e.2 := by
  rw [Node.traceFields, List.flatMap_map]
  apply List.flatMap_congr
  intro e _
  have hnumbers : N.ofText (traceObject layer N.toString e.1 e.2).toMachine = N.ofEvent e.2 :=
    N.ofText_toJson (visit e.2.fields)
  simp only [hnumbers]
  rfl

end Numbers

/-! The gauges in the registry. -/

def traceUpdates (es : List (EkgPoller.Event F)) : List (String × F) :=
  es.filterMap fun
    | .traceField metricName value => some (metricName, value)
    | .ekg _ _ => none

def valuesOf (metricName : String) (updates : List (String × F)) : List F :=
  updates.filterMap fun p => if p.1 = metricName then some p.2 else none

theorem latest_of_valuesOf {es : List (EkgPoller.Event F)} {metricName : String} {v : F}
    (h : (valuesOf metricName (traceUpdates es)).getLast? = some v) :
    latest (.traceField metricName) es.reverse = some (.traceField metricName v) := by
  induction es using List.reverseRecOn with
  | nil => cases h
  | append_singleton es e ih =>
    rw [List.reverse_append, List.reverse_singleton, List.singleton_append]
    rw [traceUpdates, valuesOf, List.filterMap_append, List.filterMap_append, ← traceUpdates,
      ← valuesOf] at h
    rcases e with ⟨name, value⟩ | ⟨metricName', value⟩
    · simp only [List.filterMap_cons, List.filterMap_nil, List.append_nil] at h
      rw [latest_of_ne, ih h]
      cases value <;> simp [EkgPoller.Event.metric]
    · by_cases hname : metricName' = metricName
      · subst hname
        have hvalue : value = v := by simpa using h
        subst hvalue
        exact latest_self _ _
      · have hbefore : (valuesOf metricName (traceUpdates es)).getLast? = some v := by
          simpa [hname] using h
        rw [latest_of_ne, ih hbefore]
        simp [EkgPoller.Event.metric, hname]

/-- Over any run of updates, in which those of the trace handler are for the traces of some
events: the gauges are set to the numbers of the events, one event after the other and the
fields of each in the order of their names. Unless metrics share a family, each gauge shows
the last of its numbers. -/
theorem event_gauges {u : Unicode} {x : F64 F} {N : Numbers F} {layer : Layer}
    {events : List (Stamp × TracingEvent)} {es : List (EkgPoller.Event F)} {o : Observed F}
    (hrun : run (record u x) Observed.new es = some o)
    (hupdates : traceUpdates es = Node.traceFields u N.ofText
      (events.map fun e => traceObject layer N.toString e.1 e.2)) :
    traceUpdates es = events.flatMap (fun e => N.gauges u layer e.2) ∧
      (Separate u o.seen → ∀ metricName v, isValidMetricName metricName = true →
        (valuesOf metricName (events.flatMap fun e => N.gauges u layer e.2)).getLast? = some v →
        o.node.registry.gaugeValue metricName [] = some v) := by
  rw [N.traceFields_events] at hupdates
  refine ⟨hupdates, ?_⟩
  intro hseparate metricName v hvalid hlast
  rw [← hupdates] at hlast
  have hseen : o.seen = es.reverse ++ [] := (run_record_iff.mp hrun).2
  rw [List.append_nil] at hseen
  have hlatest := latest_of_valuesOf hlast
  rw [← hseen] at hlatest
  exact (exported_of_separate hrun hseparate _ _ hlatest hvalid).2

def integers : Numbers ℤ where
  text _ := none
  finite _ := true
  asF64 n :=
    match n.text with
    | '-' :: digits => -Nat.ofDigitChars 10 digits 0
    | digits => Nat.ofDigitChars 10 digits 0
  reads _ _ h := by cases h
  integers _ _ _ := rfl

/-- An event with a number that it records twice, between updates of the poller. -/
theorem event_gauges_peers :
    let event : TracingEvent :=
      ⟨"app.net", .info, [("message", .debug "up"), ("peers", .u64 3), ("peers", .i64 (-4))]⟩
    let es : List (EkgPoller.Event ℤ) :=
      [.ekg "a" (.gauge 1), .traceField "app_net_peers" (-4), .ekg "a" (.gauge 2)]
    ∃ o, run (record .ascii ⟨Int64.toInt, 1⟩) Observed.new es = some o ∧
      traceUpdates es = integers.gauges .ascii ⟨"host", []⟩ event ∧
      o.node.registry.gaugeValue "app_net_peers" [] = some (-4) := by
  intro event es
  obtain ⟨o, hrun⟩ := run_record_defined (x := ⟨Int64.toInt, 1⟩)
    (sound_new (u := Unicode.ascii)) es
  have hseen : o.seen = es.reverse ++ [] := (run_record_iff.mp hrun).2
  have hseparate : Separate .ascii o.seen := by
    rw [hseen]
    decide
  let stamp : Stamp := ⟨⟨0, 0, validTimestamp_zero⟩, "1"⟩
  have hupdates : traceUpdates es = Node.traceFields .ascii integers.ofText
      ([(stamp, event)].map fun e => traceObject ⟨"host", []⟩ integers.toString e.1 e.2) := by
    decide +kernel
  obtain ⟨hgauges, hshows⟩ := event_gauges hrun hupdates
  have hlast : (valuesOf "app_net_peers" ([(stamp, event)].flatMap fun e =>
      integers.gauges .ascii ⟨"host", []⟩ e.2)).getLast? = some (-4) := by
    rw [← hgauges]
    decide
  refine ⟨o, hrun, ?_, hshows hseparate "app_net_peers" (-4) (by decide) hlast⟩
  rw [hgauges, List.flatMap_cons, List.flatMap_nil, List.append_nil]

end Hermod.EventGauges
