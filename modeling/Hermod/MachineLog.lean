import Hermod.JsonReader
import Hermod.LogLines

/-!
Reading the machine log back. Each line is the JSON of one trace, and a trace is read from
it by the names of its fields. Over any run of the log writer the files of a key, read
line by line, give the traces that were written under that key.
-/
namespace Hermod.MachineLog

open AppendOnlyLog JsonText LogLines LogWriter LogWriter.System ProtocolTypes Transitions
open TextLines (Text)
open TracerState (Unicode)

/-! The fields of a trace. -/

/-- A variant without fields stands as its name, or as an object under its name. -/
def variantName : Json → Option Text
  | .string s => some s
  | .object [(name, .null)] => some name
  | _ => none

def severities : List Severity :=
  [.debug, .info, .notice, .warning, .error, .critical, .alert, .emergency]

def severityOf (v : Json) : Option Severity := do
  let name ← variantName v
  severities.find? fun sev => (toString sev).toList = name

def detailLevels : List DetailLevel := [.dMinimal, .dNormal, .dDetailed, .dMaximum]

def detailOf (v : Json) : Option DetailLevel := do
  let name ← variantName v
  detailLevels.find? fun detail => (detailName detail).toList = name

def stringOf (v : Json) : Option String := v.asStr.map String.ofList

def optionalStringOf : Json → Option (Option String)
  | .null => some none
  | v => (stringOf v).map some

def stringsOf : Json → Option (List String)
  | .array items => items.mapM stringOf
  | _ => none

def timestampOf (parse : String → Option DateTime) (v : Json) : Option DateTime :=
  (stringOf v).bind parse

/-- The value of a field, if it is there. A field must not be given twice. -/
def field (name : String) (fields : List (Text × Json)) : Option (Option Json) :=
  match fields.filter fun f => f.1 = name.toList with
  | [] => some none
  | [f] => some (some f.2)
  | _ => none

def required (name : String) (fields : List (Text × Json)) : Option Json :=
  (field name fields).join

/-- The fields by their names, others being ignored, or all values in their order. -/
def traceOf (parse : String → Option DateTime) : Json → Option TraceObject
  | .object fields => do
    let toHuman ← optionalStringOf ((← field "to_human" fields).getD .null)
    let toMachine ← stringOf (← required "to_machine" fields)
    let toNamespace ← stringsOf (← required "to_namespace" fields)
    let toSeverity ← severityOf (← required "to_severity" fields)
    let toDetails ← detailOf (← required "to_details" fields)
    let toTimestamp ← timestampOf parse (← required "to_timestamp" fields)
    let toHostname ← stringOf (← required "to_hostname" fields)
    let toThreadId ← stringOf (← required "to_thread_id" fields)
    some ⟨toHuman, toMachine, toNamespace, toSeverity, toDetails, toTimestamp, toHostname,
      toThreadId⟩
  | .array [human, machine, namespaces, severity, details, timestamp, hostname, threadId] => do
    some ⟨← optionalStringOf human, ← stringOf machine, ← stringsOf namespaces,
      ← severityOf severity, ← detailOf details, ← timestampOf parse timestamp,
      ← stringOf hostname, ← stringOf threadId⟩
  | _ => none

def readTrace (finite : Text → Bool) (parse : String → Option DateTime) (line : Text) :
    Option TraceObject :=
  (fromStr finite line).bind (traceOf parse)

def readLog (finite : Text → Bool) (parse : String → Option DateTime) (log : Text) :
    List (Option TraceObject) :=
  (TextLines.lines log).map (readTrace finite parse)

def tracesOf (key : LogKey) : Rotation.Event → List TraceObject
  | .write k traces _ _ => if k = key then traces else []
  | _ => []

/-! One trace. -/

theorem severityOf_string (sev : Severity) :
    severityOf (.string (toString sev).toList) = some sev := by
  cases sev <;> decide +kernel

theorem detailOf_string (detail : DetailLevel) :
    detailOf (.string (detailName detail).toList) = some detail := by
  cases detail <;> decide +kernel

theorem stringOf_string (s : String) : stringOf (.string s.toList) = some s := by
  simp [stringOf, Json.asStr]

theorem stringsOf_strings (ss : List String) :
    stringsOf (.array (ss.map fun s => .string s.toList)) = some ss := by
  rw [stringsOf]
  induction ss with
  | nil => rfl
  | cons s ss ih => simp [stringOf_string, ih]

theorem optionalStringOf_elim (s : Option String) :
    optionalStringOf (s.elim .null fun s => .string s.toList) = some s := by
  cases s with
  | none => rfl
  | some s => simp [optionalStringOf, stringOf_string]

/-- A field whose name no other field has. -/
theorem field_eq {fields : List (Text × Json)} (hnodup : (fields.map Prod.fst).Nodup)
    {name : String} {v : Json} (hmem : (name.toList, v) ∈ fields) :
    field name fields = some (some v) := by
  have hone : (fields.filter fun f => f.1 = name.toList) = [(name.toList, v)] := by
    induction fields with
    | nil => exact absurd hmem List.not_mem_nil
    | cons f fields ih =>
      rw [List.map_cons, List.nodup_cons] at hnodup
      obtain ⟨hfirst, hnodup⟩ := hnodup
      rcases List.mem_cons.mp hmem with rfl | hmem
      · have hnone : (fields.filter fun f => f.1 = name.toList) = [] := by
          rw [List.filter_eq_nil_iff]
          intro g hg heq
          exact hfirst (List.mem_map.mpr ⟨g, hg, of_decide_eq_true heq⟩)
        rw [List.filter_cons_of_pos (by simp), hnone]
      · have hne : f.1 ≠ name.toList := by
          intro heq
          exact hfirst (List.mem_map.mpr ⟨_, hmem, heq.symm⟩)
        rw [List.filter_cons_of_neg (by simpa using hne)]
        exact ih hnodup hmem
  rw [field, hone]

theorem nodup_names : (["to_human", "to_machine", "to_namespace", "to_severity", "to_details",
    "to_timestamp", "to_hostname", "to_thread_id"].map String.toList).Nodup := by decide +kernel

/-- A trace is read back from its JSON object. -/
theorem traceOf_traceJson {parse : String → Option DateTime} {rfc3339 : DateTime → String}
    {trace : TraceObject}
    (htime : parse (rfc3339 trace.toTimestamp) = some trace.toTimestamp) :
    traceOf parse (traceJson rfc3339 trace) = some trace := by
  rw [traceJson]
  generalize hfields : [("to_human".toList, trace.toHuman.elim Json.null fun s => .string s.toList),
    ("to_machine".toList, .string trace.toMachine.toList),
    ("to_namespace".toList, .array (trace.toNamespace.map fun s => .string s.toList)),
    ("to_severity".toList, .string (toString trace.toSeverity).toList),
    ("to_details".toList, .string (detailName trace.toDetails).toList),
    ("to_timestamp".toList, .string (rfc3339 trace.toTimestamp).toList),
    ("to_hostname".toList, .string trace.toHostname.toList),
    ("to_thread_id".toList, .string trace.toThreadId.toList)] = fields
  have hnodup : (fields.map Prod.fst).Nodup := by
    rw [← hfields]
    exact nodup_names
  have hfield : ∀ name v, (name.toList, v) ∈ fields → field name fields = some (some v) :=
    fun name v hmem => field_eq hnodup hmem
  have hrequired : ∀ name v, (name.toList, v) ∈ fields → required name fields = some v := by
    intro name v hmem
    rw [required, hfield name v hmem]
    rfl
  have hhuman := hfield "to_human" _ (by rw [← hfields]; exact List.mem_cons_self ..)
  have hmachine := hrequired "to_machine" (.string trace.toMachine.toList) (by simp [← hfields])
  have hnamespace := hrequired "to_namespace"
    (.array (trace.toNamespace.map fun s => .string s.toList)) (by simp [← hfields])
  have hseverity := hrequired "to_severity" (.string (toString trace.toSeverity).toList)
    (by simp [← hfields])
  have hdetails := hrequired "to_details" (.string (detailName trace.toDetails).toList)
    (by simp [← hfields])
  have htimestamp := hrequired "to_timestamp" (.string (rfc3339 trace.toTimestamp).toList)
    (by simp [← hfields])
  have hhostname := hrequired "to_hostname" (.string trace.toHostname.toList)
    (by simp [← hfields])
  have hthread := hrequired "to_thread_id" (.string trace.toThreadId.toList)
    (by simp [← hfields])
  have hparsed : timestampOf parse (.string (rfc3339 trace.toTimestamp).toList) =
      some trace.toTimestamp := by rw [timestampOf, stringOf_string, Option.bind_some, htime]
  simp only [traceOf, hhuman, hmachine, hnamespace, hseverity, hdetails, htimestamp, hhostname,
    hthread, Option.bind_eq_bind, Option.bind_some, Option.getD_some, optionalStringOf_elim,
    stringOf_string, stringsOf_strings, severityOf_string, detailOf_string, hparsed]

/-- The fields are texts and lists of texts. -/
theorem readable_traceJson (finite : Text → Bool) (rfc3339 : DateTime → String)
    (trace : TraceObject) : (traceJson rfc3339 trace).Readable finite maxDepth := by
  have hhuman : (trace.toHuman.elim Json.null fun s => .string s.toList).Readable finite 126 := by
    cases trace.toHuman with
    | none => trivial
    | some s => trivial
  have hnamespace :
      (Json.array (trace.toNamespace.map fun s => .string s.toList)).Readable finite 126 := by
    intro v hv
    obtain ⟨s, -, rfl⟩ := List.mem_map.mp hv
    trivial
  intro f hf
  simp only [List.mem_cons, List.not_mem_nil, or_false] at hf
  rcases hf with rfl | rfl | rfl | rfl | rfl | rfl | rfl | rfl
  · exact hhuman
  · trivial
  · exact hnamespace
  all_goals trivial

theorem readTrace_write (finite : Text → Bool) {parse : String → Option DateTime}
    {rfc3339 : DateTime → String} {trace : TraceObject}
    (htime : parse (rfc3339 trace.toTimestamp) = some trace.toTimestamp) :
    readTrace finite parse (traceJson rfc3339 trace).write = some trace := by
  rw [readTrace, fromStr_write (readable_traceJson finite rfc3339 trace), Option.bind_some,
    traceOf_traceJson htime]

/-! A log. -/

/-- The text of a trace ends with a bracket, so its line is not shortened. -/
theorem stripCr_traceJson (rfc3339 : DateTime → String) (trace : TraceObject) :
    TextLines.stripCr (traceJson rfc3339 trace).write = (traceJson rfc3339 trace).write := by
  rw [TextLines.stripCr_eq_self_iff, traceJson, Json.write, List.getLast?_concat]
  decide

section Log

variable {finite : Text → Bool} {parse : String → Option DateTime} {stamp : ℤ → String}
  {time rfc3339 : DateTime → String}

/-- Traces that are appended to a log whose last line is ended are read behind it. -/
theorem readLog_append_lines {log : Text} (hclosed : ¬ TextLines.Open log)
    {traces : List TraceObject}
    (htimes : ∀ trace ∈ traces, parse (rfc3339 trace.toTimestamp) = some trace.toTimestamp) :
    readLog finite parse
        (log ++ AppendOnlyLog.lines (formats stamp time rfc3339) .forMachine traces) =
      readLog finite parse log ++ traces.map some := by
  have hlines : AppendOnlyLog.lines (formats stamp time rfc3339) .forMachine traces =
      (traces.map fun trace => (traceJson rfc3339 trace).write).flatMap (· ++ ['\n']) := by
    rw [AppendOnlyLog.lines, List.flatMap_map, List.flatMap_def]
    apply congrArg
    apply List.map_congr_left
    intro trace _
    rw [formatTrace, formatMachine, String.toList_append, formats, String.toList_ofList]
    rfl
  have hno : ∀ l ∈ traces.map fun trace => (traceJson rfc3339 trace).write, '\n' ∉ l := by
    intro l hl
    obtain ⟨trace, -, rfl⟩ := List.mem_map.mp hl
    exact newline_notMem_write _
  rw [readLog, TextLines.lines_append hclosed, List.map_append, ← readLog, hlines,
    TextLines.lines_terminated hno, List.map_map, List.map_map]
  apply congrArg
  apply List.map_congr_left
  intro trace htrace
  show readTrace finite parse (TextLines.stripCr _) = some trace
  rw [stripCr_traceJson, readTrace_write finite (htimes trace htrace)]

/-- The log of a run has the lines of the traces written. -/
theorem logged_eq_lines (F : Formats) (key : LogKey) (es : List Rotation.Event) :
    logged F key es = AppendOnlyLog.lines F key.logFormat (es.flatMap (tracesOf key)) := by
  induction es with
  | nil => rfl
  | cons e es ih =>
    have hwritten : written F key e = AppendOnlyLog.lines F key.logFormat (tracesOf key e) := by
      cases e with
      | write k traces now mtime =>
        rw [written, tracesOf]
        split
        · rfl
        · rfl
      | rotate k limitBytes now mtime => rfl
      | prune k maxAgeHours keepFilesNum now listing => rfl
    have hcons : logged F key (e :: es) = written F key e ++ logged F key es := rfl
    rw [hcons, hwritten, ih, List.flatMap_cons, AppendOnlyLog.lines, AppendOnlyLog.lines,
      AppendOnlyLog.lines, List.map_append, List.flatten_append]

/-- Over a run without pruning and errors, the files of a key get the lines of the traces
written under it. -/
theorem contents_eq_append_lines {u : Unicode} {F : Formats} {keys : List LogKey} {fs : Fs}
    {es : List Rotation.Event} {s : System} (hdistinct : Distinct u keys)
    (hkeys : ∀ e ∈ es, e.key ∈ keys) (hno : ∀ e ∈ es, NoPruning e)
    (hclock : es.Pairwise fun e e' => clock e ≤ clock e') (hstamps : StampsOrdered F es)
    (hearlier : ∀ key ∈ keys, ∀ name, Taken u fs key name →
      ∀ e ∈ es, name ≤ key.filename (F.stamp (clock e)))
    (h : run (Rotation.step u F) (start fs) es = some s) {key : LogKey} (hkey : key ∈ keys) :
    contents u s.fs key = contents u fs key ++
      AppendOnlyLog.lines F key.logFormat (es.flatMap (tracesOf key)) := by
  have hstart : AppendOnlyLog.Inv u F keys es (start fs) :=
    ⟨owned_start u keys fs, filesInUse_start u fs, fun key h hh => (by cases hh), hearlier⟩
  rw [run_contents hdistinct hkeys hno hclock hstamps hstart h key hkey, logged_eq_lines]
  rfl

/-- Over a run without pruning and errors, the files of a key with JSON lines are read as
what they held before and then exactly the traces written under the key, in order. -/
theorem readLog_contents {u : Unicode} {keys : List LogKey} {fs : Fs}
    {es : List Rotation.Event} {s : System} (hdistinct : Distinct u keys)
    (hkeys : ∀ e ∈ es, e.key ∈ keys) (hno : ∀ e ∈ es, NoPruning e)
    (hclock : es.Pairwise fun e e' => clock e ≤ clock e')
    (hstamps : StampsOrdered (formats stamp time rfc3339) es)
    (hearlier : ∀ key ∈ keys, ∀ name, Taken u fs key name →
      ∀ e ∈ es, name ≤ key.filename (stamp (clock e)))
    (h : run (Rotation.step u (formats stamp time rfc3339)) (start fs) es = some s)
    {key : LogKey} (hkey : key ∈ keys) (hformat : key.logFormat = .forMachine)
    (hclosed : ¬ TextLines.Open (contents u fs key))
    (htimes : ∀ trace ∈ es.flatMap (tracesOf key),
      parse (rfc3339 trace.toTimestamp) = some trace.toTimestamp) :
    readLog finite parse (contents u s.fs key) =
      readLog finite parse (contents u fs key) ++ (es.flatMap (tracesOf key)).map some := by
  rw [contents_eq_append_lines hdistinct hkeys hno hclock hstamps hearlier h hkey, hformat]
  exact readLog_append_lines hclosed htimes

end Log

def rotationStamp (now : ℤ) : String :=
  if now < 10 ^ 9 then "1970-01-01T00-00-00" else "1970-01-01T00-00-01"

def parseEpoch (s : String) : Option DateTime :=
  if s = "1970-01-01T00:00:00Z" then some ⟨0, 0, validTimestamp_zero⟩ else none

def machineRotations (t : TraceObject) : List Rotation.Event :=
  let node : LogKey := ⟨"node", ["logs"], .forMachine⟩
  [.write node [t] 0 0, .rotate node 1 1 1, .write node [t, t] 3 3,
    .rotate node 1 (10 ^ 9) (10 ^ 9), .write node [t] (10 ^ 9 + 1) (10 ^ 9 + 1)]

theorem readLog_contents_rotations :
    let t : TraceObject :=
      ⟨some "a\nb", "\"1\"", ["Test"], .info, .dNormal, ⟨0, 0, by decide⟩, "host", "1"⟩
    let node : LogKey := ⟨"node", ["logs"], .forMachine⟩
    let F := formats rotationStamp epoch.time fun _ => "1970-01-01T00:00:00Z"
    ∃ s, run (Rotation.step .ascii F) (start ⟨fun _ => none, 0⟩) (machineRotations t) = some s ∧
      readLog (fun _ => true) parseEpoch (contents .ascii s.fs node) =
        readLog (fun _ => true) parseEpoch (contents .ascii ⟨fun _ => none, 0⟩ node) ++
          [some t, some t, some t, some t] := by
  intro t node F
  obtain ⟨s, hrun⟩ : ∃ s, run (Rotation.step .ascii F) (start ⟨fun _ => none, 0⟩)
      (machineRotations t) = some s := Option.isSome_iff_exists.mp (by decide +kernel)
  have hnone : contents .ascii ⟨fun _ => none, 0⟩ node = [] := rfl
  have hclosed : ¬ TextLines.Open (contents .ascii ⟨fun _ => none, 0⟩ node) := by
    rw [hnone]
    exact TextLines.not_open_nil
  have hstamps : StampsOrdered F (machineRotations t) := by
    simp [StampsOrdered, machineRotations, clock, F, formats, rotationStamp]
    decide +kernel
  have hread := @readLog_contents (fun _ => true) parseEpoch rotationStamp epoch.time
    (fun _ => "1970-01-01T00:00:00Z") .ascii [node] ⟨fun _ => none, 0⟩ (machineRotations t) s
    (by decide) (by decide) (by simp [machineRotations, NoPruning])
    (by simp [machineRotations, clock]) hstamps
    (fun key _ name htaken => absurd htaken.2 (by simp [Fs.lookup])) hrun node
    (List.mem_singleton_self node) rfl hclosed (by decide)
  exact ⟨s, hrun, hread⟩

end Hermod.MachineLog
