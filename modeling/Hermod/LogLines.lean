import Hermod.AppendOnlyLog
import Hermod.Dispatcher
import Hermod.JsonText
import Hermod.TextLines

/-!
The lines of the log files and of the standard output. A trace is written as one line of
JSON, or as a line of text in which the namespace and the message stand as they are. In
JSON every newline is escaped; in text none is, so a trace that contains one is written as
several lines.
-/
namespace Hermod.LogLines

open AppendOnlyLog Dispatcher JsonText LogWriter LogWriter.System ProtocolTypes
open TextLines (Text)

def detailName : DetailLevel → String
  | .dMinimal => "DMinimal"
  | .dNormal => "DNormal"
  | .dDetailed => "DDetailed"
  | .dMaximum => "DMaximum"

/-- The fields of a trace in the order of its declaration. A missing text is null. -/
def traceJson (rfc3339 : DateTime → String) (trace : TraceObject) : Json :=
  .object [
    ("to_human".toList, trace.toHuman.elim .null fun s => .string s.toList),
    ("to_machine".toList, .string trace.toMachine.toList),
    ("to_namespace".toList, .array (trace.toNamespace.map fun s => .string s.toList)),
    ("to_severity".toList, .string (toString trace.toSeverity).toList),
    ("to_details".toList, .string (detailName trace.toDetails).toList),
    ("to_timestamp".toList, .string (rfc3339 trace.toTimestamp).toList),
    ("to_hostname".toList, .string trace.toHostname.toList),
    ("to_thread_id".toList, .string trace.toThreadId.toList)]

def formats (stamp : ℤ → String) (time rfc3339 : DateTime → String) : Formats :=
  ⟨stamp, time, fun trace => String.ofList (traceJson rfc3339 trace).write⟩

/-- A message without a text for humans shows its JSON object. -/
def buildHumanLine (F : Formats) (msg : DispatchMessage) : String :=
  let obj := msg.traceObject
  let ts := F.time obj.toTimestamp
  let ns := ".".intercalate obj.toNamespace
  let sev := toString obj.toSeverity
  let body := if msg.human = "" then "\x7b\"data\":" ++ msg.machine ++ "\x7d" else msg.human
  "[" ++ ts ++ "] [" ++ sev ++ "] [" ++ ns ++ "] " ++ body

def OneLine (s : String) : Prop := ∃ body, s.toList = body ++ ['\n'] ∧ '\n' ∉ body

def Plain : LogFormat → TraceObject → Prop
  | .forHuman, trace =>
    '\n' ∉ (trace.toHuman.getD trace.toMachine).toList ∧
      ∀ segment ∈ trace.toNamespace, '\n' ∉ segment.toList
  | .forMachine, _ => True

theorem newline_notMem_severity (sev : Severity) : '\n' ∉ (toString sev).toList := by
  cases sev <;> decide

theorem newline_mem_namespace_iff (ns : List String) :
    '\n' ∈ (".".intercalate ns).toList ↔ ∃ segment ∈ ns, '\n' ∈ segment.toList := by
  rw [String.toList_intercalate, TextLines.mem_intercalate_iff (by decide)]
  simp

/-- A line is its body and a newline. -/
theorem formatTrace_eq (F : Formats) (trace : TraceObject) (format : LogFormat) :
    ∃ body, (formatTrace F trace format).toList = body ++ ['\n'] := by
  cases format with
  | forHuman => exact ⟨_, by rw [formatTrace, formatHuman, String.toList_append]; rfl⟩
  | forMachine => exact ⟨_, by rw [formatTrace, formatMachine, String.toList_append]; rfl⟩

/-- A text that ends with a newline is one line when it has no other. -/
theorem oneLine_iff_count (F : Formats) (trace : TraceObject) (format : LogFormat) :
    OneLine (formatTrace F trace format) ↔ (formatTrace F trace format).toList.count '\n' = 1 := by
  obtain ⟨body, hbody⟩ := formatTrace_eq F trace format
  constructor
  · rintro ⟨body', hbody', hno⟩
    rw [hbody', List.count_append, List.count_eq_zero_of_not_mem hno]
    rfl
  · intro hcount
    rw [hbody, List.count_append, List.count_singleton_self] at hcount
    exact ⟨body, hbody, List.count_eq_zero.mp (by omega)⟩

section Formats

variable {F : Formats}

/-- A line for humans is one line unless the texts that it is made of have newlines. -/
theorem oneLine_formatHuman_iff (htime : ∀ t, '\n' ∉ (F.time t).toList) (trace : TraceObject) :
    OneLine (formatHuman F trace) ↔ Plain .forHuman trace := by
  have hsev := newline_notMem_severity trace.toSeverity
  have hns := newline_mem_namespace_iff trace.toNamespace
  have hts := htime trace.toTimestamp
  have hbody : ∃ body, (formatHuman F trace).toList = body ++ ['\n'] ∧
      ('\n' ∈ body ↔ '\n' ∈ (".".intercalate trace.toNamespace).toList ∨
        '\n' ∈ (trace.toHuman.getD trace.toMachine).toList) := by
    refine ⟨_, by rw [formatHuman, String.toList_append]; rfl, ?_⟩
    simp [hts, hsev]
  obtain ⟨body, hbody, hmem⟩ := hbody
  rw [hns] at hmem
  constructor
  · rintro ⟨body', hbody', hno⟩
    have heq : body = body' := List.append_cancel_right (hbody.symm.trans hbody')
    rw [← heq, hmem, not_or, not_exists] at hno
    exact ⟨hno.2, fun segment hsegment hin => hno.1 segment ⟨hsegment, hin⟩⟩
  · rintro ⟨hmsg, hsegments⟩
    refine ⟨body, hbody, ?_⟩
    rw [hmem, not_or, not_exists]
    exact ⟨fun segment hsegment => hsegments segment hsegment.1 hsegment.2, hmsg⟩

/-- The newlines of a line come from its message or its namespace. -/
theorem newline_mem_buildHumanLine_iff (htime : ∀ t, '\n' ∉ (F.time t).toList)
    (msg : DispatchMessage) {v : Json} (hv : msg.machine = String.ofList v.write) :
    '\n' ∈ (buildHumanLine F msg).toList ↔
      '\n' ∈ msg.human.toList ∨ ∃ segment ∈ msg.traceObject.toNamespace, '\n' ∈ segment.toList := by
  have hsev := newline_notMem_severity msg.traceObject.toSeverity
  have hts := htime msg.traceObject.toTimestamp
  have hmachine := newline_notMem_write v
  rw [← newline_mem_namespace_iff, buildHumanLine]
  by_cases hhuman : msg.human = ""
  · simp [hhuman, hv, hts, hsev, hmachine]
  · simp [hhuman, hts, hsev, or_comm]

end Formats

/-- The new lines of a file are those of the traces. -/
theorem length_lines_writeLines {F : Formats} (format : LogFormat) (mtime : ℤ)
    (traces : List TraceObject) {opened : Fs × LogHandle} {f : File}
    (hf : opened.1.lookup opened.2.path = some (.file f)) (hfile : f.inode = opened.2.file)
    (hclosed : ¬ TextLines.Open f.content.toList) :
    ∃ g, (traces.foldl (writeLine F format mtime) opened).1.lookup opened.2.path =
        some (.file g) ∧
      ((TextLines.lines g.content.toList).length =
          (TextLines.lines f.content.toList).length + traces.length ↔
        ∀ trace ∈ traces, OneLine (formatTrace F trace format)) := by
  obtain ⟨⟨g, hg, hcontent⟩, -⟩ := writeLines_lookup F format mtime traces hf hfile
  refine ⟨g, hg, ?_⟩
  have hends : ∀ t ∈ traces.map fun trace => (formatTrace F trace format).toList,
      1 ≤ t.count '\n' := by
    intro t ht
    obtain ⟨trace, -, rfl⟩ := List.mem_map.mp ht
    obtain ⟨body, hbody⟩ := formatTrace_eq F trace format
    rw [hbody, List.count_append, List.count_singleton_self]
    omega
  have hcount := TextLines.count_flatten_eq_length_iff hends
  have hopen : ¬ TextLines.Open (lines F format traces) := by
    rcases List.eq_nil_or_concat traces with rfl | ⟨before, trace, rfl⟩
    · simp [lines]
    · obtain ⟨body, hbody⟩ := formatTrace_eq F trace format
      rw [List.concat_eq_append, lines, List.map_append, List.flatten_append]
      simp only [List.map_cons, List.map_nil, List.flatten_cons, List.flatten_nil,
        List.append_nil, hbody]
      rw [← List.append_assoc, TextLines.open_append_singleton]
      simp
  rw [hcontent, TextLines.lines_append hclosed, List.length_append,
    TextLines.length_lines (lines ..), if_neg hopen, Nat.add_zero, Nat.add_left_cancel_iff]
  rw [List.length_map] at hcount
  rw [lines, hcount, List.forall_mem_map]
  simp only [oneLine_iff_count]

/-- In both formats a trace is one line exactly when it is plain. -/
theorem oneLine_formatTrace_iff {stamp : ℤ → String} {time rfc3339 : DateTime → String}
    (htime : ∀ t, '\n' ∉ (time t).toList) (format : LogFormat) (trace : TraceObject) :
    OneLine (formatTrace (formats stamp time rfc3339) trace format) ↔ Plain format trace := by
  cases format with
  | forHuman => exact oneLine_formatHuman_iff htime trace
  | forMachine =>
    refine iff_of_true ⟨(traceJson rfc3339 trace).write, ?_, newline_notMem_write _⟩ trivial
    rw [formatTrace, formatMachine, String.toList_append, formats, String.toList_ofList]
    rfl

/-- When a trace is one line of a log file, when the traces of a call add as many lines to
their file, and when a message is one line of the standard output. -/
theorem one_line_iff {stamp : ℤ → String} {time rfc3339 : DateTime → String}
    (htime : ∀ t, '\n' ∉ (time t).toList) :
    (∀ format trace, OneLine (formatTrace (formats stamp time rfc3339) trace format) ↔
      Plain format trace) ∧
    (∀ format mtime traces opened f, Fs.lookup opened.1 opened.2.path = some (.file f) →
      f.inode = opened.2.file → ¬ TextLines.Open f.content.toList →
      ∃ g, Fs.lookup (List.foldl (writeLine (formats stamp time rfc3339) format mtime) opened
            traces).1 opened.2.path = some (.file g) ∧
        ((TextLines.lines g.content.toList).length =
            (TextLines.lines f.content.toList).length + traces.length ↔
          ∀ trace ∈ traces, Plain format trace)) ∧
    (∀ msg v, msg.machine = String.ofList (Json.write v) →
      ('\n' ∉ (buildHumanLine (formats stamp time rfc3339) msg).toList ↔
        '\n' ∉ msg.human.toList ∧
          ∀ segment ∈ msg.traceObject.toNamespace, '\n' ∉ segment.toList)) := by
  have hone := @oneLine_formatTrace_iff stamp time rfc3339 htime
  refine ⟨hone, ?_, ?_⟩
  · intro format mtime traces opened f hf hfile hclosed
    obtain ⟨g, hg, hlines⟩ := length_lines_writeLines (F := formats stamp time rfc3339) format
      mtime traces hf hfile hclosed
    refine ⟨g, hg, ?_⟩
    rw [hlines]
    exact forall₂_congr fun trace _ => hone format trace
  · intro msg v hv
    rw [newline_mem_buildHumanLine_iff (F := formats stamp time rfc3339) htime msg hv, not_or,
      not_exists]
    simp

def epoch : Formats :=
  formats (fun _ => "1970-01-01T00-00-00") (fun _ => "1970-01-01T00:00:00.000Z")
    (fun _ => "1970-01-01T00:00:00Z")

def emptyFile : Fs :=
  ⟨fun dir => if dir = ["logs", "node"] then
    some (AList.singleton "node-1970-01-01T00-00-00.log" (.file ⟨0, "", 0⟩)) else none, 1⟩

theorem one_line_iff_epoch :
    let t : TraceObject := ⟨none, "0", ["Test"], .info, .dNormal, ⟨0, 0, by decide⟩, "host", "1"⟩
    let opened : Fs × LogHandle :=
      (emptyFile, ⟨0, ⟨["logs", "node"], "node-1970-01-01T00-00-00.log"⟩, 0⟩)
    let msg : DispatchMessage := ⟨t, "", "null", [], .dNormal⟩
    (OneLine (formatTrace epoch t .forHuman) ↔ Plain .forHuman t) ∧
      (∃ g, Fs.lookup (List.foldl (writeLine epoch .forHuman 0) opened [t]).1 opened.2.path =
          some (.file g) ∧
        ((TextLines.lines g.content.toList).length = 0 + 1 ↔
          ∀ trace ∈ [t], Plain .forHuman trace)) ∧
      ('\n' ∉ (buildHumanLine epoch msg).toList ↔
        '\n' ∉ msg.human.toList ∧
          ∀ segment ∈ msg.traceObject.toNamespace, '\n' ∉ segment.toList) := by
  intro t opened msg
  have htime : ∀ _ : DateTime, '\n' ∉ "1970-01-01T00:00:00.000Z".toList := fun _ => by decide
  exact ⟨(one_line_iff htime).1 .forHuman t,
    (one_line_iff htime).2.1 .forHuman 0 [t] opened ⟨0, "", 0⟩ rfl rfl (by decide),
    (one_line_iff htime).2.2 msg .null rfl⟩

/-- A trace whose text has a newline makes two lines of a log file and of the standard
output. -/
theorem text_forges_line :
    let t : TraceObject :=
      ⟨some "a\nb", "0", ["Test"], .info, .dNormal, ⟨0, 0, by decide⟩, "host", "1"⟩
    ¬ OneLine (formatTrace epoch t .forHuman) ∧
      (TextLines.lines (lines epoch .forHuman [t])).length = 2 ∧
      '\n' ∈ (buildHumanLine epoch ⟨t, "a\nb", "null", [], .dNormal⟩).toList := by
  intro t
  refine ⟨?_, by decide +kernel, by decide +kernel⟩
  rw [oneLine_iff_count]
  decide +kernel

end Hermod.LogLines
