import Hermod.LogLines
import Hermod.TextLines

/-!
The entries that are sent to the system journal. An entry is a list of fields, each a name,
an equals sign and a value on a line of its own. The newlines of the message are replaced,
while the names of the node and of the trace's namespace are put in as they are, so what
follows a newline in one of them is read as further fields.
-/
namespace Hermod.Journal

open ProtocolTypes TracerState
open TextLines (Text)

def severityToJournalPriority : Severity → ℕ
  | .debug => 7
  | .info => 6
  | .notice => 5
  | .warning => 4
  | .error => 3
  | .critical => 2
  | .alert => 1
  | .emergency => 0

/-- `replace('\n', " ")`. -/
def flatten (s : Text) : Text := s.map fun c => if c = '\n' then ' ' else c

def namespaceText (trace : TraceObject) : Text := (".".intercalate trace.toNamespace).toList

def message (trace : TraceObject) : Text := flatten (trace.toHuman.getD trace.toMachine).toList

def payload (trace : TraceObject) (nodeName : String) : Text :=
  "PRIORITY=".toList ++ Nat.toDigits 10 (severityToJournalPriority trace.toSeverity) ++
    "\nSYSLOG_IDENTIFIER=hermod-tracer\n".toList ++
    "HERMOD_NODE=".toList ++ nodeName.toList ++
    "\nHERMOD_NAMESPACE=".toList ++ namespaceText trace ++
    "\nMESSAGE=".toList ++ message trace ++ "\n".toList

/-! How the journal reads an entry. -/

abbrev Field := Text × Text

/-- Names are of capital letters, digits and underscores, and begin with a letter. Other
fields are left out. -/
def isFieldName (key : Text) : Bool :=
  key.head?.any Char.isUpper && decide (key.length ≤ 64) &&
    key.all fun c => c.isUpper || c.isDigit || c = '_'

def cut (c : Char) : Text → Option (Text × Text)
  | [] => none
  | d :: s => if d = c then some ([], s) else (cut c s).map fun p => (d :: p.1, p.2)

/-- The fields of the lines, of which the last is not ended by a newline and ignored. A line
without an equals sign ends the entry or begins a field in another form; `other` stands for
what is read from there on. -/
def readLines (other : Text → List Text → List Field) : List Text → List Field
  | [] => []
  | [_] => []
  | line :: next :: rest =>
    match cut '=' line with
    | some (key, value) =>
      if isFieldName key then (key, value) :: readLines other (next :: rest)
      else readLines other (next :: rest)
    | none => other line (next :: rest)

def read (other : Text → List Text → List Field) (s : Text) : List Field :=
  readLines other (s.splitOn '\n')

def fieldLine (key value rest : Text) : Text := key ++ '=' :: value ++ '\n' :: rest

def fields (trace : TraceObject) (nodeName : String) : List Field :=
  [("PRIORITY".toList, Nat.toDigits 10 (severityToJournalPriority trace.toSeverity)),
    ("SYSLOG_IDENTIFIER".toList, "hermod-tracer".toList),
    ("HERMOD_NODE".toList, nodeName.toList),
    ("HERMOD_NAMESPACE".toList, namespaceText trace),
    ("MESSAGE".toList, message trace)]

theorem cut_append {c : Char} {key : Text} (h : c ∉ key) (value : Text) :
    cut c (key ++ c :: value) = some (key, value) := by
  induction key with
  | nil => simp [cut]
  | cons d key ih =>
    rw [List.mem_cons, not_or] at h
    have hne : d ≠ c := fun heq => h.1 heq.symm
    simp [cut, hne, ih h.2]

theorem notMem_of_isFieldName {key : Text} {c : Char} (h : isFieldName key = true)
    (hc : (c.isUpper || c.isDigit || decide (c = '_')) = false) : c ∉ key := by
  intro hmem
  rw [isFieldName, Bool.and_eq_true, List.all_eq_true] at h
  have hall := h.2 c hmem
  rw [hc] at hall
  cases hall

section Read

variable {other : Text → List Text → List Field}

/-- A field without newlines is read back from its line. -/
theorem read_field {key value : Text} (hkey : isFieldName key = true) (hvalue : '\n' ∉ value)
    (rest : Text) :
    read other (fieldLine key value rest) = (key, value) :: read other rest := by
  have hequals : '=' ∉ key := notMem_of_isFieldName hkey (by decide)
  have hnewline : '\n' ∉ key := notMem_of_isFieldName hkey (by decide)
  have hline : '\n' ∉ key ++ '=' :: value := by simp [hnewline, hvalue]
  unfold read fieldLine
  rw [List.splitOn_append_cons_self_of_not_mem hline]
  obtain ⟨next, lines, hlines⟩ := List.exists_cons_of_ne_nil (List.splitOn_ne_nil '\n' rest)
  simp only [hlines, readLines, cut_append hequals, hkey, if_true]

/-- A field is read up to the first newline of its value. -/
theorem read_field_cases {key : Text} (hkey : isFieldName key = true) (value rest : Text) :
    ∃ before after, '\n' ∉ before ∧
      read other (fieldLine key value rest) = (key, before) :: read other after ∧
      ('\n' ∉ value → before = value ∧ after = rest) := by
  by_cases hvalue : '\n' ∈ value
  · obtain ⟨before, after, rfl, hbefore⟩ := List.eq_append_cons_of_mem hvalue
    refine ⟨before, after ++ '\n' :: rest, hbefore, ?_, fun hno => absurd hvalue hno⟩
    rw [← read_field hkey hbefore]
    simp [fieldLine]
  · exact ⟨value, rest, hvalue, read_field hkey hvalue rest, fun _ => ⟨rfl, rfl⟩⟩

/-- Where the first field is to have a value, the value must be without newlines. -/
theorem read_eq_cons_iff {key : Text} (hkey : isFieldName key = true) (value rest : Text)
    (fs : List Field) :
    read other (fieldLine key value rest) = (key, value) :: fs ↔
      '\n' ∉ value ∧ read other rest = fs := by
  obtain ⟨before, after, hbefore, hread, hsame⟩ := @read_field_cases other _ hkey value rest
  rw [hread, List.cons.injEq, Prod.mk.injEq]
  constructor
  · rintro ⟨⟨-, rfl⟩, hrest⟩
    obtain ⟨-, rfl⟩ := hsame hbefore
    exact ⟨hbefore, hrest⟩
  · rintro ⟨hvalue, hrest⟩
    obtain ⟨rfl, rfl⟩ := hsame hvalue
    exact ⟨⟨rfl, rfl⟩, hrest⟩

end Read

theorem newline_notMem_flatten (s : Text) : '\n' ∉ flatten s := by
  intro hmem
  obtain ⟨c, -, hc⟩ := List.mem_map.mp hmem
  by_cases h : c = '\n'
  · simp [h] at hc
  · rw [if_neg h] at hc
    exact h hc

theorem newline_notMem_priority (sev : Severity) :
    '\n' ∉ Nat.toDigits 10 (severityToJournalPriority sev) := by
  cases sev <;> decide

/-- The fields of an entry in the order in which they are sent. -/
theorem payload_eq (trace : TraceObject) (nodeName : String) :
    payload trace nodeName =
      fieldLine "PRIORITY".toList
        (Nat.toDigits 10 (severityToJournalPriority trace.toSeverity))
        (fieldLine "SYSLOG_IDENTIFIER".toList "hermod-tracer".toList
          (fieldLine "HERMOD_NODE".toList nodeName.toList
            (fieldLine "HERMOD_NAMESPACE".toList (namespaceText trace)
              (fieldLine "MESSAGE".toList (message trace) [])))) := by
  have hpriority : "PRIORITY=".toList = "PRIORITY".toList ++ ['='] := by decide
  have htracer : "\nSYSLOG_IDENTIFIER=hermod-tracer\n".toList =
      '\n' :: "SYSLOG_IDENTIFIER".toList ++ '=' :: "hermod-tracer".toList ++ ['\n'] := by decide
  have hnode : "HERMOD_NODE=".toList = "HERMOD_NODE".toList ++ ['='] := by decide
  have hns : "\nHERMOD_NAMESPACE=".toList = '\n' :: "HERMOD_NAMESPACE".toList ++ ['='] := by decide
  have hmessage : "\nMESSAGE=".toList = '\n' :: "MESSAGE".toList ++ ['='] := by decide
  have hend : "\n".toList = ['\n'] := by decide
  unfold payload fieldLine
  rw [hpriority, htracer, hnode, hns, hmessage, hend]
  simp only [List.append_assoc, List.cons_append, List.nil_append]

/-- The entry is read as its five fields exactly when neither the name of the node nor a
segment of the namespace has a newline. -/
theorem read_payload_iff (other : Text → List Text → List Field) (trace : TraceObject)
    (nodeName : String) :
    read other (payload trace nodeName) = fields trace nodeName ↔
      '\n' ∉ nodeName.toList ∧ ∀ segment ∈ trace.toNamespace, '\n' ∉ segment.toList := by
  have hpriority := newline_notMem_priority trace.toSeverity
  have hmessage : '\n' ∉ message trace := newline_notMem_flatten _
  have hend : read other [] = [] := rfl
  have hns : '\n' ∉ namespaceText trace ↔
      ∀ segment ∈ trace.toNamespace, '\n' ∉ segment.toList := by
    rw [namespaceText, LogLines.newline_mem_namespace_iff]
    simp
  rw [payload_eq, fields, read_eq_cons_iff (by decide), read_eq_cons_iff (by decide),
    read_eq_cons_iff (by decide), read_eq_cons_iff (by decide), read_eq_cons_iff (by decide), hns]
  have htracer : '\n' ∉ "hermod-tracer".toList := by decide
  simp only [hpriority, hmessage, htracer, hend, not_false_eq_true, true_and, and_true]

/-- A node that gives its name two lines adds a message to its entries. -/
theorem node_name_forges_message :
    let t : TraceObject := ⟨none, "0", ["Test"], .info, .dNormal, ⟨0, 0, by decide⟩, "host", "1"⟩
    read (fun _ _ => []) (payload t "relay\nMESSAGE=ok") ≠ fields t "relay\nMESSAGE=ok" ∧
      ("MESSAGE".toList, "ok".toList) ∈
        read (fun _ _ => []) (payload t "relay\nMESSAGE=ok") := by
  intro t
  exact ⟨by decide +kernel, by decide +kernel⟩

end Hermod.Journal
