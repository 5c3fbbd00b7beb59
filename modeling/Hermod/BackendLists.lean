import Hermod.TraceOptions

/-!
The lists of backends as they are written, and which of them is in force. An entry that has
no list, one whose list is empty and one whose list names no known backend are the same after
parsing. They are passed over, in favour of a list further up or of the default.
-/
namespace Hermod.BackendLists

open DispatcherConfig TraceOptions

/-- The options of an entry as they are written, where a list may be absent. -/
structure WrittenOptions where
  severity : Option RawSeverity
  detail : Option RawDetailLevel
  backends : Option (List String)
  maxFrequency : Option ℚ
  deriving DecidableEq

/-- An absent list is read as an empty one. -/
def WrittenOptions.read (written : WrittenOptions) : RawNamespaceOptions where
  severity := written.severity
  detail := written.detail
  backends := written.backends.getD []
  maxFrequency := written.maxFrequency

abbrev Written := AList fun _ : String => WrittenOptions

def Written.readEntries (written : Written) : List ((_ : String) × RawNamespaceOptions) :=
  written.entries.map (.map id fun _ options => options.read)

theorem nodupKeys_readEntries (written : Written) : written.readEntries.NodupKeys := by
  rw [List.NodupKeys, Written.readEntries, List.map₂_keys]
  exact written.nodupKeys

def Written.read (written : Written) : RawConfig where
  traceOptions := ⟨written.readEntries, nodupKeys_readEntries written⟩

def recognised (names : List String) : List BackendConfig := names.filterMap parseBackend

def known (entry : RawNamespaceOptions) : Option (List BackendConfig) :=
  if recognised entry.backends = [] then none else some (recognised entry.backends)

def defaultBackends : List BackendConfig := [.stdout .machineFormat, .ekgBackend, .forwarder]

/-- Among the entries that have a list, the one under `key` has the longest key that is a
prefix of `ns`. -/
structure LongestList (written : Written) (ns : List String) (key : String)
    (names : List String) : Prop where
  isPrefix : nsKey key <+: ns
  listed : ∃ entry, written.lookup key = some entry ∧ entry.backends = some names
  longest : ∀ key' entry, written.lookup key' = some entry → entry.backends ≠ none →
    nsKey key' <+: ns → (nsKey key').length ≤ (nsKey key).length

theorem lookup_read (written : Written) (key : String) :
    written.read.traceOptions.lookup key = (written.lookup key).map WrittenOptions.read :=
  List.dlookup_map₂ key

theorem selects_backends : Selects (fun | .backends bs => some bs | _ => none) known := by
  intro entry
  rw [findSome?_opts]
  cases entry.severity <;> cases entry.detail <;> cases entry.maxFrequency <;>
    simp [known, recognised]

/-- The longest list decides, if it names a known backend. -/
theorem LongestList.longest_known {written : Written} {ns : List String} {key : String}
    {names : List String} (h : LongestList written ns key names) (hknown : recognised names ≠ []) :
    Longest written.read known ns key (recognised names) where
  isPrefix := h.isPrefix
  value := by
    obtain ⟨entry, hentry, hnames⟩ := h.listed
    refine ⟨entry.read, by rw [lookup_read, hentry, Option.map_some], ?_⟩
    rw [known, WrittenOptions.read, hnames, Option.getD_some, if_neg hknown]
  longest := by
    intro key' raw hraw hset hbegins
    rw [lookup_read, Option.map_eq_some_iff] at hraw
    obtain ⟨entry, hentry, rfl⟩ := hraw
    refine h.longest key' entry hentry ?_ hbegins
    intro hnone
    rw [known, WrittenOptions.read, hnone] at hset
    exact hset rfl

/-- The backends of a namespace are the known ones of the longest matching list that names
any, and the default only where none does. So a list that names a known backend is never
widened. -/
theorem backendsFor_known (written : Written) (ns : List String) :
    (∀ key names, LongestList written ns key names → recognised names ≠ [] →
      written.read.intoTraceConfig.backendsFor ns = recognised names) ∧
    Effective written.read known ns defaultBackends
      (written.read.intoTraceConfig.backendsFor ns) := by
  have heffective : Effective written.read known ns defaultBackends
      (written.read.intoTraceConfig.backendsFor ns) :=
    effective_getOption selects_backends written.read ns defaultBackends
  refine ⟨?_, heffective⟩
  intro key names hlongest hknown
  exact heffective.decided key _ (hlongest.longest_known hknown)

def quiet (names : List String) : Written :=
  AList.insert "Secret" ⟨none, none, some names, none⟩ ∅

theorem longestList_quiet (names : List String) :
    LongestList (quiet names) ["Secret"] "Secret" names where
  isPrefix := by decide +kernel
  listed := ⟨⟨none, none, some names, none⟩, AList.lookup_insert ∅, rfl⟩
  longest := by
    intro key entry _ _ hbegins
    have hlength : (nsKey "Secret").length = 1 := by decide +kernel
    rw [hlength]
    exact hbegins.length_le

/-- With an empty list, and with a misspelt one, a namespace gets the default backends, the
forwarder among them. -/
theorem quiet_forwarded :
    LongestList (quiet []) ["Secret"] "Secret" [] ∧
      recognised [] = [] ∧
      (quiet []).read.intoTraceConfig.backendsFor ["Secret"] = defaultBackends ∧
    LongestList (quiet ["Stdout Machine"]) ["Secret"] "Secret" ["Stdout Machine"] ∧
      recognised ["Stdout Machine"] = [] ∧
      (quiet ["Stdout Machine"]).read.intoTraceConfig.backendsFor ["Secret"] = defaultBackends ∧
      .forwarder ∈ defaultBackends := by
  refine ⟨longestList_quiet [], rfl, ?_, longestList_quiet _, ?_, ?_, ?_⟩ <;> decide +kernel

end Hermod.BackendLists
