import Hermod.DispatcherConfig
import Hermod.LongestPrefix

/-!
The dispatcher's configuration as it is written, with dotted keys, and what it is turned
into. Keys that differ stay apart, and each kind of option is decided by the longest
matching key that sets it.
-/
namespace Hermod.TraceOptions

open ProtocolTypes DispatcherConfig LongestPrefix

inductive RawSeverity
  | debug
  | info
  | notice
  | warning
  | error
  | critical
  | alert
  | emergency
  | silence
  deriving DecidableEq

def RawSeverity.into : RawSeverity → SeverityF
  | debug => ⟨some .debug⟩
  | info => ⟨some .info⟩
  | notice => ⟨some .notice⟩
  | warning => ⟨some .warning⟩
  | error => ⟨some .error⟩
  | critical => ⟨some .critical⟩
  | alert => ⟨some .alert⟩
  | emergency => ⟨some .emergency⟩
  | silence => ⟨none⟩

inductive RawDetailLevel
  | dMinimal
  | dNormal
  | dDetailed
  | dMaximum
  deriving DecidableEq

def RawDetailLevel.into : RawDetailLevel → DetailLevel
  | dMinimal => .dMinimal
  | dNormal => .dNormal
  | dDetailed => .dDetailed
  | dMaximum => .dMaximum

structure RawNamespaceOptions where
  severity : Option RawSeverity
  detail : Option RawDetailLevel
  backends : List String
  maxFrequency : Option ℚ
  deriving DecidableEq

structure RawConfig where
  traceOptions : AList fun _ : String => RawNamespaceOptions

/-- The characters that `trim` removes, those with the property White_Space. -/
def isWhitespace (c : Char) : Bool :=
  (9 ≤ c.toNat && c.toNat ≤ 13) || (0x2000 ≤ c.toNat && c.toNat ≤ 0x200a) ||
    [0x20, 0x85, 0xa0, 0x1680, 0x2028, 0x2029, 0x202f, 0x205f, 0x3000].contains c.toNat

def trim (s : String) : String :=
  String.ofList ((s.toList.dropWhile isWhitespace).reverse.dropWhile isWhitespace).reverse

def parseBackend (s : String) : Option BackendConfig :=
  match trim s with
  | "Forwarder" => some .forwarder
  | "EKGBackend" => some .ekgBackend
  | "DatapointBackend" => some .datapointBackend
  | "Stdout HumanFormatColoured" => some (.stdout .humanFormatColoured)
  | "Stdout HumanFormatUncoloured" => some (.stdout .humanFormatUncoloured)
  | "Stdout MachineFormat" => some (.stdout .machineFormat)
  | _ => none

def nsKey (key : String) : List String :=
  if key = "" then [] else (key.toList.splitOn '.').map String.ofList

/-- The options of an entry. No backends, or none that is known, is no option. -/
def opts (raw : RawNamespaceOptions) : List ConfigOption :=
  let backends := raw.backends.filterMap parseBackend
  (raw.severity.map fun sev => ConfigOption.severity sev.into).toList ++
    (raw.detail.map fun det => ConfigOption.detail det.into).toList ++
    (if backends = [] then [] else [.backends backends]) ++
    (raw.maxFrequency.map fun freq => ConfigOption.limiter freq).toList

def insertEntry (options : AList fun _ : List String => List ConfigOption)
    (entry : (_ : String) × RawNamespaceOptions) :
    AList fun _ : List String => List ConfigOption :=
  if opts entry.2 = [] then options else options.insert (nsKey entry.1) (opts entry.2)

def RawConfig.intoTraceConfig (raw : RawConfig) : TraceConfig :=
  ⟨raw.traceOptions.entries.foldl insertEntry ∅⟩

/-! No two keys are merged. -/

theorem nsKey_eq_nil_iff {key : String} : nsKey key = [] ↔ key = "" := by
  unfold nsKey
  split
  · simp [*]
  · simp [*]

/-- Joining the parts with dots gives the key back. -/
theorem nsKey_injective : Function.Injective nsKey := by
  intro key key' h
  by_cases hk : key = ""
  · subst hk
    exact (nsKey_eq_nil_iff.mp (h.symm.trans (nsKey_eq_nil_iff.mpr rfl))).symm
  · by_cases hk' : key' = ""
    · subst hk'
      exact nsKey_eq_nil_iff.mp (h.trans (nsKey_eq_nil_iff.mpr rfl))
    · simp only [nsKey, hk, hk', if_false] at h
      have hparts : key.toList.splitOn '.' = key'.toList.splitOn '.' :=
        List.map_injective_iff.mpr (fun a b => String.ofList_inj.mp) h
      have hjoin := congrArg (['.'].intercalate) hparts
      rw [List.intercalate_splitOn, List.intercalate_splitOn] at hjoin
      exact String.toList_inj.mp hjoin

/-- A name that no entry with options has keeps what it had. -/
theorem lookup_foldl_of_not_mem {entries : List ((_ : String) × RawNamespaceOptions)}
    (options : AList fun _ : List String => List ConfigOption) {ns : List String}
    (h : ∀ e ∈ entries, opts e.2 ≠ [] → nsKey e.1 ≠ ns) :
    (entries.foldl insertEntry options).lookup ns = options.lookup ns := by
  induction entries generalizing options with
  | nil => rfl
  | cons e entries ih =>
    rw [List.foldl_cons, ih _ fun e' he' => h e' (List.mem_cons_of_mem e he')]
    by_cases hopts : opts e.2 = []
    · simp [insertEntry, hopts]
    · have hne := h e (List.mem_cons_self ..) hopts
      simp [insertEntry, hopts, AList.lookup_insert_ne hne.symm]

/-- Every entry with options has them under its own name, wherever it is listed. -/
theorem lookup_foldl_of_mem {entries : List ((_ : String) × RawNamespaceOptions)}
    (hkeys : (entries.map Sigma.fst).Nodup)
    (options : AList fun _ : List String => List ConfigOption)
    {e : (_ : String) × RawNamespaceOptions} (he : e ∈ entries) (hopts : opts e.2 ≠ []) :
    (entries.foldl insertEntry options).lookup (nsKey e.1) = some (opts e.2) := by
  induction entries generalizing options with
  | nil => exact absurd he List.not_mem_nil
  | cons e' entries ih =>
    rw [List.map_cons, List.nodup_cons] at hkeys
    rw [List.foldl_cons]
    rcases List.mem_cons.mp he with rfl | he
    · rw [lookup_foldl_of_not_mem]
      · simp [insertEntry, hopts]
      · intro e' he' _ heq
        have hkey : e'.1 = e.1 := nsKey_injective heq
        exact hkeys.1 (hkey ▸ List.mem_map_of_mem he')
    · exact ih hkeys.2 _ he

/-- What the parsed configuration has under a name are the options of an entry. -/
theorem lookup_options_eq_some_iff {raw : RawConfig} {ns : List String}
    {options : List ConfigOption} :
    raw.intoTraceConfig.options.lookup ns = some options ↔
      options ≠ [] ∧ ∃ key entry, nsKey key = ns ∧
        raw.traceOptions.lookup key = some entry ∧ opts entry = options := by
  have hnodup : (raw.traceOptions.entries.map Sigma.fst).Nodup := raw.traceOptions.nodupKeys
  constructor
  · intro h
    have hmem : ∃ e ∈ raw.traceOptions.entries, opts e.2 ≠ [] ∧ nsKey e.1 = ns := by
      by_contra hno
      push Not at hno
      rw [RawConfig.intoTraceConfig, lookup_foldl_of_not_mem _ hno] at h
      simp at h
    obtain ⟨e, he, hopts, rfl⟩ := hmem
    rw [RawConfig.intoTraceConfig, lookup_foldl_of_mem hnodup _ he hopts, Option.some.injEq] at h
    subst h
    exact ⟨hopts, e.1, e.2, rfl, AList.mem_lookup_iff.mpr he, rfl⟩
  · intro h
    obtain ⟨hopts, key, entry, rfl, hentry, rfl⟩ := h
    exact lookup_foldl_of_mem hnodup ∅ (e := ⟨key, entry⟩) (AList.mem_lookup_iff.mp hentry) hopts

/-! The option in force, one kind at a time. -/

variable {α : Type}

/-- Among the entries that set an option of one kind, as read by `set`, the one under
`key` has the longest key that is a prefix of `ns`, and sets it to `v`. -/
structure Longest (raw : RawConfig) (set : RawNamespaceOptions → Option α) (ns : List String)
    (key : String) (v : α) : Prop where
  isPrefix : nsKey key <+: ns
  value : ∃ entry, raw.traceOptions.lookup key = some entry ∧ set entry = some v
  longest : ∀ key' entry, raw.traceOptions.lookup key' = some entry → set entry ≠ none →
    nsKey key' <+: ns → (nsKey key').length ≤ (nsKey key).length

def Unset (raw : RawConfig) (set : RawNamespaceOptions → Option α) (ns : List String) : Prop :=
  ∀ key entry, raw.traceOptions.lookup key = some entry → nsKey key <+: ns → set entry = none

def Selects (selector : ConfigOption → Option α) (set : RawNamespaceOptions → Option α) : Prop :=
  ∀ entry, (opts entry).findSome? selector = set entry

def valueAt (raw : RawConfig) (selector : ConfigOption → Option α) (ns : List String) :
    Option α :=
  (raw.intoTraceConfig.options.lookup ns).bind fun opts => opts.findSome? selector

theorem valueAt_eq_some_iff {raw : RawConfig} {selector : ConfigOption → Option α}
    {set : RawNamespaceOptions → Option α} (hsel : Selects selector set) {ns : List String}
    {v : α} :
    valueAt raw selector ns = some v ↔
      ∃ key entry, nsKey key = ns ∧ raw.traceOptions.lookup key = some entry ∧
        set entry = some v := by
  rw [valueAt, Option.bind_eq_some_iff]
  constructor
  · intro h
    obtain ⟨options, hlookup, hv⟩ := h
    obtain ⟨-, key, entry, hkey, hentry, rfl⟩ := lookup_options_eq_some_iff.mp hlookup
    exact ⟨key, entry, hkey, hentry, by rw [← hsel entry, hv]⟩
  · intro h
    obtain ⟨key, entry, hkey, hentry, hv⟩ := h
    have hfound : (opts entry).findSome? selector = some v := by rw [hsel entry, hv]
    refine ⟨opts entry, lookup_options_eq_some_iff.mpr ⟨?_, key, entry, hkey, hentry, rfl⟩, hfound⟩
    intro hnil
    simp [hnil] at hfound

/-- The entry that decides is the one with the longest key. -/
theorem decides_valueAt_iff {raw : RawConfig} {selector : ConfigOption → Option α}
    {set : RawNamespaceOptions → Option α} (hsel : Selects selector set) {ns k : List String}
    {v : α} :
    Decides (valueAt raw selector) ns k v ↔ ∃ key, nsKey key = k ∧ Longest raw set ns key v := by
  have hset : ∀ key entry, raw.traceOptions.lookup key = some entry → set entry ≠ none →
      valueAt raw selector (nsKey key) ≠ none := by
    intro key entry hentry hne
    obtain ⟨w, hw⟩ := Option.ne_none_iff_exists'.mp hne
    have hvalue : valueAt raw selector (nsKey key) = some w :=
      (valueAt_eq_some_iff hsel).mpr ⟨key, entry, rfl, hentry, hw⟩
    simp [hvalue]
  constructor
  · intro h
    obtain ⟨key, entry, rfl, hentry, hv⟩ := (valueAt_eq_some_iff hsel).mp h.value
    refine ⟨key, rfl, h.isPrefix, ⟨entry, hentry, hv⟩, ?_⟩
    intro key' entry' hentry' hne hbegins
    exact h.longest (nsKey key') hbegins (hset key' entry' hentry' hne)
  · intro h
    obtain ⟨key, rfl, hbegins, ⟨entry, hentry, hv⟩, hlongest⟩ := h
    refine ⟨hbegins, (valueAt_eq_some_iff hsel).mpr ⟨key, entry, rfl, hentry, hv⟩, ?_⟩
    intro k' hk' hne
    obtain ⟨w, hw⟩ := Option.ne_none_iff_exists'.mp hne
    obtain ⟨key', entry', rfl, hentry', hw⟩ := (valueAt_eq_some_iff hsel).mp hw
    exact hlongest key' entry' hentry' (by simp [hw]) hk'

structure Effective (raw : RawConfig) (set : RawNamespaceOptions → Option α) (ns : List String)
    (default result : α) : Prop where
  decided : ∀ key v, Longest raw set ns key v → result = v
  undecided : Unset raw set ns → result = default
  exhaustive : Unset raw set ns ∨ ∃ key v, Longest raw set ns key v

/-- What the configuration finds is the option in force. -/
theorem effective_getOption {selector : ConfigOption → Option α}
    {set : RawNamespaceOptions → Option α} (hsel : Selects selector set) (raw : RawConfig)
    (ns : List String) (default : α) :
    Effective raw set ns default
      ((raw.intoTraceConfig.getOption ns selector).getD default) := by
  have hsearch : raw.intoTraceConfig.getOption ns selector = search (valueAt raw selector) ns := rfl
  have hunset : Unset raw set ns ↔ search (valueAt raw selector) ns = none := by
    rw [search_eq_none_iff]
    constructor
    · intro h k hk
      by_contra hne
      obtain ⟨v, hv⟩ := Option.ne_none_iff_exists'.mp hne
      obtain ⟨key, entry, rfl, hentry, hv⟩ := (valueAt_eq_some_iff hsel).mp hv
      simp [h key entry hentry hk] at hv
    · intro h key entry hentry hbegins
      by_contra hne
      obtain ⟨v, hv⟩ := Option.ne_none_iff_exists'.mp hne
      have hvalue := (valueAt_eq_some_iff hsel).mpr ⟨key, entry, rfl, hentry, hv⟩
      simp [h (nsKey key) hbegins] at hvalue
  rw [hsearch]
  refine ⟨fun key v h => ?_, fun h => ?_, ?_⟩
  · have hfound : search (valueAt raw selector) ns = some v :=
      search_eq_some_iff.mpr ⟨nsKey key, (decides_valueAt_iff hsel).mpr ⟨key, rfl, h⟩⟩
    rw [hfound, Option.getD_some]
  · rw [hunset.mp h, Option.getD_none]
  · cases h : search (valueAt raw selector) ns with
    | none => exact Or.inl (hunset.mpr h)
    | some v =>
      obtain ⟨k, hk⟩ := search_eq_some_iff.mp h
      obtain ⟨key, -, hkey⟩ := (decides_valueAt_iff hsel).mp hk
      exact Or.inr ⟨key, v, hkey⟩

/-- The entry that decides is unique. -/
theorem Longest.unique {raw : RawConfig} {set : RawNamespaceOptions → Option α}
    {ns : List String} {key key' : String} {v v' : α} (h : Longest raw set ns key v)
    (h' : Longest raw set ns key' v') : key = key' := by
  obtain ⟨entry, hentry, hv⟩ := h.value
  obtain ⟨entry', hentry', hv'⟩ := h'.value
  have hle := h'.longest key entry hentry (by simp [hv]) h.isPrefix
  have hge := h.longest key' entry' hentry' (by simp [hv']) h'.isPrefix
  apply nsKey_injective
  refine List.IsPrefix.eq_of_length ?_ (by omega)
  exact List.prefix_of_prefix_length_le h.isPrefix h'.isPrefix hle

theorem findSome?_toList_map {β γ : Type} (o : Option γ) (f : γ → ConfigOption)
    (selector : ConfigOption → Option β) :
    (o.map f).toList.findSome? selector = o.bind fun x => selector (f x) := by
  cases o with
  | none => rfl
  | some x => cases h : selector (f x) <;> simp [h]

/-- An entry lists at most one option of each kind. -/
theorem findSome?_opts (selector : ConfigOption → Option α) (entry : RawNamespaceOptions) :
    (opts entry).findSome? selector =
      (((entry.severity.bind fun sev => selector (.severity sev.into)).or
        (entry.detail.bind fun det => selector (.detail det.into))).or
        (if entry.backends.filterMap parseBackend = [] then none
          else selector (.backends (entry.backends.filterMap parseBackend)))).or
        (entry.maxFrequency.bind fun freq => selector (.limiter freq)) := by
  simp only [opts, List.findSome?_append, findSome?_toList_map]
  congr 2
  split
  · rfl
  · cases h : selector (.backends (entry.backends.filterMap parseBackend)) <;> simp [h]

theorem selects_severity : Selects
    (fun | .severity s => some s | _ => none) fun e => e.severity.map RawSeverity.into := by
  intro entry
  rw [findSome?_opts]
  cases h : entry.severity <;> simp [h]

theorem selects_detail : Selects
    (fun | .detail d => some d | _ => none) fun e => e.detail.map RawDetailLevel.into := by
  intro entry
  rw [findSome?_opts]
  cases h : entry.detail <;> simp [h]

theorem selects_limiter : Selects
    (fun | .limiter maxFreq => some maxFreq | _ => none) fun e => e.maxFrequency := by
  intro entry
  rw [findSome?_opts]
  cases h : entry.maxFrequency <;> simp [h]

theorem Selects.some {selector : ConfigOption → Option α}
    {set : RawNamespaceOptions → Option α} (hsel : Selects selector set) :
    Selects (fun o => (selector o).map some) fun e => (set e).map some := by
  intro entry
  have hmap := congrArg (Option.map Option.some) (hsel entry)
  rwa [List.map_findSome?] at hmap

theorem getOption_some (config : TraceConfig) (ns : List String)
    (selector : ConfigOption → Option α) :
    (config.getOption ns fun o => (selector o).map some).getD none =
      config.getOption ns selector := by
  have hmap : (config.getOption ns fun o => (selector o).map some) =
      (config.getOption ns selector).map some := by
    simp only [TraceConfig.getOption, List.map_findSome?]
    congr 1
    funext key
    cases h : config.options.lookup key <;> simp [h, List.map_findSome?, Function.comp_def]
  rw [hmap]
  cases config.getOption ns selector <;> rfl

/-- For every configuration and name the severity filter, the detail level and the rate
limit are those of the longest matching key that sets them, or the defaults; a key that
sets one kind does not hide another, and no key is merged with another or overwritten. -/
theorem effective_options (raw : RawConfig) (ns : List String) :
    Effective raw (fun e => e.severity.map RawSeverity.into) ns ⟨some .warning⟩
        (raw.intoTraceConfig.severityFor ns) ∧
      Effective raw (fun e => e.detail.map RawDetailLevel.into) ns .dNormal
        (raw.intoTraceConfig.detailFor ns) ∧
      Effective raw (fun e => e.maxFrequency.map some) ns none
        (raw.intoTraceConfig.limiterFor ns) ∧
      Function.Injective nsKey ∧
      ∀ key entry, raw.traceOptions.lookup key = some entry → opts entry ≠ [] →
        raw.intoTraceConfig.options.lookup (nsKey key) = some (opts entry) := by
  refine ⟨effective_getOption selects_severity raw ns _,
    effective_getOption selects_detail raw ns _, ?_, nsKey_injective, ?_⟩
  · have hlimiter := effective_getOption selects_limiter.some raw ns none
    rwa [getOption_some] at hlimiter
  · intro key entry hentry hopts
    exact lookup_options_eq_some_iff.mpr ⟨hopts, key, entry, rfl, hentry, rfl⟩

end Hermod.TraceOptions
