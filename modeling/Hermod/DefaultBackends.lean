import Hermod.Dispatcher
import Hermod.LongestPrefix
import Mathlib.Data.List.Dedup

/-!
The backends that the builder registers by itself. It looks for them in the lists that the
options of the configuration have, of whatever namespace. The routing has one list more,
which it uses where no option applies, and that one the builder does not know.
-/
namespace Hermod.DefaultBackends

open DispatcherConfig Dispatcher LongestPrefix

inductive DefaultBackend
  | stdout (format : FormatLogging)
  | datapoint
  deriving DecidableEq

structure DispatcherBuilder where
  config : TraceConfig
  backends : BackendConfigKey → Option DefaultBackend

namespace DispatcherBuilder

def new (config : TraceConfig) : DispatcherBuilder := ⟨config, fun _ => none⟩

def seen (config : TraceConfig) : List BackendConfigKey :=
  (config.options.entries.flatMap fun entry =>
    entry.2.flatMap fun
      | .backends bks => bks.map .of
      | _ => []).dedup

/-- The forwarder and the metrics need handles from outside. -/
def create : BackendConfigKey → Option DefaultBackend
  | .stdoutMachine => some (.stdout .machineFormat)
  | .stdoutColoured => some (.stdout .humanFormatColoured)
  | .stdoutUncoloured => some (.stdout .humanFormatUncoloured)
  | .datapoint => some .datapoint
  | _ => none

def insertDefault (backends : BackendConfigKey → Option DefaultBackend)
    (key : BackendConfigKey) : BackendConfigKey → Option DefaultBackend :=
  if (backends key).isSome then backends
  else
    match create key with
    | some backend => Function.update backends key (some backend)
    | none => backends

def withDefaultBackends (builder : DispatcherBuilder) : DispatcherBuilder :=
  { builder with backends := (seen builder.config).foldl insertDefault builder.backends }

end DispatcherBuilder

open DispatcherBuilder

def IsDefault : BackendConfig → Prop
  | .stdout _ => True
  | .datapointBackend => True
  | _ => False

def Lists (config : TraceConfig) (b : BackendConfig) : Prop :=
  ∃ key opts bks, config.options.lookup key = some opts ∧ .backends bks ∈ opts ∧ b ∈ bks

def Routed (config : TraceConfig) (ns : List String) : Prop :=
  ∃ key opts bks, key <+: ns ∧ config.options.lookup key = some opts ∧ .backends bks ∈ opts

def Covers (config : TraceConfig) (ns : List String) : Prop :=
  ∀ b ∈ config.backendsFor ns, IsDefault b →
    ((DispatcherBuilder.new config).withDefaultBackends.backends (.of b)).isSome

section Registration

variable {config : TraceConfig} {b : BackendConfig}

theorem insertDefault_self (backends : BackendConfigKey → Option DefaultBackend)
    (key : BackendConfigKey) :
    insertDefault backends key key = (backends key).or (create key) := by
  rw [insertDefault]
  cases hkey : backends key with
  | some backend => simp [hkey]
  | none => cases hcreate : create key <;> simp [hkey]

theorem insertDefault_of_ne (backends : BackendConfigKey → Option DefaultBackend)
    {key key' : BackendConfigKey} (h : key' ≠ key) :
    insertDefault backends key key' = backends key' := by
  rw [insertDefault]
  split
  · rfl
  · cases create key with
    | some backend => exact Function.update_of_ne h _ _
    | none => rfl

/-- In whatever order the keys come, each that is new is registered. -/
theorem foldl_insertDefault (keys : List BackendConfigKey)
    (backends : BackendConfigKey → Option DefaultBackend) (key : BackendConfigKey) :
    keys.foldl insertDefault backends key =
      (backends key).or (if key ∈ keys then create key else none) := by
  induction keys generalizing backends with
  | nil => simp
  | cons k keys ih =>
    rw [List.foldl_cons, ih]
    by_cases hk : key = k
    · subst hk
      rw [insertDefault_self]
      cases hkey : backends key <;> cases hcreate : create key <;> simp
    · rw [insertDefault_of_ne backends hk]
      simp [hk]

/-- What the builder has seen is what some option lists. -/
theorem of_mem_seen_iff : .of b ∈ seen config ↔ Lists config b := by
  rw [seen, List.mem_dedup, List.mem_flatMap]
  constructor
  · intro h
    obtain ⟨⟨key, opts⟩, hentry, hmem⟩ := h
    obtain ⟨opt, hopt, hmem⟩ := List.mem_flatMap.mp hmem
    cases opt with
    | backends bks =>
      obtain ⟨b', hb', hkey⟩ := List.mem_map.mp hmem
      obtain rfl := BackendConfigKey.of_injective hkey
      exact ⟨key, opts, bks, AList.mem_lookup_iff.mpr hentry, hopt, hb'⟩
    | severity s => cases hmem
    | detail d => cases hmem
    | limiter maxFreq => cases hmem
  · intro h
    obtain ⟨key, opts, bks, hlookup, hopt, hb⟩ := h
    exact ⟨⟨key, opts⟩, AList.mem_lookup_iff.mp hlookup,
      List.mem_flatMap.mpr ⟨.backends bks, hopt, List.mem_map_of_mem hb⟩⟩

theorem isSome_create (h : IsDefault b) : (create (.of b)).isSome := by
  rcases b with _ | (_ | _ | _) | _ | _ <;> first | rfl | exact h.elim

/-- What the builder can create is registered exactly where an option lists it. -/
theorem registered_iff (h : IsDefault b) :
    ((DispatcherBuilder.new config).withDefaultBackends.backends (.of b)).isSome ↔
      Lists config b := by
  have hlookup : (DispatcherBuilder.new config).withDefaultBackends.backends (.of b) =
      if .of b ∈ seen config then create (.of b) else none :=
    foldl_insertDefault (seen config) (fun _ => none) (.of b)
  rw [hlookup, ← of_mem_seen_iff]
  by_cases hmem : .of b ∈ seen config
  · rw [if_pos hmem]
    exact iff_of_true (isSome_create h) hmem
  · rw [if_neg hmem]
    exact iff_of_false Bool.false_ne_true hmem

end Registration

section Routing

variable {config : TraceConfig} {ns : List String}

def selectBackends : ConfigOption → Option (List BackendConfig)
  | .backends bs => some bs
  | _ => none

theorem backendsFor_eq (config : TraceConfig) (ns : List String) :
    config.backendsFor ns = (config.getOption ns selectBackends).getD
      [.stdout .machineFormat, .ekgBackend, .forwarder] := rfl

theorem exists_of_findSome? {opts : List ConfigOption} {bks : List BackendConfig}
    (h : opts.findSome? selectBackends = some bks) : .backends bks ∈ opts := by
  obtain ⟨opt, hopt, hsel⟩ := List.exists_of_findSome?_eq_some h
  cases opt with
  | backends bs =>
    obtain rfl : bs = bks := Option.some.inj hsel
    exact hopt
  | severity s => cases hsel
  | detail d => cases hsel
  | limiter maxFreq => cases hsel

/-- A list that the options have for a namespace is one of the options. -/
theorem exists_of_getOption {bks : List BackendConfig}
    (h : config.getOption ns selectBackends = some bks) :
    ∃ key opts, key <+: ns ∧ config.options.lookup key = some opts ∧ .backends bks ∈ opts := by
  obtain ⟨key, hkey⟩ := search_eq_some_iff.mp h
  obtain ⟨opts, hlookup, hfound⟩ := Option.bind_eq_some_iff.mp hkey.value
  exact ⟨key, opts, hkey.isPrefix, hlookup, exists_of_findSome? hfound⟩

/-- Nothing is found exactly when no prefix has a list. -/
theorem getOption_eq_none_iff : config.getOption ns selectBackends = none ↔ ¬ Routed config ns := by
  constructor
  · intro h hrouted
    obtain ⟨key, opts, bks, hbegins, hlookup, hopt⟩ := hrouted
    have hnone := search_eq_none_iff.mp h key hbegins
    rw [hlookup, Option.bind_some, List.findSome?_eq_none_iff] at hnone
    exact Option.some_ne_none _ (hnone _ hopt)
  · intro h
    cases hfound : config.getOption ns selectBackends with
    | none => rfl
    | some bks =>
      obtain ⟨key, opts, hbegins, hlookup, hopt⟩ := exists_of_getOption hfound
      exact absurd ⟨key, opts, bks, hbegins, hlookup, hopt⟩ h

/-- The builder registers what the routing of a namespace needs of it, exactly when the
namespace or one above it has a list of its own, or an option somewhere lists the one
default of the routing that the builder can create. -/
theorem covers_iff (config : TraceConfig) (ns : List String) :
    Covers config ns ↔ Routed config ns ∨ Lists config (.stdout .machineFormat) := by
  rw [Covers, backendsFor_eq]
  cases hfound : config.getOption ns selectBackends with
  | some bks =>
    obtain ⟨key, opts, hbegins, hlookup, hopt⟩ := exists_of_getOption hfound
    refine iff_of_true ?_ (Or.inl ⟨key, opts, bks, hbegins, hlookup, hopt⟩)
    intro b hb hdefault
    exact (registered_iff hdefault).mpr ⟨key, opts, bks, hlookup, hopt, hb⟩
  | none =>
    rw [or_iff_right (getOption_eq_none_iff.mp hfound), Option.getD_none]
    constructor
    · intro hcovers
      have hdefault : IsDefault (.stdout .machineFormat) := trivial
      exact (registered_iff hdefault).mp (hcovers _ (List.mem_cons_self ..) hdefault)
    · intro hlisted b hb hdefault
      simp only [List.mem_cons, List.not_mem_nil, or_false] at hb
      rcases hb with rfl | rfl | rfl
      · exact (registered_iff hdefault).mpr hlisted
      · exact hdefault.elim
      · exact hdefault.elim

end Routing

/-- With no options at all everything is routed to standard output, which the builder has not
registered. -/
theorem not_covers_empty : ¬ Covers ⟨∅⟩ ["Node", "Startup"] := by
  intro hcovers
  have hregistered := hcovers (.stdout .machineFormat) (by decide) trivial
  revert hregistered
  decide

end Hermod.DefaultBackends
