import Hermod.ProtocolTypes
import Mathlib.Data.List.AList
import Mathlib.Data.Rat.Defs

/-!
The configuration of the dispatcher. Options are kept by namespace, and each kind of
option is looked up on its own along the prefixes of a namespace, the longest first.
-/
namespace Hermod.DispatcherConfig

open ProtocolTypes

/-- A severity filter. No threshold is silence. -/
structure SeverityF where
  threshold : Option Severity
  deriving DecidableEq

def SeverityF.passes (f : SeverityF) (sev : Severity) : Bool :=
  match f.threshold with
  | none => false
  | some threshold => threshold.toNat ≤ sev.toNat

inductive FormatLogging
  | humanFormatColoured
  | humanFormatUncoloured
  | machineFormat
  deriving DecidableEq

inductive BackendConfig
  | forwarder
  | stdout (format : FormatLogging)
  | ekgBackend
  | datapointBackend
  deriving DecidableEq

inductive ConfigOption
  | severity (s : SeverityF)
  | detail (d : DetailLevel)
  | backends (bs : List BackendConfig)
  /-- At most so many messages a second. -/
  | limiter (maxFreq : ℚ)
  deriving DecidableEq

structure TraceConfig where
  options : AList fun _ : List String => List ConfigOption

namespace TraceConfig

/-- The exact key is tried first, then its shorter and shorter prefixes. -/
def getOption {α : Type} (config : TraceConfig) (ns : List String)
    (selector : ConfigOption → Option α) : Option α :=
  ns.inits.reverse.findSome? fun key =>
    (config.options.lookup key).bind fun opts => opts.findSome? selector

def severityFor (config : TraceConfig) (ns : List String) : SeverityF :=
  (config.getOption ns fun
    | .severity s => some s
    | _ => none).getD ⟨some .warning⟩

def detailFor (config : TraceConfig) (ns : List String) : DetailLevel :=
  (config.getOption ns fun
    | .detail d => some d
    | _ => none).getD .dNormal

def backendsFor (config : TraceConfig) (ns : List String) : List BackendConfig :=
  (config.getOption ns fun
    | .backends bs => some bs
    | _ => none).getD [.stdout .machineFormat, .ekgBackend, .forwarder]

def limiterFor (config : TraceConfig) (ns : List String) : Option ℚ :=
  config.getOption ns fun
    | .limiter maxFreq => some maxFreq
    | _ => none

end TraceConfig

end Hermod.DispatcherConfig
