import Hermod.EkgBackend
import Hermod.EkgMessages
import Hermod.MetricsRegistry
import Hermod.ProtocolTypes
import Hermod.Transitions

/-!
The metrics of a connected node. A poller asks the node for its EKG metrics and the trace
handler takes numbers out of trace objects; both write into the registry of the node. Each
keeps the families it has registered in caches: the poller has one cache for each kind of
metric, those for gauges and counters by the name the node gives, the others by the name
of the family. Floating-point numbers and the reading of JSON are parameters.
-/
namespace Hermod.EkgPoller

open EkgBackend (Called)
open EkgMessages (EkgValue Metrics)
open MetricsRegistry MetricsRegistry.Registry
open ProtocolTypes (TraceObject)
open TracerState (Unicode)
open Transitions

/-- The `f64` of an `i64`, and the number one. -/
structure F64 (F : Type) where
  ofInt : Int64 → F
  one : F

inductive Cache
  | gauge
  | labelGauge
  | counter
  | traceGauge
  deriving DecidableEq

/-- What the poller and the trace handler of a node share and keep. A cached family is given
by the name under which it is registered. -/
structure Node (F : Type) where
  registry : Registry F
  caches : Cache × String → Option String
  counterValues : String → Option Int64

def sanitiseName (u : Unicode) (name : String) : String := EkgBackend.sanitiseName u name

def sanitiseMetricName (u : Unicode) (name : String) : String := EkgBackend.sanitiseName u name

def saturatingSub (a b : Int64) : ℤ := max (-2 ^ 63) (min (2 ^ 63 - 1) (a.toInt - b.toInt))

def increase (prev v : Int64) : ℕ := (max (saturatingSub v prev) 0).toNat

variable {F : Type}

namespace Node

def new : Node F := ⟨fun _ => none, fun _ => none, fun _ => none⟩

/-- The name in the cache is the help text as well. -/
def getOrCreate (s : Node F) (cache : Cache) (name fqName : String) (family : Family F) :
    Option (Node F × String) :=
  match s.caches (cache, name) with
  | some handle => some (s, handle)
  | none =>
    (s.registry.register fqName name family).map fun registry =>
      ({ s with
          registry := registry
          caches := Function.update s.caches (cache, name) (some fqName) }, fqName)

def getOrCreateGauge (u : Unicode) (s : Node F) (name : String) : Option (Node F × String) :=
  s.getOrCreate .gauge name (sanitiseName u name) (.gauge (.new []))

def getOrCreateCounter (u : Unicode) (s : Node F) (name : String) : Option (Node F × String) :=
  s.getOrCreate .counter name (sanitiseName u name) (.counter (.new []))

def getOrCreateLabelGauge (u : Unicode) (s : Node F) (name : String) : Option (Node F × String) :=
  s.getOrCreate .labelGauge name (sanitiseName u name) (.gauge (.new ["value"]))

def getOrCreateTraceGauge (s : Node F) (name : String) : Option (Node F × String) :=
  s.getOrCreate .traceGauge name name (.gauge (.new []))

def setGauge (s : Node F) (found : Option (Node F × String)) (values : List String) (x : F) :
    Called (Node F) :=
  match found with
  | none => .err s
  | some (s, gauge) =>
    match s.registry.modify gauge fun family => family.set values x with
    | none => .panicked s
    | some registry => .ok { s with registry := registry }

def countUp (s : Node F) (found : Option (Node F × String)) (name : String) (v : Int64) :
    Called (Node F) :=
  match found with
  | none => .err s
  | some (s, counter) =>
    let prev := (s.counterValues name).getD 0
    let delta := increase prev v
    let counterValues := Function.update s.counterValues name (some v)
    if 0 < delta then
      match s.registry.modify counter fun family => family.incBy [] (UInt64.ofNat delta) with
      | none => .panicked s
      | some registry => .ok { s with registry := registry, counterValues := counterValues }
    else .ok { s with counterValues := counterValues }

def updateMetric (u : Unicode) (x : F64 F) (s : Node F) (name : String) :
    EkgValue → Called (Node F)
  | .counter v => s.countUp (s.getOrCreateCounter u name) name v
  | .gauge v => s.setGauge (s.getOrCreateGauge u name) [] (x.ofInt v)
  | .label text =>
    let metricName := sanitiseName u (name ++ "_info")
    s.setGauge (s.getOrCreateLabelGauge u metricName) [text] x.one

/-- One after the other; what is refused is skipped. -/
def inOrder {α : Type} (f : Node F → α → Called (Node F)) : Node F → List α → Called (Node F)
  | s, [] => .ok s
  | s, a :: as =>
    match f s a with
    | .panicked s => .panicked s
    | .ok s => inOrder f s as
    | .err s => inOrder f s as

/-- The metrics come in the order in which their map iterates. -/
def updateRegistry (u : Unicode) (x : F64 F) (s : Node F) (metrics : Metrics) : Called (Node F) :=
  inOrder (fun s e => s.updateMetric u x e.1 e.2) s metrics.entries

/-- The names and values of the numbers in trace objects. `numbers` gives the fields of a
JSON object that are numbers, and nothing for other JSON. -/
def traceFields (u : Unicode) (numbers : String → List (String × F)) (traces : List TraceObject) :
    List (String × F) :=
  traces.flatMap fun t =>
    let segments := "_".intercalate t.toNamespace
    if segments = "" then []
    else (numbers t.toMachine).map fun p => (sanitiseMetricName u (segments ++ "_" ++ p.1), p.2)

def pushField (s : Node F) (metricName : String) (value : F) : Called (Node F) :=
  s.setGauge (s.getOrCreateTraceGauge metricName) [] value

def pushTraceMetrics (u : Unicode) (numbers : String → List (String × F)) (s : Node F)
    (traces : List TraceObject) : Called (Node F) :=
  inOrder (fun s p => s.pushField p.1 p.2) s (traceFields u numbers traces)

end Node

/-! Each update of one metric is a step. The poller and the trace handler run as tasks of
their own, so that the steps of their calls come in any order. -/

inductive Event (F : Type)
  | ekg (name : String) (value : EkgValue)
  | traceField (metricName : String) (value : F)

def update (u : Unicode) (x : F64 F) (s : Node F) : Event F → Called (Node F)
  | .ekg name value => s.updateMetric u x name value
  | .traceField metricName value => s.pushField metricName value

def completed {σ : Type} : Called σ → Option σ
  | .panicked _ => none
  | .ok s => some s
  | .err s => some s

def step (u : Unicode) (x : F64 F) (s : Node F) (e : Event F) : Option (Node F) :=
  completed (update u x s e)

section Calls

variable {u : Unicode} {x : F64 F}

/-- A call made of updates is the run of these updates. -/
theorem run_inOrder {α : Type} {f : Node F → α → Called (Node F)} {event : α → Event F}
    (hf : ∀ s a, update u x s (event a) = f s a) (s : Node F) (as : List α) :
    run (step u x) s (as.map event) = completed (Node.inOrder f s as) := by
  induction as generalizing s with
  | nil => rfl
  | cons a as ih =>
    rw [List.map_cons, run, step, hf, Node.inOrder]
    cases f s a with
    | ok s' => exact ih s'
    | err s' => exact ih s'
    | panicked s' => rfl

/-- A call of the poller is a run of its updates. -/
theorem run_updateRegistry (s : Node F) (metrics : Metrics) :
    run (step u x) s (metrics.entries.map fun e => .ekg e.1 e.2) =
      completed (s.updateRegistry u x metrics) :=
  run_inOrder (fun _ _ => rfl) s metrics.entries

/-- A call of the trace handler is a run of its updates. -/
theorem run_pushTraceMetrics (numbers : String → List (String × F)) (s : Node F)
    (traces : List TraceObject) :
    run (step u x) s ((Node.traceFields u numbers traces).map fun p => .traceField p.1 p.2) =
      completed (s.pushTraceMetrics u numbers traces) :=
  run_inOrder (fun _ _ => rfl) s _

end Calls

end Hermod.EkgPoller
