import Hermod.Applications
import Hermod.LoggedTraces

/-!
From the calls of `dispatch` to the log files of the tracer. The tasks of the applications
dispatch, the forwarders serve their connections and the tracer logs, all at the same time. What
is logged of an application are messages that its tasks have dispatched and that passed the
filters, none of them Confidential.
-/
namespace Hermod.DispatchedLogs

open AppendOnlyLog Applications Confidentiality Dispatcher LogWriter MachineLog ProtocolTypes
  Transitions
open Application (due ofTask)
open LoggedTraces (Once partOf)
open TextLines (Text)
open TraceForwarder (Forwarder)
open TracerState (Unicode)

variable {R : Type}

structure System (R : Type) where
  applications : ℕ → Application R
  connections : ℕ → List ℕ
  count : ℕ
  server : ServerLogs.System

inductive Event
  | application (a : ℕ) (call : Call)
  /-- A step of a forwarder, of the network or of the tracer. -/
  | path (e : LoggedTraces.Event)

/-- The step puts a trace into a queue, which only the calls of the application do. -/
def fills : LoggedTraces.Event → Bool
  | .forwarder _ (.accept _) => true
  | _ => false

namespace System

def start (setup : ℕ → Setup R) (fs : Fs) : System R :=
  ⟨fun a => .start (setup a), fun _ => [], 0, .start fs⟩

def traces (s : System R) : LoggedTraces.System :=
  ⟨fun a => (s.applications a).node.forwarder, s.connections, s.count, s.server⟩

def setTraces (s : System R) (t : LoggedTraces.System) : System R :=
  ⟨fun a => (s.applications a).setForwarder (t.forwarders a), t.connections, t.count, t.server⟩

def step (cfg : ServerLogs.Config) (setup : ℕ → Setup R) (u : Unicode) (F : Formats)
    (s : System R) : Event → Option (System R)
  | .application a call =>
    ((s.applications a).step (setup a) call).map fun application =>
      { s with applications := Function.update s.applications a application }
  | .path e =>
    if fills e then none
    else (s.traces.step cfg (fun a => (setup a).queueSize) u F e).map s.setTraces

end System

/-! The other steps put nothing into a queue. -/

section Path

variable {cfg : ServerLogs.Config} {queueSize : ℕ → ℕ} {u : Unicode} {F : Formats}
  {t t' : LoggedTraces.System}

end Path

namespace System

variable {cfg : ServerLogs.Config} {setup : ℕ → Setup R} {u : Unicode} {F : Formats} {fs : Fs}
  {s s' : System R}

end System

def twoTraces : Setup Unit where
  unicode := .ascii
  prometheus := ⟨fun _ _ _ _ => some (), false⟩
  config := ⟨∅⟩
  hostname := "host"
  registered _ := true
  queueSize := 2
  nodeInfo := none
  registry := ()

def message (privacy : Privacy) (machine : String) : LogMessage :=
  ⟨⟨[], ["Test"]⟩, some .error, privacy, fun _ => machine, "", []⟩

end Hermod.DispatchedLogs
