import Hermod.ReForwarder
import Mathlib.Data.List.Flatten
import Mathlib.Logic.Function.Basic

/-!
The accepting re-forwarder with all its downstreams. Batches of any nodes are filtered
and broadcast, downstreams connect and disconnect at any time, and each has its own
receiver and its own session. What a downstream is sent comes from the traces that were
forwarded since it connected.
-/
namespace Hermod.Fanout

open ProtocolTypes TraceForwardClient ReForwarder Transitions

structure Config where
  /-- Of the channel, which rounds the queue size up. -/
  capacity : ℕ
  namespaceFilters : NamespaceFilters

/-- A connection has its receiver from the moment it is accepted. -/
inductive Connection
  | absent
  | handshaking (d : Downstream)
  | serving (d : Downstream)
  | closed (d : Downstream)

def Connection.downstream : Connection → Option Downstream
  | .absent => none
  | .handshaking d => some d
  | .serving d => some d
  | .closed d => some d

def deliver (capacity : ℕ) (d : Downstream) (batch : List TraceObject) : Downstream :=
  (d.step capacity (.broadcast batch)).getD d

/-- The traces passed to `forward` are kept as history, with the number of them at which
each connection was accepted. -/
structure System where
  connections : ℕ → Connection
  forwarded : List TraceObject
  since : ℕ → ℕ

inductive Event
  | forward (traces : List TraceObject)
  | connect (i : ℕ)
  | handshake (i : ℕ) (accepted : Bool)
  /-- A step of the session of connection `i`. -/
  | recv (i : ℕ)
  | wire (i : ℕ) (e : WireEvent)
  | disconnect (i : ℕ)

namespace System

def start : System := ⟨fun _ => .absent, [], fun _ => 0⟩

def setConnection (s : System) (i : ℕ) (c : Connection) : System :=
  { s with connections := Function.update s.connections i c }

@[simp] theorem setConnection_self (s : System) (i : ℕ) (c : Connection) :
    (s.setConnection i c).connections i = c := Function.update_self ..

@[simp] theorem setConnection_of_ne (s : System) {i j : ℕ} (c : Connection) (hj : j ≠ i) :
    (s.setConnection i c).connections j = s.connections j := Function.update_of_ne hj ..

@[simp] theorem setConnection_forwarded (s : System) (i : ℕ) (c : Connection) :
    (s.setConnection i c).forwarded = s.forwarded := rfl

def broadcast (capacity : ℕ) (s : System) (batch : List TraceObject) : System :=
  { s with connections := fun i =>
      match s.connections i with
      | .handshaking d => .handshaking (deliver capacity d batch)
      | .serving d => .serving (deliver capacity d batch)
      | c => c }

def forward (cfg : Config) (s : System) (traces : List TraceObject) : System :=
  let filtered := traces.filter (matchesFilter cfg.namespaceFilters)
  let s := { s with forwarded := s.forwarded ++ traces }
  if filtered = [] then s else s.broadcast cfg.capacity filtered

/-- A session whose loop has returned lets go of its receiver. -/
def session (cfg : Config) (s : System) (i : ℕ) (e : ReForwarder.Event) : Option System :=
  match s.connections i with
  | .serving d =>
    (d.step cfg.capacity e).map fun d' =>
      match d'.session.phase with
      | .ended _ => s.setConnection i (.closed d')
      | _ => s.setConnection i (.serving d')
  | _ => none

def step (cfg : Config) (s : System) : Event → Option System
  | .forward traces => some (s.forward cfg traces)
  | .connect i =>
    match s.connections i with
    | .absent =>
      some { s.setConnection i (.handshaking Downstream.start) with
        since := Function.update s.since i s.forwarded.length }
    | _ => none
  | .handshake i accepted =>
    match s.connections i with
    | .handshaking d => some (s.setConnection i (if accepted then .serving d else .closed d))
    | _ => none
  | .recv i => s.session cfg i .recv
  | .wire i e => s.session cfg i (.wire e)
  | .disconnect i =>
    match (s.connections i).downstream with
    | some d => some (s.setConnection i (.closed d))
    | none => none

end System

def Passes (filters : NamespaceFilters) (trace : TraceObject) : Prop :=
  ∀ fs, filters = some fs → ∃ filter ∈ fs, filter <+: trace.toNamespace

theorem matchesFilter_iff {filters : NamespaceFilters} {trace : TraceObject} :
    matchesFilter filters trace = true ↔ Passes filters trace := by
  cases filters with
  | none => simp [matchesFilter, Passes]
  | some fs => simp [matchesFilter, Passes]

instance (filters : NamespaceFilters) (trace : TraceObject) : Decidable (Passes filters trace) :=
  decidable_of_iff _ matchesFilter_iff

/-! One downstream. -/

/-- What the receiver returned or still holds is part of the stream, in order, and so is
what the session has done with it. -/
structure Fed (stream : List TraceObject) (d : Downstream) : Prop where
  ordered : d.session.Ordered
  taken : d.session.taken = d.returned.flatten
  held : (d.returned.flatten ++ d.buffer.flatten).Sublist stream

theorem fed_start : Fed [] Downstream.start :=
  ⟨Session.ordered_start, rfl, List.Sublist.refl _⟩

theorem Fed.sent_sublist {stream : List TraceObject} {d : Downstream} (hd : Fed stream d) :
    d.session.sent.Sublist stream := by
  have hsent : d.session.sent.Sublist d.returned.flatten := hd.taken ▸ hd.ordered.sent_sublist
  exact (hsent.trans (List.sublist_append_left ..)).trans hd.held

/-- A batch goes to the end of the stream and, unless the receiver lags, of the buffer. -/
theorem Fed.deliver {capacity : ℕ} {stream : List TraceObject} {d : Downstream}
    (hd : Fed stream d) (batch : List TraceObject) :
    Fed (stream ++ batch) (deliver capacity d batch) := by
  have hheld : ∀ buffer : List (List TraceObject), buffer.Sublist d.buffer →
      (d.returned.flatten ++ (buffer ++ [batch]).flatten).Sublist (stream ++ batch) := by
    intro buffer hbuffer
    have hkept := (List.Sublist.refl d.returned.flatten).append hbuffer.flatten
    rw [List.flatten_append, List.flatten_singleton, ← List.append_assoc]
    exact (hkept.trans hd.held).append (List.Sublist.refl batch)
  unfold Fanout.deliver
  simp only [Downstream.step]
  split
  · exact ⟨hd.ordered, hd.taken, hheld d.buffer (List.Sublist.refl _)⟩
  · exact ⟨hd.ordered, hd.taken, hheld d.buffer.tail (List.tail_sublist _)⟩

/-- The session takes a batch off the buffer. -/
theorem Fed.receive {stream : List TraceObject} {d d' : Downstream} {batch : List TraceObject}
    {buffer : List (List TraceObject)} (hd : Fed stream d) (hbuf : d.buffer = batch :: buffer)
    (h : d.receive batch buffer = some d') : Fed stream d' := by
  obtain ⟨s, hs, rfl⟩ := Option.map_eq_some_iff.mp h
  refine ⟨hd.ordered.take hs, ?_, ?_⟩
  · rw [(Session.take_spec hs).2, List.flatten_append, List.flatten_singleton, hd.taken]
  · have hheld := hd.held
    rw [hbuf, List.flatten_cons] at hheld
    rw [List.flatten_append, List.flatten_singleton, List.append_assoc]
    exact hheld

/-- Draining ends, with or without a lag to report. -/
theorem Fed.drained {stream : List TraceObject} {d : Downstream} {s : Session} (hd : Fed stream d)
    (hs : d.session.drained = some s) (missed : ℕ) :
    Fed stream { d with session := s, missed := missed } := by
  refine ⟨hd.ordered.drained hs, ?_, hd.held⟩
  obtain ⟨batch, -, rfl⟩ := Session.drained_spec hs
  exact hd.taken

/-- A session takes from what its receiver was fed. -/
theorem Fed.step {capacity : ℕ} {stream : List TraceObject} {d d' : Downstream}
    {e : ReForwarder.Event} (hd : Fed stream d) (he : ∀ batch, e ≠ .broadcast batch)
    (h : d.step capacity e = some d') : Fed stream d' := by
  cases e with
  | broadcast batch => exact absurd rfl (he batch)
  | recv =>
    simp only [Downstream.step] at h
    split at h
    · split at h
      · rw [← Option.some.inj h]
        exact ⟨hd.ordered, hd.taken, hd.held⟩
      · split at h
        · rename_i batch buffer hbuf
          exact hd.receive hbuf h
        · cases h
    · split at h
      · obtain ⟨s, hs, rfl⟩ := Option.map_eq_some_iff.mp h
        exact hd.drained hs 0
      · split at h
        · rename_i batch buffer hbuf
          exact hd.receive hbuf h
        · obtain ⟨s, hs, rfl⟩ := Option.map_eq_some_iff.mp h
          exact hd.drained hs d.missed
    · cases h
  | wire e =>
    obtain ⟨s, hs, rfl⟩ := Option.map_eq_some_iff.mp h
    exact ⟨hd.ordered.onWire hs, (Session.onWire_taken hs).trans hd.taken, hd.held⟩

/-! All downstreams. -/

namespace System

def stream (filters : NamespaceFilters) (s : System) (i : ℕ) : List TraceObject :=
  (s.forwarded.drop (s.since i)).filter fun trace => Passes filters trace

structure Inv (cfg : Config) (s : System) : Prop where
  since : ∀ i, s.since i ≤ s.forwarded.length
  fed : ∀ i d, (s.connections i).downstream = some d →
    Fed (s.stream cfg.namespaceFilters i) d

theorem inv_start (cfg : Config) : Inv cfg start :=
  ⟨fun _ => Nat.le_refl 0, fun i d h => by cases h⟩

/-- One connection changes, and its downstream is still fed by its stream. -/
theorem Inv.setConnection {cfg : Config} {s : System} {i : ℕ} {c : Connection} (hs : Inv cfg s)
    (hc : ∀ d, c.downstream = some d → Fed (s.stream cfg.namespaceFilters i) d) :
    Inv cfg (s.setConnection i c) := by
  refine ⟨hs.since, ?_⟩
  intro j d hd
  by_cases hj : j = i
  · subst hj
    rw [setConnection_self] at hd
    exact hc d hd
  · rw [setConnection_of_ne s c hj] at hd
    exact hs.fed j d hd

/-- A connection that is accepted now has seen nothing of the traces forwarded before. -/
theorem Inv.connect {cfg : Config} {s : System} (hs : Inv cfg s) (i : ℕ) :
    Inv cfg { s.setConnection i (.handshaking Downstream.start) with
      since := Function.update s.since i s.forwarded.length } := by
  refine ⟨?_, ?_⟩
  · intro j
    by_cases hj : j = i
    · subst hj
      simp
    · simpa [hj] using hs.since j
  · intro j d hd
    by_cases hj : j = i
    · subst hj
      have hnil : s.forwarded.drop s.forwarded.length = [] := List.drop_length
      obtain rfl : Downstream.start = d := by simpa [Connection.downstream] using hd
      simpa [stream, hnil] using fed_start
    · have hd' : (s.connections j).downstream = some d := by simpa [hj] using hd
      simpa [stream, hj] using hs.fed j d hd'

theorem stream_forwarded {filters : NamespaceFilters} {s : System} {i : ℕ}
    (hsince : s.since i ≤ s.forwarded.length) (traces : List TraceObject)
    (connections : ℕ → Connection) :
    stream filters ⟨connections, s.forwarded ++ traces, s.since⟩ i =
      s.stream filters i ++ traces.filter (matchesFilter filters) := by
  have hfilter : (fun trace => decide (Passes filters trace)) = matchesFilter filters := by
    funext trace
    exact (Bool.decide_congr matchesFilter_iff.symm).trans (Bool.decide_eq_true ..)
  rw [stream, stream, List.drop_append_of_le_length hsince, List.filter_append, hfilter]

/-- Broadcasting feeds every receiver that is there with the traces that pass. -/
theorem Inv.forward {cfg : Config} {s : System} (hs : Inv cfg s) (traces : List TraceObject) :
    Inv cfg (s.forward cfg traces) := by
  have hsince : ∀ i, s.since i ≤ (s.forwarded ++ traces).length := by
    intro i
    rw [List.length_append]
    exact (hs.since i).trans (Nat.le_add_right ..)
  unfold System.forward
  simp only
  split
  · rename_i hnil
    refine ⟨hsince, ?_⟩
    intro i d hd
    rw [stream_forwarded (hs.since i), hnil, List.append_nil]
    exact hs.fed i d hd
  · refine ⟨hsince, ?_⟩
    intro i d hd
    rw [broadcast, stream_forwarded (hs.since i)]
    simp only [broadcast] at hd
    split at hd
    · rename_i d₀ hconn
      obtain rfl : deliver cfg.capacity d₀ _ = d := Option.some.inj hd
      exact (hs.fed i d₀ (by rw [hconn]; rfl)).deliver _
    · rename_i d₀ hconn
      obtain rfl : deliver cfg.capacity d₀ _ = d := Option.some.inj hd
      exact (hs.fed i d₀ (by rw [hconn]; rfl)).deliver _
    · have hfed := hs.fed i d hd
      refine ⟨hfed.ordered, hfed.taken, hfed.held.trans (List.sublist_append_left ..)⟩

theorem Inv.session {cfg : Config} {s s' : System} {i : ℕ} {e : ReForwarder.Event}
    (hs : Inv cfg s) (he : ∀ batch, e ≠ .broadcast batch) (h : s.session cfg i e = some s') :
    Inv cfg s' := by
  unfold System.session at h
  split at h
  · rename_i d hconn
    obtain ⟨d', hstep, rfl⟩ := Option.map_eq_some_iff.mp h
    have hfed : Fed (s.stream cfg.namespaceFilters i) d' :=
      (hs.fed i d (by rw [hconn]; rfl)).step he hstep
    split
    · exact hs.setConnection fun d hd => Option.some.inj hd ▸ hfed
    · exact hs.setConnection fun d hd => Option.some.inj hd ▸ hfed
  · cases h

theorem Inv.step {cfg : Config} {s s' : System} {e : Event} (hs : Inv cfg s)
    (h : s.step cfg e = some s') : Inv cfg s' := by
  cases e with
  | forward traces =>
    rw [System.step, Option.some.injEq] at h
    exact h ▸ hs.forward traces
  | connect i =>
    simp only [System.step] at h
    split at h
    · rw [← Option.some.inj h]
      exact hs.connect i
    · cases h
  | handshake i accepted =>
    simp only [System.step] at h
    split at h
    · rename_i d hconn
      have hfed := hs.fed i d (by rw [hconn]; rfl)
      rw [← Option.some.inj h]
      apply hs.setConnection
      intro d' hd'
      have heq : d = d' := by
        cases accepted
        · exact Option.some.inj hd'
        · exact Option.some.inj hd'
      exact heq ▸ hfed
    · cases h
  | recv i => exact hs.session (fun batch he => by cases he) h
  | wire i e => exact hs.session (fun batch he => by cases he) h
  | disconnect i =>
    simp only [System.step] at h
    split at h
    · rename_i d hconn
      rw [← Option.some.inj h]
      exact hs.setConnection fun d' hd' => Option.some.inj hd' ▸ hs.fed i d hconn
    · cases h

end System

/-- What each downstream has been sent comes, in order and without repetition, from the
traces forwarded since it connected that pass the filters. -/
theorem sent_sublist_stream (cfg : Config) {es : List Event} {s : System}
    (h : run (System.step cfg) .start es = some s) {i : ℕ} {d : Downstream}
    (hd : (s.connections i).downstream = some d) :
    d.session.sent.Sublist
      ((s.forwarded.drop (s.since i)).filter fun trace => Passes cfg.namespaceFilters trace) :=
  ((run_invariant (fun _ _ _ hs hstep => System.Inv.step hs hstep) (System.inv_start cfg) h).fed i d
    hd).sent_sublist

def lateDownstream (t : TraceObject) : List Event :=
  [.forward [t], .connect 0, .forward [t, { t with toNamespace := ["Other"] }], .handshake 0 true,
    .recv 0, .recv 0, .wire 0 (.arrive (.traceObjectsRequest ⟨true, 100⟩)), .wire 0 .handle]

theorem sent_sublist_stream_late :
    let t : TraceObject := ⟨none, "{}", ["Test"], .info, .dNormal, ⟨0, 0, by decide⟩, "host", "1"⟩
    let cfg : Config := ⟨16, some [["Test"]]⟩
    ∃ s d, run (System.step cfg) .start (lateDownstream t) = some s ∧
      (s.connections 0).downstream = some d ∧ d.session.sent = [t] ∧
      d.session.sent.Sublist
        ((s.forwarded.drop (s.since 0)).filter fun trace => Passes cfg.namespaceFilters trace) := by
  intro t cfg
  exact ⟨_, _, rfl, rfl, rfl, @sent_sublist_stream cfg (lateDownstream t) _ rfl _ _ rfl⟩

end Hermod.Fanout
