import Hermod.TraceForwarder

/-!
One downstream of the accepting re-forwarder. Batches come from a broadcast channel,
which drops the oldest ones for a receiver that lags behind; the session loop is that
of the trace forwarder, fed with whole batches.
-/
namespace Hermod.ReForwarder

open ProtocolTypes ProtocolMessages TraceForwardClient Transitions

/-- Where there are filters, only traces are forwarded whose namespace starts with one. -/
abbrev NamespaceFilters := Option (List (List String))

def matchesFilter (filters : NamespaceFilters) (trace : TraceObject) : Bool :=
  match filters with
  | none => true
  | some filters => filters.any fun filter => filter.isPrefixOf trace.toNamespace

/-- The receiver's end of the broadcast channel and the session it feeds. The batches
that the receiver has returned are kept as history. -/
structure Downstream where
  session : Session
  buffer : List (List TraceObject)
  missed : ℕ
  returned : List (List TraceObject)
  deriving DecidableEq

inductive Event
  | broadcast (batch : List TraceObject)
  /-- The session loop receives from the channel, waiting for the first batch only. -/
  | recv
  | wire (e : WireEvent)
  deriving DecidableEq

namespace Downstream

def start : Downstream := ⟨Session.start, [], 0, []⟩

def receive (d : Downstream) (batch : List TraceObject) (buffer : List (List TraceObject)) :
    Option Downstream :=
  (d.session.take batch).map fun s =>
    { d with session := s, buffer := buffer, returned := d.returned ++ [batch] }

/-- The channel has `capacity` places: the queue size that is configured, or one for zero,
rounded up to a power of two by the library. -/
def step (capacity : ℕ) (d : Downstream) : Event → Option Downstream
  | .broadcast batch =>
    if d.buffer.length < capacity then some { d with buffer := d.buffer ++ [batch] }
    else some { d with buffer := d.buffer.tail ++ [batch], missed := d.missed + 1 }
  | .recv =>
    match d.session.phase with
    | .waiting =>
      -- `Lagged` is reported before the batches that are left, and the loop goes on.
      if 0 < d.missed then some { d with missed := 0 }
      else
        match d.buffer with
        | batch :: buffer => d.receive batch buffer
        | [] => none
    | .draining _ =>
      -- Here `Lagged` is an error like any other and ends the draining.
      if 0 < d.missed then d.session.drained.map fun s => { d with session := s, missed := 0 }
      else
        match d.buffer with
        | batch :: buffer => d.receive batch buffer
        | [] => d.session.drained.map fun s => { d with session := s }
    | _ => none
  | .wire e => (d.session.onWire e).map fun s => { d with session := s }

inductive Stepped (d : Downstream) : Event → Downstream → Prop
  | idle {e : Event} {d' : Downstream} (he : ∀ w, e ≠ .wire w) (hs : d'.session = d.session)
      (hr : d'.returned = d.returned) : Stepped d e d'
  | receive {batch : List TraceObject} {d' : Downstream}
      (hs : d.session.take batch = some d'.session) (hr : d'.returned = d.returned ++ [batch]) :
      Stepped d .recv d'
  | drained {d' : Downstream} (hs : d.session.drained = some d'.session)
      (hr : d'.returned = d.returned) : Stepped d .recv d'
  | wire {e : WireEvent} {d' : Downstream} (hs : d.session.onWire e = some d'.session)
      (hr : d'.returned = d.returned) : Stepped d (.wire e) d'

theorem receive_spec {d d' : Downstream} {batch : List TraceObject}
    {buffer : List (List TraceObject)} (h : d.receive batch buffer = some d') :
    Stepped d .recv d' := by
  obtain ⟨s, hs, rfl⟩ := Option.map_eq_some_iff.mp h
  exact Stepped.receive hs rfl

theorem step_spec {capacity : ℕ} {d d' : Downstream} {e : Event}
    (h : d.step capacity e = some d') : Stepped d e d' := by
  cases e with
  | broadcast batch =>
    simp only [step] at h
    split at h
    · rw [← Option.some.inj h]
      exact Stepped.idle (fun _ he => by cases he) rfl rfl
    · rw [← Option.some.inj h]
      exact Stepped.idle (fun _ he => by cases he) rfl rfl
  | recv =>
    simp only [step] at h
    split at h
    · split at h
      · rw [← Option.some.inj h]
        exact Stepped.idle (fun _ he => by cases he) rfl rfl
      · split at h
        · exact receive_spec h
        · cases h
    · split at h
      · obtain ⟨s, hs, rfl⟩ := Option.map_eq_some_iff.mp h
        exact Stepped.drained hs rfl
      · split at h
        · exact receive_spec h
        · obtain ⟨s, hs, rfl⟩ := Option.map_eq_some_iff.mp h
          exact Stepped.drained hs rfl
    · cases h
  | wire e =>
    obtain ⟨s, hs, rfl⟩ := Option.map_eq_some_iff.mp h
    exact Stepped.wire hs rfl

def Healthy : Event → Prop
  | .wire e => Session.Healthy e
  | _ => True

def Fits (d : Downstream) : Event → Prop
  | .wire e => d.session.Fits e
  | _ => True

def Conserved (d : Downstream) : Prop :=
  d.session.sent ++ d.session.phase.batch = d.returned.flatten

structure Running (d : Downstream) : Prop where
  session : d.session.Running
  taken : d.session.taken = d.returned.flatten

theorem running_start : Running start := ⟨Session.running_start, rfl⟩

theorem Running.conserved_iff {d : Downstream} (hd : Running d) :
    d.Conserved ↔ d.session.Conserved := by
  rw [Conserved, Session.Conserved, hd.taken]

/-- A healthy step keeps the session running, and loses nothing exactly when the batch fits. -/
theorem Running.step {capacity : ℕ} {d d' : Downstream} {e : Event} (hd : Running d)
    (he : Healthy e) (h : d.step capacity e = some d') :
    Running d' ∧ (d'.Conserved ↔ d.Conserved ∧ d.Fits e) := by
  have hfinish : ∀ {P : Prop}, d'.session.Running → d'.session.taken = d'.returned.flatten →
      (d'.session.Conserved ↔ d.session.Conserved ∧ P) →
      Running d' ∧ (d'.Conserved ↔ d.Conserved ∧ P) := by
    intro P hrun htaken hstep
    have hd' : Running d' := ⟨hrun, htaken⟩
    exact ⟨hd', by rw [hd'.conserved_iff, hd.conserved_iff, hstep]⟩
  cases step_spec h with
  | idle hwire hs hr =>
    have hfits : d.Fits e := by
      cases e with
      | wire w => exact absurd rfl (hwire w)
      | broadcast batch => trivial
      | recv => trivial
    exact hfinish (hs ▸ hd.session) (by rw [hs, hr, hd.taken]) (by rw [hs, and_iff_left hfits])
  | @receive batch _ hs hr =>
    obtain ⟨hrun, hstep⟩ := hd.session.take hs
    refine hfinish hrun ?_ (hstep.trans (and_iff_left trivial).symm)
    rw [(Session.take_spec hs).2, hr, List.flatten_append, List.flatten_singleton, hd.taken]
  | drained hs hr =>
    obtain ⟨hrun, hstep⟩ := hd.session.drained hs
    refine hfinish hrun ?_ (hstep.trans (and_iff_left trivial).symm)
    obtain ⟨batch, -, hs'⟩ := Session.drained_spec hs
    rw [hs', hr, hd.taken]
  | wire hs hr =>
    obtain ⟨hrun, hstep⟩ := hd.session.onWire he hs
    exact hfinish hrun (by rw [Session.onWire_taken hs, hr, hd.taken]) hstep

/-- A healthy downstream loses nothing that its receiver returned exactly when every
request that was answered had room for the whole batch. -/
theorem conserved_iff_along {capacity : ℕ} {d : Downstream} {es : List Event}
    (h : run (Downstream.step capacity) start es = some d) (he : ∀ e ∈ es, Healthy e) :
    d.Conserved ↔ Along (Downstream.step capacity) Fits start es := by
  have hrun := run_iff_along (I := Running) (H := fun _ e => Healthy e) (P := Fits)
    (fun _ _ _ hs hH hstep => hs.step hH hstep) running_start (along_of_forall start he) h
  rw [hrun]
  exact and_iff_right rfl

end Downstream

/-- In sessions without a failure, of the forwarder and of every downstream, nothing is
lost and the order is kept exactly when every request that was answered had room for
the whole batch. -/
theorem no_trace_lost_iff (queueSize capacity : ℕ) :
    (∀ es f, run (TraceForwarder.Forwarder.step queueSize) .start es = some f →
      (∀ e ∈ es, TraceForwarder.Forwarder.Healthy e) →
      (f.allSent ++ f.pending = f.accepted ↔
        Along (TraceForwarder.Forwarder.step queueSize) TraceForwarder.Forwarder.Fits .start es)) ∧
    (∀ es d, run (Downstream.step capacity) .start es = some d →
      (∀ e ∈ es, Downstream.Healthy e) →
      (d.session.sent ++ d.session.phase.batch = d.returned.flatten ↔
        Along (Downstream.step capacity) Downstream.Fits .start es)) :=
  ⟨fun _ _ h he => TraceForwarder.Forwarder.conserved_iff_along h he,
    fun _ _ h he => Downstream.conserved_iff_along h he⟩

def twoTraces (t u : TraceObject) (n : UInt16) : List TraceForwarder.Event :=
  [.accept t, .accept u, .connect, .handshake true, .recv, .recv, .recv,
    .wire (.arrive (.traceObjectsRequest ⟨true, n⟩)), .wire .handle]

theorem twoTraces_healthy (t u : TraceObject) {n : UInt16} (hn : 1 ≤ n.toNat) :
    ∀ e ∈ twoTraces t u n, TraceForwarder.Forwarder.Healthy e := by
  intro e he
  simp only [twoTraces, List.mem_cons, List.not_mem_nil, or_false] at he
  rcases he with rfl | rfl | rfl | rfl | rfl | rfl | rfl | rfl | rfl
  all_goals first | exact trivial | exact ⟨_, rfl, hn⟩

/-- A request for two traces takes the whole batch. -/
theorem no_trace_lost_iff_two :
    let t : TraceObject := ⟨none, "{}", ["Test"], .info, .dNormal, ⟨0, 0, by decide⟩, "host", "1"⟩
    ∃ f, run (TraceForwarder.Forwarder.step 10) .start (twoTraces t t 2) = some f ∧
      (f.allSent ++ f.pending = f.accepted ↔
        Along (TraceForwarder.Forwarder.step 10) TraceForwarder.Forwarder.Fits .start
          (twoTraces t t 2)) := by
  intro t
  refine ⟨_, rfl, ?_⟩
  exact (no_trace_lost_iff 10 16).1 (twoTraces t t 2) _ rfl (twoTraces_healthy t t (by decide))

/-- A request for one trace leaves the other one neither sent nor held. -/
theorem request_one_loses_second :
    let t : TraceObject := ⟨none, "{}", ["Test"], .info, .dNormal, ⟨0, 0, by decide⟩, "host", "1"⟩
    ∃ f, run (TraceForwarder.Forwarder.step 10) .start (twoTraces t t 1) = some f ∧
      (∀ e ∈ twoTraces t t 1, TraceForwarder.Forwarder.Healthy e) ∧
      f.allSent ++ f.pending ≠ f.accepted := by
  intro t
  refine ⟨_, rfl, twoTraces_healthy t t (by decide), fun heq => ?_⟩
  have hlen := congrArg List.length heq
  exact absurd hlen (by decide)

end Hermod.ReForwarder
