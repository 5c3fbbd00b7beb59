import Hermod.OrderedWork
import Hermod.TraceAcceptor
import Hermod.TraceHandler

/-!
From the nodes of a tracer to the tracer that it forwards to. The handlers of all connections
send to the queue of one forwarder, wait there when it is full, and are dropped where they wait
when their connection ends. What the forwarder sends on is made of the traces of each
connection in their order, and nothing is logged, forwarded or measured twice.
-/
namespace Hermod.Relay

open OrderedWork ProtocolTypes ReForwarder TraceForwarder TraceHandler Transitions
open TraceAcceptor.System (ofConnection ofConnection_append ofConnection_map)
open Tracer (toSend toOutput)

/-- The batches that each connection has received are kept as history, and from which
connection the queue has taken each trace. -/
structure System where
  tracer : Tracer
  closed : ℕ → Bool
  received : ℕ → List (List TraceObject)
  owned : List (ℕ × TraceObject)

inductive Event
  /-- The trace loop of connection `i` has received a batch. -/
  | batch (i : ℕ) (traces : List TraceObject)
  | handle (i : ℕ)
  /-- A step of the outbound forwarder or of the network. -/
  | forwarder (e : TraceForwarder.Event)
  /-- Connection `i` has ended. -/
  | close (i : ℕ)

def suspended : Stage → Bool
  | .idle => true
  | .forwarding (_ :: _) _ => true
  | _ => false

namespace System

def start : System := ⟨.start, fun _ => false, fun _ => [], []⟩

def handled (s : System) (i : ℕ) (tracer : Tracer) : System :=
  let taken := tracer.forwarder.accepted.drop s.tracer.forwarder.accepted.length
  { s with tracer := tracer, owned := s.owned ++ taken.map fun trace => (i, trace) }

def step (cfg : Config) (s : System) : Event → Option System
  | .batch i traces =>
    if s.closed i then none
    else (s.tracer.step cfg (.begin i traces)).map fun tracer =>
      { s with
        tracer := tracer
        received := Function.update s.received i (s.received i ++ [traces]) }
  | .handle i => (s.tracer.step cfg (.handle i)).map (s.handled i)
  | .forwarder e =>
    (s.tracer.step cfg (.forwarder e)).map fun tracer => { s with tracer := tracer }
  | .close i =>
    if ¬ s.closed i ∧ suspended (s.tracer.handlers i) then
      some { s with
        tracer := s.tracer.setStage i .idle
        closed := Function.update s.closed i true }
    else none

end System

def toForward (cfg : Config) (batches : List (List TraceObject)) : List TraceObject :=
  batches.flatten.filter (matchesFilter cfg.namespaceFilters)

def calls (cfg : Config) (nodeName : TracerState.NodeId) (batches : List (List TraceObject)) :
    List Output :=
  batches.flatMap fun traces => toOutput nodeName (.logging cfg.logging traces)

/-! What a handler does with its batch. -/

inductive Handled (cfg : Config) (s : Tracer) (i : ℕ) : Tracer → List TraceObject →
    List Output → Stage → Prop
  | logs {params : LoggingParams} {rest : List LoggingParams} {traces : List TraceObject}
      (hs : s.handlers i = .logging (params :: rest) traces) :
      Handled cfg s i
        ((s.record i (params.output (cfg.nodeName i) traces)).setStage i (.logging rest traces))
        [] [params.output (cfg.nodeName i) traces] (.logging rest traces)
  | logged {traces : List TraceObject} (hs : s.handlers i = .logging [] traces) :
      Handled cfg s i
        (s.setStage i (.forwarding (traces.filter (matchesFilter cfg.namespaceFilters)) traces))
        [] [] (.forwarding (traces.filter (matchesFilter cfg.namespaceFilters)) traces)
  | sends {trace : TraceObject} {rest traces : List TraceObject} {f : Forwarder}
      (hs : s.handlers i = .forwarding (trace :: rest) traces)
      (hsend : ForwarderHandle.send cfg.queueSize s.forwarder trace = some (.ok f)) :
      Handled cfg s i (Tracer.setStage { s with forwarder := f } i (.forwarding rest traces))
        [trace] [] (.forwarding rest traces)
  | gone {trace : TraceObject} {rest traces : List TraceObject}
      (hs : s.handlers i = .forwarding (trace :: rest) traces)
      (hfinished : s.forwarder.status = .finished) :
      Handled cfg s i (s.setStage i (.forwarding rest traces)) [] [] (.forwarding rest traces)
  | forwarded {traces : List TraceObject} (hs : s.handlers i = .forwarding [] traces) :
      Handled cfg s i (s.setStage i (.metrics traces)) [] [] (.metrics traces)
  | measures {traces : List TraceObject} (hs : s.handlers i = .metrics traces) :
      Handled cfg s i ((s.record i (.pushTraceMetrics traces)).setStage i .idle) []
        [.pushTraceMetrics traces] .idle

/-- Each step of a handler is one of the ways in which it moves on. -/
theorem handle_spec {cfg : Config} {s s' : Tracer} {i : ℕ} (h : s.handle cfg i = some s') :
    ∃ sent out stage, Handled cfg s i s' sent out stage := by
  unfold Tracer.handle at h
  split at h
  · cases h
  · rename_i hs
    rw [← Option.some.inj h]
    exact ⟨_, _, _, Handled.logs hs⟩
  · rename_i hs
    rw [← Option.some.inj h]
    exact ⟨_, _, _, Handled.logged hs⟩
  · rename_i hs
    obtain ⟨result, hsend, rfl⟩ := Option.map_eq_some_iff.mp h
    cases result with
    | ok f => exact ⟨_, _, _, Handled.sends hs hsend⟩
    | error e => exact ⟨_, _, _, Handled.gone hs (ForwarderHandle.send_error hsend)⟩
  · rename_i hs
    rw [← Option.some.inj h]
    exact ⟨_, _, _, Handled.forwarded hs⟩
  · rename_i hs
    rw [← Option.some.inj h]
    exact ⟨_, _, _, Handled.measures hs⟩

/-- Sending is accepting. -/
theorem step_of_send {queueSize : ℕ} {f f' : Forwarder} {trace : TraceObject}
    (h : ForwarderHandle.send queueSize f trace = some (.ok f')) :
    f.step queueSize (.accept trace) = some f' := by
  unfold ForwarderHandle.send at h
  split at h
  · cases h
  · obtain ⟨f'', haccept, hok⟩ := Option.map_eq_some_iff.mp h
    rw [haccept, Except.ok.inj hok]

/-- Other steps accept nothing, and there are none once the forwarder has finished. -/
theorem ownStep_spec {queueSize : ℕ} {f f' : Forwarder} {e : TraceForwarder.Event}
    (he : Tracer.ownStep e = true) (h : f.step queueSize e = some f') :
    f'.accepted = f.accepted ∧ f.status ≠ .finished := by
  cases Forwarder.step_spec h with
  | accept t => cases he
  | connect hs =>
    refine ⟨rfl, ?_⟩
    intro hfinished
    simp [Forwarder.step, hfinished] at h
  | established hs =>
    refine ⟨rfl, ?_⟩
    intro hfinished
    simp [Forwarder.step, hfinished] at h
  | refused hs =>
    refine ⟨rfl, ?_⟩
    intro hfinished
    simp [Forwarder.step, hfinished] at h
  | recv hs hq ht => exact ⟨rfl, by simp [hs]⟩
  | drained hs hd => exact ⟨rfl, by simp [hs]⟩
  | wire hs hw => exact ⟨Forwarder.afterWire_accepted _ _, by simp [hs]⟩

namespace System

structure Inv (cfg : Config) (s : System) : Prop where
  accepted : s.owned.map Prod.snd = s.tracer.forwarder.accepted
  ordered : Forwarder.OrderedSince [] [] s.tracer.forwarder
  idle : ∀ i, s.closed i = true → s.tracer.handlers i = .idle
  forwarded : ∀ i, Served (ofConnection i s.owned) (toSend cfg (s.tracer.handlers i))
    (toForward cfg (s.received i))
    (s.tracer.forwarder.status = .finished ∨ s.closed i = true)
  called : ∀ i, Served (s.tracer.outputs i) (toOutput (cfg.nodeName i) (s.tracer.handlers i))
    (calls cfg (cfg.nodeName i) (s.received i)) (s.closed i = true)

variable {cfg : Config} {s s' : System}

theorem inv_start (cfg : Config) : Inv cfg start where
  accepted := rfl
  ordered := Forwarder.orderedSince_start
  idle _ _ := rfl
  forwarded _ := ⟨[], rfl, fun hne => absurd rfl hne⟩
  called _ := ⟨[], rfl, fun hne => absurd rfl hne⟩

/-- The handler of one connection moves on. -/
theorem Inv.handled (hs : Inv cfg s) {i : ℕ} {tracer : Tracer} {sent : List TraceObject}
    {out : List Output} {stage : Stage} (hactive : s.tracer.handlers i ≠ .idle)
    (hhandlers : tracer.handlers = Function.update s.tracer.handlers i stage)
    (houtputs : ∀ j, tracer.outputs j = s.tracer.outputs j ++ if j = i then out else [])
    (haccepted : tracer.forwarder.accepted = s.tracer.forwarder.accepted ++ sent)
    (hordered : Forwarder.OrderedSince [] [] tracer.forwarder)
    (hstatus : s.tracer.forwarder.status = .finished → tracer.forwarder.status = .finished)
    (hforwarded : Served (ofConnection i s.owned ++ sent) (toSend cfg stage)
      (toForward cfg (s.received i))
      (tracer.forwarder.status = .finished ∨ s.closed i = true))
    (hcalled : Served (s.tracer.outputs i ++ out) (toOutput (cfg.nodeName i) stage)
      (calls cfg (cfg.nodeName i) (s.received i)) (s.closed i = true)) :
    Inv cfg (s.handled i tracer) := by
  have howned : (s.handled i tracer).owned = s.owned ++ sent.map fun trace => (i, trace) := by
    simp only [System.handled]
    rw [haccepted, List.drop_left]
  refine ⟨?_, hordered, fun j hj => ?_, fun j => ?_, fun j => ?_⟩
  · rw [howned, List.map_append, hs.accepted, List.map_map]
    show _ ++ sent.map id = tracer.forwarder.accepted
    rw [List.map_id, haccepted]
  · have hne : j ≠ i := by
      rintro rfl
      exact hactive (hs.idle j hj)
    show tracer.handlers j = _
    rw [hhandlers, Function.update_of_ne hne]
    exact hs.idle j hj
  · rw [howned, ofConnection_append, ofConnection_map]
    show Served _ (toSend cfg (tracer.handlers j)) _ _
    rw [hhandlers]
    by_cases hj : j = i
    · subst hj
      rw [if_pos rfl, Function.update_self]
      exact hforwarded
    · rw [if_neg hj, List.append_nil, Function.update_of_ne hj]
      exact (hs.forwarded j).imp fun hstopped => hstopped.imp_left hstatus
  · show Served (tracer.outputs j) (toOutput _ (tracer.handlers j)) _ _
    rw [hhandlers, houtputs]
    by_cases hj : j = i
    · subst hj
      rw [if_pos rfl, Function.update_self]
      exact hcalled
    · rw [if_neg hj, List.append_nil, Function.update_of_ne hj]
      exact hs.called j

theorem Inv.handle (hs : Inv cfg s) {i : ℕ} {tracer : Tracer}
    (h : s.tracer.handle cfg i = some tracer) : Inv cfg (s.handled i tracer) := by
  have hforwarded := hs.forwarded i
  have hcalled := hs.called i
  obtain ⟨sent, out, stage, hmoved⟩ := handle_spec h
  have hactive : s.tracer.handlers i ≠ .idle := by
    intro hidle
    simp [Tracer.handle, hidle] at h
  have hopen : ¬ s.closed i = true := fun hclosed => hactive (hs.idle i hclosed)
  cases hmoved with
  | @logs params rest traces hi =>
    rw [hi] at hforwarded hcalled
    refine hs.handled hactive rfl ?_ (List.append_nil _).symm hs.ordered id
      (by rwa [List.append_nil])
      (Served.advance [params.output (cfg.nodeName i) traces] hcalled hopen)
    intro j
    by_cases hj : j = i
    · subst hj
      simp [Tracer.record]
    · simp [Tracer.record, hj]
  | logged hi =>
    rw [hi] at hforwarded hcalled
    refine hs.handled hactive rfl (fun j => ?_) (List.append_nil _).symm hs.ordered id
      (by rwa [List.append_nil]) (by rwa [List.append_nil])
    rw [ite_self, List.append_nil, Tracer.setStage_outputs]
  | @sends trace rest traces f hi hsend =>
    rw [hi] at hforwarded hcalled
    have hstep := step_of_send hsend
    have hgoing := (ForwarderHandle.send_ok hsend).1
    refine hs.handled hactive rfl (fun j => ?_) (Forwarder.accepted_of_step hstep)
      (hs.ordered.step hstep) (fun hfinished => absurd hfinished hgoing) ?_
      (by rwa [List.append_nil])
    · rw [ite_self, List.append_nil, Tracer.setStage_outputs]
    · have hgoing' : ¬ (s.tracer.forwarder.status = .finished ∨ s.closed i = true) := by
        rintro (hfinished | hclosed)
        · exact hgoing hfinished
        · exact hopen hclosed
      have hadvanced := Served.advance [trace] hforwarded hgoing'
      exact hadvanced.imp fun hstopped => absurd hstopped hgoing'
  | @gone trace rest traces hi hfinished =>
    rw [hi] at hforwarded hcalled
    refine hs.handled hactive rfl (fun j => ?_) (List.append_nil _).symm hs.ordered id ?_
      (by rwa [List.append_nil])
    · rw [ite_self, List.append_nil, Tracer.setStage_outputs]
    · rw [List.append_nil]
      exact Served.drop [trace] hforwarded id fun _ => Or.inl hfinished
  | forwarded hi =>
    rw [hi] at hforwarded hcalled
    refine hs.handled hactive rfl (fun j => ?_) (List.append_nil _).symm hs.ordered id
      (by rwa [List.append_nil]) (by rwa [List.append_nil])
    rw [ite_self, List.append_nil, Tracer.setStage_outputs]
  | @measures traces hi =>
    rw [hi] at hforwarded hcalled
    have hadvanced : Served (s.tracer.outputs i ++ [.pushTraceMetrics traces])
        (toOutput (cfg.nodeName i) .idle) (calls cfg (cfg.nodeName i) (s.received i))
        (s.closed i = true) := Served.advance _ hcalled hopen
    refine hs.handled hactive rfl ?_ (List.append_nil _).symm hs.ordered id
      (by rwa [List.append_nil]) hadvanced
    intro j
    by_cases hj : j = i
    · subst hj
      simp [Tracer.record]
    · simp [Tracer.record, hj]

/-- A batch arrives where the handler is idle. -/
theorem Inv.batch (hs : Inv cfg s) {i : ℕ} {traces : List TraceObject} {tracer : Tracer}
    (hopen : ¬ s.closed i = true) (h : s.tracer.step cfg (.begin i traces) = some tracer) :
    Inv cfg { s with
      tracer := tracer
      received := Function.update s.received i (s.received i ++ [traces]) } := by
  simp only [Tracer.step] at h
  split at h
  · rename_i hidle
    rw [← Option.some.inj h]
    refine ⟨hs.accepted, hs.ordered, fun j hj => ?_, fun j => ?_, fun j => ?_⟩
    · have hne : j ≠ i := by
        rintro rfl
        exact hopen hj
      rw [Tracer.setStage_of_ne _ _ hne]
      exact hs.idle j hj
    · by_cases hj : j = i
      · subst hj
        have hforwarded := hs.forwarded j
        rw [hidle] at hforwarded
        have harrived := hforwarded.arrive (traces.filter (matchesFilter cfg.namespaceFilters))
        simpa [toForward, toSend] using harrived
      · simpa [hj] using hs.forwarded j
    · by_cases hj : j = i
      · subst hj
        have hcalled := hs.called j
        rw [hidle] at hcalled
        have harrived := hcalled.arrive (toOutput (cfg.nodeName j) (.logging cfg.logging traces))
        simpa [calls, toOutput] using harrived
      · simpa [hj] using hs.called j
  · cases h

/-- A step of the outbound forwarder keeps the connections served. -/
theorem Inv.forwarder (hs : Inv cfg s) {e : TraceForwarder.Event} {tracer : Tracer}
    (h : s.tracer.step cfg (.forwarder e) = some tracer) :
    Inv cfg { s with tracer := tracer } := by
  simp only [Tracer.step] at h
  split at h
  · rename_i he
    obtain ⟨f, hf, rfl⟩ := Option.map_eq_some_iff.mp h
    obtain ⟨haccepted, hgoing⟩ := ownStep_spec he hf
    refine ⟨hs.accepted.trans haccepted.symm, hs.ordered.step hf, hs.idle, fun i => ?_, hs.called⟩
    exact (hs.forwarded i).imp fun hstopped => hstopped.imp_left fun hfinished =>
      absurd hfinished hgoing
  · cases h

/-- What the handler waits to send is given up, and with it the metrics of its batch. -/
theorem Inv.close (hs : Inv cfg s) {i : ℕ} (hwaits : suspended (s.tracer.handlers i) = true) :
    Inv cfg { s with
      tracer := s.tracer.setStage i .idle
      closed := Function.update s.closed i true } := by
  have hclosed : ∀ j, s.closed j = true → Function.update s.closed i true j = true := by
    intro j hj
    by_cases hji : j = i
    · subst hji
      exact Function.update_self ..
    · rwa [Function.update_of_ne hji]
  have hstays : ∀ {α : Type} (left : List α), left ++ [] = left := List.append_nil
  refine ⟨hs.accepted, hs.ordered, fun j hj => ?_, fun j => ?_, fun j => ?_⟩
  · by_cases hji : j = i
    · subst hji
      exact Tracer.setStage_self ..
    · rw [Tracer.setStage_of_ne _ _ hji]
      simp only [Function.update_of_ne hji] at hj
      exact hs.idle j hj
  · by_cases hji : j = i
    · subst hji
      have hforwarded := hs.forwarded j
      rw [← hstays (toSend ..)] at hforwarded
      simp only [Tracer.setStage_self, Function.update_self]
      exact hforwarded.drop _ (fun _ => Or.inr trivial) fun _ => Or.inr trivial
    · rw [Tracer.setStage_of_ne _ _ hji]
      exact (hs.forwarded j).imp fun hstopped => hstopped.imp_right (hclosed j)
  · by_cases hji : j = i
    · subst hji
      have hcalled := hs.called j
      rw [← hstays (toOutput ..)] at hcalled
      simp only [Tracer.setStage_self, Function.update_self]
      exact hcalled.drop _ (fun _ => trivial) fun _ => trivial
    · rw [Tracer.setStage_of_ne _ _ hji]
      exact (hs.called j).imp (hclosed j)

theorem Inv.step (hs : Inv cfg s) {e : Event} (h : s.step cfg e = some s') : Inv cfg s' := by
  cases e with
  | batch i traces =>
    simp only [System.step] at h
    split at h
    · cases h
    · rename_i hopen
      obtain ⟨tracer, hstep, rfl⟩ := Option.map_eq_some_iff.mp h
      exact hs.batch hopen hstep
  | handle i =>
    obtain ⟨tracer, hstep, rfl⟩ := Option.map_eq_some_iff.mp h
    exact hs.handle hstep
  | forwarder e =>
    obtain ⟨tracer, hstep, rfl⟩ := Option.map_eq_some_iff.mp h
    exact hs.forwarder hstep
  | close i =>
    simp only [System.step] at h
    split at h
    · rename_i hclose
      rw [← Option.some.inj h]
      exact hs.close hclose.2
    · cases h

end System

/-- The next tracer is sent nothing that the queue has not taken from a connection, and nothing
twice. From each connection the queue takes the first traces that pass the filters, and the
calls for its batches are made in order; all of that is done, or left to do, as long as the
connection is open and, for the queue, the forwarder has not finished. -/
structure Relayed (cfg : Config) (s : System) : Prop where
  sent : s.tracer.forwarder.allSent.Sublist (s.owned.map Prod.snd)
  taken : ∀ i, ofConnection i s.owned <+: toForward cfg (s.received i)
  called : ∀ i, s.tracer.outputs i <+: calls cfg (cfg.nodeName i) (s.received i)
  allTaken : ∀ i, s.closed i = false → s.tracer.forwarder.status ≠ .finished →
    ofConnection i s.owned ++ toSend cfg (s.tracer.handlers i) = toForward cfg (s.received i)
  allCalled : ∀ i, s.closed i = false →
    s.tracer.outputs i ++ toOutput (cfg.nodeName i) (s.tracer.handlers i) =
      calls cfg (cfg.nodeName i) (s.received i)

/-- Whatever the order of the steps of all connections and of the forwarder. -/
theorem relayed {cfg : Config} {s : System} {es : List Event}
    (h : run (System.step cfg) .start es = some s) : Relayed cfg s := by
  have hs : System.Inv cfg s :=
    run_invariant (fun _ _ _ hs hstep => hs.step hstep) (System.inv_start cfg) h
  refine ⟨?_, fun i => (hs.forwarded i).first, fun i => (hs.called i).first, ?_, ?_⟩
  · obtain ⟨sent, later, hsent, haccepted, hsublist⟩ := hs.ordered.sent_sublist
    rw [hs.accepted, hsent, haccepted]
    exact (List.sublist_append_left sent _).trans hsublist
  · intro i hopen hgoing
    apply (hs.forwarded i).all
    rintro (hfinished | hclosed)
    · exact hgoing hfinished
    · rw [hopen] at hclosed
      cases hclosed
  · intro i hopen
    apply (hs.called i).all
    rw [hopen]
    exact Bool.false_ne_true

/-- Two nodes share a queue with room for one trace. The second trace of node 0 waits behind
that of node 1, and its connection ends. -/
def sharedQueue (t u : TraceObject) : List Event :=
  [.batch 0 [t, t], .batch 1 [u], .handle 0, .handle 0, .handle 1,
    .forwarder .connect, .forwarder (.handshake true), .forwarder .recv, .handle 1, .close 0,
    .forwarder .recv, .forwarder .recv,
    .forwarder (.wire (.arrive (.traceObjectsRequest ⟨true, 10⟩))), .forwarder (.wire .handle),
    .handle 1, .handle 1]

theorem relayed_sharedQueue :
    let t : TraceObject := ⟨none, "{}", ["Test"], .info, .dNormal, ⟨0, 0, by decide⟩, "a", "1"⟩
    let u : TraceObject := ⟨none, "{}", ["Test"], .info, .dNormal, ⟨0, 0, by decide⟩, "b", "1"⟩
    ∃ s, run (System.step smallQueue) .start (sharedQueue t u) = some s ∧
      s.tracer.forwarder.allSent = [t, u] ∧ Relayed smallQueue s := by
  intro t u
  exact ⟨_, rfl, rfl, @relayed smallQueue _ (sharedQueue t u) rfl⟩

end Hermod.Relay
