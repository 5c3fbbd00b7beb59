import Hermod.TraceForwarder

/-!
One trace forwarder against a trace acceptor. For each connection the acceptor runs a
handler that asks for traces, waits for the reply and pushes its traces one by one into
a channel shared by all handlers, from which the application receives. A connection can
fail at any step: its handler then gets no further reply, while the forwarder reconnects.
-/
namespace Hermod.TraceAcceptor

open ProtocolTypes ProtocolMessages TraceForwardClient TraceForwarder Transitions

inductive Stage
  /-- About to send the next request. -/
  | idle
  | awaiting
  /-- In the loop that sends the traces of a reply into the channel. -/
  | pushing (rest : List TraceObject)
  | closed
  deriving DecidableEq

def Stage.rest : Stage → List TraceObject
  | pushing rest => rest
  | _ => []

structure Handler where
  stage : Stage
  delivered : ℕ
  deriving DecidableEq

/-- Connections are numbered in the order of the forwarder's sessions. Traces in the
channel, and those the application has received, carry the number of their connection. -/
structure System where
  forwarder : Forwarder
  handlers : ℕ → Handler
  channel : List (ℕ × TraceObject)
  yielded : List (ℕ × TraceObject)

inductive Event
  /-- A step of the applications or of the forwarder, except that no message arrives. -/
  | forwarder (e : TraceForwarder.Event)
  /-- The handler of the connection in use sends a request. -/
  | request (count : UInt16)
  /-- The next reply of connection `i` reaches its handler. -/
  | deliver (i : ℕ)
  | push (i : ℕ)
  /-- All traces of the reply are in the channel. -/
  | pushed (i : ℕ)
  /-- The handler of connection `i` ends, on an error or because nobody receives. -/
  | close (i : ℕ)
  /-- `AcceptorHandle::recv` returns a trace. -/
  | recv

namespace System

def start : System := ⟨Forwarder.start, fun _ => ⟨.idle, 0⟩, [], []⟩

def replies (f : Forwarder) (i : ℕ) : List MsgTraceObjectsReply :=
  (f.sessions[i]?.map (·.replies)).getD []

def setHandler (s : System) (i : ℕ) (h : Handler) : System :=
  { s with handlers := Function.update s.handlers i h }

/-- Messages arrive at the forwarder from the handlers only. -/
def ownStep : TraceForwarder.Event → Bool
  | .wire (.arrive _) => false
  | _ => true

def step (queueSize capacity : ℕ) (s : System) : Event → Option System
  | .forwarder e =>
    if ownStep e then (s.forwarder.step queueSize e).map fun f => { s with forwarder := f }
    else none
  | .request count =>
    let i := s.forwarder.past.length
    match (s.handlers i).stage with
    | .idle =>
      (s.forwarder.step queueSize (.wire (.arrive (.traceObjectsRequest ⟨true, count⟩)))).map
        fun f => setHandler { s with forwarder := f } i { s.handlers i with stage := .awaiting }
    | _ => none
  | .deliver i =>
    match (s.handlers i).stage, (replies s.forwarder i)[(s.handlers i).delivered]? with
    | .awaiting, some reply =>
      some (s.setHandler i ⟨.pushing reply.traceObjects, (s.handlers i).delivered + 1⟩)
    | _, _ => none
  | .push i =>
    match (s.handlers i).stage with
    | .pushing (t :: rest) =>
      if s.channel.length < capacity then
        some (setHandler { s with channel := s.channel ++ [(i, t)] } i
          { s.handlers i with stage := .pushing rest })
      else none
    | _ => none
  | .pushed i =>
    match (s.handlers i).stage with
    | .pushing [] => some (s.setHandler i { s.handlers i with stage := .idle })
    | _ => none
  | .close i => some (s.setHandler i { s.handlers i with stage := .closed })
  | .recv =>
    match s.channel with
    | x :: channel => some { s with channel := channel, yielded := s.yielded ++ [x] }
    | [] => none

/-! What a step of the forwarder does to the replies of a connection. -/

theorem onWire_replies {s s' : Session} {e : WireEvent} (h : s.onWire e = some s') :
    ∃ more, s'.replies = s.replies ++ more := by
  cases Session.onWire_spec h with
  | arrive m => exact ⟨[], (List.append_nil _).symm⟩
  | reply hp hi => exact ⟨_, rfl⟩
  | refuse hp hi hm => exact ⟨[], (List.append_nil _).symm⟩
  | recvFailed hp => exact ⟨[], (List.append_nil _).symm⟩
  | sendFailed handed hp hi =>
    cases handed
    · exact ⟨[], (List.append_nil _).symm⟩
    · exact ⟨_, rfl⟩

/-- A step leaves the sessions as they are, begins one, or goes on with the last one. -/
theorem sessions_step {queueSize : ℕ} {f f' : Forwarder} {e : TraceForwarder.Event}
    (h : f.step queueSize e = some f') :
    f'.sessions = f.sessions ∨ f'.sessions = f.sessions ++ [Session.start] ∨
      ∃ s s' more, f.sessions = f.past ++ [s] ∧ f'.sessions = f.past ++ [s'] ∧
        s'.replies = s.replies ++ more := by
  have hidle : f.current = none → f.sessions = f.past := by
    intro hc
    rw [Forwarder.sessions, hc, Option.toList_none, List.append_nil]
  have hserving : ∀ {s}, f.status = .serving s → f.sessions = f.past ++ [s] := by
    intro s hs
    rw [Forwarder.sessions, Forwarder.current_serving hs, Option.toList_some]
  cases Forwarder.step_spec h with
  | accept t => exact Or.inl rfl
  | connect hs =>
    rw [hidle hs]
    exact Or.inl (List.append_nil _)
  | established hs =>
    rw [hidle hs]
    exact Or.inr (Or.inl rfl)
  | refused hs =>
    rw [hidle hs]
    exact Or.inl (List.append_nil _)
  | @recv s s' t queue hs hq ht =>
    refine Or.inr (Or.inr ⟨s, s', [], hserving hs, rfl, ?_⟩)
    rw [(Session.take_spec ht).2, List.append_nil]
  | @drained s s' hs hd =>
    refine Or.inr (Or.inr ⟨s, s', [], hserving hs, rfl, ?_⟩)
    obtain ⟨batch, -, rfl⟩ := Session.drained_spec hd
    rw [List.append_nil]
  | @wire s s' e hs hw =>
    obtain ⟨more, hmore⟩ := onWire_replies hw
    exact Or.inr (Or.inr ⟨s, s', more, hserving hs, Forwarder.afterWire_sessions f s', hmore⟩)

/-- Replies that have been sent on a connection stay sent. -/
theorem replies_mono {queueSize : ℕ} {f f' : Forwarder} {e : TraceForwarder.Event}
    (h : f.step queueSize e = some f') (i : ℕ) :
    ∃ more, replies f' i = replies f i ++ more := by
  rcases sessions_step h with heq | heq | ⟨s, s', more, hs, hs', hmore⟩
  · exact ⟨[], by rw [replies, replies, heq, List.append_nil]⟩
  · rw [replies, replies, heq]
    by_cases hi : i < f.sessions.length
    · rw [List.getElem?_append_left hi]
      exact ⟨[], (List.append_nil _).symm⟩
    · have hnone : f.sessions[i]? = none := List.getElem?_eq_none (by omega)
      rw [hnone]
      exact ⟨_, rfl⟩
  · rw [replies, replies, hs, hs']
    by_cases hi : i < f.past.length
    · rw [List.getElem?_append_left hi, List.getElem?_append_left hi]
      exact ⟨[], (List.append_nil _).symm⟩
    · by_cases hlast : i = f.past.length
      · subst hlast
        rw [List.getElem?_append_right (le_refl _), List.getElem?_append_right (le_refl _),
          Nat.sub_self]
        exact ⟨more, hmore⟩
      · have hlen : ∀ x : Session, (f.past ++ [x])[i]? = none := fun x =>
          List.getElem?_eq_none (by simp only [List.length_append, List.length_singleton]; omega)
        rw [hlen, hlen]
        exact ⟨[], rfl⟩

/-! What has come through from each connection. -/

def ofConnection (i : ℕ) (xs : List (ℕ × TraceObject)) : List TraceObject :=
  (xs.filter fun x => x.1 = i).map Prod.snd

theorem ofConnection_append (i : ℕ) (xs ys : List (ℕ × TraceObject)) :
    ofConnection i (xs ++ ys) = ofConnection i xs ++ ofConnection i ys := by
  simp only [ofConnection, List.filter_append, List.map_append]

/-- The traces numbered by a connection are its own. -/
theorem ofConnection_map (i j : ℕ) (traces : List TraceObject) :
    ofConnection j (traces.map fun trace => (i, trace)) = if j = i then traces else [] := by
  induction traces with
  | nil => exact (ite_self _).symm
  | cons trace traces ih =>
    rw [List.map_cons, ← List.singleton_append, ofConnection_append, ih]
    by_cases hj : j = i
    · subst hj
      simp [ofConnection]
    · simp [ofConnection, hj, Ne.symm hj]

def moved (s : System) (i : ℕ) : List TraceObject := ofConnection i (s.yielded ++ s.channel)

def tracesOf (rs : List MsgTraceObjectsReply) : List TraceObject :=
  (rs.map (·.traceObjects)).flatten

/-- What has come through, with what the handler still has to push, is what the replies
delivered to it carry, except for what a closed handler has dropped. -/
structure HandlerInv (s : System) (i : ℕ) : Prop where
  delivered : (s.handlers i).delivered ≤ (replies s.forwarder i).length
  traces : ∃ dropped, moved s i ++ (s.handlers i).stage.rest ++ dropped =
      tracesOf ((replies s.forwarder i).take (s.handlers i).delivered) ∧
    ((s.handlers i).stage ≠ .closed → dropped = [])

structure Inv (s : System) : Prop where
  ordered : Forwarder.OrderedSince [] [] s.forwarder
  handlers : ∀ i, HandlerInv s i

theorem inv_start : Inv start :=
  ⟨Forwarder.orderedSince_start, fun _ => ⟨Nat.zero_le _, [], rfl, fun _ => rfl⟩⟩

/-- A handler that does not move is not disturbed by what the others do. -/
theorem HandlerInv.frame {s s' : System} {i : ℕ} (h : HandlerInv s i)
    (hr : ∃ more, replies s'.forwarder i = replies s.forwarder i ++ more)
    (hh : s'.handlers i = s.handlers i) (hm : moved s' i = moved s i) : HandlerInv s' i := by
  obtain ⟨more, hmore⟩ := hr
  obtain ⟨hlen, dropped, htraces, hclosed⟩ := h
  refine ⟨?_, dropped, ?_, ?_⟩
  · rw [hh, hmore, List.length_append]
    omega
  · rw [hm, hh, htraces, hmore, List.take_append_of_le_length hlen]
  · rwa [hh]

theorem same_replies (f : Forwarder) (i : ℕ) : ∃ more, replies f i = replies f i ++ more :=
  ⟨[], (List.append_nil _).symm⟩

theorem handlers_setHandler_self (s : System) (i : ℕ) (h : Handler) :
    (s.setHandler i h).handlers i = h := Function.update_self ..

/-- The handler of one connection moves; what the others see stays. -/
theorem handlerInv_update {s s' : System} {j : ℕ} {h : Handler} (hs : ∀ i, HandlerInv s i)
    (hf : ∀ i, ∃ more, replies s'.forwarder i = replies s.forwarder i ++ more)
    (hh : s'.handlers = Function.update s.handlers j h)
    (hm : ∀ i, i ≠ j → moved s' i = moved s i) (hj : HandlerInv s' j) (i : ℕ) :
    HandlerInv s' i := by
  by_cases hij : i = j
  · rwa [hij]
  · exact (hs i).frame (hf i) (by rw [hh, Function.update_of_ne hij]) (hm i hij)

theorem tracesOf_append_singleton (rs : List MsgTraceObjectsReply) (r : MsgTraceObjectsReply) :
    tracesOf (rs ++ [r]) = tracesOf rs ++ r.traceObjects := by
  simp only [tracesOf, List.map_append, List.map_cons, List.map_nil, List.flatten_append,
    List.flatten_singleton]

theorem moved_push {s : System} {channel : List (ℕ × TraceObject)} {i j : ℕ} {t : TraceObject} :
    ofConnection i (s.yielded ++ (channel ++ [(j, t)])) =
      ofConnection i (s.yielded ++ channel) ++ if j = i then [t] else [] := by
  rw [← List.append_assoc, ofConnection_append]
  congr 1
  by_cases hj : j = i
  · simp [ofConnection, hj]
  · simp [ofConnection, hj]

/-- The forwarder moves; every handler stays as it is. -/
theorem Inv.forward {queueSize : ℕ} {s : System} {f : Forwarder} {e : TraceForwarder.Event}
    (hs : Inv s) (hf : s.forwarder.step queueSize e = some f) : Inv { s with forwarder := f } :=
  ⟨hs.ordered.step hf, fun i => (hs.handlers i).frame (replies_mono hf i) rfl rfl⟩

/-- The handler of a connection goes on with the same traces still to push. -/
theorem Inv.setStage {s : System} {i : ℕ} {stage : Stage} (hs : Inv s)
    (hopen : (s.handlers i).stage ≠ .closed) (hrest : stage.rest = (s.handlers i).stage.rest) :
    Inv (s.setHandler i { s.handlers i with stage := stage }) := by
  refine ⟨hs.ordered, handlerInv_update hs.handlers (same_replies _) rfl (fun _ _ => rfl) ?_⟩
  obtain ⟨hlen, dropped, htraces, hclosed⟩ := hs.handlers i
  refine ⟨?_, dropped, ?_, fun _ => hclosed hopen⟩
  · rw [handlers_setHandler_self]
    exact hlen
  · rw [handlers_setHandler_self, hrest]
    exact htraces

/-- The next reply reaches a handler that has pushed all of the earlier ones. -/
theorem Inv.deliver {s : System} {i : ℕ} {reply : MsgTraceObjectsReply} (hs : Inv s)
    (hstage : (s.handlers i).stage = .awaiting)
    (hreply : (replies s.forwarder i)[(s.handlers i).delivered]? = some reply) :
    Inv (s.setHandler i ⟨.pushing reply.traceObjects, (s.handlers i).delivered + 1⟩) := by
  refine ⟨hs.ordered, handlerInv_update hs.handlers (same_replies _) rfl (fun _ _ => rfl) ?_⟩
  obtain ⟨hlen, dropped, htraces, hclosed⟩ := hs.handlers i
  obtain rfl := hclosed (by rw [hstage]; simp)
  obtain ⟨hlt, hget⟩ := List.getElem?_eq_some_iff.mp hreply
  refine ⟨?_, [], ?_, fun _ => rfl⟩
  · rw [handlers_setHandler_self]
    exact hlt
  · rw [handlers_setHandler_self]
    rw [hstage] at htraces
    simp only [Stage.rest, List.append_nil] at htraces ⊢
    show moved s i ++ reply.traceObjects =
      tracesOf ((replies s.forwarder i).take ((s.handlers i).delivered + 1))
    rw [List.take_add_one, hreply, Option.toList_some, tracesOf_append_singleton, htraces]

/-- A trace goes from its handler into the channel. -/
theorem Inv.push {s : System} {i : ℕ} {t : TraceObject} {rest : List TraceObject} (hs : Inv s)
    (hstage : (s.handlers i).stage = .pushing (t :: rest)) :
    Inv (setHandler { s with channel := s.channel ++ [(i, t)] } i
      { s.handlers i with stage := .pushing rest }) := by
  refine ⟨hs.ordered, handlerInv_update hs.handlers (same_replies _) rfl ?_ ?_⟩
  · intro j hj
    show ofConnection j (s.yielded ++ (s.channel ++ [(i, t)])) = moved s j
    rw [moved_push, if_neg (Ne.symm hj), List.append_nil, moved]
  · obtain ⟨hlen, dropped, htraces, hclosed⟩ := hs.handlers i
    rw [hstage] at htraces hclosed
    refine ⟨?_, dropped, ?_, fun _ => hclosed (by simp)⟩
    · rw [handlers_setHandler_self]
      exact hlen
    · rw [handlers_setHandler_self]
      show ofConnection i (s.yielded ++ (s.channel ++ [(i, t)])) ++ rest ++ dropped = _
      rw [moved_push, if_pos rfl, List.append_assoc _ [t]]
      exact htraces

/-- A handler that ends drops what it still had to push. -/
theorem Inv.close {s : System} (hs : Inv s) (i : ℕ) :
    Inv (s.setHandler i { s.handlers i with stage := .closed }) := by
  refine ⟨hs.ordered, handlerInv_update hs.handlers (same_replies _) rfl (fun _ _ => rfl) ?_⟩
  obtain ⟨hlen, dropped, htraces, -⟩ := hs.handlers i
  refine ⟨?_, (s.handlers i).stage.rest ++ dropped, ?_, ?_⟩
  · rw [handlers_setHandler_self]
    exact hlen
  · rw [handlers_setHandler_self]
    rw [List.append_assoc] at htraces
    exact (congrArg (· ++ _) (List.append_nil _)).trans htraces
  · rw [handlers_setHandler_self]
    exact fun hne => absurd rfl hne

/-- The application receives the oldest trace of the channel. -/
theorem Inv.recv {s : System} {x : ℕ × TraceObject} {channel : List (ℕ × TraceObject)}
    (hs : Inv s) (hc : s.channel = x :: channel) :
    Inv { s with channel := channel, yielded := s.yielded ++ [x] } := by
  refine ⟨hs.ordered, fun i => (hs.handlers i).frame (same_replies _ i) rfl ?_⟩
  rw [moved, moved, hc, List.append_assoc]
  rfl

/-- Every step keeps what came through each connection. -/
theorem Inv.step {queueSize capacity : ℕ} {s s' : System} {e : Event} (hs : Inv s)
    (h : s.step queueSize capacity e = some s') : Inv s' := by
  cases e with
  | forwarder e =>
    simp only [System.step] at h
    split at h
    · obtain ⟨f, hf, rfl⟩ := Option.map_eq_some_iff.mp h
      exact hs.forward hf
    · cases h
  | request count =>
    simp only [System.step] at h
    split at h
    · rename_i hstage
      obtain ⟨f, hf, rfl⟩ := Option.map_eq_some_iff.mp h
      refine (hs.forward hf).setStage ?_ ?_
      · show (s.handlers _).stage ≠ .closed
        rw [hstage]
        simp
      · show [] = (s.handlers _).stage.rest
        rw [hstage]
        rfl
    · cases h
  | deliver i =>
    simp only [System.step] at h
    split at h
    · rename_i reply hstage hreply
      rw [← Option.some.inj h]
      exact hs.deliver hstage hreply
    · cases h
  | push i =>
    simp only [System.step] at h
    split at h
    · rename_i t rest hstage
      split at h
      · rw [← Option.some.inj h]
        exact hs.push hstage
      · cases h
    · cases h
  | pushed i =>
    simp only [System.step] at h
    split at h
    · rename_i hstage
      rw [← Option.some.inj h]
      exact hs.setStage (by rw [hstage]; simp) (by rw [hstage]; rfl)
    · cases h
  | close i =>
    rw [System.step, Option.some.injEq] at h
    rw [← h]
    exact hs.close i
  | recv =>
    simp only [System.step] at h
    split at h
    · rename_i x channel hc
      rw [← Option.some.inj h]
      exact hs.recv hc
    · cases h

theorem Inv.run {queueSize capacity : ℕ} {s : System} {es : List Event}
    (h : run (System.step queueSize capacity) start es = some s) : Inv s :=
  run_invariant (fun _ _ _ hs hstep => Inv.step hs hstep) inv_start h

theorem moved_prefix {s : System} (hs : Inv s) (i : ℕ) :
    (moved s i).IsPrefix (tracesOf (replies s.forwarder i)) := by
  obtain ⟨-, dropped, htraces, -⟩ := hs.handlers i
  have hmoved : (moved s i).IsPrefix
      (tracesOf ((replies s.forwarder i).take (s.handlers i).delivered)) :=
    ⟨(s.handlers i).stage.rest ++ dropped, by rw [← List.append_assoc, htraces]⟩
  refine hmoved.trans ⟨tracesOf ((replies s.forwarder i).drop (s.handlers i).delivered), ?_⟩
  rw [tracesOf, tracesOf, ← List.flatten_append, ← List.map_append, List.take_append_drop, tracesOf]

end System

/-- In every run the traces of the replies sent, over all connections, are a subsequence
of the accepted ones, and the application receives from each connection a prefix of what
was sent on it: no trace twice, and in wire order. -/
theorem delivered_at_most_once {queueSize capacity : ℕ} {es : List Event} {s : System}
    (h : run (System.step queueSize capacity) .start es = some s) :
    s.forwarder.allSent.Sublist s.forwarder.accepted ∧
      ∀ i, (System.ofConnection i s.yielded).IsPrefix
        (System.tracesOf (System.replies s.forwarder i)) := by
  have hs := System.Inv.run h
  refine ⟨?_, fun i => ?_⟩
  · obtain ⟨sent, later, hsent, hlater, hsub⟩ := hs.ordered.sent_sublist
    rw [hsent, hlater]
    exact (List.sublist_append_left ..).trans hsub
  · refine List.IsPrefix.trans ?_ (System.moved_prefix hs i)
    rw [System.moved, System.ofConnection_append]
    exact List.prefix_append ..

def deliveryThenFailure (t : TraceObject) : List Event :=
  [.forwarder (.accept t), .forwarder .connect, .forwarder (.handshake true), .request 100,
    .forwarder .recv, .forwarder .recv, .forwarder (.wire .handle), .deliver 0, .push 0, .recv,
    .forwarder (.accept t), .forwarder .recv, .forwarder .recv,
    .forwarder (.wire .recvFailed), .forwarder .connect]

theorem delivered_at_most_once_reconnect :
    let t : TraceObject := ⟨none, "{}", ["Test"], .info, .dNormal, ⟨0, 0, by decide⟩, "host", "1"⟩
    ∃ s, run (System.step 10 10) .start (deliveryThenFailure t) = some s ∧
      s.yielded = [(0, t)] ∧ s.forwarder.allSent.Sublist s.forwarder.accepted := by
  intro t
  refine ⟨_, rfl, rfl, ?_⟩
  exact (@delivered_at_most_once 10 10 (deliveryThenFailure t) _ rfl).1

end Hermod.TraceAcceptor
