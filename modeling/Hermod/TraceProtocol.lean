import Hermod.TraceForwardClient
import Hermod.Transitions

/-!
The trace-forward protocol as it is declared, and the two clients that speak it. The
clients exchange messages over two channels, each in order. Neither keeps the declared
state: the acceptor's client waits for a reply after each request, and the forwarder's
client answers each message it receives.
-/
namespace Hermod.TraceProtocol

open ProtocolTypes ProtocolMessages TraceForwardClient Transitions

inductive State
  /-- The acceptor can send a request or `Done`. -/
  | idle
  /-- The forwarder must send a reply. -/
  | busy (blocking : Bool)
  | done
  deriving DecidableEq

def State.next : State → Message → Option State
  | .idle, .traceObjectsRequest req => some (.busy req.blocking)
  | .idle, .done => some .done
  | .busy _, .traceObjectsReply _ => some .idle
  | _, _ => none

/-- A reply holds no more than was requested, and something if the request was blocking. -/
def Answers (req : MsgTraceObjectsRequest) (reply : MsgTraceObjectsReply) : Prop :=
  reply.traceObjects.length ≤ req.numberOfTraceObjects.toNat ∧
    (req.blocking = true → reply.traceObjects ≠ [])

/-- The messages exchanged are a path of the protocol, and every reply answers its
request. -/
structure Conforms (log : List Message) : Prop where
  path : (run State.next .idle log).isSome
  answers : ∀ pre req reply post,
    log = pre ++ .traceObjectsRequest req :: .traceObjectsReply reply :: post → Answers req reply

/-! Messages added to a path. -/

theorem conforms_nil : Conforms [] :=
  ⟨rfl, fun pre req reply post h => by simp at h⟩

/-- A further message conforms where the protocol allows it and, if it is a reply to the
message before, answers that. -/
theorem conforms_concat_iff {log : List Message} {m : Message} {st : State}
    (hlog : Conforms log) (hrun : run State.next .idle log = some st) :
    Conforms (log ++ [m]) ↔ (st.next m).isSome ∧
      ∀ req reply, log.getLast? = some (.traceObjectsRequest req) → m = .traceObjectsReply reply →
        Answers req reply := by
  have hpath : (run State.next .idle (log ++ [m])).isSome ↔ (st.next m).isSome := by
    rw [Option.isSome_iff_exists, Option.isSome_iff_exists]
    refine exists_congr fun st' => ?_
    rw [run_concat_iff]
    simp [hrun]
  constructor
  · intro h
    refine ⟨hpath.mp h.path, ?_⟩
    intro req reply hlast hm
    obtain ⟨pre, hpre⟩ := List.getLast?_eq_some_iff.mp hlast
    exact h.answers pre req reply [] (by simp [hpre, hm])
  · intro h
    obtain ⟨hnext, hanswers⟩ := h
    refine ⟨hpath.mpr hnext, ?_⟩
    intro pre req reply post heq
    rcases List.eq_nil_or_concat post with rfl | ⟨post', m', rfl⟩
    · have hsplit :
          log ++ [m] = (pre ++ [.traceObjectsRequest req]) ++ [.traceObjectsReply reply] := by
        simpa using heq
      obtain ⟨hlog', hm⟩ := List.append_inj' hsplit rfl
      exact hanswers req reply (by simp [hlog']) (List.singleton_inj.mp hm)
    · have hsplit : log ++ [m] =
          (pre ++ .traceObjectsRequest req :: .traceObjectsReply reply :: post') ++ [m'] := by
        simpa using heq
      obtain ⟨hlog', -⟩ := List.append_inj' hsplit rfl
      exact hlog.answers pre req reply post' hlog'

/-- The message is sent and the protocol allows it. -/
theorem Conforms.sent {log : List Message} {m : Message} {st st' : State} (hlog : Conforms log)
    (hrun : run State.next .idle log = some st) (hnext : st.next m = some st')
    (hreply : ∀ reply, m ≠ .traceObjectsReply reply) :
    Conforms (log ++ [m]) ∧ run State.next .idle (log ++ [m]) = some st' := by
  refine ⟨(conforms_concat_iff hlog hrun).mpr ⟨by simp [hnext], ?_⟩, ?_⟩
  · intro req reply _ hm
    exact absurd hm (hreply reply)
  · exact run_concat_iff.mpr ⟨st, hrun, hnext⟩

/-- After `Done` nothing conforms. -/
theorem not_conforms_after_done {log : List Message} {m : Message} (hlog : Conforms log)
    (hrun : run State.next .idle log = some .done) : ¬ Conforms (log ++ [m]) := by
  rw [conforms_concat_iff hlog hrun]
  intro h
  obtain ⟨hnext, -⟩ := h
  cases m <;> simp [State.next] at hnext

/-- A non-empty batch answers a request exactly when the request asks for something. -/
theorem answers_take_iff {req : MsgTraceObjectsRequest} {traces : List TraceObject}
    (hblocking : req.blocking = true) (htraces : traces ≠ []) :
    Answers req ⟨traces.take req.numberOfTraceObjects.toNat⟩ ↔
      1 ≤ req.numberOfTraceObjects.toNat := by
  have hlen : (traces.take req.numberOfTraceObjects.toNat).length ≤
      req.numberOfTraceObjects.toNat := List.length_take_le ..
  rw [Answers, and_iff_right hlen, hblocking, ne_eq, List.take_eq_nil_iff]
  simp only [htraces, or_false, true_implies]
  omega

/-! The clients. -/

inductive Caller
  | idle
  /-- In `request_traces`, with the request sent. -/
  | awaiting
  deriving DecidableEq

def acceptReply : Message → Except String (List TraceObject)
  | .traceObjectsReply reply => .ok reply.traceObjects
  | _ => .error "expected TraceObjectsReply"

/-- The two clients and the channels between them. All messages sent are kept as history,
and so are the results of `request_traces` and of `handle_request`. -/
structure Exchange where
  caller : Caller
  toForwarder : List Message
  toAcceptor : List Message
  log : List Message
  received : List (Except String (List TraceObject))
  handled : List (Except ClientError Unit)

inductive Event
  | requestTraces (count : UInt16)
  /-- `request_traces` receives a message and returns. -/
  | receive
  | sendDone
  /-- `handle_request` receives a message and answers it with a non-empty batch. -/
  | handleRequest (traces : List TraceObject)
  deriving DecidableEq

namespace Exchange

def start : Exchange := ⟨.idle, [], [], [], [], []⟩

def step (s : Exchange) : Event → Option Exchange
  | .requestTraces count =>
    match s.caller with
    | .idle =>
      let req := .traceObjectsRequest ⟨true, count⟩
      some { s with caller := .awaiting, toForwarder := s.toForwarder ++ [req],
                    log := s.log ++ [req] }
    | .awaiting => none
  | .receive =>
    match s.caller, s.toAcceptor with
    | .awaiting, m :: rest =>
      some { s with caller := .idle, toAcceptor := rest, received := s.received ++ [acceptReply m] }
    | _, _ => none
  | .sendDone =>
    match s.caller with
    | .idle => some { s with toForwarder := s.toForwarder ++ [.done], log := s.log ++ [.done] }
    | .awaiting => none
  | .handleRequest traces =>
    if traces = [] then none
    else
      match s.toForwarder with
      | m :: rest =>
        match TraceForwardClient.handleRequest traces m with
        | .ok reply =>
          some { s with
            toForwarder := rest
            toAcceptor := s.toAcceptor ++ [.traceObjectsReply reply]
            log := s.log ++ [.traceObjectsReply reply]
            handled := s.handled ++ [.ok ()] }
        | .error e => some { s with toForwarder := rest, handled := s.handled ++ [.error e] }
      | [] => none

def Sound (s : Exchange) : Event → Prop
  | .requestTraces _ => .done ∉ s.log
  | .sendDone => .done ∉ s.log
  | .handleRequest _ =>
    ∀ req rest, s.toForwarder = .traceObjectsRequest req :: rest →
      1 ≤ req.numberOfTraceObjects.toNat
  | .receive => True

inductive Shape : Exchange → Prop
  | idle {log received handled} (hrun : run State.next .idle log = some .idle)
      (hdone : .done ∉ log) :
      Shape ⟨.idle, [], [], log, received, handled⟩
  | requested {log received handled} (count : UInt16)
      (hrun : run State.next .idle log = some (.busy true)) (hdone : .done ∉ log)
      (hlast : log.getLast? = some (.traceObjectsRequest ⟨true, count⟩)) :
      Shape ⟨.awaiting, [.traceObjectsRequest ⟨true, count⟩], [], log, received, handled⟩
  | replied {log received handled} (reply : MsgTraceObjectsReply)
      (hrun : run State.next .idle log = some .idle) (hdone : .done ∉ log) :
      Shape ⟨.awaiting, [], [.traceObjectsReply reply], log, received, handled⟩
  | done {toForwarder log received handled} (hto : toForwarder = [.done] ∨ toForwarder = [])
      (hrun : run State.next .idle log = some .done) (hdone : .done ∈ log) :
      Shape ⟨.idle, toForwarder, [], log, received, handled⟩

def Inv (s : Exchange) : Prop := Conforms s.log → Shape s

/-- A request conforms unless `Done` was sent. -/
theorem step_requestTraces {s s' : Exchange} {count : UInt16} (hs : Shape s)
    (hlog : Conforms s.log) (h : s.step (.requestTraces count) = some s') :
    Inv s' ∧ (Conforms s'.log ↔ s.Sound (.requestTraces count)) := by
  cases hs with
  | idle hrun hdone =>
    rw [step, Option.some.injEq] at h
    subst h
    obtain ⟨hconf, hrun'⟩ := hlog.sent hrun (m := .traceObjectsRequest ⟨true, count⟩) rfl
      (fun reply hm => by cases hm)
    refine ⟨fun _ => Shape.requested count hrun' ?_ ?_, iff_of_true hconf hdone⟩
    · simp [hdone]
    · simp
  | requested count' hrun hdone hlast => cases h
  | replied reply hrun hdone => cases h
  | done hto hrun hdone =>
    rw [step, Option.some.injEq] at h
    subst h
    have hnot := not_conforms_after_done (m := .traceObjectsRequest ⟨true, count⟩) hlog hrun
    exact ⟨fun hconf => absurd hconf hnot, iff_of_false hnot fun hsound => hsound hdone⟩

theorem step_sendDone {s s' : Exchange} (hs : Shape s) (hlog : Conforms s.log)
    (h : s.step .sendDone = some s') : Inv s' ∧ (Conforms s'.log ↔ s.Sound .sendDone) := by
  cases hs with
  | idle hrun hdone =>
    rw [step, Option.some.injEq] at h
    subst h
    obtain ⟨hconf, hrun'⟩ := hlog.sent hrun (m := .done) rfl (fun reply hm => by cases hm)
    refine ⟨fun _ => Shape.done (Or.inl rfl) hrun' ?_, iff_of_true hconf hdone⟩
    simp
  | requested count' hrun hdone hlast => cases h
  | replied reply hrun hdone => cases h
  | done hto hrun hdone =>
    rw [step, Option.some.injEq] at h
    subst h
    have hnot := not_conforms_after_done (m := .done) hlog hrun
    exact ⟨fun hconf => absurd hconf hnot, iff_of_false hnot fun hsound => hsound hdone⟩

theorem step_receive {s s' : Exchange} (hs : Shape s) (hlog : Conforms s.log)
    (h : s.step .receive = some s') : Inv s' ∧ (Conforms s'.log ↔ s.Sound .receive) := by
  cases hs with
  | idle hrun hdone => cases h
  | requested count' hrun hdone hlast => cases h
  | replied reply hrun hdone =>
    rw [step, Option.some.injEq] at h
    subst h
    exact ⟨fun _ => Shape.idle hrun hdone, iff_of_true hlog trivial⟩
  | done hto hrun hdone => cases h

/-- A reply conforms exactly when the request asks for something. -/
theorem step_handleRequest {s s' : Exchange} {traces : List TraceObject} (hs : Shape s)
    (hlog : Conforms s.log) (h : s.step (.handleRequest traces) = some s') :
    Inv s' ∧ (Conforms s'.log ↔ s.Sound (.handleRequest traces)) := by
  have htraces : traces ≠ [] := by
    intro hnil
    rw [step, if_pos hnil] at h
    cases h
  rw [step, if_neg htraces] at h
  cases hs with
  | idle hrun hdone => cases h
  | @requested log received _ count hrun hdone hlast =>
    rw [← Option.some.inj h]
    set reply : MsgTraceObjectsReply := ⟨traces.take count.toNat⟩
    have hanswers : Answers ⟨true, count⟩ reply ↔ 1 ≤ count.toNat := answers_take_iff rfl htraces
    have hrun' : run State.next .idle (log ++ [.traceObjectsReply reply]) = some .idle :=
      run_concat_iff.mpr ⟨.busy true, hrun, rfl⟩
    refine ⟨fun _ => Shape.replied _ hrun' (by simp [hdone]), ?_⟩
    show Conforms (log ++ [.traceObjectsReply reply]) ↔ _
    rw [conforms_concat_iff hlog hrun]
    constructor
    · intro hconf req rest heq
      obtain ⟨rfl, -⟩ : req = ⟨true, count⟩ ∧ rest = [] := by simpa [eq_comm] using heq
      exact hanswers.mp (hconf.2 ⟨true, count⟩ reply hlast rfl)
    · intro hsound
      refine ⟨rfl, ?_⟩
      intro req reply' hlast' hreply
      have hreq : req = ⟨true, count⟩ := by simpa [hlast, eq_comm] using hlast'
      obtain rfl : reply = reply' := Message.traceObjectsReply.inj hreply
      rw [hreq]
      exact hanswers.mpr (hsound ⟨true, count⟩ [] rfl)
  | replied reply hrun hdone => cases h
  | done hto hrun hdone =>
    rcases hto with rfl | rfl
    · rw [← Option.some.inj h]
      refine ⟨fun _ => Shape.done (Or.inr rfl) hrun hdone, iff_of_true hlog ?_⟩
      intro req rest heq
      simp at heq
    · cases h

theorem step_iff {s s' : Exchange} {e : Event} (hs : Inv s) (hlog : Conforms s.log)
    (h : s.step e = some s') : Inv s' ∧ (Conforms s'.log ↔ s.Sound e) := by
  cases e with
  | requestTraces count => exact step_requestTraces (hs hlog) hlog h
  | receive => exact step_receive (hs hlog) hlog h
  | sendDone => exact step_sendDone (hs hlog) hlog h
  | handleRequest traces => exact step_handleRequest (hs hlog) hlog h

/-! What `request_traces` returns. -/

def reply? : Message → Option (List TraceObject)
  | .traceObjectsReply reply => some reply.traceObjects
  | _ => none

/-- The results so far and those on the way are the replies sent, in order. The forwarder's
client is sent no reply, so it fails for `Done` only. -/
structure Returns (s : Exchange) : Prop where
  replies : s.received ++ s.toAcceptor.map acceptReply = (s.log.filterMap reply?).map .ok
  requests : ∀ m ∈ s.toForwarder, reply? m = none
  handled : ∀ r ∈ s.handled, r = .ok () ∨ r = .error .connectionClosed

theorem returns_start : start.Returns :=
  ⟨rfl, fun _ h => absurd h List.not_mem_nil, fun _ h => absurd h List.not_mem_nil⟩

/-- The acceptor's client sends a message that is no reply. -/
theorem Returns.send {s : Exchange} (hs : s.Returns) (caller : Caller) {m : Message}
    (hm : reply? m = none) :
    Returns { s with caller := caller, toForwarder := s.toForwarder ++ [m],
                     log := s.log ++ [m] } := by
  refine ⟨?_, ?_, hs.handled⟩
  · have hlog : (s.log ++ [m]).filterMap reply? = s.log.filterMap reply? := by
      rw [List.filterMap_append, List.filterMap_cons_none hm, List.filterMap_nil, List.append_nil]
    rw [hlog]
    exact hs.replies
  · intro m' hm'
    rcases List.mem_append.mp hm' with hm' | hm'
    · exact hs.requests m' hm'
    · rwa [List.mem_singleton.mp hm']

/-- The forwarder's client answers a request, or the session is over. -/
theorem handleRequest_cases {traces : List TraceObject} {m : Message} (hm : reply? m = none) :
    (∃ reply, TraceForwardClient.handleRequest traces m = .ok reply) ∨
      TraceForwardClient.handleRequest traces m = .error .connectionClosed := by
  cases m with
  | traceObjectsRequest req => exact Or.inl ⟨_, rfl⟩
  | traceObjectsReply reply => cases hm
  | done => exact Or.inr rfl

theorem Returns.handle {s : Exchange} {m : Message} {rest : List Message} (hs : s.Returns)
    (hqueue : s.toForwarder = m :: rest) {r : Except ClientError Unit}
    (hr : r = .ok () ∨ r = .error .connectionClosed) :
    Returns { s with toForwarder := rest, handled := s.handled ++ [r] } := by
  refine ⟨hs.replies, ?_, ?_⟩
  · intro m' hm'
    apply hs.requests
    rw [hqueue]
    exact List.mem_cons_of_mem _ hm'
  · intro r' hr'
    rcases List.mem_append.mp hr' with hr' | hr'
    · exact hs.handled r' hr'
    · rwa [List.mem_singleton.mp hr']

theorem Returns.reply {s : Exchange} (hs : s.Returns) (reply : MsgTraceObjectsReply) :
    Returns { s with toAcceptor := s.toAcceptor ++ [.traceObjectsReply reply],
                     log := s.log ++ [.traceObjectsReply reply] } := by
  refine ⟨?_, hs.requests, hs.handled⟩
  rw [List.map_append, List.filterMap_append, List.map_append, ← hs.replies, List.append_assoc]
  rfl

theorem Returns.step {s s' : Exchange} {e : Event} (hs : s.Returns) (h : s.step e = some s') :
    s'.Returns := by
  cases e with
  | requestTraces count =>
    simp only [Exchange.step] at h
    split at h
    · rw [← Option.some.inj h]
      exact hs.send .awaiting rfl
    · cases h
  | receive =>
    simp only [Exchange.step] at h
    split at h
    · rename_i m rest hcaller hto
      rw [← Option.some.inj h]
      have hreplies := hs.replies
      rw [hto, List.map_cons] at hreplies
      exact ⟨by rw [List.append_assoc]; exact hreplies, hs.requests, hs.handled⟩
    · cases h
  | sendDone =>
    simp only [Exchange.step] at h
    split at h
    · rw [← Option.some.inj h]
      exact hs.send s.caller rfl
    · cases h
  | handleRequest traces =>
    simp only [Exchange.step] at h
    split at h
    · cases h
    · split at h
      · rename_i m rest hto
        have hm : reply? m = none := by
          apply hs.requests
          rw [hto]
          exact List.mem_cons_self ..
        rcases @handleRequest_cases traces m hm with ⟨reply, hreply⟩ | hclosed
        · rw [hreply] at h
          rw [← Option.some.inj h]
          exact (hs.handle hto (Or.inl rfl)).reply reply
        · rw [hclosed] at h
          rw [← Option.some.inj h]
          exact hs.handle hto (Or.inr rfl)
      · cases h

/-- In every run `request_traces` fails on no message and returns every reply once. -/
theorem returns_run {es : List Event} {t : Exchange} (h : run Exchange.step .start es = some t) :
    t.Returns :=
  run_invariant (I := Returns) (fun _ _ _ hs hstep => hs.step hstep) returns_start h

end Exchange

/-- At every moment the messages of the two clients conform to the protocol exactly when
nothing was sent after `Done` and every request answered asked for at least one trace. -/
theorem conforms_iff_sound {es : List Event} {t : Exchange}
    (h : run Exchange.step .start es = some t) :
    (∀ s, Reached Exchange.step .start es s → Conforms s.log) ↔
      Along Exchange.step Exchange.Sound .start es :=
  reached_iff_along (I := Exchange.Inv) (fun _ _ _ hs hlog hstep => Exchange.step_iff hs hlog hstep)
    (fun _ => Exchange.Shape.idle rfl List.not_mem_nil) conforms_nil h

def oneRequest (t : TraceObject) (count : UInt16) : List Event :=
  [.requestTraces count, .handleRequest [t], .receive]

theorem conforms_iff_sound_one :
    let t : TraceObject := ⟨none, "{}", ["Test"], .info, .dNormal, ⟨0, 0, by decide⟩, "host", "1"⟩
    ∃ s, run Exchange.step .start (oneRequest t 1) = some s ∧
      ((∀ s, Reached Exchange.step .start (oneRequest t 1) s → Conforms s.log) ↔
        Along Exchange.step Exchange.Sound .start (oneRequest t 1)) := by
  intro t
  exact ⟨_, rfl, @conforms_iff_sound (oneRequest t 1) _ rfl⟩

/-- A blocking request for no traces is answered with none. -/
theorem request_zero_not_conforms :
    let t : TraceObject := ⟨none, "{}", ["Test"], .info, .dNormal, ⟨0, 0, by decide⟩, "host", "1"⟩
    ∃ s, run Exchange.step .start (oneRequest t 0) = some s ∧ ¬ Conforms s.log := by
  intro t
  refine ⟨_, rfl, ?_⟩
  intro h
  have hanswers := h.answers [] ⟨true, 0⟩ ⟨[]⟩ [] rfl
  exact hanswers.2 rfl rfl

end Hermod.TraceProtocol
