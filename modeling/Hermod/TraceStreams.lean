import Hermod.ByteChannels
import Hermod.TraceProtocol

/-!
The two trace-forward clients over streams of bytes. Each call of a client sends the bytes
of a message or takes one off its receive buffer, while bytes arrive in pieces of any size.
What such a session can do is what the clients do over queues of messages.
-/
namespace Hermod.TraceStreams

open ByteChannels ProtocolMessages ProtocolTypes TraceForwardClient Transitions
open TraceProtocol (Caller Exchange acceptReply)

def messages : Codec Message where
  encode := Message.encode
  decoder := Message.decode
  Fits := Sized
  parses := parses_encode
  waits := rfl

structure Acceptor where
  caller : Caller
  received : List (Except String (List TraceObject))

abbrev Forwarder := List (Except ClientError Unit)

inductive AcceptorCall
  | requestTraces (count : UInt16)
  /-- `request_traces` has sent its request and receives. -/
  | receive
  | sendDone

def acceptorClient : Party Acceptor AcceptorCall Message where
  act s
    | .requestTraces count =>
      match s.caller with
      | .idle => some ({ s with caller := .awaiting }, [.traceObjectsRequest ⟨true, count⟩])
      | .awaiting => none
    | .sendDone =>
      match s.caller with
      | .idle => some (s, [.done])
      | .awaiting => none
    | .receive => none
  receive s call m :=
    match call, s.caller with
    | .receive, .awaiting => some (⟨.idle, s.received ++ [acceptReply m]⟩, [])
    | _, _ => none
  reject s call _ :=
    match call, s.caller with
    | .receive, .awaiting => some ⟨.idle, s.received ++ [.error "decoding"]⟩
    | _, _ => none

/-- Each call of `handle_request` has a batch that is not empty. -/
def forwardClient : Party Forwarder (List TraceObject) Message where
  act _ _ := none
  receive s traces m :=
    if traces = [] then none
    else
      match handleRequest traces m with
      | .ok reply => some (s ++ [.ok ()], [.traceObjectsReply reply])
      | .error e => some (s ++ [.error e], [])
  reject s _ _ := some (s ++ [.error .multiplexer])

abbrev Client : Side → Type
  | .left => Acceptor
  | .right => Forwarder

abbrev Call : Side → Type
  | .left => AcceptorCall
  | .right => List TraceObject

def clients : (b : Side) → Party (Client b) (Call b) Message
  | .left => acceptorClient
  | .right => forwardClient

def idle : (b : Side) → Client b
  | .left => ⟨.idle, []⟩
  | .right => []

/-! The session as an exchange of messages. -/

def exchange (t : Talk Client Message) : Exchange :=
  ⟨(t.states .left).caller, t.queues .right, t.queues .left, t.log, (t.states .left).received,
    t.states .right⟩

def call : ByteChannels.Event Call → Option TraceProtocol.Event
  | .acts .left (.requestTraces count) => some (.requestTraces count)
  | .acts .left .sendDone => some .sendDone
  | .receives .left .receive => some .receive
  | .receives .right traces => some (.handleRequest traces)
  | _ => none

/-- A call over the queues is a step of the exchange. -/
theorem exchange_step {t t' : Talk Client Message} {e : ByteChannels.Event Call}
    (h : t.step clients e = some t') :
    ∃ e', call e = some e' ∧ (exchange t).step e' = some (exchange t') := by
  cases e with
  | acts b i =>
    obtain ⟨r, hr, rfl⟩ := Option.map_eq_some_iff.mp h
    cases b with
    | left =>
      cases i with
      | requestTraces count =>
        refine ⟨.requestTraces count, rfl, ?_⟩
        simp only [clients, acceptorClient] at hr
        split at hr
        · rename_i hidle
          rw [← Option.some.inj hr]
          simp [Exchange.step, exchange, Talk.move, hidle, Side.other]
        · cases hr
      | receive => cases hr
      | sendDone =>
        refine ⟨.sendDone, rfl, ?_⟩
        simp only [clients, acceptorClient] at hr
        split at hr
        · rename_i hidle
          rw [← Option.some.inj hr]
          simp [Exchange.step, exchange, Talk.move, hidle, Side.other]
        · cases hr
    | right => cases hr
  | receives b i =>
    simp only [Talk.step] at h
    cases hqueue : t.queues b with
    | nil =>
      rw [hqueue] at h
      cases h
    | cons m rest =>
      rw [hqueue] at h
      obtain ⟨r, hr, rfl⟩ := Option.map_eq_some_iff.mp h
      cases b with
      | left =>
        simp only [clients, acceptorClient] at hr
        split at hr
        · rename_i hawaiting
          refine ⟨.receive, rfl, ?_⟩
          rw [← Option.some.inj hr]
          simp [Exchange.step, exchange, Talk.move, hawaiting, hqueue, Side.other]
        · cases hr
      | right =>
        refine ⟨.handleRequest i, rfl, ?_⟩
        simp only [clients, forwardClient] at hr
        split at hr
        · cases hr
        · rename_i hne
          split at hr
          · rename_i reply hreply
            rw [← Option.some.inj hr]
            simp [Exchange.step, exchange, Talk.move, hqueue, hne, hreply, Side.other]
          · rename_i e herror
            rw [← Option.some.inj hr]
            simp [Exchange.step, exchange, Talk.move, hqueue, hne, herror, Side.other]

/-- A client can do over its queue what the exchange can do. -/
theorem enabled_of_exchange {t : Talk Client Message} {e : TraceProtocol.Event}
    (h : ((exchange t).step e).isSome) :
    ∃ e', call e' = some e ∧ (t.step clients e').isSome := by
  cases e with
  | requestTraces count =>
    refine ⟨.acts .left (.requestTraces count), rfl, ?_⟩
    simp only [Exchange.step, exchange] at h
    split at h
    · rename_i hidle
      simp [Talk.step, clients, acceptorClient, hidle]
    · cases h
  | receive =>
    refine ⟨.receives .left .receive, rfl, ?_⟩
    simp only [Exchange.step, exchange] at h
    split at h
    · rename_i hawaiting hqueue
      simp [Talk.step, clients, acceptorClient, hawaiting, hqueue]
    · cases h
  | sendDone =>
    refine ⟨.acts .left .sendDone, rfl, ?_⟩
    simp only [Exchange.step, exchange] at h
    split at h
    · rename_i hidle
      simp [Talk.step, clients, acceptorClient, hidle]
    · cases h
  | handleRequest traces =>
    refine ⟨.receives .right traces, rfl, ?_⟩
    simp only [Exchange.step, exchange] at h
    split at h
    · cases h
    · rename_i hne
      split at h
      · rename_i m rest hqueue
        simp only [Talk.step, clients, forwardClient, hqueue, if_neg hne, Option.isSome_map]
        split <;> rfl
      · cases h

theorem step_exchange {t : Talk Client Message} {e : TraceProtocol.Event} {x : Exchange}
    (h : (exchange t).step e = some x) :
    ∃ e' t', call e' = some e ∧ t.step clients e' = some t' ∧ exchange t' = x := by
  obtain ⟨e', hcall, henabled⟩ := enabled_of_exchange (Option.isSome_of_eq_some h)
  obtain ⟨t', ht'⟩ := Option.isSome_iff_exists.mp henabled
  obtain ⟨e'', hcall', hstep⟩ := exchange_step ht'
  obtain rfl : e = e'' := Option.some.inj (hcall.symm.trans hcall')
  exact ⟨e', t', hcall, ht', Option.some.inj (hstep.symm.trans h)⟩

/-- A session over the queues is a run of the exchange. -/
theorem exchange_run {t t' : Talk Client Message} {es : List (ByteChannels.Event Call)}
    (h : run (Talk.step clients) t es = some t') :
    run Exchange.step (exchange t) (es.filterMap call) = some (exchange t') := by
  induction es generalizing t with
  | nil => rw [← Option.some.inj h]; rfl
  | cons e es ih =>
    obtain ⟨u, hstep, hrest⟩ := run_cons_iff.mp h
    obtain ⟨e', hcall, hexchange⟩ := exchange_step hstep
    rw [List.filterMap_cons_some hcall]
    exact run_cons_iff.mpr ⟨exchange u, hexchange, ih hrest⟩

/-- A run of the exchange is a session over the queues. -/
theorem run_exchange {t : Talk Client Message} {es : List TraceProtocol.Event} {x : Exchange}
    (h : run Exchange.step (exchange t) es = some x) :
    ∃ es' t', es'.filterMap call = es ∧ run (Talk.step clients) t es' = some t' ∧
      exchange t' = x := by
  induction es generalizing t with
  | nil => exact ⟨[], t, rfl, rfl, Option.some.inj h⟩
  | cons e es ih =>
    obtain ⟨y, hstep, hrest⟩ := run_cons_iff.mp h
    obtain ⟨e', u, hcall, hu, rfl⟩ := step_exchange hstep
    obtain ⟨es', t', hes', hrun, hx⟩ := ih hrest
    refine ⟨e' :: es', t', ?_, run_cons_iff.mpr ⟨u, hu, hrun⟩, hx⟩
    rw [List.filterMap_cons_some hcall, hes']

/-! Sessions with bytes. -/

/-- A session with bytes and an exchange that have the same calls behind them, the same
messages sent and the same results. -/
structure Same (es : List (WiredEvent Call)) (s : Wired Client Message)
    (calls : List TraceProtocol.Event) (x : Exchange) : Prop where
  calls : (es.filterMap WiredEvent.talk).filterMap call = calls
  log : s.log = x.log
  caller : (s.states .left).caller = x.caller
  received : (s.states .left).received = x.received
  handled : s.states .right = x.handled

/-- A session with bytes comes upon none that are no message, and there is an exchange that is
the same. -/
theorem exists_exchange {es : List (WiredEvent Call)} {s : Wired Client Message}
    (hrun : run (Wired.step messages clients) (Wired.start idle) es = some s)
    (hsized : ∀ m ∈ s.log, Sized m) :
    Along (Wired.step messages clients) (Wired.Clean messages) (Wired.start idle) es ∧
      ∃ calls x, run Exchange.step .start calls = some x ∧ Same es s calls x := by
  obtain ⟨hclean, t, ht, hmatches⟩ := (matches_start messages idle).wired_run hsized hrun
  refine ⟨hclean, _, exchange t, exchange_run ht, rfl, hmatches.log, ?_, ?_, ?_⟩
  · rw [hmatches.states]
    rfl
  · rw [hmatches.states]
    rfl
  · rw [hmatches.states]
    rfl

/-- The calls, messages and results of the sessions with bytes are those of the exchanges of
messages, as far as the messages can be written. -/
theorem sessions_eq_exchanges :
    (∀ es s, run (Wired.step messages clients) (Wired.start idle) es = some s →
      (∀ m ∈ s.log, Sized m) →
      ∃ calls x, run Exchange.step .start calls = some x ∧ Same es s calls x) ∧
    (∀ calls x, run Exchange.step .start calls = some x → (∀ m ∈ x.log, Sized m) →
      ∃ es s, run (Wired.step messages clients) (Wired.start idle) es = some s ∧
        Same es s calls x) := by
  constructor
  · intro es s hrun hsized
    exact (exists_exchange hrun hsized).2
  · intro calls x hrun hsized
    obtain ⟨es', t, hes', ht, rfl⟩ := run_exchange (t := Talk.start idle) hrun
    obtain ⟨es, s, hes, hs, hmatches⟩ := (matches_start messages idle).talk_run hsized ht
    refine ⟨es, s, hs, ?_, hmatches.log, ?_, ?_, ?_⟩
    · rw [hes, hes']
    · rw [hmatches.states]
      rfl
    · rw [hmatches.states]
      rfl
    · rw [hmatches.states]
      rfl

/-- However the bytes arrive, no client comes upon bytes that are no message, `request_traces`
returns the traces of the replies in the order in which these were sent, and
`handle_request` fails for a `Done` only. -/
theorem session_results {es : List (WiredEvent Call)} {s : Wired Client Message}
    (hrun : run (Wired.step messages clients) (Wired.start idle) es = some s)
    (hsized : ∀ m ∈ s.log, Sized m) :
    Along (Wired.step messages clients) (Wired.Clean messages) (Wired.start idle) es ∧
      (s.states .left).received <+: (s.log.filterMap Exchange.reply?).map Except.ok ∧
      ∀ r ∈ s.states .right, r = .ok () ∨ r = .error .connectionClosed := by
  obtain ⟨hclean, calls, x, hx, hsame⟩ := exists_exchange hrun hsized
  have hreturns := Exchange.returns_run hx
  rw [hsame.log, hsame.received, hsame.handled, ← hreturns.replies]
  exact ⟨hclean, List.prefix_append _ _, hreturns.handled⟩

def twoPieces (t : TraceObject) : List (WiredEvent Call) :=
  [.acts .left (.requestTraces 2), .arrives .right 1, .arrives .right 100,
    .receives .right [t, t, t], .arrives .left 10, .arrives .left 1000, .receives .left .receive]

theorem twoPieces_run :
    let t : TraceObject := ⟨none, "1", ["A"], .info, .dNormal, ⟨0, 0, by decide⟩, "h", "1"⟩
    ∃ s, run (Wired.step messages clients) (Wired.start idle) (twoPieces t) = some s ∧
      s.log = [.traceObjectsRequest ⟨true, 2⟩, .traceObjectsReply ⟨[t, t]⟩] ∧
      ∀ m ∈ s.log, Sized m := by
  intro t
  obtain ⟨s, hrun⟩ : ∃ s, run (Wired.step messages clients) (Wired.start idle) (twoPieces t) =
      some s := Option.isSome_iff_exists.mp (by decide +kernel)
  have hlog : (run (Wired.step messages clients) (Wired.start idle) (twoPieces t)).map Wired.log =
      some [.traceObjectsRequest ⟨true, 2⟩, .traceObjectsReply ⟨[t, t]⟩] := by decide +kernel
  rw [hrun, Option.map_some, Option.some.injEq] at hlog
  refine ⟨s, hrun, hlog, ?_⟩
  have hsized : SizedTrace t := by
    constructor <;> simp [t, SizedStr] <;> decide +kernel
  rw [hlog]
  intro m hm
  rcases List.mem_cons.mp hm with rfl | hm
  · trivial
  · obtain rfl := List.mem_singleton.mp hm
    refine ⟨by simp, fun u hu => ?_⟩
    have hu : u = t := by simpa using hu
    rwa [hu]

theorem session_results_twoPieces :
    let t : TraceObject := ⟨none, "1", ["A"], .info, .dNormal, ⟨0, 0, by decide⟩, "h", "1"⟩
    ∃ s, run (Wired.step messages clients) (Wired.start idle) (twoPieces t) = some s ∧
      Along (Wired.step messages clients) (Wired.Clean messages) (Wired.start idle) (twoPieces t) ∧
        (s.states .left).received <+: (s.log.filterMap Exchange.reply?).map Except.ok ∧
        ∀ r ∈ s.states .right, r = .ok () ∨ r = .error .connectionClosed := by
  intro t
  obtain ⟨s, hrun, -, hsized⟩ := twoPieces_run
  exact ⟨s, hrun, session_results hrun hsized⟩

theorem sessions_eq_exchanges_twoPieces :
    let t : TraceObject := ⟨none, "1", ["A"], .info, .dNormal, ⟨0, 0, by decide⟩, "h", "1"⟩
    ∃ s calls x, run (Wired.step messages clients) (Wired.start idle) (twoPieces t) = some s ∧
      run Exchange.step .start calls = some x ∧ Same (twoPieces t) s calls x := by
  intro t
  obtain ⟨s, hrun, -, hsized⟩ := twoPieces_run
  obtain ⟨calls, x, hx, hsame⟩ := sessions_eq_exchanges.1 _ s hrun hsized
  exact ⟨s, calls, x, hrun, hx, hsame⟩

end Hermod.TraceStreams
