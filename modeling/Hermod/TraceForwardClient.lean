import Hermod.ProtocolMessages

/-!
The forwarder's side of one trace-forward session. The client answers one request
with the batch it was given. Around it runs the loop that both the trace forwarder
and the accepting re-forwarder use: wait for traces, drain what is at hand, answer
one request with the batch, start again.
-/
namespace Hermod.TraceForwardClient

open ProtocolTypes ProtocolMessages

inductive ClientError
  | multiplexer
  | invalidInbound
  | connectionClosed
  deriving DecidableEq, Repr

/-- The answer to the message received: the reply to be sent, with as many traces of the
batch as were requested, or the error that ends the session. -/
def handleRequest (traces : List TraceObject) : Message → Except ClientError MsgTraceObjectsReply
  | .traceObjectsRequest req => .ok ⟨traces.take req.numberOfTraceObjects.toNat⟩
  | .done => .error .connectionClosed
  | .traceObjectsReply _ => .error .invalidInbound

inductive Phase
  | waiting
  | draining (batch : List TraceObject)
  /-- `handle_request` owns the batch and waits for a message. -/
  | requesting (batch : List TraceObject)
  | ended (error : ClientError)
  deriving DecidableEq

def Phase.batch : Phase → List TraceObject
  | draining batch => batch
  | requesting batch => batch
  | _ => []

/-- The loop with the messages that have arrived. What its receives have returned and
the replies it has sent are kept as its history. -/
structure Session where
  phase : Phase
  inbox : List Message
  taken : List TraceObject
  replies : List MsgTraceObjectsReply
  deriving DecidableEq

inductive WireEvent
  /-- A message of the acceptor arrives. -/
  | arrive (m : Message)
  /-- `handle_request` receives a message and, where it has a reply, sends it. -/
  | handle
  | recvFailed
  /-- Sending the reply fails, before or after the multiplexer has taken it. -/
  | sendFailed (handed : Bool)
  deriving DecidableEq

namespace Session

def start : Session := ⟨.waiting, [], [], []⟩

def sent (s : Session) : List TraceObject := (s.replies.map (·.traceObjects)).flatten

def take (s : Session) (traces : List TraceObject) : Option Session :=
  match s.phase with
  | .waiting => some { s with phase := .draining traces, taken := s.taken ++ traces }
  | .draining batch =>
    some { s with phase := .draining (batch ++ traces), taken := s.taken ++ traces }
  | _ => none

def drained (s : Session) : Option Session :=
  match s.phase with
  | .draining batch => some { s with phase := .requesting batch }
  | _ => none

def onWire (s : Session) : WireEvent → Option Session
  | .arrive m =>
    match s.phase with
    | .ended _ => none
    | _ => some { s with inbox := s.inbox ++ [m] }
  | .handle =>
    match s.phase, s.inbox with
    | .requesting batch, m :: inbox =>
      match handleRequest batch m with
      | .ok reply =>
        some { s with phase := .waiting, inbox := inbox, replies := s.replies ++ [reply] }
      | .error e => some { s with phase := .ended e, inbox := inbox }
    | _, _ => none
  | .recvFailed =>
    match s.phase with
    | .requesting _ => some { s with phase := .ended .multiplexer }
    | _ => none
  | .sendFailed handed =>
    match s.phase, s.inbox with
    | .requesting batch, m :: inbox =>
      match handleRequest batch m with
      | .ok reply =>
        some { s with phase := .ended .multiplexer, inbox := inbox,
                      replies := if handed then s.replies ++ [reply] else s.replies }
      | .error _ => none
    | _, _ => none

/-! What each step does to the history. -/

def Ordered (s : Session) : Prop := (s.sent ++ s.phase.batch).Sublist s.taken

def Conserved (s : Session) : Prop := s.sent ++ s.phase.batch = s.taken

/-- A request that is answered asks for at least as many traces as the batch holds. -/
def Fits (s : Session) : WireEvent → Prop
  | .handle =>
    ∀ req inbox, s.inbox = .traceObjectsRequest req :: inbox →
      s.phase.batch.length ≤ req.numberOfTraceObjects.toNat
  | _ => True

theorem take_spec {s s' : Session} {traces : List TraceObject} (h : s.take traces = some s') :
    (s.phase = .waiting ∨ ∃ batch, s.phase = .draining batch) ∧
      s' = { s with phase := .draining (s.phase.batch ++ traces), taken := s.taken ++ traces } := by
  unfold take at h
  split at h
  · rename_i hp
    exact ⟨Or.inl hp, by rw [← Option.some.inj h, hp]; rfl⟩
  · rename_i batch hp
    exact ⟨Or.inr ⟨batch, hp⟩, by rw [← Option.some.inj h, hp]; rfl⟩
  · cases h

theorem drained_spec {s s' : Session} (h : s.drained = some s') :
    ∃ batch, s.phase = .draining batch ∧ s' = { s with phase := .requesting batch } := by
  unfold drained at h
  split at h
  · rename_i batch hp
    exact ⟨batch, hp, (Option.some.inj h).symm⟩
  · cases h

inductive Wired (s : Session) : WireEvent → Session → Prop
  | arrive (m : Message) : Wired s (.arrive m) { s with inbox := s.inbox ++ [m] }
  | reply {batch : List TraceObject} {req : MsgTraceObjectsRequest} {inbox : List Message}
      (hp : s.phase = .requesting batch) (hi : s.inbox = .traceObjectsRequest req :: inbox) :
      Wired s .handle { s with
        phase := .waiting, inbox := inbox,
        replies := s.replies ++ [⟨batch.take req.numberOfTraceObjects.toNat⟩] }
  | refuse {batch : List TraceObject} {m : Message} {e : ClientError} {inbox : List Message}
      (hp : s.phase = .requesting batch) (hi : s.inbox = m :: inbox)
      (hm : handleRequest batch m = .error e) :
      Wired s .handle { s with phase := .ended e, inbox := inbox }
  | recvFailed {batch : List TraceObject} (hp : s.phase = .requesting batch) :
      Wired s .recvFailed { s with phase := .ended .multiplexer }
  | sendFailed {batch : List TraceObject} {req : MsgTraceObjectsRequest} {inbox : List Message}
      (handed : Bool) (hp : s.phase = .requesting batch)
      (hi : s.inbox = .traceObjectsRequest req :: inbox) :
      Wired s (.sendFailed handed) { s with
        phase := .ended .multiplexer, inbox := inbox,
        replies := if handed then
          s.replies ++ [⟨batch.take req.numberOfTraceObjects.toNat⟩] else s.replies }

theorem handleRequest_ok {batch : List TraceObject} {m : Message} {reply : MsgTraceObjectsReply}
    (h : handleRequest batch m = .ok reply) :
    ∃ req, m = .traceObjectsRequest req ∧ reply = ⟨batch.take req.numberOfTraceObjects.toNat⟩ := by
  cases m with
  | traceObjectsRequest req => exact ⟨req, rfl, (Except.ok.inj h).symm⟩
  | traceObjectsReply reply => cases h
  | done => cases h

/-- Each wire event changes a session in one of the ways. -/
theorem onWire_spec {s s' : Session} {e : WireEvent} (h : s.onWire e = some s') :
    Wired s e s' := by
  cases e with
  | arrive m =>
    simp only [onWire] at h
    split at h
    · cases h
    · rw [← Option.some.inj h]
      exact Wired.arrive m
  | handle =>
    simp only [onWire] at h
    split at h
    · rename_i batch m inbox hp hi
      split at h
      · rename_i reply hm
        obtain ⟨req, rfl, rfl⟩ := handleRequest_ok hm
        rw [← Option.some.inj h]
        exact Wired.reply hp hi
      · rename_i e hm
        rw [← Option.some.inj h]
        exact Wired.refuse hp hi hm
    · cases h
  | recvFailed =>
    simp only [onWire] at h
    split at h
    · rename_i batch hp
      rw [← Option.some.inj h]
      exact Wired.recvFailed hp
    · cases h
  | sendFailed handed =>
    simp only [onWire] at h
    split at h
    · rename_i batch m inbox hp hi
      split at h
      · rename_i reply hm
        obtain ⟨req, rfl, rfl⟩ := handleRequest_ok hm
        rw [← Option.some.inj h]
        exact Wired.sendFailed handed hp hi
      · cases h
    · cases h

theorem sent_append (s : Session) (reply : MsgTraceObjectsReply) (phase : Phase)
    (inbox : List Message) :
    ({ s with phase := phase, inbox := inbox, replies := s.replies ++ [reply] } : Session).sent =
      s.sent ++ reply.traceObjects := by
  simp only [sent, List.map_append, List.map_cons, List.map_nil, List.flatten_append,
    List.flatten_cons, List.flatten_nil, List.append_nil]

theorem onWire_taken {s s' : Session} {e : WireEvent} (h : s.onWire e = some s') :
    s'.taken = s.taken := by
  cases onWire_spec h <;> rfl

theorem ordered_start : Ordered start := List.Sublist.refl _

theorem Ordered.sent_sublist {s : Session} (h : Ordered s) : s.sent.Sublist s.taken :=
  (List.sublist_append_left ..).trans h

theorem Ordered.take {s s' : Session} {traces : List TraceObject} (hs : Ordered s)
    (h : s.take traces = some s') : Ordered s' := by
  obtain ⟨-, rfl⟩ := take_spec h
  show (s.sent ++ (s.phase.batch ++ traces)).Sublist (s.taken ++ traces)
  rw [← List.append_assoc]
  exact hs.append (List.Sublist.refl traces)

theorem Ordered.drained {s s' : Session} (hs : Ordered s) (h : s.drained = some s') :
    Ordered s' := by
  obtain ⟨batch, hp, rfl⟩ := drained_spec h
  rw [Ordered, hp] at hs
  exact hs

/-- Truncating the batch, or dropping it, keeps the order. -/
theorem Ordered.onWire {s s' : Session} {e : WireEvent} (hs : Ordered s)
    (h : s.onWire e = some s') : Ordered s' := by
  have hdrop : ∀ {phase inbox}, phase.batch = [] →
      Ordered { s with phase := phase, inbox := inbox } := by
    intro phase inbox hb
    rw [Ordered, hb, List.append_nil]
    exact hs.sent_sublist
  have hreply : ∀ {batch : List TraceObject} {n : ℕ} {phase inbox}, s.phase = .requesting batch →
      phase.batch = [] → Ordered { s with
        phase := phase, inbox := inbox, replies := s.replies ++ [⟨batch.take n⟩] } := by
    intro batch n phase inbox hp hb
    rw [Ordered, hb, List.append_nil, sent_append]
    rw [Ordered, hp] at hs
    exact ((List.Sublist.refl _).append (List.take_sublist n batch)).trans hs
  cases onWire_spec h with
  | arrive m => exact hs
  | reply hp hi => exact hreply hp rfl
  | refuse hp hi hm => exact hdrop rfl
  | recvFailed hp => exact hdrop rfl
  | sendFailed handed hp hi =>
    cases handed
    · exact hdrop rfl
    · exact hreply hp rfl

/-! A batch is never empty once its first traces have been received. -/

def Loaded (s : Session) : Prop :=
  ∀ b, s.phase = .draining b ∨ s.phase = .requesting b → b ≠ []

theorem loaded_start : Loaded start := by
  intro b h'
  rcases h' with h | h
  · cases h
  · cases h

theorem Loaded.take {s s' : Session} {traces : List TraceObject} (htraces : traces ≠ [])
    (h : s.take traces = some s') : Loaded s' := by
  obtain ⟨-, rfl⟩ := take_spec h
  intro b h'
  rcases h' with hb | hb
  · cases hb
    exact List.append_ne_nil_of_right_ne_nil _ htraces
  · cases hb

theorem Loaded.drained {s s' : Session} (hs : Loaded s) (h : s.drained = some s') : Loaded s' := by
  obtain ⟨batch, hp, rfl⟩ := drained_spec h
  intro b h'
  rcases h' with hb | hb
  · cases hb
  · cases hb
    exact hs batch (Or.inl hp)

/-- What was received stays in the history. -/
theorem Loaded.onWire {s s' : Session} {e : WireEvent} (hs : Loaded s)
    (h : s.onWire e = some s') : Loaded s' := by
  have hphase : s'.phase = s.phase ∨ s'.phase = .waiting ∨ ∃ err, s'.phase = .ended err := by
    cases onWire_spec h with
    | arrive m => exact Or.inl rfl
    | reply hp hi => exact Or.inr (Or.inl rfl)
    | refuse hp hi hm => exact Or.inr (Or.inr ⟨_, rfl⟩)
    | recvFailed hp => exact Or.inr (Or.inr ⟨_, rfl⟩)
    | sendFailed handed hp hi => exact Or.inr (Or.inr ⟨_, rfl⟩)
  intro b hb
  rcases hphase with hp | hp | ⟨err, hp⟩
  · exact hs b (by rwa [hp] at hb)
  · rw [hp] at hb
    rcases hb with hb | hb <;> cases hb
  · rw [hp] at hb
    rcases hb with hb | hb <;> cases hb

/-! Sessions in which nothing fails. -/

def Healthy : WireEvent → Prop
  | .arrive m => ∃ req, m = .traceObjectsRequest req ∧ 1 ≤ req.numberOfTraceObjects.toNat
  | .handle => True
  | .recvFailed => False
  | .sendFailed _ => False

structure Running (s : Session) : Prop where
  ordered : Ordered s
  requests : ∀ m ∈ s.inbox, ∃ req, m = .traceObjectsRequest req
  alive : ∀ e, s.phase ≠ .ended e

theorem running_start : Running start :=
  ⟨ordered_start, fun _ h => absurd h List.not_mem_nil, fun _ h => by cases h⟩

theorem Running.take {s s' : Session} {traces : List TraceObject} (hs : Running s)
    (h : s.take traces = some s') : Running s' ∧ (Conserved s' ↔ Conserved s) := by
  refine ⟨⟨hs.ordered.take h, ?_, ?_⟩, ?_⟩
  all_goals obtain ⟨-, rfl⟩ := take_spec h
  · exact hs.requests
  · intro e he
    cases he
  · show s.sent ++ (s.phase.batch ++ traces) = s.taken ++ traces ↔ _
    rw [← List.append_assoc, List.append_left_inj, Conserved]

theorem Running.drained {s s' : Session} (hs : Running s) (h : s.drained = some s') :
    Running s' ∧ (Conserved s' ↔ Conserved s) := by
  refine ⟨⟨hs.ordered.drained h, ?_, ?_⟩, ?_⟩
  all_goals obtain ⟨batch, hp, rfl⟩ := drained_spec h
  · exact hs.requests
  · intro e he
    cases he
  · rw [Conserved, Conserved, hp]
    exact Iff.rfl

/-- A reply loses nothing exactly when it has room for the whole batch: a shorter one
cannot be made up for, as what was sent and held before was in order already. -/
theorem conserved_reply_iff {sent batch taken : List TraceObject} {n : ℕ}
    (hs : (sent ++ batch).Sublist taken) :
    sent ++ batch.take n = taken ↔ sent ++ batch = taken ∧ batch.length ≤ n := by
  constructor
  · intro heq
    have hlen := hs.length_le
    have htake := congrArg List.length heq
    simp only [List.length_append, List.length_take] at hlen htake
    have hn : batch.length ≤ n := by omega
    rw [List.take_of_length_le hn] at heq
    exact ⟨heq, hn⟩
  · intro h
    obtain ⟨heq, hn⟩ := h
    rw [List.take_of_length_le hn, heq]

/-- A request that is answered loses what it does not ask for. -/
theorem Running.onWire {s s' : Session} {e : WireEvent} (hs : Running s) (he : Healthy e)
    (h : s.onWire e = some s') : Running s' ∧ (Conserved s' ↔ Conserved s ∧ s.Fits e) := by
  have hordered := hs.ordered.onWire h
  cases onWire_spec h with
  | arrive m =>
    obtain ⟨req, rfl, -⟩ := he
    refine ⟨⟨hordered, ?_, hs.alive⟩, (and_iff_left trivial).symm⟩
    intro m hm
    rcases List.mem_append.mp hm with hm | hm
    · exact hs.requests m hm
    · exact ⟨req, List.mem_singleton.mp hm⟩
  | @reply batch req inbox hp hi =>
    refine ⟨⟨hordered, ?_, fun e he => by cases he⟩, ?_⟩
    · intro m hm
      exact hs.requests m (by rw [hi]; exact List.mem_cons_of_mem _ hm)
    · have hs' := hs.ordered
      rw [Ordered, hp] at hs'
      rw [Conserved, sent_append, Conserved, hp, Fits, hi, hp]
      simp only [Phase.batch, List.append_nil] at hs' ⊢
      rw [conserved_reply_iff hs']
      refine and_congr_right fun _ => ⟨?_, ?_⟩
      · intro hle req' inbox' heq
        rw [List.cons.injEq, Message.traceObjectsRequest.injEq] at heq
        rwa [← heq.1]
      · intro hfits
        exact hfits req inbox rfl
  | @refuse batch m e inbox hp hi hm =>
    obtain ⟨req, rfl⟩ := hs.requests m (by rw [hi]; exact List.mem_cons_self ..)
    cases hm
  | recvFailed hp => exact he.elim
  | sendFailed handed hp hi => exact he.elim

end Session

end Hermod.TraceForwardClient
