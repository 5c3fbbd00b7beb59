import Hermod.ByteChannels
import Hermod.EkgRoundTrip
import Hermod.NodeMetrics

/-!
The polling loop of a connected node over a stream of bytes. The loop sends a request, takes
the answer off its receive buffer and writes its metrics into the registry one by one. At any
moment the trace handler may write into the same registry, bytes arrive in pieces of any
size, and the connection may break. The node may send whatever bytes it likes.
-/
namespace Hermod.EkgSession

open ByteChannels Decoding EkgMessages EkgPoller Transitions
open TracerState (Unicode)

variable {F : Type}

inductive PollError
  | decoding (e : DecodeError)
  /-- Sending or receiving fails. -/
  | multiplexer
  deriving DecidableEq

inductive Phase
  /-- Before a request, at the start as well as after the sleep. -/
  | idle
  /-- `poll_once` has sent its request and receives. -/
  | awaiting
  /-- `update_registry` has these metrics to go. -/
  | updating (rest : List (String × EkgValue))
  | returned (result : Except PollError Unit)

def Phase.pending : Phase → List (String × EkgValue)
  | updating rest => rest
  | _ => []

/-- The loop with its channel. What the node has written and what has been received of it are
kept as history. -/
structure Session (F : Type) where
  phase : Phase
  channel : Channel
  outgoing : Bytes
  observed : Observed F
  written : Bytes
  received : List EkgMessage

inductive Event (F : Type)
  | poll
  /-- `recv_full_msg` returns. The map of a response iterates in this order. -/
  | receives (order : List (String × EkgValue))
  | updates
  | sleeps
  | disconnects
  /-- The trace handler updates a gauge. -/
  | traceField (metricName : String) (value : F)
  | writes (bytes : Bytes)
  | arrives (n : ℕ)

def entries (metrics : Metrics) : List (String × EkgValue) :=
  metrics.entries.map fun e => (e.1, e.2)

def handle (order : List (String × EkgValue)) : EkgMessage → Option Phase
  | .resp metrics => if order.Perm (entries metrics) then some (.updating order) else none
  | .done => some (.returned (.ok ()))
  | .req _ => some (.returned (.error (.decoding (.message "unexpected Req from forwarder"))))

namespace Session

def new : Session F := ⟨.idle, .empty, [], .new, [], []⟩

def step (u : Unicode) (x : F64 F) (requestFull : Bool) (s : Session F) :
    Event F → Option (Session F)
  | .poll =>
    match s.phase with
    | .idle =>
      some { s with
        phase := .awaiting
        outgoing := s.outgoing ++ (EkgMessage.req requestFull).encode }
    | _ => none
  | .receives order =>
    match s.phase with
    | .awaiting =>
      match s.channel.receive EkgMessage.decode with
      | .waiting => none
      | .message m c =>
        (handle order m).map fun phase =>
          { s with phase := phase, channel := c, received := s.received ++ [m] }
      | .rejected e => some { s with phase := .returned (.error (.decoding e)) }
    | _ => none
  | .updates =>
    match s.phase with
    | .updating ((name, value) :: rest) =>
      (record u x s.observed (.ekg name value)).map fun o =>
        { s with phase := .updating rest, observed := o }
    | _ => none
  | .sleeps =>
    match s.phase with
    | .updating [] => some { s with phase := .idle }
    | _ => none
  | .disconnects =>
    match s.phase with
    | .idle | .awaiting => some { s with phase := .returned (.error .multiplexer) }
    | _ => none
  | .traceField metricName value =>
    (record u x s.observed (.traceField metricName value)).map fun o => { s with observed := o }
  | .writes bytes =>
    some { s with channel := s.channel.send bytes, written := s.written ++ bytes }
  | .arrives n => some { s with channel := s.channel.arrive n }

end Session

/-! What holds of every session. -/

def Phase.Unanswered : Phase → ℕ → Prop
  | idle, k => k = 0
  | awaiting, k => k = 1
  | updating _, k => k = 0
  | returned (.ok _), k => k = 0
  | returned (.error _), k => k ≤ 1

def IsResp : EkgMessage → Prop
  | .resp _ => True
  | _ => False

/-- All messages are responses, but for the one that has ended the loop. What is left of the
stream is no message where that has ended it. -/
def Phase.Follows (received : List EkgMessage) (left : Bytes) : Phase → Prop
  | returned (.ok _) => ∃ ms, received = ms ++ [.done] ∧ ∀ m ∈ ms, IsResp m
  | returned (.error (.decoding e)) =>
    (∃ ms getAll, received = ms ++ [.req getAll] ∧ (∀ m ∈ ms, IsResp m) ∧
      e = .message "unexpected Req from forwarder") ∨
    ((∀ m ∈ received, IsResp m) ∧ EkgMessage.decode.run left = .error e ∧ e ≠ .endOfInput)
  | _ => ∀ m ∈ received, IsResp m

def Ordering (m : EkgMessage) (order : List (String × EkgValue)) : Prop :=
  match m with
  | .resp metrics => order.Perm (entries metrics)
  | _ => order = []

def ekgUpdates (seen : List (EkgPoller.Event F)) : List (String × EkgValue) :=
  seen.reverse.filterMap fun
    | .ekg name value => some (name, value)
    | .traceField _ _ => none

structure Sequential (u : Unicode) (x : F64 F) (requestFull : Bool) (s : Session F) : Prop where
  /-- The messages received are those at the beginning of what the node has written. -/
  decodes : Decodes EkgMessage.decode s.written s.received s.channel.bytes
  requests : ∃ k, s.phase.Unanswered k ∧ s.outgoing =
    (List.replicate (s.received.length + k) (EkgMessage.req requestFull).encode).flatten
  follows : s.phase.Follows s.received s.channel.bytes
  /-- Every response is written whole before the next request. -/
  updates : ∃ orders, List.Forall₂ Ordering s.received orders ∧
    orders.flatten = ekgUpdates s.observed.seen ++ s.phase.pending
  registry : run (record u x) Observed.new s.observed.seen.reverse = some s.observed

section Steps

variable {u : Unicode} {x : F64 F} {requestFull : Bool} {s s' : Session F}

theorem sequential_new (u : Unicode) (x : F64 F) (requestFull : Bool) :
    Sequential u x requestFull (Session.new : Session F) where
  decodes := Decodes.nil []
  requests := ⟨0, rfl, rfl⟩
  follows _ h := absurd h List.not_mem_nil
  updates := ⟨[], List.Forall₂.nil, rfl⟩
  registry := rfl

theorem Sequential.sound (h : Sequential u x requestFull s) : Sound u s.observed :=
  run_invariant (I := Sound u) (fun _ _ _ ho hrecord => ho.record hrecord) sound_new h.registry

/-- The history of the registry goes on. -/
theorem run_record_seen {o o' : Observed F} {e : EkgPoller.Event F}
    (h : run (record u x) Observed.new o.seen.reverse = some o)
    (hrecord : record u x o e = some o') :
    o'.seen = e :: o.seen ∧ run (record u x) Observed.new o'.seen.reverse = some o' := by
  obtain ⟨t, -, rfl⟩ := Option.map_eq_some_iff.mp hrecord
  refine ⟨rfl, ?_⟩
  rw [List.reverse_cons]
  exact run_concat_iff.mpr ⟨o, h, hrecord⟩

theorem ekgUpdates_ekg (name : String) (value : EkgValue) (seen : List (EkgPoller.Event F)) :
    ekgUpdates (.ekg name value :: seen) = ekgUpdates seen ++ [(name, value)] := by
  simp [ekgUpdates]

theorem ekgUpdates_traceField (metricName : String) (value : F)
    (seen : List (EkgPoller.Event F)) :
    ekgUpdates (.traceField metricName value :: seen) = ekgUpdates seen := by
  simp [ekgUpdates]

/-- More bytes do not turn what was no message into one. -/
theorem Phase.Follows.extend {p : Phase} {received : List EkgMessage} {left : Bytes}
    (h : p.Follows received left) (more : Bytes) : p.Follows received (left ++ more) := by
  rcases p with _ | _ | rest | ⟨⟨e⟩ | _⟩ | ⟨⟩
  · exact h
  · exact h
  · exact h
  · rcases h with hreq | ⟨hresp, hrun, hne⟩
    · exact Or.inl hreq
    · exact Or.inr ⟨hresp, EkgMessage.decode.stable hrun hne more, hne⟩
  · exact h
  · exact h

theorem Sequential.poll (h : Sequential u x requestFull s) (hphase : s.phase = .idle) :
    Sequential u x requestFull { s with
      phase := .awaiting
      outgoing := s.outgoing ++ (EkgMessage.req requestFull).encode } := by
  obtain ⟨k, hk, hout⟩ := h.requests
  have hfollows := h.follows
  have hupdates := h.updates
  rw [hphase] at hk hfollows hupdates
  obtain rfl : k = 0 := hk
  refine ⟨h.decodes, ⟨1, rfl, ?_⟩, hfollows, hupdates, h.registry⟩
  show s.outgoing ++ _ = _
  rw [hout, Nat.add_zero, List.replicate_succ', List.flatten_append, List.flatten_singleton]

/-- A message that has been received is written, or ends the loop. -/
theorem Sequential.message (h : Sequential u x requestFull s) (hphase : s.phase = .awaiting)
    {order : List (String × EkgValue)} {m : EkgMessage} {c : Channel} {p : Phase}
    (hreceive : s.channel.receive EkgMessage.decode = .message m c)
    (hp : handle order m = some p) :
    Sequential u x requestFull
      { s with phase := p, channel := c, received := s.received ++ [m] } := by
  obtain ⟨k, hk, hout⟩ := h.requests
  obtain ⟨orders, horders, hflatten⟩ := h.updates
  have hfollows := h.follows
  rw [hphase] at hk hfollows hflatten
  obtain rfl : k = 1 := hk
  have hnone : Phase.awaiting.pending = [] := rfl
  rw [hnone, List.append_nil] at hflatten
  have hdecodes := h.decodes.concat (Channel.run_of_message hreceive)
  have hlength : (s.received ++ [m]).length = s.received.length + 1 := List.length_append
  have hrequests : s.outgoing = (List.replicate ((s.received ++ [m]).length + 0)
      (EkgMessage.req requestFull).encode).flatten := by
    rw [hout, hlength, Nat.add_zero]
  -- in which order the metrics of the message are written
  have hwritten : ∀ order', Ordering m order' → p.pending = order' →
      ∃ orders', List.Forall₂ Ordering (s.received ++ [m]) orders' ∧
        orders'.flatten = ekgUpdates s.observed.seen ++ p.pending := by
    intro order' horder hpending
    refine ⟨orders ++ [order'], ?_, ?_⟩
    · exact List.rel_append horders (List.Forall₂.cons horder List.Forall₂.nil)
    · rw [List.flatten_append, hflatten, List.flatten_singleton, hpending]
  cases m with
  | req getAll =>
    obtain rfl := (Option.some.inj hp).symm
    exact ⟨hdecodes, ⟨0, Nat.zero_le 1, hrequests⟩,
      Or.inl ⟨s.received, getAll, rfl, hfollows, rfl⟩, hwritten [] rfl rfl, h.registry⟩
  | done =>
    obtain rfl := (Option.some.inj hp).symm
    exact ⟨hdecodes, ⟨0, rfl, hrequests⟩, ⟨s.received, rfl, hfollows⟩, hwritten [] rfl rfl,
      h.registry⟩
  | resp metrics =>
    rw [handle] at hp
    split at hp
    · rename_i hperm
      obtain rfl := (Option.some.inj hp).symm
      refine ⟨hdecodes, ⟨0, rfl, hrequests⟩, ?_, hwritten order hperm rfl, h.registry⟩
      intro m hm
      rcases List.mem_append.mp hm with hm | hm
      · exact hfollows m hm
      · rw [List.mem_singleton.mp hm]
        trivial
    · cases hp

theorem Sequential.update (h : Sequential u x requestFull s) {name : String} {value : EkgValue}
    {rest : List (String × EkgValue)} {o : Observed F}
    (hphase : s.phase = .updating ((name, value) :: rest))
    (hrecord : record u x s.observed (.ekg name value) = some o) :
    Sequential u x requestFull { s with phase := .updating rest, observed := o } := by
  obtain ⟨k, hk, hout⟩ := h.requests
  obtain ⟨orders, horders, hflatten⟩ := h.updates
  have hfollows := h.follows
  obtain ⟨hseen, hregistry⟩ := run_record_seen h.registry hrecord
  rw [hphase] at hk hfollows hflatten
  refine ⟨h.decodes, ⟨k, hk, hout⟩, hfollows, ⟨orders, horders, ?_⟩, hregistry⟩
  show _ = ekgUpdates o.seen ++ rest
  rw [hflatten, hseen, ekgUpdates_ekg, List.append_assoc]
  rfl

theorem Sequential.traceField (h : Sequential u x requestFull s) {metricName : String} {value : F}
    {o : Observed F} (hrecord : record u x s.observed (.traceField metricName value) = some o) :
    Sequential u x requestFull { s with observed := o } := by
  obtain ⟨hseen, hregistry⟩ := run_record_seen h.registry hrecord
  refine ⟨h.decodes, h.requests, h.follows, ?_, hregistry⟩
  show ∃ orders, _ ∧ _ = ekgUpdates o.seen ++ _
  rw [hseen, ekgUpdates_traceField]
  exact h.updates

/-- The loop returns before the answer to a request, if it has sent one. -/
theorem Sequential.fail (h : Sequential u x requestFull s) {e : PollError}
    (hphase : s.phase = .idle ∨ s.phase = .awaiting)
    (he : ∀ e', e = .decoding e' →
      EkgMessage.decode.run s.channel.bytes = .error e' ∧ e' ≠ .endOfInput) :
    Sequential u x requestFull { s with phase := .returned (.error e) } := by
  obtain ⟨k, hk, hout⟩ := h.requests
  have hfollows := h.follows
  have hupdates := h.updates
  have hcases : k ≤ 1 ∧ (∀ m ∈ s.received, IsResp m) ∧ s.phase.pending = [] := by
    rcases hphase with hphase | hphase
    · rw [hphase] at hk hfollows ⊢
      obtain rfl : k = 0 := hk
      exact ⟨Nat.zero_le 1, hfollows, rfl⟩
    · rw [hphase] at hk hfollows ⊢
      obtain rfl : k = 1 := hk
      exact ⟨Nat.le_refl 1, hfollows, rfl⟩
  obtain ⟨hle, hresp, hpending⟩ := hcases
  rw [hpending] at hupdates
  refine ⟨h.decodes, ⟨k, hle, hout⟩, ?_, hupdates, h.registry⟩
  cases e with
  | decoding e' => exact Or.inr ⟨hresp, he e' rfl⟩
  | multiplexer => exact hresp

/-- Every step keeps to one request at a time. -/
theorem Sequential.step (h : Sequential u x requestFull s) {e : Event F}
    (hstep : s.step u x requestFull e = some s') : Sequential u x requestFull s' := by
  cases e with
  | poll =>
    simp only [Session.step] at hstep
    split at hstep
    · rename_i hphase
      rw [← Option.some.inj hstep]
      exact h.poll hphase
    · cases hstep
  | receives order =>
    simp only [Session.step] at hstep
    split at hstep
    · rename_i hphase
      split at hstep
      · cases hstep
      · rename_i m c hreceive
        obtain ⟨p, hp, rfl⟩ := Option.map_eq_some_iff.mp hstep
        exact h.message hphase hreceive hp
      · rename_i e hreceive
        rw [← Option.some.inj hstep]
        refine h.fail (Or.inr hphase) ?_
        intro e' he'
        rw [← PollError.decoding.inj he']
        exact Channel.run_of_rejected hreceive
    · cases hstep
  | updates =>
    simp only [Session.step] at hstep
    split at hstep
    · rename_i name value rest hphase
      obtain ⟨o, hrecord, rfl⟩ := Option.map_eq_some_iff.mp hstep
      exact h.update hphase hrecord
    · cases hstep
  | sleeps =>
    simp only [Session.step] at hstep
    split at hstep
    · rename_i hphase
      rw [← Option.some.inj hstep]
      obtain ⟨k, hk, hout⟩ := h.requests
      have hfollows := h.follows
      have hupdates := h.updates
      rw [hphase] at hk hfollows hupdates
      exact ⟨h.decodes, ⟨k, hk, hout⟩, hfollows, hupdates, h.registry⟩
    · cases hstep
  | disconnects =>
    simp only [Session.step] at hstep
    split at hstep
    · rename_i hphase
      rw [← Option.some.inj hstep]
      exact h.fail (Or.inl hphase) fun _ he => by cases he
    · rename_i hphase
      rw [← Option.some.inj hstep]
      exact h.fail (Or.inr hphase) fun _ he => by cases he
    · cases hstep
  | traceField metricName value =>
    obtain ⟨o, hrecord, rfl⟩ := Option.map_eq_some_iff.mp hstep
    exact h.traceField hrecord
  | writes bytes =>
    rw [← Option.some.inj hstep]
    have hdecodes := h.decodes.extend bytes
    have hfollows := h.follows.extend bytes
    rw [← Channel.bytes_send] at hdecodes hfollows
    exact ⟨hdecodes, h.requests, hfollows, h.updates, h.registry⟩
  | arrives n =>
    rw [← Option.some.inj hstep]
    have hdecodes := h.decodes
    have hfollows := h.follows
    rw [← Channel.bytes_arrive _ n] at hdecodes hfollows
    exact ⟨hdecodes, h.requests, hfollows, h.updates, h.registry⟩

/-- The loop goes on: it never waits for anything but the rest of a message, and no update
panics. -/
def Session.GoesOn (u : Unicode) (x : F64 F) (requestFull : Bool) (s : Session F) : Prop :=
  match s.phase with
  | .idle => (s.step u x requestFull .poll).isSome
  | .awaiting =>
    EkgMessage.decode.run s.channel.bytes ≠ .error .endOfInput →
      ∃ order, (run (Session.step u x requestFull) s
        [.arrives s.channel.wire.length, .receives order]).isSome
  | .updating [] => (s.step u x requestFull .sleeps).isSome
  | .updating (_ :: _) => (s.step u x requestFull .updates).isSome
  | .returned _ => True

theorem exists_handle (m : EkgMessage) : ∃ order p, handle order m = some p := by
  cases m with
  | req getAll => exact ⟨[], _, rfl⟩
  | done => exact ⟨[], _, rfl⟩
  | resp metrics => exact ⟨entries metrics, _, if_pos (List.Perm.refl _)⟩

theorem Sequential.record_isSome (h : Sequential u x requestFull s) (e : EkgPoller.Event F) :
    (record u x s.observed e).isSome := by
  obtain ⟨t, hstep, -⟩ := step_updates (x := x) h.sound.consistent e
  rw [record, hstep]
  rfl

/-- Nothing but the rest of a message is waited for. -/
theorem Sequential.goesOn (h : Sequential u x requestFull s) : s.GoesOn u x requestFull := by
  unfold Session.GoesOn
  split
  · rename_i hphase
    simp [Session.step, hphase]
  · rename_i hphase
    intro hrun
    have hreceive := Channel.receive_ne_waiting hrun
    cases hcases : (s.channel.arrive s.channel.wire.length).receive EkgMessage.decode with
    | waiting => exact absurd hcases hreceive
    | message m c =>
      obtain ⟨order, p, hp⟩ := exists_handle m
      exact ⟨order, by simp [run, Session.step, hphase, hcases, hp]⟩
    | rejected e => exact ⟨[], by simp [run, Session.step, hphase, hcases]⟩
  · rename_i hphase
    simp [Session.step, hphase]
  · rename_i p rest hphase
    obtain ⟨o, ho⟩ := Option.isSome_iff_exists.mp (h.record_isSome (.ekg p.1 p.2))
    simp [Session.step, hphase, ho]
  · trivial

end Steps

/-- Whatever the node writes, however its bytes arrive and whatever the trace handler does
meanwhile: what the loop has received is what the bytes say, message by message. It sends one
request at a time, writes each response whole before the next and nothing else, stops at the
first message that is no response and at bytes that are no message, and until then waits for
nothing but the rest of a message. -/
theorem session_sequential {u : Unicode} {x : F64 F} {requestFull : Bool} {es : List (Event F)}
    {s : Session F} (h : run (Session.step u x requestFull) Session.new es = some s) :
    Sequential u x requestFull s ∧ s.GoesOn u x requestFull ∧
      ∀ metricName value,
        (s.step u x requestFull (.traceField metricName value)).isSome := by
  have hsequential : Sequential u x requestFull s :=
    run_invariant (I := Sequential u x requestFull) (fun _ _ _ hs hstep => hs.step hstep)
      (sequential_new u x requestFull) h
  refine ⟨hsequential, hsequential.goesOn, ?_⟩
  intro metricName value
  rw [Session.step, Option.isSome_map]
  exact hsequential.record_isSome _

/-- A response with two metrics, cut in the middle and followed by `Done`, while the trace
handler sets a gauge. -/
theorem session_sequential_done :
    let metrics : Metrics := AList.insert "b" (.gauge 7) (AList.insert "a" (.counter 5) ∅)
    let written := (EkgMessage.resp metrics).encode ++ EkgMessage.done.encode
    ∃ s : Session ℤ, run (Session.step .ascii ⟨Int64.toInt, 1⟩ true) Session.new
        [.writes (written.take 9), .poll, .arrives 9, .writes (written.drop 9), .arrives 40,
          .receives [("a", .counter 5), ("b", .gauge 7)], .updates, .traceField "c" 1, .updates,
          .sleeps, .poll, .receives []] = some s ∧
      s.received.length = 2 ∧ Sequential .ascii ⟨Int64.toInt, 1⟩ true s := by
  intro metrics written
  obtain ⟨s, hrun⟩ := Option.isSome_iff_exists.mp
    (by decide +kernel : (run (Session.step .ascii ⟨Int64.toInt, 1⟩ true) Session.new
        [.writes (written.take 9), .poll, .arrives 9, .writes (written.drop 9), .arrives 40,
          .receives [("a", .counter 5), ("b", .gauge 7)], .updates, .traceField "c" 1, .updates,
          .sleeps, .poll, .receives []]).isSome)
  have hlength : (run (Session.step .ascii ⟨Int64.toInt, 1⟩ true) Session.new
        [.writes (written.take 9), .poll, .arrives 9, .writes (written.drop 9), .arrives 40,
          .receives [("a", .counter 5), ("b", .gauge 7)], .updates, .traceField "c" 1, .updates,
          .sleeps, .poll, .receives []]).map (fun s => s.received.length) = some 2 := by
    decide +kernel
  rw [hrun, Option.map_some, Option.some.injEq] at hlength
  exact ⟨s, hrun, hlength, (session_sequential hrun).1⟩

end Hermod.EkgSession
