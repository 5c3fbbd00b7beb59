import Hermod.ForwarderHandle
import Mathlib.Data.List.AList

/-!
The subscriber layer that turns the events of a process into traces and puts them into
the queue of its forwarder. The forwarder runs in the same process and reports what it
does by events of its own, which the layer receives like all others.
-/
namespace Hermod.TracingLayer

open ProtocolTypes ProtocolMessages TraceForwardClient TraceForwarder ForwarderHandle Transitions

inductive Level
  | trace
  | debug
  | info
  | warn
  | error
  deriving DecidableEq

def levelToSeverity : Level → Severity
  | .trace => .debug
  | .debug => .debug
  | .info => .info
  | .warn => .warning
  | .error => .error

/-- A field as an event records it, formatted where it has no type of its own. -/
inductive Field
  | f64 (bits : UInt64)
  | i64 (value : Int64)
  | u64 (value : UInt64)
  | bool (value : Bool)
  | str (value : String)
  | debug (text : String)
  | error (text : String)
  deriving DecidableEq

inductive Json
  | f64 (bits : UInt64)
  | i64 (value : Int64)
  | u64 (value : UInt64)
  | bool (value : Bool)
  | string (value : String)
  deriving DecidableEq

def Json.asStr : Json → Option String
  | .string value => some value
  | _ => none

abbrev JsonMap := AList fun _ : String => Json

def Field.json : Field → Json
  | .f64 bits => .f64 bits
  | .i64 value => .i64 value
  | .u64 value => .u64 value
  | .bool value => .bool value
  | .str value => .string value
  | .debug text => .string text
  | .error text => .string text

/-- The fields of an event as a map, in which a field replaces an earlier one. -/
def visit (fields : List (String × Field)) : JsonMap :=
  fields.foldl (fun map field => map.insert field.1 field.2.json) ∅

structure TracingEvent where
  target : String
  level : Level
  fields : List (String × Field)
  deriving DecidableEq

def TracingEvent.message (target : String) (level : Level) (text : String) : TracingEvent :=
  ⟨target, level, [("message", .debug text)]⟩

structure Stamp where
  now : DateTime
  threadId : String

structure Layer where
  hostname : String
  namespacePrefix : List String

def containsColons : List Char → Bool
  | ':' :: ':' :: _ => true
  | _ :: cs => containsColons cs
  | [] => false

def splitColons : List Char → List (List Char)
  | ':' :: ':' :: cs => [] :: splitColons cs
  | c :: cs =>
    match splitColons cs with
    | segment :: segments => (c :: segment) :: segments
    | [] => [[c]]
  | [] => [[]]

def extractNamespace (layer : Layer) (target : String) : List String :=
  let segments :=
    if containsColons target.toList then splitColons target.toList
    else (target.toList.splitOn '.').filter (· ≠ [])
  layer.namespacePrefix ++ segments.map String.ofList

def traceObject (layer : Layer) (toString : JsonMap → Option String) (stamp : Stamp)
    (event : TracingEvent) : TraceObject :=
  let map := visit event.fields
  { toHuman := (map.lookup "message").bind Json.asStr
    toMachine := (toString map).getD "\x7b\x7d"
    toNamespace := extractNamespace layer event.target
    toSeverity := levelToSeverity event.level
    toDetails := .dNormal
    toTimestamp := stamp.now
    toHostname := layer.hostname
    toThreadId := stamp.threadId }

inductive ForwarderAddress
  | unix (path : String)
  | tcp (host : String) (port : UInt16)

def ForwarderAddress.display : ForwarderAddress → String
  | .unix path => path
  | .tcp host port => host ++ ":" ++ toString port

structure Config where
  queueSize : ℕ
  address : ForwarderAddress
  maxReconnectDelay : ℕ
  layer : Layer
  jsonToString : JsonMap → Option String
  stamp : ℕ → Stamp

inductive Origin
  | application
  | hermod
  deriving DecidableEq

inductive Dial
  | notStarted
  | waiting
  | dialing
  | connected
  deriving DecidableEq

/-- The traces that were put into the queue are kept as history, each with the origin of
its event. -/
structure Process where
  forwarder : Forwarder
  dial : Dial
  reconnectDelay : ℕ
  recorded : ℕ
  appEvents : ℕ
  enqueued : List (Origin × TraceObject)

inductive Event
  /-- The application emits an event. -/
  | app (event : TracingEvent)
  /-- `run` starts. -/
  | start
  | dial
  | dialFailed (error : ForwarderError)
  | connected
  | accepted (version networkMagic : ℕ)
  | handshakeFailed (error : ForwarderError)
  | recv
  | arrive (m : Message)
  | handle
  | recvFailed (error : String)
  | sendFailed (error : String) (handed : Bool)

namespace Process

def start : Process := ⟨Forwarder.start, .notStarted, 1, 0, 0, []⟩

def onEvent (cfg : Config) (origin : Origin) (s : Process) (event : TracingEvent) : Process :=
  let trace := traceObject cfg.layer cfg.jsonToString (cfg.stamp s.recorded) event
  match trySend cfg.queueSize s.forwarder trace with
  | .ok f =>
    { s with forwarder := f, recorded := s.recorded + 1,
             enqueued := s.enqueued ++ [(origin, trace)] }
  | .error _ => { s with recorded := s.recorded + 1 }

def emit (cfg : Config) (s : Process) (events : List TracingEvent) : Process :=
  events.foldl (onEvent cfg .hermod) s

def forwarderTarget : String := "hermod::forwarder"

def clientTarget : String := "hermod::mux::client"

def reconnecting (s : Process) (error : ForwarderError) : TracingEvent :=
  .message forwarderTarget .error ("Forwarder error: " ++ error.display ++ ", reconnecting in " ++
    toString s.reconnectDelay ++ "s")

def clientFailed (s : Process) (error : String) : List TracingEvent :=
  [.message forwarderTarget .warn ("Client error: " ++ error), s.reconnecting .connectionClosed]

def receivedRequest (req : MsgTraceObjectsRequest) : List TracingEvent :=
  [.message clientTarget .debug "Received message",
    .message clientTarget .debug ("Received request for " ++ toString req.numberOfTraceObjects ++
      " traces (blocking: " ++ toString req.blocking ++ ")"),
    .message clientTarget .debug "Sending message"]

def handled (s : Process) : Message → List TracingEvent
  | .traceObjectsRequest req => receivedRequest req
  | .done =>
    [.message clientTarget .debug "Received message",
      .message clientTarget .info "Received Done message",
      .message forwarderTarget .info "Acceptor sent Done, closing connection",
      .message forwarderTarget .info "Forwarder connection closed gracefully"]
  | .traceObjectsReply _ =>
    .message clientTarget .debug "Received message" :: s.clientFailed "invalid inbound message"

def nextMessage (s : Process) : Option Message :=
  match s.forwarder.status with
  | .serving session =>
    match session.phase with
    | .requesting _ => session.inbox.head?
    | _ => none
  | _ => none

def emissions (cfg : Config) (s : Process) : Event → List TracingEvent
  | .app _ => []
  | .start => [.message forwarderTarget .info "Starting trace forwarder"]
  | .dial => [.message forwarderTarget .debug ("Connecting to " ++ cfg.address.display)]
  | .dialFailed error => [s.reconnecting error]
  | .connected =>
    [.message forwarderTarget .info ("Connected to hermod-tracer at " ++ cfg.address.display)]
  | .accepted version networkMagic =>
    [.message forwarderTarget .info ("Handshake accepted: version=" ++ toString version ++
      ", magic=" ++ toString networkMagic)]
  | .handshakeFailed error => [s.reconnecting error]
  | .recv =>
    match s.forwarder.status with
    | .serving session =>
      match session.phase, s.forwarder.queue with
      | .draining batch, [] =>
        [.message forwarderTarget .debug ("Sending " ++ toString batch.length ++
          " traces to acceptor")]
      | _, _ => []
    | _ => []
  | .arrive _ => []
  | .handle =>
    match s.nextMessage with
    | some m => s.handled m
    | none => []
  | .recvFailed error => s.clientFailed ("multiplexer error: " ++ error)
  | .sendFailed error _ =>
    match s.nextMessage with
    | some (.traceObjectsRequest req) =>
      receivedRequest req ++ s.clientFailed ("multiplexer error: " ++ error)
    | _ => []

def forwarderEvent : Event → Option TraceForwarder.Event
  | .connected => some .connect
  | .accepted _ _ => some (.handshake true)
  | .handshakeFailed _ => some (.handshake false)
  | .recv => some .recv
  | .arrive m => some (.wire (.arrive m))
  | .handle => some (.wire .handle)
  | .recvFailed _ => some (.wire .recvFailed)
  | .sendFailed _ handed => some (.wire (.sendFailed handed))
  | _ => none

def retry (cfg : Config) (s : Process) : Process :=
  { s with dial := .waiting, reconnectDelay := min (s.reconnectDelay * 2) cfg.maxReconnectDelay }

def own (cfg : Config) (s : Process) (e : Event) : Option Process :=
  match s.dial, e with
  | _, .app _ => none
  | .notStarted, .start => some { s with dial := .waiting }
  | .waiting, .dial => some { s with dial := .dialing }
  | .dialing, .dialFailed _ => some (s.retry cfg)
  | .dialing, .connected =>
    (s.forwarder.step cfg.queueSize .connect).map fun f =>
      { s with forwarder := f, dial := .connected }
  | .connected, e =>
    (forwarderEvent e).bind fun fe =>
      (s.forwarder.step cfg.queueSize fe).map fun f =>
        if f.status = .disconnected then retry cfg { s with forwarder := f }
        else { s with forwarder := f }
  | _, _ => none

def step (cfg : Config) (s : Process) : Event → Option Process
  | .app event => some (onEvent cfg .application { s with appEvents := s.appEvents + 1 } event)
  -- The size of the batch is reported once it is drained.
  | .recv => (s.own cfg .recv).map fun s' => emit cfg s' (s.emissions cfg .recv)
  | e => own cfg (emit cfg s (s.emissions cfg e)) e

/-- Every trace in the queue is that of an event of the application, and no more traces
have been sent than it emitted events. -/
def FeedsNothing (s : Process) : Prop :=
  (∀ x ∈ s.enqueued, x.1 = .application) ∧ s.forwarder.allSent.length ≤ s.appEvents

/-- Whenever the forwarder emits an event its queue takes none. -/
def Muted (cfg : Config) (s : Process) (e : Event) : Prop :=
  s.emissions cfg e = [] ∨ ¬ Open cfg.queueSize s.forwarder

/-! What is put into the queue. -/

/-- An event that the queue takes is the last one in it, and others change nothing. -/
theorem onEvent_spec (cfg : Config) (origin : Origin) (s : Process) (event : TracingEvent) :
    ∃ more, (onEvent cfg origin s event).enqueued = s.enqueued ++ more.map (Prod.mk origin) ∧
      (onEvent cfg origin s event).forwarder.accepted = s.forwarder.accepted ++ more ∧
      (onEvent cfg origin s event).appEvents = s.appEvents ∧ more.length ≤ 1 ∧
      (more = [] ↔ ¬ Open cfg.queueSize s.forwarder) ∧
      (more = [] → (onEvent cfg origin s event).forwarder = s.forwarder) := by
  set trace := traceObject cfg.layer cfg.jsonToString (cfg.stamp s.recorded) event with htrace
  by_cases hopen : Open cfg.queueSize s.forwarder
  · refine ⟨[trace], ?_⟩
    simp [onEvent, ← htrace, trySend_of_open trace hopen, hopen]
  · refine ⟨[], ?_⟩
    simp [onEvent, ← htrace, trySend_of_not_open trace hopen, hopen]

theorem onEvent_ordered {cfg : Config} {origin : Origin} {s : Process} {event : TracingEvent}
    (hs : Forwarder.OrderedSince [] [] s.forwarder) :
    Forwarder.OrderedSince [] [] (onEvent cfg origin s event).forwarder := by
  cases haccept : s.forwarder.step cfg.queueSize
      (.accept (traceObject cfg.layer cfg.jsonToString (cfg.stamp s.recorded) event)) with
  | none => simpa only [onEvent, trySend, haccept] using hs
  | some f => simpa only [onEvent, trySend, haccept] using hs.step haccept

/-- What the forwarder emits ends up in the queue unless that takes none of it. -/
theorem emit_spec (cfg : Config) (s : Process) (events : List TracingEvent) :
    ∃ more, (emit cfg s events).enqueued = s.enqueued ++ more.map (Prod.mk .hermod) ∧
      (emit cfg s events).forwarder.accepted = s.forwarder.accepted ++ more ∧
      (emit cfg s events).appEvents = s.appEvents ∧
      (more = [] ↔ events = [] ∨ ¬ Open cfg.queueSize s.forwarder) := by
  induction events generalizing s with
  | nil => exact ⟨[], by simp [emit]⟩
  | cons event events ih =>
    obtain ⟨first, hfirst, hacc, happ, -, hmuted, hsame⟩ := onEvent_spec cfg .hermod s event
    obtain ⟨rest, hrest, hacc', happ', hiff⟩ := ih (onEvent cfg .hermod s event)
    refine ⟨first ++ rest, ?_, ?_, happ'.trans happ, ?_⟩
    · show (emit cfg (onEvent cfg .hermod s event) events).enqueued = _
      rw [hrest, hfirst, List.map_append, List.append_assoc]
    · show (emit cfg (onEvent cfg .hermod s event) events).forwarder.accepted = _
      rw [hacc', hacc, List.append_assoc]
    · rw [List.append_eq_nil_iff, hmuted]
      constructor
      · intro h
        exact Or.inr h.1
      · intro h
        rcases h with h | hclosed
        · cases h
        · refine ⟨hclosed, hiff.mpr (Or.inr ?_)⟩
          rwa [hsame (hmuted.mpr hclosed)]

theorem emit_ordered {cfg : Config} {s : Process} {events : List TracingEvent}
    (hs : Forwarder.OrderedSince [] [] s.forwarder) :
    Forwarder.OrderedSince [] [] (emit cfg s events).forwarder := by
  induction events generalizing s with
  | nil => exact hs
  | cons event events ih => exact ih (onEvent_ordered hs)

/-! What a step of the forwarder leaves as it is. -/

theorem accepted_step {queueSize : ℕ} {f f' : Forwarder} {e : TraceForwarder.Event}
    (he : ∀ t, e ≠ .accept t) (h : f.step queueSize e = some f') : f'.accepted = f.accepted := by
  cases Forwarder.step_spec h with
  | accept t => exact absurd rfl (he t)
  | connect hs => rfl
  | established hs => rfl
  | refused hs => rfl
  | recv hs hq ht => rfl
  | drained hs hd => rfl
  | wire hs hw => exact Forwarder.afterWire_accepted ..

theorem forwarderEvent_ne_accept {e : Event} {fe : TraceForwarder.Event}
    (h : forwarderEvent e = some fe) (t : TraceObject) : fe ≠ .accept t := by
  intro hfe
  subst hfe
  cases e <;> cases h

/-- The queue and its history change by a step of the forwarder only, which accepts no
trace. -/
theorem own_spec {cfg : Config} {s s' : Process} {e : Event} (h : s.own cfg e = some s') :
    s'.enqueued = s.enqueued ∧ s'.appEvents = s.appEvents ∧
      (s'.forwarder = s.forwarder ∨ ∃ fe, forwarderEvent e = some fe ∧
        s.forwarder.step cfg.queueSize fe = some s'.forwarder) := by
  unfold own at h
  split at h
  · cases h
  · rw [← Option.some.inj h]
    exact ⟨rfl, rfl, Or.inl rfl⟩
  · rw [← Option.some.inj h]
    exact ⟨rfl, rfl, Or.inl rfl⟩
  · rw [← Option.some.inj h]
    exact ⟨rfl, rfl, Or.inl rfl⟩
  · obtain ⟨f, hf, rfl⟩ := Option.map_eq_some_iff.mp h
    exact ⟨rfl, rfl, Or.inr ⟨.connect, rfl, hf⟩⟩
  · obtain ⟨fe, hfe, h⟩ := Option.bind_eq_some_iff.mp h
    obtain ⟨f, hf, rfl⟩ := Option.map_eq_some_iff.mp h
    split
    · exact ⟨rfl, rfl, Or.inr ⟨fe, hfe, hf⟩⟩
    · exact ⟨rfl, rfl, Or.inr ⟨fe, hfe, hf⟩⟩
  · cases h

theorem own_accepted {cfg : Config} {s s' : Process} {e : Event} (h : s.own cfg e = some s') :
    s'.forwarder.accepted = s.forwarder.accepted := by
  obtain ⟨-, -, hsame | ⟨fe, hfe, hstep⟩⟩ := own_spec h
  · rw [hsame]
  · exact accepted_step (forwarderEvent_ne_accept hfe) hstep

theorem own_ordered {cfg : Config} {s s' : Process} {e : Event} (h : s.own cfg e = some s')
    (hs : Forwarder.OrderedSince [] [] s.forwarder) :
    Forwarder.OrderedSince [] [] s'.forwarder := by
  obtain ⟨-, -, hsame | ⟨fe, hfe, hstep⟩⟩ := own_spec h
  · rwa [hsame]
  · exact hs.step hstep

/-- The step that reports a drained batch leaves the queue empty. -/
theorem open_own_recv_iff {cfg : Config} {s s' : Process} (h : s.own cfg .recv = some s')
    (hemit : s.emissions cfg .recv ≠ []) :
    Open cfg.queueSize s'.forwarder ↔ Open cfg.queueSize s.forwarder := by
  simp only [emissions] at hemit
  split at hemit
  · rename_i session hstatus
    split at hemit
    · rename_i batch hphase hqueue
      obtain ⟨-, -, hsame | ⟨fe, hfe, hstep⟩⟩ := own_spec h
      · rw [hsame]
      · obtain rfl : .recv = fe := Option.some.inj hfe
        have hrecv : s'.forwarder.queue = [] ∧ s'.forwarder.status ≠ .finished := by
          simp only [Forwarder.step, hstatus, hqueue] at hstep
          obtain ⟨session', -, hf⟩ := Option.map_eq_some_iff.mp hstep
          rw [← hf]
          exact ⟨rfl, by simp⟩
        simp [Open, hrecv, hqueue, hstatus]
    · exact absurd rfl hemit
  · exact absurd rfl hemit

/-! Runs. -/

structure Inv (s : Process) : Prop where
  accepted : s.forwarder.accepted = s.enqueued.map Prod.snd
  ordered : Forwarder.OrderedSince [] [] s.forwarder
  counted : (s.enqueued.filter fun x => x.1 = .application).length ≤ s.appEvents

theorem inv_start : Inv start :=
  ⟨rfl, Forwarder.orderedSince_start, Nat.le_refl 0⟩

/-- Then no more traces are sent than the application emitted events. -/
theorem Inv.feedsNothing_iff {s : Process} (hs : Inv s) :
    FeedsNothing s ↔ ∀ x ∈ s.enqueued, x.1 = .application := by
  refine and_iff_left_of_imp fun happ => ?_
  obtain ⟨sent, later, hsent, hacc, hsub⟩ := hs.ordered.sent_sublist
  have hall : s.enqueued.filter (fun x => x.1 = .application) = s.enqueued :=
    List.filter_eq_self.mpr fun x hx => by simp [happ x hx]
  have hlen := hsub.length_le
  have hcount := hs.counted
  have hlater : later.length = s.enqueued.length := by
    rw [← List.length_map (f := Prod.snd), ← hs.accepted, hacc]
    rfl
  rw [hall] at hcount
  simp only [List.map_nil, List.flatten_nil, List.nil_append] at hsent
  rw [List.length_append] at hlen
  rw [hsent]
  omega

theorem step_app {cfg : Config} {s : Process} (hs : Inv s) (event : TracingEvent) :
    Inv (onEvent cfg .application { s with appEvents := s.appEvents + 1 } event) ∧
      (FeedsNothing s →
        FeedsNothing (onEvent cfg .application { s with appEvents := s.appEvents + 1 } event)) := by
  obtain ⟨more, henq, hacc, happ, hlen, -, -⟩ :=
    onEvent_spec cfg .application { s with appEvents := s.appEvents + 1 } event
  have hinv : Inv (onEvent cfg .application { s with appEvents := s.appEvents + 1 } event) := by
    refine ⟨?_, onEvent_ordered hs.ordered, ?_⟩
    · rw [hacc, henq, List.map_append, List.map_map, ← hs.accepted]
      simp [Function.comp_def]
    · have hcount := hs.counted
      have hfilter := List.length_filter_le (fun x => decide (x.1 = Origin.application))
        (more.map (Prod.mk .application))
      rw [List.length_map] at hfilter
      rw [henq, happ, List.filter_append, List.length_append]
      show (s.enqueued.filter fun x => x.1 = .application).length + _ ≤ s.appEvents + 1
      omega
  refine ⟨hinv, ?_⟩
  rw [hs.feedsNothing_iff, hinv.feedsNothing_iff, henq]
  intro hfeeds x hx
  rcases List.mem_append.mp hx with hx | hx
  · exact hfeeds x hx
  · obtain ⟨trace, -, rfl⟩ := List.mem_map.mp hx
    rfl

/-- Other steps add what the forwarder emitted, `more`. -/
theorem feedsNothing_of_enqueued {s s' : Process} {more : List TraceObject} (hs : Inv s)
    (henq : s'.enqueued = s.enqueued ++ more.map (Prod.mk .hermod))
    (hacc : s'.forwarder.accepted = s.forwarder.accepted ++ more)
    (happ : s'.appEvents = s.appEvents) (hord : Forwarder.OrderedSince [] [] s'.forwarder) :
    Inv s' ∧ (FeedsNothing s → (FeedsNothing s' ↔ more = [])) := by
  have hinv : Inv s' := by
    refine ⟨?_, hord, ?_⟩
    · rw [hacc, henq, List.map_append, List.map_map, ← hs.accepted]
      simp [Function.comp_def]
    · have hnone :
          (more.map (Prod.mk Origin.hermod)).filter (fun x => x.1 = .application) = [] := by
        simp
      rw [henq, List.filter_append, hnone, List.append_nil, happ]
      exact hs.counted
  refine ⟨hinv, ?_⟩
  rw [hs.feedsNothing_iff, hinv.feedsNothing_iff, henq]
  intro hfeeds
  constructor
  · intro hall
    cases more with
    | nil => rfl
    | cons trace more =>
      have horigin := hall (.hermod, trace) (by simp)
      cases horigin
  · intro hmore
    subst hmore
    simpa using hfeeds

/-- The forwarder emits its events before its step, but for what it says of a receive. -/
theorem step_spec {cfg : Config} {s s' : Process} {e : Event} (he : ∀ event, e ≠ .app event)
    (h : s.step cfg e = some s') :
    (∃ s₁, s.own cfg e = some s₁ ∧ e = .recv ∧ s' = emit cfg s₁ (s.emissions cfg e)) ∨
      own cfg (emit cfg s (s.emissions cfg e)) e = some s' := by
  cases e with
  | app event => exact absurd rfl (he event)
  | recv =>
    obtain ⟨s₁, hs₁, rfl⟩ := Option.map_eq_some_iff.mp h
    exact Or.inl ⟨s₁, hs₁, rfl, rfl⟩
  | _ => exact Or.inr h

/-- A step feeds nothing back exactly when it is muted. -/
theorem feedsNothing_step_iff {cfg : Config} {s s' : Process} {e : Event} (hs : Inv s)
    (hfeeds : FeedsNothing s) (h : s.step cfg e = some s') :
    Inv s' ∧ (FeedsNothing s' ↔ s.Muted cfg e) := by
  by_cases he : ∃ event, e = .app event
  · obtain ⟨event, rfl⟩ := he
    rw [step, Option.some.injEq] at h
    rw [← h]
    obtain ⟨hinv, hkeep⟩ := step_app hs event
    exact ⟨hinv, iff_of_true (hkeep hfeeds) (Or.inl rfl)⟩
  · rcases step_spec (fun event hevent => he ⟨event, hevent⟩) h with ⟨s₁, hown, rfl, rfl⟩ | hown
    · obtain ⟨henq₁, happ₁, -⟩ := own_spec hown
      obtain ⟨more, henq, hacc, happ, hmore⟩ := emit_spec cfg s₁ (s.emissions cfg .recv)
      obtain ⟨hinv, hiff⟩ := feedsNothing_of_enqueued hs (henq.trans (by rw [henq₁]))
        (hacc.trans (by rw [own_accepted hown])) (happ.trans happ₁)
        (emit_ordered (own_ordered hown hs.ordered))
      refine ⟨hinv, (hiff hfeeds).trans (hmore.trans ?_)⟩
      by_cases hemit : s.emissions cfg .recv = []
      · exact iff_of_true (Or.inl hemit) (Or.inl hemit)
      · rw [Muted, open_own_recv_iff hown hemit]
    · obtain ⟨more, henq, hacc, happ, hmore⟩ := emit_spec cfg s (s.emissions cfg e)
      obtain ⟨henq', happ', -⟩ := own_spec hown
      obtain ⟨hinv, hiff⟩ := feedsNothing_of_enqueued hs (henq'.trans henq)
        ((own_accepted hown).trans hacc) (happ'.trans happ)
        (own_ordered hown (emit_ordered hs.ordered))
      exact ⟨hinv, (hiff hfeeds).trans hmore⟩

end Process

/-- At every moment only events of the application have been put into the queue, and no
more traces have been sent than it emitted events, exactly when the queue took none of
the events that the forwarder emitted itself. -/
theorem feedsNothing_iff_muted (cfg : Config) {es : List Event} {t : Process}
    (h : run (Process.step cfg) .start es = some t) :
    (∀ s, Reached (Process.step cfg) .start es s → s.FeedsNothing) ↔
      Along (Process.step cfg) (Process.Muted cfg) .start es :=
  reached_iff_along (I := Process.Inv)
    (fun _ _ _ hs hfeeds hstep => Process.feedsNothing_step_iff hs hfeeds hstep)
    Process.inv_start ⟨fun _ hx => absurd hx List.not_mem_nil, Nat.le_refl 0⟩ h

theorem validTimestamp_epoch : ValidTimestamp 0 0 := by decide

/-- The defaults, with JSON for events that have a message only. -/
def defaults : Config where
  queueSize := 1000
  address := .unix "/tmp/hermod-tracer.sock"
  maxReconnectDelay := 45
  layer := ⟨"host", []⟩
  jsonToString map := (map.lookup "message").bind fun value =>
    value.asStr.map fun text => "\x7b\"message\":\"" ++ text ++ "\"\x7d"
  stamp _ := ⟨⟨0, 0, validTimestamp_epoch⟩, "ThreadId(1)"⟩

def oneSession : List Event :=
  [.start, .dial, .connected, .accepted 1 764824073, .recv, .recv, .recv, .recv, .recv,
    .arrive (.traceObjectsRequest ⟨true, 100⟩), .handle]

theorem feedsNothing_iff_muted_session :
    ∃ s, run (Process.step defaults) .start oneSession = some s ∧
      ((∀ s, Reached (Process.step defaults) .start oneSession s → s.FeedsNothing) ↔
        Along (Process.step defaults) (Process.Muted defaults) .start oneSession) :=
  ⟨_, rfl, feedsNothing_iff_muted defaults rfl⟩

/-- The application emits no event, and four traces are sent. -/
theorem session_feeds_itself :
    ∃ s, run (Process.step defaults) .start oneSession = some s ∧ s.appEvents = 0 ∧
      s.forwarder.allSent.length = 4 ∧ ¬ s.FeedsNothing := by
  refine ⟨_, rfl, rfl, rfl, ?_⟩
  intro h
  exact absurd h.2 (by decide)

end Hermod.TracingLayer
