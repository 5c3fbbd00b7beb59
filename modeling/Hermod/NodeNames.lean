import Hermod.ByteChannels
import Hermod.DataPointRoundTrip
import Hermod.DataPoints
import Hermod.JsonReader
import Hermod.NodeDirectories

/-!
How a node gets its name. The server asks for the data point `NodeInfo` and waits for a
limited time, the forwarder replies with a JSON object, and both speak over streams of
bytes. Afterwards the server only waits for the end of the session, and passes over a reply
that comes late.
-/
namespace Hermod.NodeNames

open ByteChannels Cbor DataPointMessages Decoding JsonText NodeDirectories Transitions
open TextLines (Text)

def messages : Codec DataPointMessage where
  encode := DataPointMessage.encode
  decoder := DataPointMessage.decode
  Fits := Sized
  parses := parses_encode
  waits := rfl

/-! The forwarder. -/

/-- The object in the order of its keys. The version is the one of the package. -/
def nodeInfo (startTime name : String) : Json :=
  .object [
    ("niCommit".toList, .string []),
    ("niName".toList, .string name.toList),
    ("niProtocol".toList, .string []),
    ("niStartTime".toList, .string startTime.toList),
    ("niSystemStartTime".toList, .string startTime.toList),
    ("niVersion".toList, .string "1.0.0".toList)]

def nodeInfoBytes (startTime : String) (nodeName : Option String) : Option Bytes :=
  nodeName.map fun name => utf8 (String.ofList (nodeInfo startTime name).write)

/-- The task that replies to requests, with the store that the dispatcher writes. -/
structure Responder where
  running : Bool
  store : DataPoints.Store

def responder (nodeInfo : Option Bytes) :
    Party Responder ProtocolTypes.TraceObject DataPointMessage where
  act s trace := some ({ s with store := DataPoints.dispatch s.store trace }, [])
  receive s _ m :=
    match s.running, m with
    | true, .request names =>
      some (s, [.reply (names.map fun n => (n, DataPoints.System.valueOf nodeInfo s.store n))])
    | true, _ => some ({ s with running := false }, [])
    | false, _ => none
  reject s _ _ := if s.running then some { s with running := false } else none

/-! The server. -/

def fromSlice (finite : Text → Bool) (bytes : Bytes) : Option Json :=
  (String.fromUTF8? ⟨bytes.toArray⟩).bind fun s => fromStr finite s.toList

/-- What `DataPointClient::request` makes of the message that it receives. -/
def replyValues (finite : Text → Bool) : DataPointMessage → Option (List (String × Option Json))
  | .reply items => some (items.map fun item => (item.1, item.2.bind (fromSlice finite)))
  | .request _ => none
  | .done => none

def niName (v : Json) : Option String :=
  (v.get "niName".toList).bind fun v => v.asStr.map String.ofList

inductive Resolver
  | start
  /-- The request has been sent. -/
  | awaiting
  /-- The node has its name, and `run_idle_loop` runs. -/
  | idle (name : String)
  | ended (name : String)
  deriving DecidableEq

inductive ServerCall
  | request
  /-- Five seconds are over. -/
  | timeout
  | receive
  deriving DecidableEq

def server (finite : Text → Bool) (fallback : String) :
    Party Resolver ServerCall DataPointMessage where
  act
    | .start, .request => some (.awaiting, [.request ["NodeInfo"]])
    | .awaiting, .timeout => some (.idle (resolveNodeName niName none fallback), [])
    | _, _ => none
  receive
    | .awaiting, .receive, m =>
      some (.idle (resolveNodeName niName (replyValues finite m) fallback), [])
    | .idle name, .receive, .done => some (.ended name, [])
    | .idle name, .receive, _ => some (.idle name, [])
    | _, _, _ => none
  reject
    | .awaiting, .receive, _ => some (.idle (resolveNodeName niName none fallback))
    | .idle name, .receive, _ => some (.ended name)
    | _, _, _ => none

abbrev Task : Side → Type
  | .left => Resolver
  | .right => Responder

abbrev Call : Side → Type
  | .left => ServerCall
  | .right => ProtocolTypes.TraceObject

def tasks (finite : Text → Bool) (fallback : String) (nodeInfo : Option Bytes) :
    (b : Side) → Party (Task b) (Call b) DataPointMessage
  | .left => server finite fallback
  | .right => responder nodeInfo

def begin (store : DataPoints.Store) : (b : Side) → Task b
  | .left => .start
  | .right => ⟨true, store⟩

/-! Reading the name. -/

theorem fromSlice_utf8 (finite : Text → Bool) {v : Json} (hv : v.Readable finite maxDepth) :
    fromSlice finite (utf8 (String.ofList v.write)) = some v := by
  rw [fromSlice, fromUTF8?_utf8, Option.bind_some, String.toList_ofList, fromStr_write hv]

theorem readable_nodeInfo (finite : Text → Bool) (startTime name : String) :
    (nodeInfo startTime name).Readable finite maxDepth := by
  intro f hf
  simp only [List.mem_cons, List.not_mem_nil, or_false] at hf
  rcases hf with rfl | rfl | rfl | rfl | rfl | rfl
  all_goals trivial

theorem nodup_nodeInfo : (["niCommit", "niName", "niProtocol", "niStartTime",
    "niSystemStartTime", "niVersion"].map String.toList).Nodup := by decide +kernel

theorem niName_nodeInfo (startTime name : String) :
    niName (nodeInfo startTime name) = some name := by
  have hget : (nodeInfo startTime name).get "niName".toList = some (.string name.toList) := by
    apply Json.get_eq
    · exact nodup_nodeInfo
    · exact List.mem_cons_of_mem _ (List.mem_cons_self ..)
  rw [niName, hget, Option.bind_some, Json.asStr, Option.map_some, String.ofList_toList]

def resolved (nodeName : Option String) (fallback : String) : String :=
  (nodeName.filter fun s => s ≠ "").getD fallback

theorem resolveNodeName_some (v : Option Json) (fallback : String) :
    resolveNodeName niName (some [("NodeInfo", v)]) fallback =
      resolved (v.bind niName) fallback := by
  have hfind : [("NodeInfo", v)].find?
      (fun (item : String × Option Json) => item.1 = "NodeInfo") = some ("NodeInfo", v) :=
    List.find?_cons_of_pos (decide_eq_true rfl)
  simp only [resolveNodeName, hfind, Option.bind_eq_bind, Option.bind_some, resolved]

/-- The node's info is read back from its bytes. -/
theorem fromSlice_nodeInfoBytes (finite : Text → Bool) (startTime : String)
    (nodeName : Option String) :
    (nodeInfoBytes startTime nodeName).bind (fromSlice finite) =
      nodeName.map (nodeInfo startTime) := by
  cases nodeName with
  | none => rfl
  | some name =>
    rw [nodeInfoBytes, Option.map_some, Option.bind_some, Option.map_some]
    exact fromSlice_utf8 finite (readable_nodeInfo finite startTime name)

/-- The reply of the forwarder gives the configured name, or else the address. -/
theorem resolveNodeName_reply (finite : Text → Bool) (startTime : String)
    (nodeName : Option String) (fallback : String) :
    resolveNodeName niName
      (replyValues finite (.reply [("NodeInfo", nodeInfoBytes startTime nodeName)])) fallback =
      resolved nodeName fallback := by
  have hname : (nodeName.map (nodeInfo startTime)).bind niName = nodeName := by
    cases nodeName with
    | none => rfl
    | some name =>
      rw [Option.map_some, Option.bind_some]
      exact niName_nodeInfo startTime name
  rw [replyValues, List.map_cons, List.map_nil, fromSlice_nodeInfoBytes, resolveNodeName_some,
    hname]

/-! The session. -/

section Session

variable {finite : Text → Bool} {fallback startTime : String} {nodeName : Option String}

def request : DataPointMessage := .request ["NodeInfo"]

def reply (startTime : String) (nodeName : Option String) : DataPointMessage :=
  .reply [("NodeInfo", nodeInfoBytes startTime nodeName)]

/-- Where the server is, with the messages to the forwarder and those to the server. Once the
time is over the reply can still be on its way. -/
inductive Stage (startTime : String) (nodeName : Option String) (fallback : String) :
    Bool → Resolver → List DataPointMessage → List DataPointMessage → Prop
  | start : Stage startTime nodeName fallback false .start [] []
  | asked : Stage startTime nodeName fallback false .awaiting [request] []
  | answered : Stage startTime nodeName fallback false .awaiting [] [reply startTime nodeName]
  | given : Stage startTime nodeName fallback false (.idle (resolved nodeName fallback)) [] []
  | lateAsked : Stage startTime nodeName fallback true (.idle fallback) [request] []
  | lateAnswered :
      Stage startTime nodeName fallback true (.idle fallback) [] [reply startTime nodeName]
  | lateGiven : Stage startTime nodeName fallback true (.idle fallback) [] []

structure Inv (startTime : String) (nodeName : Option String) (fallback : String) (late : Bool)
    (t : Talk Task DataPointMessage) : Prop where
  running : (t.states .right).running = true
  stage : Stage startTime nodeName fallback late (t.states .left) (t.queues .right)
    (t.queues .left)

def isTimeout : ByteChannels.Event Call → Bool
  | .acts .left .timeout => true
  | _ => false

theorem inv_start (store : DataPoints.Store) :
    Inv startTime nodeName fallback false (Talk.start (begin store)) := ⟨rfl, .start⟩

theorem Stage.act {late : Bool} {x : Resolver} {toRight toLeft : List DataPointMessage}
    (h : Stage startTime nodeName fallback late x toRight toLeft) {i : ServerCall}
    {r : Resolver × List DataPointMessage} (hr : (server finite fallback).act x i = some r) :
    Stage startTime nodeName fallback (late || decide (i = .timeout)) r.1 (toRight ++ r.2)
      toLeft := by
  cases i with
  | request =>
    cases h with
    | start =>
      rw [← Option.some.inj hr]
      exact .asked
    | asked => cases hr
    | answered => cases hr
    | given => cases hr
    | lateAsked => cases hr
    | lateAnswered => cases hr
    | lateGiven => cases hr
  | timeout =>
    cases h with
    | start => cases hr
    | asked =>
      rw [← Option.some.inj hr]
      exact .lateAsked
    | answered =>
      rw [← Option.some.inj hr]
      exact .lateAnswered
    | given => cases hr
    | lateAsked => cases hr
    | lateAnswered => cases hr
    | lateGiven => cases hr
  | receive => cases h <;> cases hr

/-- The server receives the only reply, in time or not. -/
theorem Stage.receive {late : Bool} {x : Resolver} {toRight rest : List DataPointMessage}
    {m : DataPointMessage} (h : Stage startTime nodeName fallback late x toRight (m :: rest))
    {i : ServerCall} {r : Resolver × List DataPointMessage}
    (hr : (server finite fallback).receive x i m = some r) :
    Stage startTime nodeName fallback late r.1 (toRight ++ r.2) rest := by
  cases i with
  | request => cases h <;> cases hr
  | timeout => cases h <;> cases hr
  | receive =>
    cases h with
    | answered =>
      rw [← Option.some.inj hr]
      have hname := resolveNodeName_reply finite startTime nodeName fallback
      show Stage startTime nodeName fallback false
        (.idle (resolveNodeName niName (replyValues finite (reply startTime nodeName)) fallback))
        [] []
      rw [reply, hname]
      exact .given
    | lateAnswered =>
      rw [← Option.some.inj hr]
      exact .lateGiven

/-- The forwarder receives the only request. -/
theorem Stage.respond {late : Bool} {x : Resolver} {rest toLeft : List DataPointMessage}
    {m : DataPointMessage} (h : Stage startTime nodeName fallback late x (m :: rest) toLeft)
    {s : Responder} (hs : s.running = true) {trace : ProtocolTypes.TraceObject}
    {r : Responder × List DataPointMessage}
    (hr : (responder (nodeInfoBytes startTime nodeName)).receive s trace m = some r) :
    r.1.running = true ∧ Stage startTime nodeName fallback late x rest (toLeft ++ r.2) := by
  have hrequest : ∀ {r : Responder × List DataPointMessage},
      (responder (nodeInfoBytes startTime nodeName)).receive s trace request = some r →
        r = (s, [reply startTime nodeName]) := by
    intro r hr
    simp only [responder, request, hs, Option.some.injEq, List.map_cons, List.map_nil,
      DataPoints.System.valueOf, if_true] at hr
    exact hr.symm
  cases h with
  | asked =>
    rw [hrequest hr]
    exact ⟨hs, .answered⟩
  | lateAsked =>
    rw [hrequest hr]
    exact ⟨hs, .lateAnswered⟩

/-- Each step of either task is one of the stages. -/
theorem Inv.step {late : Bool} {t t' : Talk Task DataPointMessage}
    {e : ByteChannels.Event Call} (ht : Inv startTime nodeName fallback late t)
    (h : t.step (tasks finite fallback (nodeInfoBytes startTime nodeName)) e = some t') :
    Inv startTime nodeName fallback (late || isTimeout e) t' := by
  cases e with
  | acts b i =>
    obtain ⟨r, hr, rfl⟩ := Option.map_eq_some_iff.mp h
    cases b with
    | left =>
      have hlate : isTimeout (.acts .left i) = decide (i = .timeout) := by cases i <;> rfl
      rw [hlate]
      exact ⟨ht.running, ht.stage.act hr⟩
    | right =>
      rw [← Option.some.inj hr]
      refine ⟨ht.running, ?_⟩
      show Stage startTime nodeName fallback (late || false) (t.states .left) (t.queues .right)
        (t.queues .left ++ [])
      rw [List.append_nil, Bool.or_false]
      exact ht.stage
  | receives b i =>
    simp only [Talk.step] at h
    have hlate : (late || isTimeout (.receives b i)) = late := Bool.or_false late
    rw [hlate]
    have hstage := ht.stage
    cases hqueue : t.queues b with
    | nil =>
      rw [hqueue] at h
      cases h
    | cons m rest =>
      rw [hqueue] at h
      obtain ⟨r, hr, rfl⟩ := Option.map_eq_some_iff.mp h
      cases b with
      | left =>
        rw [hqueue] at hstage
        exact ⟨ht.running, hstage.receive hr⟩
      | right =>
        rw [hqueue] at hstage
        obtain ⟨hrunning, hstage⟩ := hstage.respond ht.running hr
        exact ⟨hrunning, hstage⟩

/-- At each moment of a session it is in one of the stages. -/
theorem Inv.run {late : Bool} {t t' : Talk Task DataPointMessage}
    {es : List (ByteChannels.Event Call)} (ht : Inv startTime nodeName fallback late t)
    (h : Transitions.run (Talk.step (tasks finite fallback (nodeInfoBytes startTime nodeName))) t
      es = some t') :
    Inv startTime nodeName fallback (late || es.any isTimeout) t' := by
  induction es generalizing t late with
  | nil =>
    rw [← Option.some.inj h, List.any_nil, Bool.or_false]
    exact ht
  | cons e es ih =>
    obtain ⟨u, hstep, hrest⟩ := run_cons_iff.mp h
    have hu := ih (ht.step hstep) hrest
    rwa [Bool.or_assoc, ← List.any_cons] at hu

def timedOut (es : List (WiredEvent Call)) : Bool := (es.filterMap WiredEvent.talk).any isTimeout

/-- What a node is called, and that its session goes on. -/
theorem Stage.name {late : Bool} {x : Resolver} {toRight toLeft : List DataPointMessage}
    (h : Stage startTime nodeName fallback late x toRight toLeft) :
    (∀ name, x ≠ .ended name) ∧
      ∀ name, x = .idle name → name = if late then fallback else resolved nodeName fallback := by
  cases h with
  | start => exact ⟨fun _ h => (by cases h), fun _ h => (by cases h)⟩
  | asked => exact ⟨fun _ h => (by cases h), fun _ h => (by cases h)⟩
  | answered => exact ⟨fun _ h => (by cases h), fun _ h => (by cases h)⟩
  | given => exact ⟨fun _ h => (by cases h), fun _ h => (Resolver.idle.inj h).symm⟩
  | lateAsked => exact ⟨fun _ h => (by cases h), fun _ h => (Resolver.idle.inj h).symm⟩
  | lateAnswered => exact ⟨fun _ h => (by cases h), fun _ h => (Resolver.idle.inj h).symm⟩
  | lateGiven => exact ⟨fun _ h => (by cases h), fun _ h => (Resolver.idle.inj h).symm⟩

/-- A node that has a name has the one configured for the forwarder, unless that is empty or
missing or comes too late, and then the address of its connection. The session does not end
over it. -/
theorem node_name {store : DataPoints.Store} {es : List (WiredEvent Call)}
    {s : Wired Task DataPointMessage}
    (hrun : run (Wired.step messages
      (tasks finite fallback (nodeInfoBytes startTime nodeName))) (Wired.start (begin store)) es =
        some s)
    (hsized : ∀ m ∈ s.log, Sized m) :
    (∀ name, s.states .left ≠ .ended name) ∧
      ∀ name, s.states .left = .idle name →
        name = if timedOut es then fallback else resolved nodeName fallback := by
  obtain ⟨-, t, ht, hmatches⟩ := (matches_start messages (begin store)).wired_run hsized hrun
  have hinv := (inv_start store).run ht
  rw [Bool.false_or] at hinv
  rw [hmatches.states]
  exact hinv.stage.name

end Session

def lateReply (late : Bool) : List (WiredEvent Call) :=
  [.acts .left .request, .arrives .right 3, .arrives .right 100, .receives .right
    ⟨none, "", [], .info, .dNormal, ⟨0, 0, ProtocolTypes.validTimestamp_zero⟩, "", ""⟩,
    .arrives .left 20] ++
  (if late then [.acts .left .timeout] else []) ++ [.arrives .left 1000, .receives .left .receive]

theorem node_name_lateReply : [false, true].Forall fun late =>
    ∃ s, run (Wired.step messages
        (tasks (fun _ => true) "unix-1" (nodeInfoBytes "1970-01-01T00:00:00Z" (some "n"))))
        (Wired.start (begin fun _ => none)) (lateReply late) = some s ∧
      s.states .left = .idle (if late then "unix-1" else "n") ∧
      (∀ name, s.states .left ≠ .ended name) ∧
        ∀ name, s.states .left = .idle name →
          name = if timedOut (lateReply late) then "unix-1" else resolved (some "n") "unix-1" := by
  have hsized : ∀ m ∈ [request, reply "1970-01-01T00:00:00Z" (some "n")], Sized m := by
    have hname : ProtocolTypes.SizedStr "NodeInfo" := by
      unfold ProtocolTypes.SizedStr
      decide +kernel
    intro m hm
    simp only [List.mem_cons, List.not_mem_nil, or_false] at hm
    rcases hm with rfl | rfl
    · exact ⟨by decide, fun name hmem => by rwa [List.mem_singleton.mp hmem]⟩
    · refine ⟨by decide, fun item hitem => ?_⟩
      rw [List.mem_singleton.mp hitem]
      exact ⟨hname, by decide +kernel⟩
  refine List.forall_iff_forall_mem.mpr fun late _ => ?_
  obtain ⟨s, hrun⟩ : ∃ s, run (Wired.step messages
      (tasks (fun _ => true) "unix-1" (nodeInfoBytes "1970-01-01T00:00:00Z" (some "n"))))
      (Wired.start (begin fun _ => none)) (lateReply late) = some s := by
    apply Option.isSome_iff_exists.mp
    cases late
    · decide +kernel
    · decide +kernel
  have hlog : (run (Wired.step messages
      (tasks (fun _ => true) "unix-1" (nodeInfoBytes "1970-01-01T00:00:00Z" (some "n"))))
      (Wired.start (begin fun _ => none)) (lateReply late)).map (fun s => (s.log, s.states .left)) =
      some ([request, reply "1970-01-01T00:00:00Z" (some "n")],
        .idle (if late then "unix-1" else "n")) := by
    cases late
    · decide +kernel
    · decide +kernel
  rw [hrun, Option.map_some, Option.some.injEq, Prod.mk.injEq] at hlog
  obtain ⟨hlog, hleft⟩ := hlog
  refine ⟨s, hrun, hleft, node_name hrun ?_⟩
  rw [hlog]
  exact hsized

end Hermod.NodeNames
