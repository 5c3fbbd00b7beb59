import Mathlib.Data.List.Flatten
import Hermod.ServerLogs
import Hermod.TraceAcceptor

/-!
From the applications to the log files. Each application fills the queue of a forwarder,
which serves one connection of the tracer after another and answers the requests that the
tracer sends on it; the tracer logs the replies. However connections fail and forwarders
reconnect, a trace that was accepted once is logged at most once, and in order.
-/
namespace Hermod.LoggedTraces

open AppendOnlyLog LogWriter MachineLog ProtocolTypes ProtocolMessages ServerLogs
open TraceAcceptor.System (ofConnection)
open TraceForwardClient (Session WireEvent)
open TraceForwarder (Forwarder)
open TraceProtocol (Exchange)
open TextLines (Text)
open TracerState (Unicode)
open Transitions

structure System where
  forwarders : ℕ → Forwarder
  connections : ℕ → List ℕ
  count : ℕ
  server : ServerLogs.System

inductive Event
  /-- A step of a forwarder or its applications in which no message comes or goes. -/
  | forwarder (a : ℕ) (e : TraceForwarder.Event)
  /-- Forwarder `a` and the tracer have agreed on a connection. -/
  | connected (a : ℕ)
  /-- Forwarder `a` receives the next message of its connection and answers it. -/
  | answer (a : ℕ)
  /-- Sending the answer fails, before or after the multiplexer has taken it. -/
  | answerFails (a : ℕ) (handed : Bool)
  /-- A step of the tracer by itself. -/
  | server (e : ServerLogs.Event)

def alone : TraceForwarder.Event → Bool
  | .accept _ => true
  | .connect => true
  | .handshake accepted => !accepted
  | .recv => true
  | .wire .recvFailed => true
  | .wire _ => false

def onServer (count : ℕ) : ServerLogs.Event → Bool
  | .answer _ _ => false
  | .request i => i < count
  | .receive i => i < count
  | .log i _ _ => i < count
  | .handled i => i < count
  | .rotate _ _ _ _ => true
  | .close i => i < count

namespace System

def start (fs : Fs) : System := ⟨fun _ => .start, fun _ => [], 0, .start fs⟩

def setForwarder (s : System) (a : ℕ) (f : Forwarder) : System :=
  { s with forwarders := Function.update s.forwarders a f }

/-- What forwarder `a` makes of the next message of its connection. The tracer can receive
the answer if the multiplexer has taken it. -/
def handle (cfg : ServerLogs.Config) (queueSize : ℕ → ℕ) (u : Unicode) (F : Formats) (s : System)
    (a : ℕ) (e : WireEvent) (handed : Bool) : Option System :=
  match (s.connections a).getLast? with
  | none => none
  | some i =>
    match (s.server.exchanges i).toForwarder with
    | [] => none
    | m :: _ =>
      (run (Forwarder.step (queueSize a)) (s.forwarders a)
        [.wire (.arrive m), .wire e]).bind fun f =>
        if handed then
          (s.server.step cfg u F (.answer i (s.forwarders a).batch)).map fun server =>
            { s.setForwarder a f with server := server }
        else some (s.setForwarder a f)

def step (cfg : ServerLogs.Config) (queueSize : ℕ → ℕ) (u : Unicode) (F : Formats) (s : System) :
    Event → Option System
  | .forwarder a e =>
    if alone e then ((s.forwarders a).step (queueSize a) e).map (s.setForwarder a) else none
  | .connected a =>
    ((s.forwarders a).step (queueSize a) (.handshake true)).map fun f =>
      { s.setForwarder a f with
        connections := Function.update s.connections a (s.connections a ++ [s.count])
        count := s.count + 1 }
  | .answer a => s.handle cfg queueSize u F a .handle true
  | .answerFails a handed => s.handle cfg queueSize u F a (.sendFailed handed) handed
  | .server e =>
    if onServer s.count e then
      (s.server.step cfg u F e).map fun server => { s with server := server }
    else none

end System

/-! What a forwarder does by itself and with a message. -/

def batchesSent (session : Session) : List (List TraceObject) :=
  session.replies.map (·.traceObjects)

structure SameReplies (f f' : Forwarder) : Prop where
  sessions : f'.sessions.map batchesSent = f.sessions.map batchesSent
  inbox : ∀ session', f'.current = some session' →
    ∃ session, f.current = some session ∧ session'.inbox = session.inbox

section Forwarders

variable {queueSize : ℕ} {f f' : Forwarder}

theorem sessions_of_serving {session : Session} (hs : f.status = .serving session) :
    f.sessions = f.past ++ [session] := by
  rw [Forwarder.sessions, Forwarder.current_serving hs, Option.toList_some]

/-- A step of a forwarder by itself sends nothing. -/
theorem sameReplies_of_alone {e : TraceForwarder.Event} (he : alone e = true)
    (h : f.step queueSize e = some f') : SameReplies f f' := by
  cases Forwarder.step_spec h with
  | accept t => exact ⟨rfl, fun session' h' => ⟨session', h', rfl⟩⟩
  | connect hs =>
    refine ⟨?_, fun session' h' => by cases h'⟩
    rw [Forwarder.sessions, Forwarder.sessions, hs]
    rfl
  | established hs => cases he
  | refused hs =>
    refine ⟨?_, fun session' h' => by cases h'⟩
    rw [Forwarder.sessions, Forwarder.sessions, hs]
    rfl
  | @recv s s' t queue hs hq ht =>
    obtain ⟨-, rfl⟩ := Session.take_spec ht
    refine ⟨?_, ?_⟩
    · rw [sessions_of_serving hs, sessions_of_serving rfl, List.map_append, List.map_append]
      rfl
    · intro session' h'
      cases h'
      exact ⟨s, Forwarder.current_serving hs, rfl⟩
  | @drained s s' hs hd =>
    obtain ⟨batch, -, rfl⟩ := Session.drained_spec hd
    refine ⟨?_, ?_⟩
    · rw [sessions_of_serving hs, sessions_of_serving rfl, List.map_append, List.map_append]
      rfl
    · intro session' h'
      cases h'
      exact ⟨s, Forwarder.current_serving hs, rfl⟩
  | @wire s s' w hs hw =>
    cases w with
    | recvFailed =>
      cases Session.onWire_spec hw with
      | recvFailed hp =>
        refine ⟨?_, fun session' h' => by cases h'⟩
        rw [Forwarder.afterWire_sessions, sessions_of_serving hs, List.map_append,
          List.map_append]
        rfl
    | arrive m => cases he
    | handle => cases he
    | sendFailed handed => cases he

/-- What the forwarder has sent for a message: the reply, if there is one and it was handed
to the multiplexer. -/
def sent (batch : List TraceObject) (m : Message) (handed : Bool) : List (List TraceObject) :=
  match TraceForwardClient.handleRequest batch m with
  | .ok reply => if handed then [reply.traceObjects] else []
  | .error _ => []

theorem arrived {m : Message} (h : f.step queueSize (.wire (.arrive m)) = some f') :
    ∃ session, f.status = .serving session ∧
      f' = { f with status := .serving { session with inbox := session.inbox ++ [m] } } := by
  cases Forwarder.step_spec h with
  | @wire session session' _ hs hw =>
    refine ⟨session, hs, ?_⟩
    have hopen : ∀ e, session.phase ≠ .ended e := by
      intro e he
      simp only [Session.onWire, he] at hw
      cases hw
    cases Session.onWire_spec hw with
    | arrive =>
      rcases Forwarder.afterWire_cases f { session with inbox := session.inbox ++ [m] } with
        ⟨⟨e, he⟩, -⟩ | ⟨-, heq⟩
      · exact absurd he (hopen e)
      · exact heq

theorem inbox_afterWire {session session' : Session}
    (h : (f.afterWire session).current = some session') : session' = session := by
  rcases Forwarder.afterWire_cases f session with ⟨-, hnone, -⟩ | ⟨-, heq⟩
  · rw [hnone] at h
    cases h
  · rw [heq] at h
    exact (Option.some.inj h).symm

/-- With no other message before it, the message is answered from the batch. -/
theorem handled_message {m : Message} {e : WireEvent} {handed : Bool}
    (he : e = .handle ∧ handed = true ∨ e = .sendFailed handed)
    (hinbox : ∀ session, f.current = some session → session.inbox = [])
    (h : run (Forwarder.step queueSize) f [.wire (.arrive m), .wire e] = some f') :
    ∃ session session', f.status = .serving session ∧ f'.sessions = f.past ++ [session'] ∧
      batchesSent session' = batchesSent session ++ sent f.batch m handed ∧
      ∀ session'', f'.current = some session'' → session''.inbox = [] := by
  obtain ⟨f₁, harrive, hrest⟩ := run_cons_iff.mp h
  obtain ⟨f₂, hhandle, hdone⟩ := run_cons_iff.mp hrest
  obtain rfl : f₂ = f' := Option.some.inj hdone
  obtain ⟨session, hs, rfl⟩ := arrived harrive
  have hempty := hinbox session (Forwarder.current_serving hs)
  have hbatch : f.batch = session.phase.batch := by
    rw [Forwarder.batch, Forwarder.current_serving hs]
    rfl
  cases Forwarder.step_spec hhandle with
  | @wire session₁ session' _ hs₁ hw =>
    obtain rfl : _ = session₁ := TraceForwarder.Status.serving.inj hs₁
    rw [hempty, List.nil_append] at hw
    refine ⟨session, session', hs, Forwarder.afterWire_sessions _ _, ?_⟩
    rw [hbatch]
    rcases he with ⟨rfl, rfl⟩ | rfl
    · cases Session.onWire_spec hw with
      | reply hp hi =>
        obtain ⟨rfl, rfl⟩ := List.cons.inj hi
        have hp : session.phase = _ := hp
        refine ⟨?_, ?_⟩
        · rw [hp, batchesSent, batchesSent, List.map_append]
          rfl
        · intro session'' h'
          rw [inbox_afterWire h']
      | refuse hp hi hm =>
        obtain ⟨rfl, rfl⟩ := List.cons.inj hi
        have hp : session.phase = _ := hp
        refine ⟨?_, ?_⟩
        · rw [hp, sent, TraceForwardClient.Phase.batch, hm, List.append_nil]
          rfl
        · intro session'' h'
          rw [inbox_afterWire h']
    · cases Session.onWire_spec hw with
      | sendFailed handed hp hi =>
        obtain ⟨rfl, rfl⟩ := List.cons.inj hi
        have hp : session.phase = _ := hp
        refine ⟨?_, ?_⟩
        · rw [hp]
          cases handed
          · exact (List.append_nil _).symm
          · exact List.map_append
        · intro session'' h'
          rw [inbox_afterWire h']

end Forwarders

/-! What the tracer does to the replies of its connections. -/

section Server

variable {cfg : ServerLogs.Config} {u : Unicode} {F : Formats} {s s' : ServerLogs.System}

theorem replies_setExchange {i : ℕ} {x : Exchange} {more : List (List TraceObject)}
    (hx : x.log.filterMap Exchange.reply? = s.replies i ++ more) (j : ℕ) :
    (s.setExchange i x).replies j = s.replies j ++ if j = i then more else [] := by
  by_cases hj : j = i
  · subst hj
    rw [if_pos rfl, ← hx]
    simp [ServerLogs.System.replies, ServerLogs.System.setExchange]
  · simp [ServerLogs.System.replies, ServerLogs.System.setExchange, hj]

theorem replies_of_call {c : Call} (h : s.call u F c = some s') (j : ℕ) :
    s'.replies j = s.replies j := by
  obtain ⟨writer, -, rfl⟩ := Option.map_eq_some_iff.mp h
  rfl

/-- A step of the tracer sends no reply. -/
theorem replies_of_onServer {count : ℕ} {e : ServerLogs.Event} (he : onServer count e = true)
    (h : s.step cfg u F e = some s') (j : ℕ) : s'.replies j = s.replies j := by
  cases e with
  | answer i traces => cases he
  | request i =>
    simp only [ServerLogs.System.step] at h
    split at h
    · obtain ⟨x, hx, rfl⟩ := Option.map_eq_some_iff.mp h
      have hlog : x.log.filterMap Exchange.reply? = s.replies i ++ [] := by
        simp only [Exchange.step] at hx
        split at hx
        · rw [← Option.some.inj hx, List.append_nil]
          show (_ ++ [_]).filterMap _ = _
          rw [List.filterMap_append]
          exact List.append_nil _
        · cases hx
      rw [replies_setExchange hlog, ite_self, List.append_nil]
    · cases h
  | receive i =>
    simp only [ServerLogs.System.step] at h
    split at h
    · obtain ⟨x, hx, rfl⟩ := Option.map_eq_some_iff.mp h
      have hlog : x.log.filterMap Exchange.reply? = s.replies i ++ [] := by
        simp only [Exchange.step] at hx
        split at hx
        · rw [← Option.some.inj hx, List.append_nil]
          rfl
        · cases hx
      show (s.setExchange i x).replies j = _
      rw [replies_setExchange hlog, ite_self, List.append_nil]
    · cases h
  | log i now mtime =>
    simp only [ServerLogs.System.step] at h
    split at h
    · split at h
      · obtain ⟨s'', hcall, rfl⟩ := Option.map_eq_some_iff.mp h
        exact replies_of_call hcall j
      · rw [← Option.some.inj h]
        rfl
    · cases h
  | handled i =>
    simp only [ServerLogs.System.step] at h
    split at h
    · rw [← Option.some.inj h]
      rfl
    · cases h
  | rotate key limitBytes now mtime => exact replies_of_call h j
  | close i =>
    simp only [ServerLogs.System.step] at h
    split at h
    · cases h
    · rw [← Option.some.inj h]
      rfl

/-- The answer of the forwarder is the next reply of the connection. -/
theorem replies_of_answer {i : ℕ} {traces : List TraceObject} {m : Message} {rest : List Message}
    (hm : (s.exchanges i).toForwarder = m :: rest)
    (h : s.step cfg u F (.answer i traces) = some s') (j : ℕ) :
    s'.replies j = s.replies j ++
      if j = i then sent traces m true else [] := by
  obtain ⟨x, hx, rfl⟩ := Option.map_eq_some_iff.mp h
  apply replies_setExchange
  simp only [Exchange.step, hm] at hx
  split at hx
  · cases hx
  · unfold sent
    cases hhandled : TraceForwardClient.handleRequest traces m with
    | ok reply =>
      rw [hhandled, Option.some.injEq] at hx
      rw [← hx]
      show (_ ++ [_]).filterMap _ = _
      rw [List.filterMap_append]
      rfl
    | error e =>
      rw [hhandled, Option.some.injEq] at hx
      rw [← hx]
      exact (List.append_nil _).symm

end Server

/-! What a run keeps. -/

namespace System

/-- The replies of each session are those of its connection, and no two sessions have the
same one. -/
structure Inv (cfg : ServerLogs.Config) (u : Unicode) (F : Formats) (fs : Fs) (s : System) :
    Prop where
  server : ServerLogs.System.Inv cfg u F fs s.server
  ordered : ∀ a, Forwarder.OrderedSince [] [] (s.forwarders a)
  replies : ∀ a, (s.connections a).map s.server.replies =
    (s.forwarders a).sessions.map batchesSent
  inbox : ∀ a session, (s.forwarders a).current = some session → session.inbox = []
  below : ∀ a, ∀ i ∈ s.connections a, i < s.count
  silent : ∀ i, (∀ a, i ∉ s.connections a) → s.server.replies i = []
  nodup : ∀ a, (s.connections a).Nodup
  disjoint : ∀ a b i, i ∈ s.connections a → i ∈ s.connections b → a = b

variable {cfg : ServerLogs.Config} {queueSize : ℕ → ℕ} {u : Unicode} {F : Formats} {fs : Fs}
  {s s' : System}

theorem inv_start (cfg : ServerLogs.Config) (u : Unicode) (F : Formats) (fs : Fs) :
    Inv cfg u F fs (start fs) where
  server := ServerLogs.System.inv_start cfg u F fs
  ordered _ := Forwarder.orderedSince_start
  replies _ := rfl
  inbox _ _ h := by cases h
  below _ _ h := absurd h List.not_mem_nil
  silent _ _ := rfl
  nodup _ := List.nodup_nil
  disjoint _ _ _ h := absurd h List.not_mem_nil

/-- A forwarder moves by itself. -/
theorem Inv.forwarder (hs : Inv cfg u F fs s) {a : ℕ} {e : TraceForwarder.Event} {f : Forwarder}
    (he : alone e = true) (h : (s.forwarders a).step (queueSize a) e = some f) :
    Inv cfg u F fs (s.setForwarder a f) := by
  obtain ⟨hsessions, hinbox⟩ := sameReplies_of_alone he h
  refine ⟨hs.server, fun b => ?_, fun b => ?_, fun b session hb => ?_, hs.below, hs.silent,
    hs.nodup, hs.disjoint⟩
  · by_cases hba : b = a
    · subst hba
      simpa [setForwarder] using (hs.ordered b).step h
    · simpa [setForwarder, hba] using hs.ordered b
  · by_cases hba : b = a
    · subst hba
      simpa [setForwarder, hsessions] using hs.replies b
    · simpa [setForwarder, hba] using hs.replies b
  · by_cases hba : b = a
    · subst hba
      simp only [setForwarder, Function.update_self] at hb
      obtain ⟨session', hcurrent, heq⟩ := hinbox session hb
      rw [heq]
      exact hs.inbox b session' hcurrent
    · simp only [setForwarder, Function.update_of_ne hba] at hb
      exact hs.inbox b session hb

/-- A session begins, on a connection that no other has had. -/
theorem Inv.connected (hs : Inv cfg u F fs s) {a : ℕ} {f : Forwarder}
    (h : (s.forwarders a).step (queueSize a) (.handshake true) = some f) :
    Inv cfg u F fs { s.setForwarder a f with
      connections := Function.update s.connections a (s.connections a ++ [s.count])
      count := s.count + 1 } := by
  have hnew : ∀ b, s.count ∉ s.connections b := fun b hb => Nat.lt_irrefl _ (hs.below b _ hb)
  have hsilent : s.server.replies s.count = [] := hs.silent s.count hnew
  have hmem : ∀ b i, i ∈ Function.update s.connections a (s.connections a ++ [s.count]) b ↔
      i ∈ s.connections b ∨ b = a ∧ i = s.count := by
    intro b i
    by_cases hba : b = a
    · subst hba
      simp
    · simp [hba]
  have hordered := (hs.ordered a).step h
  cases Forwarder.step_spec h with
  | established hnone =>
    refine ⟨hs.server, fun b => ?_, fun b => ?_, fun b session hb => ?_, fun b i hi => ?_,
      fun i hi => ?_, fun b => ?_, fun b c i hb hc => ?_⟩
    · by_cases hba : b = a
      · subst hba
        simpa [setForwarder] using hordered
      · simpa [setForwarder, hba] using hs.ordered b
    · by_cases hba : b = a
      · subst hba
        have hbefore := hs.replies b
        rw [Forwarder.sessions, hnone, Option.toList_none, List.append_nil] at hbefore
        simp only [setForwarder, Function.update_self]
        rw [sessions_of_serving rfl, List.map_append, List.map_append, hbefore, List.map_singleton,
          hsilent]
        rfl
      · simpa [setForwarder, hba] using hs.replies b
    · by_cases hba : b = a
      · subst hba
        simp only [setForwarder, Function.update_self] at hb
        cases hb
        rfl
      · simp only [setForwarder, Function.update_of_ne hba] at hb
        exact hs.inbox b session hb
    · rcases (hmem b i).mp hi with hi | ⟨-, rfl⟩
      · exact Nat.lt_succ_of_lt (hs.below b i hi)
      · exact Nat.lt_succ_self _
    · apply hs.silent i
      intro b hb
      exact hi b ((hmem b i).mpr (Or.inl hb))
    · by_cases hba : b = a
      · subst hba
        simp only [Function.update_self]
        exact List.nodup_append.mpr ⟨hs.nodup b, List.nodup_singleton _, by
          intro i hi j hj
          rw [List.mem_singleton.mp hj]
          exact fun heq => hnew b (heq ▸ hi)⟩
      · simpa [hba] using hs.nodup b
    · rcases (hmem b i).mp hb with hold | ⟨rfl, rfl⟩
      · rcases (hmem c i).mp hc with hold' | ⟨rfl, rfl⟩
        · exact hs.disjoint b c i hold hold'
        · exact absurd hold (hnew b)
      · rcases (hmem c s.count).mp hc with hold | ⟨rfl, -⟩
        · exact absurd hold (hnew c)
        · rfl

/-- A forwarder handles a message, and the tracer gets as many replies as it has sent. -/
theorem Inv.reply (hs : Inv cfg u F fs s) {a i : ℕ} {f : Forwarder} {server : ServerLogs.System}
    {session session' : Session} {more : List (List TraceObject)}
    (hlast : (s.connections a).getLast? = some i)
    (hserver : ServerLogs.System.Inv cfg u F fs server)
    (hordered : Forwarder.OrderedSince [] [] f)
    (hserving : (s.forwarders a).status = .serving session)
    (hsessions : f.sessions = (s.forwarders a).past ++ [session'])
    (hbatches : batchesSent session' = batchesSent session ++ more)
    (hinbox : ∀ session, f.current = some session → session.inbox = [])
    (hsent : ∀ j, server.replies j = s.server.replies j ++ if j = i then more else []) :
    Inv cfg u F fs { s.setForwarder a f with server := server } := by
  obtain ⟨before, hbefore⟩ := List.getLast?_eq_some_iff.mp hlast
  have hi : i ∈ s.connections a := by
    rw [hbefore]
    exact List.mem_append_right _ (List.mem_singleton_self i)
  have hother : ∀ j, j ≠ i → server.replies j = s.server.replies j := by
    intro j hj
    rw [hsent, if_neg hj, List.append_nil]
  have hframe : ∀ is : List ℕ, i ∉ is →
      is.map server.replies = is.map s.server.replies := by
    intro is his
    apply List.map_congr_left
    intro j hj
    exact hother j fun heq => his (heq ▸ hj)
  refine ⟨hserver, fun b => ?_, fun b => ?_, fun b session hb => ?_, hs.below, fun j hj => ?_,
    hs.nodup, hs.disjoint⟩
  · by_cases hba : b = a
    · subst hba
      simpa [setForwarder] using hordered
    · simpa [setForwarder, hba] using hs.ordered b
  · by_cases hba : b = a
    · subst hba
      have hall := hs.replies b
      have hnodup := hs.nodup b
      rw [sessions_of_serving hserving, hbefore, List.map_append, List.map_append] at hall
      obtain ⟨hearlier, hlatest⟩ := List.append_inj' hall rfl
      have hi' : i ∉ before := by
        rw [hbefore] at hnodup
        exact fun hmem => (List.nodup_append.mp hnodup).2.2 i hmem i (List.mem_singleton_self i) rfl
      simp only [setForwarder, Function.update_self]
      rw [hsessions, hbefore, List.map_append, List.map_append, hframe before hi', hearlier,
        List.map_singleton, List.map_singleton, hsent, if_pos rfl, hbatches,
        List.singleton_inj.mp hlatest]
    · simp only [setForwarder, Function.update_of_ne hba]
      rw [hframe _ fun hib => hba (hs.disjoint b a i hib hi)]
      exact hs.replies b
  · by_cases hba : b = a
    · subst hba
      simp only [setForwarder, Function.update_self] at hb
      exact hinbox session hb
    · simp only [setForwarder, Function.update_of_ne hba] at hb
      exact hs.inbox b session hb
  · rw [hother j fun heq => hj a (heq ▸ hi)]
    exact hs.silent j hj

/-- A reply of the forwarder is a reply of its connection. -/
theorem Inv.handle (hs : Inv cfg u F fs s) {a : ℕ} {e : WireEvent} {handed : Bool}
    (he : e = .handle ∧ handed = true ∨ e = .sendFailed handed)
    (h : s.handle cfg queueSize u F a e handed = some s') : Inv cfg u F fs s' := by
  simp only [System.handle] at h
  split at h
  · cases h
  · rename_i i hlast
    split at h
    · cases h
    · rename_i m rest hm
      obtain ⟨f, hrun, hserver⟩ := Option.bind_eq_some_iff.mp h
      obtain ⟨session, session', hserving, hsessions, hbatches, hinbox⟩ :=
        handled_message he (hs.inbox a) hrun
      have hordered := (hs.ordered a).run hrun
      cases handed with
      | true =>
        rw [if_pos rfl] at hserver
        obtain ⟨server, hstep, rfl⟩ := Option.map_eq_some_iff.mp hserver
        exact hs.reply hlast (hs.server.step hstep) hordered hserving hsessions hbatches hinbox
          (replies_of_answer hm hstep)
      | false =>
        rw [if_neg Bool.false_ne_true] at hserver
        rw [← Option.some.inj hserver]
        have hnothing : sent (s.forwarders a).batch m false = [] := by
          unfold sent
          split <;> rfl
        rw [hnothing] at hbatches
        exact hs.reply hlast hs.server hordered hserving hsessions hbatches hinbox
          fun j => by rw [ite_self, List.append_nil]

theorem Inv.step (hs : Inv cfg u F fs s) {e : Event}
    (h : s.step cfg queueSize u F e = some s') : Inv cfg u F fs s' := by
  cases e with
  | forwarder a e =>
    simp only [System.step] at h
    split at h
    · rename_i he
      obtain ⟨f, hf, rfl⟩ := Option.map_eq_some_iff.mp h
      exact hs.forwarder he hf
    · cases h
  | connected a =>
    obtain ⟨f, hf, rfl⟩ := Option.map_eq_some_iff.mp h
    exact hs.connected hf
  | answer a => exact hs.handle (Or.inl ⟨rfl, rfl⟩) h
  | answerFails a handed => exact hs.handle (Or.inr rfl) h
  | server e =>
    simp only [System.step] at h
    split at h
    · rename_i he
      obtain ⟨server, hstep, rfl⟩ := Option.map_eq_some_iff.mp h
      have hreplies := replies_of_onServer he hstep
      refine ⟨hs.server.step hstep, hs.ordered, fun a => ?_, hs.inbox, hs.below, fun i hi => ?_,
        hs.nodup, hs.disjoint⟩
      · rw [← hs.replies a]
        exact List.map_congr_left fun j _ => hreplies j
      · rw [hreplies]
        exact hs.silent i hi
    · cases h

/-- What forwarder `a` has sent, from connection to connection. -/
theorem Inv.allSent_eq (hs : Inv cfg u F fs s) (a : ℕ) :
    (s.connections a).flatMap (fun i => (s.server.replies i).flatten) =
      (s.forwarders a).allSent := by
  have hreplies := congrArg (fun l => (l.map List.flatten).flatten) (hs.replies a)
  simp only [List.map_map] at hreplies
  exact hreplies

/-- A forwarder sends nothing that it has not accepted, and nothing twice. -/
theorem Inv.allSent_sublist (hs : Inv cfg u F fs s) (a : ℕ) :
    (s.forwarders a).allSent.Sublist (s.forwarders a).accepted := by
  obtain ⟨sent, later, hsent, haccepted, hsublist⟩ := (hs.ordered a).sent_sublist
  rw [hsent, haccepted]
  exact (List.sublist_append_left sent _).trans hsublist

/-- The traces of the replies of a connection were accepted. -/
theorem Inv.mem_accepted (hs : Inv cfg u F fs s) {i : ℕ} {batch : List TraceObject}
    {trace : TraceObject} (hbatch : batch ∈ s.server.replies i) (htrace : trace ∈ batch) :
    ∃ a, trace ∈ (s.forwarders a).accepted := by
  by_cases hi : ∃ a, i ∈ s.connections a
  · obtain ⟨a, ha⟩ := hi
    refine ⟨a, (hs.allSent_sublist a).subset ?_⟩
    rw [← hs.allSent_eq a]
    exact List.mem_flatMap.mpr ⟨i, ha, List.mem_flatten.mpr ⟨batch, hbatch, htrace⟩⟩
  · rw [hs.silent i fun a ha => hi ⟨a, ha⟩] at hbatch
    cases hbatch

end System

def partOf (s : System) (a : ℕ) (logged : List (ℕ × TraceObject)) : List TraceObject :=
  (s.connections a).flatMap fun i => ofConnection i logged

/-- Every entry comes from one forwarder. Its entries are some of the traces that it has
accepted, in their order, and all of them when nothing was lost or is on its way. -/
structure Once (cfg : ServerLogs.Config) (key : LogKey) (s : System)
    (logged : List (ℕ × TraceObject)) : Prop where
  connection : ∀ e ∈ logged, ∃! a, e.1 ∈ s.connections a
  nodup : ∀ a, (s.connections a).Nodup
  accepted : ∀ a, (partOf s a logged).Sublist (s.forwarders a).accepted
  all : ∀ a, (s.forwarders a).Conserved → (s.forwarders a).pending = [] →
    (∀ i ∈ s.connections a, cfg.nodeName i = key.nodeId ∧ s.server.Settled i) →
    partOf s a logged = (s.forwarders a).accepted

/-- What a log holds of each connection comes from one forwarder. -/
theorem System.Inv.once {cfg : ServerLogs.Config} {u : Unicode} {F : Formats} {fs : Fs}
    {s : System} (hs : System.Inv cfg u F fs s) {key : LogKey} {logged : List (ℕ × TraceObject)}
    (hholds : ∀ i, Holds cfg s.server key logged i) : Once cfg key s logged := by
  have hpart : ∀ i, (ofConnection i logged).Sublist (s.server.replies i).flatten := by
    intro i
    have hi := hholds i
    rw [Holds] at hi
    split at hi
    · obtain ⟨n, hfirst, -⟩ := hi
      rw [ofConnection, hfirst]
      exact (List.take_sublist n _).flatten
    · rw [ofConnection, hi]
      exact List.nil_sublist _
  refine ⟨?_, hs.nodup, ?_, ?_⟩
  · intro e he
    have hown : e.2 ∈ ofConnection e.1 logged :=
      List.mem_map.mpr ⟨e, List.mem_filter.mpr ⟨he, decide_eq_true rfl⟩, rfl⟩
    have hreplies := (hpart e.1).subset hown
    by_cases hconnection : ∃ a, e.1 ∈ s.connections a
    · obtain ⟨a, ha⟩ := hconnection
      exact ⟨a, ha, fun b hb => hs.disjoint b a e.1 hb ha⟩
    · rw [hs.silent e.1 fun a ha => hconnection ⟨a, ha⟩] at hreplies
      cases hreplies
  · intro a
    have hsent : (partOf s a logged).Sublist (s.forwarders a).allSent := by
      rw [← hs.allSent_eq a]
      exact List.Sublist.flatMap_right _ fun i _ => hpart i
    exact hsent.trans (hs.allSent_sublist a)
  · intro a hconserved hpending hsettled
    rw [Forwarder.Conserved, hpending, List.append_nil] at hconserved
    rw [← hconserved, ← hs.allSent_eq a]
    apply List.flatMap_congr
    intro i hi
    obtain ⟨hname, hwaits⟩ := hsettled i hi
    have hall := hholds i
    rw [Holds, if_pos hname] at hall
    obtain ⟨n, hfirst, hn⟩ := hall
    rw [ofConnection, hfirst, hn hwaits, List.take_length]

theorem System.Inv.logged {finite : Text → Bool} {parse : String → Option DateTime}
    {stamp : ℤ → String} {time rfc3339 : DateTime → String} {cfg : ServerLogs.Config}
    {u : Unicode} {keys : List LogKey} {fs : Fs} {s : System}
    (hs : System.Inv cfg u (LogLines.formats stamp time rfc3339) fs s)
    (hdistinct : LogWriter.System.Distinct u keys)
    (hkeys : ∀ c ∈ s.server.calls, c.event.key ∈ keys)
    (hclock : (s.server.calls.map Call.event).Pairwise fun e e' => clock e ≤ clock e')
    (hstamps : StampsOrdered (LogLines.formats stamp time rfc3339) (s.server.calls.map Call.event))
    (hearlier : ∀ key ∈ keys, ∀ name, Taken u fs key name →
      ∀ c ∈ s.server.calls, name ≤ key.filename (stamp (clock c.event)))
    {key : LogKey} (hkey : key ∈ keys) (hformat : key.logFormat = .forMachine)
    (honce : ∀ i, cfg.nodeName i = key.nodeId → (cfg.keys i).count key = 1)
    (hclosed : ¬ TextLines.Open (contents u fs key))
    (htimes : ∀ a, ∀ trace ∈ (s.forwarders a).accepted,
      parse (rfc3339 trace.toTimestamp) = some trace.toTimestamp) :
    ∃ logged : List (ℕ × TraceObject),
      readLog finite parse (contents u s.server.writer.fs key) =
        readLog finite parse (contents u fs key) ++ logged.map (fun e => some e.2) ∧
      Once cfg key s logged := by
  refine ⟨entries key s.server.calls, ?_, hs.once (hs.server.holds honce)⟩
  apply hs.server.readLog_eq hdistinct hkeys hclock hstamps hearlier hkey hformat honce hclosed
  intro i _ batch hbatch trace htrace
  obtain ⟨a, ha⟩ := hs.mem_accepted hbatch htrace
  exact htimes a trace ha

def reconnecting (t : TraceObject) : List Event :=
  [.forwarder 0 (.accept t), .forwarder 0 .connect, .connected 0, .forwarder 0 .recv,
    .forwarder 0 .recv, .server (.request 0), .answer 0, .server (.receive 0),
    .server (.log 0 0 0), .server (.handled 0), .forwarder 0 (.accept t), .forwarder 0 .recv,
    .forwarder 0 .recv, .forwarder 0 (.wire .recvFailed), .server (.close 0),
    .forwarder 0 .connect, .connected 0, .forwarder 0 (.accept t), .forwarder 0 .recv,
    .forwarder 0 .recv, .server (.request 1), .answer 0, .server (.receive 1),
    .server (.log 1 0 0)]

end Hermod.LoggedTraces
