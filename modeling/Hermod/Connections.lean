import Hermod.Addresses
import Hermod.Negotiation
import Hermod.NodeNames
import Std.Data.String.ToNat

/-!
The connections of the tracer. It numbers the connections that it accepts on a Unix
socket, calls those on a TCP socket by their peers, and keeps one task for each address
that it dials. Each connection goes through the handshake, gets the name of its node and is
registered until the first of its tasks ends. The registry lists the connections that
are served, in the order of their registration, as long as no two of them share an id.
-/
namespace Hermod.Connections

open Addresses Handshake Negotiation NodeDirectories TracerState Transitions
open JsonText (Json)

inductive Network
  | acceptAt (addr : Address)
  | connectTo (addrs : List Address)

structure Config where
  unicode : Unicode
  network : Network
  networkMagic : UInt32
  hasEkg : Bool

inductive Task
  | traceLoop
  | ekgPoll
  | dataPointIdle
  deriving DecidableEq

inductive Stage
  | handshaking
  /-- The node is asked for its name. -/
  | resolving
  | serving (node : NodeState)
  /-- A task has ended and the others are aborted. -/
  | leaving (node : NodeState)
  | ended
  deriving DecidableEq

def Stage.node : Stage → Option NodeState
  | .serving node => some node
  | .leaving node => some node
  | _ => none

/-- A connection, with the number of the address if it was dialled. -/
structure Connection where
  id : NodeId
  task : Option ℕ
  stage : Stage

/-- The connections are in the order in which they were opened. The order in which they
were registered is kept as history. -/
structure System where
  nodes : Nodes
  counter : UInt64
  connections : List Connection
  registered : List ℕ

inductive Event
  | accept (peer : String)
  /-- The task of an address reaches it. -/
  | dial (i : ℕ)
  | handshake (n : ℕ) (m : HandshakeMessage)
  /-- Sending or receiving fails in the handshake. -/
  | fail (n : ℕ)
  | resolve (n : ℕ) (values : Option (List (String × Option Json)))
  | exit (n : ℕ) (task : Task)
  | deregister (n : ℕ)

def Config.outcome (c : Config) (m : HandshakeMessage) : Outcome :=
  match c.network with
  | .acceptAt _ => (serverResponder c.networkMagic m).outcome
  | .connectTo _ => (serverInitiator c.networkMagic).2 m

def Config.spawns (c : Config) : Task → Bool
  | .ekgPoll => c.hasEkg
  | _ => true

namespace System

def start : System := ⟨IndexMap.empty, 0, [], []⟩

def spawn (s : System) (id : NodeId) (task : Option ℕ) : System :=
  { s with connections := s.connections ++ [⟨id, task, .handshaking⟩] }

def move (s : System) (n : ℕ) (conn : Connection) (stage : Stage) : System :=
  { s with connections := s.connections.set n { conn with stage := stage } }

/-- The task of the address waits for the end of a connection. -/
def busy (s : System) (i : ℕ) : Bool :=
  s.connections.any fun conn => conn.task = some i && conn.stage ≠ .ended

def step (c : Config) (s : System) : Event → Option System
  | .accept peer =>
    match c.network with
    | .acceptAt (.localPipe _) =>
      let counter := s.counter + 1
      some ({ s with counter := counter }.spawn ("unix-" ++ counter.toNat.repr) none)
    | .acceptAt (.remoteSocket _ _) => some (s.spawn peer none)
    | .connectTo _ => none
  | .dial i =>
    match c.network with
    | .acceptAt _ => none
    | .connectTo addrs => do
      let addr ← addrs[i]?
      if s.busy i then none else some (s.spawn (String.ofList addr.toNodeId) (some i))
  | .handshake n m => do
    let conn ← s.connections[n]?
    match conn.stage with
    | .handshaking =>
      some (s.move n conn (if c.outcome m = .established then .resolving else .ended))
    | _ => none
  | .fail n => do
    let conn ← s.connections[n]?
    match conn.stage with
    | .handshaking => some (s.move n conn .ended)
    | _ => none
  | .resolve n values => do
    let conn ← s.connections[n]?
    match conn.stage with
    | .resolving =>
      let name := resolveNodeName NodeNames.niName values conn.id
      let node := NodeState.new c.unicode conn.id name n
      some { s.move n conn (.serving node) with
        nodes := s.nodes.register node
        registered := s.registered ++ [n] }
    | _ => none
  | .exit n task => do
    let conn ← s.connections[n]?
    match conn.stage with
    | .serving node => if c.spawns task then some (s.move n conn (.leaving node)) else none
    | _ => none
  | .deregister n => do
    let conn ← s.connections[n]?
    match conn.stage with
    | .leaving _ =>
      some { s.move n conn .ended with nodes := s.nodes.deregister conn.id }
    | _ => none

def entry (s : System) (n : ℕ) : Option (NodeId × NodeState) :=
  (s.connections[n]?).bind fun conn => conn.stage.node.map fun node => (conn.id, node)

def Listed (s : System) : Prop := s.nodes.entries = s.registered.filterMap s.entry

/-- A connection is registered under an id that no served connection has. -/
def Unclaimed (s : System) : Event → Prop
  | .resolve n _ => ∀ conn, s.connections[n]? = some conn → conn.stage = .resolving →
      ∀ m e, s.entry m = some e → e.1 ≠ conn.id
  | _ => True

structure Inv (s : System) : Prop where
  nodup : s.registered.Nodup
  registered : ∀ n conn, s.connections[n]? = some conn →
    conn.stage = .handshaking ∨ conn.stage = .resolving → n ∉ s.registered
  opened : ∀ n ∈ s.registered, n < s.connections.length
  entries : ∀ n e, s.entry n = some e → n ∈ s.registered ∧ e.2.id = e.1 ∧ e.2.handler = n

theorem inv_start : Inv start where
  nodup := List.nodup_nil
  registered _ _ h := by cases h
  opened _ h := absurd h List.not_mem_nil
  entries _ _ h := by cases h

/-! What the connections of a state are after a step. -/

theorem getElem?_move_self {s : System} {n : ℕ} {conn : Connection}
    (hconn : s.connections[n]? = some conn) (stage : Stage) :
    (s.move n conn stage).connections[n]? = some { conn with stage := stage } := by
  have hlt := (List.getElem?_eq_some_iff.mp hconn).1
  exact List.getElem?_set_self hlt

theorem getElem?_move_of_ne (s : System) {m n : ℕ} (hne : m ≠ n) (conn : Connection)
    (stage : Stage) : (s.move n conn stage).connections[m]? = s.connections[m]? :=
  List.getElem?_set_ne hne.symm

/-- The connection that moved, or another one as it was. -/
theorem getElem?_move {s : System} {m n : ℕ} {conn conn' : Connection} {stage : Stage}
    (hconn : s.connections[n]? = some conn)
    (hconn' : (s.move n conn stage).connections[m]? = some conn') :
    (m = n ∧ conn' = { conn with stage := stage }) ∨
      (m ≠ n ∧ s.connections[m]? = some conn') := by
  by_cases hm : m = n
  · subst hm
    rw [getElem?_move_self hconn, Option.some.injEq] at hconn'
    exact Or.inl ⟨rfl, hconn'.symm⟩
  · rw [getElem?_move_of_ne s hm] at hconn'
    exact Or.inr ⟨hm, hconn'⟩

@[simp] theorem length_move (s : System) (n : ℕ) (conn : Connection) (stage : Stage) :
    (s.move n conn stage).connections.length = s.connections.length := List.length_set

/-- A connection that was there, or the new one. -/
theorem getElem?_spawn {s : System} {id : NodeId} {task : Option ℕ} {n : ℕ}
    {conn : Connection} (hconn : (s.spawn id task).connections[n]? = some conn) :
    s.connections[n]? = some conn ∨
      (n = s.connections.length ∧ conn = ⟨id, task, .handshaking⟩) := by
  have hconn : (s.connections ++ [⟨id, task, .handshaking⟩])[n]? = some conn := hconn
  rw [List.getElem?_append] at hconn
  split at hconn
  · exact Or.inl hconn
  · rename_i hle
    obtain ⟨hlt, heq⟩ := List.getElem?_eq_some_iff.mp hconn
    rw [List.length_singleton] at hlt
    have hn : n = s.connections.length := by omega
    subst hn
    simp only [Nat.sub_self, List.getElem_singleton] at heq
    exact Or.inr ⟨rfl, heq.symm⟩

theorem entry_eq {s : System} {n : ℕ} {conn : Connection}
    (hconn : s.connections[n]? = some conn) :
    s.entry n = conn.stage.node.map fun node => (conn.id, node) := by
  rw [entry, hconn, Option.bind_some]

/-- What a served connection has in the registry is its own node. -/
theorem entry_eq_some_iff {s : System} {n : ℕ} {e : NodeId × NodeState} :
    s.entry n = some e ↔ ∃ conn, s.connections[n]? = some conn ∧ conn.stage.node = some e.2 ∧
      conn.id = e.1 := by
  cases hconn : s.connections[n]? with
  | none =>
    rw [entry, hconn]
    simp
  | some conn =>
    rw [entry_eq hconn, Option.map_eq_some_iff]
    constructor
    · intro h
      obtain ⟨node, hnode, rfl⟩ := h
      exact ⟨conn, rfl, hnode, rfl⟩
    · intro h
      obtain ⟨conn', hconn', hnode, hid⟩ := h
      rw [Option.some.inj hconn']
      exact ⟨e.2, hnode, by rw [hid]⟩

theorem entry_move_of_ne (s : System) {m n : ℕ} (hne : m ≠ n) (conn : Connection)
    (stage : Stage) : (s.move n conn stage).entry m = s.entry m := by
  rw [entry, getElem?_move_of_ne s hne, entry]

theorem entry_move_self {s : System} {n : ℕ} {conn : Connection}
    (hconn : s.connections[n]? = some conn) (stage : Stage) :
    (s.move n conn stage).entry n = stage.node.map fun node => (conn.id, node) :=
  entry_eq (getElem?_move_self hconn stage)

/-- A stage with the same node changes nothing in the registry. -/
theorem entry_move_same {s : System} {n : ℕ} {conn : Connection}
    (hconn : s.connections[n]? = some conn) {stage : Stage}
    (hnode : stage.node = conn.stage.node) : (s.move n conn stage).entry = s.entry := by
  funext m
  by_cases hm : m = n
  · rw [hm, entry_move_self hconn, entry_eq hconn, hnode]
  · exact entry_move_of_ne s hm conn stage

theorem entry_spawn (s : System) (id : NodeId) (task : Option ℕ) :
    (s.spawn id task).entry = s.entry := by
  funext n
  cases hconn : s.connections[n]? with
  | some conn =>
    have hlt := (List.getElem?_eq_some_iff.mp hconn).1
    have hspawn : (s.spawn id task).connections[n]? = some conn := by
      rw [← hconn]
      exact List.getElem?_append_left hlt
    rw [entry_eq hspawn, entry_eq hconn]
  | none =>
    have hnone : s.entry n = none := by
      rw [entry, hconn]
      rfl
    cases hspawn : (s.spawn id task).connections[n]? with
    | none =>
      rw [hnone, entry, hspawn]
      rfl
    | some conn =>
      rcases getElem?_spawn hspawn with hold | ⟨-, rfl⟩
      · rw [hconn] at hold
        cases hold
      · rw [entry_eq hspawn, hnone]
        rfl

/-! What a step can do. -/

def Opens (c : Config) (s : System) (id : NodeId) (task : Option ℕ) (counter : UInt64) :
    Event → Prop
  | .accept peer => task = none ∧
      ((∃ path, c.network = .acceptAt (.localPipe path) ∧ counter = s.counter + 1 ∧
        id = "unix-" ++ counter.toNat.repr) ∨
      (∃ host port, c.network = .acceptAt (.remoteSocket host port) ∧ counter = s.counter ∧
        id = peer))
  | .dial i => task = some i ∧ counter = s.counter ∧ s.busy i = false ∧
      ∃ addrs addr, c.network = .connectTo addrs ∧ addrs[i]? = some addr ∧
        id = String.ofList addr.toNodeId
  | _ => False

inductive Effect (c : Config) (s : System) : Event → System → Prop
  | opens (e : Event) (id : NodeId) (task : Option ℕ) (counter : UInt64)
      (hopens : s.Opens c id task counter e) :
      Effect c s e ({ s with counter := counter }.spawn id task)
  | moves (e : Event) (n : ℕ) (conn : Connection) (stage : Stage) (hfree : s.Unclaimed e)
      (hconn : s.connections[n]? = some conn) (hnode : stage.node = conn.stage.node)
      (hunfinished : conn.stage ≠ .ended) (hbefore : stage = .handshaking ∨ stage = .resolving →
        conn.stage = .handshaking ∨ conn.stage = .resolving) :
      Effect c s e (s.move n conn stage)
  | registers (n : ℕ) (conn : Connection) (values : Option (List (String × Option Json)))
      (hconn : s.connections[n]? = some conn) (hstage : conn.stage = .resolving)
      (node : NodeState) (hid : node.id = conn.id) (hhandler : node.handler = n) :
      Effect c s (.resolve n values) { s.move n conn (.serving node) with
        nodes := s.nodes.register node
        registered := s.registered ++ [n] }
  | deregisters (n : ℕ) (conn : Connection) (node : NodeState)
      (hconn : s.connections[n]? = some conn) (hstage : conn.stage = .leaving node) :
      Effect c s (.deregister n)
        { s.move n conn .ended with nodes := s.nodes.deregister conn.id }

/-- Where a step finds the connection of its event. -/
theorem exists_connection {n : ℕ} {s s' : System} {f : Connection → Option System}
    (h : (s.connections[n]?).bind f = some s') :
    ∃ conn, s.connections[n]? = some conn ∧ f conn = some s' := Option.bind_eq_some_iff.mp h

/-- What each event does to the connections and the registry. -/
theorem step_effect {c : Config} {s s' : System} {e : Event} (h : s.step c e = some s') :
    Effect c s e s' := by
  cases e with
  | accept peer =>
    simp only [step] at h
    split at h
    · rename_i path hnetwork
      rw [← Option.some.inj h]
      exact .opens _ _ _ _ ⟨rfl, Or.inl ⟨path, hnetwork, rfl, rfl⟩⟩
    · rename_i host port hnetwork
      rw [← Option.some.inj h]
      exact .opens _ _ _ s.counter ⟨rfl, Or.inr ⟨host, port, hnetwork, rfl, rfl⟩⟩
    · cases h
  | dial i =>
    simp only [step] at h
    split at h
    · cases h
    · rename_i addrs hnetwork
      obtain ⟨addr, haddr, h⟩ := Option.bind_eq_some_iff.mp h
      split at h
      · cases h
      · rename_i hbusy
        rw [← Option.some.inj h]
        exact .opens _ _ _ s.counter
          ⟨rfl, rfl, Bool.eq_false_iff.mpr hbusy, addrs, addr, hnetwork, haddr, rfl⟩
  | handshake n m =>
    obtain ⟨conn, hconn, h⟩ := exists_connection h
    split at h
    · rename_i hstage
      rw [← Option.some.inj h]
      refine .moves _ _ _ _ trivial hconn ?_ (by simp [hstage]) fun _ => Or.inl hstage
      split
      · rw [hstage]; rfl
      · rw [hstage]; rfl
    · cases h
  | fail n =>
    obtain ⟨conn, hconn, h⟩ := exists_connection h
    split at h
    · rename_i hstage
      rw [← Option.some.inj h]
      refine .moves _ _ _ _ trivial hconn ?_ (by simp [hstage]) fun _ => Or.inl hstage
      rw [hstage]; rfl
    · cases h
  | resolve n values =>
    obtain ⟨conn, hconn, h⟩ := exists_connection h
    split at h
    · rename_i hstage
      rw [← Option.some.inj h]
      exact .registers n conn values hconn hstage _ rfl rfl
    · cases h
  | exit n task =>
    obtain ⟨conn, hconn, h⟩ := exists_connection h
    split at h
    · rename_i node hstage
      split at h
      · rw [← Option.some.inj h]
        refine .moves _ _ _ _ trivial hconn ?_ (by simp [hstage]) ?_
        · rw [hstage]; rfl
        · intro hbefore
          rcases hbefore with hbefore | hbefore <;> cases hbefore
      · cases h
    · cases h
  | deregister n =>
    obtain ⟨conn, hconn, h⟩ := exists_connection h
    split at h
    · rename_i node hstage
      rw [← Option.some.inj h]
      exact .deregisters n conn node hconn hstage
    · cases h

/-- The registered connections stay registered when another one moves on. -/
theorem Inv.of_move {s s' : System} {n : ℕ} {conn : Connection} {stage : Stage} (hs : Inv s)
    (hconn : s.connections[n]? = some conn)
    (hconns : s'.connections = (s.move n conn stage).connections)
    (hregistered : s'.registered = s.registered)
    (hbefore : stage = .handshaking ∨ stage = .resolving →
      conn.stage = .handshaking ∨ conn.stage = .resolving)
    (hentry : ∀ e, s'.entry n = some e → s.entry n = some e) : Inv s' := by
  have hentries : ∀ m, m ≠ n → s'.entry m = s.entry m := by
    intro m hm
    rw [entry, hconns]
    exact entry_move_of_ne s hm conn stage
  refine ⟨hregistered ▸ hs.nodup, fun m conn' hconn' hstage => ?_, fun m hm => ?_,
    fun m e he => ?_⟩
  · rw [hconns] at hconn'
    rw [hregistered]
    rcases getElem?_move hconn hconn' with ⟨rfl, rfl⟩ | ⟨-, hold⟩
    · exact hs.registered m conn hconn (hbefore hstage)
    · exact hs.registered m conn' hold hstage
  · rw [hconns, length_move]
    exact hs.opened m (hregistered ▸ hm)
  · rw [hregistered]
    by_cases hm : m = n
    · subst hm
      exact hs.entries m e (hentry e he)
    · rw [hentries m hm] at he
      exact hs.entries m e he

theorem Inv.step {c : Config} {s s' : System} {e : Event} (hs : Inv s)
    (h : s.step c e = some s') : Inv s' := by
  cases step_effect h with
  | opens e id task counter =>
    refine ⟨hs.nodup, fun n conn hconn hbefore => ?_, fun n hn => ?_, fun n e he => ?_⟩
    · rcases getElem?_spawn hconn with hold | ⟨rfl, -⟩
      · exact hs.registered n conn hold hbefore
      · intro hn
        have hlt : s.connections.length < s.connections.length := hs.opened _ hn
        omega
    · have hlt := hs.opened n hn
      show n < (s.connections ++ [_]).length
      rw [List.length_append]
      omega
    · rw [entry_spawn] at he
      exact hs.entries n e he
  | moves e n conn stage hfree hconn hnode hunfinished hbefore =>
    apply hs.of_move hconn rfl rfl hbefore
    intro e he
    rwa [entry_move_same hconn hnode] at he
  | registers n conn values hconn hstage node hid hhandler =>
    have hnew := hs.registered n conn hconn (Or.inr hstage)
    refine ⟨?_, fun m conn' hconn' hbefore => ?_, fun m hm => ?_, fun m e he => ?_⟩
    · refine List.nodup_append.mpr ⟨hs.nodup, List.nodup_singleton n, fun m hm m' hm' => ?_⟩
      rw [List.mem_singleton.mp hm']
      rintro rfl
      exact hnew hm
    · rcases getElem?_move hconn hconn' with ⟨rfl, rfl⟩ | ⟨hm, hold⟩
      · rcases hbefore with hbefore | hbefore <;> cases hbefore
      · intro hmem
        rcases List.mem_append.mp hmem with hmem | hmem
        · exact hs.registered m conn' hold hbefore hmem
        · exact hm (List.mem_singleton.mp hmem)
    · show m < (s.move n conn _).connections.length
      rw [length_move]
      rcases List.mem_append.mp hm with hm | hm
      · exact hs.opened m hm
      · rw [List.mem_singleton.mp hm]
        exact (List.getElem?_eq_some_iff.mp hconn).1
    · have he : (s.move n conn (.serving node)).entry m = some e := he
      by_cases hm : m = n
      · subst hm
        rw [entry_move_self hconn] at he
        rw [← Option.some.inj he]
        exact ⟨List.mem_append_right _ (List.mem_singleton_self m), hid, hhandler⟩
      · rw [entry_move_of_ne s hm] at he
        obtain ⟨hmem, he⟩ := hs.entries m e he
        exact ⟨List.mem_append_left _ hmem, he⟩
  | deregisters n conn node hconn hstage =>
    refine hs.of_move hconn rfl rfl (fun hbefore => ?_) fun e he => ?_
    · rcases hbefore with hbefore | hbefore <;> cases hbefore
    · have he : (s.move n conn .ended).entry n = some e := he
      rw [entry_move_self hconn] at he
      cases he

/-! The registry and the connections. -/

/-- The registry grows by the new node exactly when its id is not in use. -/
theorem listed_register_iff {s : System} {n : ℕ} {conn : Connection} (hs : Inv s)
    (hlisted : Listed s) (hconn : s.connections[n]? = some conn) (hstage : conn.stage = .resolving)
    (values : Option (List (String × Option Json))) {node : NodeState}
    (hid : node.id = conn.id) :
    Listed { s.move n conn (.serving node) with
        nodes := s.nodes.register node
        registered := s.registered ++ [n] } ↔ s.Unclaimed (.resolve n values) := by
  have hnew := hs.registered n conn hconn (Or.inr hstage)
  have hlist : (s.registered ++ [n]).filterMap (s.move n conn (.serving node)).entry =
      s.nodes.entries ++ [(conn.id, node)] := by
    have hold : s.registered.filterMap (s.move n conn (.serving node)).entry =
        s.registered.filterMap s.entry := by
      apply List.filterMap_congr
      intro m hm
      apply entry_move_of_ne
      rintro rfl
      exact hnew hm
    rw [List.filterMap_append, hold, ← hlisted]
    congr 1
    exact List.filterMap_cons_some (entry_move_self hconn _)
  show (s.nodes.insert node.id node).entries = _ ↔ _
  rw [hid]
  constructor
  · intro hgrown conn' hconn' _ m e he heq
    have hnodup := (s.nodes.insert conn.id node).nodup
    rw [hgrown] at hnodup
    have hnodup : ((s.nodes.entries ++ [(conn.id, node)]).map Prod.fst).Nodup := hlist ▸ hnodup
    have hmem : e ∈ s.nodes.entries := by
      rw [hlisted]
      exact List.mem_filterMap.mpr ⟨m, (hs.entries m e he).1, he⟩
    rw [hconn, Option.some.injEq] at hconn'
    subst hconn'
    rw [List.map_append] at hnodup
    exact (List.nodup_append.mp hnodup).2.2 e.1 (List.mem_map_of_mem hmem) conn.id
      (List.mem_singleton_self _) heq
  · intro hfree
    have hnotMem : conn.id ∉ s.nodes.entries.map Prod.fst := by
      intro hmem
      obtain ⟨e, he, heq⟩ := List.mem_map.mp hmem
      rw [hlisted] at he
      obtain ⟨m, -, he⟩ := List.mem_filterMap.mp he
      exact hfree conn hconn hstage m e he heq
    rw [IndexMap.entries_insert hnotMem]
    exact hlist.symm

/-- A connection removes its own node and no other. -/
theorem listed_deregister {s : System} {n : ℕ} {conn : Connection} {node : NodeState}
    (hs : Inv s) (hlisted : Listed s) (hconn : s.connections[n]? = some conn)
    (hstage : conn.stage = .leaving node) :
    Listed { s.move n conn .ended with nodes := s.nodes.deregister conn.id } := by
  have hown : s.entry n = some (conn.id, node) := by
    rw [entry_eq hconn, hstage]
    rfl
  have hmem : ∀ m e, s.entry m = some e → e ∈ s.nodes.entries := by
    intro m e he
    rw [hlisted]
    exact List.mem_filterMap.mpr ⟨m, (hs.entries m e he).1, he⟩
  show s.nodes.entries.filter _ = s.registered.filterMap (s.move n conn .ended).entry
  rw [hlisted, List.filter_filterMap]
  apply List.filterMap_congr
  intro m _
  by_cases hm : m = n
  · subst hm
    rw [entry_move_self hconn, hown]
    simp [Stage.node]
  · rw [entry_move_of_ne s hm]
    cases he : s.entry m with
    | none => rfl
    | some e =>
      have hne : e.1 ≠ conn.id := by
        intro heq
        have hsame := List.inj_on_of_nodup_map s.nodes.nodup (hmem m e he) (hmem n _ hown) heq
        have hhandler := (hs.entries m e he).2.2
        rw [hsame, (hs.entries n _ hown).2.2] at hhandler
        exact hm hhandler.symm
      simp [hne]

/-- A step keeps the registry right exactly when it claims no id in use. -/
theorem step_listed_iff {c : Config} (s : System) (e : Event) (s' : System) (hs : Inv s)
    (hlisted : Listed s) (h : s.step c e = some s') :
    Inv s' ∧ (Listed s' ↔ s.Unclaimed e) := by
  refine ⟨hs.step h, ?_⟩
  cases step_effect h with
  | opens e id task counter hopens =>
    refine iff_of_true ?_ ?_
    · rw [Listed, entry_spawn]
      exact hlisted
    · cases e with
      | resolve n values => exact hopens.elim
      | _ => trivial
  | moves e n conn stage hfree hconn hnode =>
    refine iff_of_true ?_ hfree
    rw [Listed, entry_move_same hconn hnode]
    exact hlisted
  | registers n conn values hconn hstage node hid =>
    exact listed_register_iff hs hlisted hconn hstage values hid
  | deregisters n conn node hconn hstage =>
    exact iff_of_true (listed_deregister hs hlisted hconn hstage) trivial

/-- In every state of a run the registry lists exactly the connections that are served
exactly when no connection is registered under the id of another one that is served. -/
theorem reached_listed_iff {c : Config} {s : System} {es : List Event}
    (h : run (step c) start es = some s) :
    (∀ m, Reached (step c) start es m → Listed m) ↔
      Along (step c) Unclaimed start es :=
  reached_iff_along step_listed_iff inv_start rfl h

/-! The ids of the connections. -/

def Apart (s : System) : Prop :=
  ∀ (m n : ℕ) (conn conn' : Connection), s.connections[m]? = some conn →
    s.connections[n]? = some conn' → conn.stage ≠ .ended → conn'.stage ≠ .ended →
    conn.id = conn'.id → m = n

/-- A connection whose id no other one has claims no id in use. -/
theorem Apart.unclaimed {s : System} (hs : Apart s) (e : Event) : s.Unclaimed e := by
  cases e with
  | resolve n values =>
    intro conn hconn hstage m e he heq
    obtain ⟨conn', hconn', hnode, hid⟩ := entry_eq_some_iff.mp he
    have hunfinished : conn'.stage ≠ .ended := by
      intro hended
      rw [hended] at hnode
      cases hnode
    have hm := hs m n conn' conn hconn' hconn hunfinished (by simp [hstage]) (hid.trans heq)
    subst hm
    rw [hconn, Option.some.injEq] at hconn'
    rw [← hconn', hstage] at hnode
    cases hnode
  | _ => trivial

/-- What a step makes of a connection: it is as before, or moved to another stage before
its end, or new. -/
theorem step_connection {c : Config} {s s' : System} {e : Event} (h : s.step c e = some s')
    {n : ℕ} {conn : Connection} (hconn : s'.connections[n]? = some conn) :
    (∃ old, s.connections[n]? = some old ∧ conn.id = old.id ∧ conn.task = old.task ∧
      (conn.stage ≠ .ended → old.stage ≠ .ended)) ∨
    (n = s.connections.length ∧ s.Opens c conn.id conn.task s'.counter e ∧
      s'.connections.length = n + 1) := by
  have hmoved : ∀ k old stage, s.connections[k]? = some old → old.stage ≠ .ended →
      (s.move k old stage).connections[n]? = some conn →
      ∃ old, s.connections[n]? = some old ∧ conn.id = old.id ∧ conn.task = old.task ∧
        (conn.stage ≠ .ended → old.stage ≠ .ended) := by
    intro k old stage hold hunfinished hconn
    rcases getElem?_move hold hconn with ⟨rfl, rfl⟩ | ⟨-, hsame⟩
    · exact ⟨old, hold, rfl, rfl, fun _ => hunfinished⟩
    · exact ⟨conn, hsame, rfl, rfl, id⟩
  cases step_effect h with
  | opens e id task counter hopens =>
    rcases getElem?_spawn hconn with hold | ⟨rfl, rfl⟩
    · exact Or.inl ⟨conn, hold, rfl, rfl, fun h => h⟩
    · exact Or.inr ⟨rfl, hopens, List.length_append⟩
  | moves e k old stage hfree hold hnode hunfinished =>
    exact Or.inl (hmoved k old stage hold hunfinished hconn)
  | registers k old values hold hstage node =>
    exact Or.inl (hmoved k old (.serving node) hold (by simp [hstage]) hconn)
  | deregisters k old node hold hstage =>
    exact Or.inl (hmoved k old .ended hold (by simp [hstage]) hconn)

structure Numbered (s : System) : Prop where
  counter : s.counter.toNat = s.connections.length
  ids : ∀ n conn, s.connections[n]? = some conn → conn.id = "unix-" ++ (n + 1).repr

theorem Numbered.apart {s : System} (hs : Numbered s) : Apart s := by
  intro m n conn conn' hconn hconn' _ _ hid
  rw [hs.ids m conn hconn, hs.ids n conn' hconn'] at hid
  have hrepr := Nat.repr_injective ((String.append_right_inj _).mp hid)
  omega

/-- As long as the counter does not wrap, each connection gets a new number. -/
theorem Numbered.step {c : Config} {path : TextLines.Text} {s s' : System} {e : Event}
    (hc : c.network = .acceptAt (.localPipe path)) (hs : Numbered s)
    (hroom : s.connections.length + 1 < 2 ^ 64) (h : s.step c e = some s') : Numbered s' := by
  have hcounter : s'.counter.toNat = s'.connections.length := by
    cases step_effect h with
    | opens e id task counter hopens =>
      show counter.toNat = (s.connections ++ [_]).length
      rw [List.length_append, List.length_singleton]
      cases e with
      | accept peer =>
        obtain ⟨-, ⟨-, -, rfl, -⟩ | ⟨_, _, hnetwork, -⟩⟩ := hopens
        · rw [UInt64.toNat_add, hs.counter]
          exact Nat.mod_eq_of_lt hroom
        · rw [hc] at hnetwork
          cases hnetwork
      | dial i =>
        obtain ⟨-, -, -, _, _, hnetwork, -⟩ := hopens
        rw [hc] at hnetwork
        cases hnetwork
      | _ => exact hopens.elim
    | moves e n conn stage => exact hs.counter.trans (length_move ..).symm
    | registers n conn values _ _ node => exact hs.counter.trans (length_move ..).symm
    | deregisters n conn node => exact hs.counter.trans (length_move ..).symm
  refine ⟨hcounter, fun n conn hconn => ?_⟩
  rcases step_connection h hconn with ⟨old, hold, hid, -⟩ | ⟨-, hopens, hlength⟩
  · rw [hid]
    exact hs.ids n old hold
  · rw [hlength] at hcounter
    cases e with
    | accept peer =>
      obtain ⟨-, ⟨-, -, -, hid⟩ | ⟨_, _, hnetwork, -⟩⟩ := hopens
      · rw [hid, hcounter]
      · rw [hc] at hnetwork
        cases hnetwork
    | dial i =>
      obtain ⟨-, -, -, _, _, hnetwork, -⟩ := hopens
      rw [hc] at hnetwork
      cases hnetwork
    | _ => exact hopens.elim

structure Dialled (addrs : List Address) (s : System) : Prop where
  ids : ∀ (n : ℕ) (conn : Connection), s.connections[n]? = some conn → ∃ i addr,
    conn.task = some i ∧ addrs[i]? = some addr ∧ conn.id = String.ofList addr.toNodeId
  one : ∀ (m n : ℕ) (conn conn' : Connection), s.connections[m]? = some conn →
    s.connections[n]? = some conn' → conn.stage ≠ .ended → conn'.stage ≠ .ended →
    conn.task = conn'.task → m = n

/-- Distinct addresses give distinct ids. -/
theorem Dialled.apart {addrs : List Address} {s : System}
    (haddrs : (addrs.map Address.toNodeId).Nodup) (hs : Dialled addrs s) : Apart s := by
  intro m n conn conn' hconn hconn' hunfinished hunfinished' hid
  obtain ⟨i, addr, htask, haddr, hname⟩ := hs.ids m conn hconn
  obtain ⟨j, addr', htask', haddr', hname'⟩ := hs.ids n conn' hconn'
  rw [hname, hname', String.ofList_inj] at hid
  have hlt : i < (addrs.map Address.toNodeId).length := by
    rw [List.length_map]
    exact (List.getElem?_eq_some_iff.mp haddr).1
  have hij : i = j := by
    apply (List.getElem?_inj hlt haddrs).mp
    rw [List.getElem?_map, List.getElem?_map, haddr, haddr', Option.map_some, Option.map_some, hid]
  exact hs.one m n conn conn' hconn hconn' hunfinished hunfinished' (by rw [htask, htask', hij])

theorem not_busy {s : System} {i n : ℕ} {conn : Connection} (hbusy : s.busy i = false)
    (hconn : s.connections[n]? = some conn) (hunfinished : conn.stage ≠ .ended) :
    conn.task ≠ some i := by
  intro htask
  have hmem := List.mem_of_getElem? hconn
  have hfalse := List.any_eq_false.mp hbusy conn hmem
  simp [htask, hunfinished] at hfalse

/-- An address is dialled only when its last connection is over. -/
theorem Dialled.step {c : Config} {addrs : List Address} {s s' : System} {e : Event}
    (hc : c.network = .connectTo addrs) (hs : Dialled addrs s) (h : s.step c e = some s') :
    Dialled addrs s' := by
  -- A new connection is to an address whose task has no other one.
  have hopened : ∀ id task counter, s.Opens c id task counter e → ∃ i addr, task = some i ∧
      addrs[i]? = some addr ∧ id = String.ofList addr.toNodeId ∧ s.busy i = false := by
    intro id task counter hopens
    cases e with
    | accept peer =>
      obtain ⟨-, ⟨_, hnetwork, -⟩ | ⟨_, _, hnetwork, -⟩⟩ := hopens
      · rw [hc] at hnetwork
        cases hnetwork
      · rw [hc] at hnetwork
        cases hnetwork
    | dial i =>
      obtain ⟨htask, -, hbusy, addrs', addr, hnetwork, haddr, hid⟩ := hopens
      rw [hc, Network.connectTo.injEq] at hnetwork
      subst hnetwork
      exact ⟨i, addr, htask, haddr, hid, hbusy⟩
    | _ => exact hopens.elim
  refine ⟨fun n conn hconn => ?_,
    fun m n conn conn' hconn hconn' hunfinished hunfinished' htask => ?_⟩
  · rcases step_connection h hconn with ⟨old, hold, hid, htask, -⟩ | ⟨-, hopens, -⟩
    · rw [hid, htask]
      exact hs.ids n old hold
    · obtain ⟨i, addr, htask, haddr, hid, -⟩ := hopened _ _ _ hopens
      exact ⟨i, addr, htask, haddr, hid⟩
  · rcases step_connection h hconn with ⟨old, hold, -, hsame, hbefore⟩ | ⟨hm, hopens, -⟩
    · rcases step_connection h hconn' with ⟨old', hold', -, hsame', hbefore'⟩ | ⟨hn, hopens, -⟩
      · exact hs.one m n old old' hold hold' (hbefore hunfinished) (hbefore' hunfinished')
          (by rw [← hsame, ← hsame', htask])
      · obtain ⟨i, -, hi, -, -, hbusy⟩ := hopened _ _ _ hopens
        exact absurd (by rw [← hsame, htask, hi]) (not_busy hbusy hold (hbefore hunfinished))
    · rcases step_connection h hconn' with ⟨old', hold', -, hsame', hbefore'⟩ | ⟨hn, -⟩
      · obtain ⟨i, -, hi, -, -, hbusy⟩ := hopened _ _ _ hopens
        exact absurd (by rw [← hsame', ← htask, hi]) (not_busy hbusy hold' (hbefore' hunfinished'))
      · rw [hm, hn]

theorem length_step {c : Config} {s s' : System} {e : Event} (h : s.step c e = some s') :
    s'.connections.length ≤ s.connections.length + 1 := by
  cases step_effect h with
  | opens e id task counter => exact (List.length_append ..).le
  | moves e n conn stage => exact (length_move ..).le.trans (Nat.le_succ _)
  | registers n conn values _ _ node => exact (length_move ..).le.trans (Nat.le_succ _)
  | deregisters n conn node => exact (length_move ..).le.trans (Nat.le_succ _)

theorem along_room {c : Config} {s : System} {es : List Event}
    (h : s.connections.length + es.length < 2 ^ 64) :
    Along (step c) (fun s _ => s.connections.length + 1 < 2 ^ 64) s es := by
  induction es generalizing s with
  | nil => exact trivial
  | cons e es ih =>
    rw [List.length_cons] at h
    refine ⟨by omega, fun s' hstep => ih ?_⟩
    have hlength := length_step hstep
    omega

/-- The network tells its connections apart: it is a Unix socket whose counter does not
wrap around, or a list of addresses that differ. -/
def Distinguishes (es : List Event) : Network → Prop
  | .acceptAt (.localPipe _) => es.length < 2 ^ 64
  | .acceptAt (.remoteSocket _ _) => False
  | .connectTo addrs => (addrs.map Address.toNodeId).Nodup

/-- Networks that tell their connections apart never claim an id in use. -/
theorem along_unclaimed {c : Config} {es : List Event} (hnetwork : Distinguishes es c.network) :
    Along (step c) Unclaimed start es := by
  cases hc : c.network with
  | acceptAt addr =>
    rw [hc] at hnetwork
    cases addr with
    | localPipe path =>
      have hroom : Along (step c) (fun s _ => s.connections.length + 1 < 2 ^ 64) start es :=
        by
        apply along_room
        rw [start, List.length_nil, Nat.zero_add]
        exact hnetwork
      refine hroom.of_invariant (I := Numbered) (fun s e hs _ => hs.apart.unclaimed e)
        (fun s e s' hs hlt h => hs.step hc hlt h) ⟨rfl, fun n conn hconn => ?_⟩
      cases hconn
    | remoteSocket host port => exact hnetwork.elim
  | connectTo addrs =>
    rw [hc] at hnetwork
    have hall : Along (step c) (fun _ _ => True) start es := along_of_forall _ fun _ _ => trivial
    refine hall.of_invariant (I := Dialled addrs)
      (fun s e hs _ => (hs.apart hnetwork).unclaimed e) (fun s e s' hs _ h => hs.step hc h)
      ⟨fun n conn hconn => ?_, fun m n conn conn' hconn => ?_⟩
    · cases hconn
    · cases hconn

theorem listed_of_unclaimed {c : Config} {s : System} {es : List Event}
    (hfree : Along (step c) Unclaimed start es) (h : run (step c) start es = some s) :
    ∀ m, Reached (step c) start es m → Listed m :=
  (reached_iff_along step_listed_iff inv_start rfl h).mpr hfree

/-- On a Unix socket, and for addresses that differ, the registry lists exactly the
connections that are served, whatever the order in which they come, are named and end. -/
theorem always_listed {c : Config} {s : System} {es : List Event}
    (hnetwork : Distinguishes es c.network) (h : run (step c) start es = some s) :
    ∀ m, Reached (step c) start es m → Listed m :=
  listed_of_unclaimed (along_unclaimed hnetwork) h

def twoConnections : List Event :=
  let propose := HandshakeMessage.propose (versionTableV1 0)
  [.accept "10.0.0.1:3000", .accept "10.0.0.1:3000", .handshake 1 propose, .handshake 0 propose,
    .resolve 1 none, .exit 1 .traceLoop, .resolve 0 (some []), .deregister 1,
    .exit 0 .dataPointIdle, .deregister 0]

theorem reached_listed_iff_twoConnections :
    let c : Config := ⟨.ascii, .acceptAt (.remoteSocket "".toList 3000), 0, true⟩
    ∃ s, run (step c) start twoConnections = some s ∧
      ((∀ m, Reached (step c) start twoConnections m → Listed m) ↔
        Along (step c) Unclaimed start twoConnections) := by
  intro c
  obtain ⟨s, hrun⟩ : ∃ s, run (step c) start twoConnections = some s :=
    Option.isSome_iff_exists.mp (by decide +kernel)
  exact ⟨s, hrun, reached_listed_iff hrun⟩

theorem always_listed_twoConnections :
    let c : Config := ⟨.ascii, .acceptAt (.localPipe "/tmp/hermod.sock".toList), 0, false⟩
    ∃ s, run (step c) start twoConnections = some s ∧
      ∀ m, Reached (step c) start twoConnections m → Listed m := by
  intro c
  obtain ⟨s, hrun⟩ : ∃ s, run (step c) start twoConnections = some s :=
    Option.isSome_iff_exists.mp (by decide +kernel)
  have hshort : twoConnections.length < 2 ^ 64 := by decide
  exact ⟨s, hrun, always_listed hshort hrun⟩

end System

end Hermod.Connections
