import Hermod.IndexMap
import Hermod.Transitions
import Mathlib.Logic.Function.Basic

/-!
The registry of connected nodes and the connection handlers that share it. A handler
registers its node under the address of the connection when the handshake is over, and
deregisters that address when its connection ends. Handlers run as independent tasks,
so their steps come in any order and two of them may use one address.
-/
namespace Hermod.TracerState

open Transitions

abbrev NodeId := String

abbrev NodeSlug := String

/-- The Unicode tables behind `to_lowercase` and `is_alphanumeric`. -/
structure Unicode where
  toLowercase : List Char → List Char
  isAlphanumeric : Char → Bool

def Unicode.ascii : Unicode := ⟨List.map Char.toLower, Char.isAlphanum⟩

/-- Drop dashes after a dash; `lastWasDash` starts as true to skip leading ones. -/
def collapse : Bool → List Char → List Char
  | _, [] => []
  | lastWasDash, c :: cs =>
    if c = '-' then if lastWasDash then collapse true cs else '-' :: collapse true cs
    else c :: collapse false cs

def slugify (u : Unicode) (s : String) : NodeSlug :=
  let raw := (u.toLowercase s.toList).map fun c => if u.isAlphanumeric c then c else '-'
  let result := collapse true raw
  let result := if result.getLast? = some '-' then result.dropLast else result
  String.ofList (if result = [] then ['x'] else result)

/-- The state of a connected node. The handler that created it tells apart two states
with the same id and name. -/
structure NodeState where
  id : NodeId
  name : String
  slug : NodeSlug
  handler : ℕ
  deriving DecidableEq

def NodeState.new (u : Unicode) (id : NodeId) (name : String) (handler : ℕ) : NodeState :=
  ⟨id, name, slugify u name, handler⟩

abbrev Nodes := IndexMap NodeId NodeState

namespace Nodes

def register (nodes : Nodes) (node : NodeState) : Nodes := nodes.insert node.id node

def deregister (nodes : Nodes) (id : NodeId) : Nodes := nodes.shiftRemove id

def nodeList (nodes : Nodes) : List (String × NodeSlug) :=
  nodes.values.map fun n => (n.name, n.slug)

def findBySlug (nodes : Nodes) (slug : NodeSlug) : Option NodeState :=
  nodes.values.find? fun n => n.slug = slug

def allNodes (nodes : Nodes) : List NodeState := nodes.values

end Nodes

inductive Handler
  | connecting
  | serving (node : NodeState)
  | ended
  deriving DecidableEq

/-- The shared state and the handlers. The latest registration under each id is kept
as history. -/
structure System where
  nodes : Nodes
  handlers : ℕ → Handler
  latest : NodeId → Option NodeState

inductive Event
  | register (handler : ℕ) (id : NodeId) (name : String)
  | deregister (handler : ℕ)
  deriving DecidableEq

namespace System

def start : System := ⟨IndexMap.empty, fun _ => .connecting, fun _ => none⟩

def step (u : Unicode) (s : System) : Event → Option System
  | .register h id name =>
    match s.handlers h with
    | .connecting =>
      let node := NodeState.new u id name h
      some ⟨s.nodes.register node, Function.update s.handlers h (.serving node),
        Function.update s.latest id (some node)⟩
    | _ => none
  | .deregister h =>
    match s.handlers h with
    | .serving node =>
      some ⟨s.nodes.deregister node.id, Function.update s.handlers h .ended, s.latest⟩
    | _ => none

/-- The node was registered most recently under its id, by a handler that has not
deregistered it. -/
def Live (s : System) (n : NodeState) : Prop :=
  s.latest n.id = some n ∧ s.handlers n.handler = .serving n

def LiveReachable (s : System) : Prop :=
  ∀ n, s.Live n → n ∈ s.nodes.allNodes ∧ (n.name, n.slug) ∈ s.nodes.nodeList ∧
    s.nodes.findBySlug n.slug = some n

/-- A handler registers a slug that no other connected id uses. It deregisters an id that
it registered most recently, or whose most recent handler has deregistered it before. -/
def Undisturbed (u : Unicode) (s : System) : Event → Prop
  | .register _ id name => ∀ n ∈ s.nodes.allNodes, n.slug = slugify u name → n.id = id
  | .deregister h => ∀ m n, s.handlers h = .serving m → s.latest m.id = some n →
      n = m ∨ s.handlers n.handler = .ended

structure Inv (s : System) : Prop where
  entries : ∀ k n, (k, n) ∈ s.nodes.entries → n.id = k ∧ s.Live n
  serving : ∀ h n, s.handlers h = .serving n → n.handler = h
  latest : ∀ id n, s.latest id = some n → n.id = id ∧
    (s.handlers n.handler = .serving n ∨ s.handlers n.handler = .ended)

theorem inv_start : Inv start where
  entries _ _ h := absurd h List.not_mem_nil
  serving _ _ h := by cases h
  latest _ _ h := by cases h

theorem liveReachable_start : LiveReachable start := by
  intro n h
  obtain ⟨hlatest, -⟩ := h
  cases hlatest

theorem Inv.mem_allNodes {s : System} (hs : Inv s) {n : NodeState} :
    n ∈ s.nodes.allNodes ↔ (n.id, n) ∈ s.nodes.entries := by
  rw [Nodes.allNodes, IndexMap.mem_values]
  constructor
  · intro h'
    obtain ⟨k, hk⟩ := h'
    rwa [(hs.entries k n hk).1]
  · intro h
    exact ⟨n.id, h⟩

/-- Where no two nodes share a slug, all three ways lead to the same nodes. -/
theorem findBySlug_eq_some {nodes : Nodes} {n : NodeState} (hn : n ∈ nodes.allNodes)
    (hunique : ∀ m ∈ nodes.allNodes, m.slug = n.slug → m = n) :
    nodes.findBySlug n.slug = some n := by
  cases hfind : nodes.findBySlug n.slug with
  | none =>
    have hne := List.find?_eq_none.mp hfind n hn
    simp at hne
  | some m =>
    have hslug := List.find?_some hfind
    have hmem := List.mem_of_find?_eq_some hfind
    rw [hunique m hmem (of_decide_eq_true hslug)]

/-- Live nodes that are found by their slugs have different slugs. -/
theorem LiveReachable.slug_unique {s : System} (hreach : LiveReachable s) {m n : NodeState}
    (hm : s.Live m) (hn : s.Live n) (hslug : m.slug = n.slug) : m = n := by
  have hfind := (hreach m hm).2.2
  rw [hslug, (hreach n hn).2.2] at hfind
  exact (Option.some.inj hfind).symm

theorem liveReachable_of_mem {s : System} (hmem : ∀ n, s.Live n → n ∈ s.nodes.allNodes)
    (hunique : ∀ m n, m ∈ s.nodes.allNodes → s.Live n → m.slug = n.slug → m = n) :
    LiveReachable s := fun n hn =>
  ⟨hmem n hn, List.mem_map.mpr ⟨n, hmem n hn, rfl⟩,
    findBySlug_eq_some (hmem n hn) fun m hm hslug => hunique m n hm hn hslug⟩

/-! What the two steps do. -/

/-- What a registration does. -/
theorem register_spec {u : Unicode} {s s' : System} {h : ℕ} {id : NodeId} {name : String}
    (hstep : s.step u (.register h id name) = some s') :
    s.handlers h = .connecting ∧ s'.nodes = s.nodes.register (.new u id name h) ∧
      s'.handlers = Function.update s.handlers h (.serving (.new u id name h)) ∧
      s'.latest = Function.update s.latest id (some (.new u id name h)) := by
  simp only [step] at hstep
  split at hstep
  · rename_i hconn
    rw [← Option.some.inj hstep]
    exact ⟨hconn, rfl, rfl, rfl⟩
  · cases hstep

/-- What a deregistration does. -/
theorem deregister_spec {u : Unicode} {s s' : System} {h : ℕ}
    (hstep : s.step u (.deregister h) = some s') :
    ∃ node, s.handlers h = .serving node ∧ s'.nodes = s.nodes.deregister node.id ∧
      s'.handlers = Function.update s.handlers h .ended ∧ s'.latest = s.latest := by
  simp only [step] at hstep
  split at hstep
  · rename_i node hserv
    rw [← Option.some.inj hstep]
    exact ⟨node, hserv, rfl, rfl, rfl⟩
  · cases hstep

/-- A registration takes the place of the last one under its id. -/
theorem live_register_iff {u : Unicode} {s s' : System} {h : ℕ} {id : NodeId} {name : String}
    (hstep : s.step u (.register h id name) = some s') (n : NodeState) :
    s'.Live n ↔ n = .new u id name h ∨ (n.id ≠ id ∧ s.Live n) := by
  obtain ⟨hconn, -, hhandlers, hlatest⟩ := register_spec hstep
  rw [Live, hhandlers, hlatest]
  by_cases hid : n.id = id
  · rw [hid, Function.update_self, Option.some.injEq]
    constructor
    · intro h'
      obtain ⟨heq, -⟩ := h'
      exact Or.inl heq.symm
    · intro h'
      rcases h' with rfl | ⟨hne, -⟩
      · exact ⟨rfl, Function.update_self ..⟩
      · exact absurd rfl hne
  · rw [Function.update_of_ne hid]
    constructor
    · intro h'
      obtain ⟨hn, hserv⟩ := h'
      by_cases hh : n.handler = h
      · rw [hh, Function.update_self, Handler.serving.injEq] at hserv
        exact Or.inl hserv.symm
      · rw [Function.update_of_ne hh] at hserv
        exact Or.inr ⟨hid, hn, hserv⟩
    · intro h'
      rcases h' with rfl | ⟨-, hn, hserv⟩
      · exact absurd rfl hid
      · refine ⟨hn, ?_⟩
        have hh : n.handler ≠ h := by
          intro h'
          subst h'
          rw [hserv] at hconn
          cases hconn
        rwa [Function.update_of_ne hh]

/-- A deregistration ends what its own handler registered. -/
theorem live_deregister_iff {u : Unicode} {s s' : System} {h : ℕ}
    (hstep : s.step u (.deregister h) = some s') (n : NodeState) :
    s'.Live n ↔ n.handler ≠ h ∧ s.Live n := by
  obtain ⟨node, -, -, hhandlers, hlatest⟩ := deregister_spec hstep
  rw [Live, Live, hhandlers, hlatest]
  by_cases hh : n.handler = h
  · rw [hh, Function.update_self]
    constructor
    · intro h'
      obtain ⟨-, hserv⟩ := h'
      cases hserv
    · intro h'
      obtain ⟨hne, -⟩ := h'
      exact absurd rfl hne
  · rw [Function.update_of_ne hh]
    exact (and_iff_right hh).symm

theorem Inv.register {u : Unicode} {s s' : System} {h : ℕ} {id : NodeId} {name : String}
    (hs : Inv s) (hstep : s.step u (.register h id name) = some s') : Inv s' := by
  obtain ⟨hconn, hnodes, hhandlers, hlatest⟩ := register_spec hstep
  refine ⟨fun k n hmem => ?_, fun h' n hserv => ?_, fun id' n hn => ?_⟩
  · rw [hnodes] at hmem
    rcases IndexMap.mem_insert.mp hmem with ⟨rfl, rfl⟩ | ⟨hne, hmem⟩
    · exact ⟨rfl, (live_register_iff hstep _).mpr (Or.inl rfl)⟩
    · obtain ⟨rfl, hn⟩ := hs.entries k n hmem
      exact ⟨rfl, (live_register_iff hstep n).mpr (Or.inr ⟨hne, hn⟩)⟩
  · rw [hhandlers] at hserv
    by_cases hh : h' = h
    · rw [hh, Function.update_self, Handler.serving.injEq] at hserv
      rw [← hserv, hh]
      rfl
    · rw [Function.update_of_ne hh] at hserv
      exact hs.serving h' n hserv
  · rw [hlatest] at hn
    rw [hhandlers]
    by_cases hid : id' = id
    · rw [hid, Function.update_self, Option.some.injEq] at hn
      subst hn
      exact ⟨hid.symm, Or.inl (Function.update_self ..)⟩
    · rw [Function.update_of_ne hid] at hn
      obtain ⟨hn, hserv⟩ := hs.latest id' n hn
      have hh : n.handler ≠ h := by
        rintro rfl
        rw [hconn] at hserv
        rcases hserv with hserv | hserv
        · cases hserv
        · cases hserv
      rw [Function.update_of_ne hh]
      exact ⟨hn, hserv⟩

theorem Inv.deregister {u : Unicode} {s s' : System} {h : ℕ} (hs : Inv s)
    (hstep : s.step u (.deregister h) = some s') : Inv s' := by
  obtain ⟨node, hnode, hnodes, hhandlers, hlatest⟩ := deregister_spec hstep
  refine ⟨fun k n hmem => ?_, fun h' n hserv => ?_, fun id n hn => ?_⟩
  · rw [hnodes] at hmem
    obtain ⟨hne, hmem⟩ := IndexMap.mem_shiftRemove.mp hmem
    obtain ⟨rfl, hn⟩ := hs.entries k n hmem
    refine ⟨rfl, (live_deregister_iff hstep n).mpr ⟨?_, hn⟩⟩
    rintro rfl
    rw [hn.2, Handler.serving.injEq] at hnode
    exact hne (by rw [hnode])
  · rw [hhandlers] at hserv
    by_cases hh : h' = h
    · rw [hh, Function.update_self] at hserv
      cases hserv
    · rw [Function.update_of_ne hh] at hserv
      exact hs.serving h' n hserv
  · rw [hlatest] at hn
    rw [hhandlers]
    obtain ⟨hid, hserv⟩ := hs.latest id n hn
    by_cases hh : n.handler = h
    · rw [hh, Function.update_self]
      exact ⟨hid, Or.inr rfl⟩
    · rw [Function.update_of_ne hh]
      exact ⟨hid, hserv⟩

/-- After a registration all live nodes are found exactly when the slug was not in use. -/
theorem liveReachable_register_iff {u : Unicode} {s s' : System} {h : ℕ} {id : NodeId}
    {name : String} (hs : Inv s) (hreach : LiveReachable s)
    (hstep : s.step u (.register h id name) = some s') :
    LiveReachable s' ↔ s.Undisturbed u (.register h id name) := by
  have hs' := hs.register hstep
  obtain ⟨-, hnodes, -, -⟩ := register_spec hstep
  have hlive := live_register_iff hstep
  constructor
  · intro hreach' n hn hslug
    by_contra hid
    have hn' : s'.Live n :=
      (hlive n).mpr (Or.inr ⟨hid, (hs.entries _ _ (hs.mem_allNodes.mp hn)).2⟩)
    have hnew : s'.Live (.new u id name h) := (hlive _).mpr (Or.inl rfl)
    exact hid (by rw [hreach'.slug_unique hn' hnew hslug]; rfl)
  · intro hundisturbed
    -- Two live nodes with one slug are the same: the new one shares its slug with none.
    have hunique : ∀ m n, s'.Live m → s'.Live n → m.slug = n.slug → m = n := by
      intro m n hm hn hslug
      rcases (hlive m).mp hm with rfl | ⟨hidm, hm⟩ <;> rcases (hlive n).mp hn with rfl | ⟨hidn, hn⟩
      · rfl
      · exact absurd (hundisturbed n (hreach n hn).1 hslug.symm) hidn
      · exact absurd (hundisturbed m (hreach m hm).1 hslug) hidm
      · exact hreach.slug_unique hm hn hslug
    apply liveReachable_of_mem
    · intro n hn
      rw [hs'.mem_allNodes, hnodes]
      rcases (hlive n).mp hn with rfl | ⟨hid, hn⟩
      · exact IndexMap.mem_insert.mpr (Or.inl ⟨rfl, rfl⟩)
      · exact IndexMap.mem_insert.mpr (Or.inr ⟨hid, hs.mem_allNodes.mp (hreach n hn).1⟩)
    · intro m n hm hn hslug
      exact hunique m n (hs'.entries _ _ (hs'.mem_allNodes.mp hm)).2 hn hslug

/-- After a deregistration all live nodes are found exactly when no other handler's
live node was removed. -/
theorem liveReachable_deregister_iff {u : Unicode} {s s' : System} {h : ℕ} (hs : Inv s)
    (hreach : LiveReachable s) (hstep : s.step u (.deregister h) = some s') :
    LiveReachable s' ↔ s.Undisturbed u (.deregister h) := by
  have hs' := hs.deregister hstep
  obtain ⟨node, hnode, hnodes, -, -⟩ := deregister_spec hstep
  have hlive := live_deregister_iff hstep
  constructor
  · intro hreach' m n hm hn
    rw [hnode, Handler.serving.injEq] at hm
    subst hm
    obtain ⟨hid, hserv | hended⟩ := hs.latest _ n hn
    · left
      by_contra hne
      have hh : n.handler ≠ h := by
        intro heq
        subst heq
        rw [hserv, Handler.serving.injEq] at hnode
        exact hne hnode
      have hn' : s'.Live n := (hlive n).mpr ⟨hh, by rw [hid]; exact hn, hserv⟩
      have hmem := hs'.mem_allNodes.mp (hreach' n hn').1
      rw [hnodes] at hmem
      exact (IndexMap.mem_shiftRemove.mp hmem).1 hid
    · exact Or.inr hended
  · intro hundisturbed
    apply liveReachable_of_mem
    · intro n hn
      obtain ⟨hh, hn⟩ := (hlive n).mp hn
      rw [hs'.mem_allNodes, hnodes]
      refine IndexMap.mem_shiftRemove.mpr ⟨?_, hs.mem_allNodes.mp (hreach n hn).1⟩
      intro hid
      rcases hundisturbed node n hnode (by rw [← hid]; exact hn.1) with rfl | hended
      · exact hh (hs.serving h n hnode)
      · rw [hn.2] at hended
        cases hended
    · intro m n hm hn hslug
      have hm' := (hs'.entries _ _ (hs'.mem_allNodes.mp hm)).2
      exact hreach.slug_unique ((hlive m).mp hm').2 ((hlive n).mp hn).2 hslug

theorem step_liveReachable_iff {u : Unicode} {s s' : System} {e : Event} (hs : Inv s)
    (hreach : LiveReachable s) (hstep : s.step u e = some s') :
    Inv s' ∧ (LiveReachable s' ↔ s.Undisturbed u e) := by
  cases e with
  | register h id name =>
    exact ⟨hs.register hstep, liveReachable_register_iff hs hreach hstep⟩
  | deregister h => exact ⟨hs.deregister hstep, liveReachable_deregister_iff hs hreach hstep⟩

/-- In every state of a run the live nodes are all found exactly when no step disturbs
another handler's node. -/
theorem reached_liveReachable_iff {u : Unicode} {s : System} {es : List Event}
    (h : run (step u) start es = some s) :
    (∀ m, Reached (step u) start es m → LiveReachable m) ↔
      Along (step u) (Undisturbed u) start es :=
  reached_iff_along (fun _ _ _ hs hreach hstep => step_liveReachable_iff hs hreach hstep)
    inv_start liveReachable_start h

theorem reached_liveReachable_iff_two :
    ∃ s, run (step .ascii) start
          [.register 0 "unix-1" "one", .register 1 "unix-2" "two"] = some s ∧
      ((∀ m, Reached (step .ascii) start [.register 0 "unix-1" "one", .register 1 "unix-2" "two"] m →
          LiveReachable m) ↔
        Along (step .ascii) (Undisturbed .ascii) start
          [.register 0 "unix-1" "one", .register 1 "unix-2" "two"]) :=
  ⟨_, rfl, reached_liveReachable_iff rfl⟩

/-- A peer that connects again from the same address before its first handler has
deregistered: that handler removes the node of the second one. -/
theorem old_handler_removes_new_node :
    ∃ s n, run (step .ascii) start [.register 0 "10.0.0.1:3000" "node",
        .register 1 "10.0.0.1:3000" "node", .deregister 0] = some s ∧
      s.Live n ∧ n.handler = 1 ∧ n ∉ s.nodes.allNodes ∧ s.nodes.findBySlug n.slug = none ∧
      s.nodes.nodeList = [] := by
  refine ⟨_, .new .ascii "10.0.0.1:3000" "node" 1, rfl, ⟨rfl, rfl⟩, rfl, ?_, rfl, rfl⟩
  exact List.not_mem_nil

end System

end Hermod.TracerState
