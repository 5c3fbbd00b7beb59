import Hermod.Handshake

/-!
The handshake as the five connecting sites negotiate it. A responder accepts the highest
version that is proposed and that it knows, whatever the network magic beside it; an
initiator proposes its own table and goes on with any acceptance. The configured magic
goes into the messages and is never compared.
-/
namespace Hermod.Negotiation

open Handshake

inductive Outcome
  | established
  /-- The function returns `Ok(())` or `()` without a session. -/
  | returned
  | failed
  deriving DecidableEq, Repr

structure Response where
  reply : Option HandshakeMessage
  outcome : Outcome
  deriving DecidableEq

/-- Pick the highest version both sides support, or refuse with the versions offered. -/
def respond (otherwise : Outcome) (networkMagic : UInt64) : HandshakeMessage → Response
  | .propose versions =>
    let ourVersions := versionTableV1 networkMagic
    match (versions.keys.filter (· ∈ ourVersions)).max? with
    | some version => ⟨some (.accept version ⟨networkMagic⟩), .established⟩
    | none => ⟨some (.refuse versions.keys), otherwise⟩
  | _ => ⟨none, otherwise⟩

/-- `TraceAcceptor::handle_connection`. -/
def traceAcceptor (networkMagic : UInt64) : HandshakeMessage → Response :=
  respond .returned networkMagic

/-- `handle_connection` of the server when it has accepted the connection; its configured
magic has 32 bits. -/
def serverResponder (networkMagic : UInt32) : HandshakeMessage → Response :=
  respond .failed networkMagic.toUInt64

/-- `handle_accepting_connection`. -/
def acceptingReForwarder (networkMagic : UInt64) : HandshakeMessage → Response :=
  respond .returned networkMagic

def propose (networkMagic : UInt64) : HandshakeMessage := .propose (versionTableV1 networkMagic)

def initiate : HandshakeMessage → Outcome
  | .accept _ _ => .established
  | .refuse _ => .failed
  | .propose _ => .failed

/-- `TraceForwarder::connect_and_run`: the proposal and what follows the answer. -/
def traceForwarder (networkMagic : UInt64) : HandshakeMessage × (HandshakeMessage → Outcome) :=
  (propose networkMagic, initiate)

/-- `handle_connection` of the server when it has dialled out. -/
def serverInitiator (networkMagic : UInt32) : HandshakeMessage × (HandshakeMessage → Outcome) :=
  (propose networkMagic.toUInt64, initiate)

/-- Version 1 is the only one that both sides can support. -/
theorem filter_supported (versions : VersionTable) (networkMagic : UInt64) :
    versions.keys.filter (· ∈ versionTableV1 networkMagic) =
      if 1 ∈ versions then [1] else [] := by
  have hmem : ∀ v : UInt64, v ∈ versionTableV1 networkMagic ↔ v = 1 := by
    intro v
    rw [AList.mem_keys, keys_versionTableV1, List.mem_singleton]
  simp only [hmem]
  rw [List.filter_eq]
  by_cases h : 1 ∈ versions
  · rw [if_pos h, List.count_eq_one_of_mem versions.keys_nodup (AList.mem_keys.mp h)]
    rfl
  · rw [if_neg h, List.count_eq_zero_of_not_mem fun hk => h (AList.mem_keys.mpr hk)]
    rfl

/-- A proposal is answered by version 1 with the magic of the responder, or refused. -/
theorem respond_propose (otherwise : Outcome) (networkMagic : UInt64) (versions : VersionTable) :
    respond otherwise networkMagic (.propose versions) =
      if 1 ∈ versions then ⟨some (.accept 1 ⟨networkMagic⟩), .established⟩
      else ⟨some (.refuse versions.keys), otherwise⟩ := by
  simp only [respond]
  rw [filter_supported]
  by_cases h : 1 ∈ versions
  · rw [if_pos h, if_pos h]
    rfl
  · rw [if_neg h, if_neg h]
    rfl

/-! Separation of networks. -/

/-- The proposal has a version that the responder supports, with the responder's magic. -/
def Compatible (networkMagic : UInt64) (versions : VersionTable) : Prop :=
  ∃ v data, v ∈ versionTableV1 networkMagic ∧ versions.lookup v = some data ∧
    data.networkMagic = networkMagic

def RespondsToOwn (networkMagic : UInt64) (m : HandshakeMessage) (r : Response) : Prop :=
  (r.outcome = .established ↔
      ∃ versions, m = .propose versions ∧ Compatible networkMagic versions) ∧
    ∀ versions, m = .propose versions → ¬ Compatible networkMagic versions →
      ∃ refused, r.reply = some (.refuse refused)

def AcceptsOwn (proposal m : HandshakeMessage) (outcome : Outcome) : Prop :=
  outcome = .established → ∃ versions v data, proposal = .propose versions ∧
    m = .accept v data ∧ versions.lookup v = some data

def ProposesOwn (networkMagic : UInt64) (m : HandshakeMessage) : Prop :=
  ∀ versions data, m = .propose versions → versions.lookup 1 = some data →
    data.networkMagic = networkMagic

def AcceptedOwn (networkMagic : UInt64) (m : HandshakeMessage) : Prop :=
  ∀ v data, m = .accept v data → v = 1 ∧ data.networkMagic = networkMagic

theorem compatible_iff (networkMagic : UInt64) (versions : VersionTable) :
    Compatible networkMagic versions ↔ versions.lookup 1 = some ⟨networkMagic⟩ := by
  constructor
  · intro h'
    obtain ⟨v, data, hv, hlookup, hmagic⟩ := h'
    rw [AList.mem_keys, keys_versionTableV1, List.mem_singleton] at hv
    subst hv
    subst hmagic
    exact hlookup
  · intro h
    refine ⟨1, ⟨networkMagic⟩, ?_, h, rfl⟩
    rw [AList.mem_keys, keys_versionTableV1, List.mem_singleton]

/-- The responder is right about a message exactly when the message does not propose
version 1 with another magic. -/
theorem respond_iff {otherwise : Outcome} (hother : otherwise ≠ .established)
    (networkMagic : UInt64) (m : HandshakeMessage) :
    RespondsToOwn networkMagic m (respond otherwise networkMagic m) ↔
      ProposesOwn networkMagic m := by
  cases m with
  | accept version data =>
    refine iff_of_true ⟨iff_of_false hother ?_, nofun⟩ nofun
    intro h'
    obtain ⟨versions, h, -⟩ := h'
    cases h
  | refuse versions =>
    refine iff_of_true ⟨iff_of_false hother ?_, nofun⟩ nofun
    intro h'
    obtain ⟨versions, h, -⟩ := h'
    cases h
  | propose versions =>
    have hcond : ProposesOwn networkMagic (.propose versions) ↔
        ∀ data, versions.lookup 1 = some data → data.networkMagic = networkMagic :=
      ⟨fun h data => h versions data rfl,
        fun h _ data heq => HandshakeMessage.propose.inj heq ▸ h data⟩
    rw [RespondsToOwn, respond_propose, hcond]
    simp only [HandshakeMessage.propose.injEq, forall_eq', exists_eq_left', compatible_iff]
    by_cases h : 1 ∈ versions
    · obtain ⟨⟨magic⟩, hdata⟩ := Option.isSome_iff_exists.mp (AList.lookup_isSome.mpr h)
      rw [if_pos h, hdata]
      simp
    · rw [if_neg h, AList.lookup_eq_none.mpr h]
      simp [hother]

/-- The initiator is right about an answer exactly when the answer accepts version 1
with its own magic or accepts nothing. -/
theorem initiate_iff (networkMagic : UInt64) (m : HandshakeMessage) :
    AcceptsOwn (propose networkMagic) m (initiate m) ↔ AcceptedOwn networkMagic m := by
  cases m with
  | propose versions => exact iff_of_true nofun nofun
  | refuse versions => exact iff_of_true nofun nofun
  | accept v data =>
    constructor
    · intro h v' data' heq
      obtain ⟨versions, v'', data'', hversions, heq', hlookup⟩ := h rfl
      rw [propose, HandshakeMessage.propose.injEq] at hversions
      rw [heq, HandshakeMessage.accept.injEq] at heq'
      obtain ⟨rfl, rfl⟩ := heq'
      rw [← hversions, lookup_versionTableV1] at hlookup
      split at hlookup
      · rename_i hv
        exact ⟨hv, by rw [← Option.some.inj hlookup]⟩
      · cases hlookup
    · intro h _
      obtain ⟨rfl, rfl⟩ := h v data rfl
      exact ⟨_, 1, data, rfl, rfl, by rw [lookup_versionTableV1, if_pos rfl]⟩

/-- Both peers go on after the initiator's proposal and the responder's answer. -/
def Established (initiator : HandshakeMessage × (HandshakeMessage → Outcome))
    (responder : HandshakeMessage → Response) : Prop :=
  (responder initiator.1).outcome = .established ∧
    ∃ answer, (responder initiator.1).reply = some answer ∧ initiator.2 answer = .established

/-- Two peers that run this code always establish a session. -/
theorem always_established (otherwise : Outcome) (magic magic' : UInt64) :
    Established (propose magic, initiate) (respond otherwise magic') := by
  have hmem : 1 ∈ versionTableV1 magic := by
    rw [AList.mem_keys, keys_versionTableV1]
    exact List.mem_singleton_self 1
  rw [Established, propose, respond_propose, if_pos hmem]
  exact ⟨rfl, _, rfl, rfl⟩

/-- Each site keeps networks apart exactly for the messages that carry its own magic
beside version 1, and two peers are kept apart only where there is nothing to keep. -/
theorem handshake_separates_iff (magic magic' : UInt64) (serverMagic : UInt32)
    (m : HandshakeMessage) :
    (RespondsToOwn magic m (traceAcceptor magic m) ↔ ProposesOwn magic m) ∧
    (RespondsToOwn serverMagic.toUInt64 m (serverResponder serverMagic m) ↔
      ProposesOwn serverMagic.toUInt64 m) ∧
    (RespondsToOwn magic m (acceptingReForwarder magic m) ↔ ProposesOwn magic m) ∧
    (AcceptsOwn (traceForwarder magic).1 m ((traceForwarder magic).2 m) ↔ AcceptedOwn magic m) ∧
    (AcceptsOwn (serverInitiator serverMagic).1 m ((serverInitiator serverMagic).2 m) ↔
      AcceptedOwn serverMagic.toUInt64 m) ∧
    ∀ otherwise, (Established (propose magic, initiate) (respond otherwise magic') →
      magic = magic') ↔ magic = magic' := by
  refine ⟨respond_iff (by simp) magic m, respond_iff (by simp) serverMagic.toUInt64 m,
    respond_iff (by simp) magic m, initiate_iff magic m, initiate_iff serverMagic.toUInt64 m,
    fun otherwise => ?_⟩
  exact ⟨fun h => h (always_established otherwise magic magic'), fun h _ => h⟩

/-- A forwarder of network 2 and an acceptor of network 1 establish a session. -/
theorem established_across_networks :
    Established (traceForwarder 2) (traceAcceptor 1) ∧ (2 : UInt64) ≠ 1 ∧
      ¬ RespondsToOwn 1 (propose 2) (traceAcceptor 1 (propose 2)) := by
  refine ⟨always_established _ 2 1, by decide, ?_⟩
  intro h
  obtain ⟨hiff, -⟩ := h
  obtain ⟨versions, heq, hcompat⟩ := hiff.mp (always_established .returned 2 1).1
  rw [propose, HandshakeMessage.propose.injEq] at heq
  rw [compatible_iff, ← heq, lookup_versionTableV1, if_pos rfl, Option.some.injEq,
    ForwardingVersionData.mk.injEq] at hcompat
  exact absurd hcompat (by decide)

end Hermod.Negotiation
