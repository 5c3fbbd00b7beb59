import Hermod.Handshake
import Hermod.Tables

/-!
What a handshake message is read as when it arrives in chunks and more bytes follow. The
table of a proposal is written in the order in which its map iterates and rebuilt by
insertion, so messages are the same up to the order of that table.
-/
namespace Hermod.Handshake

open Decoding Decoder Cbor

/-- Equal messages, where a proposal counts as the map it carries. -/
def Same : HandshakeMessage → HandshakeMessage → Prop
  | .propose versions, .propose versions' => ∀ v, versions.lookup v = versions'.lookup v
  | .accept version data, .accept version' data' => version = version' ∧ data = data'
  | .refuse versions, .refuse versions' => versions = versions'
  | _, _ => False

/-- Lengths that fit the 64-bit `usize` of a Rust `HashMap` or `Vec`. -/
def Sized : HandshakeMessage → Prop
  | .propose versions => versions.entries.length < 2 ^ 64
  | .accept _ _ => True
  | .refuse versions => versions.length < 2 ^ 64

abbrev SizedMessage := { m : HandshakeMessage // Sized m }

theorem parses_version (version : UInt64) :
    Parses HandshakeMessage.decodeVersion (encodeUInt version.toNat) version := by
  intro rest
  simp only [HandshakeMessage.decodeVersion, map_run, u64_run version.toNat_lt,
    UInt64.ofNat_toNat]

theorem parses_data (data : ForwardingVersionData) :
    Parses ForwardingVersionData.decode data.encode data := by
  intro rest
  simp only [ForwardingVersionData.decode, ForwardingVersionData.encode, bind_run,
    u64_run data.networkMagic.toNat_lt, UInt64.ofNat_toNat, pure_run]

theorem parses_entry (version : UInt64) (data : ForwardingVersionData) :
    Parses HandshakeMessage.decodeEntry (encodeUInt version.toNat ++ data.encode)
      (version, data) := by
  intro rest
  simp only [HandshakeMessage.decodeEntry, List.append_assoc, bind_run, parses_version version _,
    parses_data data _, pure_run]

theorem parses_entries (entries : List (UInt64 × ForwardingVersionData)) :
    Parses (times HandshakeMessage.decodeEntry entries.length)
      (entries.map fun e => encodeUInt e.1.toNat ++ e.2.encode).flatten entries := by
  have hps := @parses_times _ HandshakeMessage.decodeEntry
    (entries.map fun e => (e, encodeUInt e.1.toNat ++ e.2.encode))
    (by
      intro p hp
      obtain ⟨e, -, rfl⟩ := List.mem_map.mp hp
      exact parses_entry e.1 e.2)
  simpa only [encodings, List.length_map, List.map_map, Function.comp_def, List.map_id'] using hps

theorem parses_versions (versions : List UInt64) :
    Parses (times HandshakeMessage.decodeVersion versions.length)
      (versions.map fun v => encodeUInt v.toNat).flatten versions := by
  have hps := @parses_times _ HandshakeMessage.decodeVersion
    (versions.map fun v => (v, encodeUInt v.toNat))
    (by
      intro p hp
      obtain ⟨v, -, rfl⟩ := List.mem_map.mp hp
      exact parses_version v)
  simpa only [encodings, List.length_map, List.map_map, Function.comp_def, List.map_id'] using hps

/-- A proposal is read back as the map of its entries. -/
theorem parses_propose {versions : VersionTable} (hlen : Sized (.propose versions)) :
    Parses HandshakeMessage.decode (HandshakeMessage.propose versions).encode
      (.propose (HandshakeMessage.insertAll (versions.entries.map fun e => (e.1, e.2)))) := by
  have hentries := parses_entries (versions.entries.map fun e => (e.1, e.2))
  simp only [List.length_map, List.map_map, Function.comp_def] at hentries
  intro rest
  simp only [HandshakeMessage.encode, HandshakeMessage.decode, List.append_assoc, bind_run,
    array_run (by omega : 2 < 2 ^ 64), u16_run (by omega : 0 < 2 ^ 16), map_run_encodeMap hlen,
    hentries rest, pure_run]

theorem same_propose (versions : VersionTable) :
    Same (.propose versions)
      (.propose (HandshakeMessage.insertAll (versions.entries.map fun e => (e.1, e.2)))) := by
  have hentries : versions.entries =
      (versions.entries.map fun e => (e.1, e.2)).map fun p => ⟨p.1, p.2⟩ := by
    simp only [List.map_map, Function.comp_def, List.map_id']
  intro v
  exact (Tables.lookup_rebuilt versions _ hentries v).symm

/-- What the encoder writes is read as the same message. -/
theorem parses_encode {m : HandshakeMessage} (hm : Sized m) :
    ∃ m', Same m m' ∧ Parses HandshakeMessage.decode m.encode m' := by
  cases m with
  | propose versions => exact ⟨_, same_propose versions, parses_propose hm⟩
  | accept version data =>
    refine ⟨.accept version data, ⟨rfl, rfl⟩, fun rest => ?_⟩
    simp only [HandshakeMessage.encode, HandshakeMessage.decode, List.append_assoc, bind_run,
      array_run (by omega : 3 < 2 ^ 64), u16_run (by omega : 1 < 2 ^ 16), parses_version version _,
      parses_data data _, pure_run]
  | refuse versions =>
    refine ⟨.refuse versions, rfl, fun rest => ?_⟩
    simp only [HandshakeMessage.encode, HandshakeMessage.decode, List.append_assoc, bind_run,
      array_run (by omega : 2 < 2 ^ 64), u16_run (by omega : 2 < 2 ^ 16), array_run hm,
      parses_versions versions _, pure_run]

/-- Whatever follows a message, and however the bytes are cut into chunks, the receiver waits
on every strict prefix of the message, then takes exactly its bytes and gets the same message. -/
theorem receive_handshake (m : SizedMessage) (more : Bytes) (chunks : List Bytes)
    (hchunks : chunks.flatten = m.val.encode ++ more) :
    (∀ pre suffix, m.val.encode = pre ++ suffix → suffix ≠ [] →
      HandshakeMessage.decode.run pre = .error .endOfInput) ∧
    ∃ m', Same m.val m' ∧
      HandshakeMessage.decode.run (m.val.encode ++ more) = .ok (m', more) ∧
      ∃ rest later, receiveOne HandshakeMessage.decode [] chunks = .ok (m', rest, later) ∧
        rest ++ later.flatten = more := by
  obtain ⟨m', hsame, hparses⟩ := parses_encode m.property
  constructor
  · intro pre suffix hsplit hne
    rw [hsplit] at hparses
    exact hparses.prefix_run hne
  · have hpos : 0 < m.val.encode.length := by
      by_contra hlen
      have hrun := hparses.run
      rw [List.length_eq_zero_iff.mp (by omega : m.val.encode.length = 0)] at hrun
      cases hrun
    exact ⟨m', hsame, hparses more, receiveOne_from hparses chunks [] hchunks hpos⟩

/-- A proposal of two versions with a byte behind it, cut after its fourth byte. -/
theorem receive_handshake_two :
    let versions : VersionTable := AList.insert 2 ⟨7⟩ (versionTableV1 764824073)
    let enc := (HandshakeMessage.propose versions).encode
    ∃ m' rest later, receiveOne HandshakeMessage.decode [] [enc.take 4, enc.drop 4 ++ [0x82]] =
      .ok (m', rest, later) ∧ Same (.propose versions) m' ∧ rest ++ later.flatten = [0x82] := by
  intro versions enc
  obtain ⟨-, m', hsame, -, rest, later, hrun, hrest⟩ :=
    receive_handshake ⟨.propose versions, by unfold Sized; decide⟩ [0x82]
      [enc.take 4, enc.drop 4 ++ [0x82]]
      (by simp only [List.flatten_cons, List.flatten_nil, List.append_nil, ← List.append_assoc,
        List.take_append_drop, enc])
  exact ⟨m', rest, later, hrun, hsame, hrest⟩

end Hermod.Handshake
