import Hermod.CborReaders
import Hermod.Negotiation
import Hermod.Tables

/-!
Proposals of newer peers. A peer that knows more versions offers them in the same table,
each with version data of its own format. The decoder reads the data of every entry as a
network magic, whether or not it knows the version, so one entry with other data makes it
reject the whole proposal.
-/
namespace Hermod.NewerPeers

open Decoding Decoder Cbor Handshake Negotiation

structure Entry where
  version : UInt64
  key : Bytes
  data : Bytes
  isKey : IsHead 0 (some version.toNat) key
  wellFormed : WellFormed data

def Entry.bytes (e : Entry) : Bytes := e.key ++ e.data

def Entry.Unsigned (e : Entry) : Prop := ∃ n, IsHead 0 (some n) e.data

/-- A proposal as a peer may write it, with heads of any width and a table in either form. -/
structure Proposal where
  outer : Bytes
  label : Bytes
  table : Bytes
  indefinite : Bool
  entries : List Entry
  isOuter : IsHead 4 (some 2) outer
  isLabel : IsHead 0 (some 0) label
  isTable : IsHead 5 (if indefinite then none else some entries.length) table

def entriesBytes (entries : List Entry) : Bytes := (entries.map Entry.bytes).flatten

def Proposal.bytes (p : Proposal) : Bytes :=
  p.outer ++ p.label ++ p.table ++ entriesBytes p.entries ++
    (if p.indefinite then [breakByte] else [])

def Proposal.OffersV1 (p : Proposal) : Prop := ∃ e ∈ p.entries, e.version = 1 ∧ e.Unsigned

def Agreed (p : Proposal) : Prop :=
  ∃ m, HandshakeMessage.decode.run p.bytes = .ok (m, []) ∧
    ∀ (magic : UInt64) (serverMagic : UInt32),
      (traceAcceptor magic m).reply = some (.accept 1 ⟨magic⟩) ∧
      (serverResponder serverMagic m).reply = some (.accept 1 ⟨serverMagic.toUInt64⟩) ∧
      (acceptingReForwarder magic m).reply = some (.accept 1 ⟨magic⟩)

/-! Reading the entries. -/

theorem parses_key (e : Entry) : Parses HandshakeMessage.decodeVersion e.key e.version := by
  have hlt := e.version.toNat_lt
  have hkey : Parses u64 e.key e.version.toNat := IsHead.parses_uint e.isKey (by omega)
  have hversion := hkey.map UInt64.ofNat
  rwa [UInt64.ofNat_toNat] at hversion

theorem Entry.Unsigned.parses {e : Entry} (h : e.Unsigned) :
    ∃ data, Parses HandshakeMessage.decodeEntry e.bytes (e.version, data) := by
  obtain ⟨n, hn⟩ := h
  have hlt := hn.lt
  have hmagic : Parses u64 e.data n := IsHead.parses_uint hn (by omega)
  refine ⟨⟨UInt64.ofNat n⟩, fun rest => ?_⟩
  simp only [HandshakeMessage.decodeEntry, Entry.bytes, List.append_assoc, bind_run,
    parses_key e _, ForwardingVersionData.decode, hmagic rest, pure_run]

/-- Entries with unsigned data are read, whatever the widths of their heads. -/
theorem parses_entries {entries : List Entry} (h : ∀ e ∈ entries, e.Unsigned) :
    ∃ pairs, Parses (times HandshakeMessage.decodeEntry entries.length) (entriesBytes entries)
      pairs ∧ pairs.map Prod.fst = entries.map Entry.version := by
  induction entries with
  | nil => exact ⟨[], parses_pure [], rfl⟩
  | cons e entries ih =>
    obtain ⟨data, hdata⟩ := (h e (List.mem_cons_self ..)).parses
    obtain ⟨pairs, hpairs, hkeys⟩ := ih fun e' he' => h e' (List.mem_cons_of_mem _ he')
    refine ⟨(e.version, data) :: pairs, fun rest => ?_, by rw [List.map_cons, List.map_cons, hkeys]⟩
    simp only [entriesBytes, List.length_cons, times, List.map_cons, List.flatten_cons,
      List.append_assoc, bind_run, hdata _, pure_run]
    rw [← entriesBytes, hpairs rest]

/-- An entry that is read has an unsigned integer for its data. -/
theorem unsigned_of_decodeEntry {e : Entry} {more rest : Bytes}
    {pair : UInt64 × ForwardingVersionData}
    (h : HandshakeMessage.decodeEntry.run (e.bytes ++ more) = .ok (pair, rest)) :
    e.Unsigned ∧ rest = more := by
  rw [Entry.bytes, List.append_assoc] at h
  obtain ⟨version, mid, hversion, h⟩ := bind_ok_iff.mp h
  rw [parses_key e] at hversion
  cases hversion
  obtain ⟨data, mid, hdata, h⟩ := bind_ok_iff.mp h
  cases h
  obtain ⟨n, mid, hn, hdata⟩ := bind_ok_iff.mp hdata
  cases hdata
  obtain ⟨used, hused, hhead⟩ := uint_readsHead _ _ _ _ hn
  obtain ⟨heq, hmore⟩ := e.wellFormed.unique (Atom.int (by omega) hhead).wellFormed hused
  exact ⟨⟨n, heq ▸ hhead⟩, hmore.symm⟩

/-- Entries that are read have unsigned data. -/
theorem unsigned_of_times {entries : List Entry} {more rest : Bytes}
    {pairs : List (UInt64 × ForwardingVersionData)}
    (h : (times HandshakeMessage.decodeEntry entries.length).run (entriesBytes entries ++ more) =
      .ok (pairs, rest)) : ∀ e ∈ entries, e.Unsigned := by
  induction entries generalizing pairs rest with
  | nil => exact fun e he => absurd he List.not_mem_nil
  | cons e entries ih =>
    rw [entriesBytes, List.map_cons, List.flatten_cons, List.append_assoc, ← entriesBytes] at h
    obtain ⟨pair, mid, hpair, h⟩ := bind_ok_iff.mp h
    obtain ⟨he, rfl⟩ := unsigned_of_decodeEntry hpair
    obtain ⟨pairs', mid, hpairs, -⟩ := bind_ok_iff.mp h
    intro e' he'
    rcases List.mem_cons.mp he' with rfl | he'
    · exact he
    · exact ih hpairs e' he'

/-- The table must come in definite form. -/
theorem decode_heads (p : Proposal) (rest : Bytes) :
    HandshakeMessage.decode.run (p.outer ++ (p.label ++ (p.table ++ rest))) =
      if p.indefinite then .error (.message "expected definite map")
      else ((fun pairs => .propose (HandshakeMessage.insertAll pairs)) <$>
        times HandshakeMessage.decodeEntry p.entries.length).run rest := by
  have houter : ∀ more, array.run (p.outer ++ more) = .ok (some 2, more) := p.isOuter
  have hlabel : ∀ more, u16.run (p.label ++ more) = .ok (0, more) :=
    IsHead.parses_uint p.isLabel (by omega)
  have htable : ∀ more, map.run (p.table ++ more) =
      .ok (if p.indefinite then none else some p.entries.length, more) := p.isTable
  simp only [HandshakeMessage.decode, bind_run, houter, hlabel, htable]
  by_cases hp : p.indefinite = true
  · simp only [if_pos hp, fail_run]
  · simp only [if_neg hp, bind_run, map_run, pure_run]

/-- Whatever is decoded came in a definite table of unsigned integers. -/
theorem unsigned_of_decode {p : Proposal} {m : HandshakeMessage} {rest : Bytes}
    (h : HandshakeMessage.decode.run p.bytes = .ok (m, rest)) :
    p.indefinite = false ∧ ∀ e ∈ p.entries, e.Unsigned := by
  rw [Proposal.bytes, List.append_assoc, List.append_assoc, List.append_assoc, decode_heads] at h
  by_cases hp : p.indefinite = true
  · rw [if_pos hp] at h
    cases h
  · rw [if_neg hp, map_run] at h
    refine ⟨by simpa using hp, ?_⟩
    cases htimes : (times HandshakeMessage.decodeEntry p.entries.length).run
        (entriesBytes p.entries ++ if p.indefinite then [breakByte] else []) with
    | error e =>
      rw [htimes] at h
      cases h
    | ok r => exact unsigned_of_times htimes

/-- A definite table of unsigned integers is decoded with all its versions. -/
theorem decode_of_unsigned {p : Proposal} (hp : p.indefinite = false)
    (h : ∀ e ∈ p.entries, e.Unsigned) :
    ∃ versions, HandshakeMessage.decode.run p.bytes = .ok (.propose versions, []) ∧
      ∀ e ∈ p.entries, e.version ∈ versions := by
  obtain ⟨pairs, hpairs, hkeys⟩ := parses_entries h
  refine ⟨HandshakeMessage.insertAll pairs, ?_, ?_⟩
  · rw [Proposal.bytes, List.append_assoc, List.append_assoc, List.append_assoc, decode_heads]
    simp only [hp, Bool.false_eq_true, if_false, map_run, hpairs []]
  · intro e he
    have hmem : e.version ∈ pairs.map Prod.fst := by
      rw [hkeys]
      exact List.mem_map_of_mem he
    exact Tables.mem_insertEntries.mpr (Or.inr hmem)

theorem responders_accept {versions : VersionTable} (h : 1 ∈ versions) (magic : UInt64)
    (serverMagic : UInt32) :
    (traceAcceptor magic (.propose versions)).reply = some (.accept 1 ⟨magic⟩) ∧
    (serverResponder serverMagic (.propose versions)).reply =
      some (.accept 1 ⟨serverMagic.toUInt64⟩) ∧
    (acceptingReForwarder magic (.propose versions)).reply = some (.accept 1 ⟨magic⟩) := by
  simp only [traceAcceptor, serverResponder, acceptingReForwarder, respond_propose, if_pos h,
    and_self]

/-- A proposal of version 1 leads to agreement exactly when its table is definite and the
data of every other version is an unsigned integer as well. -/
theorem agreed_iff (p : Proposal) (hone : p.OffersV1) :
    Agreed p ↔ p.indefinite = false ∧ ∀ e ∈ p.entries, e.Unsigned := by
  constructor
  · intro h'
    obtain ⟨m, hrun, -⟩ := h'
    exact unsigned_of_decode hrun
  · intro h'
    obtain ⟨hp, h⟩ := h'
    obtain ⟨versions, hrun, hmem⟩ := decode_of_unsigned hp h
    obtain ⟨e, he, hversion, -⟩ := hone
    have hkey := hmem e he
    rw [hversion] at hkey
    exact ⟨.propose versions, hrun, responders_accept hkey⟩

/-! Version 1 beside a second version. -/

theorem isHead_array_two : IsHead 4 (some 2) (encodeArray 2) :=
  isHead_head (by omega) (by omega)

theorem isHead_map_two : IsHead 5 (some 2) (encodeMap 2) := isHead_head (by omega) (by omega)

theorem isHead_uint {n : ℕ} (hn : n < 2 ^ 64) : IsHead 0 (some n) (encodeUInt n) :=
  isHead_head (by omega) hn

theorem isHead_version (version : UInt64) :
    IsHead 0 (some version.toNat) (encodeUInt version.toNat) := isHead_uint version.toNat_lt

theorem wellFormed_uint {n : ℕ} (hn : n < 2 ^ 64) : WellFormed (encodeUInt n) :=
  isHead_int (by omega) (isHead_uint hn)

def magic : Bytes := encodeUInt 764824073

theorem wellFormed_magic : WellFormed magic := wellFormed_uint (by omega)

def magicAndFlag : Bytes := encodeArray 2 ++ (magic ++ encodeBool false)

theorem wellFormed_magicAndFlag : WellFormed magicAndFlag := by
  have hflag : WellFormed (encodeBool false) := bool_reads.wellFormed (bool_run false)
  have hpair := Items.array isHead_array_two (wellFormed_magic.append hflag) Items.nil
  rwa [List.append_nil] at hpair

def offersBoth (data : Bytes) (h : WellFormed data) : Proposal where
  outer := encodeArray 2
  label := encodeUInt (0 : UInt64).toNat
  table := encodeMap 2
  indefinite := false
  entries :=
    [⟨1, encodeUInt (1 : UInt64).toNat, magic, isHead_version 1, wellFormed_magic⟩,
      ⟨2, encodeUInt (2 : UInt64).toNat, data, isHead_version 2, h⟩]
  isOuter := isHead_array_two
  isLabel := isHead_version 0
  isTable := isHead_map_two

theorem offersV1_offersBoth (data : Bytes) (h : WellFormed data) :
    (offersBoth data h).OffersV1 :=
  ⟨_, List.mem_cons_self .., rfl, 764824073, isHead_uint (by omega)⟩

/-- A second version with a magic does no harm. -/
theorem agreed_iff_magics : Agreed (offersBoth magic wellFormed_magic) := by
  apply (agreed_iff _ (offersV1_offersBoth magic wellFormed_magic)).mpr
  refine ⟨rfl, ?_⟩
  intro e he
  simp only [offersBoth, List.mem_cons, List.not_mem_nil, or_false] at he
  rcases he with rfl | rfl
  · exact ⟨764824073, isHead_uint (by omega)⟩
  · exact ⟨764824073, isHead_uint (by omega)⟩

/-- A second version with a magic and a flag makes the decoder reject the proposal. -/
theorem flag_not_agreed :
    (offersBoth magicAndFlag wellFormed_magicAndFlag).OffersV1 ∧
    HandshakeMessage.decode.run (offersBoth magicAndFlag wellFormed_magicAndFlag).bytes =
      .error .typeMismatch ∧
    ¬ Agreed (offersBoth magicAndFlag wellFormed_magicAndFlag) := by
  have hrun : HandshakeMessage.decode.run
      (offersBoth magicAndFlag wellFormed_magicAndFlag).bytes = .error .typeMismatch := by
    decide
  refine ⟨offersV1_offersBoth _ _, hrun, ?_⟩
  intro h
  obtain ⟨m, hm, -⟩ := h
  rw [hrun] at hm
  cases hm

end Hermod.NewerPeers
