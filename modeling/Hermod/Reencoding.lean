import Hermod.DataPointRoundTrip
import Hermod.DeclaredLengths
import Hermod.EkgRoundTrip
import Hermod.HandshakeRoundTrip

/-!
Messages that are decoded and encoded again, as a tracer does that forwards what it receives.
A peer may write a message in many forms. Whichever it is, what the decoder makes of it is a
message that the encoder can write, and the next peer reads the same message.
-/
namespace Hermod.Reencoding

open Decoding Decoder Cbor ProtocolTypes ProtocolMessages DeclaredLengths

/-! Lists, strings and numbers. -/

theorem yields_length {major : ℕ} :
    Yields (headOf major) fun len => ∀ n, len = some n → n < 2 ^ 64 :=
  yields_of_reads (headOf_lt major) fun _ _ hlen _ => hlen

/-- A list that is decoded is no longer than the buffer. -/
theorem yields_arrayIter {α : Type} {d : Decoder α} {S : α → Prop} (h : Yields d S)
    (hd : Consuming d) :
    Yields (arrayIter d) fun as => as.length < 2 ^ 64 ∧ ∀ a ∈ as, S a := by
  refine Yields.bind yields_length fun len hlen => ?_
  cases len with
  | some n =>
    refine (h.times n).imp fun as has => ⟨?_, has.2⟩
    rw [has.1]
    exact hlen n rfl
  | none =>
    intro bs as rest hrun hbs
    obtain ⟨fuel, hfuel⟩ := byLength_ok hrun
    obtain ⟨hcount, hall⟩ := h.untilByteFuel hd breakByte fuel hfuel hbs
    exact ⟨by omega, hall⟩

theorem utf8_of_fromUTF8? {bs : Bytes} {s : String}
    (h : String.fromUTF8? ⟨bs.toArray⟩ = some s) : utf8 s = bs := by
  unfold String.fromUTF8? at h
  split at h
  · rw [← Option.some.inj h]
    rfl
  · cases h

theorem yields_take (n : ℕ) : Yields (take n) fun a => a.length < 2 ^ 64 :=
  yields_of_reads (take_reads n) fun a used h hlen => by rwa [h.1] at hlen

/-- A string that is decoded is no longer than the buffer. -/
theorem yields_str : Yields str SizedStr := by
  refine (yields_any (headOf 3)).bind fun len _ => ?_
  cases len with
  | none => exact yields_fail
  | some n =>
    refine (yields_take n).bind fun bs hbs => ?_
    cases hs : String.fromUTF8? ⟨bs.toArray⟩ with
    | none => exact yields_fail
    | some s =>
      apply yields_pure
      rwa [SizedStr, utf8_of_fromUTF8? hs]

theorem yields_uint (max : ℕ) : Yields (uint max) fun n => n ≤ max := by
  refine (yields_any (headOf 0)).bind fun arg _ => ?_
  cases arg with
  | none => exact yields_fail
  | some n => exact yields_ite (fun hn => yields_pure hn) fun _ => yields_fail

theorem bytes_length_le : Reads Cbor.bytes fun a used => a.length ≤ used.length := by
  apply (headOf_reads 2).bind
  intro arg h _
  cases arg with
  | none => exact reads_fail
  | some n =>
    refine (take_reads n).mono fun a used hused => ?_
    rw [hused.1, List.length_append]
    exact Nat.le_add_left ..

theorem flatten_length_le {as parts : List Bytes}
    (h : List.Forall₂ (fun (a used : Bytes) => a.length ≤ used.length) as parts) :
    as.flatten.length ≤ parts.flatten.length := by
  induction h with
  | nil => exact Nat.le_refl _
  | cons hle _ ih =>
    rw [List.flatten_cons, List.flatten_cons, List.length_append, List.length_append]
    omega

/-- The chunks of a byte string are not longer together than what they were read from. -/
theorem yields_bytesIter : Yields bytesIter fun a => a.length < 2 ^ 64 := by
  refine (yields_any (headOf 2)).bind fun len _ => ?_
  cases len with
  | some n => exact yields_take n
  | none =>
    refine yields_of_reads ((bytes_length_le.untilByte breakByte).map (g := List.flatten)
      (Q := fun a used => a.length ≤ used.length) ?_) fun a used h hlen => by omega
    intro as used h
    obtain ⟨parts, rfl, hparts⟩ := h
    rw [List.length_append]
    exact (flatten_length_le hparts).trans (Nat.le_add_right ..)

/-! The four protocols. -/

theorem yields_maybe : Yields decodeMaybe fun h => ∀ s ∈ h, SizedStr s := by
  refine (yields_any array).bind fun len _ => ?_
  split
  · exact yields_pure fun _ h => by cases h
  · refine yields_str.map fun s hs s' hs' => ?_
    rwa [← Option.some.inj hs']
  · exact yields_fail

theorem yields_trace : Yields TraceObject.decode SizedTrace := by
  refine (yields_any array).bind fun len _ => ?_
  refine yields_ite (fun _ => yields_fail) fun _ => ?_
  refine (yields_any u8).bind fun _ _ => ?_
  refine yields_maybe.bind fun toHuman hhuman => ?_
  refine yields_str.bind fun toMachine hmachine => ?_
  refine (yields_arrayIter yields_str str_consuming).bind fun toNamespace hnamespace => ?_
  refine (yields_any Severity.decode).bind fun toSeverity _ => ?_
  refine (yields_any DetailLevel.decode).bind fun toDetails _ => ?_
  refine (yields_any DateTime.decode).bind fun toTimestamp _ => ?_
  refine yields_str.bind fun toHostname hhostname => ?_
  refine yields_str.bind fun toThreadId hthreadId => ?_
  exact yields_pure ⟨hhuman, hmachine, hnamespace.1, hnamespace.2, hhostname, hthreadId⟩

theorem yields_message : Yields Message.decode ProtocolMessages.Sized := by
  refine (yields_any array).bind fun _ _ => (yields_any u16).bind fun tag _ => ?_
  split
  · refine (yields_any bool).bind fun _ _ => (yields_any array).bind fun _ _ => ?_
    exact (yields_any u16).bind fun _ _ => (yields_any u16).bind fun _ _ => yields_pure trivial
  · exact yields_pure trivial
  · exact (yields_arrayIter yields_trace decode_consuming).bind fun traces h => yields_pure h
  · exact yields_fail

section Ekg

open EkgMessages

/-- The text of a value of an unknown kind. -/
theorem sizedStr_placeholder {tag : ℕ} (h : tag ≤ 255) :
    SizedStr ("<tag " ++ toString tag ++ ">") := by
  have hall : ∀ tag < 256, SizedStr ("<tag " ++ toString tag ++ ">") := by
    unfold SizedStr
    decide +kernel
  exact hall tag (by omega)

theorem yields_value : Yields EkgValue.decode SizedValue := by
  refine (yields_any array).bind fun _ _ => (yields_uint 0xff).bind fun tag htag => ?_
  split
  · exact (yields_any i64).bind fun _ _ => yields_pure trivial
  · exact (yields_any i64).bind fun _ _ => yields_pure trivial
  · exact yields_str.bind fun s hs => yields_pure hs
  · exact (yields_any skip).bind fun _ _ => yields_pure (sizedStr_placeholder htag)

theorem yields_pair :
    Yields EkgMessage.decodePair fun p => SizedStr p.1 ∧ SizedValue p.2 := by
  refine (yields_any array).bind fun _ _ => yields_str.bind fun name hname => ?_
  exact yields_value.bind fun value hvalue => yields_pure ⟨hname, hvalue⟩

theorem yields_ekgMessage : Yields EkgMessage.decode EkgMessages.Sized := by
  refine (yields_any array).bind fun _ _ => (yields_any u8).bind fun tag _ => ?_
  split
  · exact (yields_any array).bind fun _ _ => (yields_any u8).bind fun _ _ => yields_pure trivial
  · exact yields_pure trivial
  · refine (yields_any array).bind fun _ _ => (yields_any u8).bind fun _ _ => ?_
    refine (yields_arrayIter yields_pair decodePair_consuming).bind fun pairs hpairs =>
      yields_pure ⟨?_, ?_⟩
    · have hlen := length_foldl_insert_le pairs (∅ : Metrics)
      have hempty : (∅ : Metrics).entries.length = 0 := rfl
      have hpairs := hpairs.1
      rw [insertAll_eq, Tables.insertEntries]
      omega
    · intro e he
      rcases Tables.mem_entries_insertEntries he with hempty | hp
      · cases hempty
      · exact hpairs.2 _ hp
  · exact yields_fail

end Ekg

section DataPoints

open DataPointMessages

theorem yields_replyItem : Yields DataPointMessage.decodeReplyItem fun item =>
    SizedStr item.1 ∧ ∀ bytes ∈ item.2, bytes.length < 2 ^ 64 := by
  refine (yields_any array).bind fun _ _ => yields_str.bind fun name hname => ?_
  refine (yields_any array).bind fun len _ => ?_
  split
  · exact yields_pure ⟨hname, fun _ h => by cases h⟩
  · refine yields_bytesIter.bind fun buf hbuf => yields_pure ⟨hname, fun bytes h => ?_⟩
    rwa [← Option.some.inj h]
  · exact yields_fail

theorem yields_dataPointMessage : Yields DataPointMessage.decode DataPointMessages.Sized := by
  refine (yields_any array).bind fun _ _ => (yields_any u8).bind fun tag _ => ?_
  split
  · exact (yields_arrayIter yields_str str_consuming).bind fun names h => yields_pure h
  · exact yields_pure trivial
  · exact (yields_arrayIter yields_replyItem decodeReplyItem_consuming).bind
      fun items h => yields_pure h
  · exact yields_fail

end DataPoints

section Handshake

open Handshake

theorem yields_handshakeMessage : Yields HandshakeMessage.decode Handshake.Sized := by
  refine (yields_any array).bind fun _ _ => (yields_any u16).bind fun label _ => ?_
  split
  · refine Yields.bind yields_length fun len hlen => ?_
    cases len with
    | none => exact yields_fail
    | some n =>
      refine ((yields_any HandshakeMessage.decodeEntry).times n).bind fun entries h =>
        yields_pure ?_
      have hentries : (HandshakeMessage.insertAll entries).entries.length ≤
          (∅ : VersionTable).entries.length + entries.length := length_foldl_insert_le entries ∅
      have hempty : (∅ : VersionTable).entries.length = 0 := rfl
      have hn := hlen n rfl
      have hcount := h.1
      unfold Handshake.Sized
      omega
  · refine (yields_any HandshakeMessage.decodeVersion).bind fun _ _ => ?_
    exact (yields_any ForwardingVersionData.decode).bind fun _ _ => yields_pure trivial
  · refine Yields.bind yields_length fun len hlen => ?_
    cases len with
    | none => exact yields_fail
    | some n =>
      refine ((yields_any HandshakeMessage.decodeVersion).times n).bind fun versions h =>
        yields_pure ?_
      show versions.length < 2 ^ 64
      rw [h.1]
      exact hlen n rfl
  · exact yields_fail

end Handshake

/-! The way on. -/

/-- Messages, each decoded from a receive buffer, are read again by the next peer when they are
encoded one after the other, however their bytes are cut into chunks. -/
def Reencodes {μ : Type} (encode : μ → Bytes) (d : Decoder μ) (Same : μ → μ → Prop) : Prop :=
  ∀ (taken : List (μ × Bytes)) (chunks : List Bytes),
    (∀ p ∈ taken, p.2.length < 2 ^ 64 ∧ ∃ rest, d.run p.2 = .ok (p.1, rest)) →
    chunks.flatten = (taken.map fun p => encode p.1).flatten →
    ∃ received, receive d [] chunks = (received, .ok []) ∧
      List.Forall₂ (fun p m => Same p.1 m) taken received

/-- A codec whose values fit, and are read back, passes on what it decodes. -/
theorem reencodes_of_yields {μ : Type} {encode : μ → Bytes} {d : Decoder μ}
    {Same : μ → μ → Prop} {Sized : μ → Prop} (hd : Yields d Sized)
    (hencode : ∀ m, Sized m → ∃ m', Same m m' ∧ Parses d (encode m) m')
    (hwait : d.run [] = .error .endOfInput) : Reencodes encode d Same := by
  intro taken chunks htaken hchunks
  have hparses : ∀ p ∈ taken.map (fun p => (p.1, encode p.1)),
      ∃ m, Same p.1 m ∧ Parses d p.2 m := by
    intro q hq
    obtain ⟨p, hp, rfl⟩ := List.mem_map.mp hq
    obtain ⟨hlen, rest, hrun⟩ := htaken p hp
    exact hencode p.1 (hd p.2 p.1 rest hrun hlen)
  have hbytes : chunks.flatten =
      ((taken.map fun p => (p.1, encode p.1)).map Prod.snd).flatten := by
    rw [hchunks, List.map_map]
    rfl
  obtain ⟨⟨received, hreceive, hall⟩, -⟩ :=
    receive_related (R := Same) _ hparses hwait chunks hbytes
  exact ⟨received, hreceive,
    (List.forall₂_map_left_iff (f := fun p : μ × Bytes => (p.1, encode p.1))).mp hall⟩

/-- Messages of all four protocols can be passed on. Those of the trace and data point
protocols stay equal, those that carry a map stay equal as maps. -/
theorem reencoded :
    Reencodes Message.encode Message.decode Eq ∧
    Reencodes DataPointMessages.DataPointMessage.encode DataPointMessages.DataPointMessage.decode
      Eq ∧
    Reencodes EkgMessages.EkgMessage.encode EkgMessages.EkgMessage.decode EkgMessages.Same ∧
    Reencodes Handshake.HandshakeMessage.encode Handshake.HandshakeMessage.decode
      Handshake.Same := by
  refine ⟨?_, ?_, ?_, ?_⟩
  · exact reencodes_of_yields yields_message
      (fun m hm => ⟨m, rfl, ProtocolMessages.parses_encode hm⟩) rfl
  · exact reencodes_of_yields yields_dataPointMessage
      (fun m hm => ⟨m, rfl, DataPointMessages.parses_encode hm⟩) rfl
  · exact reencodes_of_yields yields_ekgMessage (fun _ hm => EkgMessages.parses_encode hm) rfl
  · exact reencodes_of_yields yields_handshakeMessage (fun _ hm => Handshake.parses_encode hm) rfl

end Hermod.Reencoding
