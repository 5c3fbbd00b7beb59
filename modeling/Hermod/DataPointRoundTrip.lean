import Hermod.DataPointMessages
import Hermod.ProtocolMessages

/-!
What a stream of DataPoint messages is read as. The Haskell side writes lists in
indefinite form and lazy byte strings in chunks; whatever mix of forms a peer chooses, on
both levels, the same messages come back with their byte strings put together.
-/
namespace Hermod.DataPointMessages

open Decoding Decoder Cbor ProtocolTypes ProtocolMessages

def beginBytes : UInt8 := initialByte 2 31

inductive BytesForm : Bytes → Bytes → Prop
  | definite (bytes : Bytes) : BytesForm bytes (encodeBytes bytes)
  | chunked (chunks : List Bytes) :
      BytesForm chunks.flatten (beginBytes :: (chunks.map encodeBytes).flatten ++ [breakByte])

inductive ValueForm : Option Bytes → Bytes → Prop
  | nothing : ValueForm none (encodeArray 0)
  | just {bytes enc : Bytes} (h : BytesForm bytes enc) :
      ValueForm (some bytes) (encodeArray 1 ++ enc)

def encodeItem (name : String) (value : Bytes) : Bytes :=
  encodeArray 2 ++ encodeStr name ++ value

/-- The bytes a peer may send for a message: those of the encoder, or those of a peer that
chooses a form for the list and for each byte string. -/
inductive WireForm : DataPointMessage → Bytes → Prop
  | encoder (m : DataPointMessage) : WireForm m m.encode
  | names (indefinite : Bool) (names : List String) :
      WireForm (.request names)
        (encodeArray 2 ++ encodeUInt 1 ++ encodeList indefinite (names.map encodeStr))
  | items (indefinite : Bool) (ps : List ((String × Option Bytes) × Bytes))
      (hforms : ∀ p ∈ ps, ValueForm p.1.2 p.2) :
      WireForm (.reply (ps.map Prod.fst))
        (encodeArray 2 ++ encodeUInt 3 ++
          encodeList indefinite (ps.map fun p => encodeItem p.1.1 p.2))

/-! Lengths that fit the 64-bit `usize` of a Rust `String` or `Vec`. -/

def Sized : DataPointMessage → Prop
  | .request names => names.length < 2 ^ 64 ∧ ∀ name ∈ names, SizedStr name
  | .reply items => items.length < 2 ^ 64 ∧
      ∀ item ∈ items, SizedStr item.1 ∧ ∀ bytes ∈ item.2, bytes.length < 2 ^ 64
  | .done => True

abbrev SizedMessage := { m : DataPointMessage // Sized m }

theorem encodeBytes_ne_break (bs : Bytes) :
    ∃ b more, encodeBytes bs = b :: more ∧ b ≠ breakByte := by
  obtain ⟨b, more, h, hb⟩ := @head_ne_break 2 bs.length (by omega)
  exact ⟨b, more ++ bs, by rw [encodeBytes, h]; rfl, hb⟩

/-- Chunks up to the break are read one by one. -/
theorem parses_chunks {chunks : List Bytes} (hlen : ∀ c ∈ chunks, c.length < 2 ^ 64) :
    Parses (untilByte breakByte bytes) ((chunks.map encodeBytes).flatten ++ [breakByte])
      chunks := by
  have hps := @parses_untilByte _ breakByte bytes (chunks.map fun c => (c, encodeBytes c))
    (by
      intro p hp
      obtain ⟨c, hc, rfl⟩ := List.mem_map.mp hp
      exact bytes_run (hlen c hc))
    (by
      intro p hp
      obtain ⟨c, hc, rfl⟩ := List.mem_map.mp hp
      exact encodeBytes_ne_break c)
  simpa only [encodings, List.map_map, Function.comp_def, List.map_id'] using hps

/-- Either form of a byte string is read as its bytes. -/
theorem BytesForm.parses {bs enc : Bytes} (h : BytesForm bs enc) (hlen : bs.length < 2 ^ 64) :
    Parses bytesIter enc bs := by
  intro rest
  cases h with
  | definite =>
    simp only [bytesIter, encodeBytes, List.append_assoc, bind_run,
      headOf_run_head (by omega : 2 < 8) hlen, take_run_append bs rest rfl]
  | chunked chunks =>
    have hchunk : ∀ c ∈ chunks, c.length < 2 ^ 64 := by
      intro c hc
      have hle := (List.sublist_flatten_of_mem hc).length_le
      omega
    have hhead : (headOf 2).run (beginBytes :: ((chunks.map encodeBytes).flatten ++ [breakByte] ++
        rest)) = .ok (none, (chunks.map encodeBytes).flatten ++ [breakByte] ++ rest) :=
      headOf_run_indefinite (by omega) _
    rw [List.cons_append, List.cons_append]
    simp only [bytesIter, bind_run, hhead, map_run, parses_chunks hchunk rest]

theorem parses_item {name : String} {value : Option Bytes} {enc : Bytes} (hname : SizedStr name)
    (hvalue : ∀ bytes ∈ value, bytes.length < 2 ^ 64) (h : ValueForm value enc) :
    Parses DataPointMessage.decodeReplyItem (encodeItem name enc) (name, value) := by
  intro rest
  cases h with
  | nothing =>
    simp only [DataPointMessage.decodeReplyItem, encodeItem, List.append_assoc, bind_run,
      array_run (by omega : 2 < 2 ^ 64), str_run hname, array_run (by omega : 0 < 2 ^ 64),
      pure_run]
  | just h =>
    simp only [DataPointMessage.decodeReplyItem, encodeItem, List.append_assoc, bind_run,
      array_run (by omega : 2 < 2 ^ 64), str_run hname, array_run (by omega : 1 < 2 ^ 64),
      h.parses (hvalue _ rfl) rest, pure_run]

theorem parses_request (indefinite : Bool) {names : List String} (hnames : Sized (.request names)) :
    Parses DataPointMessage.decode
      (encodeArray 2 ++ encodeUInt 1 ++ encodeList indefinite (names.map encodeStr))
      (.request names) := by
  have hlist := parses_namespace indefinite names hnames.1 hnames.2
  intro rest
  simp only [DataPointMessage.decode, List.append_assoc, bind_run,
    array_run (by omega : 2 < 2 ^ 64), u8_run (by omega : 1 < 2 ^ 8), hlist rest, pure_run]

/-- A reply is read in either form of its list and any form of its values. -/
theorem parses_reply (indefinite : Bool) (ps : List ((String × Option Bytes) × Bytes))
    (hforms : ∀ p ∈ ps, ValueForm p.1.2 p.2) (hsized : Sized (.reply (ps.map Prod.fst))) :
    Parses DataPointMessage.decode
      (encodeArray 2 ++ encodeUInt 3 ++
        encodeList indefinite (ps.map fun p => encodeItem p.1.1 p.2))
      (.reply (ps.map Prod.fst)) := by
  obtain ⟨hlen, hitems⟩ := hsized
  have hlist := @parses_arrayIter _ DataPointMessage.decodeReplyItem indefinite
    (ps.map fun p => (p.1, encodeItem p.1.1 p.2))
    (by simpa only [List.length_map] using hlen)
    (by
      intro q hq
      obtain ⟨p, hp, rfl⟩ := List.mem_map.mp hq
      obtain ⟨hname, hvalue⟩ := hitems p.1 (List.mem_map_of_mem hp)
      exact parses_item hname hvalue (hforms p hp))
    (by
      intro q hq
      obtain ⟨p, hp, rfl⟩ := List.mem_map.mp hq
      simp only [encodeItem, List.append_assoc]
      exact ⟨_, _, rfl, by decide⟩)
  simp only [List.map_map, Function.comp_def] at hlist
  intro rest
  simp only [DataPointMessage.decode, List.append_assoc, bind_run,
    array_run (by omega : 2 < 2 ^ 64), u8_run (by omega : 3 < 2 ^ 8), hlist rest, pure_run]

theorem valueForm_encodeValue (value : Option Bytes) :
    ValueForm value (DataPointMessage.encodeValue value) := by
  cases value with
  | none => exact ValueForm.nothing
  | some bytes => exact ValueForm.just (BytesForm.definite bytes)

/-- What the encoder writes is read back. -/
theorem parses_encode {m : DataPointMessage} (hm : Sized m) :
    Parses DataPointMessage.decode m.encode m := by
  cases m with
  | request names =>
    have hrequest := parses_request false hm
    simpa only [DataPointMessage.encode, encodeList, Bool.false_eq_true, if_false,
      List.length_map, List.append_assoc] using hrequest
  | reply items =>
    -- The encoder's reply is the one of definite forms throughout.
    have hreply := parses_reply false
      (items.map fun item => (item, DataPointMessage.encodeValue item.2))
      (by
        intro p hp
        obtain ⟨item, -, rfl⟩ := List.mem_map.mp hp
        exact valueForm_encodeValue item.2)
      (by simpa only [List.map_map, Function.comp_def, List.map_id'] using hm)
    simp only [List.map_map, Function.comp_def, List.map_id'] at hreply
    have hitem : DataPointMessage.encodeReplyItem = fun item =>
        encodeItem item.1 (DataPointMessage.encodeValue item.2) := rfl
    simpa only [DataPointMessage.encode, hitem, encodeList, Bool.false_eq_true, if_false,
      List.length_map, List.append_assoc] using hreply
  | done =>
    intro rest
    simp only [DataPointMessage.encode, DataPointMessage.decode, List.append_assoc, bind_run,
      array_run (by omega : 1 < 2 ^ 64), u8_run (by omega : 2 < 2 ^ 8), pure_run]

theorem WireForm.parses {m : DataPointMessage} {bs : Bytes} (h : WireForm m bs) (hm : Sized m) :
    Parses DataPointMessage.decode bs m := by
  cases h with
  | encoder => exact parses_encode hm
  | names indefinite => exact parses_request indefinite hm
  | items indefinite ps hforms => exact parses_reply indefinite ps hforms hm

/-- However a stream of messages is cut into chunks, the receiver gets the messages sent, in
order, and ends with an empty buffer. Every strict prefix of an encoding makes it wait. -/
theorem receive_dataPoints (sent : List (SizedMessage × Bytes))
    (hforms : ∀ p ∈ sent, WireForm p.1.val p.2) (chunks : List Bytes)
    (hchunks : chunks.flatten = (sent.map Prod.snd).flatten) :
    receive DataPointMessage.decode [] chunks = (sent.map fun p => p.1.val, .ok []) ∧
      ∀ p ∈ sent, ∀ pre suffix, p.2 = pre ++ suffix → suffix ≠ [] →
        DataPointMessage.decode.run pre = .error .endOfInput := by
  refine receive_mapped (f := Subtype.val) sent ?_ rfl chunks hchunks
  intro p hp
  exact (hforms p hp).parses p.1.property

/-- A reply in the Haskell form with a value in two chunks, cut inside the value, then
`Done`. -/
theorem receive_dataPoints_haskell :
    let reply := encodeArray 2 ++ encodeUInt 3 ++ encodeList true
      [encodeItem "a" (encodeArray 1 ++
          (beginBytes :: ([[0x7b], [0x7d]].map encodeBytes).flatten ++ [breakByte])),
        encodeItem "b" (encodeArray 0)]
    receive DataPointMessage.decode []
        [reply.take 8, reply.drop 8 ++ DataPointMessage.done.encode] =
      ([.reply [("a", some [0x7b, 0x7d]), ("b", none)], .done], .ok []) := by
  intro reply
  have hsized : Sized (.reply [("a", some [0x7b, 0x7d]), ("b", none)]) := by
    unfold Sized SizedStr
    decide
  have hrun := receive_dataPoints
    [(⟨.reply [("a", some [0x7b, 0x7d]), ("b", none)], hsized⟩, reply),
      (⟨.done, trivial⟩, DataPointMessage.done.encode)]
    (by
      intro p hp
      simp only [List.mem_cons, List.not_mem_nil, or_false] at hp
      rcases hp with rfl | rfl
      · refine WireForm.items true
          [(("a", some [0x7b, 0x7d]), encodeArray 1 ++
              (beginBytes :: ([[0x7b], [0x7d]].map encodeBytes).flatten ++ [breakByte])),
            (("b", none), encodeArray 0)] ?_
        intro p hp
        simp only [List.mem_cons, List.not_mem_nil, or_false] at hp
        rcases hp with rfl | rfl
        · exact ValueForm.just (BytesForm.chunked [[0x7b], [0x7d]])
        · exact ValueForm.nothing
      · exact WireForm.encoder .done)
    [reply.take 8, reply.drop 8 ++ DataPointMessage.done.encode]
    (by
      simp only [List.flatten_cons, List.flatten_nil, List.append_nil, ← List.append_assoc,
        List.take_append_drop, List.map_cons, List.map_nil])
  exact hrun.1

end Hermod.DataPointMessages
