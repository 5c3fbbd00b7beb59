import Hermod.ProtocolMessages

/-!
The reference encoding that the documentation gives for the Haskell peer, and its
comparison with the encoder. The rules are those of Generic Serialise: products
carry their constructor index first, constructors without fields are one-element
arrays, newtypes are two-element arrays, and a list is a single byte when empty and
an indefinite-length array otherwise. The encoder follows all of them but the last.
-/
namespace Hermod.HaskellFormat

open Decoding Cbor ProtocolTypes ProtocolMessages

def product (index : ℕ) (fields : List Bytes) : Bytes :=
  encodeArray (fields.length + 1) ++ encodeUInt index ++ fields.flatten

def nullary (index : ℕ) : Bytes := encodeArray 1 ++ encodeUInt index

def newtype (value : Bytes) : Bytes := encodeArray 2 ++ encodeUInt 0 ++ value

def maybe : Option Bytes → Bytes
  | none => encodeArray 0
  | some x => encodeArray 1 ++ x

def list : List Bytes → Bytes
  | [] => [0x80]
  | x :: xs => 0x9f :: (x :: xs).flatten ++ [0xff]

def utcTime (secs : ℤ) (psecs : ℕ) : Bytes :=
  encodeTag 1000 ++ encodeMap 2 ++ encodeUInt 1 ++ encodeInt secs ++
    encodeInt (-12) ++ encodeUInt psecs

def traceObject (t : TraceObject) : Bytes :=
  product 0
    [maybe (t.toHuman.map encodeStr), encodeStr t.toMachine,
      list (t.toNamespace.map encodeStr), nullary t.toSeverity.toNat, nullary t.toDetails.toNat,
      utcTime t.toTimestamp.timestamp (t.toTimestamp.timestampSubsecNanos * 1000),
      encodeStr t.toHostname, encodeStr t.toThreadId]

def message : Message → Bytes
  | .traceObjectsRequest req =>
    product 1 [encodeBool req.blocking, newtype (encodeUInt req.numberOfTraceObjects.toNat)]
  | .traceObjectsReply reply => product 3 [list (reply.traceObjects.map traceObject)]
  | .done => nullary 2

/-- A definite array head never starts with the byte of an indefinite one. -/
theorem encodeArray_append_ne (n : ℕ) (bs cs : Bytes) : encodeArray n ++ bs ≠ 0x9f :: cs := by
  obtain ⟨info, arg, hi, h⟩ := head_eq_cons 4 n
  intro heq
  rw [encodeArray, h, List.cons_append, List.cons.injEq] at heq
  have hinfo := infoOf_initialByte (by omega : 4 < 8) (by omega : info < 32)
  rw [heq.1] at hinfo
  have h9f : infoOf 0x9f = 31 := rfl
  omega

theorem encode_request (req : MsgTraceObjectsRequest) :
    (Message.traceObjectsRequest req).encode = message (.traceObjectsRequest req) := by
  simp only [Message.encode, message, product, newtype, List.length_cons, List.length_nil,
    List.flatten_cons, List.flatten_nil, List.append_nil, List.append_assoc]

theorem encode_empty_reply :
    (Message.traceObjectsReply ⟨[]⟩).encode = message (.traceObjectsReply ⟨[]⟩) := rfl

theorem encode_done : Message.done.encode = message .done := rfl

theorem encode_reply_ne (t : TraceObject) (ts : List TraceObject) :
    (Message.traceObjectsReply ⟨t :: ts⟩).encode ≠ message (.traceObjectsReply ⟨t :: ts⟩) := by
  intro heq
  simp only [Message.encode, message, product, list, List.map_cons, List.length_cons,
    List.length_nil, List.flatten_cons, List.flatten_nil, List.append_nil, List.append_assoc,
    List.cons_append] at heq
  have htail := List.append_cancel_left (List.append_cancel_left heq)
  exact encodeArray_append_ne _ _ _ htail

/-- The encoder writes the reference bytes for every message that carries no trace,
and for no other. -/
theorem encode_eq_haskell_iff (m : Message) :
    m.encode = message m ↔ ∀ reply, m = .traceObjectsReply reply → reply.traceObjects = [] := by
  rcases m with req | ⟨_ | ⟨t, ts⟩⟩ | _
  · exact ⟨fun _ _ h => (by cases h), fun _ => encode_request req⟩
  · exact ⟨fun _ reply h => (by cases h; rfl), fun _ => encode_empty_reply⟩
  · constructor
    · intro h
      exact absurd h (encode_reply_ne t ts)
    · intro h
      exact absurd (h ⟨t :: ts⟩ rfl) (List.cons_ne_nil t ts)
  · exact ⟨fun _ _ h => (by cases h), fun _ => encode_done⟩

/-- A reply with a single trace is written with the head `0x81` for its list. -/
theorem encode_single_trace_ne :
    let t : TraceObject := ⟨none, "{}", ["Test"], .info, .dNormal, ⟨0, 0, by decide⟩, "host", "1"⟩
    (Message.traceObjectsReply ⟨[t]⟩).encode ≠ message (.traceObjectsReply ⟨[t]⟩) := by
  intro t heq
  exact encode_reply_ne t [] heq

end Hermod.HaskellFormat
