import Hermod.ProtocolTypes

/-!
The three messages of the trace-forward protocol and their codec. The acceptor
asks for a number of traces or ends the session, the forwarder replies with a list.
The decoder accepts every list in definite and in indefinite form and ignores the
length that the outer array declares.
-/
namespace Hermod.ProtocolMessages

open Decoding Decoder Cbor ProtocolTypes

structure MsgTraceObjectsRequest where
  blocking : Bool
  numberOfTraceObjects : UInt16
  deriving DecidableEq

structure MsgTraceObjectsReply where
  traceObjects : List TraceObject
  deriving DecidableEq

inductive Message
  | traceObjectsRequest (req : MsgTraceObjectsRequest)
  | traceObjectsReply (reply : MsgTraceObjectsReply)
  | done
  deriving DecidableEq

namespace Message

def encode : Message → Bytes
  | traceObjectsRequest req =>
    encodeArray 3 ++ encodeUInt 1 ++ encodeBool req.blocking ++
      encodeArray 2 ++ encodeUInt 0 ++ encodeUInt req.numberOfTraceObjects.toNat
  | traceObjectsReply reply =>
    encodeArray 2 ++ encodeUInt 3 ++
      encodeArray reply.traceObjects.length ++ (reply.traceObjects.map TraceObject.encode).flatten
  | done => encodeArray 1 ++ encodeUInt 2

def decode : Decoder Message := do
  let _ ← array
  let tag ← u16
  match tag with
  | 1 =>
    let blocking ← bool
    let _ ← array
    let _constructorIdx ← u16
    let numberOfTraceObjects ← u16
    pure (traceObjectsRequest ⟨blocking, UInt16.ofNat numberOfTraceObjects⟩)
  | 2 => pure done
  | 3 =>
    let traceObjects ← arrayIter TraceObject.decode
    pure (traceObjectsReply ⟨traceObjects⟩)
  | _ => fail (.message "unknown message tag")

end Message

/-! The forms in which a peer may write the lists of a message. -/

def encodeList (indefinite : Bool) (elements : List Bytes) : Bytes :=
  if indefinite then beginArray :: elements.flatten ++ [breakByte]
  else encodeArray elements.length ++ elements.flatten

def encodeTraceForm (indefinite : Bool) (t : TraceObject) : Bytes :=
  encodeArray 9 ++ encodeUInt 0 ++
    encodeMaybe t.toHuman ++
    encodeStr t.toMachine ++
    encodeList indefinite (t.toNamespace.map encodeStr) ++
    t.toSeverity.encode ++
    t.toDetails.encode ++
    t.toTimestamp.encode ++
    encodeStr t.toHostname ++
    encodeStr t.toThreadId

/-- Which of the lists of a reply are indefinite: the trace list, and the namespace
of each trace by its position. -/
structure ListForms where
  traces : Bool
  namespaces : ℕ → Bool

def encodeTraceForms (namespaces : ℕ → Bool) (ts : List TraceObject) : List Bytes :=
  ts.mapIdx fun i t => encodeTraceForm (namespaces i) t

/-- The bytes a peer may send for a message: those of the encoder, or those of a
peer that writes any of the lists in indefinite form. -/
inductive WireForm : Message → Bytes → Prop
  | encoder (m : Message) : WireForm m m.encode
  | lists (ts : List TraceObject) (forms : ListForms) :
      WireForm (.traceObjectsReply ⟨ts⟩)
        (encodeArray 2 ++ encodeUInt 3 ++
          encodeList forms.traces (encodeTraceForms forms.namespaces ts))

theorem encodeTraceForm_false (t : TraceObject) : encodeTraceForm false t = t.encode := by
  simp only [encodeTraceForm, encodeList, TraceObject.encode, List.length_map, List.append_assoc,
    Bool.false_eq_true, if_false]

/-! Lengths that fit the 64-bit `usize` of a Rust `String` or `Vec`. -/

structure SizedTrace (t : TraceObject) : Prop where
  human : ∀ h ∈ t.toHuman, SizedStr h
  machine : SizedStr t.toMachine
  namespaceLength : t.toNamespace.length < 2 ^ 64
  namespaceSegments : ∀ s ∈ t.toNamespace, SizedStr s
  hostname : SizedStr t.toHostname
  threadId : SizedStr t.toThreadId

def Sized : Message → Prop
  | .traceObjectsReply reply =>
    reply.traceObjects.length < 2 ^ 64 ∧ ∀ t ∈ reply.traceObjects, SizedTrace t
  | _ => True

/-- A message that a Rust process can hold. -/
abbrev SizedMessage := { m : Message // Sized m }

/-! Reading lists back. -/

theorem head_ne_break {major n : ℕ} (hm : major < 8) :
    ∃ b bs, head major n = b :: bs ∧ b ≠ breakByte := by
  obtain ⟨info, arg, hi, h⟩ := head_eq_cons major n
  refine ⟨_, _, h, ?_⟩
  intro hb
  have hinfo := infoOf_initialByte hm (by omega : info < 32)
  rw [hb] at hinfo
  simp only [infoOf, breakByte] at hinfo
  have : (0xff : UInt8).toNat = 255 := rfl
  omega

theorem encodeStr_ne_break (s : String) : ∃ b bs, encodeStr s = b :: bs ∧ b ≠ breakByte := by
  obtain ⟨b, bs, h, hb⟩ := @head_ne_break 3 (utf8 s).length (by omega)
  exact ⟨b, bs ++ utf8 s, by rw [encodeStr, h]; rfl, hb⟩

theorem encodeTraceForm_ne_break (indefinite : Bool) (t : TraceObject) :
    ∃ b bs, encodeTraceForm indefinite t = b :: bs ∧ b ≠ breakByte := by
  simp only [encodeTraceForm, List.append_assoc]
  exact ⟨_, _, rfl, by decide⟩

/-- Items are read back in either form of a list. -/
theorem parses_arrayIter {α : Type} {item : Decoder α} (indefinite : Bool)
    (ps : List (α × Bytes)) (hlen : ps.length < 2 ^ 64) (h : ∀ p ∈ ps, Parses item p.2 p.1)
    (hstop : ∀ p ∈ ps, ∃ b bs, p.2 = b :: bs ∧ b ≠ breakByte) :
    Parses (arrayIter item) (encodeList indefinite (ps.map Prod.snd)) (ps.map Prod.fst) := by
  intro rest
  cases indefinite with
  | true =>
    have hloop := parses_untilByte ps h hstop rest
    simp only [encodings] at hloop
    simp only [encodeList, if_true, arrayIter, List.cons_append, bind_run, array_run_begin, hloop]
  | false =>
    have hloop := parses_times ps h rest
    simp only [encodings] at hloop
    simp only [encodeList, Bool.false_eq_true, if_false, arrayIter, List.append_assoc, bind_run,
      List.length_map, array_run hlen, hloop]

theorem parses_namespace (indefinite : Bool) (ns : List String) (hlen : ns.length < 2 ^ 64)
    (h : ∀ s ∈ ns, SizedStr s) :
    Parses (arrayIter str) (encodeList indefinite (ns.map encodeStr)) ns := by
  have hps := @parses_arrayIter _ str indefinite (ns.map fun s => (s, encodeStr s))
    (by simpa only [List.length_map] using hlen)
    (by
      intro p hp
      obtain ⟨s, hs, rfl⟩ := List.mem_map.mp hp
      exact str_run (h s hs))
    (by
      intro p hp
      obtain ⟨s, hs, rfl⟩ := List.mem_map.mp hp
      exact encodeStr_ne_break s)
  simpa only [List.map_map, Function.comp_def, List.map_id'] using hps

/-- A trace is read back in either form of its namespace. -/
theorem parses_trace (indefinite : Bool) {t : TraceObject} (ht : SizedTrace t) :
    Parses TraceObject.decode (encodeTraceForm indefinite t) t := by
  intro rest
  have hns := parses_namespace indefinite t.toNamespace ht.namespaceLength ht.namespaceSegments
  simp only [encodeTraceForm, TraceObject.decode, List.append_assoc, bind_run,
    array_run (by omega : 9 < 2 ^ 64), ne_eq, not_true_eq_false, if_false,
    u8_run (by omega : 0 < 2 ^ 8), maybe_run ht.human, str_run ht.machine, hns _,
    severity_run, detailLevel_run, dateTime_run, str_run ht.hostname, str_run ht.threadId,
    pure_run]

private theorem map_mapIdx {α β γ : Type} (l : List α) (f : ℕ → α → β) (g : β → γ) :
    (l.mapIdx f).map g = l.mapIdx fun i a => g (f i a) := by
  apply List.ext_getElem?
  intro i
  simp only [List.getElem?_map, List.getElem?_mapIdx, Option.map_map, Function.comp_def]

private theorem mapIdx_const {α β : Type} (l : List α) (f : α → β) :
    (l.mapIdx fun _ a => f a) = l.map f := by
  apply List.ext_getElem?
  intro i
  simp only [List.getElem?_map, List.getElem?_mapIdx]

theorem parses_traces (forms : ListForms) {ts : List TraceObject} (hlen : ts.length < 2 ^ 64)
    (h : ∀ t ∈ ts, SizedTrace t) :
    Parses (arrayIter TraceObject.decode)
      (encodeList forms.traces (encodeTraceForms forms.namespaces ts)) ts := by
  have hps := @parses_arrayIter _ TraceObject.decode forms.traces
    (ts.mapIdx fun i t => (t, encodeTraceForm (forms.namespaces i) t))
    (by simpa only [List.length_mapIdx] using hlen)
    (by
      intro p hp
      obtain ⟨i, hi, rfl⟩ := List.mem_mapIdx.mp hp
      exact parses_trace _ (h _ (List.getElem_mem hi)))
    (by
      intro p hp
      obtain ⟨i, hi, rfl⟩ := List.mem_mapIdx.mp hp
      exact encodeTraceForm_ne_break _ _)
  rw [map_mapIdx, map_mapIdx, mapIdx_const] at hps
  simpa only [encodeTraceForms, List.map_id_fun', id_eq] using hps

/-- A reply is read back, whichever of its lists are indefinite. -/
theorem parses_reply (forms : ListForms) {ts : List TraceObject} (hlen : ts.length < 2 ^ 64)
    (h : ∀ t ∈ ts, SizedTrace t) :
    Parses Message.decode
      (encodeArray 2 ++ encodeUInt 3 ++
        encodeList forms.traces (encodeTraceForms forms.namespaces ts))
      (.traceObjectsReply ⟨ts⟩) := by
  intro rest
  simp only [Message.decode, List.append_assoc, bind_run, array_run (by omega : 2 < 2 ^ 64),
    u16_run (by omega : 3 < 2 ^ 16), parses_traces forms hlen h rest, pure_run]

theorem encode_reply_eq_forms (ts : List TraceObject) :
    (Message.traceObjectsReply ⟨ts⟩).encode =
      encodeArray 2 ++ encodeUInt 3 ++ encodeList false (encodeTraceForms (fun _ => false) ts) := by
  simp only [Message.encode, encodeList, encodeTraceForms, encodeTraceForm_false,
    List.length_map, mapIdx_const, Bool.false_eq_true, if_false, List.append_assoc]

/-- What the encoder writes is read back. -/
theorem parses_encode {m : Message} (hm : Sized m) : Parses Message.decode m.encode m := by
  cases m with
  | traceObjectsRequest req =>
    intro rest
    have hn := req.numberOfTraceObjects.toNat_lt
    simp only [Message.encode, Message.decode, List.append_assoc, bind_run,
      array_run (by omega : 3 < 2 ^ 64), u16_run (by omega : 1 < 2 ^ 16), bool_run,
      array_run (by omega : 2 < 2 ^ 64), u16_run (by omega : 0 < 2 ^ 16), u16_run hn,
      UInt16.ofNat_toNat, pure_run]
  | traceObjectsReply reply =>
    rw [encode_reply_eq_forms]
    exact parses_reply ⟨false, fun _ => false⟩ hm.1 hm.2
  | done =>
    intro rest
    simp only [Message.encode, Message.decode, List.append_assoc, bind_run,
      array_run (by omega : 1 < 2 ^ 64), u16_run (by omega : 2 < 2 ^ 16), pure_run]

theorem WireForm.parses {m : Message} {bs : Bytes} (h : WireForm m bs) (hm : Sized m) :
    Parses Message.decode bs m := by
  cases h with
  | encoder => exact parses_encode hm
  | lists ts forms => exact parses_reply forms hm.1 hm.2

/-- A receiver that appends chunks to its buffer, decodes complete messages and
waits on an early end of input returns the messages sent, in order, and ends with
an empty buffer. Every strict prefix of an encoding makes it wait. -/
theorem receive_messages (ms : List (SizedMessage × Bytes))
    (hforms : ∀ p ∈ ms, WireForm p.1.val p.2) (chunks : List Bytes)
    (hchunks : chunks.flatten = (ms.map Prod.snd).flatten) :
    receive Message.decode [] chunks = (ms.map fun p => p.1.val, .ok []) ∧
      ∀ p ∈ ms, ∀ pre suffix, p.2 = pre ++ suffix → suffix ≠ [] →
        Message.decode.run pre = .error .endOfInput := by
  refine receive_mapped (f := Subtype.val) ms ?_ rfl chunks hchunks
  intro p hp
  exact (hforms p hp).parses p.1.property

/-- A reply whose lists are indefinite, cut after its third byte, then `Done`. -/
theorem receive_messages_reply_done :
    let t : TraceObject := ⟨none, "", ["", ""], .info, .dNormal,
      ⟨1700000000, 500000000, by decide⟩, "", ""⟩
    let reply := encodeArray 2 ++ encodeUInt 3 ++
      encodeList true (encodeTraceForms (fun _ => true) [t])
    receive Message.decode [] [reply.take 3, reply.drop 3 ++ Message.done.encode] =
      ([.traceObjectsReply ⟨[t]⟩, .done], .ok []) := by
  intro t reply
  have hempty : SizedStr "" := by
    unfold SizedStr
    decide
  have ht : SizedTrace t := ⟨by simp [t], hempty, by decide, by simp [t, hempty], hempty, hempty⟩
  have hsized : Sized (.traceObjectsReply ⟨[t]⟩) :=
    ⟨by simp, by intro u hu; rwa [List.mem_singleton.mp hu]⟩
  have hrun := receive_messages
    [(⟨.traceObjectsReply ⟨[t]⟩, hsized⟩, reply), (⟨.done, trivial⟩, Message.done.encode)]
    (by
      intro p hp
      simp only [List.mem_cons, List.not_mem_nil, or_false] at hp
      rcases hp with rfl | rfl
      · exact WireForm.lists [t] ⟨true, fun _ => true⟩
      · exact WireForm.encoder .done)
    [reply.take 3, reply.drop 3 ++ Message.done.encode]
    (by
      simp only [List.flatten_cons, List.flatten_nil, List.append_nil, ← List.append_assoc,
        List.take_append_drop, List.map_cons, List.map_nil])
  exact hrun.1

end Hermod.ProtocolMessages
