import Hermod.Framing
import Hermod.Tally

/-!
What the lengths declared in a message can make its decoder do. Each decoder is the one
that a tally counts with, so it never decodes more traces, namespace segments, metrics,
names, reply items or versions than it was given bytes, whatever the heads say.
-/
namespace Hermod.DeclaredLengths

open Decoding Decoder Tally Cbor ProtocolTypes ProtocolMessages Handshake EkgMessages
  DataPointMessages Framing

/-! What consumes. -/

theorem headOf_consuming (major : ℕ) : Consuming (headOf major) :=
  Consuming.bind byte_consuming _

theorem str_consuming : Consuming str := Consuming.bind (headOf_consuming 3) _

theorem bytes_consuming : Consuming Cbor.bytes := Consuming.bind (headOf_consuming 2) _

theorem decodePair_consuming : Consuming EkgMessage.decodePair :=
  Consuming.bind (headOf_consuming 4) _

theorem decodeReplyItem_consuming : Consuming DataPointMessage.decodeReplyItem :=
  Consuming.bind (headOf_consuming 4) _

theorem decodeVersion_consuming : Consuming HandshakeMessage.decodeVersion :=
  Consuming.map (Consuming.bind (headOf_consuming 0) _) UInt64.ofNat

theorem decodeEntry_consuming : Consuming HandshakeMessage.decodeEntry :=
  Consuming.bind decodeVersion_consuming _

/-- Skipping takes the head at least. -/
theorem skipFuel_consuming (fuel : ℕ) : Consuming (skipFuel fuel) := by
  intro bs a rest hrun
  cases fuel with
  | zero => cases hrun
  | succ fuel =>
    obtain ⟨b, mid, hpeek, hrun⟩ := bind_ok_iff.mp hrun
    have hmid := (peek.suffix hpeek).length_le
    have hrest := Consuming.bind (headOf_consuming (majorOf b)) _ hrun
    omega

theorem skipItem_consuming : Consuming skipItem := by
  intro bs a rest hrun
  obtain ⟨fuel, hfuel⟩ := byLength_ok hrun
  exact skipFuel_consuming fuel hfuel

/-! The decoders as they count. -/

section Lists

variable {α : Type}

def list (x : Tally α) (h : x.Spares) : Tally (List α) := do
  match ← plain array with
  | some n => (element x h).times n
  | none => Tally.untilByte breakByte (element x h)

@[simp] theorem decoder_list (x : Tally α) (h : x.Spares) :
    (list x h).decoder = arrayIter x.decoder := by
  simp only [list, arrayIter, decoder_bind, decoder_plain]
  refine bind_congr fun len => ?_
  cases len with
  | none => simp only [decoder_untilByte, decoder_element]
  | some n => simp only [decoder_times, decoder_element]

end Lists

def traceObject : Tally TraceObject := do
  let len ← plain array
  if len ≠ some 9 then
    Tally.fail (.message "TraceObject must have 9 elements (constructor index + 8 fields)")
  else
    let _constructorIdx ← plain u8
    let toHuman ← plain decodeMaybe
    let toMachine ← plain str
    let toNamespace ← list (plain str) (spares_plain str_consuming)
    let toSeverity ← plain Severity.decode
    let toDetails ← plain DetailLevel.decode
    let toTimestamp ← plain DateTime.decode
    let toHostname ← plain str
    let toThreadId ← plain str
    pure { toHuman, toMachine, toNamespace, toSeverity, toDetails, toTimestamp,
           toHostname, toThreadId }

/-- The head of a trace object is not taken up by its namespace. -/
theorem traceObject_spares : traceObject.Spares :=
  (spares_plain (headOf_consuming 4)).bind _

theorem decoder_traceObject : traceObject.decoder = TraceObject.decode := by
  simp only [traceObject, TraceObject.decode, decoder_bind, decoder_plain, decoder_ite,
    Tally.decoder_fail, decoder_list, decoder_pure]

theorem decode_consuming : Consuming TraceObject.decode := by
  rw [← decoder_traceObject]
  exact traceObject_spares.consuming

def message : Tally Message := do
  let _ ← plain array
  let tag ← plain u16
  match tag with
  | 1 =>
    let blocking ← plain bool
    let _ ← plain array
    let _constructorIdx ← plain u16
    let numberOfTraceObjects ← plain u16
    pure (.traceObjectsRequest ⟨blocking, UInt16.ofNat numberOfTraceObjects⟩)
  | 2 => pure .done
  | 3 =>
    let traceObjects ← list traceObject traceObject_spares
    pure (.traceObjectsReply ⟨traceObjects⟩)
  | _ => Tally.fail (.message "unknown message tag")

def ekgMessage : Tally EkgMessage := do
  let arrLen ← plain array
  let tag ← plain u8
  match arrLen, tag with
  | some 2, 0 =>
    let _ ← plain array
    let reqTag ← plain u8
    pure (.req (reqTag == 0))
  | some 1, 1 => pure .done
  | some 2, 1 =>
    let _ ← plain array
    let _constructorIdx ← plain u8
    let pairs ← list (plain EkgMessage.decodePair) (spares_plain decodePair_consuming)
    pure (.resp (EkgMessage.insertAll pairs))
  | _, _ => Tally.fail (.message "unknown EKG message format")

def dataPointMessage : Tally DataPointMessage := do
  let _ ← plain array
  let tag ← plain u8
  match tag with
  | 1 =>
    let names ← list (plain str) (spares_plain str_consuming)
    pure (.request names)
  | 2 => pure .done
  | 3 =>
    let items ← list (plain DataPointMessage.decodeReplyItem)
      (spares_plain decodeReplyItem_consuming)
    pure (.reply items)
  | _ => Tally.fail (.message "unknown DataPoint tag")

def handshakeMessage : Tally HandshakeMessage := do
  let _ ← plain array
  let label ← plain u16
  match label with
  | 0 =>
    match ← plain Cbor.map with
    | none => Tally.fail (.message "expected definite map")
    | some mapLen =>
      let entries ← (element (plain HandshakeMessage.decodeEntry)
        (spares_plain decodeEntry_consuming)).times mapLen
      pure (.propose (HandshakeMessage.insertAll entries))
  | 1 =>
    let version ← plain HandshakeMessage.decodeVersion
    let data ← plain ForwardingVersionData.decode
    pure (.accept version data)
  | 2 =>
    match ← plain array with
    | none => Tally.fail (.message "expected definite array")
    | some arrLen =>
      let versions ← (element (plain HandshakeMessage.decodeVersion)
        (spares_plain decodeVersion_consuming)).times arrLen
      pure (.refuse versions)
  | _ => Tally.fail (.message "unknown handshake message")

/-! Without the counts they are the decoders. -/

theorem decoder_message : message.decoder = Message.decode := by
  simp only [message, Message.decode, decoder_bind, decoder_plain]
  refine bind_congr fun _ => bind_congr fun tag => ?_
  split
  · simp only [decoder_bind, decoder_plain, decoder_pure]
  · rfl
  · simp only [decoder_bind, decoder_list, decoder_traceObject, decoder_pure]
  · simp only [Tally.decoder_fail]

theorem decoder_ekgMessage : ekgMessage.decoder = EkgMessage.decode := by
  simp only [ekgMessage, EkgMessage.decode, decoder_bind, decoder_plain]
  refine bind_congr fun _ => bind_congr fun tag => ?_
  split
  · simp only [decoder_bind, decoder_plain, decoder_pure]
  · rfl
  · simp only [decoder_bind, decoder_plain, decoder_list, decoder_pure]
  · simp only [Tally.decoder_fail]

theorem decoder_dataPointMessage : dataPointMessage.decoder = DataPointMessage.decode := by
  simp only [dataPointMessage, DataPointMessage.decode, decoder_bind, decoder_plain]
  refine bind_congr fun _ => bind_congr fun tag => ?_
  split
  · simp only [decoder_bind, decoder_list, decoder_plain, decoder_pure]
  · rfl
  · simp only [decoder_bind, decoder_list, decoder_plain, decoder_pure]
  · simp only [Tally.decoder_fail]

theorem decoder_handshakeMessage : handshakeMessage.decoder = HandshakeMessage.decode := by
  simp only [handshakeMessage, HandshakeMessage.decode, decoder_bind, decoder_plain]
  refine bind_congr fun _ => bind_congr fun label => ?_
  split
  · simp only [decoder_bind, decoder_plain]
    refine bind_congr fun len => ?_
    cases len with
    | none => rfl
    | some mapLen =>
      simp only [decoder_bind, decoder_times, decoder_element, decoder_plain, decoder_pure]
  · simp only [decoder_bind, decoder_plain, decoder_pure]
  · simp only [decoder_bind, decoder_plain]
    refine bind_congr fun len => ?_
    cases len with
    | none => rfl
    | some arrLen =>
      simp only [decoder_bind, decoder_times, decoder_element, decoder_plain, decoder_pure]
  · simp only [Tally.decoder_fail]

/-! What is in a decoded message. -/

section Sizes

/-- A list counts its elements and what they count. -/
theorem counts_list {α : Type} {x : Tally α} {size : α → ℕ} (hx : Counts x fun a n => n = size a)
    (h : x.Spares) : Counts (list x h) fun as n => n = (as.map fun a => size a + 1).sum := by
  have helement : Counts (element x h) fun a n => n = size a + 1 :=
    hx.element h fun a n hn => by rw [hn]
  refine Counts.plain_bind ?_
  intro len
  cases len with
  | none => exact counts_untilByte helement breakByte
  | some n => exact counts_times helement n

theorem counts_list_plain {α : Type} {d : Decoder α} (h : (plain d).Spares) :
    Counts (list (plain d) h) fun as n => n = as.length := by
  have hplain : Counts (plain d) fun _ n => n = 0 := counts_plain fun _ => rfl
  have hlist := counts_list hplain h
  simpa using hlist

theorem counts_times_plain {α : Type} {d : Decoder α} (h : (plain d).Spares) (n : ℕ) :
    Counts ((element (plain d) h).times n) fun as m => m = as.length := by
  have helement : Counts (element (plain d) h) fun _ n => n = 1 :=
    Counts.element (counts_plain (S := fun _ n => n = 0) fun _ => rfl) h fun _ _ hn => by rw [hn]
  have htimes := counts_times helement n
  simpa using htimes

/-- A trace counts the segments of its namespace. -/
theorem counts_traceObject : Counts traceObject fun t n => n = t.toNamespace.length := by
  refine Counts.plain_bind ?_
  intro len
  split
  · exact counts_fail
  · refine Counts.plain_bind fun _ => Counts.plain_bind fun _ => Counts.plain_bind fun _ => ?_
    refine (counts_list_plain _).bind ?_
    intro toNamespace n hn
    refine Counts.plain_bind fun _ => Counts.plain_bind fun _ => Counts.plain_bind fun _ =>
      Counts.plain_bind fun _ => Counts.plain_bind fun _ => ?_
    exact counts_pure hn

def size : (c : Codec) → c.Msg → ℕ
  | .message, .traceObjectsReply reply =>
    (reply.traceObjects.map fun t => t.toNamespace.length + 1).sum
  | .ekg, .resp metrics => metrics.entries.length
  | .dataPoint, .request names => names.length
  | .dataPoint, .reply items => items.length
  | .handshake, .propose versions => versions.entries.length
  | .handshake, .refuse versions => versions.length
  | _, _ => 0

def tally : (c : Codec) → Tally c.Msg
  | .message => message
  | .ekg => ekgMessage
  | .dataPoint => dataPointMessage
  | .handshake => handshakeMessage

theorem decoder_tally (c : Codec) : (tally c).decoder = c.decode := by
  cases c with
  | message => exact decoder_message
  | ekg => exact decoder_ekgMessage
  | dataPoint => exact decoder_dataPointMessage
  | handshake => exact decoder_handshakeMessage

/-- The elements that are decoded, up to an error if there is one: traces, the segments of
their namespaces, metrics, names, reply items and versions. -/
def elements (c : Codec) (bs : Bytes) : ℕ := (tally c).count bs

theorem length_insert_le {α β : Type} [DecidableEq α] (table : AList fun _ : α => β) (k : α)
    (v : β) : (table.insert k v).entries.length ≤ table.entries.length + 1 := by
  rw [AList.entries_insert, List.length_cons]
  exact Nat.succ_le_succ (List.kerase_sublist k _).length_le

/-- Entries of one key are merged. -/
theorem length_foldl_insert_le {α β : Type} [DecidableEq α] (ps : List (α × β))
    (table : AList fun _ : α => β) :
    (ps.foldl (fun table p => table.insert p.1 p.2) table).entries.length ≤
      table.entries.length + ps.length := by
  induction ps generalizing table with
  | nil => exact Nat.le_refl _
  | cons p ps ih =>
    have hloop := ih (table.insert p.1 p.2)
    have hinsert := length_insert_le table p.1 p.2
    rw [List.foldl_cons, List.length_cons]
    omega

/-- What is decoded has no more elements than were counted. -/
theorem counts_message : Counts message fun m n => size .message m ≤ n := by
  refine Counts.plain_bind fun _ => Counts.plain_bind fun tag => ?_
  split
  · refine Counts.plain_bind fun _ => Counts.plain_bind fun _ => Counts.plain_bind fun _ =>
      Counts.plain_bind fun _ => ?_
    exact counts_pure (Nat.le_refl 0)
  · exact counts_pure (Nat.le_refl 0)
  · refine (counts_list counts_traceObject traceObject_spares).bind ?_
    intro ts n hn
    exact counts_pure hn.ge
  · exact counts_fail

theorem counts_ekgMessage : Counts ekgMessage fun m n => size .ekg m ≤ n := by
  refine Counts.plain_bind fun _ => Counts.plain_bind fun tag => ?_
  split
  · refine Counts.plain_bind fun _ => Counts.plain_bind fun _ => ?_
    exact counts_pure (Nat.le_refl 0)
  · exact counts_pure (Nat.le_refl 0)
  · refine Counts.plain_bind fun _ => Counts.plain_bind fun _ => ?_
    refine (counts_list_plain _).bind ?_
    intro pairs n hn
    apply counts_pure
    have hmerged : (EkgMessage.insertAll pairs).entries.length ≤ 0 + pairs.length :=
      length_foldl_insert_le pairs ∅
    rw [hn, size]
    omega
  · exact counts_fail

theorem counts_dataPointMessage : Counts dataPointMessage fun m n => size .dataPoint m ≤ n := by
  refine Counts.plain_bind fun _ => Counts.plain_bind fun tag => ?_
  split
  · refine (counts_list_plain _).bind ?_
    intro names n hn
    exact counts_pure hn.ge
  · exact counts_pure (Nat.le_refl 0)
  · refine (counts_list_plain _).bind ?_
    intro items n hn
    exact counts_pure hn.ge
  · exact counts_fail

theorem counts_handshakeMessage : Counts handshakeMessage fun m n => size .handshake m ≤ n := by
  refine Counts.plain_bind fun _ => Counts.plain_bind fun label => ?_
  split
  · refine Counts.plain_bind fun len => ?_
    split
    · exact counts_fail
    · refine (counts_times_plain _ _).bind ?_
      intro entries n hn
      apply counts_pure
      have hmerged : (HandshakeMessage.insertAll entries).entries.length ≤ 0 + entries.length :=
        length_foldl_insert_le entries ∅
      rw [hn, size]
      omega
  · refine Counts.plain_bind fun _ => Counts.plain_bind fun _ => ?_
    exact counts_pure (Nat.le_refl 0)
  · refine Counts.plain_bind fun len => ?_
    split
    · exact counts_fail
    · refine (counts_times_plain _ _).bind ?_
      intro versions n hn
      exact counts_pure hn.ge
  · exact counts_fail

theorem counts_tally (c : Codec) : Counts (tally c) fun m n => size c m ≤ n := by
  cases c with
  | message => exact counts_message
  | ekg => exact counts_ekgMessage
  | dataPoint => exact counts_dataPointMessage
  | handshake => exact counts_handshakeMessage

end Sizes

inductive Loop
  | traces
  | segments
  | metrics
  | names
  | replyItems
  | proposed
  | refused
  /-- The chunks of a byte string. -/
  | chunks
  /-- The items in a value that is skipped. -/
  | skipped
  deriving DecidableEq

namespace Loop

def Item : Loop → Type
  | traces => TraceObject
  | segments => String
  | metrics => String × EkgValue
  | names => String
  | replyItems => String × Option Bytes
  | proposed => UInt64 × ForwardingVersionData
  | refused => UInt64
  | chunks => Bytes
  | skipped => Unit

def item : (l : Loop) → Decoder l.Item
  | traces => TraceObject.decode
  | segments => str
  | metrics => EkgMessage.decodePair
  | names => str
  | replyItems => DataPointMessage.decodeReplyItem
  | proposed => HandshakeMessage.decodeEntry
  | refused => HandshakeMessage.decodeVersion
  | chunks => Cbor.bytes
  | skipped => skipItem

/-- The element as it counts; neither chunks nor skipped items do. -/
def counted : (l : Loop) → Tally l.Item
  | traces => element traceObject traceObject_spares
  | segments => element (plain str) (spares_plain str_consuming)
  | metrics => element (plain EkgMessage.decodePair) (spares_plain decodePair_consuming)
  | names => element (plain str) (spares_plain str_consuming)
  | replyItems =>
    element (plain DataPointMessage.decodeReplyItem) (spares_plain decodeReplyItem_consuming)
  | proposed => element (plain HandshakeMessage.decodeEntry) (spares_plain decodeEntry_consuming)
  | refused =>
    element (plain HandshakeMessage.decodeVersion) (spares_plain decodeVersion_consuming)
  | chunks => plain Cbor.bytes
  | skipped => plain skipItem

theorem decoder_counted (l : Loop) : l.counted.decoder = l.item := by
  cases l with
  | traces => exact decoder_traceObject
  | _ => rfl

theorem item_consuming (l : Loop) : Consuming l.item := by
  cases l with
  | traces => exact decode_consuming
  | segments => exact str_consuming
  | metrics => exact decodePair_consuming
  | names => exact str_consuming
  | replyItems => exact decodeReplyItem_consuming
  | proposed => exact decodeEntry_consuming
  | refused => exact decodeVersion_consuming
  | chunks => exact bytes_consuming
  | skipped => exact skipItem_consuming

end Loop

/-- A loop until a break goes on until it meets the break or an error, and so does its count. -/
structure Loop.Unbounded (l : Loop) : Prop where
  decoded : ∀ b bs, (Decoder.untilByte breakByte l.item).run (b :: bs) =
    if b = breakByte then .ok ([], bs)
    else ((List.cons <$> l.item) >>= fun f => f <$> Decoder.untilByte breakByte l.item).run
      (b :: bs)
  counted : ∀ b bs, (Tally.untilByte breakByte l.counted).count (b :: bs) =
    if b = breakByte then 0
    else l.counted.count (b :: bs) +
      onSuccess (fun _ => (Tally.untilByte breakByte l.counted).count) (l.item.run (b :: bs))

theorem Loop.unbounded (l : Loop) : l.Unbounded where
  decoded := untilByte_unfold breakByte l.item_consuming
  counted := by
    have hitem : Consuming l.counted.decoder := by
      rw [l.decoder_counted]
      exact l.item_consuming
    intro b bs
    rw [count_untilByte_cons breakByte hitem, l.decoder_counted]

/-- Whatever lengths the input declares and whatever breaks it lacks, the elements that are
decoded, with those before an error, and the bytes left are together no more than the bytes
there were. Every round of a loop that succeeds consumes, and nothing but the input ends a
loop. -/
theorem elements_le (c : Codec) (bs : Bytes) :
    elements c bs + left (c.decode.run bs) ≤ bs.length ∧
    (∀ m rest, c.decode.run bs = .ok (m, rest) → size c m ≤ elements c bs) ∧
    ∀ l : Loop, l.Unbounded ∧
      ∀ bs a rest, l.item.run bs = .ok (a, rest) → rest.length < bs.length := by
  have hbound := (tally c).bound bs
  have hcounts := counts_tally c bs
  rw [decoder_tally] at hbound hcounts
  exact ⟨hbound, hcounts, fun l => ⟨l.unbounded, fun _ _ _ hrun => l.item_consuming hrun⟩⟩

end Hermod.DeclaredLengths
