import Hermod.CborFrames
import Hermod.ProtocolMessages
import Hermod.Handshake
import Hermod.EkgMessages
import Hermod.DataPointMessages

/-!
Framing of the four message decoders. A recorder is a decoder that also returns the
events it meets, with a proof that its bytes amount to these events. Each message
decoder is the erasure of a recorder, so the declared lengths it came across decide
whether it left the receive buffer at the start of the next message.
-/
namespace Hermod.Framing

open Decoding Decoder Cbor ProtocolTypes ProtocolMessages Handshake EkgMessages DataPointMessages

structure Recorder (α : Type) where
  run : Decoder (α × List Event)
  traces : Reads run fun p used => Traces used p.2

namespace Recorder

variable {α β : Type}

protected def pure (a : α) : Recorder α where
  run := pure (a, [])
  traces := reads_pure traces_nil

protected def bind (x : Recorder α) (f : α → Recorder β) : Recorder β where
  run := do
    let p ← x.run
    let q ← (f p.1).run
    pure (q.1, p.2 ++ q.2)
  traces := by
    apply x.traces.bind
    intro p used hp
    apply (f p.1).traces.bind
    intro q more hq
    apply reads_pure
    rw [List.append_nil]
    exact hp.append hq

instance : Monad Recorder where
  pure := Recorder.pure
  bind := Recorder.bind

def fail (e : DecodeError) : Recorder α where
  run := Decoder.fail e
  traces := reads_fail

def erase (x : Recorder α) : Decoder α := Prod.fst <$> x.run

@[simp] theorem erase_pure (a : α) : (pure a : Recorder α).erase = pure a := rfl

@[simp] theorem erase_fail (e : DecodeError) : (fail e : Recorder α).erase = Decoder.fail e := rfl

@[simp] theorem erase_bind (x : Recorder α) (f : α → Recorder β) :
    (x >>= f).erase = x.erase >>= fun a => (f a).erase := by
  show Prod.fst <$> (x.run >>= fun p => (f p.1).run >>= fun q => pure (q.1, p.2 ++ q.2)) = _
  simp only [erase, map_bind, bind_map_left, bind_pure_comp, Functor.map_map]

def item (d : Decoder α) (h : ReadsItem d) : Recorder α where
  run := (fun a => (a, [.item])) <$> d
  traces := Reads.map h fun _ _ hu => traces_item hu

@[simp] theorem erase_item (d : Decoder α) (h : ReadsItem d) : (item d h).erase = d := by
  rw [erase, item, Functor.map_map]
  exact id_map d

def header : Recorder (Option ℕ) where
  run := (fun len => (len, [.header len])) <$> array
  traces := (headOf_reads 4).map fun _ _ hh => traces_header hh

@[simp] theorem erase_header : header.erase = array := by
  rw [erase, header, Functor.map_map]
  exact id_map array

theorem atBreak_run_cons (b : UInt8) (bs : Bytes) :
    atBreak.run (b :: bs) = .ok (b == breakByte, b :: bs) := rfl

def skip : Recorder Unit where
  run := do
    if ← atBreak then (fun _ => ((), [.stop])) <$> byte else (fun _ => ((), [.item])) <$> skipItem
  traces := by
    rintro (_ | ⟨b, bs⟩) p rest hrun
    · cases hrun
    · rw [bind_run, atBreak_run_cons] at hrun
      by_cases hb : b = breakByte
      · subst hb
        cases hrun
        exact ⟨[breakByte], rfl, traces_stop⟩
      · rw [beq_false_of_ne hb] at hrun
        have hitem : Reads ((fun _ => ((), [Event.item])) <$> skipItem)
            fun p used => Traces used p.2 := Reads.map skipItem_reads fun _ _ hu => traces_item hu
        exact hitem (b :: bs) p rest hrun

@[simp] theorem erase_skip : skip.erase = Cbor.skip := by
  simp only [erase, skip, Cbor.skip, Cbor.discard, map_bind]
  congr 1
  funext stop
  cases stop
  · simp only [Bool.false_eq_true, if_false, Functor.map_map]
    exact id_map skipItem
  · simp only [if_true, Functor.map_map]

def elements (x : Recorder α) : Recorder (List α) where
  run := do
    match ← array with
    | some n =>
      let ps ← times x.run n
      pure (ps.map Prod.fst, .header (some n) :: (ps.map Prod.snd).flatten)
    | none =>
      let ps ← untilByte breakByte x.run
      pure (ps.map Prod.fst, .header none :: ((ps.map Prod.snd).flatten ++ [.stop]))
  traces := by
    have hflatten : ∀ {ps : List (α × List Event)} {parts : List Bytes},
        List.Forall₂ (fun p used => Traces used p.2) ps parts →
        Traces parts.flatten (ps.map Prod.snd).flatten := fun h =>
      traces_flatten (List.forall₂_map_left_iff.mpr h)
    apply (headOf_reads 4).bind
    intro arg h hh
    cases arg with
    | none =>
      apply (x.traces.untilByte breakByte).bind
      intro ps used hused
      obtain ⟨parts, rfl, hparts⟩ := hused
      apply reads_pure
      rw [List.append_nil]
      exact (traces_header hh).append ((hflatten hparts).append traces_stop)
    | some n =>
      apply (x.traces.times n).bind
      intro ps used hused
      obtain ⟨-, parts, rfl, hparts⟩ := hused
      apply reads_pure
      rw [List.append_nil]
      exact (traces_header hh).append (hflatten hparts)

theorem times_map (g : α → β) (x : Decoder α) (n : ℕ) :
    times (g <$> x) n = List.map g <$> times x n := by
  induction n with
  | zero => rfl
  | succ n ih => simp only [times, ih, map_bind, bind_map_left, map_pure, List.map_cons]

theorem untilByte_map (stop : UInt8) (g : α → β) (x : Decoder α) :
    untilByte stop (g <$> x) = List.map g <$> untilByte stop x := by
  have hfuel : ∀ n, untilByteFuel stop (g <$> x) n = List.map g <$> untilByteFuel stop x n := by
    intro n
    induction n with
    | zero => rfl
    | succ n ih =>
      simp only [untilByteFuel, ih, map_bind, bind_map_left]
      congr 1
      funext b
      split
      · simp only [map_bind, map_pure, List.map_nil]
      · simp only [map_bind, map_pure, List.map_cons]
  apply ext_run
  intro bs
  show (untilByteFuel stop (g <$> x) bs.length).run bs = _
  rw [hfuel]
  rfl

@[simp] theorem erase_elements (x : Recorder α) : x.elements.erase = arrayIter x.erase := by
  simp only [erase, elements, arrayIter, map_bind]
  congr 1
  funext len
  cases len
  · simp only [untilByte_map, bind_pure_comp, Functor.map_map]
  · simp only [times_map, bind_pure_comp, Functor.map_map]

def events (x : Recorder α) (bs : Bytes) : List Event :=
  match x.run.run bs with
  | .ok ((_, es), _) => es
  | .error _ => []

/-- What an accepted input used is one item exactly when the declared lengths agree. -/
theorem wellFormed_iff (x : Recorder α) {bs rest : Bytes} {a : α}
    (h : x.erase.run bs = .ok (a, rest)) :
    ∃ used, bs = used ++ rest ∧ (WellFormed used ↔ LengthsAgree (x.events bs)) := by
  rw [erase, map_run] at h
  rcases hrun : x.run.run bs with e | ⟨⟨a', es⟩, rest'⟩
  · rw [hrun] at h
    cases h
  · rw [hrun] at h
    cases h
    obtain ⟨used, rfl, htraces⟩ := x.traces _ _ _ hrun
    refine ⟨used, rfl, ?_⟩
    rw [events, hrun]
    exact htraces.wellFormed_iff

/-- Every success returns a value and events that are related by `S`. -/
def Yields (x : Recorder α) (S : α → List Event → Prop) : Prop :=
  ∀ bs p rest, x.run.run bs = .ok (p, rest) → S p.1 p.2

theorem yields_pure {a : α} {S : α → List Event → Prop} (h : S a []) : Yields (pure a) S := by
  intro bs p rest hrun
  cases hrun
  exact h

theorem yields_fail {e : DecodeError} {S : α → List Event → Prop} : Yields (fail e) S := by
  intro bs p rest hrun
  cases hrun

theorem Yields.bind {x : Recorder α} {f : α → Recorder β} {S : α → List Event → Prop}
    {T : β → List Event → Prop} (hx : Yields x S)
    (hf : ∀ a es, S a es → Yields (f a) fun b es' => T b (es ++ es')) : Yields (x >>= f) T := by
  intro bs p rest hrun
  obtain ⟨q, mid, hq, hrun⟩ := bind_ok_iff.mp hrun
  obtain ⟨r, rest', hr, hrun⟩ := bind_ok_iff.mp hrun
  cases hrun
  exact hf q.1 q.2 (hx bs q mid hq) mid r rest hr

theorem map_yields (d : Decoder α) (e : α → Event) {bs rest : Bytes} {p : α × List Event}
    (hrun : ((fun a => (a, [e a])) <$> d).run bs = .ok (p, rest)) : p.2 = [e p.1] := by
  rw [map_run] at hrun
  rcases hd : d.run bs with err | ⟨a, mid⟩
  · rw [hd] at hrun
    cases hrun
  · rw [hd] at hrun
    cases hrun
    rfl

theorem header_yields : Yields header fun len es => es = [.header len] :=
  fun _ _ _ hrun => map_yields array .header hrun

theorem item_yields (d : Decoder α) (h : ReadsItem d) :
    Yields (item d h) fun _ es => es = [.item] :=
  fun _ _ _ hrun => map_yields d (fun _ => .item) hrun

/-- What holds of every success holds of the events of an accepted input. -/
theorem Yields.events {x : Recorder α} {S : α → List Event → Prop} (hx : Yields x S)
    {bs rest : Bytes} {a : α} (h : x.erase.run bs = .ok (a, rest)) : S a (x.events bs) := by
  rw [erase, map_run] at h
  rcases hrun : x.run.run bs with e | ⟨⟨a', es⟩, rest'⟩
  · rw [hrun] at h
    cases h
  · rw [hrun] at h
    cases h
    rw [Recorder.events, hrun]
    exact hx bs (_, es) rest hrun

end Recorder

open Recorder

/-! Values that are read as a whole. -/

theorem readsItem_bind_pure {α β : Type} {x : Decoder α} (hx : ReadsItem x) (g : α → β) :
    ReadsItem (x >>= fun a => pure (g a)) := by
  rw [bind_pure_comp]
  exact hx.map g

theorem times_items {α : Type} {item : Decoder α} {k : ℕ}
    (h : Reads item fun _ used => Items k used) (n : ℕ) :
    Reads (times item n) fun _ used => Items (k * n) used := by
  refine (h.times n).mono ?_
  intro as used hused
  obtain ⟨rfl, parts, rfl, hparts⟩ := hused
  exact items_of_forall₂ hparts

theorem arrayIter_reads {α : Type} {item : Decoder α} (h : ReadsItem item) :
    ReadsItem (arrayIter item) := by
  apply (headOf_reads 4).bind
  intro arg head hh
  cases arg with
  | none =>
    refine (h.untilByte breakByte).mono ?_
    intro as used hused
    obtain ⟨parts, rfl, hparts⟩ := hused
    exact Items.arrayIndefinite hh (items_of_forall₂ hparts) Items.nil
  | some n =>
    refine (times_items h n).mono fun _ used hi => ?_
    rw [Nat.one_mul] at hi
    exact Body.wellFormed hh hi

theorem decodeMaybe_reads : ReadsItem decodeMaybe := by
  apply (headOf_reads 4).bind
  rintro (_ | _ | _ | n) h hh
  · exact reads_fail
  · apply reads_pure
    exact Body.wellFormed hh Items.nil
  · exact Reads.map str_reads fun _ used hu => Body.wellFormed hh hu
  · exact reads_fail

theorem decodeTimestamp_reads {secs : ℤ} {nanos : ℕ} {P : DateTime → Bytes → Prop}
    (h : ∀ t, P t []) : Reads (decodeTimestamp secs nanos) P := by
  unfold decodeTimestamp
  cases DateTime.fromTimestamp secs nanos with
  | none => exact reads_fail
  | some t => exact reads_pure (h t)

theorem dateTime_reads : ReadsItem DateTime.decode := by
  apply tag_reads.bind
  intro t htag hh6
  refine reads_ite (fun _ => ?_) fun _ => reads_ite (fun _ => ?_) fun _ => reads_fail
  · apply (headOf_reads 5).bind
    intro mapLen hmap hh5
    refine reads_ite (fun _ => reads_fail) fun hlen => ?_
    rw [not_not] at hlen
    subst hlen
    apply i64_reads.bind
    intro k0 u0 hk0
    refine reads_ite (fun _ => reads_fail) fun _ => ?_
    apply i64_reads.bind
    intro secs u1 hsecs
    apply i64_reads.bind
    intro k1 u2 hk1
    refine reads_ite (fun _ => reads_fail) fun _ => ?_
    apply u64_reads.bind
    intro psecs u3 hpsecs
    refine decodeTimestamp_reads fun _ => ?_
    have hinner := Items.append hk0 (Items.append hsecs (Items.append hk1 hpsecs))
    have hitems := Items.tag hh6 (Items.map hh5 hinner Items.nil)
    simpa only [WellFormed, List.append_assoc, List.append_nil] using hitems
  · apply f64_reads.bind
    intro timestamp u hu
    refine decodeTimestamp_reads fun _ => ?_
    rw [List.append_nil]
    exact Items.tag hh6 hu

/-! The four codecs. -/

def nullary {α : Type} (constructors : List α) (invalid : String) : Recorder α := do
  let _ ← header
  let val ← item u8 u8_reads
  match constructors[val]? with
  | some c => pure c
  | none => Recorder.fail (.message invalid)

def traceObject : Recorder TraceObject := do
  let len ← header
  if len ≠ some 9 then
    Recorder.fail (.message "TraceObject must have 9 elements (constructor index + 8 fields)")
  else
    let _constructorIdx ← item u8 u8_reads
    let toHuman ← item decodeMaybe decodeMaybe_reads
    let toMachine ← item str str_reads
    let toNamespace ← item (arrayIter str) (arrayIter_reads str_reads)
    let toSeverity ← nullary Severity.constructors "invalid severity value"
    let toDetails ← nullary DetailLevel.constructors "invalid detail level"
    let toTimestamp ← item DateTime.decode dateTime_reads
    let toHostname ← item str str_reads
    let toThreadId ← item str str_reads
    pure { toHuman, toMachine, toNamespace, toSeverity, toDetails, toTimestamp,
           toHostname, toThreadId }

def message : Recorder Message := do
  let _ ← header
  let tag ← item u16 u16_reads
  match tag with
  | 1 =>
    let blocking ← item bool bool_reads
    let _ ← header
    let _constructorIdx ← item u16 u16_reads
    let numberOfTraceObjects ← item u16 u16_reads
    pure (.traceObjectsRequest ⟨blocking, UInt16.ofNat numberOfTraceObjects⟩)
  | 2 => pure .done
  | 3 =>
    let traceObjects ← elements traceObject
    pure (.traceObjectsReply ⟨traceObjects⟩)
  | _ => Recorder.fail (.message "unknown message tag")

def ekgValue : Recorder EkgValue := do
  let _ ← header
  let tag ← item u8 u8_reads
  match tag with
  | 0 =>
    let v ← item i64 i64_reads
    pure (.counter (Int64.ofInt v))
  | 1 =>
    let v ← item i64 i64_reads
    pure (.gauge (Int64.ofInt v))
  | 2 =>
    let s ← item str str_reads
    pure (.label s)
  | _ =>
    Recorder.skip
    pure (.label ("<tag " ++ toString tag ++ ">"))

def ekgPair : Recorder (String × EkgValue) := do
  let _ ← header
  let key ← item str str_reads
  let val ← ekgValue
  pure (key, val)

def ekgMessage : Recorder EkgMessage := do
  let arrLen ← header
  let tag ← item u8 u8_reads
  match arrLen, tag with
  | some 2, 0 =>
    let _ ← header
    let reqTag ← item u8 u8_reads
    pure (.req (reqTag == 0))
  | some 1, 1 => pure .done
  | some 2, 1 =>
    let _ ← header
    let _constructorIdx ← item u8 u8_reads
    let pairs ← elements ekgPair
    pure (.resp (EkgMessage.insertAll pairs))
  | _, _ => Recorder.fail (.message "unknown EKG message format")

def replyItem : Recorder (String × Option Bytes) := do
  let _ ← header
  let name ← item str str_reads
  match ← header with
  | some 0 => pure (name, none)
  | some 1 =>
    let buf ← item bytesIter bytesIter_reads
    pure (name, some buf)
  | _ => Recorder.fail (.message "invalid Maybe encoding in DataPointsReply")

def dataPointMessage : Recorder DataPointMessage := do
  let _ ← header
  let tag ← item u8 u8_reads
  match tag with
  | 1 =>
    let names ← item (arrayIter str) (arrayIter_reads str_reads)
    pure (.request names)
  | 2 => pure .done
  | 3 =>
    let items ← elements replyItem
    pure (.reply items)
  | _ => Recorder.fail (.message "unknown DataPoint tag")

theorem decodeVersion_reads : ReadsItem HandshakeMessage.decodeVersion := u64_reads.map _

theorem versionData_reads : ReadsItem ForwardingVersionData.decode :=
  readsItem_bind_pure u64_reads _

def versionMap : Decoder (List (UInt64 × ForwardingVersionData)) := do
  match ← map with
  | none => Decoder.fail (.message "expected definite map")
  | some mapLen => times HandshakeMessage.decodeEntry mapLen

def versionList : Decoder (List UInt64) := do
  match ← array with
  | none => Decoder.fail (.message "expected definite array")
  | some arrLen => times HandshakeMessage.decodeVersion arrLen

theorem versionMap_reads : ReadsItem versionMap := by
  have hentry : Reads HandshakeMessage.decodeEntry fun _ used => Items 2 used := by
    apply decodeVersion_reads.bind
    intro version u hu
    exact (readsItem_bind_pure versionData_reads _).mono fun _ _ hv => Items.append hu hv
  apply (headOf_reads 5).bind
  intro arg h hh
  cases arg with
  | none => exact reads_fail
  | some n =>
    refine (times_items hentry n).mono fun _ used hi => ?_
    have hitems := Items.map hh hi Items.nil
    rwa [List.append_nil] at hitems

theorem versionList_reads : ReadsItem versionList := by
  apply (headOf_reads 4).bind
  intro arg h hh
  cases arg with
  | none => exact reads_fail
  | some n =>
    refine (times_items decodeVersion_reads n).mono fun _ used hi => ?_
    rw [Nat.one_mul] at hi
    exact Body.wellFormed hh hi

def handshakeMessage : Recorder HandshakeMessage := do
  let _ ← header
  let label ← item u16 u16_reads
  match label with
  | 0 =>
    let entries ← item versionMap versionMap_reads
    pure (.propose (HandshakeMessage.insertAll entries))
  | 1 =>
    let version ← item HandshakeMessage.decodeVersion decodeVersion_reads
    let data ← item ForwardingVersionData.decode versionData_reads
    pure (.accept version data)
  | 2 =>
    let versions ← item versionList versionList_reads
    pure (.refuse versions)
  | _ => Recorder.fail (.message "unknown handshake message")

/-! Erasing the events gives back the decoders. -/

theorem erase_nullary {α : Type} (constructors : List α) (invalid : String) :
    (nullary constructors invalid).erase = decodeNullary constructors invalid := by
  simp only [nullary, decodeNullary, erase_bind, erase_header, erase_item]
  refine bind_congr fun _ => bind_congr fun val => ?_
  cases constructors[val]? with
  | none => rfl
  | some c => rfl

theorem erase_ite {α : Type} {p : Prop} [Decidable p] (x y : Recorder α) :
    (if p then x else y).erase = if p then x.erase else y.erase := apply_ite erase p x y

theorem erase_traceObject : traceObject.erase = TraceObject.decode := by
  simp only [traceObject, TraceObject.decode, Severity.decode, DetailLevel.decode, erase_bind,
    erase_header, erase_item, erase_ite, erase_fail, erase_nullary, erase_pure]

theorem erase_message : message.erase = Message.decode := by
  simp only [message, Message.decode, erase_bind, erase_header, erase_item]
  refine bind_congr fun _ => bind_congr fun tag => ?_
  split
  · simp only [erase_bind, erase_item, erase_header, erase_pure]
  · rfl
  · simp only [erase_bind, erase_elements, erase_traceObject, erase_pure]
  · simp only [erase_fail]

theorem erase_ekgValue : ekgValue.erase = EkgValue.decode := by
  simp only [ekgValue, EkgValue.decode, erase_bind, erase_header, erase_item]
  refine bind_congr fun _ => bind_congr fun tag => ?_
  split
  · simp only [erase_bind, erase_item, erase_pure]
  · simp only [erase_bind, erase_item, erase_pure]
  · simp only [erase_bind, erase_item, erase_pure]
  · simp only [erase_bind, erase_skip, erase_pure]

theorem erase_ekgPair : ekgPair.erase = EkgMessage.decodePair := by
  simp only [ekgPair, EkgMessage.decodePair, erase_bind, erase_header, erase_item, erase_ekgValue,
    erase_pure]

theorem erase_ekgMessage : ekgMessage.erase = EkgMessage.decode := by
  simp only [ekgMessage, EkgMessage.decode, erase_bind, erase_header, erase_item]
  refine bind_congr fun _ => bind_congr fun tag => ?_
  split
  · simp only [erase_bind, erase_item, erase_header, erase_pure]
  · rfl
  · simp only [erase_bind, erase_item, erase_header, erase_elements, erase_ekgPair, erase_pure]
  · simp only [erase_fail]

theorem erase_replyItem : replyItem.erase = DataPointMessage.decodeReplyItem := by
  simp only [replyItem, DataPointMessage.decodeReplyItem, erase_bind, erase_header, erase_item]
  refine bind_congr fun _ => bind_congr fun name => bind_congr fun len => ?_
  split
  · rfl
  · simp only [erase_bind, erase_item, erase_pure]
  · simp only [erase_fail]

theorem erase_dataPointMessage : dataPointMessage.erase = DataPointMessage.decode := by
  simp only [dataPointMessage, DataPointMessage.decode, erase_bind, erase_header, erase_item]
  refine bind_congr fun _ => bind_congr fun tag => ?_
  split
  · simp only [erase_bind, erase_item, erase_pure]
  · rfl
  · simp only [erase_bind, erase_elements, erase_replyItem, erase_pure]
  · simp only [erase_fail]

theorem erase_handshakeMessage : handshakeMessage.erase = HandshakeMessage.decode := by
  simp only [handshakeMessage, HandshakeMessage.decode, erase_bind, erase_header, erase_item]
  refine bind_congr fun _ => bind_congr fun label => ?_
  split
  · simp only [erase_bind, erase_item, erase_pure, versionMap, bind_assoc]
    refine bind_congr fun len => ?_
    cases len with
    | none => rfl
    | some mapLen => rfl
  · simp only [erase_bind, erase_item, erase_pure]
  · simp only [erase_bind, erase_item, erase_pure, versionList, bind_assoc]
    refine bind_congr fun len => ?_
    cases len with
    | none => rfl
    | some arrLen => rfl
  · simp only [erase_fail]

def Shape : Message → List Event → Prop
  | .done, es => ∃ len, es = [.header len, .item]
  | .traceObjectsRequest _, es =>
    ∃ outer inner, es = [.header outer, .item, .item, .header inner, .item, .item]
  | .traceObjectsReply _, _ => True

/-- The events of each message without a list have their shape. -/
theorem message_yields : Yields message Shape := by
  refine header_yields.bind ?_
  intro len _ heq
  subst heq
  refine (item_yields _ _).bind ?_
  intro tag _ heq
  subst heq
  split
  · refine (item_yields _ _).bind ?_
    intro blocking _ heq
    subst heq
    refine header_yields.bind ?_
    intro inner _ heq
    subst heq
    refine (item_yields _ _).bind ?_
    intro constructorIdx _ heq
    subst heq
    refine (item_yields _ _).bind ?_
    intro n _ heq
    subst heq
    exact yields_pure ⟨len, inner, rfl⟩
  · exact yields_pure ⟨len, rfl⟩
  · intro bs p rest hrun
    obtain ⟨q, mid, -, hrun⟩ := bind_ok_iff.mp hrun
    cases hrun
    trivial
  · exact yields_fail

/-- `Done` keeps the stream in frame under an outer array of one element only. -/
theorem done_lengthsAgree_iff {bs rest : Bytes} (h : Message.decode.run bs = .ok (.done, rest)) :
    ∃ len, message.events bs = [.header len, .item] ∧
      (LengthsAgree (message.events bs) ↔ len = some 1) := by
  rw [← erase_message] at h
  obtain ⟨len, hes⟩ := message_yields.events h
  exact ⟨len, hes, by rw [hes, lengthsAgree_single_iff]⟩

/-- A request keeps it in frame when the two declared lengths sum to five and the
inner one is at most two. -/
theorem request_lengthsAgree_iff {bs rest : Bytes} {req : MsgTraceObjectsRequest}
    (h : Message.decode.run bs = .ok (.traceObjectsRequest req, rest)) :
    ∃ outer inner, message.events bs =
        [.header outer, .item, .item, .header inner, .item, .item] ∧
      (LengthsAgree (message.events bs) ↔
        ∃ a b, outer = some a ∧ inner = some b ∧ a + b = 5 ∧ b ≤ 2) := by
  rw [← erase_message] at h
  obtain ⟨outer, inner, hes⟩ := message_yields.events h
  exact ⟨outer, inner, hes, by rw [hes, lengthsAgree_nested_iff]⟩

inductive Codec
  | message
  | ekg
  | dataPoint
  | handshake
  deriving DecidableEq, Repr

namespace Codec

def Msg : Codec → Type
  | message => Message
  | ekg => EkgMessage
  | dataPoint => DataPointMessage
  | handshake => HandshakeMessage

def decode : (c : Codec) → Decoder c.Msg
  | message => Message.decode
  | ekg => EkgMessage.decode
  | dataPoint => DataPointMessage.decode
  | handshake => HandshakeMessage.decode

def recorder : (c : Codec) → Recorder c.Msg
  | message => Framing.message
  | ekg => ekgMessage
  | dataPoint => dataPointMessage
  | handshake => handshakeMessage

theorem erase_recorder (c : Codec) : c.recorder.erase = c.decode := by
  cases c with
  | message => exact erase_message
  | ekg => exact erase_ekgMessage
  | dataPoint => exact erase_dataPointMessage
  | handshake => exact erase_handshakeMessage

def events (c : Codec) (bs : Bytes) : List Event := c.recorder.events bs

/-- The bytes used are one complete data item exactly when the declared lengths of the
array heads, counted down along what was read, end with the last item. -/
theorem decode_wellFormed_iff (c : Codec) {bs rest : Bytes} {m : c.Msg}
    (h : c.decode.run bs = .ok (m, rest)) :
    ∃ used, bs = used ++ rest ∧ (WellFormed used ↔ LengthsAgree (c.events bs)) := by
  rw [← erase_recorder] at h
  exact c.recorder.wellFormed_iff h

/-- `Done` under an outer array of one element, with the next message behind it. -/
theorem decode_wellFormed_iff_done :
    ∃ used, [0x81, 0x02, 0x81, 0x02] = used ++ [0x81, 0x02] ∧
      (WellFormed used ↔ LengthsAgree (message.events [0x81, 0x02, 0x81, 0x02])) :=
  message.decode_wellFormed_iff (m := Message.done) rfl

/-- `Done` under an outer array of two elements is accepted without the second one. -/
theorem decode_done_outer_two :
    message.decode.run [0x82, 0x02, 0x81, 0x02] = .ok (Message.done, [0x81, 0x02]) ∧
      ¬ ∃ used, [0x82, 0x02, 0x81, 0x02] = used ++ [0x81, 0x02] ∧ WellFormed used := by
  refine ⟨rfl, ?_⟩
  intro h
  obtain ⟨used, heq, hwf⟩ := h
  have hrun : Framing.message.erase.run [0x82, 0x02, 0x81, 0x02] =
      .ok (Message.done, [0x81, 0x02]) := rfl
  obtain ⟨used', heq', hiff⟩ := Framing.message.wellFormed_iff hrun
  rw [heq] at heq'
  obtain rfl := List.append_cancel_right heq'
  have hagree := hiff.mp hwf
  exact absurd hagree (by decide)

end Codec

end Hermod.Framing
