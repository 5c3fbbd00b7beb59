import Hermod.EkgMessages
import Hermod.ProtocolMessages
import Hermod.Tables

/-!
What a stream of EKG messages is read as. A response carries its metrics in the order in
which the map of the sender iterates and is read into another map, so messages are the
same up to that order. A peer may write the list of pairs in indefinite form, and values
of a kind that the decoder does not know are kept as labels that name the tag.
-/
namespace Hermod.EkgMessages

open Decoding Decoder Cbor ProtocolTypes ProtocolMessages

/-- The bytes of a value and what it is read as: the value itself where the encoder wrote
it, and a placeholder for any item under an unknown tag. -/
inductive ValueForm : EkgValue → Bytes → Prop
  | encoder (v : EkgValue) : ValueForm v v.encode
  | unknown {tag : ℕ} {h t item : Bytes} (hlo : 3 ≤ tag) (hhi : tag ≤ 255)
      (hh : IsHead 4 (some 2) h) (ht : IsHead 0 (some tag) t) (hitem : WellFormed item) :
      ValueForm (.label ("<tag " ++ toString tag ++ ">")) (h ++ t ++ item)

def encodePair (name : String) (value : Bytes) : Bytes :=
  encodeArray 2 ++ encodeStr name ++ value

inductive WireForm : EkgMessage → Bytes → Prop
  | encoder (m : EkgMessage) : WireForm m m.encode
  | pairs (indefinite : Bool) (metrics : Metrics) (ps : List ((String × EkgValue) × Bytes))
      (hps : metrics.entries = (ps.map Prod.fst).map fun p => ⟨p.1, p.2⟩)
      (hforms : ∀ p ∈ ps, ValueForm p.1.2 p.2) :
      WireForm (.resp metrics)
        (encodeArray 2 ++ encodeUInt 1 ++ encodeArray 2 ++ encodeUInt 0 ++
          encodeList indefinite (ps.map fun p => encodePair p.1.1 p.2))

/-- Equal messages, where a response counts as the map it carries. -/
def Same : EkgMessage → EkgMessage → Prop
  | .req getAll, .req getAll' => getAll = getAll'
  | .resp metrics, .resp metrics' => ∀ name, metrics.lookup name = metrics'.lookup name
  | .done, .done => True
  | _, _ => False

/-! Lengths that fit the 64-bit `usize` of a Rust `String` or `HashMap`. -/

def SizedValue : EkgValue → Prop
  | .label s => SizedStr s
  | _ => True

def Sized : EkgMessage → Prop
  | .resp metrics => metrics.entries.length < 2 ^ 64 ∧
      ∀ e ∈ metrics.entries, SizedStr e.1 ∧ SizedValue e.2
  | _ => True

abbrev SizedMessage := { m : EkgMessage // Sized m }

theorem parses_value_encode {v : EkgValue} (hv : SizedValue v) :
    Parses EkgValue.decode v.encode v := by
  intro rest
  cases v with
  | counter v =>
    have hlo := v.le_toInt
    have hhi := v.toInt_lt
    simp only [EkgValue.encode, EkgValue.decode, List.append_assoc, bind_run,
      array_run (by omega : 2 < 2 ^ 64), u8_run (by omega : 0 < 2 ^ 8), i64_run hlo hhi,
      Int64.ofInt_toInt, pure_run]
  | gauge v =>
    have hlo := v.le_toInt
    have hhi := v.toInt_lt
    simp only [EkgValue.encode, EkgValue.decode, List.append_assoc, bind_run,
      array_run (by omega : 2 < 2 ^ 64), u8_run (by omega : 1 < 2 ^ 8), i64_run hlo hhi,
      Int64.ofInt_toInt, pure_run]
  | label s =>
    simp only [EkgValue.encode, EkgValue.decode, List.append_assoc, bind_run,
      array_run (by omega : 2 < 2 ^ 64), u8_run (by omega : 2 < 2 ^ 8), str_run hv, pure_run]

/-- Any item under an unknown tag is read as a placeholder. -/
theorem parses_value_unknown {tag : ℕ} {h t item : Bytes} (hlo : 3 ≤ tag) (hhi : tag ≤ 255)
    (hh : IsHead 4 (some 2) h) (ht : IsHead 0 (some tag) t) (hitem : WellFormed item) :
    Parses EkgValue.decode (h ++ t ++ item) (.label ("<tag " ++ toString tag ++ ">")) := by
  obtain ⟨k, rfl⟩ : ∃ k, tag = k + 3 := ⟨tag - 3, by omega⟩
  have htag : Parses u8 t (k + 3) := ht.parses_uint hhi
  intro rest
  have harray : array.run (h ++ (t ++ (item ++ rest))) = .ok (some 2, t ++ (item ++ rest)) :=
    hh _
  simp only [EkgValue.decode, List.append_assoc, bind_run, harray, htag _,
    hitem.parses_skip rest, pure_run]

theorem ValueForm.parses {v : EkgValue} {bs : Bytes} (h : ValueForm v bs) (hv : SizedValue v) :
    Parses EkgValue.decode bs v := by
  cases h with
  | encoder => exact parses_value_encode hv
  | unknown hlo hhi hh ht hitem => exact parses_value_unknown hlo hhi hh ht hitem

theorem parses_pair {name : String} {v : EkgValue} {bs : Bytes} (hname : SizedStr name)
    (hbs : Parses EkgValue.decode bs v) :
    Parses EkgMessage.decodePair (encodePair name bs) (name, v) := by
  intro rest
  simp only [EkgMessage.decodePair, encodePair, List.append_assoc, bind_run,
    array_run (by omega : 2 < 2 ^ 64), str_run hname, hbs rest, pure_run]

/-- Pairs are read in either form of a list. -/
theorem parses_pairs (indefinite : Bool) (ps : List ((String × EkgValue) × Bytes))
    (hlen : ps.length < 2 ^ 64) (hnames : ∀ p ∈ ps, SizedStr p.1.1)
    (hvalues : ∀ p ∈ ps, Parses EkgValue.decode p.2 p.1.2) :
    Parses (arrayIter EkgMessage.decodePair)
      (encodeList indefinite (ps.map fun p => encodePair p.1.1 p.2)) (ps.map Prod.fst) := by
  have hps := @parses_arrayIter _ EkgMessage.decodePair indefinite
    (ps.map fun p => (p.1, encodePair p.1.1 p.2))
    (by simpa only [List.length_map] using hlen)
    (by
      intro q hq
      obtain ⟨p, hp, rfl⟩ := List.mem_map.mp hq
      exact parses_pair (hnames p hp) (hvalues p hp))
    (by
      intro q hq
      obtain ⟨p, hp, rfl⟩ := List.mem_map.mp hq
      simp only [encodePair, List.append_assoc]
      exact ⟨_, _, rfl, by decide⟩)
  simpa only [List.map_map, Function.comp_def] using hps

theorem insertAll_eq (pairs : List (String × EkgValue)) :
    EkgMessage.insertAll pairs = Tables.insertEntries ∅ pairs := rfl

/-- A response is read in either form of its list and of its values. -/
theorem parses_resp (indefinite : Bool) {metrics : Metrics} (hsized : Sized (.resp metrics))
    (ps : List ((String × EkgValue) × Bytes))
    (hps : metrics.entries = (ps.map Prod.fst).map fun p => ⟨p.1, p.2⟩)
    (hvalues : ∀ p ∈ ps, SizedValue p.1.2 → Parses EkgValue.decode p.2 p.1.2) :
    Parses EkgMessage.decode
      (encodeArray 2 ++ encodeUInt 1 ++ encodeArray 2 ++ encodeUInt 0 ++
        encodeList indefinite (ps.map fun p => encodePair p.1.1 p.2))
      (.resp (EkgMessage.insertAll (ps.map Prod.fst))) := by
  have hlen : ps.length < 2 ^ 64 := by
    have hlen := hsized.1
    rwa [hps, List.length_map, List.length_map] at hlen
  have hentry : ∀ p ∈ ps, SizedStr p.1.1 ∧ SizedValue p.1.2 := by
    intro p hp
    apply hsized.2 ⟨p.1.1, p.1.2⟩
    rw [hps, List.map_map]
    exact List.mem_map_of_mem hp
  have hpairs := parses_pairs indefinite ps hlen (fun p hp => (hentry p hp).1)
    fun p hp => hvalues p hp (hentry p hp).2
  intro rest
  simp only [EkgMessage.decode, List.append_assoc, bind_run, array_run (by omega : 2 < 2 ^ 64),
    u8_run (by omega : 1 < 2 ^ 8), u8_run (by omega : 0 < 2 ^ 8), hpairs rest, pure_run]

theorem same_resp {metrics : Metrics} {pairs : List (String × EkgValue)}
    (hpairs : metrics.entries = pairs.map fun p => ⟨p.1, p.2⟩) :
    Same (.resp metrics) (.resp (EkgMessage.insertAll pairs)) := by
  intro name
  rw [insertAll_eq, Tables.lookup_rebuilt metrics pairs hpairs]

theorem encode_resp_eq_pairs (metrics : Metrics) :
    (EkgMessage.resp metrics).encode =
      encodeArray 2 ++ encodeUInt 1 ++ encodeArray 2 ++ encodeUInt 0 ++
        encodeList false
          ((metrics.entries.map fun e => ((e.1, e.2), e.2.encode)).map fun p =>
            encodePair p.1.1 p.2) := by
  simp only [EkgMessage.encode, encodeList, encodePair, List.map_map, Function.comp_def,
    List.length_map, Bool.false_eq_true, if_false, List.append_assoc]

/-- What the encoder writes is read as the same message. -/
theorem parses_encode {m : EkgMessage} (hm : Sized m) :
    ∃ m', Same m m' ∧ Parses EkgMessage.decode m.encode m' := by
  cases m with
  | req getAll =>
    refine ⟨.req getAll, rfl, fun rest => ?_⟩
    have hreq : ∀ more : Bytes,
        u8.run (encodeUInt (if getAll then 0 else 2) ++ more) =
          .ok (if getAll then 0 else 2, more) := fun more => u8_run (by split <;> omega) more
    have hback : ((if getAll then 0 else 2) == 0) = getAll := by
      cases getAll <;> rfl
    simp only [EkgMessage.encode, EkgMessage.decode, List.append_assoc, bind_run,
      array_run (by omega : 2 < 2 ^ 64), array_run (by omega : 1 < 2 ^ 64),
      u8_run (by omega : 0 < 2 ^ 8), hreq, hback, pure_run]
  | resp metrics =>
    have hps : metrics.entries =
        ((metrics.entries.map fun e => ((e.1, e.2), e.2.encode)).map Prod.fst).map
          fun p => ⟨p.1, p.2⟩ := by
      simp only [List.map_map, Function.comp_def, List.map_id']
    refine ⟨_, same_resp hps, ?_⟩
    rw [encode_resp_eq_pairs]
    refine parses_resp false hm _ hps ?_
    intro p hp hv
    obtain ⟨e, -, rfl⟩ := List.mem_map.mp hp
    exact parses_value_encode hv
  | done =>
    refine ⟨.done, trivial, fun rest => ?_⟩
    simp only [EkgMessage.encode, EkgMessage.decode, List.append_assoc, bind_run,
      array_run (by omega : 1 < 2 ^ 64), u8_run (by omega : 1 < 2 ^ 8), pure_run]

theorem WireForm.parses {m : EkgMessage} {bs : Bytes} (h : WireForm m bs) (hm : Sized m) :
    ∃ m', Same m m' ∧ Parses EkgMessage.decode bs m' := by
  cases h with
  | encoder => exact parses_encode hm
  | pairs indefinite metrics ps hps hforms =>
    exact ⟨_, same_resp hps, parses_resp indefinite hm ps hps fun p hp => (hforms p hp).parses⟩

end Hermod.EkgMessages
