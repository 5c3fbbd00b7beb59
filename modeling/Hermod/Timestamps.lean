import Hermod.ProtocolTypes

/-!
The instant that a trace object is decoded with, against the seconds and picoseconds that
were sent. The division leaves up to 55 bits of nanoseconds, of which the cast keeps 32; the
check that follows sees only those. So some numbers of picoseconds that are no instant at
all are taken for one.
-/
namespace Hermod.Timestamps

open Decoding Decoder Cbor ProtocolTypes

def fieldsBefore : Decoder (DateTime → String → String → TraceObject) := do
  let len ← array
  if len ≠ some 9 then
    fail (.message "TraceObject must have 9 elements (constructor index + 8 fields)")
  else
    let _constructorIdx ← u8
    let toHuman ← decodeMaybe
    let toMachine ← str
    let toNamespace ← arrayIter str
    let toSeverity ← Severity.decode
    let toDetails ← DetailLevel.decode
    pure fun toTimestamp toHostname toThreadId =>
      { toHuman, toMachine, toNamespace, toSeverity, toDetails, toTimestamp, toHostname,
        toThreadId }

def withTime {α : Type} (time : Decoder α) : Decoder (α × (DateTime → TraceObject)) := do
  let make ← fieldsBefore
  let a ← time
  let toHostname ← str
  let toThreadId ← str
  pure (a, fun toTimestamp => make toTimestamp toHostname toThreadId)

/-- The seconds and picoseconds under tag 1000, as they were sent. -/
def extendedTime : Decoder (ℤ × ℕ) := do
  let t ← tag
  if t ≠ 1000 then fail (.message "expected UTCTime tag 1000")
  else
    let mapLen ← map
    if mapLen ≠ some 2 then
      fail (.message "expected map of length 2 for UTCTime (tag 1000)")
    else
      let k0 ← i64
      if k0 ≠ 1 then fail (.message "expected key 1 (secs) in tag-1000 UTCTime")
      else
        let secs ← i64
        let k1 ← i64
        if k1 ≠ -12 then fail (.message "expected key -12 (psecs) in tag-1000 UTCTime")
        else
          let psecs ← u64
          pure (secs, psecs)

/-- `bs` starts with a trace object whose timestamp was sent as these seconds and picoseconds. -/
def Sent (bs : Bytes) (secs : ℤ) (psecs : ℕ) : Prop :=
  ∃ make rest, (withTime extendedTime).run bs = .ok (((secs, psecs), make), rest)

/-- What is accepted is the instant that was sent, and what is no instant is rejected. -/
structure Exact (bs : Bytes) (secs : ℤ) (psecs : ℕ) : Prop where
  accepted : ∀ t rest, TraceObject.decode.run bs = .ok (t, rest) →
    t.toTimestamp.timestamp = secs ∧ t.toTimestamp.timestampSubsecNanos = psecs / 1000
  rejected : ¬ ValidTimestamp secs (psecs / 1000) → ∃ e, TraceObject.decode.run bs = .error e

theorem decode_eq : TraceObject.decode = (fun p => p.2 p.1) <$> withTime DateTime.decode := by
  simp only [TraceObject.decode, withTime, fieldsBefore, map_eq_pure_bind, bind_assoc]
  congr 1
  funext len
  split
  · rfl
  · simp only [bind_assoc, pure_bind]

section Reading

variable {bs mid rest : Bytes} {secs : ℤ} {psecs : ℕ}

/-- The fields before the timestamp do not touch it. -/
theorem toTimestamp_of_fieldsBefore {make : DateTime → String → String → TraceObject}
    (h : fieldsBefore.run bs = .ok (make, rest)) (t : DateTime) (toHostname toThreadId : String) :
    (make t toHostname toThreadId).toTimestamp = t := by
  obtain ⟨len, mid₁, -, h⟩ := bind_ok_iff.mp h
  split at h
  · cases h
  · obtain ⟨constructorIdx, mid₂, -, h⟩ := bind_ok_iff.mp h
    obtain ⟨toHuman, mid₃, -, h⟩ := bind_ok_iff.mp h
    obtain ⟨toMachine, mid₄, -, h⟩ := bind_ok_iff.mp h
    obtain ⟨toNamespace, mid₅, -, h⟩ := bind_ok_iff.mp h
    obtain ⟨toSeverity, mid₆, -, h⟩ := bind_ok_iff.mp h
    obtain ⟨toDetails, mid₇, -, h⟩ := bind_ok_iff.mp h
    cases h
    rfl

/-- What was sent under tag 1000 is checked after the cast. -/
theorem dateTime_decode_of_extendedTime (h : extendedTime.run bs = .ok ((secs, psecs), mid)) :
    DateTime.decode.run bs = (decodeTimestamp secs (psecs / 1000 % 2 ^ 32)).run mid := by
  obtain ⟨t, mid₁, htag, h⟩ := bind_ok_iff.mp h
  split at h
  · cases h
  · rename_i ht
    obtain ⟨mapLen, mid₂, hmap, h⟩ := bind_ok_iff.mp h
    split at h
    · cases h
    · rename_i hmapLen
      obtain ⟨k0, mid₃, hk0, h⟩ := bind_ok_iff.mp h
      split at h
      · cases h
      · rename_i hkey0
        obtain ⟨secs', mid₄, hsecs, h⟩ := bind_ok_iff.mp h
        obtain ⟨k1, mid₅, hk1, h⟩ := bind_ok_iff.mp h
        split at h
        · cases h
        · rename_i hkey1
          obtain ⟨psecs', mid₆, hpsecs, h⟩ := bind_ok_iff.mp h
          cases h
          have ht' : t = 1000 := not_not.mp ht
          simp only [DateTime.decode, bind_run, htag, if_pos ht', hmap, if_neg hmapLen, hk0,
            if_neg hkey0, hsecs, hk1, if_neg hkey1, hpsecs]

/-- A trace object whose timestamp was sent under tag 1000 is decoded with what the cast
leaves, or rejected. -/
theorem decode_sent {make : DateTime → TraceObject}
    (h : (withTime extendedTime).run bs = .ok (((secs, psecs), make), rest)) :
    (∀ t, (make t).toTimestamp = t) ∧
      TraceObject.decode.run bs =
        match DateTime.fromTimestamp secs (psecs / 1000 % 2 ^ 32) with
        | some t => .ok (make t, rest)
        | none => .error (.message "invalid timestamp") := by
  obtain ⟨make', mid₁, hbefore, h⟩ := bind_ok_iff.mp h
  obtain ⟨time, mid₂, htime, h⟩ := bind_ok_iff.mp h
  obtain ⟨toHostname, mid₃, hhostname, h⟩ := bind_ok_iff.mp h
  obtain ⟨toThreadId, mid₄, hthread, h⟩ := bind_ok_iff.mp h
  cases h
  refine ⟨fun t => toTimestamp_of_fieldsBefore hbefore t toHostname toThreadId, ?_⟩
  simp only [decode_eq, withTime, map_run, bind_run, hbefore,
    dateTime_decode_of_extendedTime htime, decodeTimestamp]
  cases DateTime.fromTimestamp secs (psecs / 1000 % 2 ^ 32) with
  | none => rfl
  | some t => simp only [pure_run, hhostname, hthread]

theorem fromTimestamp_of_valid {nanos : ℕ} (h : ValidTimestamp secs nanos) :
    DateTime.fromTimestamp secs nanos = some ⟨secs, nanos, h⟩ := dif_pos h

theorem fromTimestamp_of_not_valid {nanos : ℕ} (h : ¬ ValidTimestamp secs nanos) :
    DateTime.fromTimestamp secs nanos = none := dif_neg h

/-- A time comes in seconds and picoseconds, or as a float. -/
theorem extendedTime_of_dateTime {t : DateTime} (h : DateTime.decode.run bs = .ok (t, rest)) :
    (∃ secs psecs, extendedTime.run bs = .ok ((secs, psecs), rest)) ∨
      ∃ mid, tag.run bs = .ok (1, mid) := by
  obtain ⟨n, mid₁, htag, h⟩ := bind_ok_iff.mp h
  split at h
  · rename_i hn
    obtain ⟨mapLen, mid₂, hmap, h⟩ := bind_ok_iff.mp h
    split at h
    · cases h
    · rename_i hmapLen
      obtain ⟨k0, mid₃, hk0, h⟩ := bind_ok_iff.mp h
      split at h
      · cases h
      · rename_i hkey0
        obtain ⟨secs, mid₄, hsecs, h⟩ := bind_ok_iff.mp h
        obtain ⟨k1, mid₅, hk1, h⟩ := bind_ok_iff.mp h
        split at h
        · cases h
        · rename_i hkey1
          obtain ⟨psecs, mid₆, hpsecs, h⟩ := bind_ok_iff.mp h
          have hrest : mid₆ = rest := by
            rw [decodeTimestamp] at h
            split at h
            · cases h
              rfl
            · cases h
          subst hrest
          refine Or.inl ⟨secs, psecs, ?_⟩
          simp only [extendedTime, bind_run, htag, if_neg (not_not.mpr hn), hmap, if_neg hmapLen,
            hk0, if_neg hkey0, hsecs, hk1, if_neg hkey1, hpsecs, pure_run]
  · split at h
    · rename_i hone
      exact Or.inr ⟨mid₁, hone ▸ htag⟩
    · cases h

/-- The timestamp of an accepted trace object was sent under tag 1000 or under tag 1. -/
theorem sent_of_accepted {t : TraceObject} (h : TraceObject.decode.run bs = .ok (t, rest)) :
    (∃ secs psecs, Sent bs secs psecs) ∨
      ∃ make mid mid', fieldsBefore.run bs = .ok (make, mid) ∧ tag.run mid = .ok (1, mid') := by
  rw [decode_eq, map_eq_pure_bind] at h
  obtain ⟨p, mid₁, h, -⟩ := bind_ok_iff.mp h
  obtain ⟨make, mid₂, hbefore, h⟩ := bind_ok_iff.mp h
  obtain ⟨time, mid₃, htime, h⟩ := bind_ok_iff.mp h
  obtain ⟨toHostname, mid₄, hhostname, h⟩ := bind_ok_iff.mp h
  obtain ⟨toThreadId, mid₅, hthread, h⟩ := bind_ok_iff.mp h
  rcases extendedTime_of_dateTime htime with ⟨secs, psecs, hextended⟩ | ⟨mid', htag⟩
  · refine Or.inl ⟨secs, psecs, fun t => make t toHostname toThreadId, mid₅, ?_⟩
    simp only [withTime, bind_run, hbefore, hextended, hhostname, hthread, pure_run]
  · exact Or.inr ⟨make, mid₂, mid', hbefore, htag⟩

end Reading

/-- The picoseconds that were sent are kept, or rejected, exactly when their nanoseconds fit
32 bits, or when what the cast leaves of them is rejected. -/
theorem exact_iff {bs : Bytes} {secs : ℤ} {psecs : ℕ} (hsent : Sent bs secs psecs) :
    Exact bs secs psecs ↔
      psecs / 1000 < 2 ^ 32 ∨ ¬ ValidTimestamp secs (psecs / 1000 % 2 ^ 32) := by
  obtain ⟨make, rest, hsent⟩ := hsent
  obtain ⟨hmake, hdecode⟩ := decode_sent hsent
  by_cases hvalid : ValidTimestamp secs (psecs / 1000 % 2 ^ 32)
  · rw [fromTimestamp_of_valid hvalid] at hdecode
    rw [or_iff_left (not_not.mpr hvalid)]
    constructor
    · intro h
      have hnanos := (h.accepted _ _ hdecode).2
      rw [hmake] at hnanos
      have hlt := Nat.mod_lt (psecs / 1000) (by omega : 0 < 2 ^ 32)
      simp only at hnanos
      omega
    · intro hfits
      have hsame := Nat.mod_eq_of_lt hfits
      constructor
      · intro t rest' h
        rw [hdecode] at h
        cases h
        rw [hmake]
        exact ⟨rfl, hsame⟩
      · intro hinvalid
        rw [hsame] at hvalid
        exact absurd hvalid hinvalid
  · rw [fromTimestamp_of_not_valid hvalid] at hdecode
    refine iff_of_true ⟨?_, fun _ => ⟨_, hdecode⟩⟩ (Or.inr hvalid)
    intro t rest' h
    rw [hdecode] at h
    cases h

def sentAs (secs : ℤ) (psecs : ℕ) : Bytes :=
  encodeArray 9 ++ (encodeUInt 0 ++ (encodeMaybe none ++ (encodeStr "\x7b\x7d" ++
    (encodeArray 0 ++ (Severity.info.encode ++ (DetailLevel.dNormal.encode ++
      (encodeTag 1000 ++ (encodeMap 2 ++ (encodeUInt 1 ++ (encodeInt secs ++
        (encodeInt (-12) ++ (encodeUInt psecs ++ (encodeStr "host" ++ encodeStr "1")))))))))))))

theorem sent_sentAs {secs : ℤ} {psecs : ℕ} (hlo : -2 ^ 63 ≤ secs) (hhi : secs < 2 ^ 63)
    (hpsecs : psecs < 2 ^ 64) : Sent (sentAs secs psecs) secs psecs := by
  have hkey : ∀ rest, i64.run (encodeUInt 1 ++ rest) = .ok (1, rest) := fun rest =>
    i64_run (n := 1) (by omega) (by omega) rest
  have hmachine : ∀ rest, str.run (encodeStr "\x7b\x7d" ++ rest) = .ok ("\x7b\x7d", rest) :=
    str_run (by decide)
  have hhost : ∀ rest, str.run (encodeStr "host" ++ rest) = .ok ("host", rest) :=
    str_run (by decide)
  have hthread : str.run (encodeStr "1") = .ok ("1", []) := by
    have hrun := str_run (s := "1") (by decide) []
    rwa [List.append_nil] at hrun
  have hmaybe : ∀ rest, decodeMaybe.run (encodeMaybe none ++ rest) = .ok (none, rest) :=
    maybe_run (by simp)
  rw [Sent, sentAs]
  simp only [withTime, fieldsBefore, extendedTime, arrayIter, bind_run,
    array_run (by omega : 9 < 2 ^ 64), ne_eq, not_true_eq_false, if_false,
    u8_run (by omega : 0 < 2 ^ 8), hmaybe, hmachine, array_run (by omega : 0 < 2 ^ 64), times,
    pure_run, severity_run, detailLevel_run, tag_run (by omega : 1000 < 2 ^ 64),
    map_run_encodeMap (by omega : 2 < 2 ^ 64), hkey, i64_run hlo hhi,
    i64_run (n := -12) (by omega) (by omega), u64_run hpsecs, hhost, hthread]
  exact ⟨_, _, rfl⟩

/-- 4294967296 nanoseconds are more than a second can have, and are taken for zero. -/
theorem nanoseconds_wrapped :
    Sent (sentAs 0 4294967296000) 0 4294967296000 ∧ ¬ ValidTimestamp 0 (4294967296000 / 1000) ∧
      (∃ t rest, TraceObject.decode.run (sentAs 0 4294967296000) = .ok (t, rest) ∧
        t.toTimestamp.timestampSubsecNanos = 0) ∧
      ¬ Exact (sentAs 0 4294967296000) 0 4294967296000 := by
  have hsent : Sent (sentAs 0 4294967296000) 0 4294967296000 :=
    sent_sentAs (by omega) (by omega) (by omega)
  obtain ⟨make, rest, hread⟩ := hsent
  obtain ⟨hmake, hdecode⟩ := decode_sent hread
  have hvalid : ValidTimestamp 0 (4294967296000 / 1000 % 2 ^ 32) := by decide
  rw [fromTimestamp_of_valid hvalid] at hdecode
  have hzero : (4294967296000 / 1000 % 2 ^ 32 : ℕ) = 0 := by decide
  refine ⟨⟨make, rest, hread⟩, by decide, ⟨_, _, hdecode, ?_⟩, ?_⟩
  · rw [hmake]
    exact hzero
  · intro h
    have hnanos := (h.accepted _ _ hdecode).2
    rw [hmake] at hnanos
    exact absurd (hzero.symm.trans hnanos) (by decide)

theorem exact_iff_half_second : Exact (sentAs 7 500000000000) 7 500000000000 :=
  (exact_iff (sent_sentAs (by omega) (by omega) (by omega))).mpr (Or.inl (by decide))

end Hermod.Timestamps
