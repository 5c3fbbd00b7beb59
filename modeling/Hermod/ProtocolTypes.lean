import Hermod.CborHeads

/-!
The trace object and the types it is made of, with their wire format. Enumerations
are written as a one-element array holding the constructor index, optional text as
an array of at most one element, and timestamps as tag 1000 over a two-entry map of
seconds and picoseconds.
-/
namespace Hermod.ProtocolTypes

open Decoding Decoder Cbor

inductive Severity
  | debug
  | info
  | notice
  | warning
  | error
  | critical
  | alert
  | emergency
  deriving DecidableEq, Repr

inductive DetailLevel
  | dMinimal
  | dNormal
  | dDetailed
  | dMaximum
  deriving DecidableEq, Repr

def encodeNullary (index : ℕ) : Bytes := encodeArray 1 ++ encodeUInt index

/-- The length of the array is read but not compared with one. -/
def decodeNullary {α : Type} (constructors : List α) (invalid : String) : Decoder α := do
  let _ ← array
  let val ← u8
  match constructors[val]? with
  | some c => pure c
  | none => fail (.message invalid)

namespace Severity

def toNat : Severity → ℕ
  | debug => 0
  | info => 1
  | notice => 2
  | warning => 3
  | error => 4
  | critical => 5
  | alert => 6
  | emergency => 7

def constructors : List Severity :=
  [debug, info, notice, warning, error, critical, alert, emergency]

instance : ToString Severity where
  toString
    | debug => "Debug"
    | info => "Info"
    | notice => "Notice"
    | warning => "Warning"
    | error => "Error"
    | critical => "Critical"
    | alert => "Alert"
    | emergency => "Emergency"

def encode (s : Severity) : Bytes := encodeNullary s.toNat

def decode : Decoder Severity := decodeNullary constructors "invalid severity value"

end Severity

namespace DetailLevel

def toNat : DetailLevel → ℕ
  | dMinimal => 0
  | dNormal => 1
  | dDetailed => 2
  | dMaximum => 3

def constructors : List DetailLevel := [dMinimal, dNormal, dDetailed, dMaximum]

def encode (d : DetailLevel) : Bytes := encodeNullary d.toNat

def decode : Decoder DetailLevel := decodeNullary constructors "invalid detail level"

end DetailLevel

/-- The seconds and nanoseconds that chrono accepts: years -262143 to 262142, and a
leap second only in the last second of a minute. -/
def ValidTimestamp (secs : ℤ) (nanos : ℕ) : Prop :=
  -8334601228800 ≤ secs ∧ secs ≤ 8210266876799 ∧ nanos < 2000000000 ∧
    (1000000000 ≤ nanos → secs % 60 = 59)

instance (secs : ℤ) (nanos : ℕ) : Decidable (ValidTimestamp secs nanos) := by
  unfold ValidTimestamp
  infer_instance

theorem validTimestamp_zero : ValidTimestamp 0 0 := by decide

structure DateTime where
  timestamp : ℤ
  timestampSubsecNanos : ℕ
  valid : ValidTimestamp timestamp timestampSubsecNanos
  deriving DecidableEq

def DateTime.fromTimestamp (secs : ℤ) (nanos : ℕ) : Option DateTime :=
  if h : ValidTimestamp secs nanos then some ⟨secs, nanos, h⟩ else none

structure TraceObject where
  toHuman : Option String
  toMachine : String
  toNamespace : List String
  toSeverity : Severity
  toDetails : DetailLevel
  toTimestamp : DateTime
  toHostname : String
  toThreadId : String
  deriving DecidableEq

def encodeMaybe : Option String → Bytes
  | some h => encodeArray 1 ++ encodeStr h
  | none => encodeArray 0

def decodeMaybe : Decoder (Option String) := do
  match ← array with
  | some 0 => pure none
  | some 1 => some <$> str
  | _ => fail (.message "invalid Maybe encoding")

def DateTime.encode (t : DateTime) : Bytes :=
  encodeTag 1000 ++ encodeMap 2 ++ encodeUInt 1 ++ encodeInt t.timestamp ++
    encodeInt (-12) ++ encodeUInt (t.timestampSubsecNanos * 1000)

def decodeTimestamp (secs : ℤ) (nanos : ℕ) : Decoder DateTime :=
  match DateTime.fromTimestamp secs nanos with
  | some t => pure t
  | none => fail (.message "invalid timestamp")

/-- Tag 1000 carries seconds and picoseconds, tag 1 a float of seconds. The cast of
the nanoseconds to 32 bits wraps. -/
def DateTime.decode : Decoder DateTime := do
  let t ← tag
  if t = 1000 then
    let mapLen ← map
    if mapLen ≠ some 2 then
      fail (.message "expected map of length 2 for UTCTime (tag 1000)")
    else
      let k0 ← i64
      if k0 ≠ 1 then fail (.message "expected key 1 (secs) in tag-1000 UTCTime")
      else
        let secs ← i64
        let k1 ← i64
        if k1 ≠ -12 then fail (.message "expected key -12 (psecs) in tag-1000 UTCTime")
        else
          let psecs ← u64
          decodeTimestamp secs (psecs / 1000 % 2 ^ 32)
  else if t = 1 then
    let timestamp ← f64
    let secs := timestamp.floor.toInt64
    let nanos := ((timestamp - secs.toFloat) * 1000000000.0).toUInt32
    decodeTimestamp secs.toInt nanos.toNat
  else fail (.message "expected UTCTime tag (1000 or 1)")

namespace TraceObject

def encode (t : TraceObject) : Bytes :=
  encodeArray 9 ++ encodeUInt 0 ++
    encodeMaybe t.toHuman ++
    encodeStr t.toMachine ++
    encodeArray t.toNamespace.length ++ (t.toNamespace.map encodeStr).flatten ++
    t.toSeverity.encode ++
    t.toDetails.encode ++
    t.toTimestamp.encode ++
    encodeStr t.toHostname ++
    encodeStr t.toThreadId

def decode : Decoder TraceObject := do
  let len ← array
  if len ≠ some 9 then
    fail (.message "TraceObject must have 9 elements (constructor index + 8 fields)")
  else
    let _constructorIdx ← u8
    let toHuman ← decodeMaybe
    let toMachine ← str
    let toNamespace ← arrayIter str
    let toSeverity ← Severity.decode
    let toDetails ← DetailLevel.decode
    let toTimestamp ← DateTime.decode
    let toHostname ← str
    let toThreadId ← str
    pure { toHuman, toMachine, toNamespace, toSeverity, toDetails, toTimestamp,
           toHostname, toThreadId }

end TraceObject

/-! Reading back what was written. -/

theorem nullary_run {α : Type} {constructors : List α} {invalid : String} {index : ℕ} {c : α}
    (hc : constructors[index]? = some c) (hindex : index < 2 ^ 8) (rest : Bytes) :
    (decodeNullary constructors invalid).run (encodeNullary index ++ rest) = .ok (c, rest) := by
  simp only [decodeNullary, encodeNullary, List.append_assoc, bind_run,
    array_run (by omega : 1 < 2 ^ 64), u8_run hindex, hc, pure_run]

theorem severity_run (s : Severity) (rest : Bytes) :
    Severity.decode.run (s.encode ++ rest) = .ok (s, rest) := by
  cases s <;> exact nullary_run rfl (by simp only [Severity.toNat]; omega) rest

theorem detailLevel_run (d : DetailLevel) (rest : Bytes) :
    DetailLevel.decode.run (d.encode ++ rest) = .ok (d, rest) := by
  cases d <;> exact nullary_run rfl (by simp only [DetailLevel.toNat]; omega) rest

/-- A string whose length fits the 64-bit `usize` of a Rust `String`. -/
def SizedStr (s : String) : Prop := (utf8 s).length < 2 ^ 64

theorem maybe_run {h : Option String} (hs : ∀ s ∈ h, SizedStr s) (rest : Bytes) :
    decodeMaybe.run (encodeMaybe h ++ rest) = .ok (h, rest) := by
  cases h with
  | none =>
    simp only [decodeMaybe, encodeMaybe, bind_run, array_run (by omega : 0 < 2 ^ 64), pure_run]
  | some s =>
    simp only [decodeMaybe, encodeMaybe, List.append_assoc, bind_run,
      array_run (by omega : 1 < 2 ^ 64), map_run, str_run (hs s rfl)]

theorem DateTime.fromTimestamp_self (t : DateTime) :
    fromTimestamp t.timestamp t.timestampSubsecNanos = some t := by
  rw [fromTimestamp, dif_pos t.valid]

/-- The picoseconds written for a timestamp are divided back exactly. -/
theorem dateTime_run (t : DateTime) (rest : Bytes) :
    DateTime.decode.run (t.encode ++ rest) = .ok (t, rest) := by
  obtain ⟨hlo, hhi, hnanos, -⟩ := t.valid
  have hback : t.timestampSubsecNanos * 1000 / 1000 % 2 ^ 32 = t.timestampSubsecNanos := by
    omega
  have hkey : ∀ rest, i64.run (encodeUInt 1 ++ rest) = .ok (1, rest) := fun rest =>
    i64_run (n := 1) (by omega) (by omega) rest
  simp only [DateTime.decode, DateTime.encode, List.append_assoc, bind_run,
    tag_run (by omega : 1000 < 2 ^ 64),
    if_true, map_run_encodeMap (by omega : 2 < 2 ^ 64), ne_eq, not_true_eq_false, if_false, hkey,
    i64_run (n := t.timestamp) (by omega) (by omega),
    i64_run (n := -12) (by omega) (by omega),
    u64_run (n := t.timestampSubsecNanos * 1000) (by omega), hback, decodeTimestamp,
    DateTime.fromTimestamp_self, pure_run]

end Hermod.ProtocolTypes
