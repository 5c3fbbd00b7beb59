import Hermod.CborItems
import Mathlib.Data.List.AList

/-!
The messages of the EKG protocol and their wire format. A response and the end of
the session share a tag and differ in the length of the outer array, so the decoder
looks at both. A metric of an unknown kind is skipped and kept as a label.
-/
namespace Hermod.EkgMessages

open Decoding Decoder Cbor

inductive EkgValue
  | counter (v : Int64)
  | gauge (v : Int64)
  | label (s : String)
  deriving DecidableEq

namespace EkgValue

def encode : EkgValue → Bytes
  | counter v => encodeArray 2 ++ encodeUInt 0 ++ encodeInt v.toInt
  | gauge v => encodeArray 2 ++ encodeUInt 1 ++ encodeInt v.toInt
  | label s => encodeArray 2 ++ encodeUInt 2 ++ encodeStr s

def decode : Decoder EkgValue := do
  let _ ← array
  let tag ← u8
  match tag with
  | 0 =>
    let v ← i64
    pure (counter (Int64.ofInt v))
  | 1 =>
    let v ← i64
    pure (gauge (Int64.ofInt v))
  | 2 =>
    let s ← str
    pure (label s)
  | _ =>
    skip
    pure (label ("<tag " ++ toString tag ++ ">"))

end EkgValue

abbrev Metrics := AList fun _ : String => EkgValue

inductive EkgMessage
  | req (getAll : Bool)
  | resp (metrics : Metrics)
  | done
  deriving DecidableEq

namespace EkgMessage

def encode : EkgMessage → Bytes
  | req getAll =>
    encodeArray 2 ++ encodeUInt 0 ++ encodeArray 1 ++ encodeUInt (if getAll then 0 else 2)
  | resp metrics =>
    encodeArray 2 ++ encodeUInt 1 ++ encodeArray 2 ++ encodeUInt 0 ++
      encodeArray metrics.entries.length ++
      (metrics.entries.map fun e => encodeArray 2 ++ encodeStr e.1 ++ e.2.encode).flatten
  | done => encodeArray 1 ++ encodeUInt 1

def decodePair : Decoder (String × EkgValue) := do
  let _ ← array
  let key ← str
  let val ← EkgValue.decode
  pure (key, val)

/-- A later pair of the same name replaces an earlier one. -/
def insertAll (pairs : List (String × EkgValue)) : Metrics :=
  pairs.foldl (fun metrics p => metrics.insert p.1 p.2) ∅

def decode : Decoder EkgMessage := do
  let arrLen ← array
  let tag ← u8
  match arrLen, tag with
  | some 2, 0 =>
    let _ ← array
    let reqTag ← u8
    pure (req (reqTag == 0))
  | some 1, 1 => pure done
  | some 2, 1 =>
    let _ ← array
    let _constructorIdx ← u8
    let pairs ← arrayIter decodePair
    pure (resp (insertAll pairs))
  | _, _ => fail (.message "unknown EKG message format")

end EkgMessage

end Hermod.EkgMessages
