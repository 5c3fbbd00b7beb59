import Hermod.CborHeads

/-!
The messages of the DataPoint protocol and their wire format. A reply pairs each
requested name with the bytes of its value, if there is one. The bytes may come in
chunks, and the lists in definite or in indefinite form.
-/
namespace Hermod.DataPointMessages

open Decoding Decoder Cbor

inductive DataPointMessage
  | request (names : List String)
  | reply (items : List (String × Option Bytes))
  | done
  deriving DecidableEq

namespace DataPointMessage

def encodeValue : Option Bytes → Bytes
  | none => encodeArray 0
  | some bytes => encodeArray 1 ++ encodeBytes bytes

def encodeReplyItem (item : String × Option Bytes) : Bytes :=
  encodeArray 2 ++ encodeStr item.1 ++ encodeValue item.2

def encode : DataPointMessage → Bytes
  | request names =>
    encodeArray 2 ++ encodeUInt 1 ++ encodeArray names.length ++ (names.map encodeStr).flatten
  | reply items =>
    encodeArray 2 ++ encodeUInt 3 ++ encodeArray items.length ++
      (items.map encodeReplyItem).flatten
  | done => encodeArray 1 ++ encodeUInt 2

def decodeReplyItem : Decoder (String × Option Bytes) := do
  let _ ← array
  let name ← str
  match ← array with
  | some 0 => pure (name, none)
  | some 1 =>
    let buf ← bytesIter
    pure (name, some buf)
  | _ => fail (.message "invalid Maybe encoding in DataPointsReply")

def decode : Decoder DataPointMessage := do
  let _ ← array
  let tag ← u8
  match tag with
  | 1 =>
    let names ← arrayIter str
    pure (request names)
  | 2 => pure done
  | 3 =>
    let items ← arrayIter decodeReplyItem
    pure (reply items)
  | _ => fail (.message "unknown DataPoint tag")

end DataPointMessage

end Hermod.DataPointMessages
