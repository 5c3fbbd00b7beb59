import Hermod.CborHeads
import Mathlib.Data.List.AList

/-!
The handshake messages and their wire format. A version table maps version numbers
to the network magic; where the order of its entries shows, in the bytes of a
proposal or in a list of keys, it stands for the iteration order of the hash map.
-/
namespace Hermod.Handshake

open Decoding Decoder Cbor

structure ForwardingVersionData where
  networkMagic : UInt64
  deriving DecidableEq, Repr

namespace ForwardingVersionData

def encode (data : ForwardingVersionData) : Bytes := encodeUInt data.networkMagic.toNat

def decode : Decoder ForwardingVersionData := do
  let networkMagic ← u64
  pure ⟨UInt64.ofNat networkMagic⟩

end ForwardingVersionData

abbrev VersionTable := AList fun _ : UInt64 => ForwardingVersionData

def versionTableV1 (networkMagic : UInt64) : VersionTable :=
  AList.insert 1 ⟨networkMagic⟩ ∅

inductive HandshakeMessage
  | propose (versions : VersionTable)
  | accept (version : UInt64) (data : ForwardingVersionData)
  | refuse (versions : List UInt64)
  deriving DecidableEq

namespace HandshakeMessage

def encode : HandshakeMessage → Bytes
  | propose versions =>
    encodeArray 2 ++ encodeUInt 0 ++ encodeMap versions.entries.length ++
      (versions.entries.map fun e => encodeUInt e.1.toNat ++ e.2.encode).flatten
  | accept version data =>
    encodeArray 3 ++ encodeUInt 1 ++ encodeUInt version.toNat ++ data.encode
  | refuse versions =>
    encodeArray 2 ++ encodeUInt 2 ++ encodeArray versions.length ++
      (versions.map fun v => encodeUInt v.toNat).flatten

def decodeVersion : Decoder UInt64 := UInt64.ofNat <$> u64

def decodeEntry : Decoder (UInt64 × ForwardingVersionData) := do
  let version ← decodeVersion
  let data ← ForwardingVersionData.decode
  pure (version, data)

/-- A later entry of the same version replaces an earlier one. -/
def insertAll (entries : List (UInt64 × ForwardingVersionData)) : VersionTable :=
  entries.foldl (fun versions e => versions.insert e.1 e.2) ∅

def decode : Decoder HandshakeMessage := do
  let _ ← array
  let label ← u16
  match label with
  | 0 =>
    match ← map with
    | none => fail (.message "expected definite map")
    | some mapLen =>
      let entries ← times decodeEntry mapLen
      pure (propose (insertAll entries))
  | 1 =>
    let version ← decodeVersion
    let data ← ForwardingVersionData.decode
    pure (accept version data)
  | 2 =>
    match ← array with
    | none => fail (.message "expected definite array")
    | some arrLen =>
      let versions ← times decodeVersion arrLen
      pure (refuse versions)
  | _ => fail (.message "unknown handshake message")

end HandshakeMessage

@[simp] theorem lookup_versionTableV1 (networkMagic version : UInt64) :
    (versionTableV1 networkMagic).lookup version =
      if version = 1 then some ⟨networkMagic⟩ else none := by
  rw [versionTableV1]
  by_cases h : version = 1
  · rw [if_pos h, h, AList.lookup_insert]
  · rw [if_neg h, AList.lookup_insert_ne h, AList.lookup_empty]

@[simp] theorem keys_versionTableV1 (networkMagic : UInt64) :
    (versionTableV1 networkMagic).keys = [1] := rfl

end Hermod.Handshake
