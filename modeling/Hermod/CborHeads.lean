import Hermod.Streaming
import Mathlib.Tactic.Ring

/-!
Heads of CBOR data items (RFC 8949, section 3) and the primitive readers and
writers built from them. The initial byte carries a major type and either a small
argument or the width of the big-endian argument that follows; additional
information 31 marks an indefinite length. Writers always choose the shortest
argument, readers accept every width.
-/
namespace Hermod.Cbor

open Decoding Decoder

def majorOf (b : UInt8) : ℕ := b.toNat / 32

def infoOf (b : UInt8) : ℕ := b.toNat % 32

def initialByte (major info : ℕ) : UInt8 := UInt8.ofNat (major * 32 + info)

def breakByte : UInt8 := 0xff

theorem toNat_initialByte {major info : ℕ} (hm : major < 8) (hi : info < 32) :
    (initialByte major info).toNat = major * 32 + info := by
  simp only [initialByte, UInt8.toNat_ofNat']
  omega

@[simp] theorem majorOf_initialByte {major info : ℕ} (hm : major < 8) (hi : info < 32) :
    majorOf (initialByte major info) = major := by
  rw [majorOf, toNat_initialByte hm hi]
  omega

@[simp] theorem infoOf_initialByte {major info : ℕ} (hm : major < 8) (hi : info < 32) :
    infoOf (initialByte major info) = info := by
  rw [infoOf, toNat_initialByte hm hi]
  omega

/-! Big-endian arguments. -/

def beBytes : ℕ → ℕ → Bytes
  | 0, _ => []
  | k + 1, n => beBytes k (n / 256) ++ [UInt8.ofNat n]

def beNat (bs : Bytes) : ℕ := bs.foldl (fun acc b => acc * 256 + b.toNat) 0

theorem beBytes_length (k n : ℕ) : (beBytes k n).length = k := by
  induction k generalizing n with
  | zero => rfl
  | succ k ih => simp [beBytes, ih]

theorem beNat_append_singleton (bs : Bytes) (b : UInt8) :
    beNat (bs ++ [b]) = beNat bs * 256 + b.toNat := by
  simp only [beNat, List.foldl_append, List.foldl_cons, List.foldl_nil]

/-- Numbers that fit are read back from their bytes. -/
theorem beNat_beBytes {k n : ℕ} (h : n < 256 ^ k) : beNat (beBytes k n) = n := by
  induction k generalizing n with
  | zero =>
    have hn : n = 0 := by simpa using h
    subst hn
    rfl
  | succ k ih =>
    have hdiv : n / 256 < 256 ^ k := by
      rw [Nat.div_lt_iff_lt_mul (by omega)]
      simpa only [Nat.pow_succ] using h
    rw [beBytes, beNat_append_singleton, ih hdiv, UInt8.toNat_ofNat']
    omega

/-! Heads. -/

def head (major n : ℕ) : Bytes :=
  if n ≤ 0x17 then [initialByte major n]
  else if n ≤ 0xff then initialByte major 24 :: beBytes 1 n
  else if n ≤ 0xffff then initialByte major 25 :: beBytes 2 n
  else if n ≤ 0xffffffff then initialByte major 26 :: beBytes 4 n
  else initialByte major 27 :: beBytes 8 n

def beUInt (k : ℕ) : Decoder ℕ := beNat <$> take k

def unsigned (info : ℕ) : Decoder ℕ :=
  if info ≤ 0x17 then pure info
  else if info = 24 then beUInt 1
  else if info = 25 then beUInt 2
  else if info = 26 then beUInt 4
  else if info = 27 then beUInt 8
  else fail .typeMismatch

/-- A head of the given major type; `none` is the indefinite-length form. -/
def headOf (major : ℕ) : Decoder (Option ℕ) := do
  let b ← byte
  if majorOf b = major then
    if infoOf b = 31 then pure none else some <$> unsigned (infoOf b)
  else fail .typeMismatch

theorem beUInt_run_beBytes {k n : ℕ} (h : n < 256 ^ k) (rest : Bytes) :
    (beUInt k).run (beBytes k n ++ rest) = .ok (n, rest) := by
  rw [beUInt, map_run, take_run_append _ _ (beBytes_length k n)]
  simp only [beNat_beBytes h]

theorem headOf_run_cons {major : ℕ} {b : UInt8} (hb : majorOf b = major) (bs : Bytes) :
    (headOf major).run (b :: bs) =
      if infoOf b = 31 then .ok (none, bs) else (some <$> unsigned (infoOf b)).run bs := by
  rw [headOf, bind_run, byte_run_cons]
  simp only [if_pos hb]
  split
  · rfl
  · rfl

/-- The shortest head is read back. -/
theorem headOf_run_head {major n : ℕ} (hm : major < 8) (hn : n < 2 ^ 64) (rest : Bytes) :
    (headOf major).run (head major n ++ rest) = .ok (some n, rest) := by
  have hstep : ∀ {info : ℕ} {arg : Bytes}, info < 31 →
      (unsigned info).run (arg ++ rest) = .ok (n, rest) →
      (headOf major).run (initialByte major info :: arg ++ rest) = .ok (some n, rest) := by
    intro info arg hi hrun
    rw [List.cons_append, headOf_run_cons (majorOf_initialByte hm (by omega)),
      infoOf_initialByte hm (by omega), if_neg (by omega), map_run, hrun]
  unfold head
  split
  · exact @hstep n [] (by omega) (by simp [unsigned, *])
  · split
    · exact hstep (by omega) (by simpa [unsigned] using beUInt_run_beBytes (by omega) rest)
    · split
      · exact hstep (by omega) (by simpa [unsigned] using beUInt_run_beBytes (by omega) rest)
      · split
        · exact hstep (by omega) (by simpa [unsigned] using beUInt_run_beBytes (by omega) rest)
        · exact hstep (by omega) (by simpa [unsigned] using beUInt_run_beBytes (by omega) rest)

theorem headOf_run_indefinite {major : ℕ} (hm : major < 8) (rest : Bytes) :
    (headOf major).run (initialByte major 31 :: rest) = .ok (none, rest) := by
  rw [headOf_run_cons (majorOf_initialByte hm (by omega)), infoOf_initialByte hm (by omega),
    if_pos rfl]

theorem head_eq_cons (major n : ℕ) : ∃ info arg, info < 31 ∧
    head major n = initialByte major info :: arg := by
  unfold head
  split
  · exact ⟨n, [], by omega, rfl⟩
  · split
    · exact ⟨24, _, by omega, rfl⟩
    · split
      · exact ⟨25, _, by omega, rfl⟩
      · split
        · exact ⟨26, _, by omega, rfl⟩
        · exact ⟨27, _, by omega, rfl⟩

/-! Writers. -/

def encodeUInt (n : ℕ) : Bytes := head 0 n

/-- Negative integers are written as the argument `-1 - n` of major type 1. -/
def encodeInt (n : ℤ) : Bytes := if 0 ≤ n then head 0 n.toNat else head 1 (-1 - n).toNat

def encodeBytes (bs : Bytes) : Bytes := head 2 bs.length ++ bs

def utf8 (s : String) : Bytes := s.toUTF8.data.toList

def encodeStr (s : String) : Bytes := head 3 (utf8 s).length ++ utf8 s

def encodeArray (n : ℕ) : Bytes := head 4 n

def beginArray : UInt8 := initialByte 4 31

def encodeMap (n : ℕ) : Bytes := head 5 n

def encodeTag (n : ℕ) : Bytes := head 6 n

def encodeBool (b : Bool) : Bytes := [if b then 0xf5 else 0xf4]

/-! Readers. -/

def uint (max : ℕ) : Decoder ℕ := do
  match ← headOf 0 with
  | none => fail .typeMismatch
  | some n => if n ≤ max then pure n else fail .overflow

def u8 : Decoder ℕ := uint 0xff

def u16 : Decoder ℕ := uint 0xffff

def u64 : Decoder ℕ := uint 0xffffffffffffffff

def i64 : Decoder ℤ := do
  let b ← peek
  if majorOf b = 1 then
    match ← headOf 1 with
    | none => fail .typeMismatch
    | some n => if n ≤ 0x7fffffffffffffff then pure (-1 - (n : ℤ)) else fail .overflow
  else
    let n ← uint 0x7fffffffffffffff
    pure (n : ℤ)

def bool : Decoder Bool := do
  let b ← byte
  if b = 0xf4 then pure false
  else if b = 0xf5 then pure true
  else fail .typeMismatch

def bytes : Decoder Bytes := do
  match ← headOf 2 with
  | none => fail .typeMismatch
  | some n => take n

/-- A byte string, with the chunks of the indefinite-length form put together. -/
def bytesIter : Decoder Bytes := do
  match ← headOf 2 with
  | none => List.flatten <$> untilByte breakByte bytes
  | some n => take n

def str : Decoder String := do
  match ← headOf 3 with
  | none => fail .typeMismatch
  | some n =>
    let bs ← take n
    match String.fromUTF8? ⟨bs.toArray⟩ with
    | some s => pure s
    | none => fail .utf8

def array : Decoder (Option ℕ) := headOf 4

def map : Decoder (Option ℕ) := headOf 5

def tag : Decoder ℕ := do
  match ← headOf 6 with
  | none => fail .typeMismatch
  | some n => pure n

def arrayIter {α : Type} (item : Decoder α) : Decoder (List α) := do
  match ← array with
  | some n => times item n
  | none => untilByte breakByte item

/-- The value of a half-precision float, from its sixteen bits. -/
def halfToFloat (bits : ℕ) : Float :=
  let exponent := bits / 1024 % 32
  let fraction := bits % 1024
  let magnitude :=
    if exponent = 0 then (Float.ofNat fraction).scaleB (-24)
    else if exponent = 31 then if fraction = 0 then 1.0 / 0.0 else 0.0 / 0.0
    else (Float.ofNat (1024 + fraction)).scaleB ((exponent : ℤ) - 25)
  if bits / 32768 = 0 then magnitude else -magnitude

def f64 : Decoder Float := do
  let b ← byte
  if b = 0xf9 then halfToFloat <$> beUInt 2
  else if b = 0xfa then (fun n => (Float32.ofBits (UInt32.ofNat n)).toFloat) <$> beUInt 4
  else if b = 0xfb then (fun n => Float.ofBits (UInt64.ofNat n)) <$> beUInt 8
  else fail .typeMismatch

def atBreak : Decoder Bool := do
  let b ← peek
  pure (b == breakByte)

theorem uint_run_encodeUInt {max n : ℕ} (hn : n ≤ max) (hmax : max < 2 ^ 64) (rest : Bytes) :
    (uint max).run (encodeUInt n ++ rest) = .ok (n, rest) := by
  simp only [uint, encodeUInt, bind_run, headOf_run_head (by omega : 0 < 8)
    (by omega : n < 2 ^ 64) rest, if_pos hn, pure_run]

theorem u8_run {n : ℕ} (hn : n < 2 ^ 8) (rest : Bytes) :
    u8.run (encodeUInt n ++ rest) = .ok (n, rest) :=
  uint_run_encodeUInt (by omega) (by omega) rest

theorem u16_run {n : ℕ} (hn : n < 2 ^ 16) (rest : Bytes) :
    u16.run (encodeUInt n ++ rest) = .ok (n, rest) :=
  uint_run_encodeUInt (by omega) (by omega) rest

theorem u64_run {n : ℕ} (hn : n < 2 ^ 64) (rest : Bytes) :
    u64.run (encodeUInt n ++ rest) = .ok (n, rest) :=
  uint_run_encodeUInt (by omega) (by omega) rest

theorem i64_run {n : ℤ} (hlo : -2 ^ 63 ≤ n) (hhi : n < 2 ^ 63) (rest : Bytes) :
    i64.run (encodeInt n ++ rest) = .ok (n, rest) := by
  unfold encodeInt
  split
  · rename_i hn
    have huint := @uint_run_encodeUInt 0x7fffffffffffffff n.toNat (by omega) (by omega) rest
    obtain ⟨info, arg, hi, hhead⟩ := head_eq_cons 0 n.toNat
    rw [encodeUInt, hhead, List.cons_append] at huint
    rw [hhead, List.cons_append, i64, bind_run, peek_run_cons]
    simp only [majorOf_initialByte (by omega : 0 < 8) (by omega : info < 32), huint, bind_run,
      pure_run, zero_ne_one, if_false]
    rw [Int.toNat_of_nonneg hn]
  · rename_i hn
    have hrun := headOf_run_head (by omega : 1 < 8) (n := (-1 - n).toNat) (by omega) rest
    obtain ⟨info, arg, hi, hhead⟩ := head_eq_cons 1 (-1 - n).toNat
    rw [hhead, List.cons_append] at hrun
    rw [hhead, List.cons_append, i64, bind_run, peek_run_cons]
    have hle : (-1 - n).toNat ≤ 0x7fffffffffffffff := by omega
    have hval : -1 - ((-1 - n).toNat : ℤ) = n := by omega
    simp only [majorOf_initialByte (by omega : 1 < 8) (by omega : info < 32), if_true, hrun,
      bind_run, if_pos hle, pure_run, hval]

theorem bool_run (b : Bool) (rest : Bytes) :
    bool.run (encodeBool b ++ rest) = .ok (b, rest) := by
  cases b <;> rfl

theorem array_run {n : ℕ} (hn : n < 2 ^ 64) (rest : Bytes) :
    array.run (encodeArray n ++ rest) = .ok (some n, rest) :=
  headOf_run_head (by omega) hn rest

theorem array_run_begin (rest : Bytes) : array.run (beginArray :: rest) = .ok (none, rest) :=
  headOf_run_indefinite (by omega) rest

theorem map_run_encodeMap {n : ℕ} (hn : n < 2 ^ 64) (rest : Bytes) :
    map.run (encodeMap n ++ rest) = .ok (some n, rest) :=
  headOf_run_head (by omega) hn rest

theorem tag_run {n : ℕ} (hn : n < 2 ^ 64) (rest : Bytes) :
    tag.run (encodeTag n ++ rest) = .ok (n, rest) := by
  simp only [tag, encodeTag, bind_run, headOf_run_head (by omega : 6 < 8) hn rest, pure_run]

theorem bytes_run {bs : Bytes} (hn : bs.length < 2 ^ 64) (rest : Bytes) :
    bytes.run (encodeBytes bs ++ rest) = .ok (bs, rest) := by
  simp only [bytes, encodeBytes, List.append_assoc, bind_run,
    headOf_run_head (by omega : 2 < 8) hn, take_run_append bs rest rfl]

theorem fromUTF8?_utf8 (s : String) : String.fromUTF8? ⟨(utf8 s).toArray⟩ = some s := by
  have hdata : (⟨(utf8 s).toArray⟩ : ByteArray) = s.toByteArray := by
    simp only [utf8, String.toUTF8_eq_toByteArray, Array.toArray_toList]
  rw [hdata, String.fromUTF8?, dif_pos s.isValidUTF8]
  rfl

theorem str_run {s : String} (hn : (utf8 s).length < 2 ^ 64) (rest : Bytes) :
    str.run (encodeStr s ++ rest) = .ok (s, rest) := by
  simp only [str, encodeStr, List.append_assoc, bind_run,
    headOf_run_head (by omega : 3 < 8) hn, take_run_append (utf8 s) rest rfl,
    fromUTF8?_utf8, pure_run]

end Hermod.Cbor
