import Mathlib.Data.List.Basic
import Mathlib.Tactic.NormNum
import Hermod.TextLines

/-!
The network addresses of the tracer's configuration, which are written as strings. A
string is cut at its last colon: if a port follows it and no slash stands before it, it
is a TCP address, and any other string is the path of a Unix socket. Written out again,
an address is read as itself.
-/
namespace Hermod.Addresses

open TextLines (Text)

/-- Two paths are the same here when they are spelled the same, which is finer than the
comparison of paths by components. -/
inductive Address
  | localPipe (path : Text)
  | remoteSocket (host : Text) (port : UInt16)
deriving DecidableEq

namespace Address

/-- Also what an address displays as, and what it is serialised to. -/
def toNodeId : Address → Text
  | localPipe path => path
  | remoteSocket host port => host ++ ':' :: Nat.toDigits 10 port.toNat

def serialize (addr : Address) : Text := addr.toNodeId

end Address

def rfind (c : Char) (s : Text) : Option ℕ :=
  (s.reverse.idxOf? c).map fun i => s.length - 1 - i

/-- The number is built up digit by digit, and reading stops where it leaves 16 bits. -/
def parseDigits : Text → ℕ → Option ℕ
  | [], value => some value
  | c :: cs, value =>
    if c.isDigit then
      if 10 * value + (c.toNat - '0'.toNat) < 2 ^ 16 then
        parseDigits cs (10 * value + (c.toNat - '0'.toNat))
      else none
    else none

/-- `str::parse::<u16>`: one plus sign is allowed, a minus sign is not a digit. -/
def parseU16 (s : Text) : Option UInt16 :=
  let digits := if s.head? = some '+' then s.tail else s
  if digits = [] then none else (parseDigits digits 0).map UInt16.ofNat

def deserialize (s : Text) : Address :=
  match rfind ':' s with
  | none => .localPipe s
  | some idx =>
    match parseU16 (s.drop (idx + 1)) with
    | none => .localPipe s
    | some port => if '/' ∈ s.take idx then .localPipe s else .remoteSocket (s.take idx) port

/-! Reading numbers. -/

theorem le_ofDigitChars (digits : Text) (value : ℕ) :
    value ≤ Nat.ofDigitChars 10 digits value := by
  rw [Nat.ofDigitChars_eq_ofDigitChars_zero]
  have hpow : 0 < 10 ^ digits.length := Nat.pow_pos (by omega)
  have hmul : 1 * value ≤ 10 ^ digits.length * value := Nat.mul_le_mul_right value hpow
  omega

/-- Stopping at the first number too large loses no number that fits. -/
theorem parseDigits_eq_some_iff (digits : Text) {value : ℕ} (hvalue : value < 2 ^ 16) (n : ℕ) :
    parseDigits digits value = some n ↔
      (∀ c ∈ digits, c.isDigit) ∧ Nat.ofDigitChars 10 digits value = n ∧ n < 2 ^ 16 := by
  induction digits generalizing value with
  | nil =>
    simp only [parseDigits, Option.some.injEq, Nat.ofDigitChars_nil, List.not_mem_nil,
      false_implies, implies_true, true_and]
    exact ⟨fun h => ⟨h, h ▸ hvalue⟩, And.left⟩
  | cons c cs ih =>
    by_cases hc : c.isDigit
    · by_cases hlt : 10 * value + (c.toNat - '0'.toNat) < 2 ^ 16
      · simp only [parseDigits, hc, hlt, if_true, ih hlt, List.forall_mem_cons, true_and,
          Nat.ofDigitChars_cons]
      · have hle := le_ofDigitChars cs (10 * value + (c.toNat - '0'.toNat))
        simp only [parseDigits, hc, hlt, if_true, if_false, Nat.ofDigitChars_cons]
        refine iff_of_false (by simp) ?_
        rintro ⟨-, rfl, hn⟩
        omega
    · simp [parseDigits, hc]

def Spells (s : Text) (port : UInt16) : Prop :=
  ∃ digits, (s = digits ∨ s = '+' :: digits) ∧ digits ≠ [] ∧ (∀ c ∈ digits, c.isDigit) ∧
    Nat.ofDigitChars 10 digits 0 = port.toNat

theorem parseU16_digits_eq_some_iff {digits : Text} (port : UInt16) :
    (parseDigits digits 0).map UInt16.ofNat = some port ↔
      (∀ c ∈ digits, c.isDigit) ∧ Nat.ofDigitChars 10 digits 0 = port.toNat := by
  rw [Option.map_eq_some_iff]
  constructor
  · rintro ⟨n, hn, rfl⟩
    obtain ⟨hdigits, hvalue, hlt⟩ := (parseDigits_eq_some_iff digits (by norm_num) n).mp hn
    refine ⟨hdigits, ?_⟩
    rw [hvalue, UInt16.toNat_ofNat']
    exact (Nat.mod_eq_of_lt hlt).symm
  · rintro ⟨hdigits, hvalue⟩
    refine ⟨port.toNat, ?_, UInt16.ofNat_toNat⟩
    exact (parseDigits_eq_some_iff digits (by norm_num) _).mpr
      ⟨hdigits, hvalue, UInt16.toNat_lt port⟩

/-- Parsing accepts just the spellings of the port. -/
theorem parseU16_eq_some_iff (s : Text) (port : UInt16) :
    parseU16 s = some port ↔ Spells s port := by
  have hplus : ¬ '+'.isDigit := by decide
  cases s with
  | nil =>
    refine iff_of_false (by simp [parseU16]) ?_
    rintro ⟨digits, hs, hnil, -⟩
    rcases hs with rfl | hs
    · exact hnil rfl
    · simp at hs
  | cons c cs =>
    by_cases hc : c = '+'
    · subst hc
      have hparse : parseU16 ('+' :: cs) =
          if cs = [] then none else (parseDigits cs 0).map UInt16.ofNat := by simp [parseU16]
      rw [hparse]
      constructor
      · intro h
        by_cases hnil : cs = []
        · simp [hnil] at h
        · rw [if_neg hnil, parseU16_digits_eq_some_iff] at h
          exact ⟨cs, Or.inr rfl, hnil, h⟩
      · rintro ⟨digits, hs, hnil, hdigits, hvalue⟩
        rcases hs with rfl | hs
        · exact absurd (hdigits '+' (by simp)) hplus
        · obtain rfl : cs = digits := by simpa using hs
          rw [if_neg hnil, parseU16_digits_eq_some_iff]
          exact ⟨hdigits, hvalue⟩
    · have hparse : parseU16 (c :: cs) = (parseDigits (c :: cs) 0).map UInt16.ofNat := by
        simp [parseU16, hc]
      rw [hparse, parseU16_digits_eq_some_iff]
      constructor
      · intro h
        exact ⟨c :: cs, Or.inl rfl, by simp, h⟩
      · rintro ⟨digits, hs, -, hdigits, hvalue⟩
        rcases hs with rfl | hs
        · exact ⟨hdigits, hvalue⟩
        · exact absurd (List.cons.inj hs).1 hc

/-- A port spells itself. -/
theorem spells_toDigits (port : UInt16) : Spells (Nat.toDigits 10 port.toNat) port := by
  refine ⟨_, Or.inl rfl, Nat.toDigits_ne_nil, ?_, Nat.ofDigitChars_ten_toDigits⟩
  intro c hc
  exact Nat.isDigit_of_mem_toDigits (by norm_num) (by norm_num) hc

theorem Spells.colon_notMem {s : Text} {port : UInt16} (h : Spells s port) : ':' ∉ s := by
  have hcolon : ¬ ':'.isDigit := by decide
  obtain ⟨digits, hs, -, hdigits, -⟩ := h
  have hmem : ':' ∉ digits := fun hmem => hcolon (hdigits ':' hmem)
  rcases hs with rfl | rfl
  · exact hmem
  · simpa using hmem

theorem Spells.unique {s : Text} {p q : UInt16} (hp : Spells s p) (hq : Spells s q) : p = q := by
  rw [← parseU16_eq_some_iff] at hp hq
  exact Option.some.inj (hp.symm.trans hq)

/-! Cutting at the last colon. -/

theorem rfind_eq_none_iff (c : Char) (s : Text) : rfind c s = none ↔ c ∉ s := by
  simp [rfind]

/-- Behind the last colon there is none. -/
theorem rfind_append_cons {c : Char} (host : Text) {tail : Text} (h : c ∉ tail) :
    rfind c (host ++ c :: tail) = some host.length := by
  have hidx : (host ++ c :: tail).reverse.idxOf? c = some tail.length := by
    rw [List.reverse_append, List.reverse_cons, List.append_assoc, List.singleton_append,
      List.idxOf?_eq_some_iff]
    refine ⟨by simp, by simp, ?_⟩
    intro j hj
    have hj' : j < tail.reverse.length := by
      rw [List.length_reverse]
      exact hj
    have hget := List.getElem_mem hj'
    rw [List.getElem_append_left' hj' (c :: host.reverse), List.mem_reverse] at hget
    intro heq
    rw [heq] at hget
    exact h hget
  rw [rfind, hidx, Option.map_some]
  congr 1
  simp only [List.length_append, List.length_cons]
  omega

theorem exists_last {c : Char} {s : Text} (h : c ∈ s) :
    ∃ host tail, s = host ++ c :: tail ∧ c ∉ tail := by
  obtain ⟨tail, host, hs, htail⟩ := List.eq_append_cons_of_mem (List.mem_reverse.mpr h)
  refine ⟨host.reverse, tail.reverse, ?_, by simpa using htail⟩
  rw [← List.reverse_reverse s, hs]
  simp

/-- What is read from a string with a colon. -/
theorem deserialize_append_cons (host : Text) {tail : Text} (h : ':' ∉ tail) :
    deserialize (host ++ ':' :: tail) =
      match parseU16 tail with
      | none => .localPipe (host ++ ':' :: tail)
      | some port =>
        if '/' ∈ host then .localPipe (host ++ ':' :: tail) else .remoteSocket host port := by
  have htake : (host ++ ':' :: tail).take host.length = host := List.take_left
  have hdrop : (host ++ ':' :: tail).drop (host.length + 1) = tail := by
    rw [← List.drop_drop, List.drop_left, List.drop_one, List.tail_cons]
  rw [deserialize, rfind_append_cons host h]
  simp only [htake, hdrop]

theorem deserialize_of_notMem {s : Text} (h : ':' ∉ s) : deserialize s = .localPipe s := by
  rw [deserialize, (rfind_eq_none_iff ':' s).mpr h]

def IsSocket (s host : Text) (port : UInt16) : Prop :=
  ∃ tail, s = host ++ ':' :: tail ∧ Spells tail port ∧ '/' ∉ host

theorem IsSocket.deserialize {s host : Text} {port : UInt16} (h : IsSocket s host port) :
    deserialize s = .remoteSocket host port := by
  obtain ⟨tail, rfl, htail, hslash⟩ := h
  rw [deserialize_append_cons host htail.colon_notMem, (parseU16_eq_some_iff tail port).mpr htail]
  exact if_neg hslash

/-- A string is read as a socket that it spells, or as the path it is. -/
theorem deserialize_cases (s : Text) :
    (∃ host port, IsSocket s host port ∧ deserialize s = .remoteSocket host port) ∨
      deserialize s = .localPipe s := by
  by_cases hs : ':' ∈ s
  · obtain ⟨host, tail, rfl, htail⟩ := exists_last hs
    rw [deserialize_append_cons host htail]
    cases hparse : parseU16 tail with
    | none => exact Or.inr rfl
    | some port =>
      by_cases hslash : '/' ∈ host
      · exact Or.inr (if_pos hslash)
      · have hspells := (parseU16_eq_some_iff tail port).mp hparse
        exact Or.inl ⟨host, port, ⟨tail, rfl, hspells, hslash⟩, if_neg hslash⟩
  · exact Or.inr (deserialize_of_notMem hs)

/-- The host is what stands in front of the last colon. -/
theorem deserialize_eq_remoteSocket_iff (s host : Text) (port : UInt16) :
    deserialize s = .remoteSocket host port ↔ IsSocket s host port := by
  constructor
  · intro h
    rcases deserialize_cases s with ⟨host', port', hsocket, heq⟩ | heq
    · rw [h] at heq
      obtain ⟨rfl, rfl⟩ := Address.remoteSocket.inj heq
      exact hsocket
    · rw [h] at heq
      cases heq
  · exact IsSocket.deserialize

theorem isSocket_serialize {host : Text} (port : UInt16) (h : '/' ∉ host) :
    IsSocket (Address.remoteSocket host port).serialize host port :=
  ⟨_, rfl, spells_toDigits port, h⟩

/-- Serialising and reading again is stable exactly for the addresses that are read from
some string. -/
theorem deserialize_serialize_iff (addr : Address) :
    deserialize addr.serialize = addr ↔ ∃ s, deserialize s = addr := by
  constructor
  · intro h
    exact ⟨addr.serialize, h⟩
  · rintro ⟨s, rfl⟩
    rcases deserialize_cases s with ⟨host, port, hsocket, heq⟩ | heq
    · obtain ⟨tail, -, -, hslash⟩ := hsocket
      rw [heq]
      exact (isSocket_serialize port hslash).deserialize
    · rw [heq]
      exact heq

/-- An address is read back as itself, and a string is a socket exactly when a port
follows its last colon and no slash stands before it. -/
theorem address_parsing (s : Text) :
    deserialize (deserialize s).serialize = deserialize s ∧
      (∀ host port, deserialize s = .remoteSocket host port ↔
        ∃ tail, s = host ++ ':' :: tail ∧ ':' ∉ tail ∧ Spells tail port ∧ '/' ∉ host) ∧
      (deserialize s = .localPipe s ↔
        ¬ ∃ host tail port, s = host ++ ':' :: tail ∧ ':' ∉ tail ∧ Spells tail port ∧
          '/' ∉ host) := by
  have hsocket : ∀ host port, deserialize s = .remoteSocket host port ↔
      ∃ tail, s = host ++ ':' :: tail ∧ ':' ∉ tail ∧ Spells tail port ∧ '/' ∉ host := by
    intro host port
    rw [deserialize_eq_remoteSocket_iff]
    constructor
    · rintro ⟨tail, hs, htail, hslash⟩
      exact ⟨tail, hs, htail.colon_notMem, htail, hslash⟩
    · rintro ⟨tail, hs, -, htail, hslash⟩
      exact ⟨tail, hs, htail, hslash⟩
  refine ⟨(deserialize_serialize_iff _).mpr ⟨s, rfl⟩, hsocket, ?_⟩
  constructor
  · rintro h ⟨host, tail, port, hs⟩
    have heq := (hsocket host port).mpr ⟨tail, hs⟩
    rw [h] at heq
    cases heq
  · intro h
    rcases deserialize_cases s with ⟨host, port, -, heq⟩ | heq
    · obtain ⟨tail, hs⟩ := (hsocket host port).mp heq
      exact absurd ⟨host, tail, port, hs⟩ h
    · exact heq

example : deserialize "::1:+080".toList = .remoteSocket "::1".toList 80 := by decide +kernel

example : deserialize "/run/a:80".toList = .localPipe "/run/a:80".toList := by decide +kernel

end Hermod.Addresses
