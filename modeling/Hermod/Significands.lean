import Mathlib.Algebra.Group.Nat.Defs
import Mathlib.Data.Int.Basic
import Mathlib.Tactic.Common

/-!
Whole numbers in a binary floating-point format, of which only the length of the significand
matters: a number is rounded to the nearest with so many bits, and of two that are as near to
the one whose last bit is zero. Rounding keeps the order and does nothing to what is rounded.
-/
namespace Hermod.Significands

/-- How many units there are in `n`, to the nearest, ties to even. -/
def nearest (n unit : ℕ) : ℕ :=
  if 2 * (n % unit) < unit ∨ 2 * (n % unit) = unit ∧ n / unit % 2 = 0 then n / unit
  else n / unit + 1

/-- The unit in the last place of a significand of `p` bits. -/
def unitOf (p n : ℕ) : ℕ := 2 ^ (n.log2 + 1 - p)

def roundNat (p n : ℕ) : ℕ := nearest n (unitOf p n) * unitOf p n

def round (p : ℕ) (n : ℤ) : ℤ := n.sign * roundNat p n.natAbs

/-- As `f64`, as long as `n` does not pass its largest number. -/
def toF64 (n : ℤ) : ℤ := round 53 n

/-! Natural numbers. -/

section Nat

variable {p m n unit : ℕ}

theorem nearest_mul (hunit : 0 < unit) (q : ℕ) : nearest (q * unit) unit = q := by
  rw [nearest, Nat.mul_mod_left, Nat.mul_div_cancel _ hunit, if_pos (Or.inl hunit)]

/-- Between two multiples of the unit the remainder decides. -/
theorem nearest_mono (unit : ℕ) (h : m ≤ n) : nearest m unit ≤ nearest n unit := by
  have hm := Nat.div_add_mod m unit
  have hn := Nat.div_add_mod n unit
  have hdiv : m / unit ≤ n / unit := Nat.div_le_div_right h
  unfold nearest
  rcases Nat.lt_or_eq_of_le hdiv with hlt | heq
  · split <;> split <;> omega
  · rw [heq] at hm ⊢
    split <;> split <;> omega

theorem unitOf_pos (p n : ℕ) : 0 < unitOf p n := Nat.two_pow_pos _

theorem roundNat_zero (p : ℕ) : roundNat p 0 = 0 := by
  rw [roundNat, nearest, Nat.zero_mod, Nat.zero_div, if_pos (Or.inl (unitOf_pos p 0)),
    Nat.zero_mul]

/-- A power of two is a multiple of the unit of any number that is not far above it. -/
theorem roundNat_pow {k : ℕ} (hk : n.log2 + 1 - p ≤ k) :
    nearest (2 ^ k) (unitOf p n) * unitOf p n = 2 ^ k := by
  have hsplit : 2 ^ k = 2 ^ (k - (n.log2 + 1 - p)) * unitOf p n := by
    rw [unitOf, ← Nat.pow_add, Nat.sub_add_cancel hk]
  rw [hsplit, nearest_mul (unitOf_pos p n)]

/-- A number stays between the powers of two around it. -/
theorem roundNat_bounds (hp : 0 < p) (hn : n ≠ 0) :
    2 ^ n.log2 ≤ roundNat p n ∧ roundNat p n ≤ 2 ^ (n.log2 + 1) := by
  have hlow := nearest_mono (unitOf p n) (Nat.log2_self_le hn)
  have hhigh := nearest_mono (unitOf p n) (Nat.le_of_lt (@Nat.lt_log2_self n))
  constructor
  · rw [← @roundNat_pow p n n.log2 (by omega)]
    exact Nat.mul_le_mul_right _ hlow
  · rw [← @roundNat_pow p n (n.log2 + 1) (by omega)]
    exact Nat.mul_le_mul_right _ hhigh

/-- Of two numbers with as many bits the units are the same; otherwise a power of two is between
them. -/
theorem roundNat_mono (hp : 0 < p) (h : m ≤ n) : roundNat p m ≤ roundNat p n := by
  by_cases hm : m = 0
  · rw [hm, roundNat_zero]
    exact Nat.zero_le _
  · have hn : n ≠ 0 := by omega
    have hlog : m.log2 ≤ n.log2 :=
      (Nat.le_log2 hn).mpr (Nat.le_trans (Nat.log2_self_le hm) h)
    rcases Nat.lt_or_eq_of_le hlog with hlt | heq
    · calc
        roundNat p m ≤ 2 ^ (m.log2 + 1) := (roundNat_bounds hp hm).2
        _ ≤ 2 ^ n.log2 := Nat.pow_le_pow_right (by omega) hlt
        _ ≤ roundNat p n := (roundNat_bounds hp hn).1
    · have hunit : unitOf p m = unitOf p n := by rw [unitOf, unitOf, heq]
      rw [roundNat, roundNat, hunit]
      exact Nat.mul_le_mul_right _ (nearest_mono (unitOf p n) h)

/-- What is rounded has a significand that is short enough. -/
theorem roundNat_roundNat (hp : 0 < p) (n : ℕ) : roundNat p (roundNat p n) = roundNat p n := by
  by_cases hn : n = 0
  · rw [hn, roundNat_zero, roundNat_zero]
  · obtain ⟨hlow, hhigh⟩ := roundNat_bounds hp hn
    rcases Nat.lt_or_eq_of_le hhigh with hlt | heq
    · have hne : roundNat p n ≠ 0 := by
        have := Nat.two_pow_pos n.log2
        omega
      have hlog : (roundNat p n).log2 = n.log2 := (Nat.log2_eq_iff hne).mpr ⟨hlow, hlt⟩
      have hunit : unitOf p (roundNat p n) = unitOf p n := by rw [unitOf, unitOf, hlog]
      rw [roundNat, hunit]
      conv_lhs => rw [roundNat, nearest_mul (unitOf_pos p n)]
      rfl
    · rw [heq, roundNat]
      apply roundNat_pow
      rw [Nat.log2_two_pow]
      omega

end Nat

/-! Integers, and the format with 53 bits. -/

section Int

variable {m n : ℤ}

theorem round_natCast (p n : ℕ) : round p n = roundNat p n := by
  rcases Nat.eq_zero_or_pos n with rfl | hpos
  · rw [round, Int.natAbs_natCast, roundNat_zero]
    rfl
  · rw [round, Int.natAbs_natCast, Int.sign_eq_one_of_pos (by omega), Int.one_mul]

theorem round_neg (p : ℕ) (n : ℤ) : round p (-n) = -round p n := by
  rw [round, round, Int.sign_neg, Int.natAbs_neg, Int.neg_mul]

theorem toF64_mono (h : m ≤ n) : toF64 m ≤ toF64 n := by
  have hnat : ∀ a b : ℕ, a ≤ b → (roundNat 53 a : ℤ) ≤ roundNat 53 b := fun a b hab =>
    Int.ofNat_le.mpr (roundNat_mono (by omega) hab)
  have hnonneg : ∀ a : ℕ, 0 ≤ (roundNat 53 a : ℤ) := fun a => Int.natCast_nonneg _
  unfold toF64
  obtain ⟨a, rfl | rfl⟩ := m.eq_nat_or_neg <;> obtain ⟨b, rfl | rfl⟩ := n.eq_nat_or_neg
  · rw [round_natCast, round_natCast]
    exact hnat a b (by omega)
  · obtain rfl : a = 0 := by omega
    obtain rfl : b = 0 := by omega
    exact Int.le_refl _
  · rw [round_neg, round_natCast, round_natCast]
    have := hnonneg a
    have := hnonneg b
    omega
  · rw [round_neg, round_neg, round_natCast, round_natCast]
    have := hnat b a (by omega)
    omega

theorem toF64_toF64 (n : ℤ) : toF64 (toF64 n) = toF64 n := by
  unfold toF64
  obtain ⟨a, rfl | rfl⟩ := n.eq_nat_or_neg
  · rw [round_natCast, round_natCast, roundNat_roundNat (by omega)]
  · rw [round_neg, round_neg, round_natCast, round_natCast, roundNat_roundNat (by omega)]

theorem toF64_nonneg (h : 0 ≤ n) : 0 ≤ toF64 n := toF64_mono h

theorem toF64_neg (h : n < 0) : toF64 n < 0 := by
  have hle : toF64 n ≤ toF64 (-1) := toF64_mono (by omega)
  have hone : toF64 (-1) = -1 := by decide
  omega

/-- The first whole number without a `f64` of its own, between two that are as near. -/
example : toF64 (2 ^ 53 + 1) = 2 ^ 53 := by decide

end Int

end Hermod.Significands
