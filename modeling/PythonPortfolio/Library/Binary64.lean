import Mathlib.Algebra.Order.Ring.Int
import Mathlib.Tactic.Positivity
import Mathlib.Tactic.Ring

/-!
# Doubles as exact numbers

A finite double is an integer multiple of `2 ^ -1074`, so the value of a pattern of
64 bits is an integer number of these units and needs no rounding. An integer is
converted to the nearest double, ties to the even significand; the conversion fails
past the largest one. It gives the integer back whenever some double equals it.
-/

namespace PythonPortfolio.Library.Binary64

/-- The number of units in one. -/
def unit : Nat := 2 ^ 1074

/-- The pattern of positive infinity. -/
def infinity : Nat := 2047 * 2 ^ 52

inductive Number where
  | nan
  | infinite (negative : Bool)
  | finite (units : Int)
deriving DecidableEq

/-- The units in a finite pattern without its sign. -/
def units (magnitude : Nat) : Nat :=
  if magnitude / 2 ^ 52 = 0 then magnitude % 2 ^ 52
  else (2 ^ 52 + magnitude % 2 ^ 52) * 2 ^ (magnitude / 2 ^ 52 - 1)

def decode (bits : UInt64) : Number :=
  let negative := decide (2 ^ 63 ≤ bits.toNat)
  let magnitude := bits.toNat % 2 ^ 63
  if magnitude < infinity then .finite (if negative then -units magnitude else units magnitude)
  else if magnitude = infinity then .infinite negative
  else .nan

/-- The order of a number and an integer; NaN has none. -/
def Number.compareInt (x : Number) (k : Int) : Option Ordering :=
  match x with
  | .nan => none
  | .infinite negative => some (if negative then .lt else .gt)
  | .finite units => some (compare units (k * unit))

/-- `n / d` to the nearest integer, ties to even. -/
def roundHalfEven (n d : Nat) : Nat :=
  if 2 * (n % d) < d ∨ (2 * (n % d) = d ∧ n / d % 2 = 0) then n / d else n / d + 1

/-- The pattern of a natural number, were there no largest exponent. The leading bit
of the significand counts one into the exponent, and so does a carry. -/
def magnitude (a : Nat) : Nat :=
  if a = 0 then 0
  else (a.log2 + 1022) * 2 ^ 52 + roundHalfEven (a * 2 ^ 52) (2 ^ a.log2)

def ofInt (x : Int) : Option UInt64 :=
  if magnitude x.natAbs < infinity then
    some (UInt64.ofNat ((if x < 0 then 2 ^ 63 else 0) + magnitude x.natAbs))
  else none

theorem roundHalfEven_mul {d : Nat} (hd : 0 < d) (k : Nat) : roundHalfEven (k * d) d = k := by
  rw [roundHalfEven, Nat.mul_mod_left, Nat.mul_div_cancel k hd, if_pos (Or.inl (by omega))]

theorem unit_pos : 0 < unit := by
  unfold unit
  positivity

theorem two_pow_mul_unit (e : Nat) : 2 ^ e * unit = 2 ^ (e + 1074) := by
  rw [Nat.pow_add, unit]

/-- The exponent of a pattern from the size of its value. -/
theorem units_of_normal {m : Nat} (h : m / 2 ^ 52 ≠ 0) :
    2 ^ (m / 2 ^ 52 + 51) ≤ units m ∧ units m < 2 ^ (m / 2 ^ 52 + 52) := by
  obtain ⟨e, he⟩ := Nat.exists_eq_succ_of_ne_zero h
  have hlt := Nat.mod_lt m (y := 2 ^ 52) (by positivity)
  rw [units, if_neg h, he, Nat.succ_sub_one]
  constructor
  · rw [show e.succ + 51 = 52 + e by omega, Nat.pow_add]
    exact Nat.mul_le_mul_right _ (Nat.le_add_right _ _)
  · rw [show e.succ + 52 = 53 + e by omega, Nat.pow_add]
    exact Nat.mul_lt_mul_of_pos_right (by omega) (by positivity)

section OfUnits

variable {m a : Nat}

/-- The exponent of the pattern of a natural number. -/
theorem exponent_of_units (hm : m / 2 ^ 52 ≠ 0) (ha : a ≠ 0) (h : units m = a * unit) :
    m / 2 ^ 52 = a.log2 + 1023 := by
  obtain ⟨hlow, hhigh⟩ := units_of_normal hm
  have hself : 2 ^ (a.log2 + 1074) ≤ units m := by
    rw [h, ← two_pow_mul_unit]
    exact Nat.mul_le_mul_right unit (Nat.log2_self_le ha)
  have hnext : units m < 2 ^ (a.log2 + 1075) := by
    rw [h, show a.log2 + 1075 = a.log2 + 1 + 1074 by omega, ← two_pow_mul_unit]
    exact Nat.mul_lt_mul_of_pos_right Nat.lt_log2_self unit_pos
  have hle := (Nat.pow_lt_pow_iff_right (by omega)).mp (hlow.trans_lt hnext)
  have hge := (Nat.pow_lt_pow_iff_right (by omega)).mp (hself.trans_lt hhigh)
  omega

/-- Its significand is the exact quotient. -/
theorem significand_of_units (hm : m / 2 ^ 52 ≠ 0) (ha : a ≠ 0) (h : units m = a * unit) :
    a * 2 ^ 52 = (2 ^ 52 + m % 2 ^ 52) * 2 ^ a.log2 := by
  have hexp := exponent_of_units hm ha h
  rw [units, if_neg hm, hexp, show a.log2 + 1023 - 1 = a.log2 + 1022 by omega] at h
  refine Nat.mul_right_cancel unit_pos ?_
  calc a * 2 ^ 52 * unit
    _ = a * unit * 2 ^ 52 := Nat.mul_right_comm _ _ _
    _ = (2 ^ 52 + m % 2 ^ 52) * 2 ^ (a.log2 + 1022 + 52) := by
      rw [← h, Nat.mul_assoc, ← Nat.pow_add]
    _ = (2 ^ 52 + m % 2 ^ 52) * 2 ^ a.log2 * unit := by
      rw [Nat.mul_assoc, two_pow_mul_unit]

/-- A subnormal pattern is less than one, so it holds no natural number but zero. -/
theorem eq_zero_of_subnormal (hm : m / 2 ^ 52 = 0) (h : units m = a * unit) : a = 0 ∧ m = 0 := by
  have hunits : units m = m := by
    rw [units, if_pos hm]
    omega
  have hunit : 2 ^ 52 ≤ unit := by
    unfold unit
    gcongr <;> omega
  rw [hunits] at h
  have ha : a = 0 := by
    by_contra hne
    have := Nat.le_mul_of_pos_left unit (Nat.pos_of_ne_zero hne)
    omega
  rw [ha, Nat.zero_mul] at h
  exact ⟨ha, h⟩

/-- The pattern that holds a natural number is the one it is converted to. -/
theorem magnitude_of_units (h : units m = a * unit) : magnitude a = m := by
  by_cases hm : m / 2 ^ 52 = 0
  · obtain ⟨rfl, rfl⟩ := eq_zero_of_subnormal hm h
    rfl
  have ha : a ≠ 0 := by
    intro hzero
    have hpos : 0 < units m := lt_of_lt_of_le (by positivity) (units_of_normal hm).1
    rw [hzero] at h
    omega
  have hcarry : ∀ e r : Nat, (e + 1022) * 2 ^ 52 + (2 ^ 52 + r) = 2 ^ 52 * (e + 1023) + r := by
    omega
  rw [magnitude, if_neg ha, significand_of_units hm ha h, roundHalfEven_mul (by positivity),
    hcarry, ← exponent_of_units hm ha h]
  exact Nat.div_add_mod m (2 ^ 52)

end OfUnits

theorem decode_eq_finite {bits : UInt64} {n : Int} : decode bits = .finite n ↔
    bits.toNat % 2 ^ 63 < infinity ∧
      n = if 2 ^ 63 ≤ bits.toNat then -(units (bits.toNat % 2 ^ 63) : Int)
        else (units (bits.toNat % 2 ^ 63) : Int) := by
  unfold decode
  dsimp only
  split_ifs <;> simp_all [eq_comm]
  omega

/-- An integer that some double equals is converted to a double that equals it. -/
theorem ofInt_exact {x : Int} {bits : UInt64} (h : decode bits = .finite (x * unit)) :
    ∃ bits', ofInt x = some bits' ∧ decode bits' = .finite (x * unit) := by
  obtain ⟨hfinite, hx⟩ := decode_eq_finite.mp h
  have hunits : units (bits.toNat % 2 ^ 63) = x.natAbs * unit := by
    have habs := congrArg Int.natAbs hx
    rw [Int.natAbs_mul, Int.natAbs_natCast] at habs
    rw [habs]
    split_ifs <;> simp
  have hmagnitude := magnitude_of_units hunits
  rw [← hmagnitude] at hfinite hunits
  refine ⟨_, if_pos hfinite, decode_eq_finite.mpr ?_⟩
  have hsmall : magnitude x.natAbs < 2 ^ 63 := lt_trans hfinite (by decide)
  by_cases hneg : x < 0
  · have hbits : (UInt64.ofNat (2 ^ 63 + magnitude x.natAbs)).toNat =
        2 ^ 63 + magnitude x.natAbs :=
      UInt64.toNat_ofNat_of_lt' (show _ < 2 ^ 64 by omega)
    rw [if_pos hneg, hbits, if_pos (by omega), Nat.add_mod_left, Nat.mod_eq_of_lt hsmall, hunits]
    refine ⟨hfinite, ?_⟩
    have : (x.natAbs : Int) = -x := by omega
    rw [Nat.cast_mul, this]
    ring
  · have hbits : (UInt64.ofNat (0 + magnitude x.natAbs)).toNat =
        magnitude x.natAbs := by
      rw [Nat.zero_add]
      exact UInt64.toNat_ofNat_of_lt' (show _ < 2 ^ 64 by omega)
    rw [if_neg hneg, hbits, if_neg (by omega), Nat.mod_eq_of_lt hsmall, hunits]
    refine ⟨hfinite, ?_⟩
    have : (x.natAbs : Int) = x := by omega
    rw [Nat.cast_mul, this]

end PythonPortfolio.Library.Binary64
