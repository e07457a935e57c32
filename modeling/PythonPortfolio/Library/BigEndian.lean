import Mathlib.Algebra.Order.Ring.Nat
import Mathlib.Data.List.Induction
import Mathlib.Tactic.Ring
import Mathlib.Tactic.Linarith

/-!
# Fixed-width big-endian integers

Byte strings are lists of `UInt8`. `toBytes` writes the low `8 * w` bits of a
natural number, most significant byte first; `ofBytes` reads a byte string back.
The two are inverse between the numbers below `256 ^ w` and the byte strings of
length `w`. `packUInt` and `packSInt` are the range-checked encoders of the
unsigned and signed `struct` codes; `none` is `struct.error`.
-/

namespace PythonPortfolio.Library.BigEndian

abbrev Bytes := List UInt8

def toBytes : Nat → Nat → Bytes
  | 0, _ => []
  | w + 1, x => toBytes w (x / 256) ++ [UInt8.ofNat x]

def ofBytes (bs : Bytes) : Nat := bs.foldl (fun acc b => acc * 256 + b.toNat) 0

@[simp] theorem length_toBytes (w x : Nat) : (toBytes w x).length = w := by
  induction w generalizing x with
  | zero => rfl
  | succ w ih => simp [toBytes, ih]

@[simp] theorem ofBytes_nil : ofBytes [] = 0 := rfl

@[simp] theorem ofBytes_concat (bs : Bytes) (b : UInt8) :
    ofBytes (bs ++ [b]) = ofBytes bs * 256 + b.toNat := by
  simp [ofBytes]

theorem ofBytes_lt (bs : Bytes) : ofBytes bs < 256 ^ bs.length := by
  induction bs using List.reverseRecOn with
  | nil => simp
  | append_singleton bs b ih =>
    have hb := b.toNat_lt
    rw [ofBytes_concat, List.length_append, List.length_singleton, Nat.pow_succ]
    omega

theorem ofBytes_toBytes (w x : Nat) : ofBytes (toBytes w x) = x % 256 ^ w := by
  induction w generalizing x with
  | zero => simp [toBytes, Nat.mod_one]
  | succ w ih =>
    rw [toBytes, ofBytes_concat, ih, Nat.pow_succ, Nat.mul_comm (256 ^ w) 256,
      Nat.mod_mul, UInt8.toNat_ofNat']
    omega

theorem ofBytes_toBytes_of_lt {w x : Nat} (h : x < 256 ^ w) : ofBytes (toBytes w x) = x := by
  rw [ofBytes_toBytes, Nat.mod_eq_of_lt h]

theorem toBytes_ofBytes (bs : Bytes) : toBytes bs.length (ofBytes bs) = bs := by
  induction bs using List.reverseRecOn with
  | nil => rfl
  | append_singleton bs b ih =>
    have hb := b.toNat_lt
    have hdiv : (ofBytes bs * 256 + b.toNat) / 256 = ofBytes bs := by omega
    have hlow : UInt8.ofNat (ofBytes bs * 256 + b.toNat) = b := by
      apply UInt8.toNat_inj.mp
      rw [UInt8.toNat_ofNat']
      omega
    rw [List.length_append, List.length_singleton, toBytes, ofBytes_concat, hdiv, ih, hlow]

/-- Equal-width encodings of numbers in range determine the numbers. -/
theorem toBytes_inj {w x y : Nat} (hx : x < 256 ^ w) (hy : y < 256 ^ w)
    (h : toBytes w x = toBytes w y) : x = y := by
  rw [← ofBytes_toBytes_of_lt hx, h, ofBytes_toBytes_of_lt hy]

/-- The range of the unsigned codes `B`, `H`, `I`, `Q` at widths 1, 2, 4, 8. -/
def FitsUInt (w : Nat) (x : Int) : Prop := 0 ≤ x ∧ x < (256 ^ w : Nat)

/-- The range of the signed codes `b`, `i`, `q` at widths 1, 4, 8. -/
def FitsSInt (w : Nat) (x : Int) : Prop := -(256 ^ w : Nat) ≤ 2 * x ∧ 2 * x < (256 ^ w : Nat)

instance (w : Nat) (x : Int) : Decidable (FitsUInt w x) := inferInstanceAs (Decidable (_ ∧ _))

instance (w : Nat) (x : Int) : Decidable (FitsSInt w x) := inferInstanceAs (Decidable (_ ∧ _))

def packUInt (w : Nat) (x : Int) : Option Bytes :=
  if FitsUInt w x then some (toBytes w x.toNat) else none

def unpackUInt (bs : Bytes) : Int := ofBytes bs

/-- Two's complement. -/
def packSInt (w : Nat) (x : Int) : Option Bytes :=
  if FitsSInt w x then some (toBytes w (x % (256 ^ w : Nat)).toNat) else none

def unpackSInt (bs : Bytes) : Int :=
  if 2 * ofBytes bs < 256 ^ bs.length then ofBytes bs else ofBytes bs - (256 ^ bs.length : Nat)

theorem packUInt_eq_some {w : Nat} {x : Int} {bs : Bytes} :
    packUInt w x = some bs ↔ FitsUInt w x ∧ bs = toBytes w x.toNat := by
  unfold packUInt
  split <;> simp_all [eq_comm]

theorem fitsUInt_natCast {w n : Nat} : FitsUInt w n ↔ n < 256 ^ w := by
  unfold FitsUInt
  omega

theorem FitsUInt.toNat_lt {w : Nat} {x : Int} (h : FitsUInt w x) : x.toNat < 256 ^ w := by
  obtain ⟨h0, hlt⟩ := h
  omega

theorem length_of_packUInt {w : Nat} {x : Int} {bs : Bytes} (h : packUInt w x = some bs) :
    bs.length = w := by
  obtain ⟨_, rfl⟩ := packUInt_eq_some.mp h
  exact length_toBytes _ _

theorem unpackUInt_toBytes {w : Nat} {x : Int} (h : FitsUInt w x) :
    unpackUInt (toBytes w x.toNat) = x := by
  rw [unpackUInt, ofBytes_toBytes_of_lt h.toNat_lt, Int.toNat_of_nonneg h.1]

theorem packSInt_eq_some {w : Nat} {x : Int} {bs : Bytes} :
    packSInt w x = some bs ↔ FitsSInt w x ∧ bs = toBytes w (x % (256 ^ w : Nat)).toNat := by
  unfold packSInt
  split <;> simp_all [eq_comm]

theorem length_of_packSInt {w : Nat} {x : Int} {bs : Bytes} (h : packSInt w x = some bs) :
    bs.length = w := by
  obtain ⟨_, rfl⟩ := packSInt_eq_some.mp h
  exact length_toBytes _ _

/-- The reader of two's complement undoes the writer. -/
theorem unpackSInt_toBytes {w : Nat} {x : Int} (h : FitsSInt w x) :
    unpackSInt (toBytes w (x % (256 ^ w : Nat)).toNat) = x := by
  obtain ⟨hlow, hhigh⟩ := h
  generalize hm : 256 ^ w = m at hlow hhigh
  have hpos : 0 < m := hm ▸ Nat.pow_pos (by decide)
  have hlt : (x % m).toNat < 256 ^ w := by
    have := Int.emod_lt_of_pos x (show (0 : Int) < m by omega)
    have := Int.emod_nonneg x (show (m : Int) ≠ 0 by omega)
    omega
  rw [unpackSInt, length_toBytes, hm, ofBytes_toBytes_of_lt hlt]
  by_cases hx : 0 ≤ x
  · rw [Int.emod_eq_of_lt hx (by omega), if_pos (by omega)]
    omega
  · have hadd : x % m = x + m := by
      rw [← Int.add_emod_right, Int.emod_eq_of_lt (by omega) (by omega)]
    rw [hadd, if_neg (by omega)]
    omega

/-- Every byte string of the width is the encoding of what it reads as. -/
theorem packSInt_unpackSInt {w : Nat} {bs : Bytes} (h : bs.length = w) :
    packSInt w (unpackSInt bs) = some bs := by
  subst h
  have hlt := ofBytes_lt bs
  rw [packSInt_eq_some]
  generalize hm : 256 ^ bs.length = m at hlt
  generalize hx : unpackSInt bs = x
  have hcases : (2 * ofBytes bs < m ∧ x = ofBytes bs) ∨
      (m ≤ 2 * ofBytes bs ∧ x = ofBytes bs - (m : Int)) := by
    rw [unpackSInt, hm] at hx
    split at hx <;> omega
  have hmod : (x % (m : Int)).toNat = ofBytes bs := by
    rcases hcases with ⟨_, rfl⟩ | ⟨_, rfl⟩
    · rw [Int.emod_eq_of_lt (by omega) (by omega)]
      omega
    · rw [Int.sub_emod_right, Int.emod_eq_of_lt (by omega) (by omega)]
      omega
  refine ⟨?_, ?_⟩
  · unfold FitsSInt
    rw [hm]
    omega
  · rw [hmod, toBytes_ofBytes]

theorem packUInt_unpackUInt {w : Nat} {bs : Bytes} (h : bs.length = w) :
    packUInt w (unpackUInt bs) = some bs := by
  subst h
  rw [packUInt_eq_some, unpackUInt, Int.toNat_natCast, toBytes_ofBytes]
  exact ⟨fitsUInt_natCast.mpr (ofBytes_lt bs), rfl⟩

end PythonPortfolio.Library.BigEndian
