import Mathlib.Data.Nat.Log
import Mathlib.Tactic.NormNum

/-!
# Double-precision bit patterns

A double is its 64-bit pattern, so that a round trip of arbitrary patterns, with
every NaN payload, can be stated at all. The module has the comparison `==` and
the conversions from and to integers; conversion from an integer rounds to the
nearest double with ties to even, conversion to an integer truncates where the target
type holds the result and is the platform's own everywhere else. No arithmetic on
doubles is defined here.
-/

namespace Binary64

abbrev Float64 := BitVec 64

def exponent (x : Float64) : Nat := x.toNat / 2 ^ 52 % 2 ^ 11

def fraction (x : Float64) : Nat := x.toNat % 2 ^ 52

def isNaN (x : Float64) : Bool := exponent x == 2047 && fraction x != 0

def isInf (x : Float64) : Bool := exponent x == 2047 && fraction x == 0

def isZero (x : Float64) : Bool := x.toNat % 2 ^ 63 == 0

/-- Comparison for equality: no NaN equals anything, and both zeros are equal. -/
def feq (x y : Float64) : Bool :=
  !isNaN x && !isNaN y && (x == y || (isZero x && isZero y))

/-- `n / 2^s` to the nearest integer, ties to even. -/
def roundShift (n s : Nat) : Nat :=
  if 2 ^ s < 2 * (n % 2 ^ s) ∨ (2 * (n % 2 ^ s) = 2 ^ s ∧ n / 2 ^ s % 2 = 1)
  then n / 2 ^ s + 1 else n / 2 ^ s

/-- The exponent and fraction fields of the double nearest to `n`. A significand
that rounds up to the next power of two carries into the exponent by itself. -/
def magnitude (n : Nat) : Nat :=
  if n = 0 then 0
  else (n.log2 + 1022) * 2 ^ 52 +
    (if n.log2 ≤ 52 then n * 2 ^ (52 - n.log2) else roundShift n (n.log2 - 52))

def ofInt (n : Int) : Float64 :=
  BitVec.ofNat 64 ((if n < 0 then 2 ^ 63 else 0) + magnitude n.natAbs)

/-- The integer part of the absolute value of a finite double. -/
def truncNat (x : Float64) : Nat :=
  if exponent x < 1023 then 0
  else if exponent x ≤ 1075 then (2 ^ 52 + fraction x) / 2 ^ (1075 - exponent x)
  else (2 ^ 52 + fraction x) * 2 ^ (exponent x - 1075)

def truncInt (x : Float64) : Int :=
  if x.msb then -(truncNat x : Int) else truncNat x

/-- The fields of a small integer: its exponent and its scaled significand. -/
theorem magnitude_eq {n : Nat} (hpos : 0 < n) (hlt : n < 2 ^ 53) :
    ∃ e, e ≤ 52 ∧ magnitude n = (e + 1022) * 2 ^ 52 + n * 2 ^ (52 - e) ∧
      2 ^ 52 ≤ n * 2 ^ (52 - e) ∧ n * 2 ^ (52 - e) < 2 ^ 53 := by
  have hne : n ≠ 0 := by omega
  have hlow : 2 ^ n.log2 ≤ n := Nat.log2_self_le hne
  have hhigh : n < 2 ^ (n.log2 + 1) := Nat.lt_log2_self
  have he : n.log2 ≤ 52 := by
    have h := (Nat.log2_lt hne).mpr hlt
    omega
  refine ⟨n.log2, he, by simp [magnitude, hne, he], ?_, ?_⟩
  · calc 2 ^ 52 = 2 ^ n.log2 * 2 ^ (52 - n.log2) := by rw [← Nat.pow_add]; congr 1; omega
      _ ≤ n * 2 ^ (52 - n.log2) := Nat.mul_le_mul_right _ hlow
  · calc n * 2 ^ (52 - n.log2) < 2 ^ (n.log2 + 1) * 2 ^ (52 - n.log2) :=
        Nat.mul_lt_mul_of_pos_right hhigh (Nat.two_pow_pos _)
      _ = 2 ^ 53 := by rw [← Nat.pow_add]; congr 1; omega

theorem magnitude_top : magnitude (2 ^ 53) = 1076 * 2 ^ 52 := by
  have hlog : (2 ^ 53).log2 = 53 := Nat.log2_two_pow
  simp only [magnitude, hlog, roundShift]
  norm_num

theorem magnitude_lt {n : Nat} (hn : n ≤ 2 ^ 53) : magnitude n < 2 ^ 63 := by
  by_cases h0 : n = 0
  · simp [magnitude, h0]
  by_cases htop : n = 2 ^ 53
  · rw [htop, magnitude_top]; norm_num
  obtain ⟨e, he, heq, _, hlt⟩ := magnitude_eq (n := n) (by omega) (by omega)
  have hmul : (e + 1022) * 2 ^ 52 ≤ 1074 * 2 ^ 52 := Nat.mul_le_mul_right _ (by omega)
  omega

theorem ofInt_toNat {n : Int} (hn : n.natAbs ≤ 2 ^ 53) :
    (ofInt n).toNat = (if n < 0 then 2 ^ 63 else 0) + magnitude n.natAbs := by
  have h := magnitude_lt hn
  rw [ofInt, BitVec.toNat_ofNat, Nat.mod_eq_of_lt]
  split <;> omega

/-- The sign bit does not reach into the other two fields. -/
theorem fields_of_toNat {x : Float64} {s : Prop} [Decidable s] {m : Nat}
    (h : x.toNat = (if s then 2 ^ 63 else 0) + m) :
    exponent x = m / 2 ^ 52 % 2 ^ 11 ∧ fraction x = m % 2 ^ 52 := by
  have hlt := x.isLt
  by_cases hs : s
  · rw [if_pos hs] at h
    simp only [exponent, fraction, h]
    omega
  · rw [if_neg hs] at h
    simp only [exponent, fraction, h]
    omega

theorem truncNat_ofInt {n : Int} (hn : n.natAbs ≤ 2 ^ 53) : truncNat (ofInt n) = n.natAbs := by
  obtain ⟨hexp, hfrac⟩ := fields_of_toNat (ofInt_toNat hn)
  by_cases h0 : n.natAbs = 0
  · simp [truncNat, hexp, magnitude, h0]
  by_cases htop : n.natAbs = 2 ^ 53
  · rw [htop, magnitude_top] at hexp hfrac
    simp [truncNat, hexp, hfrac, htop]
  obtain ⟨e, he, heq, hlow, hhigh⟩ := magnitude_eq (n := n.natAbs) (by omega) (by omega)
  have hexp' : exponent (ofInt n) = e + 1023 := by
    rw [hexp, heq]
    omega
  have hfrac' : 2 ^ 52 + fraction (ofInt n) = n.natAbs * 2 ^ (52 - e) := by
    rw [hfrac, heq]
    omega
  have hsub : 1075 - (e + 1023) = 52 - e := by omega
  rw [truncNat, hexp', hfrac', if_neg (by omega), if_pos (by omega), hsub,
    Nat.mul_div_cancel _ (Nat.two_pow_pos _)]

/-- Integers of at most 53 bits survive the conversion to a double and back. -/
theorem truncInt_ofInt {n : Int} (hn : n.natAbs ≤ 2 ^ 53) : truncInt (ofInt n) = n := by
  have hmag := magnitude_lt hn
  have hmsb : (ofInt n).msb = decide (n < 0) := by
    rw [BitVec.msb_eq_decide, ofInt_toNat hn]
    by_cases hneg : n < 0
    · simp [hneg]
    · simp [hneg]
      omega
  rw [truncInt, hmsb, truncNat_ofInt hn]
  by_cases hneg : n < 0
  · simp only [hneg, decide_true, if_true]
    omega
  · simp only [hneg, decide_false, Bool.false_eq_true, if_false]
    omega

/-- The conversions of a double to a machine integer on one platform. A value that the
target type cannot hold, an infinity or a NaN converts to whatever the platform makes
of it; `truncInt` puts the last two outside every type. -/
class IntConversion where
  toInt64 : Float64 → BitVec 64
  toUInt32 : Float64 → BitVec 32
  toInt64_eq (x : Float64) : -2 ^ 63 ≤ truncInt x → truncInt x < 2 ^ 63 →
    toInt64 x = BitVec.ofInt 64 (truncInt x)
  toUInt32_eq (x : Float64) : 0 ≤ truncInt x → truncInt x < 2 ^ 32 →
    toUInt32 x = BitVec.ofInt 32 (truncInt x)

/-- What the x86 conversion instruction does: it has one answer for all values out of
range, and the narrower conversion takes its low half. -/
instance amd64 : IntConversion where
  toInt64 x := if -2 ^ 63 ≤ truncInt x ∧ truncInt x < 2 ^ 63 then BitVec.ofInt 64 (truncInt x)
    else BitVec.intMin 64
  toUInt32 x := if -2 ^ 63 ≤ truncInt x ∧ truncInt x < 2 ^ 63 then BitVec.ofInt 32 (truncInt x)
    else 0#32
  toInt64_eq _ low high := if_pos ⟨low, high⟩
  toUInt32_eq _ low high := if_pos ⟨by omega, by omega⟩

variable [IntConversion]

theorem toInt64_ofInt {n : Int} (hn : n.natAbs ≤ 2 ^ 53) :
    IntConversion.toInt64 (ofInt n) = BitVec.ofInt 64 n := by
  have hback := truncInt_ofInt hn
  rw [IntConversion.toInt64_eq _ (by omega) (by omega), hback]

theorem toUInt32_ofInt {n : Nat} (hn : n < 2 ^ 32) :
    IntConversion.toUInt32 (ofInt n) = BitVec.ofNat 32 n := by
  have hback : truncInt (ofInt n) = n := truncInt_ofInt (by omega)
  rw [IntConversion.toUInt32_eq _ (by omega) (by omega), hback, BitVec.ofInt_natCast]

end Binary64
