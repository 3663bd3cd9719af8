import Mathlib.Algebra.Group.Nat.Defs
import Mathlib.Data.List.Basic

/-!
# Most-significant-bit-first bit lists

A fixed-width word is read as the list of its bits, highest first. `bitsOf x n`
takes the low `n` bits of `x`; `pushBits` shifts a list of bits into a 64-bit
accumulator, which is how a bit reader rebuilds a word. Nothing here depends on
how a stream stores its bytes.
-/

namespace Bits

/-- The low `n` bits of a word, highest first. -/
def bitsOf {w : Nat} (x : BitVec w) : Nat → List Bool
  | 0 => []
  | n + 1 => x.getLsbD n :: bitsOf x n

@[simp] theorem length_bitsOf {w : Nat} (x : BitVec w) (n : Nat) : (bitsOf x n).length = n := by
  induction n with
  | zero => rfl
  | succ n ih => simp [bitsOf, ih]

theorem getElem_bitsOf {w : Nat} (x : BitVec w) (n i : Nat) (hi : i < (bitsOf x n).length) :
    (bitsOf x n)[i] = x.getLsbD (n - 1 - i) := by
  induction n generalizing i with
  | zero => simp at hi
  | succ n ih =>
    cases i with
    | zero => simp [bitsOf]
    | succ i =>
      have hlt : i < (bitsOf x n).length := by simpa using hi
      have hidx : n + 1 - 1 - (i + 1) = n - 1 - i := by omega
      simp only [bitsOf, List.getElem_cons_succ, ih i hlt, hidx]

/-- The high part and the low part of a run of bits can be taken apart. -/
theorem bitsOf_add {w : Nat} (x : BitVec w) (m n : Nat) :
    bitsOf x (m + n) = bitsOf (x >>> n) m ++ bitsOf x n := by
  induction m with
  | zero => simp [bitsOf]
  | succ m ih =>
    have hsum : m + 1 + n = (m + n) + 1 := by omega
    rw [hsum, bitsOf, bitsOf, ih, BitVec.getLsbD_ushiftRight, Nat.add_comm n m]
    rfl

theorem bitsOf_congr {v w : Nat} {x : BitVec v} {y : BitVec w} {n : Nat}
    (same : ∀ i, i < n → x.getLsbD i = y.getLsbD i) : bitsOf x n = bitsOf y n := by
  induction n with
  | zero => rfl
  | succ n ih =>
    rw [bitsOf, bitsOf, same n (by omega), ih (fun i hi => same i (by omega))]

/-- A left shift drops high bits and fills with zeros from below. -/
theorem bitsOf_shiftLeft {w : Nat} (x : BitVec w) (k : Nat) (hk : k ≤ w) :
    bitsOf (x <<< k) w = (bitsOf x w).drop k ++ List.replicate k false := by
  apply List.ext_getElem
  · simp; omega
  intro i hi _
  have hiw : i < w := by simpa using hi
  rw [getElem_bitsOf, BitVec.getLsbD_shiftLeft, List.getElem_append]
  by_cases hlow : i < w - k
  · have hidx : w - 1 - i - k = w - 1 - (k + i) := by omega
    rw [dif_pos (by simpa using hlow), List.getElem_drop, getElem_bitsOf, hidx]
    simp [show ¬ w - 1 - i < k by omega, show w - 1 - i < w by omega]
  · rw [dif_neg (by simpa using hlow), List.getElem_replicate]
    simp [show w - 1 - i < k by omega]

/-- The low bits of a word are the tail of its full bit list. -/
theorem drop_bitsOf {w : Nat} (x : BitVec w) (n m : Nat) (hn : n ≤ m) :
    (bitsOf x m).drop (m - n) = bitsOf x n := by
  have hm : m = (m - n) + n := by omega
  conv_lhs => rw [hm, bitsOf_add]
  rw [List.drop_left']
  simp

/-- The eight bits of a byte, highest first. -/
def byteBits (x : BitVec 8) : List Bool := bitsOf x 8

@[simp] theorem length_byteBits (x : BitVec 8) : (byteBits x).length = 8 :=
  length_bitsOf x 8

@[simp] theorem byteBits_zero : byteBits 0#8 = List.replicate 8 false := by decide

theorem getElem_byteBits (x : BitVec 8) (i : Nat) (hi : i < (byteBits x).length) :
    (byteBits x)[i] = x.getLsbD (7 - i) :=
  getElem_bitsOf x 8 i hi

theorem byteBits_injective {x y : BitVec 8} (same : byteBits x = byteBits y) : x = y := by
  apply BitVec.eq_of_getLsbD_eq
  intro i hi
  have hback : 7 - (7 - i) = i := by omega
  have hx := getElem_byteBits x (7 - i) (by simp; omega)
  have hy := getElem_byteBits y (7 - i) (by simp; omega)
  rw [hback] at hx hy
  rw [← hx, ← hy]
  exact List.getElem_of_eq same _

theorem byteBits_setWidth {w : Nat} (x : BitVec w) : byteBits (x.setWidth 8) = bitsOf x 8 := by
  apply bitsOf_congr
  intro i hi
  simp [hi]

theorem byteBits_shiftLeft (x : BitVec 8) (k : Nat) (hk : k ≤ 8) :
    byteBits (x <<< k) = (byteBits x).drop k ++ List.replicate k false :=
  bitsOf_shiftLeft x k hk

/-- Or-ing a right-shifted byte into zeroed low bits places its leading bits there. -/
theorem byteBits_or_shiftRight (x y : BitVec 8) (p : List Bool)
    (low : byteBits x = p ++ List.replicate (8 - p.length) false) :
    byteBits (x ||| y >>> p.length) = p ++ (byteBits y).take (8 - p.length) := by
  have hlen : p.length ≤ 8 := by
    have h := congrArg List.length low
    simp at h
    omega
  apply List.ext_getElem
  · simp; omega
  intro i hi _
  have hi8 : i < 8 := by simpa using hi
  have hb : i < (p ++ List.replicate (8 - p.length) false).length := by simp; omega
  have hx : x.getLsbD (7 - i) = (p ++ List.replicate (8 - p.length) false)[i] := by
    rw [← getElem_byteBits x i (by simpa using hi8)]
    exact List.getElem_of_eq low _
  rw [getElem_byteBits, BitVec.getLsbD_or, BitVec.getLsbD_ushiftRight, hx]
  by_cases hp : i < p.length
  · have hy : y.getLsbD (p.length + (7 - i)) = false :=
      BitVec.getLsbD_of_ge y _ (by omega)
    rw [List.getElem_append_left hp, List.getElem_append_left hp, hy, Bool.or_false]
  · have hidx : p.length + (7 - i) = 7 - (i - p.length) := by omega
    rw [List.getElem_append_right (by omega), List.getElem_replicate, Bool.false_or,
      List.getElem_append_right (by omega), List.getElem_take, getElem_byteBits, hidx]

/-- All bits of a byte string. -/
def bytesBits (bs : List (BitVec 8)) : List Bool := bs.flatMap byteBits

@[simp] theorem bytesBits_nil : bytesBits [] = [] := rfl

@[simp] theorem bytesBits_cons (b : BitVec 8) (bs : List (BitVec 8)) :
    bytesBits (b :: bs) = byteBits b ++ bytesBits bs := rfl

@[simp] theorem bytesBits_append (as bs : List (BitVec 8)) :
    bytesBits (as ++ bs) = bytesBits as ++ bytesBits bs := by
  simp [bytesBits]

@[simp] theorem length_bytesBits (bs : List (BitVec 8)) :
    (bytesBits bs).length = 8 * bs.length := by
  induction bs with
  | nil => rfl
  | cons b bs ih => simp [ih]; omega

/-- Shift one bit into the low end of an accumulator. -/
def pushBit (u : BitVec 64) (bit : Bool) : BitVec 64 :=
  if bit then (u <<< 1) ||| 1#64 else u <<< 1

def pushBits (u : BitVec 64) (bits : List Bool) : BitVec 64 := bits.foldl pushBit u

@[simp] theorem pushBits_nil (u : BitVec 64) : pushBits u [] = u := rfl

@[simp] theorem pushBits_cons (u : BitVec 64) (b : Bool) (bs : List Bool) :
    pushBits u (b :: bs) = pushBits (pushBit u b) bs := rfl

theorem pushBits_append (u : BitVec 64) (as bs : List Bool) :
    pushBits u (as ++ bs) = pushBits (pushBits u as) bs := by
  simp [pushBits]

theorem getLsbD_pushBit (u : BitVec 64) (bit : Bool) (i : Nat) (hi : i < 64) :
    (pushBit u bit).getLsbD i = if i = 0 then bit else u.getLsbD (i - 1) := by
  have hshift : (u <<< 1).getLsbD i = (decide (¬ i < 1) && u.getLsbD (i - 1)) := by
    simp only [BitVec.getLsbD_shiftLeft, hi]
    simp
  have hone : (1#64).getLsbD i = decide (i = 0) := by
    simp [BitVec.getLsbD_one]
  cases bit with
  | false =>
    by_cases h0 : i = 0
    · simp [pushBit, h0]
    · simp only [pushBit, Bool.false_eq_true, if_false, hshift, h0]
      simp [show ¬ i < 1 by omega]
  | true =>
    by_cases h0 : i = 0
    · simp [pushBit, h0]
    · simp only [pushBit, if_true, BitVec.getLsbD_or, hshift, hone, h0, if_false]
      simp [show ¬ i < 1 by omega]

/-- After pushing the bits of `bits`, position `i` holds the bit pushed `i` from
the end, and above them the old accumulator. -/
theorem getLsbD_pushBits (u : BitVec 64) (bits : List Bool) (i : Nat) (hi : i < 64) :
    (pushBits u bits).getLsbD i =
      if i < bits.length then bits.getD (bits.length - 1 - i) false
      else u.getLsbD (i - bits.length) := by
  induction bits generalizing u with
  | nil => simp
  | cons b bs ih =>
    rw [pushBits_cons, ih]
    by_cases hlt : i < bs.length
    · have hidx : bs.length + 1 - 1 - i = (bs.length - 1 - i) + 1 := by omega
      simp only [if_pos hlt, List.length_cons, if_pos (show i < bs.length + 1 by omega),
        hidx, List.getD_cons_succ]
    · rw [if_neg hlt, getLsbD_pushBit _ _ _ (by omega)]
      by_cases heq : i = bs.length
      · subst heq
        simp
      · have hgt : ¬ i < bs.length + 1 := by omega
        have hne : i - bs.length ≠ 0 := by omega
        simp only [List.length_cons, if_neg hgt, if_neg hne]
        congr 1

/-- Pushing the low `n` bits of a word rebuilds the word cut to `n` bits. -/
theorem getLsbD_pushBits_bitsOf {w : Nat} (x : BitVec w) (n i : Nat) (hi : i < 64) :
    (pushBits 0#64 (bitsOf x n)).getLsbD i = (decide (i < n) && x.getLsbD i) := by
  rw [getLsbD_pushBits _ _ _ hi, length_bitsOf]
  by_cases hlt : i < n
  · have hidx : n - 1 - i < (bitsOf x n).length := by rw [length_bitsOf]; omega
    have hback : n - 1 - (n - 1 - i) = i := by omega
    rw [if_pos hlt, List.getD_eq_getElem?_getD,
      List.getElem?_eq_getElem hidx, Option.getD_some, getElem_bitsOf, hback]
    simp [hlt]
  · simp [hlt]

/-- Pushing a byte's bits is the shift-and-or a byte-wise reader performs. -/
theorem pushBits_byteBits (u : BitVec 64) (b : BitVec 8) :
    pushBits u (byteBits b) = (u <<< 8) ||| b.setWidth 64 := by
  apply BitVec.eq_of_getLsbD_eq
  intro i hi
  rw [getLsbD_pushBits _ _ _ hi, length_byteBits]
  by_cases hlt : i < 8
  · have hidx : 8 - 1 - i < (byteBits b).length := by rw [length_byteBits]; omega
    have hback : 8 - 1 - (8 - 1 - i) = i := by omega
    rw [if_pos hlt, List.getD_eq_getElem?_getD,
      List.getElem?_eq_getElem hidx, Option.getD_some]
    have hbit : (byteBits b)[8 - 1 - i] = b.getLsbD (8 - 1 - (8 - 1 - i)) :=
      getElem_bitsOf b 8 (8 - 1 - i) hidx
    rw [hbit, hback]
    simp [hlt, hi]
  · have hbyte : (b.setWidth 64).getLsbD i = false := by
      simp [BitVec.getLsbD_of_ge b i (by omega)]
    rw [if_neg hlt, BitVec.getLsbD_or, hbyte, BitVec.getLsbD_shiftLeft]
    simp [hlt, hi]

theorem toNat_pushBits_bitsOf (x : BitVec 64) (n : Nat) :
    (pushBits 0#64 (bitsOf x n)).toNat = x.toNat % 2 ^ n := by
  apply Nat.eq_of_testBit_eq
  intro i
  rw [Nat.testBit_mod_two_pow, ← BitVec.getLsbD, ← BitVec.getLsbD]
  by_cases hi : i < 64
  · exact getLsbD_pushBits_bitsOf x n i hi
  · rw [BitVec.getLsbD_of_ge _ _ (by omega), BitVec.getLsbD_of_ge _ _ (by omega), Bool.and_false]

/-- A word below `2 ^ n` is rebuilt exactly from its low `n` bits. -/
theorem pushBits_bitsOf {x : BitVec 64} {n : Nat} (fits : x.toNat < 2 ^ n) :
    pushBits 0#64 (bitsOf x n) = x := by
  apply BitVec.eq_of_toNat_eq
  rw [toNat_pushBits_bitsOf, Nat.mod_eq_of_lt fits]

/-! ### Zeros at the ends of a word -/

/-- The `l` highest and the `t` lowest bits are zero. -/
structure Fits (x : BitVec 64) (l t : Nat) : Prop where
  room : l + t ≤ 64
  high : ∀ i, 64 - l ≤ i → x.getLsbD i = false
  low : ∀ i, i < t → x.getLsbD i = false

theorem fits_mono {x : BitVec 64} {l t l' t' : Nat} (h : Fits x l t) (hl : l' ≤ l) (ht : t' ≤ t) :
    Fits x l' t' :=
  ⟨by have := h.room; omega, fun i hi => h.high i (by omega), fun i hi => h.low i (by omega)⟩

theorem fits_clz_ctz {x : BitVec 64} (hx : x ≠ 0#64) :
    Fits x x.clz.toNat x.ctz.toNat ∧ x.clz.toNat + x.ctz.toNat ≤ 63 := by
  have high : ∀ i, 64 - x.clz.toNat ≤ i → x.getLsbD i = false := by
    intro i hi
    have h1 : x.toNat < 2 ^ (64 - x.clz.toNat) := BitVec.toNat_lt_two_pow_sub_clz
    exact Nat.testBit_lt_two_pow (Nat.lt_of_lt_of_le h1 (Nat.pow_le_pow_right (by omega) hi))
  have hc : x.getLsbD x.ctz.toNat = true := BitVec.getLsbD_true_ctz_of_ne_zero hx
  have hroom : x.clz.toNat + x.ctz.toNat ≤ 63 := by
    by_contra hlt
    have h64 : x.clz.toNat ≤ 64 := BitVec.clz_le
    rw [high x.ctz.toNat (by omega)] at hc
    exact Bool.false_ne_true hc
  exact ⟨⟨by omega, high, fun i hi => BitVec.getLsbD_false_of_lt_ctz hi⟩, hroom⟩

/-- A word that fits its window survives being cut to it and shifted back. -/
theorem pushBits_window {x : BitVec 64} {l t : Nat} (h : Fits x l t) :
    pushBits 0#64 (bitsOf (x >>> t) (64 - l - t)) <<< t = x := by
  apply BitVec.eq_of_getLsbD_eq
  intro i hi
  rw [BitVec.getLsbD_shiftLeft]
  by_cases ht : i < t
  · simp [ht, h.low i ht]
  · rw [getLsbD_pushBits_bitsOf _ _ _ (by omega), BitVec.getLsbD_ushiftRight,
      Nat.add_sub_cancel' (by omega)]
    by_cases hl : i - t < 64 - l - t
    · simp [ht, hi, hl]
    · simp [hl, h.high i (by omega)]

end Bits
