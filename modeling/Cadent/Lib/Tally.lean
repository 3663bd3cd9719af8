import Mathlib.Algebra.Ring.Int.Defs

/-!
# Counts of a fixed width

A type of counts has values in the integers. Its addition is that of the values as long as the
sum is in range: always for the integers, and for `int64` where it does not overflow.
-/

universe u

class Tally (κ : Type u) [Zero κ] [Add κ] [LT κ] where
  value : κ → Int
  InRange : Int → Prop
  value_zero : value 0 = 0
  value_injective : Function.Injective value
  lt_iff : ∀ {a b : κ}, a < b ↔ value a < value b
  value_add : ∀ {a b : κ}, InRange (value a + value b) → value (a + b) = value a + value b
  inRange_value : ∀ a : κ, InRange (value a)
  inRange_of_le : ∀ {m n : Int}, 0 ≤ m → m ≤ n → InRange n → InRange m

namespace Tally

section Lemmas

variable {κ : Type u} [Zero κ] [Add κ] [LT κ] [Tally κ] {a b : κ}

theorem pos_iff : 0 < a ↔ 0 < value a := by rw [lt_iff, value_zero]

theorem eq_zero_iff : a = 0 ↔ value a = 0 := by rw [← value_injective.eq_iff, value_zero]

end Lemmas

instance : Tally Int where
  value := id
  InRange _ := True
  value_zero := rfl
  value_injective := Function.injective_id
  lt_iff := Iff.rfl
  value_add _ := rfl
  inRange_value _ := trivial
  inRange_of_le _ _ _ := trivial

instance : Tally Int64 where
  value := Int64.toInt
  InRange n := -2 ^ 63 ≤ n ∧ n < 2 ^ 63
  value_zero := Int64.toInt_zero
  value_injective _ _ := Int64.toInt_inj.mp
  lt_iff := Int64.lt_iff_toInt_lt
  value_add {a b} fits := by
    rw [Int64.toInt_add, Int.bmod_eq_of_le] <;> omega
  inRange_value a := ⟨a.le_toInt, a.toInt_lt⟩
  inRange_of_le nonneg le fits := ⟨by omega, by omega⟩

end Tally
