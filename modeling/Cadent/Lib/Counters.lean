import Mathlib.Logic.Function.Iterate
import Mathlib.Tactic.Ring

/-!
# Counters of a fixed width

A loop `for t := first; t <= last; t += step` in machine arithmetic ends when its counter comes to
be after `last`, which a counter that wraps around may never be. `EndsWithin` bounds the number of
passes.
-/

namespace Counter

variable {w : Nat}

/-- The loop makes at most so many passes. -/
def EndsWithin (step last : BitVec w) : Nat → BitVec w → Prop
  | 0, t => last < t
  | n + 1, t => last < t ∨ EndsWithin step last n (t + step)

variable {step last t : BitVec w} {n m : Nat}

theorem endsWithin_of_lt (past : last < t) (n : Nat) : EndsWithin step last n t := by
  cases n with
  | zero => exact past
  | succ n => exact .inl past

theorem not_endsWithin_zero (here : t ≤ last) : ¬ EndsWithin step last 0 t :=
  BitVec.not_lt.mpr here

/-- What is left of the passes after one that is made. -/
theorem endsWithin_succ_iff (here : t ≤ last) :
    EndsWithin step last (n + 1) t ↔ EndsWithin step last n (t + step) :=
  or_iff_right (BitVec.not_lt.mpr here)

theorem endsWithin_mono (le : n ≤ m) (ends : EndsWithin step last n t) :
    EndsWithin step last m t := by
  induction n generalizing m t with
  | zero => exact endsWithin_of_lt ends m
  | succ n ih =>
    obtain ⟨m, rfl⟩ := Nat.exists_eq_add_of_le' (Nat.lt_of_lt_of_le n.succ_pos le)
    rcases ends with past | ends
    · exact .inl past
    · exact .inr (ih (Nat.le_of_succ_le_succ le) ends)

/-- The passes up to the last time that the counter reaches without wrapping around. -/
theorem endsWithin_add_iff {c : BitVec w} {k : Nat} (low : t.toNat + step.toNat * k ≤ last.toNat)
    (next : c.toNat = (t.toNat + step.toNat * (k + 1)) % 2 ^ w) (n : Nat) :
    EndsWithin step last (k + 1 + n) t ↔ EndsWithin step last n c := by
  have here : t ≤ last := BitVec.le_def.mpr (Nat.le_trans (Nat.le_add_right _ _) low)
  induction k generalizing t with
  | zero =>
    obtain rfl : c = t + step := BitVec.eq_of_toNat_eq (by
      rw [next, BitVec.toNat_add, Nat.zero_add, Nat.mul_one])
    rw [Nat.zero_add, Nat.add_comm, endsWithin_succ_iff here]
  | succ k ih =>
    have bound := last.isLt
    have split : step.toNat * (k + 1) = step.toNat + step.toNat * k := by ring
    have sum : (t + step).toNat = t.toNat + step.toNat := by
      rw [BitVec.toNat_add, Nat.mod_eq_of_lt]
      omega
    have later : (t + step).toNat + step.toNat * k ≤ last.toNat := by omega
    have next' : c.toNat = ((t + step).toNat + step.toNat * (k + 1)) % 2 ^ w := by
      rw [next, sum]
      congr 1
      ring
    rw [Nat.add_right_comm, endsWithin_succ_iff here]
    exact ih later next' (BitVec.le_def.mpr (Nat.le_trans (Nat.le_add_right _ _) later))

theorem not_endsWithin_of_max (max : ∀ t : BitVec w, t ≤ last) (n : Nat) (t : BitVec w) :
    ¬ EndsWithin step last n t := by
  induction n generalizing t with
  | zero => exact not_endsWithin_zero (max t)
  | succ n ih =>
    rw [endsWithin_succ_iff (max t)]
    exact ih _

end Counter
