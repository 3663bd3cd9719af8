import Cadent.Lib.Grid
import Cadent.Lib.Heap
import Cadent.Schemas.RawDataPoint
import Mathlib.Data.List.Sort

/-!
# The time grid of a render item

Resampling and quantizing align an interval to a step: the start is rounded up to a
multiple of the step, and so is the end, both in `uint32`. They sort the data by time
first; `sort.Sort` is a parameter that is only known to sort, over points as values or over
pointers to them.
-/

namespace Metrics

open Grid

variable {κ α : Type}

inductive MetricsError where
  | quantizeStepTooSmall
  | quantizeStepTooManyPoints
  deriving DecidableEq, Repr

abbrev Objects (α : Type) := Heap (RawDataPoint Int64 α)

abbrev PointerSort (α : Type) := Objects α → List (Option Nat) → List (Option Nat)

/-- What the source relies on in `sort.Sort` over a `RawDataPointList`. -/
structure SortsByTime (sort : List (RawDataPoint κ α) → List (RawDataPoint κ α)) : Prop where
  perm : ∀ l, (sort l).Perm l
  sorted : ∀ l, (sort l).Pairwise fun p q => p.time.toNat ≤ q.time.toNat

/-- The same over a list of pointers, as long as none is nil. -/
structure SortsPointers
    (sort : Heap (RawDataPoint κ α) → List (Option Nat) → List (Option Nat)) : Prop where
  perm : ∀ h l, (sort h l).Perm l
  sorted : ∀ (h : Heap (RawDataPoint κ α)) (l), (∀ p ∈ l, p ≠ none) →
    (h.load (sort h l)).Pairwise fun p q => p.time.toNat ≤ q.time.toNat

/-- The first grid time at or after a time. -/
def gridStart (first step : BitVec 32) : BitVec 32 :=
  let left := first % step
  if left ≠ 0#32 then first + step - left else first

/-- `(end - 1) - ((end - 1) % step) + step`, in `uint32`. -/
def gridEnd (last step : BitVec 32) : BitVec 32 := (last - 1) - ((last - 1) % step) + step

/-! ### The grid in natural numbers -/

theorem step_ne_zero {step : BitVec 32} (pos : 0 < step.toNat) : step ≠ 0#32 := by
  rintro rfl
  exact absurd pos (lt_irrefl 0)

/-- The start is rounded up, and wraps around where that leaves the range. -/
theorem gridStart_mod {step : BitVec 32} (pos : 0 < step.toNat) (first : BitVec 32) :
    (gridStart first step).toNat = roundUp step.toNat first.toNat % 2 ^ 32 := by
  have split := Nat.div_add_mod first.toNat step.toNat
  have lt := Nat.mod_lt first.toNat pos
  have bound := first.isLt
  by_cases zero : first % step = 0#32
  · have zero' : first.toNat % step.toNat = 0 := by
      simpa using congrArg BitVec.toNat zero
    rw [roundUp_eq pos (Nat.dvd_of_mod_eq_zero zero') le_rfl (by omega), Nat.mod_eq_of_lt bound,
      gridStart]
    simp only [zero, ne_eq, not_true_eq_false, if_false]
  · have nonzero : first.toNat % step.toNat ≠ 0 := by
      intro h
      exact zero (BitVec.eq_of_toNat_eq (by simpa using h))
    have value : roundUp step.toNat first.toNat = first.toNat + step.toNat -
        first.toNat % step.toNat := by
      refine roundUp_eq pos ⟨first.toNat / step.toNat + 1, ?_⟩ (by omega) (by omega)
      rw [Nat.mul_add]
      omega
    rw [value, gridStart]
    simp only [zero, ne_eq, not_false_eq_true, if_true, BitVec.toNat_sub, BitVec.toNat_add,
      BitVec.toNat_umod]
    omega

theorem gridStart_toNat {first step : BitVec 32} (pos : 0 < step.toNat)
    (fits : roundUp step.toNat first.toNat < 2 ^ 32) :
    (gridStart first step).toNat = roundUp step.toNat first.toNat := by
  rw [gridStart_mod pos, Nat.mod_eq_of_lt fits]

theorem gridEnd_mod {last step : BitVec 32} (pos : 0 < step.toNat) (some : 1 ≤ last.toNat) :
    (gridEnd last step).toNat = roundUp step.toNat last.toNat % 2 ^ 32 := by
  have one : (last - 1).toNat = last.toNat - 1 := by
    have := last.isLt
    rw [BitVec.toNat_sub, show (1 : BitVec 32).toNat = 1 from rfl]
    omega
  have le := Nat.mod_le (last.toNat - 1) step.toNat
  have bound := (last - 1).isLt
  rw [roundUp_pred pos some, gridEnd, BitVec.toNat_add, BitVec.toNat_sub, BitVec.toNat_umod, one]
  rw [one] at bound
  omega

theorem gridEnd_toNat {last step : BitVec 32} (pos : 0 < step.toNat) (some : 1 ≤ last.toNat)
    (fits : roundUp step.toNat last.toNat < 2 ^ 32) :
    (gridEnd last step).toNat = roundUp step.toNat last.toNat := by
  rw [gridEnd_mod pos some, Nat.mod_eq_of_lt fits]

/-- Without any end the grid is its start alone. -/
theorem gridEnd_zero_lt {step : BitVec 32} (pos : 0 < step.toNat) :
    (gridEnd 0#32 step).toNat < step.toNat := by
  have lt := Nat.mod_lt (2 ^ 32 - 1) pos
  have one : (0#32 - 1 : BitVec 32).toNat = 2 ^ 32 - 1 := by decide
  have bound := step.isLt
  rw [gridEnd, BitVec.toNat_add, BitVec.toNat_sub, BitVec.toNat_umod, one]
  omega

/-- The number of slots of a grid, which is counted in `uint32`. -/
theorem toNat_numPts {start endTime step : BitVec 32} (pos : 0 < step.toNat)
    (fits : endTime.toNat + step.toNat < 2 ^ 32) (le : start.toNat ≤ endTime.toNat) :
    ((endTime - start) / step + 1).toNat = (endTime.toNat - start.toNat) / step.toNat + 1 := by
  have short := Nat.div_le_self (endTime.toNat - start.toNat) step.toNat
  rw [BitVec.toNat_add, BitVec.toNat_udiv, BitVec.toNat_sub_of_le le,
    show (1 : BitVec 32).toNat = 1 from rfl]
  exact Nat.mod_eq_of_lt (by omega)

/-- The next grid time, which does not wrap around. -/
theorem toNat_next {start n k : Nat} {step t : BitVec 32} (now : t.toNat = start + step.toNat * k)
    (le : k ≤ n) (fits : start + step.toNat * (n + 1) < 2 ^ 32) :
    (t + step).toNat = start + step.toNat * (k + 1) := by
  have reached := Nat.mul_le_mul_left step.toNat le
  rw [Nat.mul_add, Nat.mul_one] at fits ⊢
  rw [BitVec.toNat_add_of_lt] <;> omega

theorem slots_inside {start stop step k : Nat} (le : start ≤ stop)
    (lt : k < (stop - start) / step + 1) : start + step * k ≤ stop := by
  have := Nat.mul_le_mul_left step (Nat.lt_succ_iff.mp lt)
  have := Nat.mul_div_le (stop - start) step
  omega

theorem slots_outside {step : Nat} (pos : 0 < step) (start stop : Nat) :
    stop < start + step * ((stop - start) / step + 1) := by
  have := Nat.lt_mul_div_succ (stop - start) pos
  omega

/-! ### Sorts to run -/

/-- A sort as the source expects it. -/
def byTime (l : List (RawDataPoint κ α)) : List (RawDataPoint κ α) :=
  l.insertionSort fun p q => p.time.toNat ≤ q.time.toNat

theorem sortsByTime_byTime : SortsByTime (byTime : List (RawDataPoint κ α) → _) where
  perm l := List.perm_insertionSort _ l
  sorted l := by
    have := List.pairwise_insertionSort
      (fun p q : RawDataPoint κ α => p.time.toNat ≤ q.time.toNat) l
    exact this

/-- A nil comes first, where the source would fail. -/
def pointedTime (h : Heap (RawDataPoint κ α)) (p : Option Nat) : Nat :=
  p.elim 0 fun i => (h.cell i).time.toNat

def pointersByTime (h : Heap (RawDataPoint κ α)) (l : List (Option Nat)) : List (Option Nat) :=
  l.insertionSort fun p q => pointedTime h p ≤ pointedTime h q

theorem sortsPointers_pointersByTime :
    SortsPointers (pointersByTime : Heap (RawDataPoint κ α) → _) where
  perm h l := List.perm_insertionSort _ l
  sorted h l _ := by
    refine List.pairwise_filterMap.mpr ?_
    have ordered := List.pairwise_insertionSort
      (fun p q : Option Nat => pointedTime h p ≤ pointedTime h q) l
    refine ordered.imp fun {p q} le a at_p b at_q => ?_
    obtain ⟨i, rfl, rfl⟩ := Option.map_eq_some_iff.mp at_p
    obtain ⟨j, rfl, rfl⟩ := Option.map_eq_some_iff.mp at_q
    exact le

/-- A point of one value. -/
def single (time : BitVec 32) (value : Int) : RawDataPoint Int64 Int :=
  ⟨time, some value, some value, some value, some value, 1⟩

end Metrics
