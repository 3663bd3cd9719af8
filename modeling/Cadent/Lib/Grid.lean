import Cadent.Lib.Bags
import Mathlib.Algebra.Order.Floor.Div
import Mathlib.Data.List.Perm.Basic
import Mathlib.Data.List.Range

/-!
# Grids of times

A grid is `start`, `start + step`, `start + 2 * step` and so on. Its slot `k` is the stretch
after grid time `k - 1` up to and with grid time `k`, where slot `0` has everything up to
`start`. A sweep over a list that is sorted by a key takes out one slot after the other.
-/

namespace Grid

universe u

def slot (start step t : Nat) : Nat := (t - start) ⌈/⌉ step

section Slot

variable {start step t t' k : Nat}

theorem slot_le_iff (pos : 0 < step) : slot start step t ≤ k ↔ t ≤ start + step * k := by
  rw [slot, ceilDiv_le_iff_le_mul pos]
  omega

theorem lt_slot_iff (pos : 0 < step) : k < slot start step t ↔ start + step * k < t := by
  rw [← not_le, slot_le_iff pos, not_le]

theorem slot_mono (pos : 0 < step) (le : t ≤ t') : slot start step t ≤ slot start step t' :=
  (slot_le_iff pos).mpr (le.trans ((slot_le_iff pos).mp le_rfl))

theorem lt_of_slot_lt (pos : 0 < step) (lt : slot start step t < slot start step t') : t < t' := by
  by_contra ge
  exact absurd (slot_mono pos (not_lt.mp ge)) (not_le.mpr lt)

end Slot

/-! ### Rounding up to a multiple -/

def roundUp (step t : Nat) : Nat := step * (t ⌈/⌉ step)

theorem roundUp_mono {step t t' : Nat} (pos : 0 < step) (le : t ≤ t') :
    roundUp step t ≤ roundUp step t' := by
  refine Nat.mul_le_mul_left _ ?_
  rw [ceilDiv_le_iff_le_mul pos]
  exact le.trans ((ceilDiv_le_iff_le_mul pos).mp le_rfl)

theorem le_roundUp {step : Nat} (pos : 0 < step) (t : Nat) : t ≤ roundUp step t :=
  (ceilDiv_le_iff_le_mul pos).mp le_rfl

theorem dvd_roundUp (step t : Nat) : step ∣ roundUp step t := ⟨_, rfl⟩

theorem roundUp_eq {step t m : Nat} (pos : 0 < step) (multiple : step ∣ m) (above : t ≤ m)
    (near : m < t + step) : roundUp step t = m := by
  obtain ⟨q, rfl⟩ := multiple
  have upper : t ⌈/⌉ step ≤ q := (ceilDiv_le_iff_le_mul pos).mpr above
  have lower : q ≤ t ⌈/⌉ step := by
    by_contra lt
    have next := Nat.mul_le_mul_left step (Nat.succ_le_of_lt (not_le.mp lt))
    have := le_roundUp pos t
    rw [Nat.succ_eq_add_one, Nat.mul_add] at next
    rw [roundUp] at this
    omega
  rw [roundUp, le_antisymm upper lower]

theorem roundUp_pred {step t : Nat} (pos : 0 < step) (some : 1 ≤ t) :
    roundUp step t = t - 1 - (t - 1) % step + step := by
  have split := Nat.div_add_mod (t - 1) step
  have lt := Nat.mod_lt (t - 1) pos
  refine roundUp_eq pos ⟨(t - 1) / step + 1, ?_⟩ (by omega) (by omega)
  rw [Nat.mul_add]
  omega

theorem roundUp_lt {step : Nat} (pos : 0 < step) (t : Nat) : roundUp step t < t + step := by
  rcases Nat.eq_zero_or_pos t with rfl | some
  · simpa [roundUp] using pos
  · rw [roundUp_pred pos some]
    omega

/-- Between two multiples of the step there is a whole number of steps. -/
theorem add_mul_div_of_dvd {step m n : Nat} (le : m ≤ n) (low : step ∣ m) (high : step ∣ n) :
    m + step * ((n - m) / step) = n := by
  rw [Nat.mul_div_cancel' (Nat.dvd_sub high low)]
  omega

/-! ### The times of a grid -/

/-- From `start` to `stop`, or none when `stop` comes first. -/
def times (start stop step : Nat) : List Nat :=
  if start ≤ stop then (List.range ((stop - start) / step + 1)).map fun k => start + step * k
  else []

section Times

variable {start stop step : Nat}

theorem mem_times_le (le : start ≤ stop) {g : Nat} (mem : g ∈ times start stop step) :
    g ≤ stop := by
  rw [times, if_pos le] at mem
  obtain ⟨k, small, rfl⟩ := List.mem_map.mp mem
  have := Nat.mul_le_mul_left step (Nat.lt_succ_iff.mp (List.mem_range.mp small))
  have := Nat.mul_div_le (stop - start) step
  omega

theorem dvd_of_mem_times (low : step ∣ start) {g : Nat} (mem : g ∈ times start stop step) :
    step ∣ g := by
  by_cases le : start ≤ stop
  · rw [times, if_pos le] at mem
    obtain ⟨k, _, rfl⟩ := List.mem_map.mp mem
    exact (Nat.dvd_add_right low).mpr ⟨k, rfl⟩
  · rw [times, if_neg le] at mem
    cases mem

/-- A time between the ends of a grid is in the stretch before exactly one of its times. -/
theorem existsUnique_mem_times (pos : 0 < step) (le : start ≤ stop) (low : step ∣ start)
    (high : step ∣ stop) {t : Nat} (above : start < t + step) (below : t ≤ stop) :
    ∃! g, g ∈ times start stop step ∧ t ≤ g ∧ g < t + step := by
  have upper : roundUp step t ≤ stop := by
    have last := roundUp_eq pos high (Nat.le_refl stop) (by omega)
    exact (roundUp_mono pos below).trans last.le
  have lower : start ≤ roundUp step t := by
    have first := roundUp_eq pos low (t := start - (step - 1)) (by omega) (by omega)
    exact first.ge.trans (roundUp_mono pos (by omega))
  refine ⟨roundUp step t, ⟨?_, le_roundUp pos t, roundUp_lt pos t⟩, ?_⟩
  · rw [times, if_pos le]
    refine List.mem_map.mpr ⟨(roundUp step t - start) / step, ?_,
      add_mul_div_of_dvd lower low (dvd_roundUp step t)⟩
    rw [List.mem_range, Nat.lt_succ_iff]
    exact Nat.div_le_div_right (by omega)
  · rintro g ⟨mem, ge, lt⟩
    exact (roundUp_eq pos (dvd_of_mem_times low mem) ge lt).symm

end Times

/-! ### Sweeping a sorted list -/

section Sweep

variable {α : Type u} {key : α → Nat} {l : List α}

theorem takeWhile_eq_filter (sorted : l.Pairwise fun a b => key a ≤ key b) (t : Nat) :
    l.takeWhile (fun a => key a ≤ t) = l.filter fun a => key a ≤ t := by
  induction l with
  | nil => rfl
  | cons a l ih =>
    obtain ⟨first, sorted⟩ := List.pairwise_cons.mp sorted
    by_cases le : key a ≤ t
    · simp [le, ih sorted]
    · have above : ∀ b ∈ l, ¬ key b ≤ t := by
        intro b mem
        have := first b mem
        omega
      simpa [le] using above

theorem dropWhile_eq_filter (sorted : l.Pairwise fun a b => key a ≤ key b) (t : Nat) :
    l.dropWhile (fun a => key a ≤ t) = l.filter fun a => t < key a := by
  induction l with
  | nil => rfl
  | cons a l ih =>
    obtain ⟨first, sorted⟩ := List.pairwise_cons.mp sorted
    by_cases le : key a ≤ t
    · simp [le, ih sorted]
    · have above : ∀ b ∈ l, t < key b := by
        intro b mem
        have := first b mem
        omega
      have lt : t < key a := not_le.mp le
      simp [le, lt, List.filter_eq_self.mpr fun b mem => decide_eq_true (above b mem)]

/-- The slots below `n` make up a list whose slots are all below `n`. -/
theorem flatMap_filter_perm (f : α → Nat) (n : Nat) (below : ∀ a ∈ l, f a < n) :
    ((List.range n).flatMap fun k => l.filter fun a => f a = k).Perm l :=
  Bags.flatMap_group_perm f List.nodup_range fun a mem => List.mem_range.mpr (below a mem)

end Sweep

end Grid
