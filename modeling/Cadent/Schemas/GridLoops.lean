import Cadent.Lib.Counters
import Cadent.Schemas.RenderResample
import Cadent.Schemas.Resample

/-!
# When the loops over a grid end

The loops of `Resample` and of `MergeWithResample` go over a grid of times with a counter of 32
bits, up to an end that was rounded up in 32 bits. Neither looks at the data to decide whether to
go on, so the range and the step alone say whether the loop ends. It does not when the last grid
time is so high that the next one wraps around: the counter starts again from the bottom.
-/

namespace Metrics

open Counter Grid

/-- The number of passes that a range should take at most. -/
def passes (first last step : BitVec 32) : Nat :=
  (last.toNat - first.toNat) / step.toNat + 2

/-! ### The data has no say -/

section Loops

variable {α : Type} [AddCommSemigroup α] [LinearOrder α] {step endTime t : BitVec 32}

/-- With fuel `n + 1` the loop can make `n` passes and find that it is at its end. -/
theorem isSome_fillLoop (n : Nat) (dp : Nat) (h : Objects α) (rest data : List (Option Nat)) :
    (fillLoop step endTime (n + 1) t dp h rest data).isSome ↔ EndsWithin step endTime n t := by
  induction n generalizing t dp h rest data with
  | zero =>
    by_cases here : t ≤ endTime
    · rw [fillLoop, if_pos here]
      dsimp only
      split_ifs
      · exact iff_of_false Bool.false_ne_true (not_endsWithin_zero here)
      · exact iff_of_false Bool.false_ne_true (not_endsWithin_zero here)
    · rw [fillLoop, if_neg here]
      exact iff_of_true rfl (endsWithin_of_lt (BitVec.not_le.mp here) 0)
  | succ n ih =>
    by_cases here : t ≤ endTime
    · rw [fillLoop, if_pos here, endsWithin_succ_iff here]
      dsimp only
      split_ifs
      · exact ih _ _ _ _
      · exact ih _ _ _ _
    · rw [fillLoop, if_neg here]
      exact iff_of_true rfl (endsWithin_of_lt (BitVec.not_le.mp here) _)

section Stored

omit [AddCommSemigroup α] [LinearOrder α]

/-- A cursor that stays within the data of its item does not panic. -/
theorem exists_collectStored (m : Memory α) (d : Nat) {left o : Nat}
    (within : o + left ≤ (m.items.cell d).data.length) (pts : List Nat) :
    ∃ o' pts', m.collectStored d t left o pts = .ok (o', pts') := by
  induction left generalizing o pts with
  | zero => exact ⟨o, pts, rfl⟩
  | succ left ih =>
    have read : (m.items.cell d).data.get m.arrays o =
        some (m.arrays.cell (m.items.cell d).data.array ((m.items.cell d).data.offset + o)) :=
      if_pos (by omega)
    rw [Memory.collectStored, read]
    rcases m.arrays.cell (m.items.cell d).data.array ((m.items.cell d).data.offset + o) with
      _ | p
    · exact ih (by omega) pts
    · dsimp only
      split_ifs
      · exact ⟨o, pts, rfl⟩
      · exact ih (by omega) (pts ++ [p])

theorem exists_read (m : Memory α) (d : Nat) (on : Bool) {oLen : Nat}
    (within : oLen ≤ (m.items.cell d).data.length) (o : Nat) :
    ∃ o' pts, (if on then m.collectStored d t (oLen - o) o [] else .ok (o, [])) =
      .ok (o', pts) := by
  by_cases past : oLen ≤ o
  · have none : oLen - o = 0 := Nat.sub_eq_zero_of_le past
    rw [none]
    exact ⟨o, [], by cases on <;> rfl⟩
  · cases on with
    | true => exact exists_collectStored m d (by omega) []
    | false => exact ⟨o, [], rfl⟩

end Stored

theorem data_emit_of_ne (m : Memory α) (sort : PointerSort α) (grow : Nat → Nat) {r d : Nat}
    (ne : d ≠ r) (pts : List Nat) : (m.emit r sort grow pts).items.cell d = m.items.cell d := by
  rw [Memory.emit]
  split
  · rfl
  · exact Memory.appendData_of_ne _ ne ..

/-- Where the data of `d` keeps its length, the loop gives a result or runs out of fuel. -/
theorem resampleLoop_ends (sort : PointerSort α) (grow : Nat → Nat) (dOn rOn : Bool)
    {r d oLen : Nat} (ne : d ≠ r) (n : Nat) {m : Memory α}
    (within : oLen ≤ (m.items.cell d).data.length) (o : Nat) (rs : List (Option Nat)) :
    (EndsWithin step endTime n t ∧ ∃ m', Memory.resampleLoop sort grow step endTime dOn rOn r d oLen
        (n + 1) t m o rs = some (.ok m')) ∨
      (¬ EndsWithin step endTime n t ∧ Memory.resampleLoop sort grow step endTime dOn rOn r d oLen
        (n + 1) t m o rs = none) := by
  induction n generalizing t m o rs with
  | zero =>
    by_cases here : t ≤ endTime
    · refine .inr ⟨not_endsWithin_zero here, ?_⟩
      obtain ⟨o', pts, collected⟩ := exists_read m d dOn within o
      rw [Memory.resampleLoop, if_pos here, collected]
      rfl
    · refine .inl ⟨endsWithin_of_lt (BitVec.not_le.mp here) 0, m, ?_⟩
      rw [Memory.resampleLoop, if_neg here]
  | succ n ih =>
    by_cases here : t ≤ endTime
    · obtain ⟨o', pts, collected⟩ := exists_read m d dOn within o
      rw [Memory.resampleLoop, if_pos here, collected, endsWithin_succ_iff here]
      refine ih ?_ _ _
      rw [data_emit_of_ne m sort grow ne]
      exact within
    · refine .inl ⟨endsWithin_of_lt (BitVec.not_le.mp here) _, m, ?_⟩
      rw [Memory.resampleLoop, if_neg here]

theorem isSome_resample (sort : PointerSort α)
    (n : Nat) (h : Objects α) (r : RenderItem (Option Nat)) (pos : 0 < step.toNat) :
    (resample sort (n + 1) h r step).isSome ↔
      EndsWithin step (gridEnd r.realEnd step) n (gridStart r.realStart step) := by
  have nonzero := step_ne_zero pos
  rw [resample, if_neg nonzero]
  dsimp only
  rw [Option.isSome_map]
  exact isSome_fillLoop n _ _ _ _

/-- Two items without a nil: the call gives a result where its loop ends in time, and never
fails. -/
theorem mergeWithResample_ends {sort : PointerSort α} (sorts : SortsPointers sort)
    (grow : Nat → Nat) (n : Nat) {m : Memory α} {r d : Nat} (ne : r ≠ d)
    (nonNil : ∀ p ∈ m.pointers r ++ m.pointers d, p ≠ none) (pos : 0 < step.toNat) :
    (EndsWithin step (gridEnd (m.unionEnd r d) step) n (gridStart (m.unionStart r d) step) ∧
        ∃ m', m.mergeWithResample sort grow (n + 1) r d step = some (.ok m')) ∨
      (¬ EndsWithin step (gridEnd (m.unionEnd r d) step) n (gridStart (m.unionStart r d) step) ∧
        m.mergeWithResample sort grow (n + 1) r d step = none) := by
  obtain ⟨dEndTime, rEndTime, -, -, call⟩ := Memory.mergeWithResample_eq sorts pos nonNil
  have within : (m.items.cell d).data.length ≤
      (((m.inOrder sort r d).clearData r).items.cell d).data.length := by
    rw [Memory.clearData, Memory.setData_of_ne _ _ _ ne.symm, Memory.inOrder_items]
  rcases resampleLoop_ends (t := gridStart (m.unionStart r d) step) sort grow
    (decide (0#32 < dEndTime) && decide (0 < (m.items.cell d).data.length))
    (decide (0#32 < rEndTime) && decide (0 < (m.items.cell r).data.length)) ne.symm n within 0
    ((m.inOrder sort r d).pointers r) with ⟨ends, m', loop⟩ | ⟨runs, loop⟩
  · exact .inl ⟨ends, _, by rw [call, loop]; rfl⟩
  · exact .inr ⟨runs, by rw [call, loop]; rfl⟩

end Loops

/-! ### The grids whose loop ends in time -/

/-- In natural numbers, the grid and one more step are below `2 ^ 32`, or the end of the grid is
not. Steps over `2 ^ 31` have exceptions both ways. -/
def InTime (first last step : Nat) : Prop :=
  roundUp step last + step < 2 ^ 32 ∨
    (2 ^ 32 ≤ roundUp step last ∧
      (2 ^ 32 ≤ roundUp step first → roundUp step first + 2 * step < 3 * 2 ^ 32)) ∨
    (roundUp step last < 2 ^ 32 ∧ 2 ^ 32 < 2 * step ∧ 3 * step < 2 * 2 ^ 32 ∧
      (0 < first ∨ last = step))

section Grid

variable {first last step : BitVec 32}

/-- The range has as many steps as the grid, or one less. -/
theorem grid_div {first last step : Nat} (pos : 0 < step) (ordered : first ≤ last) :
    ∃ k, roundUp step first + step * k = roundUp step last ∧
      (last - first) / step ≤ k ∧ k ≤ (last - first) / step + 1 := by
  obtain ⟨i, start⟩ := dvd_roundUp step first
  obtain ⟨j, stop⟩ := dvd_roundUp step last
  have le := roundUp_mono pos ordered
  rw [start, stop] at le
  have order : i ≤ j := Nat.le_of_mul_le_mul_left le pos
  obtain ⟨k, rfl⟩ := Nat.exists_eq_add_of_le order
  have firstLe := le_roundUp pos first
  have firstLt := roundUp_lt pos first
  have lastLe := le_roundUp pos last
  have lastLt := roundUp_lt pos last
  rw [Nat.mul_add] at stop
  refine ⟨k, by omega, ?_, ?_⟩
  · rw [← Nat.lt_succ_iff, Nat.div_lt_iff_lt_mul pos, Nat.succ_mul, Nat.mul_comm]
    omega
  · rw [← Nat.lt_succ_iff, Nat.lt_succ_iff, ← Nat.sub_le_iff_le_add, Nat.le_div_iff_mul_le pos,
      Nat.sub_mul, Nat.mul_comm, Nat.one_mul]
    omega

/-- The next time after the end of the grid is in range: the loop ends there. -/
theorem endsWithin_of_fits (pos : 0 < step.toNat) (ordered : first.toNat ≤ last.toNat)
    (some : 1 ≤ last.toNat) (fits : roundUp step.toNat last.toNat + step.toNat < 2 ^ 32) :
    EndsWithin step (gridEnd last step) (passes first last step) (gridStart first step) := by
  obtain ⟨k, grid, -, near⟩ := grid_div pos ordered
  have start : (gridStart first step).toNat = _ := gridStart_toNat pos (by omega)
  have stop := gridEnd_toNat pos some (by omega)
  refine endsWithin_mono (show k + 1 + 0 ≤ passes first last step by rw [passes]; omega) ?_
  rw [endsWithin_add_iff (by omega) (BitVec.toNat_ofNat ..), EndsWithin, BitVec.lt_def,
    BitVec.toNat_ofNat, start, stop, Nat.mul_add]
  omega

/-- A grid of a large step that ends in range has at most two times. -/
theorem roundUp_eq_step {last step : Nat} (some : 1 ≤ last) (low : roundUp step last < 2 ^ 32)
    (large : 2 ^ 32 < 2 * step) : roundUp step last = step := by
  have above := le_roundUp (show 0 < step by omega) last
  obtain ⟨j, stop⟩ := dvd_roundUp step last
  have one : j = 1 := by
    rcases j with _ | _ | j
    · omega
    · rfl
    · rw [show j + 1 + 1 = 2 + j by omega, Nat.mul_add] at stop
      omega
  rw [stop, one, Nat.mul_one]

theorem grid_div_eq_iff {first last step k : Nat} (ordered : first ≤ last)
    (grid : roundUp step first + step * k = step) (stop : roundUp step last = step)
    (pos : 0 < step) : (last - first) / step = k ↔ 0 < first ∨ last = step := by
  have above := le_roundUp pos last
  have firstLe := le_roundUp pos first
  rcases Nat.eq_zero_or_pos first with rfl | after
  · have zero : roundUp step 0 = 0 := roundUp_eq pos (dvd_zero step) le_rfl (by omega)
    have one : k = 1 := Nat.eq_of_mul_eq_mul_left pos (by omega)
    rw [one, Nat.sub_zero, Nat.div_eq_iff pos]
    omega
  · have zero : k = 0 := by
      obtain ⟨i, start⟩ := dvd_roundUp step first
      rcases i with _ | i
      · omega
      · rcases k with _ | k
        · rfl
        · rw [start, Nat.mul_add, Nat.mul_add] at grid
          omega
    rw [zero, Nat.div_eq_zero_iff_lt pos]
    omega

/-- A counter that wrapped around after `e` and goes on by one step. -/
theorem lt_wrapped_iff {e s : Nat} (low : e < 2 ^ 32) (small : s < 2 ^ 32)
    (wraps : 2 ^ 32 ≤ e + s) :
    e < (e + s - 2 ^ 32 + s) % 2 ^ 32 ↔ 2 ^ 32 < 2 * s ∧ e + 2 * s < 2 * 2 ^ 32 := by
  by_cases again : e + 2 * s < 2 * 2 ^ 32
  · rw [Nat.mod_eq_of_lt (by omega)]
    omega
  · rw [Nat.mod_eq_sub_mod (by omega), Nat.mod_eq_of_lt (by omega)]
    omega

/-- The next time after the end of the grid wraps around: the counter is back at the bottom, and
one more pass takes it past the end only with a large step. -/
theorem endsWithin_iff_of_wraps (pos : 0 < step.toNat) (ordered : first.toNat ≤ last.toNat)
    (some : 1 ≤ last.toNat) (low : roundUp step.toNat last.toNat < 2 ^ 32)
    (wraps : 2 ^ 32 ≤ roundUp step.toNat last.toNat + step.toNat) :
    EndsWithin step (gridEnd last step) (passes first last step) (gridStart first step) ↔
      2 ^ 32 < 2 * step.toNat ∧ 3 * step.toNat < 2 * 2 ^ 32 ∧
        (0 < first.toNat ∨ last.toNat = step.toNat) := by
  obtain ⟨k, grid, far, near⟩ := grid_div pos ordered
  have start : (gridStart first step).toNat = _ := gridStart_toNat pos (by omega)
  have stop := gridEnd_toNat pos some low
  have bottom : (BitVec.ofNat 32 ((gridStart first step).toNat + step.toNat * (k + 1))).toNat =
      roundUp step.toNat last.toNat + step.toNat - 2 ^ 32 := by
    rw [BitVec.toNat_ofNat, start, Nat.mul_add]
    omega
  have here : BitVec.ofNat 32 ((gridStart first step).toNat + step.toNat * (k + 1)) ≤
      gridEnd last step := BitVec.le_def.mpr (by have := step.isLt; omega)
  have reached : (gridStart first step).toNat + step.toNat * k ≤ (gridEnd last step).toNat := by
    omega
  by_cases same : (last.toNat - first.toNat) / step.toNat = k
  · have count : passes first last step = k + 1 + 1 := by rw [passes, same]
    rw [count, endsWithin_add_iff reached (BitVec.toNat_ofNat ..), endsWithin_succ_iff here,
      EndsWithin, BitVec.lt_def, BitVec.toNat_add, bottom, stop,
      lt_wrapped_iff low step.isLt wraps]
    constructor
    · rintro ⟨large, small⟩
      have one := roundUp_eq_step some low large
      refine ⟨large, by omega, ?_⟩
      rw [one] at grid
      exact (grid_div_eq_iff ordered grid one pos).mp same
    · rintro ⟨large, small, -⟩
      have one := roundUp_eq_step some low large
      omega
  · have count : passes first last step = k + 1 + 0 := by rw [passes]; omega
    rw [count, endsWithin_add_iff reached (BitVec.toNat_ofNat ..)]
    refine iff_of_false (not_endsWithin_zero here) ?_
    rintro ⟨large, -, exact⟩
    have one := roundUp_eq_step some low large
    rw [one] at grid
    exact same ((grid_div_eq_iff ordered grid one pos).mpr exact)

/-- The end of the grid wraps around and its start does not: at most the time 0 is visited. -/
theorem endsWithin_of_end_wraps (pos : 0 < step.toNat) (some : 1 ≤ last.toNat)
    (low : roundUp step.toNat first.toNat < 2 ^ 32)
    (wraps : 2 ^ 32 ≤ roundUp step.toNat last.toNat) :
    EndsWithin step (gridEnd last step) (passes first last step) (gridStart first step) := by
  have start := gridStart_toNat pos low
  have stop := gridEnd_mod pos some
  have bound := last.isLt
  have near := roundUp_lt pos last.toNat
  obtain ⟨i, multiple⟩ := dvd_roundUp step.toNat first.toNat
  refine endsWithin_mono (show 1 ≤ passes first last step from Nat.le_add_left 1 _) ?_
  rcases i with _ | i
  · right
    rw [EndsWithin, BitVec.lt_def, BitVec.toNat_add, start, stop, multiple]
    have := step.isLt
    omega
  · left
    rw [Nat.mul_add] at multiple
    rw [BitVec.lt_def, start, stop]
    omega

/-- Both wrap around, to the same time. -/
theorem endsWithin_iff_of_start_wraps (pos : 0 < step.toNat) (ordered : first.toNat ≤ last.toNat)
    (some : 1 ≤ last.toNat) (wraps : 2 ^ 32 ≤ roundUp step.toNat first.toNat) :
    EndsWithin step (gridEnd last step) (passes first last step) (gridStart first step) ↔
      roundUp step.toNat first.toNat + 2 * step.toNat < 3 * 2 ^ 32 := by
  obtain ⟨k, grid, far, near⟩ := grid_div pos ordered
  have bound := last.isLt
  have lastLt := roundUp_lt pos last.toNat
  obtain rfl : k = 0 := by
    rcases k with _ | k
    · rfl
    · rw [Nat.mul_add] at grid
      omega
  have count : passes first last step = 0 + 1 + 1 := by rw [passes, Nat.le_zero.mp far]
  have start : (gridStart first step).toNat = _ := gridStart_mod pos first
  have stop := gridEnd_mod pos some
  rw [Nat.mul_zero, Nat.add_zero] at grid
  have reached : (gridStart first step).toNat + step.toNat * 0 ≤ (gridEnd last step).toNat := by
    omega
  rw [count, endsWithin_add_iff reached (BitVec.toNat_ofNat ..), EndsWithin, EndsWithin,
    BitVec.lt_def, BitVec.lt_def, BitVec.toNat_add, BitVec.toNat_ofNat, start, stop, ← grid,
    Nat.zero_add, Nat.mul_one]
  have := step.isLt
  omega

theorem endsWithin_iff_inTime (pos : 0 < step.toNat) (ordered : first.toNat ≤ last.toNat)
    (some : 1 ≤ last.toNat) :
    EndsWithin step (gridEnd last step) (passes first last step) (gridStart first step) ↔
      InTime first.toNat last.toNat step.toNat := by
  have order := roundUp_mono pos ordered
  rw [InTime]
  by_cases low : roundUp step.toNat last.toNat < 2 ^ 32
  · by_cases fits : roundUp step.toNat last.toNat + step.toNat < 2 ^ 32
    · exact iff_of_true (endsWithin_of_fits pos ordered some fits) (.inl fits)
    · have below : ¬ 2 ^ 32 ≤ roundUp step.toNat last.toNat := not_le.mpr low
      rw [endsWithin_iff_of_wraps pos ordered some low (not_lt.mp fits)]
      simp only [fits, below, low, false_and, false_or, true_and]
  · have high := not_lt.mp low
    have past : ¬ roundUp step.toNat last.toNat + step.toNat < 2 ^ 32 := by omega
    simp only [past, low, high, false_and, false_or, or_false, true_and]
    by_cases startLow : roundUp step.toNat first.toNat < 2 ^ 32
    · exact iff_of_true (endsWithin_of_end_wraps pos some startLow high)
        fun startHigh => absurd startLow (not_lt.mpr startHigh)
    · rw [endsWithin_iff_of_start_wraps pos ordered some (not_lt.mp startLow),
        forall_prop_of_true (not_lt.mp startLow)]

end Grid

/-! ### The two loops -/

section Items

variable {α : Type} [AddCommSemigroup α] [LinearOrder α]

omit [AddCommSemigroup α] [LinearOrder α] in
theorem union_bounds {m : Memory α} {r d : Nat}
    (ordered : (m.items.cell r).realStart.toNat ≤ (m.items.cell r).realEnd.toNat)
    (some : 1 ≤ (m.items.cell r).realEnd.toNat) :
    (m.unionStart r d).toNat ≤ (m.unionEnd r d).toNat ∧ 1 ≤ (m.unionEnd r d).toNat := by
  rw [Memory.toNat_unionStart, Memory.toNat_unionEnd]
  omega

/-- Within the passes that its range should take, `Resample` ends exactly where the grid is in time,
and so does `MergeWithResample` over the range of both items, which does not fail either. -/
theorem isSome_loops_iff (sort : PointerSort α) (h : Objects α) (r : RenderItem (Option Nat))
    (step : BitVec 32) (positive : 1 ≤ step.toNat) (ordered : r.realStart.toNat ≤ r.realEnd.toNat)
    (late : 1 ≤ r.realEnd.toNat) :
    ((resample sort (passes r.realStart r.realEnd step + 1) h r step).isSome ↔
        InTime r.realStart.toNat r.realEnd.toNat step.toNat) ∧
      (SortsPointers sort → ∀ (m : Memory α) (i j : Nat) (grow : Nat → Nat), m.points = h →
        m.view i = r → i ≠ j → (∀ p ∈ m.pointers i ++ m.pointers j, p ≠ none) →
        ((m.mergeWithResample sort grow (passes (m.unionStart i j) (m.unionEnd i j) step + 1) i j
            step).isSome ↔
          InTime (m.unionStart i j).toNat (m.unionEnd i j).toNat step.toNat) ∧
        ∀ fuel e, m.mergeWithResample sort grow fuel i j step ≠ some (.error e)) := by
  constructor
  · rw [isSome_resample sort _ h r positive]
    exact endsWithin_iff_inTime positive ordered late
  · rintro sorts m i j grow - rfl ne nonNil
    obtain ⟨ordered', late'⟩ := union_bounds (d := j) ordered late
    have ends (n : Nat) := mergeWithResample_ends sorts grow n ne nonNil positive
    constructor
    · rw [← endsWithin_iff_inTime positive ordered' late']
      rcases ends (passes (m.unionStart i j) (m.unionEnd i j) step) with
        ⟨inTime, m', done⟩ | ⟨never, runs⟩
      · exact iff_of_true (by rw [done]; rfl) inTime
      · exact iff_of_false (by rw [runs]; exact Bool.false_ne_true) never
    · intro fuel e failed
      rcases fuel with _ | n
      · obtain ⟨_, _, -, -, call⟩ := Memory.mergeWithResample_eq sorts positive nonNil
        rw [call] at failed
        cases failed
      · rcases ends n with ⟨-, m', done⟩ | ⟨-, runs⟩
        · rw [done] at failed
          cases failed
        · rw [runs] at failed
          cases failed

end Items

/-- An item without points. -/
def blank (first last : BitVec 32) : RenderItem (Option Nat) where
  start := first
  «end» := last
  realStart := first
  realEnd := last
  step := 1#32
  data := []

/-- Two items without points. -/
def blanks (first last first' last' : BitVec 32) : Memory Int where
  points := ⟨fun _ => single 0#32 0, 0⟩
  arrays := ⟨fun _ _ => none, 1⟩
  items :=
    { cell
        | 0 => ⟨first, last, first, last, 1, ⟨0, 0, 0, 0, Nat.le_refl 0⟩, [], [], false⟩
        | _ => ⟨first', last', first', last', 1, ⟨0, 0, 0, 0, Nat.le_refl 0⟩, [], [], false⟩
      next := 2 }
  placed i := by rcases i with _ | i <;> exact Nat.zero_lt_one

theorem isSome_loops_iff_ten :
    (resample pointersByTime 12 (blanks 5 95 15 121).points (blank 5 95) 10).isSome ∧
      ((blanks 5 95 15 121).mergeWithResample pointersByTime id 14 0 1 10).isSome := by
  obtain ⟨resampled, merged⟩ := isSome_loops_iff pointersByTime (blanks 5 95 15 121).points
    (blank 5 95) 10 (by decide) (by decide) (by decide)
  have both := merged sortsPointers_pointersByTime (blanks 5 95 15 121) 0 1 id rfl rfl (by decide)
    (by decide)
  exact ⟨resampled.mpr (.inl (by decide)), both.1.mpr (.inl (by decide))⟩

/-- Up to the largest time the counter is never after the end. -/
theorem blank_never_ends :
    (∀ fuel, resample pointersByTime fuel (blanks 0 4294967295 0 4294967295).points
        (blank 0 4294967295) 1 = none) ∧
      ∀ fuel, (blanks 0 4294967295 0 4294967295).mergeWithResample pointersByTime id fuel 0 1 1 =
        none := by
  have max (t : BitVec 32) : t ≤ gridEnd 4294967295#32 1#32 :=
    BitVec.le_def.mpr (Nat.le_of_lt_succ t.isLt)
  constructor
  · intro fuel
    cases fuel with
    | zero => rfl
    | succ n =>
      rw [← Option.not_isSome_iff_eq_none, isSome_resample _ _ _ _ (by decide)]
      exact not_endsWithin_of_max max n _
  · intro fuel
    cases fuel with
    | zero => rfl
    | succ n =>
      rcases mergeWithResample_ends (m := blanks 0 4294967295 0 4294967295) (r := 0) (d := 1)
        sortsPointers_pointersByTime id n (by decide) (by decide)
        (show 0 < (1 : BitVec 32).toNat by decide) with ⟨ends, -⟩ | ⟨-, runs⟩
      · exact absurd ends (not_endsWithin_of_max max n _)
      · exact runs

end Metrics
