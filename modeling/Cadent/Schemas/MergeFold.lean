import Cadent.Lib.Reduce
import Cadent.Schemas.RawDataPoint
import Mathlib.Algebra.Ring.Int.Defs

/-!
# Folding data points together

A list of points is merged into one, from a null point of time zero. Everything but `Last`
is a total of the list, whatever the order. `Last` goes by the time that the running point
has before it takes the new time, so it needs to be followed through the fold: what is not
newer than the running point changes nothing, and the newest point wins when it comes.
-/

namespace Metrics

open Reduce

variable {κ α : Type} [Zero κ] [Add κ] [LT κ] [DecidableLT κ] [DecidableEq κ]
  [AddCommSemigroup α] [LinearOrder α]

namespace RawDataPoint

/-! ### The fields of one merge -/

theorem isNull_merge (r d : RawDataPoint κ α) : (r.merge d).isNull = (r.isNull && d.isNull) := by
  by_cases null : d.isNull = true
  · simp [merge, null]
  · have absent (f : α → α → α) (a b : Option α) :
        (a.merge f b).isNone = (a.isNone && b.isNone) := by
      cases a <;> cases b <;> rfl
    have last : (r.merge d).last.isNone = (r.last.isNone && d.last.isNone) := by
      by_cases newer : d.time ≠ 0#32 ∧ r.time < d.time
      · cases present : d.last <;> simp [merge, null, newer, present]
      · cases present : d.last <;> cases before : r.last <;>
          simp [merge, null, newer, present, before]
    simp only [isNull, last]
    simp only [merge, null, Bool.false_eq_true, if_false, max_merge, min_merge, sum_merge, absent]
    ac_rfl

theorem time_merge (r d : RawDataPoint κ α) :
    (r.merge d).time = if d.isNull = false ∧ r.time < d.time then d.time else r.time := by
  cases null : d.isNull <;> simp [merge, null]

theorem last_merge_newer {r d : RawDataPoint κ α} (newer : r.time.toNat < d.time.toNat)
    (present : d.last.isSome) : (r.merge d).last = d.last := by
  have timed : d.time ≠ 0#32 := by
    rintro zero
    rw [zero] at newer
    exact absurd newer (Nat.not_lt_zero _)
  have lt : r.time < d.time := newer
  have absent : d.last.isNone = false := by simpa using present
  simp [merge, isNull_eq_false_of_last present, timed, lt, present, absent]

theorem last_merge_older {r d : RawDataPoint κ α} (older : d.time.toNat ≤ r.time.toNat)
    (present : r.last.isSome) : (r.merge d).last = r.last := by
  have ge : ¬ r.time < d.time := BitVec.not_lt.mpr older
  have absent : r.last.isNone = false := by simpa using present
  cases null : d.isNull <;> simp [merge, null, ge, absent]

theorem last_merge_first {r d : RawDataPoint κ α} (absent : r.last = none)
    (present : d.last.isSome) :
    (r.merge d).last = d.last := by
  obtain ⟨value, last⟩ := Option.isSome_iff_exists.mp present
  by_cases newer : d.time ≠ 0#32 ∧ r.time < d.time
  · simp [merge, isNull_eq_false_of_last present, last, newer]
  · simp [merge, isNull_eq_false_of_last present, last, absent, newer]

/-- A null point of time zero takes over the point as it is. -/
theorem null_merge [Tally κ] {p : RawDataPoint κ α} (solid : p.Solid) :
    (null 0#32).merge p = p := by
  have none : Tally.value (null 0#32 : RawDataPoint κ α).count = 0 := Tally.value_zero
  have fits : Tally.InRange κ (Tally.value (null 0#32 : RawDataPoint κ α).count +
      Tally.value p.count) := by
    rw [none, Int.zero_add]
    exact Tally.inRange_value p.count
  have totals : ((null 0#32).merge p).totals = p.totals := by
    rw [totals_merge none.ge solid fits, totals_null, zero_add]
  have last : ((null 0#32).merge p).last = p.last := by
    cases present : p.last <;> simp [merge, solid.notNull, null, present]
  simp only [RawDataPoint.totals, Totals.mk.injEq] at totals
  obtain ⟨time, min, max, sum, count⟩ := totals
  exact RawDataPoint.ext (BitVec.eq_of_toNat_eq time) sum min max last
    (Tally.value_injective count)

/-! ### The newest value of a fold -/

theorem last_foldl_older {r : RawDataPoint κ α} {ps : List (RawDataPoint κ α)}
    (older : ∀ q ∈ ps, q.time.toNat ≤ r.time.toNat) (present : r.last.isSome) :
    (ps.foldl merge r).last = r.last := by
  induction ps generalizing r with
  | nil => rfl
  | cons q ps ih =>
    obtain ⟨first, rest⟩ := List.forall_mem_cons.mp older
    have time : (r.merge q).time = r.time := by
      rw [time_merge, if_neg fun newer => absurd first (not_le.mpr newer.2)]
    have last := last_merge_older first present
    rw [List.foldl_cons, ih (by rw [time]; exact rest) (by rw [last]; exact present), last]

theorem last_foldl_newest {r p : RawDataPoint κ α} {ps : List (RawDataPoint κ α)}
    (distinct : ps.Pairwise fun p q => p.time ≠ q.time) (mem : p ∈ ps)
    (newest : ∀ q ∈ ps, q.time.toNat ≤ p.time.toNat) (newer : r.time.toNat < p.time.toNat)
    (present : p.last.isSome) : (ps.foldl merge r).last = p.last := by
  induction ps generalizing r with
  | nil => cases mem
  | cons q ps ih =>
    obtain ⟨apart, distinct⟩ := List.pairwise_cons.mp distinct
    obtain ⟨first, rest⟩ := List.forall_mem_cons.mp newest
    rw [List.foldl_cons]
    rcases List.mem_cons.mp mem with rfl | mem
    · -- from here on nothing is newer
      have time : (r.merge p).time = p.time := by
        rw [time_merge, if_pos ⟨isNull_eq_false_of_last present, newer⟩]
      have last := last_merge_newer newer present
      rw [last_foldl_older (by rw [time]; exact rest) (by rw [last]; exact present), last]
    · have lt : q.time.toNat < p.time.toNat :=
        lt_of_le_of_ne first fun same => apart p mem (BitVec.eq_of_toNat_eq same)
      refine ih distinct mem rest ?_
      rw [time_merge]
      split_ifs
      · exact lt
      · exact newer

end RawDataPoint

/-! ### The totals of a fold -/

theorem sum_totals (ps : List (RawDataPoint Int α)) :
    (ps.map RawDataPoint.totals).sum =
      ⟨(ps.map (·.time.toNat)).max?.getD 0, (ps.filterMap (·.min)).min?,
        (ps.filterMap (·.max)).max?, reduce? (· + ·) (ps.filterMap (·.sum)),
        (ps.map (·.count)).sum⟩ := by
  induction ps with
  | nil => rfl
  | cons p ps ih =>
    have time : ((p :: ps).map (·.time.toNat)).max?.getD 0 =
        p.time.toNat ⊔ (ps.map (·.time.toNat)).max?.getD 0 := by
      rw [List.map_cons, max?_eq_reduce?, reduce?_cons inferInstance, ← max?_eq_reduce?]
      cases (ps.map (·.time.toNat)).max? <;> simp
    rw [time, min?_eq_reduce?, max?_eq_reduce? (List.filterMap _ _),
      reduce?_filterMap_cons inferInstance, reduce?_filterMap_cons inferInstance,
      reduce?_filterMap_cons inferInstance, List.map_cons, List.sum_cons, ih, Totals.add_def,
      ← min?_eq_reduce?, ← max?_eq_reduce?]
    simp [RawDataPoint.totals, Tally.value]

/-- `m` is what the points of `ps` come to, without regard to their order. -/
structure Folded (ps : List (RawDataPoint Int α)) (m : RawDataPoint Int α) : Prop where
  min : m.min = (ps.filterMap (·.min)).min?
  max : m.max = (ps.filterMap (·.max)).max?
  sum : m.sum = reduce? (· + ·) (ps.filterMap (·.sum))
  count : m.count = (ps.map (·.count)).sum
  time : m.time.toNat = (ps.map (·.time.toNat)).max?.getD 0
  last : (ps.Pairwise fun p q => p.time ≠ q.time) → (∀ p ∈ ps, p.time ≠ 0#32) →
    (∀ p ∈ ps, p.last.isSome) →
    ∀ p ∈ ps, (∀ q ∈ ps, q.time.toNat ≤ p.time.toNat) → m.last = p.last

/-- In whatever order the points are merged, the result is the one of the list. -/
theorem foldl_merge_folded {ps qs : List (RawDataPoint Int α)} (solid : ∀ p ∈ ps, p.Solid)
    (perm : qs.Perm ps) : Folded ps (qs.foldl RawDataPoint.merge (.null 0#32)) := by
  have totals : (qs.foldl RawDataPoint.merge (.null 0#32)).totals =
      (ps.map RawDataPoint.totals).sum := by
    rw [RawDataPoint.totals_foldl_merge le_rfl (fun p mem => solid p (perm.subset mem)) trivial,
      (perm.map _).sum_eq, RawDataPoint.totals_null, zero_add]
  rw [sum_totals] at totals
  constructor
  · exact congrArg Totals.min totals
  · exact congrArg Totals.max totals
  · exact congrArg Totals.sum totals
  · exact congrArg Totals.count totals
  · exact congrArg Totals.time totals
  · intro distinct timed present p mem newest
    have distinct : qs.Pairwise fun p q => p.time ≠ q.time :=
      (perm.pairwise_iff fun ne => ne.symm).mpr distinct
    refine RawDataPoint.last_foldl_newest distinct (perm.mem_iff.mpr mem)
      (fun q mem => newest q (perm.subset mem)) ?_ (present p mem)
    exact Nat.pos_of_ne_zero fun zero => timed p mem (BitVec.eq_of_toNat_eq zero)

/-- Three points out of order, one of them without a sum and without a count. -/
def unordered : List (RawDataPoint Int Int) :=
  [⟨30, some 4, some 1, some 3, some 3, 2⟩, ⟨10, none, some 2, none, some 2, 0⟩,
    ⟨20, some 8, some 8, some 8, some 8, 1⟩]

theorem foldl_merge_folded_unordered :
    (∀ p ∈ unordered, p.Solid) ∧
      Folded unordered (unordered.reverse.foldl RawDataPoint.merge (.null 0#32)) :=
  ⟨by decide, foldl_merge_folded (by decide) (List.reverse_perm _)⟩

example : unordered.reverse.foldl RawDataPoint.merge (.null 0#32) =
    ⟨30, some 12, some 1, some 8, some 3, 3⟩ := by decide

end Metrics
