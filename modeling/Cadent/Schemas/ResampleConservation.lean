import Cadent.Schemas.RenderResample

/-!
# Resampling conserves the data

The emitted points are those of the slots that have a value, at the grid times and with the
totals of their slots, and the objects of the item are as they were. The slot of a grid time
is the stretch up to it from the grid time before; the first stretch has both its ends.
-/

namespace Metrics

open Grid

variable {α : Type}

/-- Whether a time is in the stretch of a grid time. -/
def inStretch (start step g t : Nat) : Bool :=
  t ≤ g && if g = start then g - step ≤ t else g - step < t

/-- The points of a stretch that are not null. -/
def stretch (start step g : Nat) (pts : Points α) : Points α :=
  pts.filter fun p => inStretch start step g p.time.toNat && !p.isNull

/-- `out` has the data of `pts` on the grid from `start` to `endTime`. -/
structure Conserved [AddCommSemigroup α] [LinearOrder α] (start endTime step : Nat)
    (pts out : Points α) : Prop where
  increasing : out.Pairwise fun p q => p.time.toNat < q.time.toNat
  aligned : ∀ p ∈ out, step ∣ p.time.toNat ∧ start ≤ p.time.toNat ∧ p.time.toNat ≤ endTime
  exact : ∀ g, step ∣ g → start ≤ g → g ≤ endTime →
    ((∃ p ∈ out, p.time.toNat = g) ↔ stretch start step g pts ≠ [])
  merged : ∀ p ∈ out, ∃ m, MergedFrom (stretch start step p.time.toNat pts) m ∧
    p.min = m.min ∧ p.max = m.max ∧ p.sum = m.sum ∧ p.count = m.count
  solid : ∀ p ∈ out, p.isNull = false
  count : totalCount out = totalCount (pts.filter fun p => !p.isNull)

/-! ### One slot -/

section Slot

variable {start step k : Nat} {pts : Points α}

theorem inStretch_iff (pos : 0 < step) (le : step ≤ start) {t : Nat} (recent : start ≤ t + step) :
    inStretch start step (start + step * k) t = true ↔ slot start step t = k := by
  have upper : slot start step t ≤ k ↔ t ≤ start + step * k := slot_le_iff pos
  cases k with
  | zero =>
    rw [inStretch, Nat.mul_zero, Nat.add_zero, if_pos rfl, Bool.and_eq_true, decide_eq_true_iff,
      decide_eq_true_iff]
    omega
  | succ k =>
    have lower : k < slot start step t ↔ start + step * k < t := lt_slot_iff pos
    have next : step * (k + 1) = step * k + step := Nat.mul_succ ..
    rw [inStretch, if_neg (by omega), Bool.and_eq_true, decide_eq_true_iff, decide_eq_true_iff]
    omega

theorem stretch_eq_solidIn (pos : 0 < step) (le : step ≤ start)
    (recent : ∀ p ∈ pts, start ≤ p.time.toNat + step) (k : Nat) :
    stretch start step (start + step * k) pts = solidIn start step pts k := by
  rw [stretch, solidIn, inBin, List.filter_filter]
  refine List.filter_congr fun p mem => ?_
  rw [Bool.and_comm, Bool.eq_iff_iff, Bool.and_eq_true, Bool.and_eq_true,
    inStretch_iff pos le (recent p mem), decide_eq_true_iff]
  rfl

theorem solid_of_mem_solidIn (counted : ∀ p ∈ pts, 0 ≤ p.count.toInt) :
    ∀ q ∈ solidIn start step pts k, q.Solid := by
  intro q mem
  obtain ⟨mem, -, some⟩ := mem_solidIn.mp mem
  exact ⟨some, counted q mem⟩

/-- The count of a slot is in range if that of all points is. -/
theorem inRange_solidIn (counted : ∀ p ∈ pts, 0 ≤ p.count.toInt)
    (fits : totalCount (pts.filter fun p => !p.isNull) < 2 ^ 63) :
    Tally.InRange Int64 (totalCount (solidIn start step pts k)) := by
  have counted' : ∀ p ∈ pts.filter fun p => !p.isNull, 0 ≤ p.count.toInt :=
    fun p mem => counted p (List.mem_of_mem_filter mem)
  have nonneg := totalCount_nonneg counted'
  have part : (solidIn start step pts k).Sublist (pts.filter fun p => !p.isNull) :=
    List.filter_sublist.filter _
  exact inRange_of_sublist part counted' ⟨by omega, fits⟩

variable [AddCommSemigroup α] [LinearOrder α]

/-- What is emitted for a slot has the totals of its points. -/
theorem slotPoint_merged (counted : ∀ p ∈ pts, 0 ≤ p.count.toInt)
    (fits : totalCount (pts.filter fun p => !p.isNull) < 2 ^ 63) {p : RawDataPoint Int64 α}
    (emitted : slotPoint start step pts k = some p) :
    p.isNull = false ∧ ∃ m, MergedFrom (solidIn start step pts k) m ∧
      p.min = m.min ∧ p.max = m.max ∧ p.sum = m.sum ∧ p.count = m.count := by
  have solid : ∀ q ∈ solidIn start step pts k, q.Solid := solid_of_mem_solidIn counted
  obtain ⟨some, rfl⟩ := slotPoint_eq_some emitted
  obtain ⟨q, qs, slot⟩ := List.exists_cons_of_ne_nil some
  have merged : MergedFrom (solidIn start step pts k) (qs.foldl RawDataPoint.merge q) :=
    ⟨q, qs, slot ▸ .refl _, rfl⟩
  have inRange : Tally.InRange Int64 (totalCount (solidIn start step pts k)) :=
    inRange_solidIn counted fits
  have zero : Tally.value (RawDataPoint.null (seed start step pts k) : RawDataPoint Int64 α).count =
      0 := Tally.value_zero
  have same := RawDataPoint.totals_foldl_merge zero.ge solid (by rwa [zero, Int.zero_add])
  rw [← totals_mergedFrom merged solid inRange, Totals.add_def] at same
  simp only [RawDataPoint.totals, RawDataPoint.null, Option.merge_none_left, Tally.value_zero,
    Int.zero_add, Totals.mk.injEq] at same
  obtain ⟨-, min, max, sum, count⟩ := same
  exact ⟨isNull_foldl_solidIn some _, _, merged, min, max, sum, Tally.value_injective count⟩

/-- Slots without a value add nothing to a total, if every other slot adds what its points do. -/
theorem total_slots {β : Type} {total : Points α → β} {add : β → β → β}
    (append : ∀ ps qs, total (ps ++ qs) = add (total ps) (total qs))
    (single : ∀ {k p}, slotPoint start step pts k = some p →
      total [p] = total (solidIn start step pts k)) (ks : List Nat) :
    total (ks.filterMap (slotPoint start step pts)) =
      total (ks.flatMap (solidIn start step pts)) := by
  induction ks with
  | nil => rfl
  | cons k ks ih =>
    rw [List.flatMap_cons]
    cases emitted : slotPoint start step pts k with
    | none =>
      rw [List.filterMap_cons_none emitted, slotPoint_eq_none_iff.mp emitted]
      exact ih
    | some p =>
      rw [List.filterMap_cons_some emitted, append, ← ih, ← single emitted, ← append]
      rfl

theorem totalCount_slots (counted : ∀ p ∈ pts, 0 ≤ p.count.toInt)
    (fits : totalCount (pts.filter fun p => !p.isNull) < 2 ^ 63) (ks : List Nat) :
    totalCount (ks.filterMap (slotPoint start step pts)) =
      totalCount (ks.flatMap (solidIn start step pts)) := by
  refine total_slots totalCount_append (fun {k p} emitted => ?_) ks
  obtain ⟨-, m, merged, -, -, -, count⟩ := slotPoint_merged counted fits emitted
  rw [totalCount_eq (solidIn start step pts k),
    ← totals_mergedFrom merged (solid_of_mem_solidIn counted) (inRange_solidIn counted fits),
    totalCount_cons, totalCount_nil, Int.add_zero, count]
  rfl

end Slot

/-! ### All slots -/

section Slots

variable {start step n : Nat} {pts sorted : Points α}

theorem solidIn_perm_stretch (pos : 0 < step) (le : step ≤ start) (perm : sorted.Perm pts)
    (recent : ∀ p ∈ pts, start ≤ p.time.toNat + step) (k : Nat) :
    (solidIn start step sorted k).Perm (stretch start step (start + step * k) pts) := by
  rw [← stretch_eq_solidIn pos le fun p mem => recent p (perm.subset mem)]
  exact perm.filter _

/-- The slots have all the points that are not null. -/
theorem slots_perm (perm : sorted.Perm pts) (placed : ∀ p ∈ pts, p.bin start step ≤ n) :
    ((List.range (n + 1)).flatMap (solidIn start step sorted)).Perm
      (pts.filter fun p => !p.isNull) := by
  have split : solidIn start step sorted = fun k =>
      (sorted.filter fun p => !p.isNull).filter fun p => p.bin start step = k :=
    funext fun k => List.filter_comm ..
  rw [split]
  refine (flatMap_filter_perm _ (n + 1) fun p mem => ?_).trans (perm.filter _)
  exact Nat.lt_succ_iff.mpr (placed p (perm.subset (List.mem_filter.mp mem).1))

variable [AddCommSemigroup α] [LinearOrder α]

theorem slotPoint_time (fits : start + step * n < 2 ^ 32) {k : Nat} (small : k < n + 1)
    {p : RawDataPoint Int64 α} (emitted : slotPoint start step sorted k = some p) :
    p.time.toNat = start + step * k := by
  have := Nat.mul_le_mul_left step (Nat.lt_succ_iff.mp small)
  rw [(slotPoint_eq_some emitted).2, gridTime, BitVec.toNat_ofNat, Nat.mod_eq_of_lt]
  omega

theorem mem_slots (fits : start + step * n < 2 ^ 32) {p : RawDataPoint Int64 α}
    (mem : p ∈ (List.range (n + 1)).filterMap (slotPoint start step sorted)) :
    ∃ k < n + 1, slotPoint start step sorted k = some p ∧ p.time.toNat = start + step * k := by
  obtain ⟨k, small, emitted⟩ := List.mem_filterMap.mp mem
  have small := List.mem_range.mp small
  exact ⟨k, small, emitted, slotPoint_time fits small emitted⟩

theorem conserved_slots (pos : 0 < step) (le : step ≤ start) (multiple : step ∣ start)
    (perm : sorted.Perm pts) (counted : ∀ p ∈ pts, 0 ≤ p.count.toInt)
    (few : totalCount (pts.filter fun p => !p.isNull) < 2 ^ 63)
    (placed : ∀ p ∈ pts, start ≤ p.time.toNat + step ∧ p.bin start step ≤ n)
    (fits : start + step * n < 2 ^ 32) :
    Conserved start (start + step * n) step pts
      ((List.range (n + 1)).filterMap (slotPoint start step sorted)) := by
  have counted' : ∀ p ∈ sorted, 0 ≤ p.count.toInt := fun p mem => counted p (perm.subset mem)
  have few' : totalCount (sorted.filter fun p => !p.isNull) < 2 ^ 63 := by
    rwa [totalCount_perm (perm.filter _)]
  have same := solidIn_perm_stretch pos le perm fun p mem => (placed p mem).1
  constructor
  · refine List.pairwise_filterMap.mpr (List.pairwise_lt_range.imp_of_mem ?_)
    intro k k' small small' lt p emitted p' emitted'
    rw [slotPoint_time fits (List.mem_range.mp small) emitted,
      slotPoint_time fits (List.mem_range.mp small') emitted']
    exact Nat.add_lt_add_left ((Nat.mul_lt_mul_left pos).mpr lt) _
  · intro p mem
    obtain ⟨k, small, emitted, time⟩ := mem_slots fits mem
    rw [time]
    have := Nat.mul_le_mul_left step (Nat.lt_succ_iff.mp small)
    exact ⟨(Nat.dvd_add_right multiple).mpr ⟨k, rfl⟩, Nat.le_add_right _ _, by omega⟩
  · intro g aligned ge below
    have here := add_mul_div_of_dvd ge multiple aligned
    constructor
    · rintro ⟨p, mem, at_grid⟩ none
      obtain ⟨k, -, emitted, time⟩ := mem_slots fits mem
      rw [← at_grid, time] at none
      have empty := same k
      rw [none] at empty
      exact (slotPoint_eq_some emitted).1 empty.eq_nil
    · intro some
      have small : (g - start) / step < n + 1 := by
        refine Nat.lt_succ_iff.mpr (Nat.div_le_of_le_mul ?_)
        omega
      cases emitted : slotPoint start step sorted ((g - start) / step) with
      | none =>
        have empty := same ((g - start) / step)
        rw [slotPoint_eq_none_iff.mp emitted, here] at empty
        exact absurd empty.nil_eq.symm some
      | some p =>
        exact ⟨p, List.mem_filterMap.mpr ⟨_, List.mem_range.mpr small, emitted⟩,
          (slotPoint_time fits small emitted).trans here⟩
  · intro p mem
    obtain ⟨k, -, emitted, time⟩ := mem_slots fits mem
    obtain ⟨-, m, ⟨q, qs, order, rfl⟩, fields⟩ := slotPoint_merged counted' few' emitted
    rw [time]
    exact ⟨_, ⟨q, qs, order.trans (same k), rfl⟩, fields⟩
  · intro p mem
    obtain ⟨k, -, emitted, -⟩ := mem_slots fits mem
    exact (slotPoint_merged counted' few' emitted).1
  · rw [totalCount_slots counted' few',
      totalCount_perm (slots_perm perm fun p mem => (placed p mem).2)]

end Slots

section Resample

variable [AddCommSemigroup α] [LinearOrder α]
variable {sort : PointerSort α}
  {h : Objects α} {r : RenderItem (Option Nat)} {step : BitVec 32}

/-- The call ends, no object that was there has changed, and the item has pointers to the
data of its points on the grid. -/
theorem resample_conserved (sorts : SortsPointers sort) (ok : Resampleable h r step)
    (few : totalCount ((h.load r.data).filter fun p => !p.isNull) < 2 ^ 63) :
    ∃ h' out, (∀ fuel, 2 ^ 32 ≤ fuel → resample sort fuel h r step = some (.ok (h', out))) ∧
      (∀ i < h.next, h'.cell i = h.cell i) ∧ (∀ p ∈ out.data, p ≠ none) ∧
      Conserved (roundUp step.toNat r.realStart.toNat) (roundUp step.toNat r.realEnd.toNat)
        step.toNat (h.load r.data) (h'.load out.data) := by
  obtain ⟨h', out, run, kept, objects, emitted⟩ := resample_eq sorts ok
  refine ⟨h', out, run, kept, objects, ?_⟩
  have points := h.load_perm (sorts.perm h r.data)
  rw [emitted]
  rcases (h.load r.data).eq_nil_or_concat with empty | ⟨init, q, concat⟩
  · rw [empty] at points ⊢
    rw [points.eq_nil, slots_nil]
    exact ⟨.nil, by simp, by simp [stretch], by simp, by simp, rfl⟩
  · obtain ⟨-, -, whole, placed⟩ := grid_of_mem ok (show q ∈ h.load r.data by simp [concat])
    have fits := ok.fits
    rw [← whole]
    exact conserved_slots ok.step_pos ok.step_le (dvd_roundUp _ _) points ok.counted few placed
      (by omega)

end Resample

/-- Four objects, one of them null, and the next address. -/
def objects : Objects Int where
  cell
    | 0 => single 31 4
    | 1 => single 25 2
    | 2 => ⟨33, none, none, none, none, 1⟩
    | _ => single 12 8
  next := 4

def listed : RenderItem (Option Nat) := ⟨11, 40, 11, 40, 1, [some 0, some 1, some 2, some 3]⟩

theorem resample_conserved_listed :
    Resampleable objects listed 10 ∧
    totalCount ((objects.load listed.data).filter fun p => !p.isNull) < 2 ^ 63 ∧ ∃ h' out,
      (∀ fuel, 2 ^ 32 ≤ fuel →
        resample pointersByTime fuel objects listed 10 = some (.ok (h', out))) ∧
      (∀ i < objects.next, h'.cell i = objects.cell i) ∧ (∀ p ∈ out.data, p ≠ none) ∧
      Conserved (roundUp (10 : BitVec 32).toNat listed.realStart.toNat)
        (roundUp (10 : BitVec 32).toNat listed.realEnd.toNat) (10 : BitVec 32).toNat
        (objects.load listed.data) (h'.load out.data) := by
  have ok : Resampleable objects listed 10 := by
    refine ⟨?_, by decide, by decide, by decide, by decide, by decide, by decide⟩
    decide
  exact ⟨ok, by decide, resample_conserved sortsPointers_pointersByTime ok (by decide)⟩

example : ((resample pointersByTime 4 objects listed 10).map fun result =>
    result.toOption.map fun (h, out) => h.load out.data) =
      some (some [single 20 8, single 30 2, single 40 4]) := by decide

/-- Three objects that count `2 ^ 62` each. -/
def weighty : Objects Int where
  cell i := ⟨BitVec.ofNat 32 (11 + i), some 1, some 1, some 1, some 1, 4611686018427387904⟩
  next := 3

def crowded : RenderItem (Option Nat) := ⟨11, 13, 11, 13, 1, [some 0, some 1, some 2]⟩

/-- The first two counts add up to `-2 ^ 63`, and to a negative count nothing is added. -/
theorem resample_overflows :
    Resampleable weighty crowded 10 ∧
    totalCount ((weighty.load crowded.data).filter fun p => !p.isNull) = 3 * 2 ^ 62 ∧
    ∃ h' out, resample pointersByTime 3 weighty crowded 10 = some (.ok (h', out)) ∧
      totalCount (h'.load out.data) = -2 ^ 63 := by
  refine ⟨⟨?_, by decide, by decide, by decide, by decide, by decide, by decide⟩, by decide, _, _,
    rfl, ?_⟩
  · decide
  · decide

end Metrics
