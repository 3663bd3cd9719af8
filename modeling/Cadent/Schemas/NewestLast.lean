import Cadent.Schemas.Resample
import Cadent.Schemas.ResampleConservation

/-!
# The newest last value

A resampled point should have the `Last` of the newest point of its stretch. Merging two
items while resampling starts each stretch from one of its own points, and gives that.
Resampling one item starts from a null point: for the later stretches its time is a grid time
before them and the newest point wins, but for the first stretch it is the end of the stretch
itself, no point is newer, and the oldest keeps its value.
-/

namespace Metrics

open Grid

variable {α : Type}

/-- `p` has the `Last` of the newest of `pts`. -/
def NewestLast (pts : Points α) (p : RawDataPoint Int64 α) : Prop :=
  ∃ q ∈ pts, (∀ x ∈ pts, x.time.toNat ≤ q.time.toNat) ∧ p.last = q.last

instance [LinearOrder α] (pts : Points α) (p : RawDataPoint Int64 α) :
    Decidable (NewestLast pts p) :=
  inferInstanceAs (Decidable (∃ q ∈ pts, (∀ x ∈ pts, x.time.toNat ≤ q.time.toNat) ∧
    p.last = q.last))

/-- The points in the stretch of a point, which need not be at a grid time itself. -/
def stretchOf (start step : Nat) (p : RawDataPoint Int64 α) (pts : Points α) : Points α :=
  stretch start step (start + step * p.bin start step) pts

/-- The oldest and the newest of the first stretch have the same `Last`. -/
def FirstAgrees (start step : Nat) (pts : Points α) : Prop :=
  ∀ p ∈ stretch start step start pts, ∀ q ∈ stretch start step start pts,
    (∀ x ∈ stretch start step start pts, p.time.toNat ≤ x.time.toNat) →
    (∀ x ∈ stretch start step start pts, x.time.toNat ≤ q.time.toNat) → p.last = q.last

instance [LinearOrder α] (start step : Nat) (pts : Points α) :
    Decidable (FirstAgrees start step pts) :=
  inferInstanceAs (Decidable (∀ p ∈ stretch start step start pts,
    ∀ q ∈ stretch start step start pts,
      (∀ x ∈ stretch start step start pts, p.time.toNat ≤ x.time.toNat) →
      (∀ x ∈ stretch start step start pts, x.time.toNat ≤ q.time.toNat) → p.last = q.last))

/-! ### Newest points -/

section Newest

variable {pts : Points α}

theorem exists_newest (some : pts ≠ []) : ∃ q ∈ pts, ∀ x ∈ pts, x.time.toNat ≤ q.time.toNat := by
  induction pts with
  | nil => exact absurd rfl some
  | cons p pts ih =>
    by_cases none : pts = []
    · exact ⟨p, List.mem_cons_self, by simp [none]⟩
    · obtain ⟨q, mem, newest⟩ := ih none
      rcases Nat.le_total p.time.toNat q.time.toNat with le | ge
      · exact ⟨q, List.mem_cons_of_mem _ mem, List.forall_mem_cons.mpr ⟨le, newest⟩⟩
      · refine ⟨p, List.mem_cons_self, List.forall_mem_cons.mpr ⟨le_rfl, ?_⟩⟩
        intro x mem
        exact (newest x mem).trans ge

theorem eq_of_time_eq (distinct : pts.Pairwise fun p q => p.time ≠ q.time)
    {p q : RawDataPoint Int64 α} (mem : p ∈ pts) (mem' : q ∈ pts)
    (same : p.time.toNat = q.time.toNat) : p = q :=
  List.inj_on_of_nodup_map (List.pairwise_map.mpr distinct) mem mem' (BitVec.eq_of_toNat_eq same)

theorem newestLast_perm {pts' : Points α} (perm : pts.Perm pts')
    {p : RawDataPoint Int64 α} : NewestLast pts p ↔ NewestLast pts' p := by
  simp only [NewestLast, perm.mem_iff]

variable [AddCommSemigroup α] [LinearOrder α]

/-- Points that are folded onto an earlier time leave the last value of the newest. -/
theorem newestLast_foldl {r : RawDataPoint Int64 α} (some : pts ≠ [])
    (distinct : pts.Pairwise fun p q => p.time ≠ q.time) (present : ∀ p ∈ pts, p.last.isSome)
    (newer : ∀ p ∈ pts, r.time.toNat < p.time.toNat) :
    NewestLast pts (pts.foldl RawDataPoint.merge r) := by
  obtain ⟨q, mem, newest⟩ := exists_newest some
  exact ⟨q, mem, newest, RawDataPoint.last_foldl_newest distinct mem newest (newer q mem)
    (present q mem)⟩

theorem newestLast_mergedFrom {p : RawDataPoint Int64 α} (merged : MergedFrom pts p)
    (solid : ∀ q ∈ pts, q.Solid) (timed : ∀ q ∈ pts, 1 ≤ q.time.toNat)
    (distinct : pts.Pairwise fun p q => p.time ≠ q.time) (present : ∀ p ∈ pts, p.last.isSome) :
    NewestLast pts p := by
  obtain ⟨q, qs, perm, rfl⟩ := merged
  have fold : qs.foldl RawDataPoint.merge q =
      (q :: qs).foldl RawDataPoint.merge (.null 0#32) := by
    rw [List.foldl_cons, RawDataPoint.null_merge (solid q (perm.subset List.mem_cons_self))]
  rw [fold, ← newestLast_perm perm]
  refine newestLast_foldl (List.cons_ne_nil _ _) ?_ ?_ ?_
  · exact (perm.pairwise_iff fun ne => ne.symm).mpr distinct
  · exact fun p mem => present p (perm.subset mem)
  · exact fun p mem => timed p (perm.subset mem)

end Newest

/-! ### The slots of one item -/

section Slots

variable {start step k : Nat} {pts : Points α}

/-- A slot after the first starts from a grid time before it. -/
theorem seed_le (k : Nat) : (seed start step pts (k + 1)).toNat ≤ start + step * k := by
  induction k with
  | zero =>
    rw [seed]
    split_ifs
    all_goals exact Nat.mod_le _ _
  | succ k ih =>
    rw [seed]
    split_ifs
    · exact ih.trans (Nat.add_le_add_left (Nat.mul_le_mul_left _ (Nat.le_succ k)) _)
    · exact Nat.mod_le _ _

variable [AddCommSemigroup α] [LinearOrder α]

theorem newestLast_later (pos : 0 < step) (distinct : pts.Pairwise fun p q => p.time ≠ q.time)
    (present : ∀ p ∈ pts, p.last.isSome) {p : RawDataPoint Int64 α}
    (emitted : slotPoint start step pts (k + 1) = some p) :
    NewestLast (solidIn start step pts (k + 1)) p := by
  obtain ⟨some, rfl⟩ := slotPoint_eq_some emitted
  refine newestLast_foldl some ((distinct.filter _).filter _) ?_ ?_
  · intro q mem
    exact present q (mem_solidIn.mp mem).1
  · intro q mem
    have slot : k < q.bin start step := by
      rw [(mem_solidIn.mp mem).2.1]
      exact Nat.lt_succ_self k
    exact lt_of_le_of_lt (seed_le k) ((lt_slot_iff pos).mp slot)

/-- The first slot starts from its own end, and keeps the value of its first point. -/
theorem last_first (pos : 0 < step) (fits : start < 2 ^ 32) (present : ∀ p ∈ pts, p.last.isSome)
    {p q : RawDataPoint Int64 α} {qs : Points α} (slot : solidIn start step pts 0 = q :: qs)
    (emitted : slotPoint start step pts 0 = some p) : p.last = q.last := by
  obtain ⟨-, rfl⟩ := slotPoint_eq_some emitted
  have until_start : ∀ x ∈ q :: qs,
      x.time.toNat ≤
        (RawDataPoint.null (gridTime start step 0) : RawDataPoint Int64 α).time.toNat := by
    intro x mem
    rw [← slot] at mem
    have at_zero := (slot_le_iff pos).mp (mem_solidIn.mp mem).2.1.le
    rw [RawDataPoint.null, gridTime, BitVec.toNat_ofNat, Nat.mod_eq_of_lt (by omega)]
    exact at_zero
  obtain ⟨first, rest⟩ := List.forall_mem_cons.mp until_start
  have value := present q (mem_solidIn.mp (slot ▸ List.mem_cons_self)).1
  have time : ((RawDataPoint.null (gridTime start step 0)).merge q).time =
      (RawDataPoint.null (gridTime start step 0) : RawDataPoint Int64 α).time := by
    rw [RawDataPoint.time_merge, if_neg fun newer => absurd first (not_le.mpr newer.2)]
  have taken : ((RawDataPoint.null (gridTime start step 0)).merge q).last = q.last :=
    RawDataPoint.last_merge_first rfl value
  show ((solidIn start step pts 0).foldl RawDataPoint.merge _).last = q.last
  rw [slot, List.foldl_cons, seed, RawDataPoint.last_foldl_older (by rw [time]; exact rest)
    (by rw [taken]; exact value), taken]

/-- The point of the first stretch has the newest value if that is the oldest one. -/
theorem newestLast_first_iff {sorted : Points α} {p : RawDataPoint Int64 α} (pos : 0 < step)
    (fits : start < 2 ^ 32) (ordered : sorted.Pairwise fun p q => p.time.toNat ≤ q.time.toNat)
    (present : ∀ p ∈ sorted, p.last.isSome)
    (first : (solidIn start step sorted 0).Perm (stretch start step start pts))
    (distinct : pts.Pairwise fun p q => p.time ≠ q.time)
    (emitted : slotPoint start step sorted 0 = some p) :
    NewestLast (stretch start step start pts) p ↔ FirstAgrees start step pts := by
  obtain ⟨f, fs, slot⟩ := List.exists_cons_of_ne_nil (slotPoint_eq_some emitted).1
  have last := last_first pos fits present slot emitted
  have apart : (stretch start step start pts).Pairwise fun p q => p.time ≠ q.time :=
    distinct.filter _
  have inOrder : (f :: fs).Pairwise fun p q => p.time.toNat ≤ q.time.toNat :=
    slot ▸ (ordered.filter _).filter _
  rw [slot] at first
  have memF : f ∈ stretch start step start pts := first.subset List.mem_cons_self
  have leastF : ∀ x ∈ stretch start step start pts, f.time.toNat ≤ x.time.toNat := by
    intro x mem
    rcases List.mem_cons.mp (first.symm.subset mem) with rfl | mem
    · exact le_rfl
    · exact (List.pairwise_cons.mp inOrder).1 x mem
  constructor
  · rintro ⟨x, memX, latest, newest⟩ q memQ q' memQ' least greatest
    obtain rfl : f = q :=
      eq_of_time_eq apart memF memQ (le_antisymm (leastF q memQ) (least f memF))
    obtain rfl : x = q' :=
      eq_of_time_eq apart memX memQ' (le_antisymm (greatest x memX) (latest q' memQ'))
    rw [← last, newest]
  · intro agrees
    obtain ⟨q, memQ, latest⟩ := exists_newest (List.ne_nil_of_mem memF)
    exact ⟨q, memQ, latest, last.trans (agrees f memF q memQ leastF latest)⟩

/-- With the first stretch apart, every point that is emitted has the newest value. -/
theorem newest_slots_iff {n : Nat} {sorted : Points α} (pos : 0 < step) (le : step ≤ start)
    (perm : sorted.Perm pts) (ordered : sorted.Pairwise fun p q => p.time.toNat ≤ q.time.toNat)
    (recent : ∀ p ∈ pts, start ≤ p.time.toNat + step) (fits : start + step * n < 2 ^ 32)
    (distinct : pts.Pairwise fun p q => p.time ≠ q.time) (present : ∀ p ∈ pts, p.last.isSome) :
    (∀ p ∈ (List.range (n + 1)).filterMap (slotPoint start step sorted),
      NewestLast (stretch start step p.time.toNat pts) p) ↔ FirstAgrees start step pts := by
  have same := solidIn_perm_stretch pos le perm recent
  have first : (solidIn start step sorted 0).Perm (stretch start step start pts) := same 0
  have present' : ∀ p ∈ sorted, p.last.isSome := fun p mem => present p (perm.subset mem)
  have atFirst {p : RawDataPoint Int64 α} (emitted : slotPoint start step sorted 0 = some p) :=
    newestLast_first_iff pos (by omega) ordered present' first distinct emitted
  constructor
  · intro newest
    cases emitted : slotPoint start step sorted 0 with
    | none =>
      intro p memP
      rw [slotPoint_eq_none_iff.mp emitted] at first
      exact absurd memP (first.nil_eq ▸ List.not_mem_nil)
    | some e =>
      have own := newest e
        (List.mem_filterMap.mpr ⟨0, List.mem_range.mpr (Nat.succ_pos n), emitted⟩)
      rw [show e.time.toNat = start from slotPoint_time fits (Nat.succ_pos n) emitted] at own
      exact (atFirst emitted).mp own
  · intro agrees p mem
    obtain ⟨k, small, emitted, time⟩ := mem_slots fits mem
    rw [time, ← newestLast_perm (same k)]
    cases k with
    | zero => exact (newestLast_perm first).mpr ((atFirst emitted).mpr agrees)
    | succ k =>
      have distinct' := (perm.pairwise_iff fun ne => ne.symm).mpr distinct
      exact newestLast_later pos distinct' present' emitted

end Slots

/-! ### Two items -/

section Merge

variable {sort : PointerSort α}
  {m : Memory α} {r d : Nat} {step : BitVec 32}

/-- Points of different times are not in cells that both items have. -/
theorem apart_of_times (nonNil : ∀ p ∈ m.pointers r, p ≠ none)
    (distinct : (m.data r ++ m.data d).Pairwise fun p q => p.time ≠ q.time)
    (someR : m.data r ≠ []) (someD : m.data d ≠ []) :
    (m.items.cell r).data.Apart (m.items.cell d).data := by
  have listed {i : Nat} (some : m.data i ≠ []) : m.pointers i ≠ [] := by
    rintro empty
    rw [Memory.data, empty] at some
    exact some rfl
  by_contra near
  obtain ⟨b, memR, memD⟩ := Slice.exists_mem_contents near (listed someR) (listed someD)
  obtain ⟨x, rfl⟩ := Option.ne_none_iff_exists'.mp (nonNil b memR)
  have mem {i : Nat} (here : some x ∈ m.pointers i) : m.points.cell x ∈ m.data i :=
    List.mem_filterMap.mpr ⟨some x, here, rfl⟩
  exact (List.pairwise_append.mp distinct).2.2 _ (mem memR) _ (mem memD) rfl

theorem realStart_pos {h : Objects α} {r : RenderItem (Option Nat)}
    (ok : Resampleable h r step) : 1 ≤ r.realStart.toNat := by
  by_contra zero
  have le := ok.step_le
  have pos := ok.step_pos
  rw [show r.realStart.toNat = 0 by omega,
    roundUp_eq pos (Nat.dvd_zero _) le_rfl (by omega)] at le
  omega

/-- Where no point is null, a stretch has all the points of its slot. -/
theorem stretchOf_eq_inBin {start step : Nat} {pts : Points α} (pos : 0 < step)
    (le : step ≤ start) (recent : ∀ p ∈ pts, start ≤ p.time.toNat + step)
    (present : ∀ p ∈ pts, p.last.isSome) (p : RawDataPoint Int64 α) :
    stretchOf start step p pts = inBin start step pts (p.bin start step) := by
  rw [stretchOf, stretch_eq_solidIn pos le recent, solidIn, List.filter_eq_self]
  intro q mem
  simp [RawDataPoint.isNull_eq_false_of_last (present q (List.mem_of_mem_filter mem))]

/-- Pointers to points of different times are different. -/
theorem nodup_of_times (nonNil : ∀ p ∈ m.pointers r ++ m.pointers d, p ≠ none)
    (distinct : (m.data r ++ m.data d).Pairwise fun p q => p.time ≠ q.time) :
    (m.pointers r ++ m.pointers d).Nodup := by
  obtain ⟨l, same⟩ := Heap.exists_map_some nonNil
  rw [Memory.data, Memory.data, ← Heap.load_append, same, Heap.load_map_some,
    List.pairwise_map] at distinct
  rw [same]
  refine List.Nodup.map (Option.some_injective _) (distinct.imp fun {x y} ne eq => ?_)
  exact ne (congrArg (fun i => (m.points.cell i).time) eq)

variable (okR : Resampleable m.points (m.view r) step)
  (okD : Resampleable m.points (m.view d) step)

include okR okD

theorem fits_max :
    roundUp step.toNat (max (m.items.cell r).realEnd.toNat (m.items.cell d).realEnd.toNat) +
      step.toNat < 2 ^ 32 := by
  rcases max_choice (m.items.cell r).realEnd.toNat (m.items.cell d).realEnd.toNat with same | same
  · rw [same]
    exact okR.fits
  · rw [same]
    exact okD.fits

theorem end_union :
    (gridEnd (m.unionEnd r d) step).toNat =
      roundUp step.toNat (max (m.items.cell r).realEnd.toNat (m.items.cell d).realEnd.toNat) := by
  have fits := fits_max okR okD
  have some : 1 ≤ max (m.items.cell r).realEnd.toNat (m.items.cell d).realEnd.toNat :=
    le_max_of_le_left okR.end_pos
  rw [← m.toNat_unionEnd] at fits some ⊢
  exact gridEnd_toNat okR.step_pos some (by omega)

theorem timed_both :
    ∀ p ∈ m.data r ++ m.data d,
      min (m.items.cell r).realStart.toNat (m.items.cell d).realStart.toNat ≤ p.time.toNat ∧
      p.time.toNat ≤ max (m.items.cell r).realEnd.toNat (m.items.cell d).realEnd.toNat := by
  intro p mem
  rcases List.mem_append.mp mem with mem | mem
  · exact ⟨(min_le_left ..).trans (okR.timed p mem).1, (okR.timed p mem).2.trans (le_max_left ..)⟩
  · exact ⟨(min_le_right ..).trans (okD.timed p mem).1, (okD.timed p mem).2.trans (le_max_right ..)⟩

variable (apart : (m.items.cell r).data.Apart (m.items.cell d).data)
  (distinct : (m.data r ++ m.data d).Pairwise fun p q => p.time ≠ q.time)
  (present : ∀ p ∈ m.data r ++ m.data d, p.last.isSome)

include apart distinct present

/-- Items that can be resampled can be merged, when there is anything to merge. -/
theorem sweepable_of_mem {q : RawDataPoint Int64 α} (mem : q ∈ m.data r ++ m.data d) :
    Memory.Sweepable m r d step := by
  have timed := timed_both okR okD
  have first : 1 ≤ min (m.items.cell r).realStart.toNat (m.items.cell d).realStart.toNat :=
    le_min (realStart_pos okR) (realStart_pos okD)
  have fits := fits_max okR okD
  have nonNil : ∀ p ∈ m.pointers r ++ m.pointers d, p ≠ none := fun p mem =>
    (List.mem_append.mp mem).elim (okR.nonNil p) (okD.nonNil p)
  exact
    { nonNil := nonNil
      solid := fun p mem => ⟨RawDataPoint.isNull_eq_false_of_last (present p mem),
        (List.mem_append.mp mem).elim (okR.counted p) (okD.counted p)⟩
      timed := fun p mem => ⟨first.trans (timed p mem).1, (timed p mem).2⟩
      ordered := (timed q mem).1.trans (timed q mem).2
      step_pos := okR.step_pos
      fits := by rw [end_union okR okD]; exact fits
      distinct := nodup_of_times nonNil distinct
      apart := apart
      unwrapped := by omega }

theorem mergeWithResample_newest [AddCommSemigroup α] [LinearOrder α]
    (sorts : SortsPointers sort) (grow : Nat → Nat) :
    ∃ m', (∀ fuel, 2 ^ 32 ≤ fuel → m.mergeWithResample sort grow fuel r d step = some (.ok m')) ∧
      ∀ p ∈ m'.data r, NewestLast (stretchOf (roundUp step.toNat
        (min (m.items.cell r).realStart.toNat (m.items.cell d).realStart.toNat)) step.toNat p
        (m.data r ++ m.data d)) p := by
  have pos := okR.step_pos
  have fits := fits_max okR okD
  rcases (m.data r ++ m.data d).eq_nil_or_concat with empty | ⟨init, q, concat⟩
  · obtain ⟨emptyR, emptyD⟩ := List.append_eq_nil_iff.mp empty
    have none {i : Nat} (objects : ∀ p ∈ m.pointers i, p ≠ none) (empty : m.data i = []) :
        m.pointers i = [] := by
      obtain ⟨l, same⟩ := Heap.exists_map_some objects
      rw [Memory.data, same, Heap.load_map_some] at empty
      rw [same, List.map_eq_nil_iff.mp empty]
      rfl
    obtain ⟨m', run, nothing⟩ := Memory.mergeWithResample_empty (m := m) sorts grow pos
      (by rw [end_union okR okD]; exact fits) (none okR.nonNil emptyR) (none okD.nonNil emptyD)
    refine ⟨m', run, fun p mem => ?_⟩
    rw [nothing] at mem
    cases mem
  · have ok := sweepable_of_mem okR okD apart distinct present (show q ∈ _ by rw [concat]; simp)
    obtain ⟨m', run, -, gridded⟩ := Memory.mergeWithResample_gridded sorts grow ok
    refine ⟨m', run, fun p mem => ?_⟩
    have start := ok.start_eq
    rw [Memory.toNat_unionStart] at start
    rw [start] at gridded
    have le : step.toNat ≤ roundUp step.toNat
        (min (m.items.cell r).realStart.toNat (m.items.cell d).realStart.toNat) := by
      rcases min_choice (m.items.cell r).realStart.toNat (m.items.cell d).realStart.toNat with
        same | same
      · rw [same]
        exact okR.step_le
      · rw [same]
        exact okD.step_le
    rw [stretchOf_eq_inBin pos le ?_ present]
    · exact newestLast_mergedFrom
        (gridded.merged pos (fun q mem => (ok.solid q mem).notNull) mem).2
        (fun q mem => ok.solid q (List.mem_of_mem_filter mem))
        (fun q mem => (ok.timed q (List.mem_of_mem_filter mem)).1) (distinct.filter _)
        fun q mem => present q (List.mem_of_mem_filter mem)
    · intro q mem
      have := roundUp_lt pos
        (min (m.items.cell r).realStart.toNat (m.items.cell d).realStart.toNat)
      have := (timed_both okR okD q mem).1
      omega

end Merge

section Resample

variable {sort : PointerSort α}
  {h : Objects α} {r : RenderItem (Option Nat)} {step : BitVec 32}
variable [AddCommSemigroup α] [LinearOrder α]

/-- Resampling one item gives the newest values exactly when the first stretch has no older
value to keep, and merging it with another while resampling always does. -/
theorem resample_newest_iff (sorts : SortsPointers sort) (ok : Resampleable h r step)
    (distinct : (h.load r.data).Pairwise fun p q => p.time ≠ q.time)
    (present : ∀ p ∈ h.load r.data, p.last.isSome) :
    (∃ h' out, (∀ fuel, 2 ^ 32 ≤ fuel → resample sort fuel h r step = some (.ok (h', out))) ∧
      ((∀ p ∈ h'.load out.data, NewestLast (stretch (roundUp step.toNat r.realStart.toNat)
          step.toNat p.time.toNat (h.load r.data)) p) ↔
        FirstAgrees (roundUp step.toNat r.realStart.toNat) step.toNat (h.load r.data))) ∧
    ∀ (m : Memory α) (i j : Nat) (grow : Nat → Nat), m.points = h → m.view i = r →
      (h.load r.data = [] ∨ h.load (m.view j).data = [] →
        (m.items.cell i).data.Apart (m.items.cell j).data) → Resampleable h (m.view j) step →
      ((h.load r.data ++ h.load (m.view j).data).Pairwise fun p q => p.time ≠ q.time) →
      (∀ p ∈ h.load (m.view j).data, p.last.isSome) →
      ∃ m', (∀ fuel, 2 ^ 32 ≤ fuel →
          m.mergeWithResample sort grow fuel i j step = some (.ok m')) ∧
        ∀ p ∈ m'.data i, NewestLast (stretchOf
          (roundUp step.toNat (min r.realStart.toNat (m.view j).realStart.toNat)) step.toNat p
          (h.load r.data ++ h.load (m.view j).data)) p := by
  constructor
  · obtain ⟨h', out, run, -, -, emitted⟩ := resample_eq sorts ok
    refine ⟨h', out, run, ?_⟩
    have points := h.load_perm (sorts.perm h r.data)
    rw [emitted]
    rcases (h.load r.data).eq_nil_or_concat with empty | ⟨init, q, concat⟩
    · rw [empty] at points ⊢
      rw [points.eq_nil, slots_nil]
      simp [FirstAgrees, stretch]
    · obtain ⟨-, -, whole, placed⟩ := grid_of_mem ok (show q ∈ h.load r.data by simp [concat])
      have fits := ok.fits
      exact newest_slots_iff ok.step_pos ok.step_le points (sorts.sorted h r.data ok.nonNil)
        (fun p mem => (placed p mem).1) (by omega) distinct present
  · rintro m i j grow rfl rfl beside okD distinct presentD
    have apart : (m.items.cell i).data.Apart (m.items.cell j).data := by
      by_cases empty : m.data i = [] ∨ m.data j = []
      · exact beside empty
      · obtain ⟨someR, someD⟩ := not_or.mp empty
        exact apart_of_times ok.nonNil distinct someR someD
    have both : ∀ p ∈ m.data i ++ m.data j, p.last.isSome := fun p mem =>
      (List.mem_append.mp mem).elim (present p) (presentD p)
    exact mergeWithResample_newest ok okD apart distinct both sorts grow

end Resample

/-- Five points; the first and the last share a stretch of ten. The first item has no room to grow
where it is, and the second is next to it. -/
def readings : Memory Int where
  points :=
    { cell
        | 0 => single 12 8
        | 1 => single 25 2
        | 2 => single 31 4
        | 3 => single 28 16
        | _ => single 15 5
      next := 5 }
  arrays :=
    { cell := fun _ j => [some 3, some 0, some 1, some 2, some 4].getD j none
      next := 1 }
  items :=
    { cell
        | 0 => ⟨11, 40, 11, 40, 1, .full 0 0 3, [], [], false⟩
        | _ => ⟨11, 35, 11, 35, 1, .full 0 3 2, [], [], false⟩
      next := 2 }
  placed i := by rcases i with _ | i <;> exact Nat.zero_lt_one

theorem resample_newest_inMemory :
    Resampleable readings.points (readings.view 0) 10 ∧
    Resampleable readings.points (readings.view 1) 10 ∧
    (∃ h' out, (∀ fuel, 2 ^ 32 ≤ fuel →
        resample pointersByTime fuel readings.points (readings.view 0) 10 =
          some (.ok (h', out))) ∧
      ∀ p ∈ h'.load out.data, NewestLast (stretch (roundUp (10 : BitVec 32).toNat
        (readings.view 0).realStart.toNat) (10 : BitVec 32).toNat p.time.toNat
        (readings.data 0)) p) ∧
    ∃ m', (∀ fuel, 2 ^ 32 ≤ fuel →
        readings.mergeWithResample pointersByTime id fuel 0 1 10 = some (.ok m')) ∧
      ∀ p ∈ m'.data 0, NewestLast (stretchOf (roundUp (10 : BitVec 32).toNat
        (min (readings.view 0).realStart.toNat (readings.view 1).realStart.toNat))
        (10 : BitVec 32).toNat p (readings.data 0 ++ readings.data 1)) p := by
  have okR : Resampleable readings.points (readings.view 0) 10 :=
    ⟨by decide, by decide, by decide, by decide, by decide, by decide, by decide⟩
  have okD : Resampleable readings.points (readings.view 1) 10 :=
    ⟨by decide, by decide, by decide, by decide, by decide, by decide, by decide⟩
  obtain ⟨⟨h', out, run, newest⟩, merged⟩ :=
    resample_newest_iff sortsPointers_pointersByTime okR (by decide) (by decide)
  exact ⟨okR, okD, ⟨h', out, run, newest.mpr (by decide)⟩,
    merged readings 0 1 id rfl rfl (fun _ => by decide) okD (by decide) (by decide)⟩

/-- The value of time 12 stays where that of time 15 is newer. -/
def early : RenderItem (Option Nat) := ⟨11, 20, 11, 20, 1, [some 0, some 4]⟩

theorem resample_keeps_oldest :
    Resampleable readings.points early 10 ∧
    ((readings.points.load early.data).Pairwise fun p q => p.time ≠ q.time) ∧
    (∀ p ∈ readings.points.load early.data, p.last.isSome) ∧
    ∃ h' out, resample pointersByTime 2 readings.points early 10 = some (.ok (h', out)) ∧
      ¬ ∀ p ∈ h'.load out.data, NewestLast (stretch (roundUp (10 : BitVec 32).toNat
        early.realStart.toNat) (10 : BitVec 32).toNat p.time.toNat
        (readings.points.load early.data)) p := by
  refine ⟨⟨by decide, by decide, by decide, by decide, by decide, by decide, by decide⟩,
    by decide, by decide, _, _, rfl, ?_⟩
  decide

end Metrics
