import Cadent.Schemas.TimeGrid

/-!
# Points on a grid

What resampling should come to, in terms of the points as values: the points of each slot of a
grid are merged into one, in any order, and a slot without points has none. The totals of the
points are kept as long as the total count is in range.
-/

namespace Metrics

open Grid

/-! ### The slots of a sorted list -/

section Slots

variable {κ α : Type}

/-- The slot of a point on the grid. -/
def RawDataPoint.bin (start step : Nat) (p : RawDataPoint κ α) : Nat := slot start step p.time.toNat

/-- The points of one slot. -/
def inBin (start step : Nat) (pts : List (RawDataPoint κ α)) (k : Nat) : List (RawDataPoint κ α) :=
  pts.filter fun p => p.bin start step = k

theorem inBin_append (start step : Nat) (ps qs : List (RawDataPoint κ α)) (k : Nat) :
    inBin start step (ps ++ qs) k = inBin start step ps k ++ inBin start step qs k :=
  List.filter_append ..

theorem inBin_perm {ps qs : List (RawDataPoint κ α)} (perm : ps.Perm qs) (start step k : Nat) :
    (inBin start step ps k).Perm (inBin start step qs k) := perm.filter _

variable {start : Nat} {step t : BitVec 32} {k : Nat} {l : List (RawDataPoint κ α)}

/-- From what a cursor has left at slot `k` it takes the slot and leaves the later ones. -/
theorem sweep_bin (pos : 0 < step.toNat)
    (sorted : l.Pairwise fun p q => p.time.toNat ≤ q.time.toNat)
    (now : t.toNat = start + step.toNat * k) :
    ((l.filter fun p => k ≤ p.bin start step.toNat).takeWhile fun p => p.time.toNat ≤ t.toNat) =
        inBin start step.toNat l k ∧
      ((l.filter fun p => k ≤ p.bin start step.toNat).dropWhile fun p => p.time.toNat ≤ t.toNat) =
        l.filter fun p => k + 1 ≤ p.bin start step.toNat := by
  have le_iff (p : RawDataPoint κ α) : p.time.toNat ≤ t.toNat ↔ p.bin start step.toNat ≤ k := by
    rw [RawDataPoint.bin, slot_le_iff pos, now]
  rw [takeWhile_eq_filter (sorted.filter _), dropWhile_eq_filter (sorted.filter _), inBin,
    List.filter_filter, List.filter_filter]
  refine ⟨List.filter_congr ?_, List.filter_congr ?_⟩
  all_goals
    intro p _
    have := le_iff p
    rw [← Bool.decide_and, decide_eq_decide]
    omega

end Slots

/-! ### Merging the points of a slot -/

variable {κ α : Type} [Zero κ] [Add κ] [LT κ] [DecidableLT κ] [DecidableEq κ]
  [AddCommSemigroup α] [LinearOrder α]

/-- A point is the merge of a bag of points, in some order. -/
def MergedFrom (pts : List (RawDataPoint κ α)) (p : RawDataPoint κ α) : Prop :=
  ∃ q qs, (q :: qs).Perm pts ∧ p = qs.foldl RawDataPoint.merge q

theorem MergedFrom.perm {pts pts' : List (RawDataPoint κ α)} {p : RawDataPoint κ α}
    (merged : MergedFrom pts p) (perm : pts.Perm pts') : MergedFrom pts' p := by
  obtain ⟨q, qs, order, rfl⟩ := merged
  exact ⟨q, qs, order.trans perm, rfl⟩

theorem totals_mergedFrom [Tally κ] {pts : List (RawDataPoint κ α)} {p : RawDataPoint κ α}
    (merged : MergedFrom pts p) (solid : ∀ q ∈ pts, q.Solid)
    (fits : Tally.InRange κ (totalCount pts)) : p.totals = (pts.map RawDataPoint.totals).sum := by
  obtain ⟨q, qs, perm, rfl⟩ := merged
  obtain ⟨first, rest⟩ := List.forall_mem_cons.mp fun x mem => solid x (perm.subset mem)
  rw [← totalCount_perm perm, totalCount_cons] at fits
  rw [RawDataPoint.totals_foldl_merge first.counted rest fits, ← (perm.map _).sum_eq]
  rfl

/-- A merged point stays in the slot that its points share. -/
theorem bin_mergedFrom {start step k : Nat} (pos : 0 < step) {pts : List (RawDataPoint κ α)}
    {p : RawDataPoint κ α} (merged : MergedFrom pts p) (some : ∀ q ∈ pts, q.isNull = false)
    (together : ∀ q ∈ pts, q.bin start step = k) : p.bin start step = k := by
  obtain ⟨q, qs, perm, rfl⟩ := merged
  have part : ∀ x ∈ qs, x ∈ pts := fun x mem => perm.subset (List.mem_cons_of_mem _ mem)
  have latest := RawDataPoint.time_foldl_merge_le_iff (r := q) fun x mem => some x (part x mem)
  have first := together q (perm.subset List.mem_cons_self)
  have upper : (qs.foldl RawDataPoint.merge q).bin start step ≤ k := by
    rw [RawDataPoint.bin, slot_le_iff pos, latest]
    refine ⟨(slot_le_iff pos).mp first.le, fun x mem => ?_⟩
    exact (slot_le_iff pos).mp (together x (part x mem)).le
  have lower : k ≤ (qs.foldl RawDataPoint.merge q).bin start step :=
    first ▸ slot_mono pos ((latest _).mp le_rfl).1
  exact le_antisymm upper lower

theorem bin_of_inBin {start step k : Nat} (pos : 0 < step) {pts : List (RawDataPoint κ α)}
    (some : ∀ p ∈ pts, p.isNull = false) {p : RawDataPoint κ α}
    (merged : MergedFrom (inBin start step pts k) p) : p.bin start step = k := by
  refine bin_mergedFrom pos merged (fun q mem => some q (List.mem_of_mem_filter mem)) ?_
  intro q mem
  simpa using (List.mem_filter.mp mem).2

/-- What is emitted for the points of a slot: nothing for none, else a merge of them. -/
def Emits (pts : List (RawDataPoint κ α)) : Option (RawDataPoint κ α) → Prop
  | none => pts = []
  | some p => MergedFrom pts p

theorem Emits.perm {pts pts' : List (RawDataPoint κ α)} {e : Option (RawDataPoint κ α)}
    (emits : Emits pts e) (perm : pts.Perm pts') : Emits pts' e := by
  cases e with
  | none =>
    obtain rfl : pts = [] := emits
    exact perm.nil_eq.symm
  | some p => exact MergedFrom.perm emits perm

theorem totals_emits [Tally κ] {pts : List (RawDataPoint κ α)} {e : Option (RawDataPoint κ α)}
    (emits : Emits pts e) (solid : ∀ q ∈ pts, q.Solid) (fits : Tally.InRange κ (totalCount pts)) :
    (e.toList.map RawDataPoint.totals).sum = (pts.map RawDataPoint.totals).sum := by
  cases e with
  | none =>
    obtain rfl : pts = [] := emits
    rfl
  | some p => simpa using totals_mergedFrom emits solid fits

/-- One merged point for each of the first slots that has a point. -/
inductive Gridded (start step : Nat) (pts : List (RawDataPoint κ α)) :
    Nat → List (RawDataPoint κ α) → Prop
  | nil : Gridded start step pts 0 []
  | slot {k : Nat} {out : List (RawDataPoint κ α)} {e : Option (RawDataPoint κ α)}
      (before : Gridded start step pts k out) (emits : Emits (inBin start step pts k) e) :
      Gridded start step pts (k + 1) (out ++ e.toList)

section Gridded

variable {start step n : Nat} {pts out : List (RawDataPoint κ α)}

theorem Gridded.perm (gridded : Gridded start step pts n out) {pts' : List (RawDataPoint κ α)}
    (perm : pts.Perm pts') : Gridded start step pts' n out := by
  induction gridded with
  | nil => exact .nil
  | slot before emits ih => exact ih.slot (emits.perm (inBin_perm perm start step _))

theorem Gridded.merged (gridded : Gridded start step pts n out) (pos : 0 < step)
    (some : ∀ p ∈ pts, p.isNull = false) {p : RawDataPoint κ α} (mem : p ∈ out) :
    p.bin start step < n ∧ MergedFrom (inBin start step pts (p.bin start step)) p := by
  induction gridded with
  | nil => cases mem
  | @slot k out e before emits ih =>
    rcases List.mem_append.mp mem with earlier | here
    · obtain ⟨lt, merged⟩ := ih earlier
      exact ⟨Nat.lt_succ_of_lt lt, merged⟩
    · obtain rfl := Option.mem_toList.mp here
      rw [bin_of_inBin pos some emits]
      exact ⟨Nat.lt_succ_self k, emits⟩

theorem Gridded.bins (gridded : Gridded start step pts n out) (pos : 0 < step)
    (some : ∀ p ∈ pts, p.isNull = false) :
    out.Pairwise fun p q => p.bin start step < q.bin start step := by
  induction gridded with
  | nil => exact .nil
  | @slot k out e before emits ih =>
    refine List.pairwise_append.mpr ⟨ih, ?_, fun q earlier p here => ?_⟩
    · cases e <;> simp
    · obtain rfl := Option.mem_toList.mp here
      rw [bin_of_inBin pos some emits]
      exact (before.merged pos some earlier).1

theorem Gridded.covered (gridded : Gridded start step pts n out) (pos : 0 < step)
    (some : ∀ p ∈ pts, p.isNull = false) {q : RawDataPoint κ α} (mem : q ∈ pts)
    (lt : q.bin start step < n) : ∃ p ∈ out, p.bin start step = q.bin start step := by
  induction gridded with
  | nil => omega
  | @slot k out e before emits ih =>
    by_cases here : q.bin start step = k
    · have listed : q ∈ inBin start step pts k := List.mem_filter.mpr ⟨mem, by simpa using here⟩
      cases e with
      | none =>
        rw [show inBin start step pts k = [] from emits] at listed
        cases listed
      | some p => exact ⟨p, by simp, (bin_of_inBin pos some emits).trans here.symm⟩
    · obtain ⟨p, mem, same⟩ := ih (by omega)
      exact ⟨p, List.mem_append_left _ mem, same⟩

variable [Tally κ]

/-- Slots without a point are skipped and add nothing. -/
theorem Gridded.totals (gridded : Gridded start step pts n out) (solid : ∀ p ∈ pts, p.Solid)
    (fits : Tally.InRange κ (totalCount pts)) :
    (out.map RawDataPoint.totals).sum =
      (((List.range n).flatMap (inBin start step pts)).map RawDataPoint.totals).sum := by
  induction gridded with
  | nil => rfl
  | @slot k out e before emits ih =>
    have here := totals_emits emits (fun q mem => solid q (List.mem_of_mem_filter mem))
      (inRange_of_sublist List.filter_sublist (fun p mem => (solid p mem).counted) fits)
    rw [List.range_succ, List.flatMap_append, List.flatMap_singleton, List.map_append,
      List.map_append, List.sum_append, List.sum_append, ih, here]

/-- The order of the points only shows in `Last`. -/
theorem Gridded.totals_perm (gridded : Gridded start step pts n out)
    {pts' out' : List (RawDataPoint κ α)} (gridded' : Gridded start step pts' n out')
    (perm : pts.Perm pts') (solid : ∀ p ∈ pts, p.Solid) (fits : Tally.InRange κ (totalCount pts)) :
    out.map RawDataPoint.totals = out'.map RawDataPoint.totals := by
  induction gridded generalizing out' with
  | nil =>
    cases gridded'
    rfl
  | @slot k out e before emits ih =>
    obtain _ | @⟨_, out', e', before', emits'⟩ := gridded'
    have emits' := emits'.perm (inBin_perm perm.symm start step k)
    have same : e.toList.map RawDataPoint.totals = e'.toList.map RawDataPoint.totals := by
      have solid' : ∀ q ∈ inBin start step pts k, q.Solid :=
        fun q mem => solid q (List.mem_of_mem_filter mem)
      have fits' : Tally.InRange κ (totalCount (inBin start step pts k)) :=
        inRange_of_sublist List.filter_sublist (fun p mem => (solid p mem).counted) fits
      cases e with
      | none =>
        cases e' with
        | none => rfl
        | some p' =>
          obtain ⟨q, qs, order, -⟩ := emits'
          rw [show inBin start step pts k = [] from emits] at order
          cases order.eq_nil
      | some p =>
        cases e' with
        | none =>
          obtain ⟨q, qs, order, -⟩ := emits
          rw [show inBin start step pts k = [] from emits'] at order
          cases order.eq_nil
        | some p' =>
          simp [totals_mergedFrom emits solid' fits', totals_mergedFrom emits' solid' fits']
    rw [List.map_append, List.map_append, ih before', same]

end Gridded

/-! ### What resampling comes to -/

/-- The sum of the values that are there. -/
def totalSum (pts : List (RawDataPoint κ α)) : Option α :=
  pts.foldr (fun p rest => p.sum.merge (· + ·) rest) none

variable [Tally κ]

/-- `out` is `pts` resampled to the grid from `start` to `endTime`. -/
structure Resampled (start endTime step : Nat) (pts out : List (RawDataPoint κ α)) : Prop where
  increasing : out.Pairwise fun p q => p.time.toNat < q.time.toNat
  one_per_bin : out.Pairwise fun p q => p.bin start step < q.bin start step
  within : ∀ p ∈ out, p.time.toNat ≤ endTime
  merged : ∀ p ∈ out, MergedFrom (pts.filter fun q => q.bin start step = p.bin start step) p
  covered : ∀ q ∈ pts, ∃ p ∈ out, p.bin start step = q.bin start step
  count : totalCount out = totalCount pts
  sum : totalSum out = totalSum pts

omit [DecidableLT κ] [DecidableEq κ] in
theorem totalCount_eq (pts : List (RawDataPoint κ α)) :
    totalCount pts = (pts.map RawDataPoint.totals).sum.count := by
  induction pts with
  | nil => rfl
  | cons p pts ih =>
    rw [totalCount_cons, List.map_cons, List.sum_cons, ih]
    rfl

omit [DecidableLT κ] [DecidableEq κ] in
theorem totalSum_eq (pts : List (RawDataPoint κ α)) :
    totalSum pts = (pts.map RawDataPoint.totals).sum.sum := by
  induction pts with
  | nil => rfl
  | cons p pts ih =>
    rw [totalSum] at ih
    rw [totalSum, List.foldr_cons, List.map_cons, List.sum_cons, ih]
    rfl

theorem Gridded.resampled {start step n endTime : Nat} {pts out : List (RawDataPoint κ α)}
    (gridded : Gridded start step pts (n + 1) out) (pos : 0 < step) (solid : ∀ p ∈ pts, p.Solid)
    (fits : Tally.InRange κ (totalCount pts)) (below : ∀ p ∈ pts, p.bin start step ≤ n)
    (last : start + step * n ≤ endTime) : Resampled start endTime step pts out := by
  have some : ∀ p ∈ pts, p.isNull = false := fun p mem => (solid p mem).notNull
  have totals : (out.map RawDataPoint.totals).sum = (pts.map RawDataPoint.totals).sum := by
    rw [gridded.totals solid fits]
    exact ((flatMap_filter_perm _ (n + 1) fun p mem => Nat.lt_succ_iff.mpr (below p mem)).map
      _).sum_eq
  have bins := gridded.bins pos some
  refine ⟨bins.imp (lt_of_slot_lt pos), bins, fun p mem => ?_, fun p mem => ?_, fun q mem => ?_,
    ?_, ?_⟩
  · have le := Nat.lt_succ_iff.mp (gridded.merged pos some mem).1
    have := Nat.mul_le_mul_left step le
    exact ((slot_le_iff pos).mp (Nat.le_refl (p.bin start step))).trans (by omega)
  · exact (gridded.merged pos some mem).2
  · exact gridded.covered pos some mem (Nat.lt_succ_iff.mpr (below q mem))
  · rw [totalCount_eq, totals, totalCount_eq]
  · rw [totalSum_eq, totals, totalSum_eq]

end Metrics
