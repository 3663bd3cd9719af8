import Cadent.Schemas.Gridding
import Cadent.Schemas.MergeFold

/-!
# Resampling a render item

`Resample` merges the points of each stretch of the grid into a point of its own: the points
of the item are objects behind pointers, and what it writes to are objects that it makes.
The running point is replaced only when it was emitted, so it starts with the time of the
grid at which the one before it was emitted. The loop over the grid counts in `uint32` and
is run with fuel. `sort.Sort` is a parameter that is only known to sort by time where no
pointer is nil.
-/

namespace Metrics

open Grid

variable {α : Type} [AddCommSemigroup α] [LinearOrder α]

/-- The inner loop: up to the first point after `t`, what is not too old is merged into `dp`. -/
def mergeUpTo (t step : BitVec 32) (dp : Nat) : Objects α → List (Option Nat) →
    Objects α × List (Option Nat)
  | h, [] => (h, [])
  | h, none :: rest => mergeUpTo t step dp h rest
  | h, some i :: rest =>
    if (h.cell i).time < t - step then mergeUpTo t step dp h rest
    else if t < (h.cell i).time then (h, some i :: rest)
    else mergeUpTo t step dp (h.write dp ((h.cell dp).merge (h.cell i))) rest

def fillLoop (step endTime : BitVec 32) : Nat → BitVec 32 → Nat → Objects α → List (Option Nat) →
    List (Option Nat) → Option (Objects α × List (Option Nat))
  | 0, _, _, _, _, _ => none
  | fuel + 1, t, dp, h, rest, data =>
    if t ≤ endTime then
      let (h, rest) := mergeUpTo t step dp h rest
      if (h.cell dp).isNull then fillLoop step endTime fuel (t + step) dp h rest data
      else
        let h := h.write dp { h.cell dp with time := t }
        fillLoop step endTime fuel (t + step) h.next (h.alloc (.null t)) rest (data ++ [some dp])
    else some (h, data)

variable (sort : PointerSort α)

/-- The outer result is `none` when the fuel does not suffice. -/
def resample (fuel : Nat) (h : Objects α) (r : RenderItem (Option Nat)) (step : BitVec 32) :
    Option (Except MetricsError (Objects α × RenderItem (Option Nat))) :=
  if step = 0#32 then some (.error .quantizeStepTooSmall)
  else
    let start := gridStart r.realStart step
    let endTime := gridEnd r.realEnd step
    (fillLoop step endTime fuel start h.next (h.alloc (.null start)) (sort h r.data) []).map
      fun (h, data) =>
        .ok (h, { start := start, «end» := endTime, realStart := start, realEnd := endTime,
                  step := step, data := data })

/-! ### One pass -/

section Pass

variable {h : Objects α} {t step : BitVec 32} {dp : Nat}

/-- Where nothing is too old the inner loop merges a first part of what is left. -/
theorem mergeUpTo_eq {rest : List (Option Nat)} (own : some dp ∉ rest)
    (recent : ∀ p ∈ h.load rest, ¬ p.time < t - step) :
    ∃ later, mergeUpTo t step dp h rest =
        (h.write dp (((h.load rest).takeWhile fun p => p.time.toNat ≤ t.toNat).foldl
          RawDataPoint.merge (h.cell dp)), later) ∧
      h.load later = (h.load rest).dropWhile (fun p => p.time.toNat ≤ t.toNat) ∧
      later ⊆ rest := by
  induction rest generalizing h with
  | nil => exact ⟨[], by simp [mergeUpTo], rfl, List.Subset.refl _⟩
  | cons p rest ih =>
    have others : some dp ∉ rest := fun mem => own (List.mem_cons_of_mem _ mem)
    cases p with
    | none =>
      obtain ⟨later, result, left, part⟩ := ih others recent
      exact ⟨later, result, left, List.Subset.trans part (List.subset_cons_self ..)⟩
    | some i =>
      rw [Heap.load_some] at recent
      obtain ⟨first, recent⟩ := List.forall_mem_cons.mp recent
      by_cases after : t < (h.cell i).time
      · have beyond : ¬ (h.cell i).time.toNat ≤ t.toNat := not_le.mpr after
        refine ⟨some i :: rest, ?_, ?_, List.Subset.refl _⟩
        · rw [mergeUpTo, if_neg first, if_pos after]
          simp [beyond]
        · simp [beyond]
      · have here : (h.cell i).time.toNat ≤ t.toNat := BitVec.not_lt.mp after
        rw [← Heap.load_write others ((h.cell dp).merge (h.cell i))] at recent
        obtain ⟨later, result, left, part⟩ := ih others recent
        rw [Heap.load_write others] at result left
        rw [Heap.load_write fun mem => others (part mem)] at left
        refine ⟨later, ?_, ?_, List.Subset.trans part (List.subset_cons_self ..)⟩
        · rw [mergeUpTo, if_neg first, if_neg after, result]
          simp [here]
        · rw [left]
          simp [here]

end Pass

/-! ### The points of a slot -/

namespace RawDataPoint

theorem foldl_merge_solid (r : RawDataPoint Int64 α) (ps : Points α) :
    ps.foldl merge r = (ps.filter fun p => !p.isNull).foldl merge r := by
  induction ps generalizing r with
  | nil => rfl
  | cons p ps ih =>
    cases null : p.isNull with
    | true =>
      have skipped : r.merge p = r := by simp [merge, null]
      simp [null, skipped, ih]
    | false => simp [null, ih]

theorem isNull_foldl_merge (r : RawDataPoint Int64 α) (ps : Points α) :
    (ps.foldl merge r).isNull = (r.isNull && ps.all isNull) := by
  induction ps generalizing r with
  | nil => simp
  | cons p ps ih => rw [List.foldl_cons, ih, isNull_merge, List.all_cons, Bool.and_assoc]

end RawDataPoint

section Slots

variable (start step : Nat) (pts : Points α)

def solidIn (k : Nat) : Points α :=
  (inBin start step pts k).filter fun p => !p.isNull

def gridTime (k : Nat) : BitVec 32 := BitVec.ofNat 32 (start + step * k)

/-- The time of the running point when a slot begins. -/
def seed : Nat → BitVec 32
  | 0 => gridTime start step 0
  | k + 1 => if solidIn start step pts k = [] then seed k else gridTime start step k

/-- What is emitted at the grid time of a slot. -/
def slotPoint (k : Nat) : Option (RawDataPoint Int64 α) :=
  if solidIn start step pts k = [] then none
  else some { (solidIn start step pts k).foldl RawDataPoint.merge (.null (seed start step pts k))
    with time := gridTime start step k }

variable {start step pts}

theorem slots_nil (ks : List Nat) : ks.filterMap (slotPoint start step ([] : Points α)) = [] := by
  simp [slotPoint, solidIn, inBin]

omit [AddCommSemigroup α] [LinearOrder α] in
theorem mem_solidIn {k : Nat} {p : RawDataPoint Int64 α} :
    p ∈ solidIn start step pts k ↔ p ∈ pts ∧ p.bin start step = k ∧ p.isNull = false := by
  rw [solidIn, inBin, List.mem_filter, List.mem_filter, and_assoc]
  simp

theorem slotPoint_eq_none_iff {k : Nat} :
    slotPoint start step pts k = none ↔ solidIn start step pts k = [] := by
  rw [slotPoint]
  split_ifs with none
  · simp [none]
  · simp [none]

theorem slotPoint_eq_some {k : Nat} {p : RawDataPoint Int64 α}
    (emitted : slotPoint start step pts k = some p) :
    solidIn start step pts k ≠ [] ∧
      p = { (solidIn start step pts k).foldl RawDataPoint.merge (.null (seed start step pts k))
        with time := gridTime start step k } := by
  rw [slotPoint] at emitted
  split_ifs at emitted with none
  exact ⟨none, (Option.some.inj emitted).symm⟩

theorem isNull_foldl_solidIn {k : Nat} (some : solidIn start step pts k ≠ [])
    (r : RawDataPoint Int64 α) :
    ((solidIn start step pts k).foldl RawDataPoint.merge r).isNull = false := by
  rw [RawDataPoint.isNull_foldl_merge, Bool.and_eq_false_iff, List.all_eq_false]
  obtain ⟨p, mem⟩ := List.exists_mem_of_ne_nil _ some
  exact .inr ⟨p, mem, by simp [(mem_solidIn.mp mem).2.2]⟩

end Slots

/-! ### The sweep -/

section Sweep

variable {base : Objects α} {start : Nat} {step endTime : BitVec 32}
  {pts : Points α}

/-- Before slot `k`: the objects that were there are as they were, the running point is blank
and has the time at which the one before it was emitted. -/
structure Sweeping (base : Objects α) (start step : Nat)
    (pts : Points α) (k : Nat) (h : Objects α) (dp : Nat)
    (rest data : List (Option Nat)) : Prop where
  kept : ∀ i < base.next, h.cell i = base.cell i
  fresh : base.next ≤ dp
  made : dp < h.next
  blank : h.cell dp = .null (seed start step pts k)
  reads : ∀ i, some i ∈ rest → i < base.next
  left : base.load rest = pts.filter fun p => k ≤ p.bin start step
  wrote : ∀ p ∈ data, ∃ i < dp, p = some i
  emitted : h.load data = (List.range k).filterMap (slotPoint start step pts)

omit [AddCommSemigroup α] [LinearOrder α] in
/-- Nothing that is left is before the stretch of the slot. -/
theorem not_old {k : Nat} {t : BitVec 32} (pos : 0 < step.toNat) (le : step.toNat ≤ start)
    (now : t.toNat = start + step.toNat * k) {p : RawDataPoint Int64 α}
    (recent : start ≤ p.time.toNat + step.toNat) (left : k ≤ p.bin start step.toNat) :
    ¬ p.time < t - step := by
  have value : (t - step).toNat = start + step.toNat * k - step.toNat := by
    have := t.isLt
    rw [BitVec.toNat_sub]
    omega
  have ge : (t - step).toNat ≤ p.time.toNat := by
    cases k with
    | zero => omega
    | succ k =>
      have := (lt_slot_iff pos).mp left
      rw [Nat.mul_add] at value
      omega
  exact BitVec.not_lt.mpr ge

section Next

variable {start step k dp : Nat} {h : Objects α} {rest later data : List (Option Nat)}

/-- A slot without a value leaves the running point as it is. -/
theorem Sweeping.skip (sweeping : Sweeping base start step pts k h dp rest data)
    (none : solidIn start step pts k = []) (part : later ⊆ rest)
    (left : base.load later = pts.filter fun p => k + 1 ≤ p.bin start step) :
    Sweeping base start step pts (k + 1) h dp later data := by
  have same : seed start step pts (k + 1) = seed start step pts k := if_pos none
  have nothing : slotPoint start step pts k = .none := if_pos none
  refine ⟨sweeping.kept, sweeping.fresh, sweeping.made, ?_, ?_, left, sweeping.wrote, ?_⟩
  · rw [same]
    exact sweeping.blank
  · intro i mem
    exact sweeping.reads i (part mem)
  · rw [List.range_succ, List.filterMap_append, List.filterMap_cons_none nothing,
      List.filterMap_nil,
      List.append_nil]
    exact sweeping.emitted

/-- A slot with a value has its point emitted and a new one made. -/
theorem Sweeping.emit {p : RawDataPoint Int64 α}
    (sweeping : Sweeping base start step pts k h dp rest data)
    (some : slotPoint start step pts k = some p) (part : later ⊆ rest)
    (left : base.load later = pts.filter fun p => k + 1 ≤ p.bin start step) :
    Sweeping base start step pts (k + 1) ((h.write dp p).alloc (.null (gridTime start step k)))
      h.next later (data ++ [.some dp]) := by
  have filled := (slotPoint_eq_some some).1
  have untouched {i : Nat} (ne : i ≠ dp) (lt : i < h.next) :
      ((h.write dp p).alloc (.null (gridTime start step k))).cell i = h.cell i := by
    rw [Heap.alloc_cell_of_lt _ (by exact lt), h.write_cell_of_ne ne]
  have made := sweeping.made
  have fresh := sweeping.fresh
  constructor
  · intro i lt
    rw [untouched (by omega) (by omega)]
    exact sweeping.kept i lt
  · omega
  · exact Nat.lt_succ_self _
  · have same : seed start step pts (k + 1) = gridTime start step k := if_neg filled
    rw [same]
    exact Heap.alloc_cell _ _
  · intro i mem
    exact sweeping.reads i (part mem)
  · exact left
  · intro q mem
    rcases List.mem_append.mp mem with mem | mem
    · obtain ⟨i, lt, rfl⟩ := sweeping.wrote q mem
      exact ⟨i, by omega, rfl⟩
    · exact ⟨dp, made, List.mem_singleton.mp mem⟩
  · have before : ((h.write dp p).alloc (.null (gridTime start step k))).load data =
        h.load data := by
      refine Heap.load_congr fun i mem => ?_
      obtain ⟨j, lt, same⟩ := sweeping.wrote _ mem
      obtain rfl := Option.some.inj same
      exact untouched (by omega) (by omega)
    have own : ((h.write dp p).alloc (.null (gridTime start step k))).cell dp = p := by
      rw [Heap.alloc_cell_of_lt _ (by exact made), h.write_cell]
    rw [List.range_succ, List.filterMap_append, List.filterMap_cons_some some, List.filterMap_nil,
      Heap.load_append, before, sweeping.emitted, Heap.load_some, own]
    rfl

end Next

theorem fillLoop_pass (pos : 0 < step.toNat) (le : step.toNat ≤ start)
    (sorted : pts.Pairwise fun p q => p.time.toNat ≤ q.time.toNat)
    (recent : ∀ p ∈ pts, start ≤ p.time.toNat + step.toNat) {k dp : Nat} {t : BitVec 32}
    {h : Objects α} {rest data : List (Option Nat)} (now : t.toNat = start + step.toNat * k)
    (here : t ≤ endTime) (sweeping : Sweeping base start step.toNat pts k h dp rest data) :
    ∃ h' dp' rest' data', (∀ fuel, fillLoop step endTime (fuel + 1) t dp h rest data =
        fillLoop step endTime fuel (t + step) dp' h' rest' data') ∧
      Sweeping base start step.toNat pts (k + 1) h' dp' rest' data' := by
  have own : some dp ∉ rest := fun mem =>
    absurd sweeping.fresh (not_le.mpr (sweeping.reads dp mem))
  have loaded : h.load rest = pts.filter fun p => k ≤ p.bin start step.toNat := by
    rw [← sweeping.left]
    exact Heap.load_congr fun i mem => sweeping.kept i (sweeping.reads i mem)
  have current : ∀ p ∈ h.load rest, ¬ p.time < t - step := by
    intro p mem
    rw [loaded, List.mem_filter, decide_eq_true_iff] at mem
    exact not_old pos le now (recent p mem.1) mem.2
  obtain ⟨later, result, left, part⟩ := mergeUpTo_eq own current
  obtain ⟨taken, dropped⟩ := sweep_bin pos sorted now
  rw [loaded, taken, RawDataPoint.foldl_merge_solid, sweeping.blank] at result
  rw [loaded, dropped, Heap.load_congr fun i mem =>
    sweeping.kept i (sweeping.reads i (part mem))] at left
  have at_grid : t = gridTime start step.toNat k := by
    rw [gridTime, ← now, BitVec.ofNat_toNat, BitVec.setWidth_eq]
  by_cases none : solidIn start step.toNat pts k = []
  · refine ⟨h, dp, later, data, fun fuel => ?_, sweeping.skip none part left⟩
    rw [solidIn] at none
    rw [none, List.foldl_nil, ← sweeping.blank, h.write_self] at result
    have null : (h.cell dp).isNull = true := by
      rw [sweeping.blank]
      rfl
    rw [fillLoop, if_pos here, result]
    simp [null]
  · have some : slotPoint start step.toNat pts k = some _ := if_neg none
    refine ⟨_, _, later, _, fun fuel => ?_, sweeping.emit some part left⟩
    have solid := isNull_foldl_solidIn none (.null (seed start step.toNat pts k))
    rw [solidIn] at solid
    rw [fillLoop, if_pos here, result]
    simp only [Heap.write_cell, solid, Bool.false_eq_true, if_false, Heap.write_write, at_grid]
    rfl

theorem fillLoop_run (pos : 0 < step.toNat) (le : step.toNat ≤ start)
    (sorted : pts.Pairwise fun p q => p.time.toNat ≤ q.time.toNat)
    (recent : ∀ p ∈ pts, start ≤ p.time.toNat + step.toNat) {n : Nat}
    (last : start + step.toNat * n ≤ endTime.toNat)
    (past : endTime.toNat < start + step.toNat * (n + 1))
    (fits : start + step.toNat * (n + 1) < 2 ^ 32) {slots k dp : Nat} {t : BitVec 32}
    {h : Objects α} {rest data : List (Option Nat)} (until_end : k + slots = n + 1)
    (now : t.toNat = start + step.toNat * k)
    (sweeping : Sweeping base start step.toNat pts k h dp rest data) :
    ∃ h' dp' rest' data',
      (∀ fuel, slots < fuel → fillLoop step endTime fuel t dp h rest data = some (h', data')) ∧
      Sweeping base start step.toNat pts (n + 1) h' dp' rest' data' := by
  induction slots generalizing k dp t h rest data with
  | zero =>
    obtain rfl : k = n + 1 := by omega
    have past : ¬ t ≤ endTime := BitVec.not_le.mpr (show endTime.toNat < t.toNat by omega)
    refine ⟨h, dp, rest, data, ?_, sweeping⟩
    rintro (_ | fuel) enough
    · omega
    · rw [fillLoop, if_neg past]
  | succ slots ih =>
    have reached := Nat.mul_le_mul_left step.toNat (show k ≤ n by omega)
    have here : t ≤ endTime := show t.toNat ≤ endTime.toNat by omega
    have next := toNat_next now (show k ≤ n by omega) fits
    obtain ⟨_, _, _, _, pass, sweeping⟩ := fillLoop_pass pos le sorted recent now here sweeping
    obtain ⟨h', dp', rest', data', run, sweeping⟩ := ih (by omega) next sweeping
    refine ⟨h', dp', rest', data', ?_, sweeping⟩
    rintro (_ | fuel) enough
    · omega
    · rw [pass, run fuel (by omega)]

/-- Without points the loop goes to the end of the grid, wherever it starts. -/
theorem fillLoop_empty (pos : 0 < step.toNat) (fits : endTime.toNat + step.toNat < 2 ^ 32)
    {fuel dp : Nat} {t : BitVec 32} {h : Objects α} {data : List (Option Nat)}
    (enough : endTime.toNat + 1 - t.toNat < fuel) (blank : (h.cell dp).isNull = true) :
    fillLoop step endTime fuel t dp h [] data = some (h, data) := by
  induction fuel generalizing t with
  | zero => omega
  | succ fuel ih =>
    by_cases here : t ≤ endTime
    · have le : t.toNat ≤ endTime.toNat := here
      have next := BitVec.toNat_add_of_lt (x := t) (y := step) (by omega)
      rw [fillLoop, if_pos here]
      simp only [mergeUpTo, blank, if_true]
      exact ih (by omega)
    · rw [fillLoop, if_neg here]

end Sweep

/-! ### What is resampled -/

/-- What the caller has to see to: objects with a time in the interval of the item, on a grid
that fits `uint32` and does not start at zero. -/
structure Resampleable (h : Objects α) (r : RenderItem (Option Nat))
    (step : BitVec 32) : Prop where
  objects : ∀ p ∈ r.data, ∃ i < h.next, p = some i
  counted : ∀ p ∈ h.load r.data, 0 ≤ p.count.toInt
  timed : ∀ p ∈ h.load r.data,
    r.realStart.toNat ≤ p.time.toNat ∧ p.time.toNat ≤ r.realEnd.toNat
  end_pos : 1 ≤ r.realEnd.toNat
  step_pos : 1 ≤ step.toNat
  step_le : step.toNat ≤ roundUp step.toNat r.realStart.toNat
  fits : roundUp step.toNat r.realEnd.toNat + step.toNat < 2 ^ 32

section Result

variable {sort} {h : Objects α} {r : RenderItem (Option Nat)} {step : BitVec 32}

/-- The number of steps from the start to the end of the grid. -/
def resampleSteps (r : RenderItem (Option Nat)) (step : BitVec 32) : Nat :=
  (roundUp step.toNat r.realEnd.toNat - roundUp step.toNat r.realStart.toNat) / step.toNat

omit [AddCommSemigroup α] [LinearOrder α] in
theorem Resampleable.nonNil (ok : Resampleable h r step) : ∀ p ∈ r.data, p ≠ none := by
  intro p mem
  obtain ⟨i, -, rfl⟩ := ok.objects p mem
  exact Option.some_ne_none i

omit [AddCommSemigroup α] [LinearOrder α] in
/-- With points the grid starts at the first multiple of the step, and they are all recent. -/
theorem grid_of_mem (ok : Resampleable h r step) {q : RawDataPoint Int64 α}
    (mem : q ∈ h.load r.data) :
    (gridStart r.realStart step).toNat = roundUp step.toNat r.realStart.toNat ∧
    (gridEnd r.realEnd step).toNat = roundUp step.toNat r.realEnd.toNat ∧
    roundUp step.toNat r.realStart.toNat + step.toNat * resampleSteps r step =
      roundUp step.toNat r.realEnd.toNat ∧
    ∀ p ∈ h.load r.data,
      roundUp step.toNat r.realStart.toNat ≤ p.time.toNat + step.toNat ∧
      p.bin (roundUp step.toNat r.realStart.toNat) step.toNat ≤ resampleSteps r step := by
  have pos := ok.step_pos
  have fits := ok.fits
  obtain ⟨low, high⟩ := ok.timed q mem
  have below := roundUp_mono pos (low.trans high)
  have whole : roundUp step.toNat r.realStart.toNat + step.toNat * resampleSteps r step =
      roundUp step.toNat r.realEnd.toNat :=
    add_mul_div_of_dvd below (dvd_roundUp _ _) (dvd_roundUp _ _)
  refine ⟨gridStart_toNat pos (by omega), gridEnd_toNat pos ok.end_pos (by omega), whole, ?_⟩
  intro p mem
  obtain ⟨low, high⟩ := ok.timed p mem
  have := roundUp_lt pos r.realStart.toNat
  refine ⟨by omega, ?_⟩
  rw [RawDataPoint.bin, slot_le_iff pos, whole]
  exact high.trans (le_roundUp pos _)

theorem fillLoop_eq (sorts : SortsPointers sort) (ok : Resampleable h r step) :
    ∃ h' data, (∀ fuel, 2 ^ 32 ≤ fuel → fillLoop step (gridEnd r.realEnd step) fuel
        (gridStart r.realStart step) h.next (h.alloc (.null (gridStart r.realStart step)))
        (sort h r.data) [] = some (h', data)) ∧
      (∀ i < h.next, h'.cell i = h.cell i) ∧ (∀ p ∈ data, p ≠ none) ∧
      h'.load data = (List.range (resampleSteps r step + 1)).filterMap
        (slotPoint (roundUp step.toNat r.realStart.toNat) step.toNat (h.load (sort h r.data))) := by
  have pos := ok.step_pos
  have fits := ok.fits
  have perm := sorts.perm h r.data
  have kept {i : Nat} (lt : i < h.next) (p : RawDataPoint Int64 α) : (h.alloc p).cell i =
      h.cell i :=
    h.alloc_cell_of_lt lt p
  rcases (h.load r.data).eq_nil_or_concat with empty | ⟨init, q, concat⟩
  · have final : (gridEnd r.realEnd step).toNat = roundUp step.toNat r.realEnd.toNat :=
      gridEnd_toNat pos ok.end_pos (by omega)
    have none : sort h r.data = [] := by
      rcases data : r.data with _ | ⟨p, rest⟩
      · rw [data] at perm
        exact perm.eq_nil
      · obtain ⟨i, -, rfl⟩ := ok.objects p (by rw [data]; exact List.mem_cons_self)
        rw [data] at empty
        cases empty
    refine ⟨h.alloc (.null (gridStart r.realStart step)), [], ?_, fun i lt => kept lt _, by simp,
      ?_⟩
    · intro fuel enough
      rw [none]
      refine fillLoop_empty pos (by omega) (by omega) ?_
      rw [h.alloc_cell]
      rfl
    · rw [none]
      exact (slots_nil _).symm
  · obtain ⟨first, final, whole, placed⟩ := grid_of_mem ok (show q ∈ h.load r.data by simp [concat])
    have points := h.load_perm perm
    have sweeping : Sweeping h (roundUp step.toNat r.realStart.toNat) step.toNat
        (h.load (sort h r.data)) 0 (h.alloc (.null (gridStart r.realStart step))) h.next
        (sort h r.data) [] := by
      refine ⟨fun i lt => kept lt _, le_rfl, Nat.lt_succ_self _, ?_, ?_, by simp, by simp, rfl⟩
      · rw [h.alloc_cell, seed, gridTime, Nat.mul_zero, Nat.add_zero, ← first, BitVec.ofNat_toNat,
          BitVec.setWidth_eq]
      · intro i mem
        obtain ⟨j, lt, same⟩ := ok.objects _ (perm.subset mem)
        exact (Option.some.inj same) ▸ lt
    obtain ⟨h', dp, rest, data, run, swept⟩ := fillLoop_run pos ok.step_le
      (sorts.sorted h r.data ok.nonNil) (fun p mem => (placed p (points.subset mem)).1)
      (by rw [whole, final]) (by rw [Nat.mul_add, final]; omega) (by rw [Nat.mul_add]; omega)
      (Nat.zero_add _) first sweeping
    refine ⟨h', data, ?_, swept.kept, ?_, swept.emitted⟩
    · intro fuel enough
      apply run
      have := Nat.mul_le_mul_right (resampleSteps r step) pos
      omega
    · intro p mem
      obtain ⟨i, -, rfl⟩ := swept.wrote p mem
      exact Option.some_ne_none i

theorem resample_eq (sorts : SortsPointers sort) (ok : Resampleable h r step) :
    ∃ h' out, (∀ fuel, 2 ^ 32 ≤ fuel → resample sort fuel h r step = some (.ok (h', out))) ∧
      (∀ i < h.next, h'.cell i = h.cell i) ∧ (∀ p ∈ out.data, p ≠ none) ∧
      h'.load out.data = (List.range (resampleSteps r step + 1)).filterMap
        (slotPoint (roundUp step.toNat r.realStart.toNat) step.toNat (h.load (sort h r.data))) := by
  have nonzero := step_ne_zero ok.step_pos
  obtain ⟨h', data, run, kept, objects, emitted⟩ := fillLoop_eq sorts ok
  refine ⟨h', ⟨gridStart r.realStart step, gridEnd r.realEnd step, gridStart r.realStart step,
    gridEnd r.realEnd step, step, data⟩, fun fuel enough => ?_, kept, objects, emitted⟩
  rw [resample, if_neg nonzero]
  dsimp only
  rw [run fuel enough]
  rfl

end Result

end Metrics
