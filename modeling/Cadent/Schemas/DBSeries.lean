import Cadent.Schemas.Gridding
import Cadent.Schemas.MergeFold
import Cadent.Series.TimeSeries
import Mathlib.Data.List.Dedup

/-!
# Stored series as a render item

A `DBSeriesList` is decoded row by row and the points within bounds become the data of a
render item. A row stands for what its iterator does: it cannot be opened, or it yields
values. The pooled variant takes its points from a pool of used ones, and merges a point
into the one at `idx` when both are of one second. What is in a point from the pool is
arbitrary. No point is in the pool twice, so the points taken are apart from each other.
-/

namespace Metrics

open TimeSeries

variable {α : Type}

/-- What `Values()` returns. -/
structure IterValues (α : Type) where
  t : BitVec 64
  mi : Option α
  mx : Option α
  ls : Option α
  su : Option α
  ct : Int64
  deriving DecidableEq, Repr

/-- `uint32(time.Unix(0, t).Unix())`. -/
def unixSecond (t : BitVec 64) : BitVec 32 := BitVec.ofInt 32 (t.toInt / 1000000000)

def IterValues.point (v : IterValues α) : RawDataPoint Int64 α :=
  { count := v.ct, min := v.mi, max := v.mx, last := v.ls, sum := v.su, time := unixSecond v.t }

/-- A stored series, by what its iterator does. -/
abbrev Decoding (α : Type) := Except SeriesError (List (IterValues α))

/-- The loop over the rows; a row that cannot be opened ends it. -/
def overRows {σ : Type} (visit : σ → IterValues α → σ) :
    σ → List (Decoding α) → Except SeriesError σ
  | s, [] => .ok s
  | s, row :: rows => do
    let vs ← row
    overRows visit (vs.foldl visit s) rows

variable (sort : Points α → Points α)

/-- The end of a conversion: no times are set for no data. -/
def sortedItem (data : Points α) : RawRenderItem Int64 α :=
  if 0 < data.length then
    let sorted := sort data
    let first := (sorted.head?.map (·.time)).getD 0#32
    let last := (sorted.getLast?.map (·.time)).getD 0#32
    { realStart := first, start := first, «end» := last, realEnd := last, step := 0#32,
      data := sorted }
  else ⟨0#32, 0#32, 0#32, 0#32, 0#32, []⟩

def toRawRenderItemBounds (mb : List (Decoding α)) (sTime eTime : BitVec 64) :
    Except SeriesError (RawRenderItem Int64 α) := do
  let data ← overRows (fun data v =>
    if v.t.toInt < sTime.toInt ∨ eTime.toInt < v.t.toInt then data else data ++ [v.point]) [] mb
  return sortedItem sort data

section Pooled

variable [AddCommSemigroup α] [LinearOrder α]

/-- The variables of the pooled loop, and how many points were taken from the pool. -/
structure Pooling (α : Type) where
  lastT : BitVec 32
  idx : Int
  data : Points α
  taken : Nat

/-- The contents of the `n`-th point that the pool gives out. -/
abbrev Pool (α : Type) := Nat → RawDataPoint Int64 α

def Pooling.add (pool : Pool α) (s : Pooling α) (v : IterValues α) : Pooling α :=
  let pt := { pool s.taken with
    count := v.ct, sum := v.su, max := v.mx, min := v.mi, last := v.ls, time := unixSecond v.t }
  if s.lastT = pt.time ∧ -1 < s.idx then
    { s with data := s.data.modify s.idx.toNat (·.merge pt), taken := s.taken + 1 }
  else ⟨pt.time, s.idx + 1, s.data ++ [pt], s.taken + 1⟩

def toRawRenderItemBoundsPool (pool : Pool α) (mb : List (Decoding α)) (sTime eTime : BitVec 64) :
    Except SeriesError (RawRenderItem Int64 α) := do
  let s ← overRows (fun (s : Pooling α) v =>
    if v.t.toInt ≤ 0 ∨ v.t.toInt < sTime.toInt ∨ eTime.toInt < v.t.toInt then s
    else s.add pool v) ⟨0#32, -1, [], 0⟩ mb
  return sortedItem sort s.data

end Pooled

/-! ### The points within the bounds -/

/-- All values of the rows that can be opened. -/
def decoded (mb : List (Decoding α)) : List (IterValues α) :=
  mb.flatMap fun row => row.toOption.getD []

def withinBounds (sTime eTime : BitVec 64) (vs : List (IterValues α)) : List (IterValues α) :=
  vs.filter fun v => sTime.toInt ≤ v.t.toInt ∧ v.t.toInt ≤ eTime.toInt

/-- The first row that cannot be opened ends the loop, whatever is done with the values. -/
theorem overRows_error {before rest : List (Decoding α)} {e : SeriesError}
    (opened : ∀ row ∈ before, row.isOk) {σ : Type} (visit : σ → IterValues α → σ) (s : σ) :
    overRows visit s (before ++ .error e :: rest) = .error e := by
  induction before generalizing s with
  | nil => rfl
  | cons row before ih =>
    obtain ⟨first, others⟩ := List.forall_mem_cons.mp opened
    cases row with
    | error e => cases first
    | ok vs => exact ih others (vs.foldl visit s)

/-- Where all rows can be opened, all values are visited. -/
theorem overRows_ok {mb : List (Decoding α)} (opened : ∀ row ∈ mb, row.isOk) {σ : Type}
    (visit : σ → IterValues α → σ) (s : σ) :
    overRows visit s mb = .ok ((decoded mb).foldl visit s) := by
  induction mb generalizing s with
  | nil => rfl
  | cons row mb ih =>
    obtain ⟨first, others⟩ := List.forall_mem_cons.mp opened
    cases row with
    | error e => cases first
    | ok vs =>
      have all : decoded (.ok vs :: mb) = vs ++ decoded mb := rfl
      rw [all, List.foldl_append]
      exact ih others (vs.foldl visit s)

theorem mem_decoded {mb : List (Decoding α)} {v : IterValues α} (mem : v ∈ decoded mb) :
    ∃ vs, .ok vs ∈ mb ∧ v ∈ vs := by
  obtain ⟨row, listed, yielded⟩ := List.mem_flatMap.mp mem
  cases row with
  | error e => cases yielded
  | ok vs => exact ⟨vs, listed, yielded⟩

/-- Passing over what is out of bounds is the same as not having it. -/
theorem foldl_skip {σ : Type} {skip : IterValues α → Prop} [DecidablePred skip]
    {visit : σ → IterValues α → σ} {sTime eTime : BitVec 64} {vs : List (IterValues α)}
    (skips : ∀ v ∈ vs, skip v ↔ ¬ (sTime.toInt ≤ v.t.toInt ∧ v.t.toInt ≤ eTime.toInt)) (s : σ) :
    vs.foldl (fun s v => if skip v then s else visit s v) s =
      (withinBounds sTime eTime vs).foldl visit s := by
  rw [withinBounds, List.foldl_filter]
  refine List.foldl_ext _ _ _ fun s v mem => ?_
  by_cases kept : sTime.toInt ≤ v.t.toInt ∧ v.t.toInt ≤ eTime.toInt
  · rw [if_neg fun out => (skips v mem).mp out kept, if_pos (decide_eq_true kept)]
  · rw [if_pos ((skips v mem).mpr kept), if_neg (by simpa using kept)]

/-! ### Points of one second -/

section Seconds

variable [AddCommSemigroup α] [LinearOrder α]

/-- All points of one second, merged. -/
def bySecond (data : Points α) : Points α :=
  (data.map (·.time)).dedup.map fun t =>
    (data.filter fun p => p.time = t).foldl RawDataPoint.merge (.null 0#32)

/-- What the points of one second come to. -/
def totalsAt (data : Points α) (t : BitVec 32) : Totals α :=
  ((data.filter fun p => p.time = t).map RawDataPoint.totals).sum

theorem totalsAt_append (xs ys : Points α) (t : BitVec 32) :
    totalsAt (xs ++ ys) t = totalsAt xs t + totalsAt ys t := by
  rw [totalsAt, List.filter_append, List.map_append, List.sum_append]
  rfl

theorem totalsAt_singleton (p : RawDataPoint Int64 α) (t : BitVec 32) :
    totalsAt [p] t = if p.time = t then p.totals else 0 := by
  by_cases same : p.time = t
  · simp [totalsAt, same]
  · simp [totalsAt, same]

theorem totalsAt_perm {xs ys : Points α} (perm : xs.Perm ys) (t : BitVec 32) :
    totalsAt xs t = totalsAt ys t := ((perm.filter _).map _).sum_eq

theorem totals_bySecond {data : Points α} (solid : ∀ p ∈ data, p.Solid)
    (fits : Tally.InRange Int64 (totalCount data)) :
    (bySecond data).map RawDataPoint.totals = (data.map (·.time)).dedup.map (totalsAt data) := by
  rw [bySecond, List.map_map]
  refine List.map_congr_left fun t _ => ?_
  have none : Tally.value (RawDataPoint.null 0#32 : RawDataPoint Int64 α).count = 0 :=
    Tally.value_zero
  have part := inRange_of_sublist (List.filter_sublist (p := fun p => p.time = t))
    (fun p mem => (solid p mem).counted) fits
  rw [Function.comp_apply, RawDataPoint.totals_foldl_merge none.ge
    (fun p mem => solid p (List.mem_of_mem_filter mem)) (by rwa [none, Int.zero_add]),
    RawDataPoint.totals_null, zero_add]
  rfl

/-- Sorted lists that agree second by second agree when the points of one second are merged. -/
theorem bySecond_congr {xs ys : Points α} (solidX : ∀ p ∈ xs, p.Solid) (solidY : ∀ p ∈ ys, p.Solid)
    (fitsX : Tally.InRange Int64 (totalCount xs)) (fitsY : Tally.InRange Int64 (totalCount ys))
    (sortedX : xs.Pairwise fun p q => p.time.toNat ≤ q.time.toNat)
    (sortedY : ys.Pairwise fun p q => p.time.toNat ≤ q.time.toNat)
    (times : ∀ t, t ∈ xs.map (·.time) ↔ t ∈ ys.map (·.time))
    (agree : ∀ t, totalsAt xs t = totalsAt ys t) :
    (bySecond xs).map RawDataPoint.totals = (bySecond ys).map RawDataPoint.totals := by
  have ordered {l : Points α}
      (sorted : l.Pairwise fun p q => p.time.toNat ≤ q.time.toNat) :
      (l.map (·.time)).dedup.Pairwise fun t u => t.toNat ≤ u.toNat :=
    (List.pairwise_map.mpr sorted).sublist (List.dedup_sublist _)
  have perm : (xs.map (·.time)).dedup.Perm (ys.map (·.time)).dedup :=
    (List.perm_ext_iff_of_nodup (List.nodup_dedup _) (List.nodup_dedup _)).mpr fun t => by
      rw [List.mem_dedup, List.mem_dedup, times]
  have same := perm.eq_of_pairwise (fun t u _ _ le ge => BitVec.eq_of_toNat_eq (le_antisymm le ge))
    (ordered sortedX) (ordered sortedY)
  rw [totals_bySecond solidX fitsX, totals_bySecond solidY fitsY, same]
  exact List.map_congr_left fun t _ => agree t

end Seconds

/-! ### The plain conversion -/

theorem foldl_append_point (vs : List (IterValues α)) (data : Points α) :
    vs.foldl (fun data v => data ++ [v.point]) data = data ++ vs.map IterValues.point := by
  induction vs generalizing data with
  | nil => simp
  | cons v vs ih => simp [ih]

theorem toRawRenderItemBounds_eq {mb : List (Decoding α)} (sTime eTime : BitVec 64)
    (opened : ∀ row ∈ mb, row.isOk) :
    toRawRenderItemBounds sort mb sTime eTime =
      .ok (sortedItem sort ((withinBounds sTime eTime (decoded mb)).map IterValues.point)) := by
  rw [toRawRenderItemBounds, overRows_ok opened, foldl_skip, foldl_append_point]
  · rfl
  · intro v _
    omega

variable {sort}

/-- A result in order, with its times, that counts what the points count. -/
structure Listed (pts : Points α) (r : RawRenderItem Int64 α) : Prop where
  ordered : r.data.Pairwise fun p q => p.time.toNat ≤ q.time.toNat
  first : r.data ≠ [] → r.data.head?.map (·.time) = some r.realStart
  last : r.data ≠ [] → r.data.getLast?.map (·.time) = some r.realEnd
  count : totalCount r.data = totalCount pts

theorem sortedItem_data (sorts : SortsByTime sort) (data : Points α) :
    (sortedItem sort data).data = sort data := by
  rw [sortedItem]
  split_ifs with some
  · rfl
  · obtain rfl := List.length_eq_zero_iff.mp (Nat.eq_zero_of_not_pos some)
    exact ((sorts.perm []).eq_nil).symm

theorem listed_sortedItem (sorts : SortsByTime sort) (data : Points α) :
    Listed data (sortedItem sort data) := by
  have same := sortedItem_data sorts data
  have perm := sorts.perm data
  have times : (sortedItem sort data).data ≠ [] →
      (sortedItem sort data).realStart = ((sort data).head?.map (·.time)).getD 0#32 ∧
        (sortedItem sort data).realEnd = ((sort data).getLast?.map (·.time)).getD 0#32 := by
    intro some
    have pos : 0 < data.length := by
      rw [same] at some
      exact perm.length_eq ▸ List.length_pos_of_ne_nil some
    rw [sortedItem, if_pos pos]
    exact ⟨rfl, rfl⟩
  constructor
  · rw [same]
    exact sorts.sorted data
  · intro some
    rw [(times some).1, same]
    rw [same] at some
    rw [List.head?_eq_some_head some]
    rfl
  · intro some
    rw [(times some).2, same]
    rw [same] at some
    rw [List.getLast?_eq_some_getLast some]
    rfl
  · rw [same, totalCount_perm perm]

/-! ### The pooled loop -/

section Loop

variable [AddCommSemigroup α] [LinearOrder α]

/-- The data of the pooled loop and the points it was given agree second by second. -/
structure Pooled (given : Points α) (s : Pooling α) : Prop where
  idx : s.idx = (s.data.length : Int) - 1
  lastT : ∀ p ∈ s.data.getLast?, p.time = s.lastT
  solid : ∀ p ∈ s.data, p.Solid
  times : ∀ t, t ∈ s.data.map (·.time) ↔ t ∈ given.map (·.time)
  agree : ∀ t, totalsAt s.data t = totalsAt given t
  whole : (s.data.map RawDataPoint.totals).sum = (given.map RawDataPoint.totals).sum

theorem add_cases (pool : Pool α) {given : Points α} {s : Pooling α}
    (inv : Pooled given s) (v : IterValues α) :
    (∃ before p, s.data = before ++ [p] ∧ p.time = v.point.time ∧
        s.add pool v = { s with data := before ++ [p.merge v.point], taken := s.taken + 1 }) ∨
      s.add pool v = ⟨v.point.time, s.idx + 1, s.data ++ [v.point], s.taken + 1⟩ := by
  by_cases same : s.lastT = v.point.time ∧ -1 < s.idx
  · rcases List.eq_nil_or_concat s.data with empty | ⟨before, p, data⟩
    · have := inv.idx
      rw [empty, List.length_nil] at this
      omega
    · have time : p.time = s.lastT := inv.lastT p (by rw [data]; simp)
      have idx : s.idx.toNat = before.length := by
        have := inv.idx
        rw [data, List.length_concat] at this
        omega
      rw [List.concat_eq_append] at data
      refine .inl ⟨before, p, data, time.trans same.1, ?_⟩
      rw [Pooling.add]
      refine (if_pos same).trans ?_
      rw [idx, data, List.modify_eq_set_getElem?]
      simp [IterValues.point]
  · exact .inr (if_neg same)

theorem Pooled.count {given : Points α} {s : Pooling α}
    (inv : Pooled given s) : totalCount s.data = totalCount given := by
  rw [totalCount_eq, inv.whole, totalCount_eq]

/-- What a second comes to is in range if the whole is. -/
theorem Pooled.inRange {given before : Points α} {p q : RawDataPoint Int64 α}
    {s : Pooling α} (inv : Pooled given s) (data : s.data = before ++ [p]) (solid : q.Solid)
    (fits : Tally.InRange Int64 (totalCount (given ++ [q]))) :
    Tally.InRange Int64 (Tally.value p.count + Tally.value q.count) := by
  have counted := fun x mem => (inv.solid x mem).counted
  have whole := inv.count
  rw [data] at counted
  rw [data, totalCount_append, totalCount_cons, totalCount_nil] at whole
  rw [totalCount_append, totalCount_cons, totalCount_nil] at fits
  have first := totalCount_nonneg fun x mem => counted x (List.mem_append_left _ mem)
  have last := counted p (by simp)
  have next := solid.counted
  exact Tally.inRange_of_le (by omega) (by omega) fits

/-- A point of the second of the last one is merged into it. -/
theorem Pooled.merged {given before : Points α} {p q : RawDataPoint Int64 α} {s : Pooling α}
    (inv : Pooled given s) (data : s.data = before ++ [p]) (time : p.time = q.time)
    (solid : q.Solid) (fits : Tally.InRange Int64 (totalCount (given ++ [q]))) (taken : Nat) :
    Pooled (given ++ [q]) { s with data := before ++ [p.merge q], taken := taken } := by
  have solidP : p.Solid := inv.solid p (by rw [data]; simp)
  have kept : (p.merge q).time = p.time := by
    rw [RawDataPoint.merge]
    split_ifs <;> simp [time]
  have room := inv.inRange data solid fits
  have sum := RawDataPoint.totals_merge solidP.counted solid room
  constructor
  · rw [inv.idx, data]
    simp
  · intro x mem
    rw [List.getLast?_concat] at mem
    cases mem
    exact kept.trans (inv.lastT p (by rw [data]; simp))
  · intro x mem
    rcases List.mem_append.mp mem with mem | mem
    · exact inv.solid x (by rw [data]; exact List.mem_append_left _ mem)
    · cases List.mem_singleton.mp mem
      refine ⟨?_, ?_⟩
      · rw [RawDataPoint.isNull_merge, solid.notNull, Bool.and_false]
      · rw [RawDataPoint.value_count_merge solidP.counted solid room]
        exact Int.add_nonneg solidP.counted solid.counted
  · intro t
    have := inv.times t
    rw [data] at this
    simp only [List.map_append, List.mem_append, List.map_cons, List.map_nil,
      List.mem_singleton, kept, time] at this ⊢
    tauto
  · intro t
    have := inv.agree t
    rw [data, totalsAt_append, totalsAt_singleton] at this
    rw [totalsAt_append, totalsAt_append, ← this, totalsAt_singleton, totalsAt_singleton, kept,
      time, add_assoc]
    split_ifs
    · rw [sum]
    · rw [zero_add]
  · have := inv.whole
    rw [data] at this
    simp only [List.map_append, List.sum_append, List.map_cons, List.map_nil,
      List.sum_singleton, sum] at this ⊢
    rw [← this, add_assoc]

theorem Pooled.appended {given : Points α} {q : RawDataPoint Int64 α} {s : Pooling α}
    (inv : Pooled given s) (solid : q.Solid) (taken : Nat) :
    Pooled (given ++ [q]) ⟨q.time, s.idx + 1, s.data ++ [q], taken⟩ := by
  constructor
  · rw [inv.idx]
    simp
  · intro x mem
    rw [List.getLast?_concat] at mem
    cases mem
    rfl
  · intro x mem
    rcases List.mem_append.mp mem with mem | mem
    · exact inv.solid x mem
    · cases List.mem_singleton.mp mem
      exact solid
  · intro t
    rw [List.map_append, List.map_append, List.mem_append, List.mem_append, inv.times]
  · intro t
    rw [totalsAt_append, totalsAt_append, inv.agree]
  · rw [List.map_append, List.sum_append, inv.whole, List.map_append, List.sum_append]

theorem pooled_add (pool : Pool α) {given : Points α} {s : Pooling α}
    (inv : Pooled given s) {v : IterValues α} (solid : v.point.Solid)
    (fits : Tally.InRange Int64 (totalCount (given ++ [v.point]))) :
    Pooled (given ++ [v.point]) (s.add pool v) := by
  rcases add_cases pool inv v with ⟨before, p, data, time, added⟩ | added
  · rw [added]
    exact inv.merged data time solid fits _
  · rw [added]
    exact inv.appended solid _

theorem pooled_foldl (pool : Pool α) {vs : List (IterValues α)} (solid : ∀ v ∈ vs, v.point.Solid)
    {given : Points α} {s : Pooling α} (solidG : ∀ p ∈ given, p.Solid) (inv : Pooled given s)
    (fits : Tally.InRange Int64 (totalCount (given ++ vs.map IterValues.point))) :
    Pooled (given ++ vs.map IterValues.point) (vs.foldl (Pooling.add pool) s) := by
  induction vs generalizing given s with
  | nil => rwa [List.map_nil, List.append_nil]
  | cons v vs ih =>
    obtain ⟨first, rest⟩ := List.forall_mem_cons.mp solid
    have split : given ++ (v :: vs).map IterValues.point =
        (given ++ [v.point]) ++ vs.map IterValues.point := by simp
    have solidG' : ∀ p ∈ given ++ [v.point], p.Solid := by
      intro p mem
      rcases List.mem_append.mp mem with mem | mem
      · exact solidG p mem
      · cases List.mem_singleton.mp mem
        exact first
    rw [split] at fits ⊢
    have later := totalCount_nonneg fun p (mem : p ∈ vs.map IterValues.point) => by
      obtain ⟨w, listed, rfl⟩ := List.mem_map.mp mem
      exact (rest w listed).counted
    have so_far := totalCount_nonneg fun p mem => (solidG' p mem).counted
    refine ih rest solidG' (pooled_add pool inv first ?_) fits
    rw [totalCount_append] at fits
    exact Tally.inRange_of_le so_far (by omega) fits

/-! ### Both conversions -/

variable (sort) in
theorem toRawRenderItemBoundsPool_eq (pool : Pool α) {mb : List (Decoding α)}
    (sTime eTime : BitVec 64) (opened : ∀ row ∈ mb, row.isOk)
    (proper : ∀ v ∈ decoded mb, 0 < v.t.toInt ∧ v.point.Solid)
    (fits : Tally.InRange Int64
      (totalCount ((withinBounds sTime eTime (decoded mb)).map IterValues.point))) :
    ∃ s, Pooled ((withinBounds sTime eTime (decoded mb)).map IterValues.point) s ∧
      toRawRenderItemBoundsPool sort pool mb sTime eTime = .ok (sortedItem sort s.data) := by
  have start : Pooled [] (⟨0#32, -1, [], 0⟩ : Pooling α) :=
    ⟨rfl, nofun, nofun, fun t => .rfl, fun t => rfl, rfl⟩
  refine ⟨_, pooled_foldl pool (fun v mem => (proper v (List.mem_of_mem_filter mem)).2)
    (fun p mem => absurd mem List.not_mem_nil) start fits, ?_⟩
  rw [toRawRenderItemBoundsPool, overRows_ok opened, foldl_skip]
  · rfl
  · intro v mem
    have := (proper v mem).1
    omega

/-- The first row that cannot be opened fails both conversions. Where all can be, the points of
the pooled result and of the plain one are the same when those of one second are merged, and both
count what was decoded within the bounds. -/
theorem toRawRenderItemBoundsPool_agrees (sorts : SortsByTime sort) (pool : Pool α)
    (mb : List (Decoding α)) (sTime eTime : BitVec 64)
    (proper : ∀ vs, .ok vs ∈ mb → ∀ v ∈ vs, 0 < v.t.toInt ∧ v.point.Solid)
    (few : totalCount ((withinBounds sTime eTime (decoded mb)).map IterValues.point) < 2 ^ 63) :
    (∀ before e rest, mb = before ++ .error e :: rest → (∀ row ∈ before, row.isOk) →
        toRawRenderItemBounds sort mb sTime eTime = .error e ∧
        toRawRenderItemBoundsPool sort pool mb sTime eTime = .error e) ∧
      ((∀ row ∈ mb, row.isOk) →
        ∃ plain pooled, toRawRenderItemBounds sort mb sTime eTime = .ok plain ∧
          toRawRenderItemBoundsPool sort pool mb sTime eTime = .ok pooled ∧
          (bySecond pooled.data).map RawDataPoint.totals =
            (bySecond plain.data).map RawDataPoint.totals ∧
          Listed ((withinBounds sTime eTime (decoded mb)).map IterValues.point) plain ∧
          Listed ((withinBounds sTime eTime (decoded mb)).map IterValues.point) pooled) := by
  constructor
  · rintro before e rest rfl opened
    constructor
    · rw [toRawRenderItemBounds, overRows_error opened]
      rfl
    · rw [toRawRenderItemBoundsPool, overRows_error opened]
      rfl
  intro opened
  have proper : ∀ v ∈ decoded mb, 0 < v.t.toInt ∧ v.point.Solid := by
    intro v mem
    obtain ⟨vs, listed, mem⟩ := mem_decoded mem
    exact proper vs listed v mem
  have solid : ∀ p ∈ (withinBounds sTime eTime (decoded mb)).map IterValues.point, p.Solid := by
    intro p mem
    obtain ⟨v, within, rfl⟩ := List.mem_map.mp mem
    exact (proper v (List.mem_of_mem_filter within)).2
  have fits : Tally.InRange Int64
      (totalCount ((withinBounds sTime eTime (decoded mb)).map IterValues.point)) := by
    have := totalCount_nonneg fun p mem => (solid p mem).counted
    exact ⟨by omega, few⟩
  obtain ⟨s, agree, pooled⟩ := toRawRenderItemBoundsPool_eq sort pool sTime eTime opened proper fits
  have plain := toRawRenderItemBounds_eq sort sTime eTime opened
  generalize (withinBounds sTime eTime (decoded mb)).map IterValues.point = pts
    at agree plain solid fits
  have permPlain := sorts.perm pts
  have permPooled := sorts.perm s.data
  refine ⟨_, _, plain, pooled, ?_, listed_sortedItem sorts _, ?_⟩
  · rw [sortedItem_data sorts, sortedItem_data sorts]
    refine bySecond_congr ?_ ?_ ?_ ?_ (sorts.sorted _) (sorts.sorted _) ?_ ?_
    · intro p mem
      exact agree.solid p (permPooled.subset mem)
    · intro p mem
      exact solid p (permPlain.subset mem)
    · rwa [totalCount_perm permPooled, agree.count]
    · rwa [totalCount_perm permPlain]
    · intro t
      rw [(permPooled.map _).mem_iff, agree.times, (permPlain.map _).mem_iff]
    · intro t
      rw [totalsAt_perm permPooled, agree.agree, totalsAt_perm permPlain]
  · refine { listed_sortedItem sorts s.data with count := ?_ }
    rw [(listed_sortedItem sorts s.data).count, agree.count]

end Loop

/-- Values of one reading. -/
def reading (t : BitVec 64) (value : Int) : IterValues Int :=
  ⟨t, some value, some value, some value, some value, 1⟩

/-- Two rows that overlap in a second, the later one first. -/
def overlapping : List (Decoding Int) :=
  [.ok [reading 12000000000#64 4, reading 12500000000#64 8, reading 20000000000#64 1],
    .ok [reading 9000000000#64 2, reading 12000000007#64 16]]

theorem toRawRenderItemBoundsPool_agrees_overlapping :
    (∀ vs, .ok vs ∈ overlapping → ∀ v ∈ vs, 0 < v.t.toInt ∧ v.point.Solid) ∧
      totalCount ((withinBounds 9000000000#64 15000000000#64 (decoded overlapping)).map
        IterValues.point) = 4 ∧
      ∃ plain pooled,
        toRawRenderItemBounds byTime overlapping 9000000000#64 15000000000#64 = .ok plain ∧
        toRawRenderItemBoundsPool byTime (fun _ => single 7 99) overlapping 9000000000#64
          15000000000#64 = .ok pooled ∧
        (bySecond pooled.data).map RawDataPoint.totals =
          (bySecond plain.data).map RawDataPoint.totals ∧
        Listed ((withinBounds 9000000000#64 15000000000#64 (decoded overlapping)).map
          IterValues.point) plain ∧
        Listed ((withinBounds 9000000000#64 15000000000#64 (decoded overlapping)).map
          IterValues.point) pooled := by
  have proper : ∀ vs, .ok vs ∈ overlapping → ∀ v ∈ vs, 0 < v.t.toInt ∧ v.point.Solid := by
    intro vs listed
    rcases List.mem_pair.mp listed with ok | ok <;> cases ok <;> decide
  exact ⟨proper, by decide, (toRawRenderItemBoundsPool_agrees sortsByTime_byTime
    (fun _ => single 7 99) overlapping 9000000000#64 15000000000#64 proper (by decide)).2
    (by decide)⟩

example : (toRawRenderItemBoundsPool byTime (fun _ => single 7 99) overlapping 9000000000#64
      15000000000#64).map (·.data) =
    .ok [single 9 2, ⟨12, some 12, some 4, some 8, some 4, 2⟩, single 12 16] := by decide +kernel

/-- Three readings of one second that count `2 ^ 62` each. -/
def crowdedSecond : List (Decoding Int) :=
  [.ok [{ reading 12000000000#64 1 with ct := 4611686018427387904 },
    { reading 12000000001#64 1 with ct := 4611686018427387904 },
    { reading 12000000002#64 1 with ct := 4611686018427387904 }]]

/-- The pooled conversion adds up the first two counts to `-2 ^ 63` and leaves it at that. -/
theorem toRawRenderItemBoundsPool_overflows :
    (∀ vs, .ok vs ∈ crowdedSecond → ∀ v ∈ vs, 0 < v.t.toInt ∧ v.point.Solid) ∧
      totalCount ((withinBounds 0#64 15000000000#64 (decoded crowdedSecond)).map
        IterValues.point) = 3 * 2 ^ 62 ∧
      (toRawRenderItemBoundsPool byTime (fun _ => single 7 99) crowdedSecond 0#64
        15000000000#64).map (fun pooled => totalCount pooled.data) = .ok (-2 ^ 63) := by
  refine ⟨?_, by decide, by decide +kernel⟩
  intro vs listed
  cases List.mem_singleton.mp listed
  decide

end Metrics
