import Cadent.Lib.Neighbours
import Cadent.Writers.CacheSingle
import Mathlib.Algebra.Group.Int.Defs
import Mathlib.Data.List.Sort

/-!
# From a series back to stats

`getStatsStream` walks the iterator of a series and joins neighbours at one time. The
chunk cache merges such a neighbour in place; the single cache calls `Merge`, which
returns a new stat, and drops it. Values are exact numbers: `ReprValue` has replaced the
NaNs. `sort.Sort` compares the times of two stats and swaps them, so where it puts a stat
depends on the times alone.
-/

namespace StatsStream

open Cache Neighbours TimeSeries

variable {α : Type}

structure StatRepr (α : Type) where
  name : Option StatName
  time : BitVec 64
  min : α
  max : α
  last : α
  sum : α
  count : Int
  deriving DecidableEq

/-- What draining an iterator gives: the values of `ReprValue`, and `Error` at the end. -/
structure Reading (α : Type) where
  stats : List (StatRepr α)
  err : Option SeriesError

/-! ### Sorting by time -/

/-- `sort.Sort` over stats: the order in which the places of the old list come. -/
structure TimeSort where
  order : List (BitVec 64) → List Nat
  perm : ∀ ts, (order ts).Perm (List.range ts.length)
  sorted : ∀ ts, ((order ts).filterMap (ts[·]?)).Pairwise fun t u => t.toInt ≤ u.toInt

def TimeSort.sort (sorting : TimeSort) (l : List (StatRepr α)) : List (StatRepr α) :=
  (sorting.order (l.map (·.time))).filterMap (l[·]?)

/-! ### The two loops -/

/-- `st.Name = name`. -/
def StatRepr.named (name : StatName) (st : StatRepr α) : StatRepr α :=
  { st with name := some name }

/-- The loop of `getStatsStream`; `absorb` is what becomes of the last stat of `ouStats`
when another one at its time comes in. -/
def streamLoop (absorb : StatRepr α → StatRepr α → StatRepr α) (name : StatName) :
    BitVec 64 → List (StatRepr α) → List (StatRepr α) → List (StatRepr α)
  | _, ouStats, [] => ouStats
  | lastT, ouStats, st :: rest =>
    let st := st.named name
    if lastT = st.time ∧ ouStats ≠ [] then
      streamLoop absorb name lastT (ouStats.modify (ouStats.length - 1) (absorb · st)) rest
    else streamLoop absorb name st.time (ouStats ++ [st]) rest

/-- A slice and an error; no slice at all when the series has no iterator. -/
def streamOf (absorb : StatRepr α → StatRepr α → StatRepr α) (sorting : TimeSort)
    (name : StatName) :
    Except SeriesError (Reading α) → Option (List (StatRepr α)) × Option SeriesError
  | .error e => (none, some e)
  | .ok it =>
    let ouStats := streamLoop absorb name (-1) [] it.stats
    match it.err with
    | some e => (some ouStats, some e)
    | none => (some (sorting.sort ouStats), none)

/-- The single cache keeps the first stat as it is. -/
def getStatsStream (sorting : TimeSort) (name : StatName)
    (opened : Except SeriesError (Reading α)) :
    Option (List (StatRepr α)) × Option SeriesError :=
  streamOf (fun kept _ => kept) sorting name opened

section InPlace

variable [Add α] [LT α] [DecidableLT α]

def StatRepr.mergeInPlace (s stat : StatRepr α) : StatRepr α :=
  { s with
    min := if stat.min < s.min then stat.min else s.min
    max := if s.max < stat.max then stat.max else s.max
    count := s.count + stat.count
    sum := s.sum + stat.sum }

/-- The `getStatsStream` of a chunk. -/
def chunkStatsStream (sorting : TimeSort) (name : StatName)
    (opened : Except SeriesError (Reading α)) : Option (List (StatRepr α)) × Option SeriesError :=
  streamOf StatRepr.mergeInPlace sorting name opened

end InPlace

/-! ### What sorting keeps -/

theorem filterMap_range {β : Type} (l : List β) : (List.range l.length).filterMap (l[·]?) = l := by
  induction l using List.reverseRecOn with
  | nil => rfl
  | append_singleton l x ih =>
    have hfront : (List.range l.length).filterMap ((l ++ [x])[·]?) =
        (List.range l.length).filterMap (l[·]?) := by
      apply List.filterMap_congr
      intro i hi
      exact List.getElem?_append_left (List.mem_range.mp hi)
    rw [List.length_append, List.length_singleton, List.range_succ, List.filterMap_append, hfront,
      ih, List.filterMap_cons_some List.getElem?_concat_length]
    rfl

/-- Two selections that agree and miss nothing select the same from every place. -/
theorem eq_of_filterMap_eq {ι β : Type} {f g : ι → Option β} {l : List ι}
    (full : ∀ i ∈ l, (f i).isSome ∧ (g i).isSome) (same : l.filterMap f = l.filterMap g) :
    ∀ i ∈ l, f i = g i := by
  induction l with
  | nil =>
    intro i hi
    cases hi
  | cons j l ih =>
    obtain ⟨hf, hg⟩ := full j List.mem_cons_self
    obtain ⟨a, ha⟩ := Option.isSome_iff_exists.mp hf
    obtain ⟨b, hb⟩ := Option.isSome_iff_exists.mp hg
    rw [List.filterMap_cons_some ha, List.filterMap_cons_some hb] at same
    obtain ⟨hab, hrest⟩ := List.cons.inj same
    intro i hi
    rcases List.mem_cons.mp hi with rfl | hi
    · rw [ha, hb, hab]
    · exact ih (fun k hk => full k (List.mem_cons_of_mem _ hk)) hrest i hi

section Sorting

variable (sorting : TimeSort)

theorem sort_perm (l : List (StatRepr α)) : (sorting.sort l).Perm l := by
  have hperm := (sorting.perm (l.map (·.time))).filterMap (l[·]?)
  rw [List.length_map, filterMap_range] at hperm
  exact hperm

theorem sort_map {f : StatRepr α → StatRepr α} (keeps : ∀ st, (f st).time = st.time)
    (l : List (StatRepr α)) : sorting.sort (l.map f) = (sorting.sort l).map f := by
  have htimes : (l.map f).map (·.time) = l.map (·.time) := by
    rw [List.map_map]
    exact List.map_congr_left fun st _ => keeps st
  rw [TimeSort.sort, TimeSort.sort, htimes, List.map_filterMap]
  apply List.filterMap_congr
  intro i _
  exact List.getElem?_map

theorem sort_sorted (l : List (StatRepr α)) :
    (sorting.sort l).Pairwise fun st su => st.time.toInt ≤ su.time.toInt := by
  have hsorted := sorting.sorted (l.map (·.time))
  rw [List.pairwise_filterMap] at hsorted
  rw [TimeSort.sort, List.pairwise_filterMap]
  refine hsorted.imp fun {i j} ordered st hst su hsu => ?_
  apply ordered
  · rw [List.getElem?_map, hst]
    rfl
  · rw [List.getElem?_map, hsu]
    rfl

/-- Lists with the same times are the same once they are the same sorted. -/
theorem eq_of_sort_eq {l l' : List (StatRepr α)} (times : l.map (·.time) = l'.map (·.time))
    (same : sorting.sort l = sorting.sort l') : l = l' := by
  have hlen : l.length = l'.length := by simpa using congrArg List.length times
  have hplaces := sorting.perm (l.map (·.time))
  rw [List.length_map] at hplaces
  unfold TimeSort.sort at same
  rw [← times] at same
  have hall := eq_of_filterMap_eq (fun i hi => ?_) same
  · apply List.ext_getElem?
    intro i
    by_cases hi : i < l.length
    · exact hall i (hplaces.mem_iff.mpr (List.mem_range.mpr hi))
    · rw [List.getElem?_eq_none (by omega), List.getElem?_eq_none (by omega)]
  · have hin := List.mem_range.mp (hplaces.mem_iff.mp hi)
    rw [List.getElem?_eq_getElem hin, List.getElem?_eq_getElem (hlen ▸ hin)]
    exact ⟨rfl, rfl⟩

end Sorting

/-! ### What the loop makes of a series -/

section Loop

variable {absorb : StatRepr α → StatRepr α → StatRepr α} (name : StatName)

theorem streamLoop_collapse (keeps : ∀ s st, (absorb s st).time = s.time)
    (stats front : List (StatRepr α)) (cur : StatRepr α) :
    streamLoop absorb name cur.time (front ++ [cur]) stats =
      front ++ collapse (·.time) absorb cur (stats.map (·.named name)) := by
  induction stats generalizing front cur with
  | nil => rfl
  | cons st rest ih =>
    rw [streamLoop, List.map_cons, collapse]
    by_cases hsame : cur.time = (st.named name).time
    · have hlast : (front ++ [cur]).modify ((front ++ [cur]).length - 1)
          (absorb · (st.named name)) = front ++ [absorb cur (st.named name)] := by
        simp [List.modify_eq_take_cons_drop]
      rw [if_pos ⟨hsame, by simp⟩, if_pos hsame, hlast, ← keeps cur (st.named name)]
      exact ih front (absorb cur (st.named name))
    · rw [if_neg fun h => hsame h.1, if_neg hsame]
      exact (ih (front ++ [cur]) (st.named name)).trans (List.append_assoc front [cur] _)

/-- One stat for each run of equal times: the first of the run with the others absorbed. -/
theorem streamLoop_groups (keeps : ∀ s st, (absorb s st).time = s.time)
    (stats : List (StatRepr α)) :
    streamLoop absorb name (-1) [] stats =
      (groups (·.time) (stats.map (·.named name))).map fun g => g.2.foldl absorb g.1 := by
  cases stats with
  | nil => rfl
  | cons st rest =>
    rw [streamLoop, if_neg fun h => h.2 rfl, List.map_cons]
    exact (streamLoop_collapse name keeps rest [] (st.named name)).trans (collapse_eq keeps _ _)

theorem groups_named (stats : List (StatRepr α)) :
    groups (·.time) (stats.map (·.named name)) =
      (groups (·.time) stats).map fun g => (g.1.named name, g.2.map (·.named name)) :=
  groups_map (f := StatRepr.named name) (fun st : StatRepr α => st.time) (fun _ => rfl) stats

theorem time_foldl (keeps : ∀ s st, (absorb s st).time = s.time) (later : List (StatRepr α))
    (first : StatRepr α) : (later.foldl absorb first).time = first.time := by
  induction later generalizing first with
  | nil => rfl
  | cons st later ih => rw [List.foldl_cons, ih, keeps]

/-- The times of the stream do not depend on what is absorbed. -/
theorem time_streamLoop (keeps : ∀ s st, (absorb s st).time = s.time) (stats : List (StatRepr α)) :
    (streamLoop absorb name (-1) [] stats).map (·.time) =
      (groups (·.time) stats).map (·.1.time) := by
  rw [streamLoop_groups name keeps, groups_named, List.map_map, List.map_map]
  apply List.map_congr_left
  intro g _
  exact time_foldl keeps _ _

end Loop

/-! ### The stream of a chunk -/

section InPlace

variable [Add α] [LT α] [DecidableLT α]

theorem mergeInPlace_time (s st : StatRepr α) : (s.mergeInPlace st).time = s.time := rfl

/-- Each run of equal times as one stat. -/
def merged (stats : List (StatRepr α)) : List (StatRepr α) :=
  (groups (·.time) stats).map fun g => g.2.foldl StatRepr.mergeInPlace g.1

theorem foldl_named (name : StatName) (later : List (StatRepr α)) (first : StatRepr α) :
    (later.map (·.named name)).foldl StatRepr.mergeInPlace (first.named name) =
      (later.foldl StatRepr.mergeInPlace first).named name := by
  induction later generalizing first with
  | nil => rfl
  | cons st later ih => exact ih (first.mergeInPlace st)

/-- A chunk names, merges and sorts what it reads, in whichever order. -/
theorem chunkStatsStream_eq (sorting : TimeSort) (name : StatName) (stats : List (StatRepr α)) :
    chunkStatsStream sorting name (.ok ⟨stats, none⟩) =
      (some ((sorting.sort (merged stats)).map (·.named name)), none) := by
  have hloop : streamLoop StatRepr.mergeInPlace name (-1) [] stats =
      (merged stats).map (·.named name) := by
    rw [streamLoop_groups name mergeInPlace_time, groups_named, List.map_map, merged,
      List.map_map]
    apply List.map_congr_left
    intro g _
    exact foldl_named name g.2 g.1
  dsimp only [chunkStatsStream, streamOf]
  rw [hloop, sort_map sorting fun st => (rfl : (st.named name).time = st.time)]

theorem time_of_mem_merged {stats : List (StatRepr α)} {st : StatRepr α} (mem : st ∈ merged stats) :
    ∃ su ∈ stats, su.time = st.time := by
  obtain ⟨g, hg, rfl⟩ := List.mem_map.mp mem
  refine ⟨g.1, ?_, (time_foldl mergeInPlace_time g.2 g.1).symm⟩
  rw [← flatMap_groups (fun st : StatRepr α => st.time) stats]
  exact List.mem_flatMap.mpr ⟨g, hg, List.mem_cons_self⟩

end InPlace

/-! ### What is lost -/

section Exact

variable [AddCommGroup α] [LinearOrder α]

/-- The totals of the stats are those of the points, and there is one stat for each
maximal run of points with equal times. -/
structure LosesNothing (points out : List (StatRepr α)) : Prop where
  count : (out.map (·.count)).sum = (points.map (·.count)).sum
  sum : (out.map (·.sum)).sum = (points.map (·.sum)).sum
  runs : ∃ runs : List (StatRepr α × List (StatRepr α)),
    runs.flatMap (fun g => g.1 :: g.2) = points ∧ (∀ g ∈ runs, ∀ st ∈ g.2, st.time = g.1.time) ∧
      (runs.IsChain fun g h => g.1.time ≠ h.1.time) ∧
      (out.map (·.time)).Perm (runs.map (·.1.time))

/-- Merging the later points of a run into its first leaves the first as it was. -/
structure Idle (first : StatRepr α) (later : List (StatRepr α)) : Prop where
  count : (later.map (·.count)).sum = 0
  sum : (later.map (·.sum)).sum = 0
  min : ∀ st ∈ later, first.min ≤ st.min
  max : ∀ st ∈ later, st.max ≤ first.max

theorem foldl_mergeInPlace (later : List (StatRepr α)) (first : StatRepr α) :
    later.foldl StatRepr.mergeInPlace first =
      { first with
        min := (later.map (·.min)).foldl min first.min
        max := (later.map (·.max)).foldl max first.max
        count := first.count + (later.map (·.count)).sum
        sum := first.sum + (later.map (·.sum)).sum } := by
  induction later generalizing first with
  | nil => simp
  | cons st later ih =>
    rw [List.foldl_cons, ih]
    simp only [StatRepr.mergeInPlace, List.map_cons, List.foldl_cons, List.sum_cons, add_assoc,
      ← min_def_lt, ← max_def_lt, min_comm st.min]

omit [AddCommGroup α] in
theorem foldl_min_le (l : List α) (a : α) : l.foldl min a ≤ a := by
  induction l generalizing a with
  | nil => exact le_rfl
  | cons b l ih => exact (ih (min a b)).trans (min_le_left a b)

omit [AddCommGroup α] in
theorem foldl_min_eq_iff (l : List α) (a : α) : l.foldl min a = a ↔ ∀ b ∈ l, a ≤ b := by
  induction l generalizing a with
  | nil => simp
  | cons b l ih =>
    rw [List.foldl_cons, List.forall_mem_cons]
    constructor
    · intro hfold
      have hle : a ≤ min a b := by
        rw [← hfold]
        nth_rewrite 2 [hfold]
        exact foldl_min_le l (min a b)
      have hmin : min a b = a := le_antisymm (min_le_left a b) hle
      rw [hmin] at hfold
      exact ⟨hle.trans (min_le_right a b), (ih a).mp hfold⟩
    · rintro ⟨hb, hrest⟩
      rw [min_eq_left hb]
      exact (ih a).mpr hrest

omit [AddCommGroup α] in
theorem foldl_max_eq_iff (l : List α) (a : α) : l.foldl max a = a ↔ ∀ b ∈ l, b ≤ a :=
  foldl_min_eq_iff (α := αᵒᵈ) l a

theorem foldl_mergeInPlace_eq_iff (first : StatRepr α) (later : List (StatRepr α)) :
    later.foldl StatRepr.mergeInPlace first = first ↔ Idle first later := by
  have hmin : (later.map (·.min)).foldl min first.min = first.min ↔
      ∀ st ∈ later, first.min ≤ st.min :=
    (foldl_min_eq_iff (later.map (·.min)) first.min).trans List.forall_mem_map
  have hmax : (later.map (·.max)).foldl max first.max = first.max ↔
      ∀ st ∈ later, st.max ≤ first.max :=
    (foldl_max_eq_iff (later.map (·.max)) first.max).trans List.forall_mem_map
  rw [foldl_mergeInPlace]
  constructor
  · intro same
    have hcount := congrArg StatRepr.count same
    have hsum := congrArg StatRepr.sum same
    dsimp only at hcount hsum
    exact ⟨by omega, by simpa using hsum, hmin.mp (congrArg StatRepr.min same),
      hmax.mp (congrArg StatRepr.max same)⟩
  · rintro ⟨hcount, hsum, hleast, hmost⟩
    rw [hmin.mpr hleast, hmax.mpr hmost, hcount, hsum, add_zero, add_zero]

theorem idle_named (name : StatName) (first : StatRepr α) (later : List (StatRepr α)) :
    Idle (first.named name) (later.map (·.named name)) ↔ Idle first later := by
  constructor
  · rintro ⟨hcount, hsum, hmin, hmax⟩
    rw [List.forall_mem_map] at hmin hmax
    rw [List.map_map] at hcount hsum
    exact ⟨hcount, hsum, hmin, hmax⟩
  · rintro ⟨hcount, hsum, hmin, hmax⟩
    refine ⟨?_, ?_, List.forall_mem_map.mpr hmin, List.forall_mem_map.mpr hmax⟩
    · rw [List.map_map]
      exact hcount
    · rw [List.map_map]
      exact hsum

/-- The two loops agree when merging in place changes nothing. -/
theorem streamLoop_eq_iff (name : StatName) (stats : List (StatRepr α)) :
    streamLoop (fun kept _ => kept) name (-1) [] stats =
        streamLoop StatRepr.mergeInPlace name (-1) [] stats ↔
      ∀ g ∈ groups (·.time) stats, Idle g.1 g.2 := by
  have hkept : ∀ (later : List (StatRepr α)) (first : StatRepr α),
      later.foldl (fun kept _ => kept) first = first := by
    intro later
    induction later with
    | nil => exact fun _ => rfl
    | cons st later ih => exact ih
  rw [streamLoop_groups name (fun _ _ => rfl), streamLoop_groups name mergeInPlace_time,
    groups_named, List.map_map, List.map_map, List.map_inj_left]
  constructor
  · intro same g hg
    have hrun := same g hg
    dsimp only [Function.comp_apply] at hrun
    rw [hkept] at hrun
    exact (idle_named name _ _).mp ((foldl_mergeInPlace_eq_iff _ _).mp hrun.symm)
  · intro idle g hg
    dsimp only [Function.comp_apply]
    rw [hkept]
    exact ((foldl_mergeInPlace_eq_iff _ _).mpr ((idle_named name _ _).mpr (idle g hg))).symm

/-- Merging in place loses nothing. -/
theorem losesNothing_streamLoop (name : StatName) (stats : List (StatRepr α)) :
    LosesNothing stats (streamLoop StatRepr.mergeInPlace name (-1) [] stats) := by
  have htime := time_streamLoop name mergeInPlace_time stats
  have hrun : ∀ {M : Type} [AddMonoid M] (f : StatRepr α → M),
      (∀ s st, f (s.mergeInPlace st) = f s + f st) → (∀ st, f (st.named name) = f st) →
      ((streamLoop StatRepr.mergeInPlace name (-1) [] stats).map f).sum = (stats.map f).sum := by
    intro M _ f adds names
    rw [streamLoop_groups name mergeInPlace_time, List.map_map]
    have htotal := sum_map_foldl (fun st : StatRepr α => st.time) adds
      (stats.map (·.named name))
    rw [List.map_map] at htotal
    refine Eq.trans htotal (congrArg List.sum (List.map_congr_left fun st _ => names st))
  refine ⟨hrun _ (fun _ _ => rfl) fun _ => rfl, hrun _ (fun _ _ => rfl) fun _ => rfl,
    groups (·.time) stats, flatMap_groups _ stats, fun g hg => key_of_mem_groups _ hg,
    isChain_groups _ stats, ?_⟩
  rw [htime]

omit [LinearOrder α] in
theorem losesNothing_perm {points out out' : List (StatRepr α)} (perm : out'.Perm out)
    (kept : LosesNothing points out) : LosesNothing points out' := by
  obtain ⟨hcount, hsum, runs, hflat, hkey, hchain, htimes⟩ := kept
  refine ⟨?_, ?_, runs, hflat, hkey, hchain, (perm.map _).trans htimes⟩
  · rw [(perm.map (·.count)).sum_eq, hcount]
  · rw [(perm.map (·.sum)).sum_eq, hsum]

/-- The stream of the single cache loses nothing and is the stream of the chunk cache
exactly when no run of equal times has anything to add to its first point. -/
theorem getStatsStream_lossless_iff (sorting : TimeSort) (name : StatName) (it : Reading α) :
    ((∃ out, (getStatsStream sorting name (.ok it)).1 = some out ∧ LosesNothing it.stats out) ∧
        getStatsStream sorting name (.ok it) = chunkStatsStream sorting name (.ok it)) ↔
      ∀ g ∈ groups (·.time) it.stats, Idle g.1 g.2 := by
  obtain ⟨stats, err⟩ := it
  have hkept := losesNothing_streamLoop name stats
  rw [← streamLoop_eq_iff name]
  cases err with
  | some e =>
    constructor
    · rintro ⟨-, same⟩
      exact Option.some.inj (Prod.mk.inj same).1
    · intro same
      dsimp only [getStatsStream, chunkStatsStream, streamOf]
      rw [same]
      exact ⟨⟨_, rfl, hkept⟩, rfl⟩
  | none =>
    constructor
    · rintro ⟨-, same⟩
      refine eq_of_sort_eq sorting ?_ (Option.some.inj (Prod.mk.inj same).1)
      rw [time_streamLoop name (fun _ _ => rfl), time_streamLoop name mergeInPlace_time]
    · intro same
      dsimp only [getStatsStream, chunkStatsStream, streamOf]
      rw [same]
      exact ⟨⟨_, rfl, losesNothing_perm (sort_perm sorting _) hkept⟩, rfl⟩

end Exact

/-! ### A sort, and two points at one time -/

/-- The time at a place. -/
def timeAt (ts : List (BitVec 64)) (i : Nat) : Int := (ts.getD i 0).toInt

/-- Sorting the places by their times. -/
def timeSort : TimeSort where
  order ts := (List.range ts.length).insertionSort fun i j => timeAt ts i ≤ timeAt ts j
  perm ts := List.perm_insertionSort _ _
  sorted ts := by
    have ordered := List.pairwise_insertionSort (fun i j => timeAt ts i ≤ timeAt ts j)
      (List.range ts.length)
    rw [List.pairwise_filterMap]
    refine ordered.imp fun {i j} le t ht u hu => ?_
    rw [timeAt, timeAt, List.getD_eq_getElem?_getD, List.getD_eq_getElem?_getD, ht, hu] at le
    exact le

/-- One value as a stat of count one. -/
def single (time : BitVec 64) (value : Int) : StatRepr Int :=
  ⟨none, time, value, value, value, value, 1⟩

/-- Two writers out of phase report at one time: the second value is gone. -/
theorem getStatsStream_loses_second :
    ¬ ((∃ out, (getStatsStream timeSort load (.ok ⟨[single 5 2, single 5 3], none⟩)).1 =
        some out ∧ LosesNothing [single 5 2, single 5 3] out) ∧
      getStatsStream timeSort load (.ok ⟨[single 5 2, single 5 3], none⟩) =
        chunkStatsStream timeSort load (.ok ⟨[single 5 2, single 5 3], none⟩)) := by
  rintro ⟨⟨out, hout, kept⟩, -⟩
  have hone : out = [(single 5 2).named load] := Option.some.inj (hout.symm.trans (by decide))
  rw [hone] at kept
  exact absurd kept.count (by decide)

end StatsStream
