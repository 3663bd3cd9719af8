import Cadent.Series.Registry
import Cadent.Writers.CacheItem

/-!
# The chunk cache

`CacherChunk` keeps the points of one time window in the current chunk, a ring of older
chunks, and the slice of points that the next log dump will write. A chunk maps ids to
references, since `Copy` shares the items of the chunk it copies: the items themselves
live in `heap`. Sequence numbers are unbounded integers. Clock readings (`started`,
`timeWindow`), the `written` flag, which nothing sets, and the counters sent to statsd are
left out. Each definition here is one critical section of the source.
-/

namespace CacheChunk

open Cache Maps TimeSeries Registry
open Binary64 (IntConversion)

abbrev Item := CacheItem Series

structure CacheChunkItem where
  ts : Map StatId Nat
  seriesType : String
  sequence : Int
  curCount : Int

def errZeroTime : SeriesError := .message "Time for metric is 0 cannot insert"

namespace CacheChunkItem

def newCacheChunkItem (sequenceNum : Int) (seriesType : String) : CacheChunkItem :=
  ⟨∅, seriesType, sequenceNum, 0⟩

/-- The copy has a map of its own, with the same items in it. -/
def copy (c : CacheChunkItem) : CacheChunkItem := ⟨c.ts, c.seriesType, c.sequence, c.curCount⟩

def addWithOffset (c : CacheChunkItem) (heap : List Item) (name : StatName) (stat : Point)
    (offset : Option OffsetInSeries) (now : BitVec 32) :
    Except SeriesError (List Item × CacheChunkItem) :=
  if stat.t = 0#64 then .error errZeroTime
  else match c.ts.lookup name.uniqueId with
    | some ref =>
      match heap[ref]? with
      | none => .error .panic
      | some item => do
        let series ← item.series.addStat stat
        return (heap.set ref { item with series := series, offset := offset },
          { c with curCount := c.curCount + 1 })
    | none => do
      let tp ← newTimeSeries c.seriesType stat.t none
      let tp ← tp.addStat stat
      return (heap ++ [⟨name, tp, offset, now⟩],
        { c with ts := c.ts.insert name.uniqueId heap.length, curCount := c.curCount + 1 })

end CacheChunkItem

/-- What a log dump hands to the log writer. -/
structure CacheChunkLog where
  slice : Map StatId (List Point)
  sequenceId : Int
  deriving DecidableEq

/-- What a rotation hands to the series writer. -/
structure CacheChunkSlice where
  slice : CacheChunkItem
  sequenceId : Int

structure CacherChunk where
  heap : List Item
  chunks : List (Option CacheChunkItem)
  curChunk : Option CacheChunkItem
  curSlice : Map StatId (List Point)
  curSequenceId : Int
  seriesType : String

namespace CacherChunk

open CacheChunkItem

def newCacherChunk (slots : Nat) (seriesType : String) : CacherChunk :=
  ⟨[], List.replicate slots none, none, ∅, 0, seriesType⟩

def setCurSequenceId (wc : CacherChunk) (sequence : Int) : CacherChunk :=
  { wc with curSequenceId := sequence }

def startChunk (wc : CacherChunk) (sequence : Int) : CacherChunk :=
  { wc with curChunk := some (newCacheChunkItem sequence wc.seriesType) }

/-- A cache as it goes into service: fresh, or resumed at the last sequence of a log. -/
def start (slots : Nat) (seriesType : String) : Option Int → CacherChunk
  | none => newCacherChunk slots seriesType
  | some seq => ((newCacherChunk slots seriesType).setCurSequenceId seq).startChunk seq

def ensureChunk (wc : CacherChunk) : CacherChunk :=
  match wc.curChunk with
  | none => { wc with curChunk := some (newCacheChunkItem wc.curSequenceId wc.seriesType) }
  | some _ => wc

/-- `curChunk.AddWithOffset`, whose error is also what the caller returns. -/
def addToChunk (wc : CacherChunk) (name : StatName) (stat : Point)
    (offset : Option OffsetInSeries) (now : BitVec 32) : CacherChunk × Option SeriesError :=
  match wc.curChunk with
  | none => (wc, some .panic)
  | some c =>
    match c.addWithOffset wc.heap name stat offset now with
    | .error e => (wc, some e)
    | .ok (heap, c) => ({ wc with heap := heap, curChunk := some c }, none)

/-- The point joins the slice before the chunk is asked, and stays there on an error. -/
def addWithOffset (wc : CacherChunk) (name : StatName) (stat : Point)
    (offset : Option OffsetInSeries) (now : BitVec 32) : CacherChunk × Option SeriesError :=
  { wc with curSlice := push wc.curSlice name.uniqueId stat }.ensureChunk.addToChunk
    name stat offset now

def clearSlice (wc : CacherChunk) : CacherChunk := { wc with curSlice := ∅ }

/-- The chunk that an addition made now goes to. -/
def target (wc : CacherChunk) : CacheChunkItem :=
  wc.curChunk.getD (newCacheChunkItem wc.curSequenceId wc.seriesType)

/-- Rotation; `none` is the slice out of bounds of an empty ring. -/
def cycleInternalChunks (wc : CacherChunk) : Option (CacherChunk × Option CacheChunkSlice) :=
  let seq := wc.curSequenceId + 1
  match wc.curChunk, wc.chunks with
  | none, _ =>
    some ({ wc with curSequenceId := seq,
                    curChunk := some (newCacheChunkItem seq wc.seriesType) }, none)
  | some _, [] => none
  | some c, _ :: rest =>
    some ({ wc with chunks := rest ++ [some c], curSequenceId := seq,
                    curChunk := some (newCacheChunkItem seq wc.seriesType) },
      some ⟨c.copy, c.sequence⟩)

end CacherChunk

/-! ### What was accepted -/

/-- A point that was added without an error, and the sequence it was added to. -/
structure Accepted where
  sequence : Int
  uid : StatId
  stat : Point
  deriving DecidableEq

def statsOf (uid : StatId) (as : List Accepted) : List Point :=
  as.filterMap fun a => if a.uid = uid then some a.stat else none

theorem statsOf_append (uid : StatId) (as bs : List Accepted) :
    statsOf uid (as ++ bs) = statsOf uid as ++ statsOf uid bs := by
  simp [statsOf]

/-! ### What the critical sections do -/

theorem item_addWithOffset_ok {c c' : CacheChunkItem} {heap heap' : List Item} {name : StatName}
    {stat : Point} {offset : Option OffsetInSeries} {now : BitVec 32}
    (added : c.addWithOffset heap name stat offset now = .ok (heap', c')) :
    stat.t ≠ 0#64 ∧
    ((∃ ref item series, c.ts.lookup name.uniqueId = some ref ∧ heap[ref]? = some item ∧
        item.series.addStat stat = .ok series ∧
        heap' = heap.set ref { item with series := series, offset := offset } ∧
        c' = { c with curCount := c.curCount + 1 }) ∨
      ∃ opened series, c.ts.lookup name.uniqueId = none ∧
        newTimeSeries c.seriesType stat.t none = .ok opened ∧
        opened.addStat stat = .ok series ∧ heap' = heap ++ [⟨name, series, offset, now⟩] ∧
        c' = { c with ts := c.ts.insert name.uniqueId heap.length,
                      curCount := c.curCount + 1 }) := by
  unfold CacheChunkItem.addWithOffset at added
  by_cases zero : stat.t = 0#64
  · rw [if_pos zero] at added
    cases added
  · rw [if_neg zero] at added
    refine ⟨zero, ?_⟩
    cases found : c.ts.lookup name.uniqueId with
    | some ref =>
      rw [found] at added
      dsimp only at added
      cases here : heap[ref]? with
      | none => simp [here] at added
      | some item =>
        rw [here] at added
        obtain ⟨series, stat_ok, rest⟩ := Consume.bind_ok added
        cases rest
        exact .inl ⟨ref, item, series, rfl, here, stat_ok, rfl, rfl⟩
    | none =>
      rw [found] at added
      obtain ⟨opened, new_ok, rest⟩ := Consume.bind_ok added
      obtain ⟨series, stat_ok, rest⟩ := Consume.bind_ok rest
      cases rest
      exact .inr ⟨opened, series, rfl, new_ok, stat_ok, rfl, rfl⟩

namespace CacherChunk

open CacheChunkItem

theorem ensureChunk_eq (wc : CacherChunk) :
    wc.ensureChunk = { wc with curChunk := some wc.target } := by
  cases wc with
  | mk heap chunks curChunk curSlice seq ty => cases curChunk <;> rfl

theorem addToChunk_cases (wc : CacherChunk) (name : StatName) (stat : Point)
    (offset : Option OffsetInSeries) (now : BitVec 32) :
    (∃ e, wc.addToChunk name stat offset now = (wc, some e)) ∨
    ∃ heap c, wc.target.addWithOffset wc.heap name stat offset now = .ok (heap, c) ∧
      wc.addToChunk name stat offset now =
        ({ wc with heap := heap, curChunk := some c }, none) := by
  cases cur : wc.curChunk with
  | none => exact .inl ⟨.panic, by simp [addToChunk, cur]⟩
  | some c =>
    simp only [addToChunk, target, cur, Option.getD_some]
    rcases c.addWithOffset wc.heap name stat offset now with e | ⟨heap, c'⟩
    · exact .inl ⟨e, rfl⟩
    · exact .inr ⟨heap, c', rfl, rfl⟩

theorem addWithOffset_cases (wc : CacherChunk) (name : StatName) (stat : Point)
    (offset : Option OffsetInSeries) (now : BitVec 32) :
    (∃ e, wc.addWithOffset name stat offset now =
      ({ wc with curSlice := push wc.curSlice name.uniqueId stat
                 curChunk := some wc.target }, some e)) ∨
    ∃ heap c, wc.target.addWithOffset wc.heap name stat offset now = .ok (heap, c) ∧
      wc.addWithOffset name stat offset now =
        ({ wc with heap := heap, curSlice := push wc.curSlice name.uniqueId stat
                   curChunk := some c }, none) := by
  rw [addWithOffset, ensureChunk_eq]
  exact addToChunk_cases _ name stat offset now

theorem cycleInternalChunks_cases {wc wc' : CacherChunk} {out : Option CacheChunkSlice}
    (cycled : wc.cycleInternalChunks = some (wc', out)) :
    (wc.curChunk = none ∧ out = none ∧
      wc' = { wc with curSequenceId := wc.curSequenceId + 1,
                      curChunk := some (newCacheChunkItem (wc.curSequenceId + 1) wc.seriesType) }) ∨
    ∃ c oldest rest, wc.curChunk = some c ∧ wc.chunks = oldest :: rest ∧
      out = some ⟨c.copy, c.sequence⟩ ∧
      wc' = { wc with chunks := rest ++ [some c], curSequenceId := wc.curSequenceId + 1,
                      curChunk := some (newCacheChunkItem (wc.curSequenceId + 1) wc.seriesType) } := by
  unfold cycleInternalChunks at cycled
  cases cur : wc.curChunk with
  | none =>
    simp only [cur, Option.some.injEq, Prod.mk.injEq] at cycled
    exact .inl ⟨rfl, cycled.2.symm, cycled.1.symm⟩
  | some c =>
    cases ring : wc.chunks with
    | nil => simp [cur, ring] at cycled
    | cons oldest rest =>
      simp only [cur, ring, Option.some.injEq, Prod.mk.injEq] at cycled
      exact .inr ⟨c, oldest, rest, rfl, rfl, cycled.2.symm, cycled.1.symm⟩

end CacherChunk

end CacheChunk
