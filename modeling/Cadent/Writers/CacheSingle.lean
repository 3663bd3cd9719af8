import Cadent.Lib.Runs
import Cadent.Writers.CacheItem

/-!
# The single cache

`CacherSingle` keeps one series for each metric until it is popped, outgrows its bytes or
has been held too long. The series is of any type whose length changes only when a point is
added. Sizes are integers without overflow, and a map is iterated in an order that the
action names. The parts of `GetNextMetric`, `PopSeries` and `updateQueue` that lie between
two locks are steps of their own, taken by any number of goroutines. Queue items live in
`items`: `updateQueue` gives those of the old queue back to the pool while the queue, or a
pop under way, still refers to them. The history of chunks that were sent, which only
queries read, the log and the gauges are left out.
-/

namespace CacheSingle

open Cache Maps Runs TimeSeries

structure SeriesType (S : Type) where
  new : String → BitVec 64 → Except SeriesError S
  addStat : S → Point → S × Option SeriesError
  len : S → Int
  count : S → Int
  /-- What the iterator yields. -/
  points : S → List Point
  new_points : ∀ {name t s}, new name t = .ok s → points s = []
  addStat_points : ∀ {s p s'}, addStat s p = (s', none) → points s' = points s ++ [p]
  addStat_refused : ∀ {s p s' e}, addStat s p = (s', some e) →
    points s' = points s ∧ len s' = len s

inductive Broadcaster where
  | absent
  | opened
  | closed
  deriving DecidableEq, Repr

structure Config where
  maxKeys : Int
  maxBytes : Int
  seriesType : String
  overFlowMethod : String
  overFlowBroadcast : Broadcaster
  maxTimeInCache : BitVec 32

def Config.overflows (cfg : Config) : Bool :=
  cfg.overFlowBroadcast ≠ .absent && cfg.overFlowMethod = "chan"

structure CacheQueueItem where
  metric : StatId
  count : Int
  bytes : Int

structure TotalTimeSeries (S : Type) where
  name : StatName
  series : S
  offset : Option OffsetInSeries

structure CacherSingle (S : Type) where
  cache : Map StatId (CacheItem S)
  curSize : Int
  accept : Bool

def errWriteCacheTooManyMetrics : SeriesError :=
  .message "Cacher: too many keys, dropping metric"

def errWriteCacheTooManyPoints : SeriesError :=
  .message "Cacher: too many points in cache, dropping metric"

/-- The offset of an item after one more point. -/
def laterOffset : Option OffsetInSeries → Option OffsetInSeries → Option OffsetInSeries
  | old, none => old
  | none, some offset => some offset
  | some old, some offset =>
    if old.offset.slt offset.offset then some { old with offset := offset.offset } else some old

/-- The stats of a series; what `Merge` makes of two neighbours at one time is not kept. -/
def streamLoop : BitVec 64 → List Point → List Point → List Point
  | _, ouStats, [] => ouStats
  | lastT, ouStats, st :: rest =>
    if lastT = st.t ∧ ouStats ≠ [] then streamLoop lastT ouStats rest
    else streamLoop st.t (ouStats ++ [st]) rest

def getStatsStream (sort : List Point → List Point) (points : List Point) : List Point :=
  sort (streamLoop (-1) [] points)

namespace CacherSingle

variable {S : Type} (ty : SeriesType S) (cfg : Config) (wc : CacherSingle S)

/-- The series of an entry leaves the cache with its bytes. -/
def drop (uid : StatId) (item : CacheItem S) : CacherSingle S :=
  { wc with curSize := wc.curSize - ty.len item.series, cache := wc.cache.erase uid }

/-- The part of `AddWithOffset` from `NEWSTAT` on. -/
def newStat (name : StatName) (stat : Point) (offset : Option OffsetInSeries)
    (tNow : BitVec 32) : CacherSingle S × Option SeriesError :=
  match ty.new cfg.seriesType stat.t with
  | .error e => (wc, some e)
  | .ok tp =>
    match ty.addStat tp stat with
    | (_, some e) => (wc, some e)
    | (tp, none) =>
      ({ wc with cache := wc.cache.insert name.uniqueId ⟨name, tp, offset, tNow⟩
                 curSize := wc.curSize + ty.len tp }, none)

/-- The series that was sent to the overflow broadcaster, if one was, and the error. -/
def addWithOffset (name : StatName) (stat : Point) (offset : Option OffsetInSeries)
    (tNow : BitVec 32) : CacherSingle S × List (TotalTimeSeries S) × Option SeriesError :=
  if !wc.accept then (wc, [], none)
  else if cfg.maxKeys < wc.cache.keys.length then (wc, [], some errWriteCacheTooManyMetrics)
  else
    match wc.cache.lookup name.uniqueId with
    | some gots =>
      if cfg.maxBytes < ty.len gots.series then
        if cfg.overflows then
          let sent := if cfg.overFlowBroadcast = .closed then []
            else [⟨gots.name, gots.series, gots.offset⟩]
          let added := (wc.drop ty name.uniqueId gots).newStat ty cfg name stat offset tNow
          (added.1, sent, added.2)
        else (wc, [], some errWriteCacheTooManyPoints)
      else
        match ty.addStat gots.series stat with
        | (series, some e) =>
          ({ wc with cache := wc.cache.insert name.uniqueId { gots with series := series } }, [],
            some e)
        | (series, none) =>
          ({ wc with
              cache := wc.cache.insert name.uniqueId
                { gots with series := series, offset := laterOffset gots.offset offset }
              curSize := wc.curSize + (ty.len series - ty.len gots.series) }, [], none)
    | none =>
      let added := wc.newStat ty cfg name stat offset tNow
      (added.1, [], added.2)

/-- The locked part of `PopSeries`. -/
def popSeries (metric : StatName) : CacherSingle S × Option (StatName × S) :=
  match wc.cache.lookup metric.uniqueId with
  | some stats => (wc.drop ty metric.uniqueId stats, some (stats.name, stats.series))
  | none => (wc, none)

/-- At most so many series are pushed in one run, and one more. -/
def maxPerRun : Nat := 1024

/-- `pushExpired` over the ids in the order of iteration, with what it sends. -/
def pushExpired (tNow : BitVec 32) :
    List StatId → Nat → CacherSingle S → CacherSingle S × List (TotalTimeSeries S)
  | [], _, wc => (wc, [])
  | uid :: order, did, wc =>
    match wc.cache.lookup uid with
    | some item =>
      if cfg.maxTimeInCache < tNow - item.started then
        let sent := ⟨item.name, item.series, item.offset⟩
        if maxPerRun < did + 1 then (wc.drop ty uid item, [sent])
        else
          let rest := pushExpired tNow order (did + 1) (wc.drop ty uid item)
          (rest.1, sent :: rest.2)
      else pushExpired tNow order did wc
    | none => pushExpired tNow order did wc

variable {wc} (name : StatName) (stat : Point) (offset : Option OffsetInSeries)
variable (tNow : BitVec 32)

/-- An accepting cache refuses a point, opens a series for it, with or without sending the
old one, or asks the series it has. -/
theorem addWithOffset_cases (accepting : wc.accept = true) :
    (∃ e, wc.addWithOffset ty cfg name stat offset tNow = (wc, [], some e)) ∨
    (wc.cache.lookup name.uniqueId = none ∧
      wc.addWithOffset ty cfg name stat offset tNow =
        ((wc.newStat ty cfg name stat offset tNow).1, [],
          (wc.newStat ty cfg name stat offset tNow).2)) ∨
    ∃ gots, wc.cache.lookup name.uniqueId = some gots ∧
      (wc.addWithOffset ty cfg name stat offset tNow =
        (((wc.drop ty name.uniqueId gots).newStat ty cfg name stat offset tNow).1,
          if cfg.overFlowBroadcast = .closed then []
            else [⟨gots.name, gots.series, gots.offset⟩],
          ((wc.drop ty name.uniqueId gots).newStat ty cfg name stat offset tNow).2) ∨
      (∃ series e, ty.addStat gots.series stat = (series, some e) ∧
        wc.addWithOffset ty cfg name stat offset tNow =
          ({ wc with cache := wc.cache.insert name.uniqueId { gots with series := series } }, [],
            some e)) ∨
      ∃ series, ty.addStat gots.series stat = (series, none) ∧
        wc.addWithOffset ty cfg name stat offset tNow =
          ({ wc with
              cache := wc.cache.insert name.uniqueId
                { gots with series := series, offset := laterOffset gots.offset offset }
              curSize := wc.curSize + (ty.len series - ty.len gots.series) }, [], none)) := by
  rw [addWithOffset, if_neg (by simp [accepting])]
  by_cases full : cfg.maxKeys < wc.cache.keys.length
  · rw [if_pos full]
    exact .inl ⟨_, rfl⟩
  · rw [if_neg full]
    rcases found : wc.cache.lookup name.uniqueId with _ | gots
    · exact .inr (.inl ⟨rfl, rfl⟩)
    · dsimp only
      by_cases big : cfg.maxBytes < ty.len gots.series
      · rw [if_pos big]
        by_cases overflows : cfg.overflows
        · rw [if_pos overflows]
          exact .inr (.inr ⟨gots, rfl, .inl rfl⟩)
        · rw [if_neg overflows]
          exact .inl ⟨_, rfl⟩
      · rw [if_neg big]
        rcases added : ty.addStat gots.series stat with ⟨series, _ | e⟩
        · exact .inr (.inr ⟨gots, rfl, .inr (.inr ⟨series, added, rfl⟩)⟩)
        · exact .inr (.inr ⟨gots, rfl, .inr (.inl ⟨series, e, added, rfl⟩)⟩)

end CacherSingle

/-! ### The goroutines around the cache -/

/-- `sort.Sort`, of stats by their time and of queue items by their count. -/
structure Sorts where
  stats : List Point → List Point
  queue : List CacheQueueItem → List Nat → List Nat
  stats_perm : ∀ l, (stats l).Perm l

structure System (S : Type) where
  wc : CacherSingle S
  queue : List Nat
  items : List CacheQueueItem
  pool : List Nat
  /-- The items that a pop has taken from the queue and not yet looked up. -/
  looking : List Nat
  /-- Those it did not find and has not yet deleted. -/
  missing : List Nat
  /-- The names that `GetNextMetric` returned. -/
  named : List StatName
  /-- The queues that are sorted and not yet set. -/
  newQueues : List (List Nat)

inductive Action where
  | addWithOffset (name : StatName) (stat : Point) (offset : Option OffsetInSeries)
      (tNow : BitVec 32)
  | dequeue
  | lookup (i : Nat)
  | delete (i : Nat)
  | popSeries (i : Nat)
  | getAnyStat (uid : StatId)
  | readCache (order : List (StatId × Option Nat))
  | setQueue (i : Nat) (reversed : Bool)
  | pushExpired (tNow : BitVec 32) (order : List StatId)
  | stopAccepting

inductive Outcome (S : Type) where
  | added (sent : List (TotalTimeSeries S)) (err : Option SeriesError)
  | popped (series : Option (StatName × S))
  | stats (slice : List Point)
  | sent (series : List (TotalTimeSeries S))
  | done

/-- `getCacheQueueItem`: some item of the pool, or a new one. -/
def getCacheQueueItem (items : List CacheQueueItem) (pool : List Nat) (item : CacheQueueItem) :
    Option Nat → Option (List CacheQueueItem × List Nat × Nat)
  | none => some (items ++ [item], pool, items.length)
  | some ref => if ref ∈ pool then some (items.set ref item, pool.erase ref, ref) else none

section Step

variable {S : Type} (ty : SeriesType S) (cfg : Config) (sorts : Sorts)

/-- One queue item for each entry, in the order of iteration. -/
def newQueue (cache : Map StatId (CacheItem S)) :
    List (StatId × Option Nat) → List CacheQueueItem → List Nat →
    Option (List CacheQueueItem × List Nat × List Nat)
  | [], items, pool => some (items, pool, [])
  | (uid, reused) :: order, items, pool => do
    let values ← cache.lookup uid
    let (items, pool, ref) ← getCacheQueueItem items pool
      ⟨uid, ty.count values.series, ty.len values.series⟩ reused
    let (items, pool, refs) ← newQueue cache order items pool
    return (items, pool, ref :: refs)

def step (s : System S) : Action → Option (System S × Outcome S)
  | .addWithOffset name stat offset tNow =>
    let r := s.wc.addWithOffset ty cfg name stat offset tNow
    some ({ s with wc := r.1 }, .added r.2.1 r.2.2)
  | .dequeue =>
    match s.queue.getLast? with
    | none => some (s, .done)
    | some ref => some ({ s with queue := s.queue.dropLast, looking := s.looking ++ [ref] }, .done)
  | .lookup i => do
    let ref ← s.looking[i]?
    let item ← s.items[ref]?
    let s := { s with looking := s.looking.eraseIdx i }
    match s.wc.cache.lookup item.metric with
    | some v => return ({ s with named := s.named ++ [v.name] }, .done)
    | none => return ({ s with missing := s.missing ++ [ref] }, .done)
  | .delete i => do
    let ref ← s.missing[i]?
    let item ← s.items[ref]?
    return ({ s with missing := s.missing.eraseIdx i
                     wc := { s.wc with cache := s.wc.cache.erase item.metric } }, .done)
  | .popSeries i => do
    let metric ← s.named[i]?
    let r := s.wc.popSeries ty metric
    return ({ s with named := s.named.eraseIdx i, wc := r.1 }, .popped r.2)
  | .getAnyStat uid =>
    if s.wc.cache.keys = [] then some (s, .stats [])
    else do
      let stats ← s.wc.cache.lookup uid
      return ({ s with wc := s.wc.drop ty uid stats },
        .stats (getStatsStream sorts.stats (ty.points stats.series)))
  | .readCache order =>
    if !s.wc.accept then some (s, .done)
    else if (order.map Prod.fst).isPerm s.wc.cache.keys then do
      -- the items of the old queue are put back while the queue keeps them
      let (items, pool, refs) ← newQueue ty s.wc.cache order s.items (s.pool ++ s.queue)
      return ({ s with items := items, pool := pool
                       newQueues := s.newQueues ++ [sorts.queue items refs] }, .done)
    else none
  | .setQueue i reversed => do
    let refs ← s.newQueues[i]?
    return ({ s with newQueues := s.newQueues.eraseIdx i
                     queue := if reversed then refs.reverse else refs }, .done)
  | .pushExpired tNow order =>
    if cfg.overflows && order.isPerm s.wc.cache.keys then
      let r := CacherSingle.pushExpired ty cfg tNow order 0 s.wc
      some ({ s with wc := r.1 }, .sent r.2)
    else none
  | .stopAccepting => some ({ s with wc := { s.wc with accept := false } }, .done)

/-- `NewSingleCacher`. -/
def start : System S := ⟨⟨∅, 0, true⟩, [], [], [], [], [], [], []⟩

end Step

end CacheSingle
