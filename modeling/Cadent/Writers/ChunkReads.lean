import Cadent.Schemas.TimeGrid
import Cadent.Writers.ChunkPartition
import Cadent.Writers.StatsStream

/-!
# Reading from the chunk cache

`Get` walks the ring of older chunks and then the current one, and so does
`GetAsRawRenderItem`. The second looks for chunks that are not there, the first locks
them and panics: a cache has no current chunk until its first addition or rotation, and
the ring starts out empty. Where every place is filled, both return what the chunks hold.
A series is read through its iterator, with `fuel` bounding the calls of `Next`; `value`
is the stat of a point, its floats read as exact numbers. Tags and the aggregation
function of an item are left out.
-/

namespace ChunkReads

open Cache CacheChunk ChunkPartition Metrics Registry Runs StatsStream TimeSeries
open Binary64 (IntConversion)

variable {α : Type}

/-! ### The readers -/

/-- The values that `Next` leads to, and `Error` after the last one. -/
def drain [IntConversion] : Nat → Iter → List Point × Option SeriesError
  | 0, it => ([], it.error)
  | fuel + 1, it =>
    match it.next with
    | (false, it) => ([], it.error)
    | (true, it) =>
      let rest := drain fuel it
      (it.values.toList ++ rest.1, rest.2)

/-- What `getStatsStream` sees of a series. -/
def read [IntConversion] (value : Point → StatRepr α) (fuel : Nat) (ts : Series) :
    Except SeriesError (Reading α) :=
  ts.iter.map fun it => ⟨(drain fuel it).1.map value, (drain fuel it).2⟩

/-- A stat as a data point, its time cut to `uint32` seconds. -/
def rawPoint (pt : StatRepr α) : RawDataPoint Int α :=
  ⟨BitVec.ofInt 32 (seconds pt.time), some pt.sum, some pt.min, some pt.max, some pt.last, pt.count⟩

/-- `stepT` after the loop: the first difference to the first time that is not zero. -/
def stepLoop : BitVec 32 → BitVec 32 → List (BitVec 32) → BitVec 32
  | _, stepT, [] => stepT
  | fT, stepT, t :: ts =>
    let fT := if fT = 0#32 then t else fT
    stepLoop fT (if stepT = 0#32 then t - fT else stepT) ts

/-- The item of a stream, unless it is empty. -/
def rawItem (data : List (StatRepr α)) : Option (RawRenderItem Int α) :=
  match data.head?, data.getLast? with
  | some first, some last =>
    some {
      start := (rawPoint first).time
      «end» := (rawPoint last).time
      realStart := (rawPoint first).time
      realEnd := (rawPoint last).time
      step := stepLoop 0#32 0#32 (data.map fun pt => (rawPoint pt).time)
      data := data.map rawPoint }
  | _, _ => none

/-- `RawRenderItem.Merge`. -/
def mergeItem (sort : List (RawDataPoint Int α) → List (RawDataPoint Int α))
    (r m : RawRenderItem Int α) : RawRenderItem Int α :=
  { r with
    start := if m.start < r.start then m.start else r.start
    «end» := if r.end < m.end then m.end else r.end
    realStart := if m.realStart < r.realStart then m.realStart else r.realStart
    realEnd := if r.realEnd < m.realEnd then m.realEnd else r.realEnd
    data := sort (r.data ++ m.data) }

/-- The first item found is taken as it is, later ones are merged into it. -/
def addItem (sort : List (RawDataPoint Int α) → List (RawDataPoint Int α)) :
    Option (RawRenderItem Int α) → Option (RawRenderItem Int α) → Option (RawRenderItem Int α)
  | rawd, none => rawd
  | none, some mets => some mets
  | some rawd, some mets => some (mergeItem sort rawd mets)

section Readers

variable [IntConversion] [Add α] [LT α] [DecidableLT α]
variable (value : Point → StatRepr α) (fuel : Nat) (sorting : TimeSort)
  (sort : List (RawDataPoint Int α) → List (RawDataPoint Int α)) (heap : List Item)

/-- The `Get` of a chunk. -/
def chunkGet (c : CacheChunkItem) (name : StatName) :
    Option (List (StatRepr α)) × Option SeriesError :=
  match c.ts.lookup name.uniqueId with
  | none => (none, none)
  | some ref =>
    match heap[ref]? with
    | none => (none, some .panic)
    | some item => chunkStatsStream sorting name (read value fuel item.series)

/-- The `GetAsRawRenderItem` of a chunk, which may be nil. -/
def chunkRawItem (c : Option CacheChunkItem) (name : StatName) :
    Option (RawRenderItem Int α) × Option SeriesError :=
  match c.bind fun c => c.ts.lookup name.uniqueId with
  | none => (none, none)
  | some ref =>
    match heap[ref]? with
    | none => (none, some .panic)
    | some item =>
      match chunkStatsStream sorting item.name (read value fuel item.series) with
      | (_, some e) => (none, some e)
      | (data, none) => (rawItem (data.getD []), none)

/-- The loop of `Get`; `none` is the panic on the lock of a nil chunk. -/
def getLoop (name : StatName) : List (Option CacheChunkItem) → List (StatRepr α) →
    Option (List (StatRepr α))
  | [], slice => some slice
  | none :: _, _ => none
  | some c :: rest, slice =>
    match chunkGet value fuel sorting heap c name with
    | (some repers, none) => getLoop name rest (slice ++ repers)
    | _ => getLoop name rest slice

def get (wc : CacherChunk) (name : StatName) : Option (List (StatRepr α)) := do
  let slice ← getLoop value fuel sorting wc.heap name wc.chunks []
  let c ← wc.curChunk
  return slice ++ (chunkGet value fuel sorting wc.heap c name).1.getD []

/-- The loop of `GetAsRawRenderItem`. -/
def rawLoop (name : StatName) : List (Option CacheChunkItem) → Option (RawRenderItem Int α) →
    Option (RawRenderItem Int α)
  | [], rawd => rawd
  | c :: rest, rawd =>
    match chunkRawItem value fuel sorting heap c name with
    | (mets, none) => rawLoop name rest (addItem sort rawd mets)
    | (_, some _) => rawLoop name rest rawd

def getAsRawRenderItem (wc : CacherChunk) (name : StatName) : Option (RawRenderItem Int α) :=
  match wc.curChunk with
  | none => none
  | some c =>
    addItem sort (rawLoop value fuel sorting sort wc.heap name wc.chunks none)
      (chunkRawItem value fuel sorting wc.heap (some c) name).1

end Readers

/-! ### What they should return -/

/-- Nothing is missing that `Get` relies on. -/
def Ready (wc : CacherChunk) : Prop := (∀ c ∈ wc.chunks, c.isSome) ∧ wc.curChunk.isSome

instance (wc : CacherChunk) : Decidable (Ready wc) :=
  inferInstanceAs (Decidable ((∀ c ∈ wc.chunks, c.isSome) ∧ wc.curChunk.isSome))

/-- The retained chunks in the order of their rotation, then the current one. -/
def heldChunks (wc : CacherChunk) : List CacheChunkItem :=
  wc.chunks.filterMap id ++ wc.curChunk.toList

/-- The accepted points that a chunk has of a metric. -/
def pointsIn (as : List Accepted) (c : CacheChunkItem) (uid : StatId) : List Point :=
  statsOf uid (acceptedIn as c.sequence)

/-- Every held series yields the points it was built from, each as `kept` says its format
keeps it. -/
def Decoded [IntConversion] (kept : Point → Point) (as : List Accepted) (wc : CacherChunk) : Prop :=
  ∀ c ∈ heldChunks wc, ∀ uid series, Built c.seriesType (pointsIn as c uid) series →
    Drains series.iter ((pointsIn as c uid).map kept)

/-- Accepted points of one metric that are in order of time are in order of their seconds. -/
def Orderly (stat : Point → StatRepr α) (as : List Accepted) : Prop :=
  ∀ a ∈ as, ∀ b ∈ as, a.uid = b.uid → (stat a.stat).time.toInt ≤ (stat b.stat).time.toInt →
    (rawPoint (stat a.stat)).time.toNat ≤ (rawPoint (stat b.stat)).time.toNat

section Exact

variable [AddCommGroup α] [LinearOrder α]

/-- Chunk by chunk the accepted points of a name, neighbours at one time merged. -/
def expected (stat : Point → StatRepr α) (sorting : TimeSort) (as : List Accepted)
    (chunks : List CacheChunkItem) (name : StatName) : List (StatRepr α) :=
  chunks.flatMap fun c =>
    (sorting.sort (merged ((pointsIn as c name.uniqueId).map stat))).map (·.named name)

/-- An item has these stats as its points, in order of time; no item stands for no stats. -/
structure ItemOf (stats : List (StatRepr α)) (item : Option (RawRenderItem Int α)) : Prop where
  none : item = none ↔ stats = []
  points : ∀ r ∈ item, r.data.Perm (stats.map rawPoint)
  sorted : ∀ r ∈ item, r.data.Pairwise fun p q => p.time.toNat ≤ q.time.toNat
  count : ∀ r ∈ item, (r.data.map (·.count)).sum = (stats.map (·.count)).sum
  sum : ∀ r ∈ item, (r.data.map fun p => p.sum.getD 0).sum = (stats.map (·.sum)).sum

/-- Both readers return every accepted point that is still held. -/
def ReadsAll [IntConversion] (value : Point → StatRepr α) (kept : Point → Point) (fuel : Nat)
    (sorting : TimeSort) (sort : List (RawDataPoint Int α) → List (RawDataPoint Int α))
    (as : List Accepted) (wc : CacherChunk) : Prop :=
  ∀ name, ∃ out, out = expected (value ∘ kept) sorting as (heldChunks wc) name ∧
    get value fuel sorting wc name = some out ∧
    ItemOf out (getAsRawRenderItem value fuel sorting sort wc name)

end Exact

/-! ### Reading a series -/

theorem drain_of_yields [IntConversion] {it it' : Iter} {vs : List Point}
    (yields : Yields it vs it') {fuel : Nat} (enough : vs.length < fuel) :
    drain fuel it = (vs, it'.error) := by
  induction vs generalizing it fuel with
  | nil =>
    obtain ⟨fuel, rfl⟩ := Nat.exists_eq_add_of_lt enough
    have hnext : it.next = (false, it') := yields
    rw [List.length_nil, Nat.zero_add, drain, hnext]
  | cons v vs ih =>
    obtain ⟨it1, hnext, hvalue, hrest⟩ := yields
    obtain ⟨fuel, rfl⟩ : ∃ n, fuel = n + 1 := ⟨fuel - 1, by omega⟩
    have hnext' : it.next = (true, it1) := hnext
    have hvalue' : it1.values = some v := hvalue
    have htail : drain fuel it1 = (vs, it'.error) := by
      apply ih hrest
      simpa using enough
    rw [drain, hnext']
    dsimp only
    rw [hvalue', htail]
    rfl

theorem read_of_drains [IntConversion] {ts : Series} {vs : List Point} (drains : Drains ts.iter vs)
    {fuel : Nat} (enough : vs.length < fuel) (value : Point → StatRepr α) :
    read value fuel ts = .ok ⟨vs.map value, none⟩ := by
  obtain ⟨it, it', opened, yields, clean⟩ := drains
  have hclean : it'.error = none := clean
  rw [read, opened]
  change Except.ok (Reading.mk _ _) = _
  rw [drain_of_yields yields enough, hclean]

/-! ### One chunk -/

theorem rawItem_none_iff (data : List (StatRepr α)) : rawItem data = none ↔ data = [] := by
  cases data with
  | nil => exact ⟨fun _ => rfl, fun _ => rfl⟩
  | cons st rest => simp [rawItem, List.getLast?_cons]

theorem rawItem_data {data : List (StatRepr α)} {r : RawRenderItem Int α}
    (item : rawItem data = some r) : r.data = data.map rawPoint := by
  unfold rawItem at item
  split at item
  · rw [← Option.some.inj item]
  · cases item

/-- A chunk holds what was accepted for it, and its series yield it. -/
structure ReadsBack [IntConversion] (kept : Point → Point) (as : List Accepted) (heap : List Item)
    (c : CacheChunkItem) : Prop where
  filled : Filled heap as c
  decoded : ∀ uid series, Built c.seriesType (pointsIn as c uid) series →
    Drains series.iter ((pointsIn as c uid).map kept)

section Chunks

variable (value : Point → StatRepr α) {kept : Point → Point} {fuel : Nat} (sorting : TimeSort)
  {sort : List (RawDataPoint Int α) → List (RawDataPoint Int α)} {as : List Accepted}
  {heap : List Item}
  {c : CacheChunkItem} {cs : List CacheChunkItem}

/-- A chunk has no item for a name it has no points of, and otherwise an item that reads
as those points. -/
theorem lookup_cases [IntConversion] (back : ReadsBack kept as heap c) (enough : as.length < fuel)
    (uid : StatId) :
    c.ts.lookup uid = none ∧ pointsIn as c uid = [] ∨
    ∃ ref item, c.ts.lookup uid = some ref ∧ heap[ref]? = some item ∧
      read value fuel item.series = .ok ⟨(pointsIn as c uid).map (value ∘ kept), none⟩ := by
  have hholds : ChunkPartition.Holds heap c uid (pointsIn as c uid) := back.filled.points uid
  have hfew : (pointsIn as c uid).length ≤ as.length :=
    (List.length_filterMap_le _ _).trans (List.length_filter_le _ _)
  unfold ChunkPartition.Holds at hholds
  cases found : c.ts.lookup uid with
  | none =>
    rw [found] at hholds
    exact .inl ⟨rfl, hholds⟩
  | some ref =>
    rw [found] at hholds
    obtain ⟨item, here, built⟩ := hholds
    refine .inr ⟨ref, item, rfl, here, ?_⟩
    rw [← List.map_map]
    apply read_of_drains (back.decoded uid item.series built)
    rw [List.length_map]
    omega

variable [AddCommGroup α] [LinearOrder α]

theorem expected_cons (stat : Point → StatRepr α) (c : CacheChunkItem) (name : StatName) :
    expected stat sorting as (c :: cs) name =
      expected stat sorting as [c] name ++ expected stat sorting as cs name := by
  rw [expected, expected, expected, List.flatMap_cons, List.flatMap_singleton]

theorem expected_empty {stat : Point → StatRepr α} {name : StatName}
    (empty : pointsIn as c name.uniqueId = []) : expected stat sorting as [c] name = [] := by
  have hsort : sorting.sort (merged ([] : List (StatRepr α))) = [] :=
    List.perm_nil.mp (sort_perm sorting _)
  rw [expected, List.flatMap_singleton, empty, List.map_nil, hsort, List.map_nil]

theorem chunkGet_spec [IntConversion] (back : ReadsBack kept as heap c) (enough : as.length < fuel)
    (name : StatName) :
    ∃ found, chunkGet value fuel sorting heap c name = (found, none) ∧
      found.getD [] = expected (value ∘ kept) sorting as [c] name := by
  unfold chunkGet
  rcases lookup_cases value back enough name.uniqueId with
    ⟨hnone, empty⟩ | ⟨ref, item, found, here, hread⟩
  · exact ⟨none, by rw [hnone], (expected_empty sorting empty).symm⟩
  · simp only [found, here, hread, chunkStatsStream_eq]
    exact ⟨_, rfl, (List.flatMap_singleton _ _).symm⟩

theorem expected_sorted {stat : Point → StatRepr α} (orderly : Orderly stat as) (name : StatName) :
    ((expected stat sorting as [c] name).map rawPoint).Pairwise
      fun p q => p.time.toNat ≤ q.time.toNat := by
  have hfrom : ∀ st ∈ sorting.sort (merged ((pointsIn as c name.uniqueId).map stat)),
      ∃ a ∈ as, a.uid = name.uniqueId ∧ (stat a.stat).time = st.time := by
    intro st hst
    obtain ⟨su, hsu, htime⟩ := time_of_mem_merged ((sort_perm sorting _).mem_iff.mp hst)
    obtain ⟨p, hp, rfl⟩ := List.mem_map.mp hsu
    obtain ⟨a, ha, hstat⟩ := List.mem_filterMap.mp hp
    split at hstat
    · obtain rfl := Option.some.inj hstat
      exact ⟨a, (List.mem_filter.mp ha).1, ‹_›, htime⟩
    · cases hstat
  rw [expected, List.flatMap_singleton, List.map_map, List.pairwise_map]
  refine (sort_sorted sorting _).imp_of_mem fun {st su} hst hsu ordered => ?_
  obtain ⟨a, ha, hauid, hatime⟩ := hfrom st hst
  obtain ⟨b, hb, hbuid, hbtime⟩ := hfrom su hsu
  have hsecs := orderly a ha b hb (hauid.trans hbuid.symm)
  simp only [rawPoint, hatime, hbtime] at hsecs
  exact hsecs ordered

omit [LinearOrder α] in
theorem itemOf_of_perm {stats : List (StatRepr α)} {item : Option (RawRenderItem Int α)}
    (none : item = none ↔ stats = []) (points : ∀ r ∈ item, r.data.Perm (stats.map rawPoint))
    (sorted : ∀ r ∈ item, r.data.Pairwise fun p q => p.time.toNat ≤ q.time.toNat) :
    ItemOf stats item := by
  refine ⟨none, points, sorted, ?_, ?_⟩
  · intro r hr
    rw [((points r hr).map _).sum_eq, List.map_map]
    rfl
  · intro r hr
    rw [((points r hr).map _).sum_eq, List.map_map]
    rfl

theorem chunkRawItem_spec [IntConversion] (back : ReadsBack kept as heap c)
    (enough : as.length < fuel) (orderly : Orderly (value ∘ kept) as) (name : StatName) :
    ∃ mets, chunkRawItem value fuel sorting heap (some c) name = (mets, none) ∧
      ItemOf (expected (value ∘ kept) sorting as [c] name) mets := by
  unfold chunkRawItem
  rw [Option.bind_some]
  rcases lookup_cases value back enough name.uniqueId with
    ⟨hnone, empty⟩ | ⟨ref, item, found, here, hread⟩
  · refine ⟨none, by rw [hnone], ?_⟩
    rw [expected_empty sorting empty]
    exact itemOf_of_perm (iff_of_true rfl rfl) (fun r hr => by cases hr) fun r hr => by cases hr
  · simp only [found, here, hread, chunkStatsStream_eq, Option.getD_some]
    refine ⟨_, rfl, ?_⟩
    have hdata : ∀ r ∈ rawItem ((sorting.sort (merged ((pointsIn as c name.uniqueId).map
        (value ∘ kept)))).map (·.named item.name)),
        r.data = (expected (value ∘ kept) sorting as [c] name).map rawPoint := by
      intro r hr
      -- the name of the stats is the item's, but a data point has none
      rw [rawItem_data hr, expected, List.flatMap_singleton, List.map_map, List.map_map]
      rfl
    apply itemOf_of_perm
    · rw [rawItem_none_iff, expected, List.flatMap_singleton, List.map_eq_nil_iff,
        List.map_eq_nil_iff]
    · intro r hr
      rw [hdata r hr]
    · intro r hr
      rw [hdata r hr]
      exact expected_sorted sorting orderly name

/-! ### The loops -/

theorem getLoop_spec [IntConversion] (back : ∀ c ∈ cs, ReadsBack kept as heap c)
    (enough : as.length < fuel) (name : StatName) (slice : List (StatRepr α)) :
    getLoop value fuel sorting heap name (cs.map some) slice =
      some (slice ++ expected (value ∘ kept) sorting as cs name) := by
  induction cs generalizing slice with
  | nil => exact congrArg some (List.append_nil slice).symm
  | cons c cs ih =>
    rw [List.forall_mem_cons] at back
    obtain ⟨found, hget, hfound⟩ := chunkGet_spec value sorting back.1
      enough name
    rw [List.map_cons, getLoop, hget, expected_cons, ← hfound]
    cases found with
    | none => exact ih back.2 slice
    | some repers =>
      rw [← List.append_assoc]
      exact ih back.2 (slice ++ repers)

theorem getLoop_some [IntConversion] {chunks : List (Option CacheChunkItem)} {name : StatName}
    {slice out : List (StatRepr α)}
    (ok : getLoop value fuel sorting heap name chunks slice = some out) :
    ∀ c ∈ chunks, c.isSome := by
  induction chunks generalizing slice with
  | nil =>
    intro c hc
    cases hc
  | cons c chunks ih =>
    cases c with
    | none => cases ok
    | some c =>
      rw [getLoop] at ok
      rw [List.forall_mem_cons]
      refine ⟨rfl, ?_⟩
      split at ok
      · exact ih ok
      · exact ih ok

omit [LinearOrder α] in
theorem addItem_spec (sorts : SortsByTime sort) {l m : List (StatRepr α)}
    {rawd mets : Option (RawRenderItem Int α)} (left : ItemOf l rawd) (right : ItemOf m mets) :
    ItemOf (l ++ m) (addItem sort rawd mets) := by
  cases mets with
  | none =>
    rw [right.none.mp rfl, List.append_nil]
    cases rawd <;> exact left
  | some mets =>
    cases rawd with
    | none =>
      rw [left.none.mp rfl]
      exact right
    | some rawd =>
      have hm : m ≠ [] := fun empty => by cases right.none.mpr empty
      apply itemOf_of_perm
      · simp [addItem, hm]
      · rintro r ⟨⟩
        rw [List.map_append]
        exact (sorts.perm _).trans ((left.points rawd rfl).append (right.points mets rfl))
      · rintro r ⟨⟩
        exact sorts.sorted _

theorem rawLoop_spec [IntConversion] (sorts : SortsByTime sort)
    (back : ∀ c ∈ cs, ReadsBack kept as heap c) (enough : as.length < fuel)
    (orderly : Orderly (value ∘ kept) as) (name : StatName) {l : List (StatRepr α)}
    {rawd : Option (RawRenderItem Int α)} (sofar : ItemOf l rawd) :
    ItemOf (l ++ expected (value ∘ kept) sorting as cs name)
      (rawLoop value fuel sorting sort heap name (cs.map some) rawd) := by
  induction cs generalizing l rawd with
  | nil =>
    rw [show l ++ expected (value ∘ kept) sorting as [] name = l from List.append_nil l]
    exact sofar
  | cons c cs ih =>
    rw [List.forall_mem_cons] at back
    obtain ⟨mets, hraw, hitem⟩ := chunkRawItem_spec value sorting back.1 enough orderly name
    rw [List.map_cons, rawLoop, hraw, expected_cons, ← List.append_assoc]
    exact ih back.2 (addItem_spec sorts sofar hitem)

/-! ### The whole cache -/

/-- Of a cache that was built by additions and rotations, both readers return all that is
held exactly when no chunk is missing. -/
theorem readsAll_iff [IntConversion] {slots : Nat} {seriesType : String} {resumed : Option Int}
    {h : History} {s : System}
    (run : Run step anyStep (start (CacherChunk.start slots seriesType resumed)) h s)
    (decoded : Decoded kept (accepted h) s.cacher) (orderly : Orderly (value ∘ kept) (accepted h))
    (enough : (accepted h).length < fuel) (sorts : SortsByTime sort) :
    ReadsAll value kept fuel sorting sort (accepted h) s.cacher ↔ Ready s.cacher := by
  have inv := inv_of_run run
  constructor
  · intro reads
    obtain ⟨out, -, hget, -⟩ := reads load
    obtain ⟨slice, hloop, hcur⟩ := Option.bind_eq_some_iff.mp hget
    obtain ⟨c, cur, -⟩ := Option.bind_eq_some_iff.mp hcur
    exact ⟨getLoop_some value sorting hloop, Option.isSome_iff_exists.mpr ⟨c, cur⟩⟩
  · rintro ⟨ring, current⟩ name
    obtain ⟨c, cur⟩ := Option.isSome_iff_exists.mp current
    have hring : s.cacher.chunks = (s.cacher.chunks.filterMap id).map some := by
      rw [List.map_filterMap]
      refine (List.filterMap_some.symm.trans (List.filterMap_congr ?_))
      intro c hc
      obtain ⟨c', rfl⟩ := Option.isSome_iff_exists.mp (ring c hc)
      rfl
    have hback : ∀ c' ∈ s.cacher.chunks.filterMap id,
        ReadsBack kept (accepted h) s.cacher.heap c' := by
      intro c' hc'
      obtain ⟨_, hmem, rfl⟩ := List.mem_filterMap.mp hc'
      exact ⟨(inv.slices _ (inv.ring c' hmem)).2, decoded c' (List.mem_append_left _ hc')⟩
    have hlast : ReadsBack kept (accepted h) s.cacher.heap c :=
      ⟨(inv.current c cur).2,
        decoded c (List.mem_append_right _ (Option.mem_toList.mpr cur))⟩
    have hheld : expected (value ∘ kept) sorting (accepted h) (heldChunks s.cacher) name =
        expected (value ∘ kept) sorting (accepted h) (s.cacher.chunks.filterMap id) name ++
          expected (value ∘ kept) sorting (accepted h) [c] name := by
      rw [heldChunks, cur, expected, List.flatMap_append]
      rfl
    refine ⟨_, rfl, ?_, ?_⟩
    · obtain ⟨found, hfound, hout⟩ := chunkGet_spec value sorting hlast enough name
      rw [get, hring, getLoop_spec value sorting hback enough, cur, hheld]
      change some (([] ++ _) ++ (chunkGet value fuel sorting s.cacher.heap c name).1.getD []) = _
      rw [hfound, hout, List.nil_append]
    · obtain ⟨mets, hmets, hitem⟩ := chunkRawItem_spec value sorting hlast enough orderly name
      have hempty : ItemOf ([] : List (StatRepr α)) none :=
        itemOf_of_perm (iff_of_true rfl rfl) (fun r hr => by cases hr) fun r hr => by cases hr
      have hloop := rawLoop_spec value sorting sorts hback enough orderly name hempty
      rw [← hring, List.nil_append] at hloop
      rw [getAsRawRenderItem, cur, hheld]
      dsimp only
      rw [hmets]
      exact addItem_spec sorts hloop hitem

end Chunks

/-! ### Caches of list series -/

/-- A cache whose chunks hold list series reads every one of them back. -/
theorem decoded_listed [IntConversion] {seriesType : String} (known : seriesType ∈ listTypes)
    {wc : CacherChunk} (typed : ∀ c ∈ heldChunks wc, c.seriesType = seriesType)
    (as : List Accepted) : Decoded (keptBy seriesType) as wc := by
  intro c hc uid series built
  exact built_drains known (typed c hc ▸ built)

/-- The count of a point as its only number. -/
def counted (p : Point) : StatRepr Int := ⟨none, p.t, 0, 0, 0, 0, p.count.toInt⟩

/-- The six places of the ring are filled by six rotations, two of them with a point. -/
theorem readsAll_iff_rotated :
    ∃ h s, Run step anyStep (start (CacherChunk.start 6 "json" (some 3))) h s ∧
      (accepted h).length = 3 ∧
      ReadsAll counted (keptBy "json") 4 timeSort byTime (accepted h) s.cacher := by
  have run := run_of_exec step anyStep (start (CacherChunk.start 6 "json" (some 3)))
    [.addWithOffset load (sample 5) none 1#32, .cycleChunks,
     .addWithOffset load (sample 6) none 2#32, .cycleChunks, .cycleChunks, .cycleChunks,
     .cycleChunks, .cycleChunks, .addWithOffset load (sample 7) none 3#32] (by decide)
  refine ⟨_, _, run, by decide,
    (readsAll_iff counted timeSort run ?_ ?_ (by decide) sortsByTime_byTime).mpr
    ?_⟩
  · exact decoded_listed (by decide) (by decide) _
  · unfold Orderly
    decide
  · decide

/-- A fresh cache: one point is in it, and the ring has no chunk yet. -/
theorem get_panics_before_rotation :
    ∃ h s, Run step anyStep (start (CacherChunk.start 6 "json" none)) h s ∧
      (accepted h).length = 1 ∧ get counted 3 timeSort s.cacher load = none ∧
      ¬ ReadsAll counted (keptBy "json") 3 timeSort byTime (accepted h) s.cacher := by
  have run := run_of_exec step anyStep (start (CacherChunk.start 6 "json" none))
    [.addWithOffset load (sample 5) none 1#32] (by decide)
  refine ⟨_, _, run, by decide, by decide, ?_⟩
  intro reads
  obtain ⟨out, -, hget, -⟩ := reads load
  cases hget

end ChunkReads
