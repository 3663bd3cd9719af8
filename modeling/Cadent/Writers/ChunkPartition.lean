import Cadent.Lib.Consume
import Cadent.Lib.Runs
import Cadent.Series.Decoding
import Cadent.Writers.CacheChunk

/-!
# The chunks partition what the cache accepts

Additions, back-filled points and rotations in any interleaving. A back-filled point
waits in a channel; the goroutine that takes it out makes sure of a chunk in one critical
section and fills the chunk in the next, so a rotation may fall between the two. A chunk
holds a point when the series it refers to is the one built from exactly those points.
`Add` is `AddWithOffset` without an offset, and `ForceChunkWrite` is the rotation of
`cycleChunks`, whose slice it sends even when no metric is in it.
-/

namespace ChunkPartition

open Cache CacheChunk Registry Runs TimeSeries
open Binary64 (IntConversion)

structure AdderMessage where
  name : StatName
  stat : Point
  uid : StatId

structure System where
  cacher : CacherChunk
  addChunkChan : List AdderMessage
  /-- The message `addStatToChunk` has taken and made sure of a chunk for. -/
  adding : Option AdderMessage

inductive Action where
  | addWithOffset (name : StatName) (stat : Point) (offset : Option OffsetInSeries)
      (now : BitVec 32)
  | backFill (name : StatName) (stat : Point) (sequence : Int)
  | receive
  | addStat (now : BitVec 32)
  | cycleChunks
  | forceChunkWrite

inductive Outcome where
  | returned (err : Option SeriesError)
  | done
  | rotated (slice : Option CacheChunkSlice)

def rotate (s : System) : Option (System × Outcome) :=
  match s.cacher.cycleInternalChunks with
  | some (cacher, out) => some ({ s with cacher := cacher }, .rotated out)
  | none => none

def step (s : System) : Action → Option (System × Outcome)
  | .addWithOffset name stat offset now =>
    let r := s.cacher.addWithOffset name stat offset now
    some ({ s with cacher := r.1 }, .returned r.2)
  | .backFill name stat _ =>
    if s.addChunkChan.length < 32 then
      some ({ s with addChunkChan := s.addChunkChan ++ [⟨name, stat, name.uniqueId⟩] }, .done)
    else none
  | .receive =>
    match s.adding, s.addChunkChan with
    | none, m :: rest =>
      some ({ cacher := s.cacher.ensureChunk, addChunkChan := rest, adding := some m }, .done)
    | _, _ => none
  | .addStat now =>
    match s.adding with
    | some m =>
      let r := s.cacher.addToChunk m.name m.stat none now
      some ({ s with cacher := r.1, adding := none }, .returned r.2)
    | none => none
  | .cycleChunks => rotate s
  | .forceChunkWrite => rotate s

def start (cacher : CacherChunk) : System := ⟨cacher, [], none⟩

/-! ### What was accepted and emitted -/

abbrev History := List (Taken System Action Outcome)

/-- The point of an addition without an error, with the sequence that was current then. -/
def acceptedBy (e : Taken System Action Outcome) : Option Accepted :=
  match e.act, e.out, e.pre.adding with
  | .addWithOffset name stat _ _, .returned none, _ =>
    some ⟨e.pre.cacher.curSequenceId, name.uniqueId, stat⟩
  | .addStat _, .returned none, some m =>
    some ⟨e.pre.cacher.curSequenceId, m.name.uniqueId, m.stat⟩
  | _, _, _ => none

def emittedBy (e : Taken System Action Outcome) : Option CacheChunkSlice :=
  match e.out with
  | .rotated out => out
  | _ => none

def accepted (h : History) : List Accepted := h.filterMap acceptedBy

def emitted (h : History) : List CacheChunkSlice := h.filterMap emittedBy

/-- The points accepted while `seq` was the current sequence. -/
def acceptedIn (as : List Accepted) (seq : Int) : List Accepted :=
  as.filter fun a => a.sequence = seq

/-- The series that adding these points in this order to a new one gives. -/
def Built (seriesType : String) (pts : List Point) (series : Series) : Prop :=
  ∃ first opened, pts.head? = some first ∧ newTimeSeries seriesType first.t none = .ok opened ∧
    opened.addAll (pts.map .stat) = .ok series

/-- A chunk holds exactly these points for an id, in this order. -/
def Holds (heap : List Item) (c : CacheChunkItem) (uid : StatId) (pts : List Point) : Prop :=
  match c.ts.lookup uid with
  | none => pts = []
  | some ref => ∃ item, heap[ref]? = some item ∧ Built c.seriesType pts item.series

/-- A chunk holds what was accepted in its sequence, and counts it. -/
structure Filled (heap : List Item) (as : List Accepted) (c : CacheChunkItem) : Prop where
  points : ∀ uid, Holds heap c uid (statsOf uid (acceptedIn as c.sequence))
  count : c.curCount = (acceptedIn as c.sequence).length

structure Partitioned (as : List Accepted) (es : List CacheChunkSlice) (wc : CacherChunk) :
    Prop where
  current : ∀ c, wc.curChunk = some c → c.sequence = wc.curSequenceId ∧ Filled wc.heap as c
  increasing : es.Pairwise fun e f => e.sequenceId < f.sequenceId
  slices : ∀ e ∈ es, e.slice.sequence = e.sequenceId ∧ Filled wc.heap as e.slice
  ring : ∀ c, some c ∈ wc.chunks → ⟨c, c.sequence⟩ ∈ es
  /-- Either in the current chunk and no slice, or in one slice and not in the chunk. -/
  once : ∀ a ∈ as,
    (a.sequence = wc.curSequenceId ∧ wc.curChunk.isSome ∧ ∀ e ∈ es, e.sequenceId ≠ a.sequence) ∨
    (a.sequence ≠ wc.curSequenceId ∧ ∃! e, e ∈ es ∧ e.sequenceId = a.sequence)

/-! ### The effect of a step on the cache -/

/-- A step leaves the chunks alone, adds a point to the target chunk, or rotates. -/
inductive Effect (wc : CacherChunk) :
    CacherChunk → Option Accepted → Option CacheChunkSlice → Prop
  | kept {wc' : CacherChunk}
      (chunk : wc'.curChunk = wc.curChunk ∨ wc'.curChunk = some wc.target)
      (heap : wc'.heap = wc.heap) (ring : wc'.chunks = wc.chunks)
      (sequence : wc'.curSequenceId = wc.curSequenceId) : Effect wc wc' none none
  | added {wc' : CacherChunk} {name : StatName} {stat : Point} {offset : Option OffsetInSeries}
      {now : BitVec 32} {c : CacheChunkItem}
      (ok : wc.target.addWithOffset wc.heap name stat offset now = .ok (wc'.heap, c))
      (chunk : wc'.curChunk = some c) (ring : wc'.chunks = wc.chunks)
      (sequence : wc'.curSequenceId = wc.curSequenceId) :
      Effect wc wc' (some ⟨wc.curSequenceId, name.uniqueId, stat⟩) none
  | cycled {wc' : CacherChunk} {out : Option CacheChunkSlice}
      (ok : wc.cycleInternalChunks = some (wc', out)) : Effect wc wc' none out

theorem effect_rotate {s s' : System} {a : Action} {b : Outcome}
    (action : a = .cycleChunks ∨ a = .forceChunkWrite) (taken : rotate s = some (s', b)) :
    Effect s.cacher s'.cacher (acceptedBy ⟨s, a, b⟩) (emittedBy ⟨s, a, b⟩) := by
  unfold rotate at taken
  split at taken <;> cases taken
  rcases action with rfl | rfl <;> exact .cycled ‹_›

theorem effect_of_step {s s' : System} {a : Action} {b : Outcome}
    (taken : step s a = some (s', b)) :
    Effect s.cacher s'.cacher (acceptedBy ⟨s, a, b⟩) (emittedBy ⟨s, a, b⟩) := by
  cases a with
  | addWithOffset name stat offset now =>
    simp only [step, Option.some.injEq, Prod.mk.injEq] at taken
    obtain ⟨rfl, rfl⟩ := taken
    rcases s.cacher.addWithOffset_cases name stat offset now with
      ⟨e, same⟩ | ⟨heap, c, ok, same⟩
    · rw [same]
      exact .kept (.inr rfl) rfl rfl rfl
    · rw [same]
      exact .added ok rfl rfl rfl
  | backFill name stat sequence =>
    simp only [step] at taken
    split at taken <;> cases taken
    exact .kept (.inl rfl) rfl rfl rfl
  | receive =>
    simp only [step] at taken
    split at taken <;> cases taken
    dsimp only
    rw [CacherChunk.ensureChunk_eq]
    exact .kept (.inr rfl) rfl rfl rfl
  | addStat now =>
    simp only [step] at taken
    split at taken <;> cases taken
    rename_i m adding
    rcases s.cacher.addToChunk_cases m.name m.stat none now with ⟨e, same⟩ | ⟨heap, c, ok, same⟩
    · simp only [same]
      exact .kept (.inl rfl) rfl rfl rfl
    · simp only [same, acceptedBy, adding]
      exact .added ok rfl rfl rfl
  | cycleChunks => exact effect_rotate (.inl rfl) taken
  | forceChunkWrite => exact effect_rotate (.inr rfl) taken

/-! ### Chunks and the items they refer to -/

theorem built_one {seriesType : String} {opened series : Series} {stat : Point}
    (new : newTimeSeries seriesType stat.t none = .ok opened)
    (added : opened.addStat stat = .ok series) : Built seriesType [stat] series := by
  refine ⟨stat, opened, rfl, new, ?_⟩
  exact (addAll_snoc (show opened.addAll [] = .ok opened from rfl)).trans added

theorem built_snoc {seriesType : String} {series series' : Series} {pts : List Point} {stat : Point}
    (built : Built seriesType pts series) (added : series.addStat stat = .ok series') :
    Built seriesType (pts ++ [stat]) series' := by
  obtain ⟨first, opened, head, new, all⟩ := built
  refine ⟨first, opened, by simp [head], new, ?_⟩
  rw [List.map_append]
  exact (addAll_snoc all).trans added

/-- The types whose series keep a stat for each point. -/
def listTypes : List String := ["json", "repr", "protobuf", "msgpack", "binc", "cbor"]

/-- What a series made by the cache keeps of a point. -/
def keptBy (seriesType : String) (p : Point) : Point :=
  match newTimeSeries seriesType 0#64 none with
  | .ok ts => ts.keeps (.stat p)
  | .error _ => p

theorem newTimeSeries_listed {seriesType : String} (known : seriesType ∈ listTypes)
    {t : BitVec 64} {ts : Series} (new : newTimeSeries seriesType t none = .ok ts) :
    ts.listed = some [] ∧ ∀ p, ts.keeps (.stat p) = keptBy seriesType p := by
  simp only [listTypes, List.mem_cons, List.not_mem_nil, or_false] at known
  rcases known with rfl | rfl | rfl | rfl | rfl | rfl <;> obtain rfl := Except.ok.inj new <;>
    exact ⟨rfl, fun _ => rfl⟩

/-- A built list series gives back the points it was built from, each as its type keeps it. -/
theorem built_drains [IntConversion] {seriesType : String} {series : Series} {pts : List Point}
    (known : seriesType ∈ listTypes) (built : Built seriesType pts series) :
    Drains series.iter (pts.map (keptBy seriesType)) := by
  obtain ⟨first, opened, -, new, all⟩ := built
  obtain ⟨empty, keeps⟩ := newTimeSeries_listed known new
  apply Series.drains_listed
  rw [Series.listed_addAll _ empty all, List.nil_append, List.map_map]
  exact congrArg some (List.map_congr_left fun p _ => keeps p)

/-- Different ids of a chunk refer to different items. -/
def Distinct (c : CacheChunkItem) : Prop :=
  ∀ uid uid' ref, c.ts.lookup uid = some ref → c.ts.lookup uid' = some ref → uid = uid'

/-- Two chunks share no item. -/
def Apart (c d : CacheChunkItem) : Prop :=
  ∀ uid uid' ref, c.ts.lookup uid = some ref → d.ts.lookup uid' ≠ some ref

theorem holds_ref_lt {heap : List Item} {c : CacheChunkItem} {uid : StatId} {pts : List Point}
    {ref : Nat} (holds : Holds heap c uid pts) (found : c.ts.lookup uid = some ref) :
    ref < heap.length := by
  rw [Holds, found] at holds
  obtain ⟨item, here, -⟩ := holds
  exact (List.getElem?_eq_some_iff.mp here).1

section Added

variable {c c' : CacheChunkItem} {heap heap' : List Item} {name : StatName} {stat : Point}
  {offset : Option OffsetInSeries} {now : BitVec 32}

/-- An addition changes the item of its own id only. -/
theorem holds_frame {d : CacheChunkItem} {uid : StatId} {pts : List Point}
    (added : c.addWithOffset heap name stat offset now = .ok (heap', c'))
    (holds : Holds heap d uid pts)
    (apart : ∀ ref, c.ts.lookup name.uniqueId = some ref → d.ts.lookup uid ≠ some ref) :
    Holds heap' d uid pts := by
  unfold Holds at holds ⊢
  cases found : d.ts.lookup uid with
  | none =>
    rw [found] at holds
    exact holds
  | some ref =>
    rw [found] at holds
    obtain ⟨item, here, built⟩ := holds
    refine ⟨item, ?_, built⟩
    rcases item_addWithOffset_ok added with
      ⟨-, ⟨ref', item', series, found', -, -, rfl, -⟩ | ⟨opened, series, -, -, -, rfl, -⟩⟩
    · have ne : ref' ≠ ref := by
        rintro rfl
        exact apart _ found' found
      rw [List.getElem?_set_ne ne, here]
    · rw [List.getElem?_append_left (List.getElem?_eq_some_iff.mp here).1, here]

theorem holds_added {pts : List Point}
    (added : c.addWithOffset heap name stat offset now = .ok (heap', c'))
    (holds : Holds heap c name.uniqueId pts) : Holds heap' c' name.uniqueId (pts ++ [stat]) := by
  unfold Holds at holds ⊢
  rcases item_addWithOffset_ok added with
    ⟨-, ⟨ref, item, series, found, here, ok, rfl, rfl⟩ | ⟨opened, series, found, new, ok, rfl, rfl⟩⟩
  · rw [found] at holds
    simp only [found]
    obtain ⟨item', here', built⟩ := holds
    obtain rfl : item = item' := Option.some.inj (here.symm.trans here')
    refine ⟨{ item with series := series, offset := offset }, ?_, built_snoc built ok⟩
    exact List.getElem?_set_self (List.getElem?_eq_some_iff.mp here).1
  · rw [found] at holds
    rw [AList.lookup_insert, holds]
    exact ⟨_, List.getElem?_concat_length, built_one new ok⟩

theorem holds_added_other {uid : StatId} {pts : List Point}
    (added : c.addWithOffset heap name stat offset now = .ok (heap', c')) (distinct : Distinct c)
    (ne : uid ≠ name.uniqueId) (holds : Holds heap c uid pts) : Holds heap' c' uid pts := by
  have kept := holds_frame added holds fun ref found found' => ne (distinct _ _ _ found' found)
  unfold Holds at kept ⊢
  rcases item_addWithOffset_ok added with
    ⟨-, ⟨ref, item, series, -, -, -, -, rfl⟩ | ⟨opened, series, -, -, -, -, rfl⟩⟩
  · exact kept
  · rwa [AList.lookup_insert_ne ne]

/-- A reference of the chunk after an addition is an old one or a new item. -/
theorem lookup_added {uid : StatId} {ref : Nat}
    (added : c.addWithOffset heap name stat offset now = .ok (heap', c'))
    (found : c'.ts.lookup uid = some ref) :
    c.ts.lookup uid = some ref ∨ uid = name.uniqueId ∧ ref = heap.length := by
  rcases item_addWithOffset_ok added with
    ⟨-, ⟨ref', item, series, -, -, -, -, rfl⟩ | ⟨opened, series, -, -, -, -, rfl⟩⟩
  · exact .inl found
  · by_cases same : uid = name.uniqueId
    · subst same
      rw [AList.lookup_insert] at found
      exact .inr ⟨rfl, (Option.some.inj found).symm⟩
    · rw [AList.lookup_insert_ne same] at found
      exact .inl found

end Added

/-! ### The invariant -/

/-- The partition, with what keeps the current chunk apart from the slices. -/
structure Inv (as : List Accepted) (es : List CacheChunkSlice) (wc : CacherChunk) : Prop
    extends Partitioned as es wc where
  distinct : ∀ c, wc.curChunk = some c → Distinct c
  apart : ∀ c, wc.curChunk = some c → ∀ e ∈ es, Apart c e.slice
  idle : wc.curChunk = none → acceptedIn as wc.curSequenceId = []
  emitted_lt : ∀ e ∈ es, e.sequenceId < wc.curSequenceId

theorem filled_new {as : List Accepted} {seq : Int} (none : acceptedIn as seq = [])
    (heap : List Item) (seriesType : String) :
    Filled heap as (.newCacheChunkItem seq seriesType) := by
  constructor
  · intro uid
    change statsOf uid (acceptedIn as seq) = []
    rw [none]
    rfl
  · change (0 : Int) = ((acceptedIn as seq).length : Int)
    rw [none]
    rfl

theorem acceptedIn_snoc (as : List Accepted) (a : Accepted) (seq : Int) :
    acceptedIn (as ++ [a]) seq = acceptedIn as seq ++ if a.sequence = seq then [a] else [] := by
  by_cases same : a.sequence = seq <;> simp [acceptedIn, same]

section Preserved

variable {as : List Accepted} {es : List CacheChunkSlice} {wc wc' : CacherChunk}

theorem target_filled (inv : Inv as es wc) :
    wc.target.sequence = wc.curSequenceId ∧ Filled wc.heap as wc.target ∧ Distinct wc.target ∧
      ∀ e ∈ es, Apart wc.target e.slice := by
  cases cur : wc.curChunk with
  | none =>
    simp only [CacherChunk.target, cur, Option.getD_none]
    refine ⟨rfl, filled_new (inv.idle cur) _ _, ?_, ?_⟩
    · intro uid uid' ref found
      cases found
    · intro e _ uid uid' ref found
      cases found
  | some c =>
    simp only [CacherChunk.target, cur, Option.getD_some]
    exact ⟨(inv.current c cur).1, (inv.current c cur).2, inv.distinct c cur, inv.apart c cur⟩

theorem accepted_le (inv : Inv as es wc) {a : Accepted} (mem : a ∈ as) :
    a.sequence ≤ wc.curSequenceId := by
  rcases inv.once a mem with ⟨here, -⟩ | ⟨-, e, ⟨sent, same⟩, -⟩
  · exact here.le
  · have := inv.emitted_lt e sent
    omega

theorem inv_kept (inv : Inv as es wc)
    (chunk : wc'.curChunk = wc.curChunk ∨ wc'.curChunk = some wc.target)
    (heap : wc'.heap = wc.heap) (ring : wc'.chunks = wc.chunks)
    (sequence : wc'.curSequenceId = wc.curSequenceId) : Inv as es wc' := by
  obtain ⟨target, filled, distinct, apart⟩ := target_filled inv
  have is_target : ∀ c, wc'.curChunk = some c → c = wc.target := by
    intro c cur
    rcases chunk with same | same
    · rw [same] at cur
      simp [CacherChunk.target, cur]
    · exact Option.some.inj (cur.symm.trans same)
  refine { current := ?_, increasing := inv.increasing, slices := ?_, ring := ?_, once := ?_,
           distinct := ?_, apart := ?_, idle := ?_, emitted_lt := ?_ }
  · intro c cur
    rw [is_target c cur, heap, sequence]
    exact ⟨target, filled⟩
  · rw [heap]
    exact inv.slices
  · rw [ring]
    exact inv.ring
  · intro a mem
    rw [sequence]
    rcases inv.once a mem with ⟨here, some, apart⟩ | elsewhere
    · refine .inl ⟨here, ?_, apart⟩
      rcases chunk with same | same <;> simp [same, some]
    · exact .inr elsewhere
  · intro c cur
    rw [is_target c cur]
    exact distinct
  · intro c cur
    rw [is_target c cur]
    exact apart
  · intro cur
    rcases chunk with same | same
    · rw [sequence]
      exact inv.idle (same.symm.trans cur)
    · simp [same] at cur
  · rw [sequence]
    exact inv.emitted_lt

theorem filled_added {c c' : CacheChunkItem} {heap heap' : List Item} {name : StatName}
    {stat : Point} {offset : Option OffsetInSeries} {now : BitVec 32} (filled : Filled heap as c)
    (distinct : Distinct c) (added : c.addWithOffset heap name stat offset now = .ok (heap', c')) :
    Filled heap' (as ++ [⟨c.sequence, name.uniqueId, stat⟩]) c' := by
  have fields : c'.sequence = c.sequence ∧ c'.curCount = c.curCount + 1 := by
    rcases item_addWithOffset_ok added with
      ⟨-, ⟨ref, item, series, -, -, -, -, rfl⟩ | ⟨opened, series, -, -, -, -, rfl⟩⟩ <;>
      exact ⟨rfl, rfl⟩
  constructor
  · intro uid
    rw [fields.1, acceptedIn_snoc, if_pos rfl, statsOf_append]
    by_cases same : uid = name.uniqueId
    · subst same
      simpa [statsOf] using holds_added added (filled.points name.uniqueId)
    · simpa [statsOf, Ne.symm same] using
        holds_added_other added distinct same (filled.points uid)
  · rw [fields.1, fields.2, filled.count, acceptedIn_snoc, if_pos rfl]
    simp

theorem filled_frame {c c' d : CacheChunkItem} {heap heap' : List Item} {name : StatName}
    {stat : Point} {offset : Option OffsetInSeries} {now : BitVec 32}
    (filled : Filled heap as d) (apart : Apart c d) (ne : c.sequence ≠ d.sequence)
    (added : c.addWithOffset heap name stat offset now = .ok (heap', c')) :
    Filled heap' (as ++ [⟨c.sequence, name.uniqueId, stat⟩]) d := by
  constructor
  · intro uid
    rw [acceptedIn_snoc, if_neg ne, List.append_nil]
    exact holds_frame added (filled.points uid) fun ref => apart _ _ ref
  · rw [acceptedIn_snoc, if_neg ne, List.append_nil]
    exact filled.count

theorem inv_added {name : StatName} {stat : Point} {offset : Option OffsetInSeries}
    {now : BitVec 32} {c : CacheChunkItem} (inv : Inv as es wc)
    (added : wc.target.addWithOffset wc.heap name stat offset now = .ok (wc'.heap, c))
    (chunk : wc'.curChunk = some c) (ring : wc'.chunks = wc.chunks)
    (sequence : wc'.curSequenceId = wc.curSequenceId) :
    Inv (as ++ [⟨wc.curSequenceId, name.uniqueId, stat⟩]) es wc' := by
  obtain ⟨target, filled, distinct, apart⟩ := target_filled inv
  have fresh {d : CacheChunkItem} {uid : StatId} {ref : Nat} (held : Filled wc.heap as d)
      (found : d.ts.lookup uid = some ref) : ref ≠ wc.heap.length :=
    (holds_ref_lt (held.points uid) found).ne
  have is_c : ∀ c', wc'.curChunk = some c' → c' = c := fun c' cur =>
    Option.some.inj (cur.symm.trans chunk)
  refine { current := ?_, increasing := inv.increasing, slices := ?_, ring := ?_, once := ?_,
           distinct := ?_, apart := ?_, idle := ?_, emitted_lt := ?_ }
  · intro c' cur
    rw [is_c c' cur, sequence, ← target]
    refine ⟨?_, filled_added filled distinct added⟩
    rcases item_addWithOffset_ok added with
      ⟨-, ⟨ref, item, series, -, -, -, -, rfl⟩ | ⟨opened, series, -, -, -, -, rfl⟩⟩ <;> rfl
  · intro e sent
    obtain ⟨same, held⟩ := inv.slices e sent
    refine ⟨same, ?_⟩
    have lt := inv.emitted_lt e sent
    rw [← target]
    exact filled_frame held (apart e sent) (by omega) added
  · rw [ring]
    exact inv.ring
  · intro a mem
    rw [sequence]
    rcases List.mem_append.mp mem with old | new
    · rcases inv.once a old with ⟨here, -, others⟩ | elsewhere
      · exact .inl ⟨here, by simp [chunk], others⟩
      · exact .inr elsewhere
    · rw [List.mem_singleton.mp new]
      exact .inl ⟨rfl, by simp [chunk], fun e sent => (inv.emitted_lt e sent).ne⟩
  · intro c' cur uid uid' ref found found'
    rw [is_c c' cur] at found found'
    rcases lookup_added added found with old | ⟨rfl, rfl⟩ <;>
      rcases lookup_added added found' with old' | ⟨rfl, same⟩
    · exact distinct _ _ _ old old'
    · exact absurd same (fresh filled old)
    · exact absurd rfl (fresh filled old')
    · rfl
  · intro c' cur e sent uid uid' ref found
    rw [is_c c' cur] at found
    rcases lookup_added added found with old | ⟨-, rfl⟩
    · exact apart e sent _ _ _ old
    · intro shared
      exact fresh (inv.slices e sent).2 shared rfl
  · intro none
    simp [chunk] at none
  · rw [sequence]
    exact inv.emitted_lt

theorem none_ahead (inv : Inv as es wc) : acceptedIn as (wc.curSequenceId + 1) = [] := by
  refine List.filter_eq_nil_iff.mpr ?_
  intro a mem
  have := accepted_le inv mem
  simp only [decide_eq_true_eq]
  omega

/-- The first rotation of a cache without a chunk only moves on to the next sequence. -/
theorem inv_opened (inv : Inv as es wc) (cur : wc.curChunk = none) :
    Inv as es { wc with
      curSequenceId := wc.curSequenceId + 1
      curChunk := some (.newCacheChunkItem (wc.curSequenceId + 1) wc.seriesType) } := by
  refine { current := ?_, increasing := inv.increasing, slices := inv.slices, ring := inv.ring,
           once := ?_, distinct := ?_, apart := ?_, idle := ?_, emitted_lt := ?_ }
  · rintro c ⟨⟩
    exact ⟨rfl, filled_new (none_ahead inv) _ _⟩
  · intro a mem
    rcases inv.once a mem with ⟨-, some, -⟩ | ⟨-, elsewhere⟩
    · simp [cur] at some
    · have := accepted_le inv mem
      exact .inr ⟨by dsimp only; omega, elsewhere⟩
  · rintro c ⟨⟩ uid uid' ref ⟨⟩
  · rintro c ⟨⟩ e - uid uid' ref ⟨⟩
  · rintro ⟨⟩
  · intro e sent
    have := inv.emitted_lt e sent
    dsimp only
    omega

theorem inv_rotated {c : CacheChunkItem} {oldest : Option CacheChunkItem}
    {rest : List (Option CacheChunkItem)} (inv : Inv as es wc) (cur : wc.curChunk = some c)
    (slots : wc.chunks = oldest :: rest) :
    Inv as (es ++ [⟨c, c.sequence⟩]) { wc with
      chunks := rest ++ [some c]
      curSequenceId := wc.curSequenceId + 1
      curChunk := some (.newCacheChunkItem (wc.curSequenceId + 1) wc.seriesType) } := by
  obtain ⟨here, filled⟩ := inv.current c cur
  have sent_cases : ∀ e ∈ es ++ [(⟨c, c.sequence⟩ : CacheChunkSlice)],
      e ∈ es ∧ e.sequenceId < wc.curSequenceId ∨ e = ⟨c, c.sequence⟩ := by
    intro e mem
    rcases List.mem_append.mp mem with old | new
    · exact .inl ⟨old, inv.emitted_lt e old⟩
    · exact .inr (List.mem_singleton.mp new)
  refine { current := ?_, increasing := ?_, slices := ?_, ring := ?_, once := ?_,
           distinct := ?_, apart := ?_, idle := ?_, emitted_lt := ?_ }
  · rintro c ⟨⟩
    exact ⟨rfl, filled_new (none_ahead inv) _ _⟩
  · refine List.pairwise_append.mpr ⟨inv.increasing, List.pairwise_singleton _ _, ?_⟩
    intro e sent f new
    rw [List.mem_singleton.mp new]
    have := inv.emitted_lt e sent
    dsimp only
    omega
  · intro e mem
    rcases sent_cases e mem with ⟨old, -⟩ | rfl
    · exact inv.slices e old
    · exact ⟨rfl, filled⟩
  · intro d mem
    rcases List.mem_append.mp mem with old | new
    · exact List.mem_append_left _ (inv.ring d (slots ▸ List.mem_cons_of_mem _ old))
    · cases List.mem_singleton.mp new
      exact List.mem_append_right _ List.mem_cons_self
  · intro a mem
    have le := accepted_le inv mem
    refine .inr ⟨by dsimp only; omega, ?_⟩
    rcases inv.once a mem with ⟨same, -, others⟩ | ⟨ne, e, ⟨sent, same⟩, unique⟩
    · refine ⟨⟨c, c.sequence⟩,
        ⟨List.mem_append_right _ List.mem_cons_self, here.trans same.symm⟩, ?_⟩
      rintro e ⟨mem, same'⟩
      rcases sent_cases e mem with ⟨old, -⟩ | rfl
      · exact absurd same' (others e old)
      · rfl
    · refine ⟨e, ⟨List.mem_append_left _ sent, same⟩, ?_⟩
      rintro f ⟨mem, same'⟩
      rcases sent_cases f mem with ⟨old, -⟩ | rfl
      · exact unique f ⟨old, same'⟩
      · exact absurd (same'.symm.trans here) ne
  · rintro c ⟨⟩ uid uid' ref ⟨⟩
  · rintro c ⟨⟩ e - uid uid' ref ⟨⟩
  · rintro ⟨⟩
  · intro e mem
    rcases sent_cases e mem with ⟨-, lt⟩ | rfl <;> dsimp only <;> omega

theorem inv_effect {a : Option Accepted} {out : Option CacheChunkSlice} (inv : Inv as es wc)
    (effect : Effect wc wc' a out) : Inv (as ++ a.toList) (es ++ out.toList) wc' := by
  cases effect with
  | kept chunk heap ring sequence =>
    simpa using inv_kept inv chunk heap ring sequence
  | added ok chunk ring sequence =>
    simpa using inv_added inv ok chunk ring sequence
  | cycled ok =>
    rcases CacherChunk.cycleInternalChunks_cases ok with
      ⟨cur, rfl, rfl⟩ | ⟨c, oldest, rest, cur, slots, rfl, rfl⟩
    · simpa using inv_opened inv cur
    · simpa [CacheChunkItem.copy] using inv_rotated inv cur slots

end Preserved

theorem inv_start (slots : Nat) (seriesType : String) (resumed : Option Int) :
    Inv [] [] (CacherChunk.start slots seriesType resumed) := by
  have empty_ring : ∀ c, some c ∈ (CacherChunk.start slots seriesType resumed).chunks →
      (⟨c, c.sequence⟩ : CacheChunkSlice) ∈ ([] : List CacheChunkSlice) := by
    intro c mem
    cases resumed <;> cases List.eq_of_mem_replicate mem
  refine { current := ?_, increasing := .nil, slices := by simp, ring := empty_ring,
           once := by simp, distinct := ?_, apart := by simp, idle := fun _ => rfl,
           emitted_lt := by simp }
  · intro c cur
    cases resumed with
    | none => cases cur
    | some seq =>
      cases cur
      exact ⟨rfl, filled_new rfl _ _⟩
  · intro c cur uid uid' ref found
    cases resumed <;> cases cur
    cases found

theorem inv_of_run {slots : Nat} {seriesType : String} {resumed : Option Int} {h : History}
    {s : System} (run : Run step anyStep (start (CacherChunk.start slots seriesType resumed)) h s) :
    Inv (accepted h) (emitted h) s.cacher := by
  refine run_invariant (fun h s => Inv (accepted h) (emitted h) s.cacher) ?_ ?_ run
  · exact inv_start _ _ _
  · intro h s a s' b inv _ taken
    rw [accepted, emitted, filterMap_snoc, filterMap_snoc]
    exact inv_effect inv (effect_of_step taken)

/-- In every interleaving the chunk and the slices partition the accepted points. -/
theorem partitioned_of_run {slots : Nat} {seriesType : String} {resumed : Option Int}
    {h : History} {s : System}
    (run : Run step anyStep (start (CacherChunk.start (slots + 1) seriesType resumed)) h s) :
    Partitioned (accepted h) (emitted h) s.cacher :=
  (inv_of_run run).toPartitioned

/-- A rotation falls between the two critical sections of a back-filled point. -/
theorem partitioned_of_run_backFilled :
    ∃ h s, Run step anyStep (start (CacherChunk.start 6 "protobuf" (some 3))) h s ∧
      (accepted h).map (·.sequence) = [3, 4, 5] ∧ (emitted h).map (·.sequenceId) = [3, 4] ∧
      Partitioned (accepted h) (emitted h) s.cacher := by
  have run := run_of_exec step anyStep (start (CacherChunk.start 6 "protobuf" (some 3)))
    [.addWithOffset load (sample 1) none 1#32, .backFill load (sample 2) 3, .receive,
     .cycleChunks, .addStat 2#32, .forceChunkWrite,
     .addWithOffset load (sample 3) none 3#32] (by decide)
  exact ⟨_, _, run, by decide, by decide, partitioned_of_run run⟩

end ChunkPartition
