import Cadent.Lib.Consume
import Cadent.Schemas.ItemMemory
import Cadent.Schemas.Quantize

/-!
# The tags of merged render items

`Merge`, `MergeAndAggregate` and `MergeWithResample` put the points of two items together in
three ways, and the tags of both with `MergeTagLists`. For the first two the points are values,
the third works on items in memory. Of an item the tags, the meta tags and the cache flag are
added here; its names are not read by a merge.
-/

namespace Metrics

open Repr hiding Heap

variable {α : Type} [AddCommSemigroup α] [LinearOrder α]
variable (sort : Points α → Points α)
  (sortPointers : PointerSort α)

structure TaggedItem (π : Type) extends RenderItem π where
  tags : List Tag
  metaTags : List Tag
  inCache : Bool
  deriving DecidableEq, Repr

namespace TaggedItem

/-- What every merge does with the tags and the flag. -/
def withTags {π ρ : Type} (out : RenderItem ρ) (r m : TaggedItem π) : TaggedItem ρ where
  toRenderItem := out
  tags := mergeTagLists r.tags m.tags
  metaTags := mergeTagLists r.metaTags m.metaTags
  inCache := r.inCache || m.inCache

def merge (r m : TaggedItem (RawDataPoint Int64 α)) : TaggedItem (RawDataPoint Int64 α) :=
  withTags
    { start := if m.start < r.start then m.start else r.start
      «end» := if r.end < m.end then m.end else r.end
      realStart := if m.realStart < r.realStart then m.realStart else r.realStart
      realEnd := if r.realEnd < m.realEnd then m.realEnd else r.realEnd
      step := r.step
      data := sort (r.data ++ m.data) } r m

/-- The loop over the slots of both items; a slot that is not there panics. -/
def aggregateSlots : Slots α → Slots α → Except MergeError (Slots α)
  | rs, [] => .ok rs
  | [], _ :: _ => .error .panic
  | r :: rs, m :: ms => do
    let slot ←
      match r with
      | none => .ok m
      | some p =>
        if p.isNull then .ok m
        else
          match m with
          | none => .error .panic
          | some q => .ok (some (p.merge q))
    let rest ← aggregateSlots rs ms
    return slot :: rest

/-- The common range that both items are quantized over. -/
def spread (r m : TaggedItem (RawDataPoint Int64 α)) (data : Points α) : RawRenderItem Int64 α where
  start := if m.start < r.start then m.start else r.start
  «end» := if r.end < m.end then m.end else r.end
  realStart := if m.realStart < r.realStart then m.realStart else r.realStart
  realEnd := if r.realEnd < m.realEnd then m.realEnd else r.realEnd
  step := r.step
  data := data

/-- The outer result is `none` when the fuel does not suffice. -/
def mergeAndAggregate (fuel : Nat) (r m : TaggedItem (RawDataPoint Int64 α)) :
    Option (Except MergeError (TaggedItem (Option (RawDataPoint Int64 α)))) :=
  if r.step ≠ m.step then some (.error .mergeStepSize)
  else do
    let rq ← quantizeToStep sort fuel (spread r m r.data) r.step
    match rq with
    | .error e => some (.error (.metrics e))
    | .ok rq =>
      let mq ← quantizeToStep sort fuel (spread r m m.data) r.step
      match mq with
      | .error e => some (.error (.metrics e))
      | .ok mq =>
        some ((aggregateSlots rq.data mq.data).map fun data =>
          withTags { rq with data := data } r m)

/-- An item in memory, with its points in place of the pointers. -/
def ofMemory (memory : Memory α) (i : Nat) : TaggedItem (RawDataPoint Int64 α) where
  start := (memory.items.cell i).start
  «end» := (memory.items.cell i).end
  realStart := (memory.items.cell i).realStart
  realEnd := (memory.items.cell i).realEnd
  step := (memory.items.cell i).step
  data := memory.data i
  tags := (memory.items.cell i).tags
  metaTags := (memory.items.cell i).metaTags
  inCache := (memory.items.cell i).inCache

/-- The tags and meta tags of an item after one of the merges. -/
inductive Merged (r m : TaggedItem (RawDataPoint Int64 α)) : List Tag → List Tag → Prop
  | merge : Merged r m (r.merge sort m).tags (r.merge sort m).metaTags
  | mergeAndAggregate {fuel : Nat} {out : TaggedItem (Option (RawDataPoint Int64 α))}
      (done : r.mergeAndAggregate sort fuel m = some (.ok out)) : Merged r m out.tags out.metaTags
  | mergeWithResample {memory out : Memory α} {i j fuel : Nat} {grow : Nat → Nat}
      {step : BitVec 32} (receiver : ofMemory memory i = r) (argument : ofMemory memory j = m)
      (done : memory.mergeWithResample sortPointers grow fuel i j step = some (.ok out)) :
      Merged r m (ofMemory out i).tags (ofMemory out i).metaTags

end TaggedItem

/-- One tag for every name of both lists, with the value of the second where it has one. -/
structure IsUnion (a b l : List Tag) : Prop where
  nodup : (tagNames l).Nodup
  names : ∀ n, n ∈ tagNames l ↔ n ∈ tagNames a ∨ n ∈ tagNames b
  values : ∀ t ∈ l, t ∈ b ∨ t ∈ a ∧ t.name ∉ tagNames b

/-- Two lists that both have tags are merged to nothing. -/
theorem mergeTagLists_of_ne {a b : List Tag} (some : a ≠ []) (some' : b ≠ []) :
    mergeTagLists a b = [] := by
  simp [mergeTagLists, some, some', SortingTags.mergeList, SortingTags.setTags]

theorem isUnion_mergeTagLists_iff {a b : List Tag} (nodup : (tagNames a).Nodup)
    (nodup' : (tagNames b).Nodup) : IsUnion a b (mergeTagLists a b) ↔ a = [] ∨ b = [] := by
  constructor
  · intro union
    by_contra both
    obtain ⟨some, some'⟩ := not_or.mp both
    obtain ⟨t, rest, rfl⟩ := List.exists_cons_of_ne_nil some
    have hname := (union.names t.name).mpr (.inl List.mem_cons_self)
    rw [mergeTagLists_of_ne some some'] at hname
    cases hname
  · rintro (rfl | rfl)
    · have hsame : mergeTagLists [] b = b := by
        by_cases none : b = [] <;> simp [mergeTagLists, none]
      rw [hsame]
      exact ⟨nodup', fun n => (or_iff_right nofun).symm, fun t mem => .inl mem⟩
    · have hsame : mergeTagLists a [] = a := by
        by_cases none : a = [] <;> simp [mergeTagLists, none]
      rw [hsame]
      exact ⟨nodup, fun n => (or_iff_left nofun).symm, fun t mem => .inr ⟨mem, nofun⟩⟩

/-! ### The tags in memory -/

namespace Memory

/-- No item has other tags than before. -/
def SameTags (m m' : Memory α) : Prop :=
  ∀ i, (m'.items.cell i).tags = (m.items.cell i).tags ∧
    (m'.items.cell i).metaTags = (m.items.cell i).metaTags

omit [AddCommSemigroup α] [LinearOrder α] in
theorem SameTags.trans {m m' m'' : Memory α} (first : SameTags m m') (second : SameTags m' m'') :
    SameTags m m'' :=
  fun i => ⟨(second i).1.trans (first i).1, (second i).2.trans (first i).2⟩

omit [AddCommSemigroup α] [LinearOrder α] in
theorem sameTags_setData (m : Memory α) (i : Nat) {arrays : Heap (Nat → Option Nat)} {data : Slice}
    (later : m.arrays.next ≤ arrays.next) (placed : data.array < arrays.next) :
    SameTags m (m.setData i arrays data later placed) := by
  intro j
  by_cases same : j = i
  · subst same
    rw [setData_self]
    exact ⟨rfl, rfl⟩
  · rw [setData_of_ne _ _ _ same]
    exact ⟨rfl, rfl⟩

variable {sortPointers} {m : Memory α}

theorem sameTags_emit (r : Nat) (grow : Nat → Nat) (pts : List Nat) :
    SameTags m (m.emit r sortPointers grow pts) := by
  rw [emit]
  split
  · exact fun i => ⟨rfl, rfl⟩
  · exact fun i => sameTags_setData { m with points := _ } r _ _ i

omit [AddCommSemigroup α] [LinearOrder α] in
theorem sameTags_sortBoth {r d : Nat} {sorted : Memory α × BitVec 32 × BitVec 32}
    (done : m.sortBoth sortPointers r d = .ok sorted) : SameTags m sorted.1 := by
  have keeps {m m' : Memory α} {i : Nat} (done : m.sortData i sortPointers = .ok m') :
      m'.items = m.items := by
    rw [sortData] at done
    split_ifs at done
    cases done
    rfl
  rw [sortBoth] at done
  obtain ⟨m₁, first, done⟩ := Consume.bind_ok done
  obtain ⟨m₂, second, done⟩ := Consume.bind_ok done
  obtain ⟨_, -, done⟩ := Consume.bind_ok done
  obtain ⟨_, -, done⟩ := Consume.bind_ok done
  cases done
  intro i
  rw [keeps second, keeps first]
  exact ⟨rfl, rfl⟩

theorem sameTags_resampleLoop {grow : Nat → Nat} {step endTime t : BitVec 32} {dOn rOn : Bool}
    {r d oLen fuel o : Nat} {rs : List (Option Nat)} {out : Memory α}
    (done : resampleLoop sortPointers grow step endTime dOn rOn r d oLen fuel t m o rs =
      some (.ok out)) : SameTags m out := by
  induction fuel generalizing t m o rs with
  | zero => cases done
  | succ fuel ih =>
    by_cases here : t ≤ endTime
    · rw [resampleLoop, if_pos here] at done
      split at done
      · cases done
      · exact (sameTags_emit r grow _).trans (ih done)
    · rw [resampleLoop, if_neg here] at done
      cases done
      exact fun i => ⟨rfl, rfl⟩

/-- The tags of the receiver are those of both items as they were. -/
theorem tags_mergeWithResample {grow : Nat → Nat} {fuel r d : Nat} {step : BitVec 32}
    {out : Memory α} (done : m.mergeWithResample sortPointers grow fuel r d step = some (.ok out)) :
    (out.items.cell r).tags = mergeTagLists (m.items.cell r).tags (m.items.cell d).tags ∧
      (out.items.cell r).metaTags =
        mergeTagLists (m.items.cell r).metaTags (m.items.cell d).metaTags := by
  rw [mergeWithResample] at done
  split_ifs at done
  · cases done
  · dsimp only at done
    cases sorted : m.sortBoth sortPointers r d with
    | error e =>
      rw [sorted] at done
      cases done
    | ok both =>
      rw [sorted] at done
      obtain ⟨result, loop, mapped⟩ := Option.map_eq_some_iff.mp done
      obtain ⟨m', rfl, rfl⟩ := Consume.map_ok mapped
      have same : SameTags m m' := (sameTags_sortBoth sorted).trans
        ((sameTags_setData both.1 r _ _).trans (sameTags_resampleLoop loop))
      rw [← (same r).1, ← (same d).1, ← (same r).2, ← (same d).2, finish, Heap.write_cell]
      exact ⟨rfl, rfl⟩

end Memory

namespace TaggedItem

/-- No name is twice among the tags or twice among the meta tags. -/
def Distinct {π : Type} (r : TaggedItem π) : Prop :=
  (tagNames r.tags).Nodup ∧ (tagNames r.metaTags).Nodup
  deriving Decidable

theorem merged_eq {r m : TaggedItem (RawDataPoint Int64 α)} {tags metaTags : List Tag}
    (merged : Merged sort sortPointers r m tags metaTags) :
    tags = mergeTagLists r.tags m.tags ∧ metaTags = mergeTagLists r.metaTags m.metaTags := by
  cases merged with
  | merge => exact ⟨rfl, rfl⟩
  | mergeWithResample receiver argument done =>
    rw [← receiver, ← argument]
    exact Memory.tags_mergeWithResample done
  | mergeAndAggregate done =>
    unfold mergeAndAggregate at done
    split_ifs at done
    · cases Option.some.inj done
    · obtain ⟨rq, -, done⟩ := Option.bind_eq_some_iff.mp done
      rcases rq with e | rq
      · cases Option.some.inj done
      · obtain ⟨mq, -, done⟩ := Option.bind_eq_some_iff.mp done
        rcases mq with e | mq
        · cases Option.some.inj done
        · obtain ⟨data, -, rfl⟩ := Consume.map_ok (Option.some.inj done)
          exact ⟨rfl, rfl⟩

/-- Lists of tags, and the tags of merged items, are united exactly when one of the two
lists has none. -/
theorem tags_united_iff {a b : List Tag} (nodup : (tagNames a).Nodup) (nodup' : (tagNames b).Nodup)
    {r m : TaggedItem (RawDataPoint Int64 α)} (distinct : r.Distinct) (distinct' : m.Distinct) :
    (IsUnion a b (mergeTagLists a b) ↔ a = [] ∨ b = []) ∧
      ∀ tags metaTags, Merged sort sortPointers r m tags metaTags →
        (IsUnion r.tags m.tags tags ∧ IsUnion r.metaTags m.metaTags metaTags ↔
          (r.tags = [] ∨ m.tags = []) ∧ (r.metaTags = [] ∨ m.metaTags = [])) := by
  refine ⟨isUnion_mergeTagLists_iff nodup nodup', fun tags metaTags merged => ?_⟩
  obtain ⟨rfl, rfl⟩ := merged_eq sort sortPointers merged
  rw [isUnion_mergeTagLists_iff distinct.1 distinct'.1,
    isUnion_mergeTagLists_iff distinct.2 distinct'.2]

/-- An item of one series, with tags or without. -/
def ofHost (tags : List Tag) : TaggedItem (RawDataPoint Int64 Int) :=
  ⟨⟨10, 20, 10, 20, 10, []⟩, tags, [], false⟩

theorem tags_united_iff_untagged :
    IsUnion [⟨"host", "a"⟩] [] (mergeTagLists [⟨"host", "a"⟩] []) ∧
      IsUnion [⟨"host", "a"⟩] [] ((ofHost [⟨"host", "a"⟩]).merge id (ofHost [])).tags := by
  have united := tags_united_iff id pointersByTime (a := [⟨"host", "a"⟩]) (b := [])
    (by decide) (by decide) (r := ofHost [⟨"host", "a"⟩]) (m := ofHost []) (by decide) (by decide)
  exact ⟨united.1.mpr (.inr rfl), ((united.2 _ _ .merge).mpr (by decide)).1⟩

end TaggedItem

/-- Two lists with a tag each are merged to a list with none. -/
theorem mergeTagLists_loses :
    ¬ IsUnion [⟨"host", "a"⟩] [⟨"unit", "B"⟩] (mergeTagLists [⟨"host", "a"⟩] [⟨"unit", "B"⟩]) := by
  intro union
  have hname := (union.names "host").mpr (.inl (by decide))
  revert hname
  decide

end Metrics
