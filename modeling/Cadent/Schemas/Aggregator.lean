import Cadent.Lib.Maps
import Cadent.Schemas.StatRepr

/-!
# The aggregator

An `Aggregator` holds one stat for each unique id and time bucket of its resolution. The
first stat of a bucket is copied, and the copy takes in the later ones. `Add` is called by
one goroutine at a time here. Times are nanoseconds since 1970 and may lie outside of an
`int64`; `UnixNano` wraps around there. A duration's seconds are a `float64` that the code
outside of the repository computes, and the map of resolutions is keyed by its bits.
-/

namespace Repr

open Keys Maps

/-- The parts of the `time` package that durations depend on. -/
structure Durations where
  seconds : Int → BitVec 64
  /-- The conversion of a `float64` to `uint32`. -/
  toUint32 : BitVec 64 → BitVec 32

structure Aggregator where
  items : Map String Nat
  resolution : Int

def newAggregator (res : Int) : Aggregator := ⟨∅, res⟩

/-- From the year 1 to 1970, in nanoseconds. -/
def zeroTime : Int := 62135596800000000000

/-- `Truncate` rounds down to a multiple of the duration since the year 1. -/
def truncate (t d : Int) : Int := if d ≤ 0 then t else t - (t + zeroTime) % d

def unixNano (t : Int) : BitVec 64 := BitVec.ofInt 64 t

namespace Aggregator

def resolutionTime (sa : Aggregator) (t : Int) : Int := truncate t sa.resolution

def mapKey (sa : Aggregator) (id : String) (t : Int) : String :=
  dashed id (unixNano (sa.resolutionTime t)).toInt

end Aggregator

section Add

variable {α : Type} [Add α] [LT α] [DecidableLT α]

/-- A stat takes in another one of its bucket. -/
def StatRepr.takeIn (element stat : StatRepr α) (time : BitVec 64) : StatRepr α :=
  { element with
    last := stat.last
    count := element.count + stat.count
    max := if element.max < stat.max then stat.max else element.max
    min := if stat.min < element.min then stat.min else element.min
    sum := element.sum + stat.sum
    time := time }

variable (env : Naming) (durations : Durations)

/-- The entry of a bucket after one more stat; `none` stands for a nil pointer. -/
def Heap.takeIn (h : Heap α) (ref : Nat) (stat : StatRepr α) (time : BitVec 64)
    (resolution : BitVec 32) : Option (Heap α) := do
  let element ← h.stats[ref]?
  let name ← h.names[element.name]?
  return ⟨h.stats.set ref (element.takeIn stat time),
    h.names.set element.name { name with resolution := resolution }⟩

/-- `Add` of a stat, given by its reference. -/
def Aggregator.add (h : Heap α) (sa : Aggregator) (ref : Nat) : Option (Heap α × Aggregator) := do
  let stat ← h.stats[ref]?
  let name ← h.names[stat.name]?
  let h := { h with names := h.names.set stat.name (name.asked env) }
  let mK := sa.mapKey (name.idText env) stat.toTime
  match sa.items.lookup mK with
  | none =>
    return (h.copy stat (name.asked env), { sa with items := sa.items.insert mK h.stats.length })
  | some element =>
    let h ← h.takeIn element stat (unixNano (sa.resolutionTime stat.toTime))
      (durations.toUint32 (durations.seconds sa.resolution))
    return (h, sa)

variable {env durations} in
theorem Aggregator.add_eq {h : Heap α} {sa : Aggregator} {ref : Nat} {stat : StatRepr α}
    {name : StatName} (here : h.stats[ref]? = some stat) (named : h.names[stat.name]? = some name) :
    sa.add env durations h ref =
      match sa.items.lookup (sa.mapKey (name.idText env) stat.toTime) with
      | none =>
        some ((⟨h.stats, h.names.set stat.name (name.asked env)⟩ : Heap α).copy stat
            (name.asked env),
          ⟨sa.items.insert (sa.mapKey (name.idText env) stat.toTime) h.stats.length,
            sa.resolution⟩)
      | some element =>
        ((⟨h.stats, h.names.set stat.name (name.asked env)⟩ : Heap α).takeIn element stat
          (unixNano (sa.resolutionTime stat.toTime))
          (durations.toUint32 (durations.seconds sa.resolution))).map fun h => (h, sa) := by
  rw [Aggregator.add, here, Option.bind_eq_bind, Option.bind_some, named, Option.bind_eq_bind,
    Option.bind_some]
  dsimp only
  split
  · rfl
  · exact Option.map_eq_bind.symm

def Aggregator.addAll (h : Heap α) (sa : Aggregator) :
    List Nat → Option (Heap α × Aggregator)
  | [] => some (h, sa)
  | ref :: refs => do
    let (h, sa) ← sa.add env durations h ref
    Aggregator.addAll h sa refs

omit [Add α] [LT α] [DecidableLT α]

/-- What `sort.Sort` does to a `StatReprSlice`. -/
structure SortsStats (sort : (Nat → Int) → List Nat → List Nat) : Prop where
  perm : ∀ time l, (sort time l).Perm l
  sorted : ∀ time l, (sort time l).Pairwise fun a b => time a ≤ time b

def Heap.timeAt (h : Heap α) (ref : Nat) : Int := ((h.stats[ref]?).map (·.time.toInt)).getD 0

/-- The entries in the order of iteration, sorted by time; none are left. -/
def Aggregator.getListAndClear (sort : (Nat → Int) → List Nat → List Nat) (h : Heap α)
    (sa : Aggregator) (order : List String) : List Nat × Aggregator :=
  (sort h.timeAt (order.filterMap sa.items.lookup), { sa with items := ∅ })

end Add

/-! ### Several resolutions -/

structure MultiAggregator where
  aggs : Map (BitVec 64) Aggregator
  resolutions : List Int

def newMulti (durations : Durations) (res : List Int) : MultiAggregator :=
  ⟨res.foldl (fun aggs dur => aggs.insert (durations.seconds dur) (newAggregator dur)) ∅, res⟩

section MultiAdd

variable {α : Type} [Add α] [LT α] [DecidableLT α] (env : Naming) (durations : Durations)

def MultiAggregator.addLoop (ref : Nat) :
    List Int → Heap α → Map (BitVec 64) Aggregator → Option (Heap α × Map (BitVec 64) Aggregator)
  | [], h, aggs => some (h, aggs)
  | dur :: rest, h, aggs => do
    let agg ← aggs.lookup (durations.seconds dur)
    let (h, agg) ← agg.add env durations h ref
    MultiAggregator.addLoop ref rest h (aggs.insert (durations.seconds dur) agg)

def MultiAggregator.add (h : Heap α) (ma : MultiAggregator) (ref : Nat) :
    Option (Heap α × MultiAggregator) := do
  let (h, aggs) ← MultiAggregator.addLoop env durations ref ma.resolutions h ma.aggs
  return (h, { ma with aggs := aggs })

def MultiAggregator.addAll (h : Heap α) (ma : MultiAggregator) :
    List Nat → Option (Heap α × MultiAggregator)
  | [] => some (h, ma)
  | ref :: refs => do
    let (h, ma) ← ma.add env durations h ref
    MultiAggregator.addAll h ma refs

end MultiAdd

end Repr
