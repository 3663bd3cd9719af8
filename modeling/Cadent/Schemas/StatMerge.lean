import Cadent.Lib.Heap
import Cadent.Lib.Reduce
import Cadent.Schemas.StatRepr

/-!
# Merging stats

`Merge` copies the stat of the later time and adds the other one to the copy; `MergeInPlace`
adds to its receiver and leaves the time alone. Stats are objects behind pointers, values are
exact numbers and never NaN. A name is copied along with its stat and never written to, so it is
a value here; a stat may have none.
-/

namespace StatMerge

open Reduce

open Repr (StatName)

/-- A `StatRepr` with its name. -/
structure Stat (α : Type) where
  name : Option StatName
  time : BitVec 64
  min : α
  max : α
  last : α
  sum : α
  count : Int
  deriving DecidableEq, Repr

section Code

variable {α : Type} [Add α] [LT α] [DecidableLT α]

/-- The values of another stat are added. -/
def Stat.absorb (out stat : Stat α) : Stat α :=
  { out with
    min := if stat.min < out.min then stat.min else out.min
    max := if out.max < stat.max then stat.max else out.max
    count := out.count + stat.count
    sum := out.sum + stat.sum }

/-- `Copy` returns the address of a new object. -/
def copyStat (h : Heap (Stat α)) (s : Nat) : Heap (Stat α) × Nat := (h.alloc (h.cell s), h.next)

def mergeStats (h : Heap (Stat α)) (s stat : Nat) : Heap (Stat α) × Nat :=
  if (h.cell stat).time.toInt < (h.cell s).time.toInt then
    let (h, out) := copyStat h s
    (h.write out ((h.cell out).absorb (h.cell stat)), out)
  else
    let (h, out) := copyStat h stat
    (h.write out ((h.cell out).absorb (h.cell s)), out)

def mergeInPlace (h : Heap (Stat α)) (s stat : Nat) : Heap (Stat α) :=
  h.write s ((h.cell s).absorb (h.cell stat))

/-- An order and a bracketing in which stats are merged. -/
inductive MergeTree where
  | stat (ref : Nat)
  | merge (left right : MergeTree)

namespace MergeTree

def stats : MergeTree → List Nat
  | .stat ref => [ref]
  | .merge left right => left.stats ++ right.stats

def eval (h : Heap (Stat α)) : MergeTree → Heap (Stat α) × Nat
  | .stat ref => (h, ref)
  | .merge left right =>
    let l := left.eval h
    let r := right.eval l.1
    mergeStats r.1 l.2 r.2

end MergeTree

end Code

/-! ### What a merge should give -/

variable {α : Type} [AddCommMonoid α] [LinearOrder α]

/-- The values of some stats together. -/
structure Gathered (stats : List (Stat α)) (s : Stat α) : Prop where
  min : (stats.map (·.min)).min? = some s.min
  max : (stats.map (·.max)).max? = some s.max
  sum : s.sum = (stats.map (·.sum)).sum
  count : s.count = (stats.map (·.count)).sum

/-- Besides, the latest time, and the last value of the one stat that has it. -/
structure Combined (stats : List (Stat α)) (s : Stat α) : Prop extends Gathered stats s where
  time : (stats.map (·.time.toInt)).max? = some s.time.toInt
  last : (stats.map (·.time)).Nodup → ∀ q ∈ stats, q.time = s.time → s.last = q.last

section Values

variable {l m : List (Stat α)} {a b : Stat α}

theorem min_absorb (a b : Stat α) : (a.absorb b).min = min a.min b.min := by
  rw [min_comm, min_def_lt]
  rfl

theorem max_absorb (a b : Stat α) : (a.absorb b).max = max a.max b.max := by
  rw [max_def_lt]
  rfl

theorem Gathered.single (a : Stat α) : Gathered [a] a := by
  constructor <;> simp

theorem Gathered.perm (gathered : Gathered l a) (perm : l.Perm m) : Gathered m a where
  min := (min?_perm (perm.map _)).symm.trans gathered.min
  max := (max?_perm (perm.map _)).symm.trans gathered.max
  sum := gathered.sum.trans (perm.map _).sum_eq
  count := gathered.count.trans (perm.map _).sum_eq

theorem Gathered.absorb (left : Gathered l a) (right : Gathered m b) :
    Gathered (l ++ m) (a.absorb b) where
  min := by rw [List.map_append, min_absorb, min?_append left.min right.min]
  max := by rw [List.map_append, max_absorb, max?_append left.max right.max]
  sum := by rw [List.map_append, List.sum_append, ← left.sum, ← right.sum]; rfl
  count := by rw [List.map_append, List.sum_append, ← left.count, ← right.count]; rfl

theorem Combined.single (a : Stat α) : Combined [a] a := by
  refine ⟨.single a, by simp, ?_⟩
  intro _ q mem _
  rw [List.mem_singleton.mp mem]

theorem Combined.perm (combined : Combined l a) (perm : l.Perm m) : Combined m a where
  toGathered := combined.toGathered.perm perm
  time := (max?_perm (perm.map _)).symm.trans combined.time
  last distinct q mem :=
    combined.last ((perm.map _).nodup_iff.mpr distinct) q (perm.mem_iff.mpr mem)

theorem Combined.exists_latest (combined : Combined l a) : ∃ q ∈ l, q.time = a.time := by
  obtain ⟨q, mem, same⟩ := List.mem_map.mp (List.max?_mem combined.time)
  exact ⟨q, mem, BitVec.eq_of_toInt_eq same⟩

/-- The later of two results takes the other one in. -/
theorem Combined.absorb (older : b.time.toInt ≤ a.time.toInt) (left : Combined l a)
    (right : Combined m b) : Combined (l ++ m) (a.absorb b) where
  toGathered := left.toGathered.absorb right.toGathered
  time := by
    rw [List.map_append, max?_append left.time right.time, max_eq_left older]
    rfl
  last distinct q mem same := by
    rw [List.map_append, List.nodup_append] at distinct
    rcases List.mem_append.mp mem with inside | outside
    · exact left.last distinct.1 q inside same
    · -- the stat of this time on the left is another one
      obtain ⟨p, there, same'⟩ := left.exists_latest
      exact absurd (same'.trans same.symm)
        (distinct.2.2 _ (List.mem_map_of_mem there) _ (List.mem_map_of_mem outside))

end Values

/-! ### On the heap -/

section Objects

variable {h : Heap (Stat α)}

/-- `Merge` makes a new object and leaves the others alone. -/
theorem mergeStats_eq (h : Heap (Stat α)) {s stat : Nat} (used : s < h.next)
    (used' : stat < h.next) :
    mergeStats h s stat = (h.alloc
      (if (h.cell stat).time.toInt < (h.cell s).time.toInt then (h.cell s).absorb (h.cell stat)
        else (h.cell stat).absorb (h.cell s)), h.next) := by
  have written : ∀ a b : Stat α, (h.alloc a).write h.next b = h.alloc b := by
    intro a b
    rw [Heap.write, Heap.alloc, Function.update_idem]
    rfl
  rw [mergeStats]
  split_ifs
  · simp only [copyStat, Heap.alloc_cell, h.alloc_cell_of_lt used', written]
  · simp only [copyStat, Heap.alloc_cell, h.alloc_cell_of_lt used, written]

/-- A tree of merges combines its stats, and writes to new objects only. -/
theorem MergeTree.eval_combined (h : Heap (Stat α)) (t : MergeTree)
    (used : ∀ i ∈ t.stats, i < h.next) :
    Combined (t.stats.map h.cell) ((t.eval h).1.cell (t.eval h).2) ∧
      Heap.Extends h (t.eval h).1 ∧ (t.eval h).2 < (t.eval h).1.next := by
  induction t generalizing h with
  | stat ref => exact ⟨.single _, .refl, used ref (by simp [stats])⟩
  | merge left right ihl ihr =>
    obtain ⟨usedl, usedr⟩ := List.forall_mem_append.mp used
    obtain ⟨combinedl, extendsl, herel⟩ := ihl h usedl
    obtain ⟨combinedr, extendsr, herer⟩ := ihr (left.eval h).1 fun i mem =>
      Nat.lt_of_lt_of_le (usedr i mem) extendsl.next
    have same : right.stats.map (left.eval h).1.cell = right.stats.map h.cell :=
      List.map_congr_left fun i mem => extendsl.cell i (usedr i mem)
    rw [same] at combinedr
    rw [← extendsr.cell _ herel] at combinedl
    have herel' := Nat.lt_of_lt_of_le herel extendsr.next
    rw [eval, stats, List.map_append, mergeStats_eq _ herel' herer]
    refine ⟨?_, (extendsl.trans extendsr).alloc _, Nat.lt_succ_self _⟩
    rw [Heap.alloc_cell]
    split_ifs with later
    · exact combinedl.absorb later.le combinedr
    · exact (combinedr.absorb (not_lt.mp later) combinedl).perm List.perm_append_comm

/-- Stats that are merged into one of them in place are gathered there. -/
theorem foldl_mergeInPlace {s : Nat} {l : List Nat} (other : s ∉ l) {done : List (Stat α)}
    (gathered : Gathered done (h.cell s)) :
    Gathered (done ++ l.map h.cell) ((l.foldl (mergeInPlace · s) h).cell s) := by
  induction l generalizing h done with
  | nil => simpa using gathered
  | cons x l ih =>
    obtain ⟨first, rest⟩ := not_or.mp (mt List.mem_cons.mpr other)
    have step : Gathered (done ++ [h.cell x]) ((mergeInPlace h s x).cell s) := by
      rw [mergeInPlace, Heap.write_cell]
      exact gathered.absorb (.single _)
    have same : l.map (mergeInPlace h s x).cell = l.map h.cell := by
      refine List.map_congr_left fun i mem => h.write_cell_of_ne ?_ _
      rintro rfl
      exact rest mem
    have all := ih rest step
    rwa [same, List.append_assoc] at all

end Objects

/-- Merged in any order and with any bracketing, stats give the same values, and none of them is
written to. Merged in place in any order, whatever their times, they give the same values apart
from the time and the last one. -/
theorem merge_any_order (h : Heap (Stat α)) {l : List Nat} (used : ∀ i ∈ l, i < h.next)
    (t : MergeTree) (order : t.stats.Perm l) :
    Combined (l.map h.cell) ((t.eval h).1.cell (t.eval h).2) ∧
    (∀ i < h.next, (t.eval h).1.cell i = h.cell i) ∧
    ∀ s rest, (s :: rest).Perm l → l.Nodup →
      let merged := (t.eval h).1.cell (t.eval h).2
      let inPlace := (rest.foldl (mergeInPlace · s) h).cell s
      inPlace.min = merged.min ∧ inPlace.max = merged.max ∧ inPlace.sum = merged.sum ∧
        inPlace.count = merged.count := by
  obtain ⟨combined, kept, -⟩ := t.eval_combined h fun i mem => used i (order.mem_iff.mp mem)
  have all := combined.perm (order.map h.cell)
  refine ⟨all, kept.cell, ?_⟩
  intro s rest perm distinct
  have fresh := (List.nodup_cons.mp (perm.nodup_iff.mpr distinct)).1
  have gathered := (foldl_mergeInPlace fresh (.single (h.cell s))).perm (perm.map h.cell)
  refine ⟨?_, ?_, ?_, ?_⟩
  · exact Option.some.inj (gathered.min.symm.trans all.min)
  · exact Option.some.inj (gathered.max.symm.trans all.max)
  · exact gathered.sum.trans all.sum.symm
  · exact gathered.count.trans all.count.symm

/-- Three stats without a name. -/
def threeStats : Heap (Stat Int) where
  cell i := if i = 0 then ⟨none, 5, 1, 4, 2, 5, 2⟩ else if i = 1 then ⟨none, 9, 3, 3, 3, 3, 1⟩
    else ⟨none, 7, 0, 9, 9, 9, 2⟩
  next := 3

theorem merge_any_order_three :
    ∃ s : Stat Int, s = ⟨none, 9, 0, 9, 3, 17, 5⟩ ∧ Combined ([0, 1, 2].map threeStats.cell) s := by
  have all := merge_any_order threeStats (l := [0, 1, 2]) (by decide)
    (.merge (.merge (.stat 2) (.stat 1)) (.stat 0)) (by decide)
  refine ⟨_, ?_, all.1⟩
  decide

end StatMerge
