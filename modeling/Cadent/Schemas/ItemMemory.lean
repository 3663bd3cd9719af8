import Cadent.Lib.Slices
import Cadent.Schemas.Gridding
import Cadent.Schemas.TagMerge

/-!
# Render items in memory

`MergeWithResample` sorts the data of both items where it lies, keeps a copy of its own
pointers, cuts its data to length zero and appends to it while it reads the data of the other
item. It merges into the first point that it collected for a grid time. So the points, the
backing arrays and the items are in memory here, and any of them may be shared: an index that
is out of range and a nil that is looked into panic. How far a backing array grows is a
parameter, and so is `sort.Sort`, which looks into every pointer of two or more. The loop over
the grid counts in `uint32` and is run with fuel.
-/

namespace Metrics

open Repr (Tag mergeTagLists)

/-- An item with its data as a slice of pointers; its names are not read by a merge. -/
structure StoredItem where
  start : BitVec 32
  «end» : BitVec 32
  realStart : BitVec 32
  realEnd : BitVec 32
  step : BitVec 32
  data : Slice
  tags : List Tag
  metaTags : List Tag
  inCache : Bool

/-- No item has its data in an array that is not there. -/
structure Memory (α : Type) where
  points : Objects α
  arrays : Heap (Nat → Option Nat)
  items : Heap StoredItem
  placed : ∀ i, (items.cell i).data.array < arrays.next

inductive MergeError where
  | mergeStepSize
  | metrics (e : MetricsError)
  | panic
  deriving DecidableEq, Repr

namespace Memory

variable {α : Type}

section Reading

variable (m : Memory α) (i : Nat)

/-- The pointers that an item lists. -/
def pointers : List (Option Nat) := (m.items.cell i).data.contents m.arrays

/-- An item with the pointers that it lists. -/
def view : RenderItem (Option Nat) where
  start := (m.items.cell i).start
  «end» := (m.items.cell i).end
  realStart := (m.items.cell i).realStart
  realEnd := (m.items.cell i).realEnd
  step := (m.items.cell i).step
  data := m.pointers i

/-- The points that an item lists. -/
def data : Points α := m.points.load (m.pointers i)

/-- The time of the last point, or zero when there is none. -/
def lastTime : Except MergeError (BitVec 32) :=
  if 0 < (m.items.cell i).data.length then
    match (m.items.cell i).data.get m.arrays ((m.items.cell i).data.length - 1) with
    | some (some p) => .ok (m.points.cell p).time
    | _ => .error .panic
  else .ok 0#32

/-- The first and the last time of two items. -/
def unionStart (r d : Nat) : BitVec 32 :=
  if (m.items.cell d).realStart < (m.items.cell r).realStart then (m.items.cell d).realStart
  else (m.items.cell r).realStart

def unionEnd (r d : Nat) : BitVec 32 :=
  if (m.items.cell r).realEnd < (m.items.cell d).realEnd then (m.items.cell d).realEnd
  else (m.items.cell r).realEnd

/-- The cursor `o` in the data of `d` moves on to the first point after `t` and collects what
it passes; the data is read through the header that `d` has now. -/
def collectStored (d : Nat) (t : BitVec 32) : Nat → Nat → List Nat →
    Except MergeError (Nat × List Nat)
  | 0, o, pts => .ok (o, pts)
  | left + 1, o, pts =>
    match (m.items.cell d).data.get m.arrays o with
    | none => .error .panic
    | some none => collectStored d t left (o + 1) pts
    | some (some p) =>
      if t < (m.points.cell p).time then .ok (o, pts)
      else collectStored d t left (o + 1) (pts ++ [p])

/-- The same over the copy of the receiver's pointers. -/
def collectCopied (t : BitVec 32) : List Nat → List (Option Nat) → List Nat × List (Option Nat)
  | pts, [] => (pts, [])
  | pts, none :: rest => collectCopied t pts rest
  | pts, some p :: rest =>
    if t < (m.points.cell p).time then (pts, some p :: rest)
    else collectCopied t (pts ++ [p]) rest

end Reading

section Writing

variable (m : Memory α) (i : Nat)

/-- The data of an item is replaced, which may have moved to a new array. -/
def setData (arrays : Heap (Nat → Option Nat)) (data : Slice)
    (later : m.arrays.next ≤ arrays.next) (placed : data.array < arrays.next) : Memory α where
  points := m.points
  arrays := arrays
  items := m.items.write i { m.items.cell i with data := data }
  placed j := by
    by_cases same : j = i
    · subst same
      rw [Heap.write_cell]
      exact placed
    · rw [m.items.write_cell_of_ne same]
      exact Nat.lt_of_lt_of_le (m.placed j) later

/-- `r.Data = r.Data[:0]`. -/
def clearData : Memory α :=
  m.setData i m.arrays (m.items.cell i).data.clear (Nat.le_refl _)
    (show (m.items.cell i).data.clear.array < m.arrays.next from m.placed i)

/-- `r.Data = append(r.Data, p)`. -/
def appendData (grow : Nat → Nat) (p : Nat) : Memory α :=
  m.setData i ((m.items.cell i).data.append m.arrays grow (some p)).1
    ((m.items.cell i).data.append m.arrays grow (some p)).2 Slice.append_next
    (Slice.append_array_lt (m.placed i))

variable (sort : PointerSort α)

/-- The data of an item is put in order where it lies. -/
def ordered : Memory α :=
  { m with
    arrays := (m.items.cell i).data.fill m.arrays (sort m.points (m.pointers i))
    placed := m.placed }

/-- `sort.Sort` over the data of an item. -/
def sortData : Except MergeError (Memory α) :=
  if 2 ≤ (m.pointers i).length ∧ none ∈ m.pointers i then .error .panic
  else .ok (m.ordered i sort)

variable [AddCommSemigroup α] [LinearOrder α]

/-- `p.Merge(q)`, in place. -/
def mergeInto (h : Objects α) (p q : Nat) : Objects α :=
  h.write p ((h.cell p).merge (h.cell q))

/-- The point that is appended for what was collected, merged with the others in place; three
points or more are sorted first. -/
def mergePts (h : Objects α) :
    List Nat → Option (Nat × Objects α)
  | [] => none
  | [p] => some (p, h)
  | [p, q] => some (p, mergeInto h p q)
  | pts =>
    match (sort h (pts.map some)).reduceOption with
    | [] => none
    | p :: ps => some (p, ps.foldl (fun h q => mergeInto h p q) h)

def emit (grow : Nat → Nat) (pts : List Nat) : Memory α :=
  match mergePts sort m.points pts with
  | none => m
  | some (p, points) => { m with points := points }.appendData i grow p

/-- The result is `none` when the fuel does not suffice. -/
def resampleLoop (grow : Nat → Nat) (step endTime : BitVec 32) (dOn rOn : Bool) (r d oLen : Nat) :
    Nat → BitVec 32 → Memory α → Nat → List (Option Nat) → Option (Except MergeError (Memory α))
  | 0, _, _, _, _ => none
  | fuel + 1, t, m, o, rs =>
    if t ≤ endTime then
      match if dOn then m.collectStored d t (oLen - o) o [] else .ok (o, []) with
      | .error e => some (.error e)
      | .ok (o, pts) =>
        let (pts, rs) := if rOn then m.collectCopied t pts rs else (pts, rs)
        resampleLoop grow step endTime dOn rOn r d oLen fuel (t + step)
          (m.emit r sort grow pts) o rs
    else some (.ok m)

/-- What is set at the end. -/
def finish (r d : Nat) (start endTime step : BitVec 32) : Memory α where
  points := m.points
  arrays := m.arrays
  items := m.items.write r
    { start := start, «end» := endTime, realStart := start, realEnd := endTime, step := step
      data := (m.items.cell r).data
      tags := mergeTagLists (m.items.cell r).tags (m.items.cell d).tags
      metaTags := mergeTagLists (m.items.cell r).metaTags (m.items.cell d).metaTags
      inCache := if (m.items.cell d).inCache then (m.items.cell d).inCache
        else (m.items.cell r).inCache }
  placed j := by
    by_cases same : j = r
    · subst same
      rw [Heap.write_cell]
      exact m.placed j
    · rw [m.items.write_cell_of_ne same]
      exact m.placed j

/-- Both items in the order of time, with the times of their last points. -/
def sortBoth (r d : Nat) : Except MergeError (Memory α × BitVec 32 × BitVec 32) := do
  let m ← m.sortData r sort
  let m ← m.sortData d sort
  let dEndTime ← m.lastTime d
  let rEndTime ← m.lastTime r
  return (m, dEndTime, rEndTime)

/-- `r.MergeWithResample(d, step)`; the outer result is `none` when the fuel does not
suffice. -/
def mergeWithResample (grow : Nat → Nat) (fuel : Nat) (r d : Nat) (step : BitVec 32) :
    Option (Except MergeError (Memory α)) :=
  if step = 0#32 then some (.error (.metrics .quantizeStepTooSmall))
  else
    let start := gridStart (m.unionStart r d) step
    let endTime := gridEnd (m.unionEnd r d) step
    match m.sortBoth sort r d with
    | .error e => some (.error e)
    | .ok (m, dEndTime, rEndTime) =>
      let iLen := (m.items.cell r).data.length
      let oLen := (m.items.cell d).data.length
      let dOn := decide (0#32 < dEndTime) && decide (0 < oLen)
      let rOn := decide (0#32 < rEndTime) && decide (0 < iLen)
      (resampleLoop sort grow step endTime dOn rOn r d oLen fuel start (m.clearData r) 0
        (m.pointers r)).map (·.map fun m => m.finish r d start endTime step)

end Writing

/-! ### What the parts read and write -/

section Frame

variable (m : Memory α) {i j : Nat}

theorem setData_self {arrays : Heap (Nat → Option Nat)} {data : Slice}
    (later : m.arrays.next ≤ arrays.next) (placed : data.array < arrays.next) :
    (m.setData i arrays data later placed).items.cell i = { m.items.cell i with data := data } :=
  Heap.write_cell ..

theorem setData_of_ne {arrays : Heap (Nat → Option Nat)} {data : Slice}
    (later : m.arrays.next ≤ arrays.next) (placed : data.array < arrays.next) (ne : j ≠ i) :
    (m.setData i arrays data later placed).items.cell j = m.items.cell j :=
  Heap.write_cell_of_ne _ ne _

theorem pointers_clearData : (m.clearData i).pointers i = [] := by
  rw [pointers, clearData, setData_self]
  rfl

theorem pointers_appendData (grow : Nat → Nat) (p : Nat) :
    (m.appendData i grow p).pointers i = m.pointers i ++ [some p] := by
  rw [pointers, appendData, setData_self]
  exact Slice.contents_append

theorem appendData_data (grow : Nat → Nat) (p : Nat) :
    ((m.appendData i grow p).items.cell i).data =
      ((m.items.cell i).data.append m.arrays grow (some p)).2 := by
  rw [appendData, setData_self]

theorem appendData_of_ne (ne : j ≠ i) (grow : Nat → Nat) (p : Nat) :
    (m.appendData i grow p).items.cell j = m.items.cell j := by
  rw [appendData, setData_of_ne _ _ _ ne]

theorem data_finish (r d : Nat) (start endTime step : BitVec 32) :
    (m.finish r d start endTime step).data r = m.data r := by
  rw [data, pointers, finish, Heap.write_cell]
  rfl

end Frame

section Union

variable (m : Memory α) (r d : Nat)

theorem toNat_unionStart : (m.unionStart r d).toNat =
    min (m.items.cell r).realStart.toNat (m.items.cell d).realStart.toNat := by
  rw [unionStart]
  simp only [BitVec.lt_def]
  split_ifs <;> omega

theorem toNat_unionEnd : (m.unionEnd r d).toNat =
    max (m.items.cell r).realEnd.toNat (m.items.cell d).realEnd.toNat := by
  rw [unionEnd]
  simp only [BitVec.lt_def]
  split_ifs <;> omega

theorem unionStart_comm : m.unionStart d r = m.unionStart r d :=
  BitVec.eq_of_toNat_eq (by rw [toNat_unionStart, toNat_unionStart, min_comm])

theorem unionEnd_comm : m.unionEnd d r = m.unionEnd r d :=
  BitVec.eq_of_toNat_eq (by rw [toNat_unionEnd, toNat_unionEnd, max_comm])

end Union

section Ordered

variable {sort : PointerSort α}
  {m : Memory α} {i j : Nat}

theorem sortData_eq (nonNil : ∀ p ∈ m.pointers i, p ≠ none) :
    m.sortData i sort = .ok (m.ordered i sort) :=
  if_neg fun looks => nonNil none looks.2 rfl

theorem pointers_ordered (sorts : SortsPointers sort) :
    (m.ordered i sort).pointers i = sort m.points (m.pointers i) := by
  refine Slice.contents_fill ?_
  rw [(sorts.perm _ _).length_eq, pointers, Slice.length_contents]

theorem pointers_ordered_of_apart (sorts : SortsPointers sort)
    (apart : (m.items.cell i).data.Apart (m.items.cell j).data) :
    (m.ordered i sort).pointers j = m.pointers j := by
  refine Slice.contents_fill_of_apart apart ?_
  rw [(sorts.perm _ _).length_eq, pointers, Slice.length_contents]

theorem nonNil_ordered (sorts : SortsPointers sort) (nonNil : ∀ p ∈ m.pointers i, p ≠ none)
    (nonNil' : ∀ p ∈ m.pointers j, p ≠ none) : ∀ p ∈ (m.ordered i sort).pointers j, p ≠ none := by
  intro p mem
  rcases Slice.mem_contents_fill mem with old | sorted
  · exact nonNil' p old
  · exact nonNil p ((sorts.perm _ _).subset sorted)

theorem lastTime_cases (nonNil : ∀ p ∈ m.pointers i, p ≠ none) :
    (m.pointers i = [] ∧ m.lastTime i = .ok 0#32) ∨
      ∃ p, some p ∈ m.pointers i ∧ m.lastTime i = .ok (m.points.cell p).time := by
  rcases Nat.eq_zero_or_pos (m.items.cell i).data.length with none | some
  · refine .inl ⟨?_, ?_⟩
    · rw [← List.length_eq_zero_iff, pointers, Slice.length_contents, none]
    · rw [lastTime, if_neg (by omega)]
  · refine .inr ?_
    have lt : (m.items.cell i).data.length - 1 < (m.pointers i).length := by
      rw [pointers, Slice.length_contents]
      omega
    have read : (m.items.cell i).data.get m.arrays ((m.items.cell i).data.length - 1) =
        (m.pointers i)[(m.items.cell i).data.length - 1]? := Slice.get_eq ..
    rw [List.getElem?_eq_getElem lt] at read
    have mem := List.getElem_mem lt
    obtain ⟨p, pointer⟩ := Option.ne_none_iff_exists'.mp (nonNil _ mem)
    rw [pointer] at read mem
    exact ⟨p, mem, by rw [lastTime, if_pos some, read]⟩

theorem exists_lastTime (nonNil : ∀ p ∈ m.pointers i, p ≠ none) : ∃ t, m.lastTime i = .ok t := by
  rcases lastTime_cases nonNil with ⟨-, read⟩ | ⟨p, -, read⟩
  · exact ⟨_, read⟩
  · exact ⟨_, read⟩

/-- Only an empty list is passed over, when every point has a time. -/
theorem empty_of_off {l : List Nat} (list : m.pointers i = l.map some)
    (timed : ∀ p ∈ m.data i, 1 ≤ p.time.toNat) {t : BitVec 32} (read : m.lastTime i = .ok t)
    (off : (decide (0#32 < t) && decide (0 < (m.items.cell i).data.length)) = false) : l = [] := by
  have nonNil : ∀ p ∈ m.pointers i, p ≠ none := by
    rw [list]
    simp
  rcases lastTime_cases nonNil with ⟨empty, -⟩ | ⟨p, mem, last⟩
  · rw [list] at empty
    exact List.map_eq_nil_iff.mp empty
  · obtain rfl := Except.ok.inj (read.symm.trans last)
    have after : 0#32 < (m.points.cell p).time :=
      timed _ (List.mem_filterMap.mpr ⟨some p, mem, rfl⟩)
    have filled : 0 < (m.items.cell i).data.length := by
      have := List.length_pos_of_mem mem
      rwa [pointers, Slice.length_contents] at this
    simp [after, filled] at off

end Ordered

/-! ### The call up to its loop -/

section Call

variable {sort : PointerSort α}
  {m : Memory α} {r d : Nat}

variable (sort m r d) in
/-- Both items in order; nothing else is changed. -/
def inOrder : Memory α := (m.ordered r sort).ordered d sort

theorem inOrder_points : (m.inOrder sort r d).points = m.points := rfl

theorem inOrder_items : (m.inOrder sort r d).items = m.items := rfl

theorem sortBoth_eq (sorts : SortsPointers sort)
    (nonNil : ∀ p ∈ m.pointers r ++ m.pointers d, p ≠ none) :
    ∃ dEndTime rEndTime, m.sortBoth sort r d = .ok (m.inOrder sort r d, dEndTime, rEndTime) ∧
      (m.inOrder sort r d).lastTime d = .ok dEndTime ∧
      (m.inOrder sort r d).lastTime r = .ok rEndTime := by
  have nonNilR : ∀ p ∈ m.pointers r, p ≠ none := fun p mem => nonNil p (List.mem_append_left _ mem)
  have nonNilR' := nonNil_ordered sorts nonNilR nonNilR
  have nonNilD' : ∀ p ∈ (m.ordered r sort).pointers d, p ≠ none :=
    nonNil_ordered sorts nonNilR fun p mem => nonNil p (List.mem_append_right _ mem)
  obtain ⟨dEndTime, readD⟩ := exists_lastTime (nonNil_ordered sorts nonNilD' nonNilD')
  obtain ⟨rEndTime, readR⟩ := exists_lastTime (nonNil_ordered sorts nonNilD' nonNilR')
  refine ⟨dEndTime, rEndTime, ?_, readD, readR⟩
  rw [sortBoth, sortData_eq nonNilR]
  dsimp only [Bind.bind, Except.bind]
  rw [sortData_eq nonNilD']
  dsimp only
  rw [readD, readR]
  rfl

variable [AddCommSemigroup α] [LinearOrder α]

/-- Without a nil the call gets to its loop, from the sorted items with `r` cut to nothing. -/
theorem mergeWithResample_eq (sorts : SortsPointers sort) {step : BitVec 32}
    (pos : 0 < step.toNat) (nonNil : ∀ p ∈ m.pointers r ++ m.pointers d, p ≠ none) :
    ∃ dEndTime rEndTime,
      (m.inOrder sort r d).lastTime d = .ok dEndTime ∧
      (m.inOrder sort r d).lastTime r = .ok rEndTime ∧
      ∀ grow fuel, m.mergeWithResample sort grow fuel r d step =
        (resampleLoop sort grow step (gridEnd (m.unionEnd r d) step)
          (decide (0#32 < dEndTime) && decide (0 < (m.items.cell d).data.length))
          (decide (0#32 < rEndTime) && decide (0 < (m.items.cell r).data.length)) r d
          (m.items.cell d).data.length fuel (gridStart (m.unionStart r d) step)
          ((m.inOrder sort r d).clearData r) 0 ((m.inOrder sort r d).pointers r)).map
          (·.map fun m' => m'.finish r d (gridStart (m.unionStart r d) step)
            (gridEnd (m.unionEnd r d) step) step) := by
  obtain ⟨dEndTime, rEndTime, both, readD, readR⟩ := sortBoth_eq sorts nonNil
  refine ⟨dEndTime, rEndTime, readD, readR, fun grow fuel => ?_⟩
  rw [mergeWithResample, if_neg (step_ne_zero pos)]
  dsimp only
  rw [both]
  rfl

end Call

end Memory

end Metrics
