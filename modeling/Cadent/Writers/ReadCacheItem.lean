import Cadent.Series.Formats
import Mathlib.Algebra.Order.BigOperators.Group.List
import Mathlib.Data.List.Induction
import Mathlib.Order.Bounds.Basic

/-!
# The read cache of one metric

An item keeps the newest points of a metric in a protobuf series. Before a point is added the oldest
one is cut off the series' list if its length in bytes is above a maximum. That length is a counter
of the series, which grows with each point and is never lowered, and the start and the end move with
each point that is added and with none that is cut off. Times are nanoseconds.
-/

namespace Formats

open Binary64 TimeSeries

/-- The rounds of `sovProtobuf`. -/
def sovRounds : Nat → BitVec 64 → Nat
  | 0, _ => 0
  | rounds + 1, x => if x >>> 7 = 0#64 then 1 else 1 + sovRounds rounds (x >>> 7)

/-- Ten rounds shift all bits out. -/
def sovProtobuf (x : BitVec 64) : Nat := sovRounds 10 x

/-- The size of a field of one of the integer types, which is left out if it is zero. -/
def varintSize (x : BitVec 64) : Nat := if x = 0#64 then 0 else 1 + sovProtobuf x

def doubleSize (x : Float64) : Nat := if feq x 0#64 then 0 else 9

/-- The size of a message inside another one. -/
def embeddedSize (l : Nat) : Nat := 1 + l + sovProtobuf (BitVec.ofNat 64 l)

/-- `ProtStat.Size`. -/
def Stat.size : Stat → Nat
  | .full p => 2 + embeddedSize (varintSize p.t + doubleSize p.min + doubleSize p.max +
      doubleSize p.sum + doubleSize p.last + varintSize p.count)
  | .small t val => embeddedSize (varintSize t + doubleSize val)

theorem Stat.size_pos (s : Stat) : 0 < s.size := by
  cases s <;> simp only [Stat.size, embeddedSize] <;> omega

end Formats

namespace ReadCache

open Binary64 Formats TimeSeries

/-- The zero of `time.Time`. -/
def zeroTime : Int := -62135596800000000000

/-- `StatRepr.ToTime`, in nanoseconds. -/
def toTime (t : BitVec 64) : Int :=
  if 2147483647 < t.toInt then t.toInt else t.toInt * 1000000000

/-- `len` is what `Len` of the series returns. -/
structure ReadCacheItem where
  startTime : Int
  endTime : Int
  data : ProtobufTimeSeries
  len : Nat
  maxBytes : Nat
  deriving DecidableEq

def newReadCacheItem (maxBytes : Nat) : ReadCacheItem :=
  ⟨zeroTime, zeroTime, .newProtobufTimeSeries 0#64 newDefaultOptions, 0, maxBytes⟩

/-- `Add` of a stat or `AddValues`. -/
inductive Call where
  | add (stat : Point)
  | addValues (t : Int) (min max last sum : Float64) (count : BitVec 64)
  deriving DecidableEq

namespace Call

/-- What is given to the series. -/
def point : Call → Point
  | .add stat => stat
  | .addValues t min max last sum count => ⟨BitVec.ofInt 64 t, min, max, last, sum, count⟩

def time : Call → Int
  | .add stat => toTime stat.t
  | .addValues t .. => t

/-- What the series keeps of it. -/
def stored (c : Call) : Stat := newStat newDefaultOptions.highTimeResolution Point.isSmall c.point

end Call

namespace ReadCacheItem

variable (rc : ReadCacheItem)

/-- The series' list with room for one more. The cut of an empty list panics. -/
def room : Option (List Stat) :=
  if rc.maxBytes < rc.len then
    match rc.data.stats with
    | [] => none
    | _ :: rest => some rest
  else some rc.data.stats

def add (c : Call) : Option ReadCacheItem := do
  let stats ← rc.room
  return { rc with
    data := { rc.data with stats := stats }.addPoint c.point
    len := rc.len + (newStat rc.data.fullTimeResolution Point.isSmall c.point).size
    endTime := if rc.endTime < c.time then c.time else rc.endTime
    startTime := if c.time < rc.startTime ∨ rc.startTime = zeroTime then c.time else rc.startTime }

def addAll (calls : List Call) : Option ReadCacheItem := calls.foldlM add rc

def size : Nat := rc.len

end ReadCacheItem

/-- The encoded size of some points. -/
def total (calls : List Call) : Nat := (calls.map fun c => c.stored.size).sum

/-- The item is a window on the calls, in which some are kept. -/
structure Window (rc : ReadCacheItem) (calls kept : List Call) : Prop where
  newest : kept <:+ calls
  retained : rc.data.stats = kept.map Call.stored
  size : rc.size = total kept
  above : rc.size ≤ rc.maxBytes ∨ ∃ c ∈ kept, rc.size ≤ rc.maxBytes + c.stored.size
  start : kept ≠ [] → IsLeast {t | ∃ c ∈ kept, c.time = t} rc.startTime
  last : kept ≠ [] → IsGreatest {t | ∃ c ∈ kept, c.time = t} rc.endTime

/-! ### What an item is after some calls -/

/-- The item after some calls, the first `cut` of which are cut off. -/
structure Traced (maxBytes : Nat) (rc : ReadCacheItem) (calls : List Call) (cut : Nat) : Prop where
  limit : rc.maxBytes = maxBytes
  resolution : rc.data.fullTimeResolution = newDefaultOptions.highTimeResolution
  stats : rc.data.stats = (calls.drop cut).map Call.stored
  len : rc.len = total calls
  left : calls ≠ [] → cut < calls.length
  whole : cut = 0 ↔ total calls.dropLast ≤ maxBytes

theorem total_append (l l' : List Call) : total (l ++ l') = total l + total l' := by
  simp [total]

theorem total_concat (l : List Call) (c : Call) : total (l ++ [c]) = total l + c.stored.size := by
  simp [total]

theorem total_pos {l : List Call} (some : l ≠ []) : 0 < total l := by
  obtain ⟨c, l, rfl⟩ := List.exists_cons_of_ne_nil some
  have := c.stored.size_pos
  simp only [total, List.map_cons, List.sum_cons]
  omega

theorem total_dropLast_le (l : List Call) : total l.dropLast ≤ total l := by
  rcases List.eq_nil_or_concat' l with rfl | ⟨l, c, rfl⟩
  · exact le_rfl
  · rw [List.dropLast_concat, total_concat]
    omega

variable {maxBytes cut : Nat} {rc : ReadCacheItem} {calls : List Call}

theorem traced_new (maxBytes : Nat) : Traced maxBytes (newReadCacheItem maxBytes) [] 0 :=
  ⟨rfl, rfl, rfl, rfl, nofun, by simp [total]⟩

/-- There is always room, and it is made of the oldest point once the counter is above. -/
theorem room_of_traced (traced : Traced maxBytes rc calls cut) :
    ∃ cut' ≤ calls.length, rc.room = some ((calls.drop cut').map Call.stored) ∧
      (cut' = 0 ↔ total calls ≤ maxBytes) := by
  rw [ReadCacheItem.room, traced.limit, traced.len]
  by_cases above : maxBytes < total calls
  · have some : calls ≠ [] := by
      rintro rfl
      exact Nat.not_lt_zero _ above
    have left := traced.left some
    refine ⟨cut + 1, left, ?_, iff_of_false (Nat.succ_ne_zero cut) (not_le.mpr above)⟩
    rw [if_pos above, traced.stats, List.drop_eq_getElem_cons left, List.map_cons]
  · rw [if_neg above, traced.stats]
    have whole : cut = 0 :=
      traced.whole.mpr ((total_dropLast_le calls).trans (not_lt.mp above))
    exact ⟨cut, whole ▸ Nat.zero_le _, rfl, iff_of_true whole (not_lt.mp above)⟩

theorem traced_add (traced : Traced maxBytes rc calls cut) (c : Call) :
    ∃ rc' cut', rc.add c = some rc' ∧ Traced maxBytes rc' (calls ++ [c]) cut' := by
  obtain ⟨cut', inside, room, whole⟩ := room_of_traced traced
  rw [ReadCacheItem.add, room]
  refine ⟨_, cut', rfl, traced.limit, traced.resolution, ?_, ?_, fun _ => ?_, ?_⟩
  · rw [List.drop_append_of_le_length inside, List.map_append, List.map_singleton, Call.stored,
      ← traced.resolution]
    rfl
  · rw [total_concat, traced.len, Call.stored, traced.resolution]
  · rw [List.length_append, List.length_singleton]
    omega
  · rw [List.dropLast_concat]
    exact whole

/-- The start and the end are those of all calls. -/
structure Spanned (rc : ReadCacheItem) (calls : List Call) : Prop where
  positive : ∀ c ∈ calls, 0 < c.time
  fresh : calls = [] → rc.startTime = zeroTime ∧ rc.endTime = zeroTime
  start : calls ≠ [] → IsLeast {t | ∃ c ∈ calls, c.time = t} rc.startTime
  last : calls ≠ [] → IsGreatest {t | ∃ c ∈ calls, c.time = t} rc.endTime

theorem times_concat {α : Type} (time : α → Int) (l : List α) (x : α) :
    {t | ∃ y ∈ l ++ [x], time y = t} = insert (time x) {t | ∃ y ∈ l, time y = t} := by
  ext t
  simp only [List.mem_append, List.mem_singleton, Set.mem_ofPred_eq, Set.mem_insert_iff]
  constructor
  · rintro ⟨y, old | rfl, same⟩
    · exact .inr ⟨y, old, same⟩
    · exact .inl same.symm
  · rintro (rfl | ⟨y, old, same⟩)
    · exact ⟨x, .inr rfl, rfl⟩
    · exact ⟨y, .inl old, same⟩

theorem spanned_add {rc' : ReadCacheItem} {c : Call} (spanned : Spanned rc calls)
    (positive : 0 < c.time) (added : rc.add c = some rc') : Spanned rc' (calls ++ [c]) := by
  rw [ReadCacheItem.add, Option.bind_eq_bind, Option.bind_eq_some_iff] at added
  obtain ⟨stats, -, same⟩ := added
  obtain rfl := Option.some.inj same
  refine ⟨?_, fun none => absurd none (List.concat_ne_nil c calls), fun _ => ?_, fun _ => ?_⟩
  · simpa [or_imp, forall_and] using ⟨spanned.positive, positive⟩
  · rw [times_concat]
    by_cases none : calls = []
    · rw [(spanned.fresh none).1, if_pos (.inr rfl)]
      simp [none]
    · have least := spanned.start none
      have later : rc.startTime ≠ zeroTime := by
        obtain ⟨d, mem, same⟩ := least.1
        have := spanned.positive d mem
        rw [← same, zeroTime]
        omega
      have smaller : (if c.time < rc.startTime ∨ rc.startTime = zeroTime then c.time
          else rc.startTime) = min c.time rc.startTime := by
        simp only [later, or_false]
        split_ifs <;> omega
      rw [smaller]
      exact least.insert c.time
  · rw [times_concat]
    by_cases none : calls = []
    · have after : zeroTime < c.time := by
        rw [zeroTime]
        omega
      rw [(spanned.fresh none).2, if_pos after]
      simp [none]
    · have larger : (if rc.endTime < c.time then c.time else rc.endTime) =
          max c.time rc.endTime := by
        split_ifs <;> omega
      rw [larger]
      exact (spanned.last none).insert c.time

theorem addAll_concat (rc : ReadCacheItem) (calls : List Call) (c : Call) :
    rc.addAll (calls ++ [c]) = (rc.addAll calls).bind (·.add c) := by
  rw [ReadCacheItem.addAll, List.foldlM_append]
  exact Option.bind_congr fun rc' _ => by simp

/-- No call panics, and what the item is after all of them. -/
theorem traced_addAll (maxBytes : Nat) (calls : List Call) :
    ∃ rc cut, (newReadCacheItem maxBytes).addAll calls = some rc ∧
      Traced maxBytes rc calls cut := by
  induction calls using List.reverseRecOn with
  | nil => exact ⟨_, 0, rfl, traced_new maxBytes⟩
  | append_singleton calls c ih =>
    obtain ⟨rc, cut, ran, traced⟩ := ih
    obtain ⟨rc', cut', added, traced'⟩ := traced_add traced c
    exact ⟨rc', cut', by rw [addAll_concat, ran, Option.bind_some, added], traced'⟩

theorem spanned_addAll (ran : (newReadCacheItem maxBytes).addAll calls = some rc)
    (positive : ∀ c ∈ calls, 0 < c.time) : Spanned rc calls := by
  induction calls using List.reverseRecOn generalizing rc with
  | nil =>
    obtain rfl := Option.some.inj ran
    exact ⟨nofun, fun _ => ⟨rfl, rfl⟩, fun none => absurd rfl none, fun none => absurd rfl none⟩
  | append_singleton calls c ih =>
    rw [addAll_concat, Option.bind_eq_some_iff] at ran
    obtain ⟨before, ran, added⟩ := ran
    obtain ⟨earlier, last⟩ := List.forall_mem_append.mp positive
    exact spanned_add (ih ran earlier) (last c (List.mem_singleton_self c)) added

/-! ### The window -/

theorem window_iff_of_traced (traced : Traced maxBytes rc calls cut) (spanned : Spanned rc calls) :
    (∃ kept, Window rc calls kept) ↔ total calls.dropLast ≤ maxBytes := by
  constructor
  · rintro ⟨kept, window⟩
    -- what the counter counts is kept, so nothing is cut off
    obtain ⟨gone, rfl⟩ := window.newest
    have all : gone = [] := by
      by_contra some
      have := total_pos some
      have size := window.size
      rw [ReadCacheItem.size, traced.len, total_append] at size
      omega
    subst all
    rw [List.nil_append] at traced ⊢
    by_cases none : kept = []
    · simp [none, total]
    · refine traced.whole.mp ?_
      have same := congrArg List.length (window.retained.symm.trans traced.stats)
      have := traced.left none
      simp only [List.length_map, List.length_drop] at same
      omega
  · intro within
    have whole := traced.whole.mpr within
    refine ⟨calls, List.suffix_refl calls, ?_, traced.len, ?_, spanned.start, spanned.last⟩
    · rw [traced.stats, whole, List.drop_zero]
    · rw [ReadCacheItem.size, traced.len, traced.limit]
      rcases List.eq_nil_or_concat' calls with rfl | ⟨earlier, c, rfl⟩
      · exact .inl (Nat.zero_le _)
      · rw [List.dropLast_concat] at within
        refine .inr ⟨c, List.mem_append_right _ (List.mem_singleton_self c), ?_⟩
        rw [total_concat]
        omega

/-- An item is a window on its points just when nothing was ever cut off: the points before the
last one fit into the maximum. -/
theorem window_iff (maxBytes : Nat) (calls : List Call) (positive : ∀ c ∈ calls, 0 < c.time) :
    ∃ rc, (newReadCacheItem maxBytes).addAll calls = some rc ∧
      ((∃ kept, Window rc calls kept) ↔ total calls.dropLast ≤ maxBytes) := by
  obtain ⟨rc, cut, ran, traced⟩ := traced_addAll maxBytes calls
  exact ⟨rc, ran, window_iff_of_traced traced (spanned_addAll ran positive)⟩

/-- A stat with one value, at some second. -/
def single (second : BitVec 64) : Call := .add ⟨second, 0#64, 0#64, 0#64, 0#64, 1#64⟩

theorem window_iff_two :
    ∃ rc kept, (newReadCacheItem 100).addAll [single 20#64, single 10#64] = some rc ∧
      Window rc [single 20#64, single 10#64] kept := by
  obtain ⟨rc, ran, iff⟩ := window_iff 100 [single 20#64, single 10#64] (by decide)
  obtain ⟨kept, window⟩ := iff.mpr (by decide)
  exact ⟨rc, kept, ran, window⟩

/-- With no room for two points, the older one is cut off, and the size is still that of both. The
start is still the older one's time. -/
theorem not_window :
    ∃ rc, (newReadCacheItem 0).addAll [single 10#64, single 20#64] = some rc ∧
      rc.data.stats = [(single 20#64).stored] ∧ (single 20#64).stored.size = 4 ∧ rc.size = 8 ∧
      rc.startTime = 10000000000 ∧ (single 20#64).time = 20000000000 ∧
      ¬ ∃ kept, Window rc [single 10#64, single 20#64] kept := by
  obtain ⟨rc, cut, ran, traced⟩ := traced_addAll 0 [single 10#64, single 20#64]
  have spanned := spanned_addAll ran (by decide)
  have is : rc = ((newReadCacheItem 0).addAll [single 10#64, single 20#64]).get (by decide) :=
    (Option.get_of_eq_some _ ran).symm
  refine ⟨rc, ran, ?_, by decide, ?_, ?_, by decide, ?_⟩
  · rw [is]
    decide
  · rw [is]
    decide
  · rw [is]
    decide
  · rw [window_iff_of_traced traced spanned]
    decide

end ReadCache
