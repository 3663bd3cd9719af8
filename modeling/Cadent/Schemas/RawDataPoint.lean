import Cadent.Lib.Tally
import Mathlib.Algebra.BigOperators.Group.List.Basic
import Mathlib.Algebra.Order.BigOperators.Group.List
import Mathlib.Algebra.Order.Group.Nat
import Mathlib.Data.Int.Basic
import Mathlib.Order.Lattice

/-!
# Data points and render items

A `RawDataPoint` with its values in any type with an order and an addition: `none` is the
NaN that the source uses for an absent value. The type of the counts is open as well: it is
`Int64` where overflow matters, and `Int` where the arithmetic is exact. Of a `RawRenderItem`
only the times, the step and the data are kept. What a merge keeps of its points is said for
exact values, where addition is associative and commutative and the order is linear.
-/

namespace Metrics

@[ext] structure RawDataPoint (κ α : Type) where
  time : BitVec 32
  sum : Option α
  min : Option α
  max : Option α
  last : Option α
  count : κ
  deriving DecidableEq, Repr

/-- A render item over a list of any kind of slots. -/
structure RenderItem (π : Type) where
  start : BitVec 32
  «end» : BitVec 32
  realStart : BitVec 32
  realEnd : BitVec 32
  step : BitVec 32
  data : List π
  deriving DecidableEq, Repr

abbrev RawRenderItem (κ α : Type) := RenderItem (RawDataPoint κ α)

/-- Points with the counts of the source. -/
abbrev Points (α : Type) := List (RawDataPoint Int64 α)

section Merge

variable {κ α : Type}

namespace RawDataPoint

def isNull (r : RawDataPoint κ α) : Bool :=
  r.sum.isNone && r.last.isNone && r.min.isNone && r.max.isNone

theorem isNull_eq_false_of_last {d : RawDataPoint κ α} (present : d.last.isSome) :
    d.isNull = false := by
  cases last : d.last <;> simp_all [isNull]

end RawDataPoint

variable [Zero κ] [Add κ] [LT κ] [DecidableLT κ] [DecidableEq κ] [Add α] [LT α] [DecidableLT α]

/-- A comparison with NaN is false. -/
def floatLt : Option α → Option α → Bool
  | some a, some b => a < b
  | _, _ => false

/-- A sum with NaN is NaN. -/
def floatAdd : Option α → Option α → Option α
  | some a, some b => some (a + b)
  | _, _ => none

namespace RawDataPoint

def null (t0 : BitVec 32) : RawDataPoint κ α := ⟨t0, none, none, none, none, 0⟩

/-- `r.Merge(d)`; the fields are independent but for `Last`, which reads the old time. -/
def merge (r d : RawDataPoint κ α) : RawDataPoint κ α :=
  if d.isNull then r
  else
    let newer := if d.time ≠ 0#32 ∧ r.time < d.time ∧ d.last.isSome then d.last else r.last
    { max := if r.max.isNone || floatLt r.max d.max then d.max else r.max
      min := if r.min.isNone || floatLt d.min r.min then d.min else r.min
      sum :=
        if r.sum.isNone && d.sum.isSome then d.sum
        else if r.sum.isSome && d.sum.isSome then floatAdd r.sum d.sum
        else r.sum
      last := if newer.isNone && d.last.isSome then d.last else newer
      count :=
        if r.count = 0 ∧ 0 < d.count then d.count
        else if 0 < r.count ∧ 0 < d.count then r.count + d.count
        else r.count
      time := if r.time < d.time then d.time else r.time }

end RawDataPoint

end Merge

/-! ### What a merge keeps of its points -/

variable {κ α : Type} [Zero κ] [Add κ] [LT κ] [DecidableLT κ] [DecidableEq κ] [Tally κ]
  [AddCommSemigroup α] [LinearOrder α]

/-- Everything of a point but `Last`. -/
structure Totals (α : Type) where
  time : Nat
  min : Option α
  max : Option α
  sum : Option α
  count : Int
  deriving DecidableEq, Repr

namespace Totals

/-- Of nothing. -/
instance : Zero (Totals α) := ⟨⟨0, none, none, none, 0⟩⟩

instance : Add (Totals α) where
  add a b := ⟨a.time ⊔ b.time, a.min.merge (· ⊓ ·) b.min, a.max.merge (· ⊔ ·) b.max,
    a.sum.merge (· + ·) b.sum, a.count + b.count⟩

omit [AddCommSemigroup α] [LinearOrder α] in
theorem zero_def : (0 : Totals α) = ⟨0, none, none, none, 0⟩ := rfl

theorem add_def (a b : Totals α) : a + b =
    ⟨a.time ⊔ b.time, a.min.merge (· ⊓ ·) b.min, a.max.merge (· ⊔ ·) b.max,
      a.sum.merge (· + ·) b.sum, a.count + b.count⟩ := rfl

instance : AddCommMonoid (Totals α) where
  add_assoc a b c := by
    simp only [add_def, Totals.mk.injEq]
    exact ⟨sup_assoc _ _ _, (Option.associative_merge fun x y : α => x ⊓ y).assoc _ _ _,
      (Option.associative_merge fun x y : α => x ⊔ y).assoc _ _ _,
      (Option.associative_merge fun x y : α => x + y).assoc _ _ _, Int.add_assoc _ _ _⟩
  add_comm a b := by
    simp only [add_def, Totals.mk.injEq]
    exact ⟨sup_comm _ _, (Option.commutative_merge fun x y : α => x ⊓ y).comm _ _,
      (Option.commutative_merge fun x y : α => x ⊔ y).comm _ _,
      (Option.commutative_merge fun x y : α => x + y).comm _ _, Int.add_comm _ _⟩
  zero_add a := by
    rw [add_def, zero_def]
    simp
  add_zero a := by
    rw [add_def, zero_def]
    simp
  nsmul := nsmulRec

end Totals

namespace RawDataPoint

def totals (p : RawDataPoint κ α) : Totals α :=
  ⟨p.time.toNat, p.min, p.max, p.sum, Tally.value p.count⟩

omit [DecidableLT κ] [DecidableEq κ] [AddCommSemigroup α] [LinearOrder α] in
theorem totals_null : (null 0#32 : RawDataPoint κ α).totals = 0 := by
  rw [totals, null, Tally.value_zero]
  rfl

/-- A point that carries a value, counted zero times or more. -/
structure Solid (p : RawDataPoint κ α) : Prop where
  notNull : p.isNull = false
  counted : 0 ≤ Tally.value p.count

instance (p : RawDataPoint κ α) : Decidable p.Solid :=
  decidable_of_iff (p.isNull = false ∧ 0 ≤ Tally.value p.count)
    ⟨fun h => ⟨h.1, h.2⟩, fun h => ⟨h.1, h.2⟩⟩

omit [AddCommSemigroup α] in
theorem max_merge (a b : Option α) :
    (if a.isNone || floatLt a b then b else a) = a.merge (· ⊔ ·) b := by
  rcases a with _ | a
  · simp
  · rcases b with _ | b
    · simp [floatLt]
    · by_cases lt : a < b
      · simp [floatLt, lt, max_eq_right lt.le]
      · simp [floatLt, lt, max_eq_left (not_lt.mp lt)]

omit [AddCommSemigroup α] in
theorem min_merge (a b : Option α) :
    (if a.isNone || floatLt b a then b else a) = a.merge (· ⊓ ·) b := by
  rcases a with _ | a
  · simp
  · rcases b with _ | b
    · simp [floatLt]
    · by_cases lt : b < a
      · simp [floatLt, lt, min_eq_right lt.le]
      · simp [floatLt, lt, min_eq_left (not_lt.mp lt)]

omit [LinearOrder α] in
theorem sum_merge (a b : Option α) :
    (if a.isNone && b.isSome then b else if a.isSome && b.isSome then floatAdd a b else a) =
      a.merge (· + ·) b := by
  rcases a with _ | a <;> rcases b with _ | b <;> rfl

omit [Tally κ] in
theorem toNat_time_merge {r d : RawDataPoint κ α} (some : d.isNull = false) :
    (r.merge d).time.toNat = r.time.toNat ⊔ d.time.toNat := by
  by_cases lt : r.time < d.time
  · have le : r.time.toNat ≤ d.time.toNat := BitVec.le_of_lt lt
    simp [merge, some, lt, le]
  · have le : d.time.toNat ≤ r.time.toNat := BitVec.not_lt.mp lt
    simp [merge, some, lt, le]

theorem value_count_merge {r d : RawDataPoint κ α} (counted : 0 ≤ Tally.value r.count)
    (solid : d.Solid) (fits : Tally.InRange κ (Tally.value r.count + Tally.value d.count)) :
    Tally.value (r.merge d).count = Tally.value r.count + Tally.value d.count := by
  have nonneg := solid.counted
  have zero : r.count = 0 ↔ Tally.value r.count = 0 := Tally.eq_zero_iff
  have pos : 0 < r.count ↔ 0 < Tally.value r.count := Tally.pos_iff
  have pos' : 0 < d.count ↔ 0 < Tally.value d.count := Tally.pos_iff
  simp only [merge, solid.notNull, Bool.false_eq_true, if_false, zero, pos, pos']
  split_ifs
  · omega
  · exact Tally.value_add fits
  · omega

theorem totals_merge {r d : RawDataPoint κ α} (counted : 0 ≤ Tally.value r.count)
    (solid : d.Solid) (fits : Tally.InRange κ (Tally.value r.count + Tally.value d.count)) :
    (r.merge d).totals = r.totals + d.totals := by
  have time := toNat_time_merge (r := r) solid.notNull
  have count := value_count_merge counted solid fits
  simp only [totals, Totals.add_def, time, count]
  simp only [merge, solid.notNull, Bool.false_eq_true, if_false, max_merge, min_merge, sum_merge]

end RawDataPoint

/-! ### The total count -/

def totalCount (pts : List (RawDataPoint κ α)) : Int := (pts.map fun p => Tally.value p.count).sum

section TotalCount

variable {pts : List (RawDataPoint κ α)}

omit [DecidableLT κ] [DecidableEq κ] [AddCommSemigroup α] [LinearOrder α]

@[simp] theorem totalCount_nil : totalCount ([] : List (RawDataPoint κ α)) = 0 := rfl

@[simp] theorem totalCount_cons (p : RawDataPoint κ α) (pts : List (RawDataPoint κ α)) :
    totalCount (p :: pts) = Tally.value p.count + totalCount pts := List.sum_cons

theorem totalCount_append (ps qs : List (RawDataPoint κ α)) :
    totalCount (ps ++ qs) = totalCount ps + totalCount qs := by
  rw [totalCount, List.map_append, List.sum_append]
  rfl

theorem totalCount_perm {qs : List (RawDataPoint κ α)} (perm : pts.Perm qs) :
    totalCount pts = totalCount qs := (perm.map _).sum_eq

theorem totalCount_nonneg (counted : ∀ p ∈ pts, 0 ≤ Tally.value p.count) : 0 ≤ totalCount pts := by
  refine List.sum_nonneg fun n listed => ?_
  obtain ⟨p, mem, rfl⟩ := List.mem_map.mp listed
  exact counted p mem

theorem totalCount_le_of_sublist {part : List (RawDataPoint κ α)} (sub : part.Sublist pts)
    (counted : ∀ p ∈ pts, 0 ≤ Tally.value p.count) : totalCount part ≤ totalCount pts := by
  refine (sub.map _).sum_le_sum fun n listed => ?_
  obtain ⟨p, mem, rfl⟩ := List.mem_map.mp listed
  exact counted p mem

theorem inRange_of_sublist {part : List (RawDataPoint κ α)} (sub : part.Sublist pts)
    (counted : ∀ p ∈ pts, 0 ≤ Tally.value p.count) (fits : Tally.InRange κ (totalCount pts)) :
    Tally.InRange κ (totalCount part) :=
  Tally.inRange_of_le (totalCount_nonneg fun p mem => counted p (sub.subset mem))
    (totalCount_le_of_sublist sub counted) fits

end TotalCount

namespace RawDataPoint

theorem totals_foldl_merge {r : RawDataPoint κ α} {ps : List (RawDataPoint κ α)}
    (counted : 0 ≤ Tally.value r.count) (solid : ∀ p ∈ ps, p.Solid)
    (fits : Tally.InRange κ (Tally.value r.count + totalCount ps)) :
    (ps.foldl merge r).totals = r.totals + (ps.map totals).sum := by
  induction ps generalizing r with
  | nil => simp
  | cons p ps ih =>
    obtain ⟨first, rest⟩ := List.forall_mem_cons.mp solid
    have some := first.counted
    have others := totalCount_nonneg fun q mem => (rest q mem).counted
    rw [totalCount_cons] at fits
    have fitsFirst : Tally.InRange κ (Tally.value r.count + Tally.value p.count) :=
      Tally.inRange_of_le (by omega) (by omega) fits
    have count := value_count_merge counted first fitsFirst
    rw [List.foldl_cons, ih (by omega) rest (by rw [count, Int.add_assoc]; exact fits),
      totals_merge counted first fitsFirst, List.map_cons, List.sum_cons, add_assoc]

omit [Tally κ] in
theorem time_foldl_merge_le_iff {r : RawDataPoint κ α} {ps : List (RawDataPoint κ α)}
    (some : ∀ p ∈ ps, p.isNull = false) (t : Nat) :
    (ps.foldl merge r).time.toNat ≤ t ↔ r.time.toNat ≤ t ∧ ∀ p ∈ ps, p.time.toNat ≤ t := by
  induction ps generalizing r with
  | nil => simp
  | cons p ps ih =>
    obtain ⟨first, rest⟩ := List.forall_mem_cons.mp some
    rw [List.foldl_cons, ih rest, toNat_time_merge first, sup_le_iff, List.forall_mem_cons,
      and_assoc]

end RawDataPoint

end Metrics
