import Cadent.Lib.Maps
import Cadent.Lib.Reduce
import Cadent.Schemas.Tags

/-!
# Accumulators

An accumulator keeps its items in a map. The items are objects: a goroutine that has looked
one up goes on with it when the map has been replaced. `ProcessLine`, `Flush`, `FlushList` and
`Reset` are the same for graphite and statsd up to the lines and the items, which are the
parameters here. What `Write` prints, for which `Flush` also walks the map, is left out.
Values are exact. `none` stands for a value that is not finite.
-/

namespace Accumulator

open Maps Reduce Repr

/-- `GRAPHITE_ACC_MIN_FLAG` and `STATSD_ACC_MIN_FLAG`, which mark an item without values. -/
def minFlag : ℚ := -9223372036854775808

/-- What `strconv.ParseFloat` returns without an error. -/
inductive Parsed where
  | finite (value : ℚ)
  | inf
  | nan
  deriving DecidableEq, Repr

def Parsed.value? : Parsed → Option ℚ
  | finite value => some value
  | _ => none

/-- A way to read values that can be evaluated. -/
def wholeNumber (text : String) : Option Parsed := (Text.parseInt text).map fun n => .finite n

/-- A flushed stat, with the name it points to. -/
structure Stat where
  name : StatName
  time : BitVec 64
  min : ℚ
  max : ℚ
  last : ℚ
  sum : ℚ
  count : Int
  deriving DecidableEq

def checkFloat : Option ℚ → ℚ
  | none => 0
  | some fl => if fl = minFlag then 0 else fl

section Flag

variable {vs : List ℚ} {m : ℚ}

/-- The least value of an item stays the least when none of the values is the flag. -/
theorem min?_flagged (least : vs.min? = some m) (unflagged : ∀ v ∈ vs, v ≠ minFlag) (v : ℚ) :
    (vs ++ [v]).min? = some (if m = minFlag ∨ v < m then v else m) := by
  have value : m ≠ minFlag := unflagged m (List.min?_mem least)
  rw [min?_concat least, min_comm, min_def_lt]
  simp [value]

theorem max?_flagged (greatest : vs.max? = some m) (unflagged : ∀ v ∈ vs, v ≠ minFlag) (v : ℚ) :
    (vs ++ [v]).max? = some (if m = minFlag ∨ m < v then v else m) := by
  have value : m ≠ minFlag := unflagged m (List.max?_mem greatest)
  rw [max?_concat greatest, max_def_lt]
  simp [value]

theorem checkFloat_of_ne (value : m ≠ minFlag) : checkFloat (some m) = m := if_neg value

end Flag

/-- What differs between accumulators. -/
structure Kind (Raw Line Item : Type) where
  /-- The part of `ProcessLine` before the first lock. -/
  parse : Raw → Except String Line
  key : Line → String
  fresh : Line → Item
  accumulate : Item → Line → Item
  zeroOut : Item → Item
  /-- `Repr`, called at some time. -/
  repr : Int → Item → Stat

/-- The objects that were made and the map. -/
structure Store (Item : Type) where
  items : List Item
  stats : Map String Nat

namespace Store

variable {Raw Line Item : Type}

def empty : Store Item := ⟨[], ∅⟩

def item? (st : Store Item) (key : String) : Option Item :=
  (st.stats.lookup key).bind (st.items[·]?)

/-- A new object, which is not in the map yet. -/
def make (st : Store Item) (item : Item) : Store Item := { st with items := st.items ++ [item] }

def update (st : Store Item) (ref : Nat) (f : Item → Item) : Store Item :=
  { st with items := st.items.modify ref f }

def insert (st : Store Item) (key : String) (ref : Nat) : Store Item :=
  { st with stats := st.stats.insert key ref }

/-- The stats of all items, in the order of iteration and with the times they were asked at. -/
def read (K : Kind Raw Line Item) (st : Store Item) (order : List (String × Int)) : List Stat :=
  order.filterMap fun (key, now) => (st.item? key).map (K.repr now)

/-- The references in the map. -/
def refs (st : Store Item) : List Nat := st.stats.entries.map (·.2)

def reset (K : Kind Raw Line Item) (inKeepKeys : Bool) (st : Store Item) : Store Item :=
  if inKeepKeys then
    { st with items := st.items.mapIdx fun ref item =>
        if ref ∈ st.refs then K.zeroOut item else item }
  else { st with stats := ∅ }

/-- `ProcessLine` when nothing comes in between. -/
def processLine (K : Kind Raw Line Item) (st : Store Item) (raw : Raw) :
    Except String (Store Item) := do
  let line ← K.parse raw
  match st.stats.lookup (K.key line) with
  | some ref => return st.update ref (K.accumulate · line)
  | none =>
    let made := (st.make (K.fresh line)).update st.items.length (K.accumulate · line)
    return made.insert (K.key line) st.items.length

/-- `FlushList` when nothing comes in between. -/
def flushList (K : Kind Raw Line Item) (inKeepKeys : Bool) (st : Store Item)
    (order : List (String × Int)) : List Stat × Store Item :=
  (st.read K order, st.reset K inKeepKeys)

end Store

/-! ### What the store keeps -/

section Sound

variable {Item : Type}

/-- The references of the map are those of objects, and no two keys have the same. -/
structure Store.Sound (st : Store Item) : Prop where
  listed : ∀ {key ref}, st.stats.lookup key = some ref → ref < st.items.length
  apart : ∀ {key key' ref}, st.stats.lookup key = some ref → st.stats.lookup key' = some ref →
    key = key'

theorem sound_empty : (Store.empty : Store Item).Sound := ⟨nofun, nofun⟩

variable {st : Store Item}

theorem item?_isSome_iff (sound : st.Sound) {key : String} :
    (st.item? key).isSome ↔ key ∈ st.stats.keys := by
  rw [← AList.mem_keys, ← AList.lookup_isSome]
  constructor
  · intro some
    obtain ⟨item, here⟩ := Option.isSome_iff_exists.mp some
    obtain ⟨ref, found, _⟩ := Option.bind_eq_some_iff.mp here
    rw [found]
    rfl
  · intro some
    obtain ⟨ref, found⟩ := Option.isSome_iff_exists.mp some
    rw [Store.item?, found, Option.bind_some, List.getElem?_eq_getElem (sound.listed found)]
    rfl

theorem item?_update (sound : st.Sound) {key : String} {ref : Nat}
    (found : st.stats.lookup key = some ref) (f : Item → Item) (key' : String) :
    (st.update ref f).item? key' = if key' = key then (st.item? key).map f else st.item? key' := by
  by_cases same : key' = key
  · subst same
    simp [Store.item?, Store.update, found]
  · rw [if_neg same, Store.item?, Store.item?]
    apply Option.bind_congr
    intro ref' found'
    have ne : ref ≠ ref' := by
      rintro rfl
      exact same (sound.apart found' found)
    simp [Store.update, ne]

theorem modify_concat (items : List Item) (item : Item) (f : Item → Item) :
    (items ++ [item]).modify items.length f = items ++ [f item] := by
  apply List.ext_getElem?
  intro n
  rw [List.getElem?_modify]
  rcases Nat.lt_trichotomy n items.length with before | rfl | after
  · simp [List.getElem?_append_left before, (Nat.ne_of_lt before).symm]
  · simp
  · have past : ∀ i : Item, (items ++ [i])[n]? = none := fun i => by
      rw [List.getElem?_eq_none_iff, List.length_append, List.length_singleton]
      omega
    simp [past]

theorem Store.Sound.make (sound : st.Sound) (item : Item) : (st.make item).Sound := by
  refine ⟨?_, sound.apart⟩
  intro key ref here
  have := sound.listed here
  simp only [Store.make, List.length_append, List.length_singleton]
  omega

theorem Store.Sound.update (sound : st.Sound) (ref : Nat) (f : Item → Item) :
    (st.update ref f).Sound := by
  refine ⟨?_, sound.apart⟩
  intro key ref' here
  simpa [Store.update] using sound.listed here

theorem Store.Sound.insert (sound : st.Sound) {ref : Nat} (stored : ref < st.items.length)
    (unlisted : ∀ key, st.stats.lookup key ≠ some ref) (key : String) :
    (st.insert key ref).Sound := by
  have lookup : ∀ {key' ref'}, (st.stats.insert key ref).lookup key' = some ref' →
      key' = key ∧ ref' = ref ∨ st.stats.lookup key' = some ref' := by
    intro key' ref' here
    by_cases same : key' = key
    · subst same
      rw [AList.lookup_insert, Option.some.injEq] at here
      exact .inl ⟨rfl, here.symm⟩
    · exact .inr ((AList.lookup_insert_ne same).symm.trans here)
  constructor
  · intro key' ref' here
    rcases lookup here with ⟨_, rfl⟩ | old
    · exact stored
    · exact sound.listed old
  · intro key' key'' ref' here here'
    rcases lookup here with ⟨rfl, rfl⟩ | old
    · rcases lookup here' with ⟨rfl, _⟩ | old'
      · rfl
      · exact absurd old' (unlisted key'')
    · rcases lookup here' with ⟨rfl, rfl⟩ | old'
      · exact absurd old (unlisted key')
      · exact sound.apart old old'

theorem insert_spec (sound : st.Sound) (key : String) (item : Item) :
    ((st.make item).insert key st.items.length).Sound ∧ ∀ key',
      ((st.make item).insert key st.items.length).item? key' =
        if key' = key then some item else st.item? key' := by
  constructor
  · refine (sound.make item).insert (by simp [Store.make]) ?_ key
    intro key' here
    exact absurd (sound.listed here) (Nat.lt_irrefl _)
  · intro key'
    by_cases same : key' = key
    · subst same
      simp [Store.item?, Store.insert, Store.make]
    · rw [if_neg same, Store.item?, Store.insert, AList.lookup_insert_ne same, Store.item?]
      apply Option.bind_congr
      intro ref here
      exact List.getElem?_append_left (sound.listed here)

end Sound

end Accumulator
