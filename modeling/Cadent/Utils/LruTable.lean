import Cadent.Lib.Runs
import Mathlib.Algebra.BigOperators.Group.List.Basic
import Mathlib.Data.BitVec
import Mathlib.Data.List.Nodup
import Mathlib.Logic.Function.Basic

/-!
# The table, the list and the counter of the cache

An `LRUCache` has a linked list of elements, the most recently used in front, a table from keys to
elements, and a counter of 64 bits for the sizes. The elements are kept in an arena here, and the
list and the table refer to them. `checkCapacity` removes one element at most: its loop returns
from the first round. The cache represents the list of its entries, and each operation is one on
that list. When an element was last accessed is left out.
-/

namespace LruTable

open Runs

structure Entry (K V : Type) where
  key : K
  value : V
  size : BitVec 64
  deriving DecidableEq

structure LRUCache (K V : Type) where
  list : List Nat
  arena : List (Entry K V)
  table : K → Option Nat
  size : BitVec 64
  capacity : BitVec 64

/-- The value of `Size()` comes with the value. -/
inductive Action (K V : Type) where
  | get (key : K)
  | set (key : K) (value : V) (size : BitVec 64)
  | setIfAbsent (key : K) (value : V) (size : BitVec 64)
  | delete (key : K)
  | clear
  | setCapacity (capacity : BitVec 64)

variable {K V : Type}

def newLRUCache (capacity : BitVec 64) : LRUCache K V := ⟨[], [], fun _ => none, 0#64, capacity⟩

/-- What `Get` returns, and what `checkCapacity` does. -/
structure Outcome (K V : Type) where
  value : Option V
  evicted : Option (Entry K V)

variable [DecidableEq K]

namespace LRUCache

variable (lru : LRUCache K V)

def moveToFront (element : Nat) : LRUCache K V :=
  { lru with list := element :: lru.list.erase element }

def remove (element : Nat) (key : K) (size : BitVec 64) : LRUCache K V :=
  { lru with
    list := lru.list.erase element
    table := Function.update lru.table key none
    size := lru.size - size }

/-- Without a result, the list is empty and `Back` is nil. -/
def checkCapacity : Option (LRUCache K V × Option (Entry K V)) :=
  if lru.capacity < lru.size then do
    let delElem ← lru.list.getLast?
    let delValue ← lru.arena[delElem]?
    return (lru.remove delElem delValue.key delValue.size, some delValue)
  else some (lru, none)

def updateInplace (element : Nat) (value : V) (size : BitVec 64) : Option (LRUCache K V) := do
  let entry ← lru.arena[element]?
  let sizeDiff := size - entry.size
  return { lru with
    arena := lru.arena.set element ⟨entry.key, value, size⟩
    size := lru.size + sizeDiff }.moveToFront element

def addNew (key : K) (value : V) (size : BitVec 64) : LRUCache K V :=
  { lru with
    arena := lru.arena ++ [⟨key, value, size⟩]
    list := lru.arena.length :: lru.list
    table := Function.update lru.table key (some lru.arena.length)
    size := lru.size + size }

/-- What an operation does before the capacity is checked. -/
def change : Action K V → Option (LRUCache K V)
  | .get key =>
    match lru.table key with
    | none => some lru
    | some element => some (lru.moveToFront element)
  | .set key value size =>
    match lru.table key with
    | some element => lru.updateInplace element value size
    | none => some (lru.addNew key value size)
  | .setIfAbsent key value size =>
    match lru.table key with
    | some element => some (lru.moveToFront element)
    | none => some (lru.addNew key value size)
  | .delete key =>
    match lru.table key with
    | none => some lru
    | some element => do
      let entry ← lru.arena[element]?
      return lru.remove element key entry.size
  | .clear => some { lru with list := [], table := fun _ => none, size := 0#64 }
  | .setCapacity capacity => some { lru with capacity := capacity }

/-- Whether an operation ends with `checkCapacity`. -/
def checks : Action K V → Bool
  | .set _ _ _ | .setCapacity _ => true
  | .setIfAbsent key _ _ => (lru.table key).isNone
  | .get _ | .delete _ | .clear => false

def value : Action K V → Option V
  | .get key => do
    let element ← lru.table key
    let entry ← lru.arena[element]?
    return entry.value
  | _ => none

def step (a : Action K V) : Option (LRUCache K V × Outcome K V) := do
  let mid ← lru.change a
  if lru.checks a then
    let r ← mid.checkCapacity
    return (r.1, ⟨lru.value a, r.2⟩)
  else return (mid, ⟨lru.value a, none⟩)

def keys : List K := lru.list.filterMap fun e => (lru.arena[e]?).map (·.key)

end LRUCache

/-! ### The list of the entries -/

/-- The entries but the one of a key. -/
def others (key : K) (l : List (Entry K V)) : List (Entry K V) := l.filter (·.key ≠ key)

/-- An operation, before the capacity is checked, on the list of the entries. -/
def Action.entries (l : List (Entry K V)) : Action K V → List (Entry K V)
  | .get key =>
    match l.find? (·.key = key) with
    | none => l
    | some e => e :: others key l
  | .set key value size => ⟨key, value, size⟩ :: others key l
  | .setIfAbsent key value size =>
    match l.find? (·.key = key) with
    | none => ⟨key, value, size⟩ :: l
    | some e => e :: others key l
  | .delete key => others key l
  | .clear => []
  | .setCapacity _ => l

def Action.capacity (capacity : BitVec 64) : Action K V → BitVec 64
  | .setCapacity capacity => capacity
  | _ => capacity

def total (l : List (Entry K V)) : BitVec 64 := (l.map (·.size)).sum

/-- The list and the table refer to the same elements, one for each key, which are the entries of
`l` in its order, and the counter is the sum of their sizes. -/
structure Represents (lru : LRUCache K V) (l : List (Entry K V)) : Prop where
  nodup : lru.list.Nodup
  entries : lru.list.map (lru.arena[·]?) = l.map some
  keys : (l.map (·.key)).Nodup
  table : ∀ k e, lru.table k = some e ↔ e ∈ lru.list ∧ (lru.arena[e]?).map (·.key) = some k
  size : lru.size = total l

variable {lru : LRUCache K V} {l : List (Entry K V)} {k : K} {e : Nat} {entry : Entry K V}

theorem others_split {a b : List (Entry K V)} (keys : ((a ++ entry :: b).map (·.key)).Nodup) :
    others entry.key (a ++ entry :: b) = a ++ b := by
  simp only [List.map_append, List.map_cons, List.nodup_append, List.nodup_cons, List.mem_map,
    List.mem_cons] at keys
  rw [others, List.filter_append, List.filter_cons_of_neg (by simp)]
  congr 1 <;> refine List.filter_eq_self.mpr fun e' mem => decide_eq_true fun same => ?_
  · exact keys.2.2 _ ⟨e', mem, rfl⟩ _ (.inl rfl) same
  · exact keys.2.1.1 ⟨e', mem, same⟩

omit [DecidableEq K] in
theorem Represents.split (rep : Represents lru l) (mem : e ∈ lru.list) :
    ∃ as bs a entry b, lru.list = as ++ e :: bs ∧ l = a ++ entry :: b ∧
      lru.arena[e]? = some entry ∧ as.map (lru.arena[·]?) = a.map some ∧
      bs.map (lru.arena[·]?) = b.map some := by
  obtain ⟨as, bs, here⟩ := List.append_of_mem mem
  have all := rep.entries
  rw [here, List.map_append, List.map_cons] at all
  obtain ⟨a, rest, rfl, first, second⟩ := List.map_eq_append_iff.mp all.symm
  obtain ⟨entry, b, rfl, found, last⟩ := List.map_eq_cons_iff.mp second
  exact ⟨as, bs, a, entry, b, here, rfl, found.symm, first.symm, last.symm⟩

theorem Represents.lookup (rep : Represents lru l) (found : lru.table k = some e) :
    ∃ entry, lru.arena[e]? = some entry ∧ entry.key = k ∧ l.find? (·.key = k) = some entry := by
  obtain ⟨mem, key⟩ := (rep.table k e).mp found
  obtain ⟨as, bs, a, entry, b, -, rfl, here, -, -⟩ := rep.split mem
  have own : entry.key = k := by simpa [here] using key
  refine ⟨entry, here, own, ?_⟩
  have keys := rep.keys
  simp only [List.map_append, List.map_cons, List.nodup_append, List.mem_map] at keys
  rw [List.find?_append, List.find?_eq_none.mpr, Option.none_or,
    List.find?_cons_of_pos (by simp [own])]
  intro e' mem' same
  exact keys.2.2 _ ⟨e', mem', rfl⟩ _ List.mem_cons_self ((of_decide_eq_true same).trans own.symm)

omit [DecidableEq K] in
theorem Represents.missing (rep : Represents lru l) (none : lru.table k = none) :
    k ∉ l.map (·.key) := by
  intro mem
  obtain ⟨entry, mem, own⟩ := List.mem_map.mp mem
  have here : some entry ∈ lru.list.map (lru.arena[·]?) :=
    rep.entries ▸ List.mem_map_of_mem mem
  obtain ⟨e, inList, stored⟩ := List.mem_map.mp here
  have found := (rep.table k e).mpr ⟨inList, by simp [stored, own]⟩
  cases none.symm.trans found

theorem find?_eq_none_of_missing (missing : k ∉ l.map (·.key)) : l.find? (·.key = k) = none :=
  List.find?_eq_none.mpr fun e mem same =>
    missing (List.mem_map.mpr ⟨e, mem, of_decide_eq_true same⟩)

theorem mem_of_find? (found : l.find? (·.key = k) = some entry) : entry.key = k ∧ entry ∈ l :=
  ⟨by simpa using List.find?_some found, List.mem_of_find?_eq_some found⟩

theorem others_of_missing (missing : k ∉ l.map (·.key)) : others k l = l :=
  List.filter_eq_self.mpr fun e mem =>
    decide_eq_true fun same => missing (List.mem_map.mpr ⟨e, mem, same⟩)

theorem not_mem_others (k : K) (l : List (Entry K V)) : k ∉ (others k l).map (·.key) := by
  simp [others]

theorem Represents.remove (rep : Represents lru l) (found : lru.table k = some e)
    (here : lru.arena[e]? = some entry) : Represents (lru.remove e k entry.size) (others k l) := by
  obtain ⟨mem, key⟩ := (rep.table k e).mp found
  obtain ⟨as, bs, a, entry', b, list, rfl, here', before, after⟩ := rep.split mem
  obtain rfl : entry = entry' := Option.some.inj (here.symm.trans here')
  obtain rfl : entry.key = k := by simpa [here] using key
  have apart := rep.nodup
  rw [list, List.nodup_middle, List.nodup_cons] at apart
  have erased : lru.list.erase e = as ++ bs := by
    rw [list, List.erase_append_right _ fun inside => apart.1 (List.mem_append_left _ inside),
      List.erase_cons_head]
  have keys := others_split rep.keys
  refine ⟨rep.nodup.erase e, ?_, ?_, fun k' e' => ?_, ?_⟩
  · change (lru.list.erase e).map (lru.arena[·]?) = _
    rw [erased, keys, List.map_append, before, after, List.map_append]
  · exact rep.keys.sublist (List.filter_sublist.map _)
  · change Function.update lru.table entry.key none k' = some e' ↔ e' ∈ lru.list.erase e ∧ _
    rw [rep.nodup.mem_erase_iff]
    by_cases same : k' = entry.key
    · subst same
      rw [Function.update_self]
      refine ⟨nofun, fun ⟨⟨ne, inside⟩, own⟩ => ?_⟩
      exact absurd (Option.some.inj (((rep.table _ e').mpr ⟨inside, own⟩).symm.trans found)) ne
    · rw [Function.update_of_ne same, rep.table]
      refine ⟨fun ⟨inside, own⟩ => ⟨⟨?_, inside⟩, own⟩, fun ⟨⟨_, inside⟩, own⟩ => ⟨inside, own⟩⟩
      rintro rfl
      exact same (Option.some.inj (own.symm.trans key))
  · change lru.size - entry.size = total _
    rw [rep.size, keys]
    simp only [total, List.map_append, List.map_cons, List.sum_append, List.sum_cons]
    rw [add_left_comm, add_sub_cancel_left]

theorem Represents.push (rep : Represents lru l) {lru' : LRUCache K V} (fresh : e ∉ lru.list)
    (new : entry.key ∉ l.map (·.key)) (list : lru'.list = e :: lru.list)
    (kept : ∀ e' ∈ lru.list, lru'.arena[e']? = lru.arena[e']?) (here : lru'.arena[e]? = some entry)
    (table : lru'.table = Function.update lru.table entry.key (some e))
    (size : lru'.size = lru.size + entry.size) : Represents lru' (entry :: l) := by
  refine ⟨?_, ?_, ?_, fun k' e' => ?_, ?_⟩
  · rw [list]
    exact List.nodup_cons.mpr ⟨fresh, rep.nodup⟩
  · rw [list, List.map_cons, here, List.map_cons, ← rep.entries]
    exact congrArg _ (List.map_congr_left kept)
  · exact List.nodup_cons.mpr ⟨new, rep.keys⟩
  · rw [list, table, List.mem_cons]
    by_cases same : k' = entry.key
    · subst same
      rw [Function.update_self, Option.some.injEq]
      refine ⟨fun same => ⟨.inl same.symm, same ▸ by simp [here]⟩, fun ⟨place, own⟩ => ?_⟩
      refine place.elim Eq.symm fun inside => ?_
      rw [kept e' inside] at own
      obtain ⟨other, stored, key, found⟩ := rep.lookup ((rep.table _ e').mpr ⟨inside, own⟩)
      exact absurd (List.mem_map.mpr ⟨other, List.mem_of_find?_eq_some found, key⟩) new
    · rw [Function.update_of_ne same, rep.table]
      constructor
      · exact fun ⟨inside, own⟩ => ⟨.inr inside, (kept e' inside).symm ▸ own⟩
      · rintro ⟨rfl | inside, own⟩
        · rw [here] at own
          exact absurd (Option.some.inj own).symm same
        · exact ⟨inside, kept e' inside ▸ own⟩
  · rw [size, rep.size, total, total, List.map_cons, List.sum_cons, add_comm]

theorem Represents.moveToFront (rep : Represents lru l) (found : lru.table k = some e) :
    ∃ entry, l.find? (·.key = k) = some entry ∧
      Represents (lru.moveToFront e) (entry :: others k l) := by
  obtain ⟨entry, here, rfl, inList⟩ := rep.lookup found
  refine ⟨entry, inList, ?_⟩
  refine (rep.remove found here).push rep.nodup.not_mem_erase (not_mem_others _ _) rfl
    (fun _ _ => rfl) here ?_ ?_
  · change lru.table = Function.update (Function.update lru.table entry.key none) entry.key (some e)
    rw [Function.update_idem, ← found, Function.update_eq_self]
  · exact (sub_add_cancel _ _).symm

theorem Represents.updateInplace (rep : Represents lru l) (found : lru.table k = some e)
    (value : V) (size : BitVec 64) : ∃ mid, lru.updateInplace e value size = some mid ∧
      Represents mid (⟨k, value, size⟩ :: others k l) ∧ mid.capacity = lru.capacity := by
  obtain ⟨old, here, rfl, -⟩ := rep.lookup found
  have stored := (List.getElem?_eq_some_iff.mp here).1
  let mid : LRUCache K V := { lru with
    arena := lru.arena.set e ⟨old.key, value, size⟩
    size := lru.size + (size - old.size) }
  refine ⟨mid.moveToFront e, by rw [LRUCache.updateInplace, here]; rfl, ?_, rfl⟩
  refine (rep.remove found here).push rep.nodup.not_mem_erase (not_mem_others _ _) rfl
    (fun e' mem => ?_) (List.getElem?_set_self stored) ?_ ?_
  · exact List.getElem?_set_ne fun same => rep.nodup.not_mem_erase (same ▸ mem)
  · change lru.table = Function.update (Function.update lru.table old.key none) old.key (some e)
    rw [Function.update_idem, ← found, Function.update_eq_self]
  · change lru.size + (size - old.size) = lru.size - old.size + size
    rw [add_sub_left_comm, add_comm]

theorem Represents.addNew (rep : Represents lru l) (none : lru.table k = none) (value : V)
    (size : BitVec 64) : Represents (lru.addNew k value size) (⟨k, value, size⟩ :: l) := by
  -- the elements of the list are in the arena
  have stored : ∀ e' ∈ lru.list, e' < lru.arena.length := fun e' mem => by
    obtain ⟨_, _, _, entry, _, _, _, here, _, _⟩ := rep.split mem
    exact (List.getElem?_eq_some_iff.mp here).1
  have new : (⟨k, value, size⟩ : Entry K V).key ∉ l.map (·.key) := rep.missing none
  refine rep.push (fun mem => ?_) new rfl (fun e' mem => ?_) ?_ rfl rfl
  · exact Nat.lt_irrefl _ (stored _ mem)
  · exact List.getElem?_append_left (stored e' mem)
  · exact List.getElem?_concat_length

/-- What an operation does before the capacity is checked, it does to the entries. -/
theorem change_represents (rep : Represents lru l) (a : Action K V) :
    ∃ mid, lru.change a = some mid ∧ Represents mid (a.entries l) ∧
      mid.capacity = a.capacity lru.capacity := by
  cases a with
  | get key =>
    cases found : lru.table key with
    | none =>
      refine ⟨lru, by rw [LRUCache.change, found], ?_, rfl⟩
      rwa [Action.entries, find?_eq_none_of_missing (rep.missing found)]
    | some e =>
      obtain ⟨entry, inList, front⟩ := rep.moveToFront found
      refine ⟨lru.moveToFront e, by rw [LRUCache.change, found], ?_, rfl⟩
      rwa [Action.entries, inList]
  | set key value size =>
    cases found : lru.table key with
    | none =>
      refine ⟨lru.addNew key value size, by rw [LRUCache.change, found], ?_, rfl⟩
      rw [Action.entries, others_of_missing (rep.missing found)]
      exact rep.addNew found value size
    | some e =>
      rw [LRUCache.change, found]
      exact rep.updateInplace found value size
  | setIfAbsent key value size =>
    cases found : lru.table key with
    | none =>
      refine ⟨lru.addNew key value size, by rw [LRUCache.change, found], ?_, rfl⟩
      rw [Action.entries, find?_eq_none_of_missing (rep.missing found)]
      exact rep.addNew found value size
    | some e =>
      obtain ⟨entry, inList, front⟩ := rep.moveToFront found
      refine ⟨lru.moveToFront e, by rw [LRUCache.change, found], ?_, rfl⟩
      rwa [Action.entries, inList]
  | delete key =>
    cases found : lru.table key with
    | none =>
      refine ⟨lru, by rw [LRUCache.change, found], ?_, rfl⟩
      rwa [Action.entries, others_of_missing (rep.missing found)]
    | some e =>
      obtain ⟨entry, here, -, -⟩ := rep.lookup found
      refine ⟨lru.remove e key entry.size, ?_, rep.remove found here, rfl⟩
      rw [LRUCache.change, found]
      simp [here]
  | clear =>
    exact ⟨_, rfl, ⟨List.nodup_nil, rfl, List.nodup_nil, fun _ _ => by simp, rfl⟩, rfl⟩
  | setCapacity capacity =>
    exact ⟨_, rfl, ⟨rep.nodup, rep.entries, rep.keys, rep.table, rep.size⟩, rfl⟩

/-- The check removes the last entry when the counter is above the capacity, and finds one. -/
theorem checkCapacity_represents (rep : Represents lru l) :
    (¬ lru.capacity < lru.size ∧ lru.checkCapacity = some (lru, none)) ∨
      ∃ lru' entry, lru.capacity < lru.size ∧ l.getLast? = some entry ∧
        lru.checkCapacity = some (lru', some entry) ∧ Represents lru' l.dropLast ∧
        lru'.capacity = lru.capacity := by
  by_cases more : lru.capacity < lru.size
  · right
    -- an empty list has the counter zero
    have nonempty : lru.list ≠ [] := by
      intro empty
      have none : l = [] := by simpa [empty] using rep.entries.symm
      rw [rep.size, none] at more
      exact absurd more (Nat.not_lt_zero _)
    obtain ⟨init, e, list⟩ : ∃ init e, lru.list = init ++ [e] :=
      ⟨_, _, (List.dropLast_append_getLast nonempty).symm⟩
    have all := rep.entries
    rw [list, List.map_append] at all
    obtain ⟨a, rest, rfl, -, second⟩ := List.map_eq_append_iff.mp all.symm
    obtain ⟨entry, b, rfl, here, last⟩ := List.map_eq_cons_iff.mp second
    obtain rfl := List.map_eq_nil_iff.mp last
    have stored : lru.arena[e]? = some entry := here.symm
    have found : lru.table entry.key = some e :=
      (rep.table _ e).mpr ⟨by simp [list], by rw [stored, Option.map_some]⟩
    refine ⟨lru.remove e entry.key entry.size, entry, more, List.getLast?_concat, ?_, ?_, rfl⟩
    · rw [LRUCache.checkCapacity, if_pos more, list, List.getLast?_concat]
      simp [stored]
    · have kept := others_split rep.keys
      rw [List.append_nil] at kept
      rw [List.dropLast_concat]
      exact kept ▸ rep.remove found stored
  · exact .inl ⟨more, by rw [LRUCache.checkCapacity, if_neg more]⟩

/-- What a step does: it never fails, and evicts the last entry just when the capacity is checked
with the counter above it. -/
theorem step_represents (rep : Represents lru l) (a : Action K V) :
    ∃ mid, lru.change a = some mid ∧ Represents mid (a.entries l) ∧
      mid.capacity = a.capacity lru.capacity ∧
      ((lru.step a = some (mid, ⟨lru.value a, none⟩) ∧
          (lru.checks a = true → ¬ mid.capacity < mid.size)) ∨
        ∃ lru' entry, lru.checks a = true ∧ mid.capacity < mid.size ∧
          (a.entries l).getLast? = some entry ∧
          lru.step a = some (lru', ⟨lru.value a, some entry⟩) ∧
          Represents lru' (a.entries l).dropLast ∧ lru'.capacity = mid.capacity) := by
  obtain ⟨mid, changed, rep', capacity⟩ := change_represents rep a
  refine ⟨mid, changed, rep', capacity, ?_⟩
  cases checked : lru.checks a with
  | false => exact .inl ⟨by simp [LRUCache.step, changed, checked], nofun⟩
  | true =>
    rcases checkCapacity_represents rep' with
      ⟨fits, kept⟩ | ⟨lru', entry, more, last, dropped, rep'', capacity'⟩
    · exact .inl ⟨by simp [LRUCache.step, changed, checked, kept], fun _ => fits⟩
    · refine .inr ⟨lru', entry, rfl, more, last, ?_, rep'', capacity'⟩
      simp [LRUCache.step, changed, checked, dropped]

/-! ### For those who use a cache -/

omit [DecidableEq K] in
theorem represents_new (capacity : BitVec 64) :
    Represents (newLRUCache capacity : LRUCache K V) [] :=
  ⟨List.nodup_nil, rfl, List.nodup_nil, fun _ _ => by simp [newLRUCache], rfl⟩

theorem Represents.value_get (rep : Represents lru l) (k : K) :
    lru.value (.get k) = (l.find? (·.key = k)).map (·.value) := by
  cases found : lru.table k with
  | none =>
    rw [find?_eq_none_of_missing (rep.missing found)]
    simp [LRUCache.value, found]
  | some e =>
    obtain ⟨entry, stored, -, inList⟩ := rep.lookup found
    simp [LRUCache.value, found, stored, inList]

theorem step_get (rep : Represents lru l) (k : K) :
    ∃ lru' l', lru.step (.get k) = some (lru', ⟨(l.find? (·.key = k)).map (·.value), none⟩) ∧
      Represents lru' l' ∧ l' ⊆ l := by
  have value := rep.value_get k
  obtain ⟨mid, -, rep', -, ⟨done, -⟩ | ⟨_, _, checked, _⟩⟩ := step_represents rep (.get k)
  · refine ⟨mid, _, value ▸ done, rep', fun entry mem => ?_⟩
    rw [Action.entries] at mem
    cases found : l.find? (·.key = k) with
    | none =>
      rw [found] at mem
      exact mem
    | some first =>
      rw [found] at mem
      rcases List.mem_cons.mp mem with rfl | mem
      · exact List.mem_of_find?_eq_some found
      · exact (List.mem_filter.mp mem).1
  · cases checked

theorem step_set (rep : Represents lru l) (k : K) (value : V) (size : BitVec 64) :
    ∃ lru' out l', lru.step (.set k value size) = some (lru', out) ∧ Represents lru' l' ∧
      ∀ entry ∈ l', entry = ⟨k, value, size⟩ ∨ entry ∈ l := by
  have among : ∀ entry ∈ (Action.set k value size).entries l,
      entry = ⟨k, value, size⟩ ∨ entry ∈ l := fun entry mem =>
    (List.mem_cons.mp mem).imp id fun other => (List.mem_filter.mp other).1
  obtain ⟨mid, -, rep', -, ⟨done, -⟩ | ⟨lru', _, -, -, -, done, rep'', -⟩⟩ :=
    step_represents rep (.set k value size)
  · exact ⟨mid, _, _, done, rep', among⟩
  · exact ⟨lru', _, _, done, rep'', fun entry mem =>
      among entry ((List.dropLast_sublist _).subset mem)⟩

theorem step_clear (rep : Represents lru l) :
    ∃ lru', lru.step .clear = some (lru', ⟨none, none⟩) ∧ Represents lru' [] := by
  obtain ⟨mid, -, rep', -, ⟨done, -⟩ | ⟨_, _, checked, _⟩⟩ := step_represents rep .clear
  · exact ⟨mid, done, rep'⟩
  · cases checked

/-! ### Runs -/

abbrev History (K V : Type) := List (Taken (LRUCache K V) (Action K V) (Outcome K V))

/-- The key that an operation makes the most recent. -/
def Action.touched : Action K V → Option K
  | .get key | .set key _ _ | .setIfAbsent key _ _ => some key
  | .delete _ | .clear | .setCapacity _ => none

def touch (recent : List K) : Option K → List K
  | some key => key :: recent.filter (· ≠ key)
  | none => recent

/-- The keys in the order of their last `Get`, `Set` or `SetIfAbsent`, the most recent first. -/
def recency (h : History K V) : List K := h.foldl (fun recent e => touch recent e.act.touched) []

/-- The key and the value that an operation stores. -/
def stored (e : Taken (LRUCache K V) (Action K V) (Outcome K V)) : Option (K × V) :=
  match e.act with
  | .set key value _ => some (key, value)
  | .setIfAbsent key value _ => if (e.pre.table key).isNone then some (key, value) else none
  | _ => none

def store (values : K → Option V) : Option (K × V) → K → Option V
  | some (key, value) => Function.update values key (some value)
  | none => values

/-- What was last stored under a key. -/
def lastStored (h : History K V) : K → Option V :=
  h.foldl (fun values e => store values (stored e)) fun _ => none

/-- What the entries have to do with the history. -/
structure Remembered (h : History K V) (l : List (Entry K V)) : Prop where
  recent : (l.map (·.key)).Sublist (recency h)
  values : ∀ entry ∈ l, lastStored h entry.key = some entry.value

variable {h : History K V} {a : Action K V} {out : Outcome K V}

theorem Remembered.sublist {l' : List (Entry K V)} (rem : Remembered h l) (sub : l'.Sublist l) :
    Remembered h l' :=
  ⟨(sub.map _).trans rem.recent, fun entry mem => rem.values entry (sub.subset mem)⟩

theorem map_key_others (key : K) (l : List (Entry K V)) :
    (others key l).map (·.key) = (l.map (·.key)).filter (· ≠ key) := by
  rw [others, List.filter_map]
  rfl

theorem recency_snoc (h : History K V) (e) :
    recency (h ++ [e]) = touch (recency h) e.act.touched := by
  rw [recency, List.foldl_append]
  rfl

theorem lastStored_snoc (h : History K V) (e) :
    lastStored (h ++ [e]) = store (lastStored h) (stored e) := by
  rw [lastStored, List.foldl_append]
  rfl

variable (entry) in
/-- An entry that is touched comes to the front, with the value that was last stored. -/
theorem Remembered.front {h' : History K V} (rem : Remembered h l)
    (touched : recency h' = touch (recency h) (some entry.key))
    (own : lastStored h' entry.key = some entry.value)
    (kept : ∀ k ≠ entry.key, lastStored h' k = lastStored h k) :
    Remembered h' (entry :: others entry.key l) := by
  constructor
  · rw [List.map_cons, map_key_others, touched]
    exact (rem.recent.filter _).cons_cons _
  · intro other mem
    rcases List.mem_cons.mp mem with rfl | mem
    · exact own
    · obtain ⟨mem, ne⟩ := List.mem_filter.mp mem
      rw [kept _ (of_decide_eq_true ne), rem.values other mem]

/-- Where the entry of a key is, the table has it. -/
theorem Represents.table_isNone (rep : Represents lru l) (k : K) :
    (lru.table k).isNone = (l.find? (·.key = k)).isNone := by
  cases found : lru.table k with
  | none =>
    rw [find?_eq_none_of_missing (rep.missing found)]
    rfl
  | some e =>
    obtain ⟨entry, -, -, here⟩ := rep.lookup found
    rw [here]
    rfl

/-- An operation on the entries is remembered. -/
theorem remembered_entries (rep : Represents lru l) (rem : Remembered h l) (a : Action K V)
    (out : Outcome K V) : Remembered (h ++ [⟨lru, a, out⟩]) (a.entries l) := by
  have recent := recency_snoc h ⟨lru, a, out⟩
  have values := lastStored_snoc h ⟨lru, a, out⟩
  cases a with
  | get key =>
    rw [Action.entries]
    cases found : l.find? (·.key = key) with
    | none =>
      have missing : key ∉ l.map (·.key) := by simpa using found
      refine ⟨?_, fun entry mem => values ▸ rem.values entry mem⟩
      dsimp only
      rw [← others_of_missing missing, map_key_others, recent]
      exact (rem.recent.filter _).cons _
    | some entry =>
      obtain ⟨rfl, mem⟩ := mem_of_find? found
      exact rem.front entry recent (values ▸ rem.values entry mem) fun k _ => values ▸ rfl
  | set key value size =>
    refine rem.front ⟨key, value, size⟩ recent ?_ fun k ne => ?_
    · rw [values]
      exact Function.update_self ..
    · rw [values]
      exact Function.update_of_ne ne ..
  | setIfAbsent key value size =>
    rw [Action.entries]
    have absent := rep.table_isNone key
    cases found : l.find? (·.key = key) with
    | none =>
      rw [found] at absent
      have missing := rep.missing (Option.isNone_iff_eq_none.mp absent)
      have both := rem.front ⟨key, value, size⟩ recent ?_ fun k ne => ?_
      · rwa [others_of_missing missing] at both
      · rw [values, stored]
        simp only [absent, Option.isNone_none, if_true]
        exact Function.update_self ..
      · rw [values, stored]
        simp only [absent, Option.isNone_none, if_true]
        exact Function.update_of_ne ne ..
    | some entry =>
      obtain ⟨rfl, mem⟩ := mem_of_find? found
      rw [found] at absent
      have same : lastStored (h ++ [⟨lru, .setIfAbsent entry.key value size, out⟩]) =
          lastStored h := by
        rw [values, stored]
        simp only [absent, Option.isNone_some, Bool.false_eq_true, if_false, store]
      exact rem.front entry recent (same ▸ rem.values entry mem) fun k _ => same ▸ rfl
  | delete key =>
    have kept : Remembered (h ++ [⟨lru, .delete key, out⟩]) l :=
      ⟨recent ▸ rem.recent, values ▸ rem.values⟩
    exact kept.sublist List.filter_sublist
  | clear => exact ⟨List.nil_sublist _, nofun⟩
  | setCapacity capacity => exact ⟨recent ▸ rem.recent, values ▸ rem.values⟩

/-- The cache after a run has the entries of a list that the history remembers. -/
theorem represents_of_run {capacity : BitVec 64}
    (run : Run LRUCache.step anyStep (newLRUCache capacity) h lru) :
    ∃ l, Represents lru l ∧ Remembered h l := by
  refine run_invariant (fun h lru => ∃ l, Represents lru l ∧ Remembered h l) ?_ ?_ run
  · exact ⟨[], represents_new capacity, List.nil_sublist _, nofun⟩
  · rintro h lru a lru' out ⟨l, rep, rem⟩ _ taken
    have rem' := remembered_entries rep rem a out
    obtain ⟨mid, -, rep', -, ⟨done, -⟩ | ⟨after, entry, -, -, -, done, rep'', -⟩⟩ :=
      step_represents rep a
    · obtain ⟨rfl, -⟩ := Prod.mk.inj (Option.some.inj (done.symm.trans taken))
      exact ⟨_, rep', rem'⟩
    · obtain ⟨rfl, -⟩ := Prod.mk.inj (Option.some.inj (done.symm.trans taken))
      exact ⟨_, rep'', rem'.sublist (List.dropLast_sublist _)⟩

/-! ### What a cache is after every run -/

namespace LRUCache

variable (lru : LRUCache K V)

omit [DecidableEq K] in
def entries : List (Entry K V) := lru.list.filterMap (lru.arena[·]?)

end LRUCache

/-- The sum of the sizes, without overflow. -/
def bytes (l : List (Entry K V)) : Nat := (l.map (·.size.toNat)).sum

/-- The table and the list have the same elements, one for each key. The counter is the sum of the
sizes. `Keys` has the order of the last use, and `Get` returns what was last stored. -/
structure Coherent (h : History K V) (lru : LRUCache K V) : Prop where
  distinct : lru.list.Nodup
  stored : ∀ e ∈ lru.list, (lru.arena[e]?).isSome
  table : ∀ k e, lru.table k = some e ↔ e ∈ lru.list ∧ (lru.arena[e]?).map (·.key) = some k
  size : bytes lru.entries < 2 ^ 63 → lru.size.toNat = bytes lru.entries
  keys : lru.keys.Nodup
  recent : lru.keys.Sublist (recency h)
  present : ∀ k, lru.table k ≠ none ↔ (lru.value (.get k)).isSome
  values : ∀ k v, lru.value (.get k) = some v → lastStored h k = some v

/-- A key is lost by `Delete`, `Clear` or an eviction, and an eviction finds the counter above the
capacity and removes the last of the keys. -/
structure Leaves (lru : LRUCache K V) (a : Action K V) (lru' : LRUCache K V) (out : Outcome K V) :
    Prop where
  only : ∀ k, lru.table k ≠ none → lru'.table k = none →
    a = .delete k ∨ a = .clear ∨ ∃ entry, out.evicted = some entry ∧ entry.key = k
  evicts : ∀ entry, out.evicted = some entry → ∃ mid, lru.change a = some mid ∧
    mid.capacity < mid.size ∧ mid.keys.getLast? = some entry.key ∧ lru'.keys = mid.keys.dropLast

/-- `Set`, and `SetIfAbsent` where it inserts, leave their key in front with its value, unless
that very entry is evicted at once. -/
def Arrives (lru : LRUCache K V) (a : Action K V) (lru' : LRUCache K V) (out : Outcome K V) :
    Prop :=
  ∀ k v, stored ⟨lru, a, out⟩ = some (k, v) →
    lru'.keys.head? = some k ∧ lru'.value (.get k) = some v ∨
      ∃ entry, out.evicted = some entry ∧ entry.key = k

omit [DecidableEq K] in
theorem Represents.filterMap (rep : Represents lru l) {β : Type} (f : Entry K V → β) :
    lru.list.filterMap (fun e => (lru.arena[e]?).map f) = l.map f := by
  have all := congrArg (List.filterMap (Option.map f)) rep.entries
  rw [List.filterMap_map, List.filterMap_map] at all
  exact all.trans (congrFun List.filterMap_eq_map' l)

omit [DecidableEq K] in
theorem Represents.entries_eq (rep : Represents lru l) : lru.entries = l := by
  simpa [LRUCache.entries] using rep.filterMap id

omit [DecidableEq K] in
theorem Represents.table_ne_none (rep : Represents lru l) :
    lru.table k ≠ none ↔ k ∈ l.map (·.key) := by
  constructor
  · intro some_
    obtain ⟨e, found⟩ := Option.ne_none_iff_exists'.mp some_
    obtain ⟨mem, key⟩ := (rep.table k e).mp found
    rw [← rep.filterMap]
    exact List.mem_filterMap.mpr ⟨e, mem, key⟩
  · exact fun mem none => rep.missing none mem

omit [DecidableEq K] in
theorem total_toNat (small : bytes l < 2 ^ 63) : (total l).toNat = bytes l := by
  induction l with
  | nil => rfl
  | cons e l ih =>
    simp only [bytes, List.map_cons, List.sum_cons] at small
    rw [total, List.map_cons, List.sum_cons, BitVec.toNat_add]
    have rest := ih (by unfold bytes; omega)
    rw [total, bytes] at rest
    rw [rest, bytes, List.map_cons, List.sum_cons, Nat.mod_eq_of_lt (by omega)]

/-- Before the capacity is checked, keys are lost by `Delete` and `Clear` only. -/
theorem entries_keep (mem : k ∈ l.map (·.key)) (lost : k ∉ (a.entries l).map (·.key)) :
    a = .delete k ∨ a = .clear := by
  have front : ∀ entry : Entry K V, k ∈ (entry :: others entry.key l).map (·.key) := fun entry => by
    rw [List.map_cons, map_key_others, List.mem_cons]
    by_cases same : k = entry.key
    · exact .inl same
    · exact .inr (List.mem_filter.mpr ⟨mem, decide_eq_true same⟩)
  cases a with
  | get key =>
    rw [Action.entries] at lost
    cases found : l.find? (·.key = key) with
    | none =>
      rw [found] at lost
      exact absurd mem lost
    | some entry =>
      obtain ⟨rfl, -⟩ := mem_of_find? found
      rw [found] at lost
      exact absurd (front entry) lost
  | set key value size => exact absurd (front ⟨key, value, size⟩) lost
  | setIfAbsent key value size =>
    rw [Action.entries] at lost
    cases found : l.find? (·.key = key) with
    | none =>
      rw [found] at lost
      exact absurd (List.mem_cons_of_mem _ mem) lost
    | some entry =>
      obtain ⟨rfl, -⟩ := mem_of_find? found
      rw [found] at lost
      exact absurd (front entry) lost
  | delete key =>
    rw [Action.entries, map_key_others] at lost
    by_cases same : k = key
    · exact .inl (same ▸ rfl)
    · exact absurd (List.mem_filter.mpr ⟨mem, decide_eq_true same⟩) lost
  | clear => exact .inr rfl
  | setCapacity capacity => exact absurd mem lost

theorem entries_of_stored (rep : Represents lru l) {v : V}
    (new : stored ⟨lru, a, out⟩ = some (k, v)) :
    ∃ size rest, a.entries l = ⟨k, v, size⟩ :: rest := by
  cases a with
  | set key value size =>
    cases new
    exact ⟨size, _, rfl⟩
  | setIfAbsent key value size =>
    have absent := rep.table_isNone key
    simp only [stored] at new
    split at new
    · rename_i none
      cases new
      rw [none] at absent
      refine ⟨size, l, ?_⟩
      rw [Action.entries, Option.isNone_iff_eq_none.mp absent.symm]
    · cases new
  | get key | delete key | clear | setCapacity capacity => cases new

theorem arrives_of_represents (rep : Represents lru l) {lru' : LRUCache K V}
    (taken : lru.step a = some (lru', out)) : Arrives lru a lru' out := by
  intro k v new
  obtain ⟨size, rest, front⟩ := entries_of_stored rep new
  -- an entry in front is what `Keys` lists first and `Get` finds
  have first : ∀ {c : LRUCache K V} {rest}, Represents c (⟨k, v, size⟩ :: rest) →
      c.keys.head? = some k ∧ c.value (.get k) = some v := fun rep' => by
    rw [LRUCache.keys, rep'.filterMap, rep'.value_get]
    simp
  obtain ⟨mid, -, rep', -, ⟨done, -⟩ | ⟨after, entry, -, -, last, done, rep'', -⟩⟩ :=
    step_represents rep a
  · obtain ⟨rfl, -⟩ := Prod.mk.inj (Option.some.inj (done.symm.trans taken))
    exact .inl (first (front ▸ rep'))
  · obtain ⟨rfl, rfl⟩ := Prod.mk.inj (Option.some.inj (done.symm.trans taken))
    rw [front] at last rep''
    cases rest with
    | nil =>
      obtain rfl := Option.some.inj last
      exact .inr ⟨_, rfl, rfl⟩
    | cons => exact .inl (first rep'')

theorem leaves_of_represents (rep : Represents lru l) (a : Action K V) :
    ∃ lru' out, lru.step a = some (lru', out) ∧ Leaves lru a lru' out := by
  obtain ⟨mid, changed, rep', -, ⟨done, -⟩ | ⟨lru', entry, -, more, last, done, rep'', -⟩⟩ :=
    step_represents rep a
  · refine ⟨mid, _, done, fun k here gone => ?_, nofun⟩
    exact (entries_keep (rep.table_ne_none.mp here) (rep'.missing gone)).imp id .inl
  · refine ⟨lru', _, done, fun k here gone => ?_, ?_⟩
    · by_cases mem : k ∈ ((a.entries l).map (·.key))
      · obtain ⟨init, whole⟩ := List.getLast?_eq_some_iff.mp last
        have absent := rep''.missing gone
        rw [whole] at mem absent
        rw [List.dropLast_concat] at absent
        rw [List.map_append, List.map_singleton, List.mem_append, List.mem_singleton] at mem
        exact .inr (.inr ⟨entry, rfl, (mem.resolve_left absent).symm⟩)
      · exact (entries_keep (rep.table_ne_none.mp here) mem).imp id .inl
    · rintro _ ⟨⟩
      refine ⟨mid, changed, more, ?_, ?_⟩
      · rw [LRUCache.keys, rep'.filterMap, List.getLast?_map, last]
        rfl
      · rw [LRUCache.keys, LRUCache.keys, rep''.filterMap, rep'.filterMap, List.map_dropLast]

theorem coherent_of_represents (rep : Represents lru l) (rem : Remembered h l) :
    Coherent h lru := by
  have keys : lru.keys = l.map (·.key) := rep.filterMap _
  refine ⟨rep.nodup, fun e mem => ?_, rep.table, ?_, keys ▸ rep.keys, keys ▸ rem.recent,
    fun k => ?_, fun k v here => ?_⟩
  · obtain ⟨_, _, _, entry, _, _, _, here, _, _⟩ := rep.split mem
    rw [here]
    rfl
  · rw [rep.entries_eq, rep.size]
    exact total_toNat
  · rw [rep.table_ne_none, rep.value_get]
    simp
  · rw [rep.value_get] at here
    obtain ⟨entry, found, rfl⟩ := Option.map_eq_some_iff.mp here
    obtain ⟨rfl, mem⟩ := mem_of_find? found
    exact rem.values entry mem

/-- After every run the cache is coherent, no operation fails, and entries arrive and leave as
they should. -/
theorem cache_coherent {capacity : BitVec 64}
    (run : Run LRUCache.step anyStep (newLRUCache capacity) h lru) :
    Coherent h lru ∧ ∀ a, ∃ lru' out, lru.step a = some (lru', out) ∧ Leaves lru a lru' out ∧
      Arrives lru a lru' out := by
  obtain ⟨l, rep, rem⟩ := represents_of_run run
  refine ⟨coherent_of_represents rep rem, fun a => ?_⟩
  obtain ⟨lru', out, taken, leaves⟩ := leaves_of_represents rep a
  exact ⟨lru', out, taken, leaves, arrives_of_represents rep taken⟩

/-- A cache for ten bytes, with the second of three entries evicted. -/
def evicting : List (Action Nat Nat) :=
  [.set 0 7 4#64, .set 1 8 4#64, .get 0, .setIfAbsent 2 9 4#64, .get 1]

theorem cache_coherent_evicting :
    ∃ h lru, Run LRUCache.step anyStep (newLRUCache 10#64 : LRUCache Nat Nat) h lru ∧
      lru.keys = [2, 0] ∧ recency h = [1, 2, 0] ∧ Coherent h lru ∧
      ∃ lru' out, lru.step (.set 1 6 4#64) = some (lru', out) ∧
        out.evicted = some ⟨0, 7, 4#64⟩ ∧ Leaves lru (.set 1 6 4#64) lru' out ∧
        Arrives lru (.set 1 6 4#64) lru' out := by
  have run := run_of_exec LRUCache.step anyStep (newLRUCache 10#64) evicting (by decide)
  obtain ⟨coherent, moves⟩ := cache_coherent run
  obtain ⟨lru', out, taken, leaves, arrives⟩ := moves (.set 1 6 4#64)
  refine ⟨_, _, run, by decide, by decide, coherent, lru', out, taken, ?_, leaves, arrives⟩
  obtain ⟨-, rfl⟩ := Prod.mk.inj (Option.some.inj taken)
  rfl

/-! ### The capacity -/

/-- The operations after which the cache should not be above its capacity. -/
def Action.Sizing : Action K V → Prop
  | .set _ _ _ | .setIfAbsent _ _ _ | .setCapacity _ => True
  | .get _ | .delete _ | .clear => False

/-- The entries fit, or all of them but the least recently used do. -/
def Fits (capacity : BitVec 64) (l : List (Entry K V)) : Prop :=
  total l ≤ capacity ∨ total l.dropLast ≤ capacity

/-- With what an operation adds, it has to remove one entry at most. A key that is there already
makes `SetIfAbsent` remove nothing. -/
def Room (lru : LRUCache K V) : Action K V → Prop
  | .set key value size => Fits lru.capacity (⟨key, value, size⟩ :: others key lru.entries)
  | .setIfAbsent key value size =>
    if (lru.table key).isNone then Fits lru.capacity (⟨key, value, size⟩ :: lru.entries)
    else total lru.entries ≤ lru.capacity
  | .setCapacity capacity => Fits capacity lru.entries
  | .get _ | .delete _ | .clear => True

theorem total_front (keys : (l.map (·.key)).Nodup) (mem : entry ∈ l) :
    total (entry :: others entry.key l) = total l := by
  obtain ⟨a, b, rfl⟩ := List.append_of_mem mem
  rw [others_split keys]
  simp only [total, List.map_append, List.map_cons, List.sum_append, List.sum_cons]
  rw [add_left_comm]

/-- The condition, on the entries that the check finds. -/
theorem room_iff (rep : Represents lru l) (sizing : a.Sizing) :
    Room lru a ↔ if lru.checks a = true then Fits (a.capacity lru.capacity) (a.entries l)
      else total (a.entries l) ≤ a.capacity lru.capacity := by
  cases a with
  | set key value size | setCapacity capacity =>
    rw [Room, rep.entries_eq, LRUCache.checks, if_pos rfl]
    rfl
  | setIfAbsent key value size =>
    have absent := rep.table_isNone key
    rw [Room, rep.entries_eq, LRUCache.checks, absent, Action.entries]
    cases found : l.find? (·.key = key) with
    | none => rfl
    | some entry =>
      obtain rfl : entry.key = key := by simpa using List.find?_some found
      simp only [Option.isNone_some, Bool.false_eq_true, if_false]
      rw [total_front rep.keys (List.mem_of_find?_eq_some found)]
      rfl
  | get key | delete key | clear => exact sizing.elim

theorem within_iff_room (rep : Represents lru l) {lru' : LRUCache K V} (sizing : a.Sizing)
    (taken : lru.step a = some (lru', out)) : lru'.size ≤ lru'.capacity ↔ Room lru a := by
  rw [room_iff rep sizing]
  obtain ⟨mid, -, rep', capacity, ⟨done, fits⟩ |
    ⟨after, entry, checked, more, -, done, rep'', same⟩⟩ := step_represents rep a
  · obtain ⟨rfl, -⟩ := Prod.mk.inj (Option.some.inj (done.symm.trans taken))
    rw [rep'.size, capacity] at fits ⊢
    split_ifs with checked
    · have small := BitVec.not_lt.mp (fits checked)
      exact iff_of_true small (.inl small)
    · exact Iff.rfl
  · obtain ⟨rfl, -⟩ := Prod.mk.inj (Option.some.inj (done.symm.trans taken))
    rw [if_pos checked, rep''.size, same, capacity]
    rw [rep'.size, capacity] at more
    exact (or_iff_right (BitVec.not_le.mpr more)).symm

/-- After `Set`, `SetIfAbsent` and `SetCapacity` the cache is within its capacity just when the
removal of one entry is enough for that. -/
theorem within_capacity_iff {capacity : BitVec 64} {lru' : LRUCache K V}
    (run : Run LRUCache.step anyStep (newLRUCache capacity) h lru) (sizing : a.Sizing)
    (taken : lru.step a = some (lru', out)) : lru'.size ≤ lru'.capacity ↔ Room lru a := by
  obtain ⟨l, rep, -⟩ := represents_of_run run
  exact within_iff_room rep sizing taken

theorem within_capacity_iff_evicting :
    ∃ h lru lru' out, Run LRUCache.step anyStep (newLRUCache 10#64 : LRUCache Nat Nat) h lru ∧
      lru.step (.set 3 9 6#64) = some (lru', out) ∧ lru'.keys = [3, 2] ∧ lru'.size = 10#64 ∧
      Room lru (.set 3 9 6#64) := by
  have run := run_of_exec LRUCache.step anyStep (newLRUCache 10#64) evicting (by decide)
  have sizing : (Action.set 3 9 6#64 : Action Nat Nat).Sizing := trivial
  exact ⟨_, _, _, _, run, rfl, by decide, by decide,
    (within_capacity_iff run sizing rfl).mp (by decide)⟩

/-- Two entries of five bytes fill a cache for ten bytes. Another one of ten bytes removes only the
first of them, and so does a capacity of one byte. -/
theorem above_capacity :
    ∃ h lru, Run LRUCache.step anyStep (newLRUCache 10#64 : LRUCache Nat Nat) h lru ∧
      (∃ lru' out, lru.step (.set 2 0 10#64) = some (lru', out) ∧ lru'.size = 15#64 ∧
        ¬ lru'.size ≤ lru'.capacity) ∧
      ∃ lru' out, lru.step (.setCapacity 1#64) = some (lru', out) ∧ lru'.size = 5#64 ∧
        ¬ lru'.size ≤ lru'.capacity := by
  have run := run_of_exec LRUCache.step anyStep (newLRUCache 10#64 : LRUCache Nat Nat)
    [.set 0 0 5#64, .set 1 0 5#64] (by decide)
  exact ⟨_, _, run, ⟨_, _, rfl, by decide, by decide⟩, _, _, rfl, by decide, by decide⟩

end LruTable
