import Mathlib.Logic.Function.Basic

/-!
# Objects behind pointers

A heap has a cell for each address and the next free address. A pointer may be nil. What a
list of pointers refers to depends only on the cells of its own addresses.
-/

universe u

structure Heap (β : Type u) where
  cell : Nat → β
  next : Nat

namespace Heap

variable {β : Type u} (h : Heap β)

def write (i : Nat) (b : β) : Heap β := { h with cell := Function.update h.cell i b }

/-- The new object is at the address that was next. -/
def alloc (b : β) : Heap β := ⟨Function.update h.cell h.next b, h.next + 1⟩

/-- The objects of a list of pointers; a nil has none. -/
def load (l : List (Option Nat)) : List β := l.filterMap fun p => p.map h.cell

@[simp] theorem write_cell (i : Nat) (b : β) : (h.write i b).cell i = b := Function.update_self ..

theorem write_cell_of_ne {i j : Nat} (ne : j ≠ i) (b : β) : (h.write i b).cell j = h.cell j :=
  Function.update_of_ne ne ..

@[simp] theorem write_self (i : Nat) : h.write i (h.cell i) = h := by
  rw [write, Function.update_eq_self]

@[simp] theorem write_write (i : Nat) (b c : β) : (h.write i b).write i c = h.write i c := by
  rw [write, write, write, Function.update_idem]

@[simp] theorem alloc_cell (b : β) : (h.alloc b).cell h.next = b := Function.update_self ..

theorem alloc_cell_of_lt {j : Nat} (lt : j < h.next) (b : β) : (h.alloc b).cell j = h.cell j :=
  Function.update_of_ne (Nat.ne_of_lt lt) ..

@[simp] theorem load_nil : h.load [] = [] := rfl

@[simp] theorem load_some (i : Nat) (l : List (Option Nat)) :
    h.load (some i :: l) = h.cell i :: h.load l := rfl

theorem load_map_some (l : List Nat) : h.load (l.map some) = l.map h.cell := by
  induction l with
  | nil => rfl
  | cons i l ih => rw [List.map_cons, load_some, ih, List.map_cons]

theorem exists_map_some {l : List (Option Nat)} (nonNil : ∀ p ∈ l, p ≠ none) :
    ∃ l' : List Nat, l = l'.map some := by
  induction l with
  | nil => exact ⟨[], rfl⟩
  | cons p l ih =>
    obtain ⟨l', rfl⟩ := ih fun q mem => nonNil q (List.mem_cons_of_mem _ mem)
    obtain ⟨i, rfl⟩ := Option.ne_none_iff_exists'.mp (nonNil p List.mem_cons_self)
    exact ⟨i :: l', rfl⟩

theorem load_append (l l' : List (Option Nat)) : h.load (l ++ l') = h.load l ++ h.load l' :=
  List.filterMap_append

theorem load_perm {l l' : List (Option Nat)} (perm : l.Perm l') : (h.load l).Perm (h.load l') :=
  perm.filterMap _

variable {h} in
theorem load_congr {h' : Heap β} {l : List (Option Nat)}
    (same : ∀ i, some i ∈ l → h'.cell i = h.cell i) : h'.load l = h.load l := by
  induction l with
  | nil => rfl
  | cons p l ih =>
    have rest := ih fun i mem => same i (List.mem_cons_of_mem _ mem)
    cases p with
    | none => exact rest
    | some i => rw [load_some, load_some, rest, same i List.mem_cons_self]

variable {h} in
theorem load_write {i : Nat} {l : List (Option Nat)} (absent : some i ∉ l) (b : β) :
    (h.write i b).load l = h.load l :=
  load_congr fun j mem => h.write_cell_of_ne (fun same => absent (by rw [← same]; exact mem)) b

/-- A later heap in which the objects of an earlier one are as they were. -/
structure Extends (h h' : Heap β) : Prop where
  next : h.next ≤ h'.next
  cell : ∀ i < h.next, h'.cell i = h.cell i

variable {h}

theorem Extends.refl : Extends h h := ⟨Nat.le_refl _, fun _ _ => rfl⟩

theorem Extends.trans {h' h'' : Heap β} (first : Extends h h') (second : Extends h' h'') :
    Extends h h'' := by
  refine ⟨Nat.le_trans first.next second.next, fun i lt => ?_⟩
  rw [second.cell i (Nat.lt_of_lt_of_le lt first.next), first.cell i lt]

theorem Extends.alloc {h' : Heap β} (later : Extends h h') (b : β) : Extends h (h'.alloc b) := by
  refine ⟨Nat.le_succ_of_le later.next, fun j lt => ?_⟩
  rw [h'.alloc_cell_of_lt (Nat.lt_of_lt_of_le lt later.next), later.cell j lt]

end Heap
