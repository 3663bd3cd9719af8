import Cadent.Lib.Heap
import Mathlib.Data.List.Range

/-!
# Slices of backing arrays

A slice is a window of a backing array: it has a length and may grow in place up to its
capacity. Appending beyond that moves the contents to a new array, whose capacity is a
parameter. Two slices may share an array, so a write through one can show in the other.
-/

universe u

structure Slice where
  array : Nat
  offset : Nat
  length : Nat
  capacity : Nat
  fits : length ≤ capacity

namespace Slice

/-- A slice without room to grow in place. -/
def full (array offset length : Nat) : Slice := ⟨array, offset, length, length, le_rfl⟩

variable {β : Type u} (h : Heap (Nat → β)) (s : Slice)

/-- Nothing for an index that is out of range. -/
def get (i : Nat) : Option β :=
  if i < s.length then some (h.cell s.array (s.offset + i)) else none

def contents : List β := (List.range s.length).map fun i => h.cell s.array (s.offset + i)

/-- The first cells are overwritten with a list. -/
def fill (l : List β) : Heap (Nat → β) :=
  h.write s.array fun j =>
    if s.offset ≤ j then l[j - s.offset]?.getD (h.cell s.array j) else h.cell s.array j

/-- `s[:0]`. -/
def clear : Slice := { s with length := 0, fits := Nat.zero_le _ }

/-- `append(s, b)`: in place while there is room, else in a new array. -/
def append [Inhabited β] (grow : Nat → Nat) (b : β) : Heap (Nat → β) × Slice :=
  if room : s.length < s.capacity then
    (h.write s.array (Function.update (h.cell s.array) (s.offset + s.length) b),
      { s with length := s.length + 1, fits := room })
  else
    (h.alloc (Function.update
      (fun j => if j < s.length then h.cell s.array (s.offset + j) else default) s.length b),
      ⟨h.next, 0, s.length + 1, s.length + 1 + grow s.capacity, Nat.le_add_right _ _⟩)

/-- No cell is in both windows. -/
def Apart (s s' : Slice) : Prop :=
  s.array ≠ s'.array ∨ s.offset + s.length ≤ s'.offset ∨ s'.offset + s'.length ≤ s.offset
  deriving Decidable

@[simp] theorem length_contents : (s.contents h).length = s.length := by simp [contents]

theorem get_eq (i : Nat) : s.get h i = (s.contents h)[i]? := by
  by_cases lt : i < s.length
  · simp [get, contents, lt]
  · simp [get, contents, lt]

variable {h s}

theorem Apart.symm {s' : Slice} (apart : s.Apart s') : s'.Apart s := by
  obtain ne | before | after := apart
  · exact .inl ne.symm
  · exact .inr (.inr before)
  · exact .inr (.inl after)

/-- Slices with a cell in common have what is there. -/
theorem exists_mem_contents {s' : Slice} (near : ¬ s.Apart s') (some : s.contents h ≠ [])
    (some' : s'.contents h ≠ []) : ∃ b ∈ s.contents h, b ∈ s'.contents h := by
  have mem {s : Slice} {c : Nat} (ge : s.offset ≤ c) (lt : c < s.offset + s.length) :
      h.cell s.array c ∈ s.contents h := by
    refine List.mem_map.mpr ⟨c - s.offset, List.mem_range.mpr (by omega), ?_⟩
    rw [Nat.add_sub_cancel' ge]
  have pos := List.length_pos_iff.mpr some
  have pos' := List.length_pos_iff.mpr some'
  rw [length_contents] at pos pos'
  simp only [Apart, not_or, not_not, not_le] at near
  obtain ⟨array, before, after⟩ := near
  refine ⟨h.cell s.array (max s.offset s'.offset), mem (le_max_left ..) (by omega), ?_⟩
  rw [array]
  exact mem (le_max_right ..) (by omega)

theorem fill_cell {l : List β} {a j : Nat} (apart : a ≠ s.array ∨ j < s.offset ∨
    s.offset + l.length ≤ j) : (s.fill h l).cell a j = h.cell a j := by
  by_cases same : a = s.array
  · subst same
    rw [fill, Heap.write_cell]
    split_ifs with from_offset
    · rw [List.getElem?_eq_none (by omega)]
      rfl
    · rfl
  · rw [fill, h.write_cell_of_ne same]

theorem contents_fill {l : List β} (length : l.length = s.length) :
    s.contents (s.fill h l) = l := by
  refine List.ext_getElem (by rw [length_contents, length]) fun i lt lt' => ?_
  simp [contents, fill, Heap.write_cell, lt']

theorem contents_fill_of_apart {s' : Slice} {l : List β} (apart : s.Apart s')
    (length : l.length = s.length) : s'.contents (s.fill h l) = s'.contents h := by
  refine List.map_congr_left fun i mem => fill_cell ?_
  have := List.mem_range.mp mem
  obtain ne | before | after := apart
  · exact .inl ne.symm
  · exact .inr (.inr (by omega))
  · exact .inr (.inl (by omega))

theorem mem_contents_fill {s' : Slice} {l : List β} {b : β}
    (mem : b ∈ s'.contents (s.fill h l)) : b ∈ s'.contents h ∨ b ∈ l := by
  obtain ⟨i, small, rfl⟩ := List.mem_map.mp mem
  by_cases inside : s'.array = s.array ∧ s.offset ≤ s'.offset + i ∧
      s'.offset + i < s.offset + l.length
  · obtain ⟨same, low, high⟩ := inside
    refine .inr ?_
    rw [fill, same, Heap.write_cell, if_pos low, List.getElem?_eq_getElem (by omega)]
    exact List.getElem_mem _
  · refine .inl (List.mem_map.mpr ⟨i, small, (fill_cell ?_).symm⟩)
    omega

section Append

variable [Inhabited β] {grow : Nat → Nat} {b : β}

/-- Only the cell after the contents is written. -/
theorem append_cell {a j : Nat} (old : a < h.next) (apart : a ≠ s.array ∨ j ≠ s.offset + s.length) :
    (s.append h grow b).1.cell a j = h.cell a j := by
  rw [append]
  split_ifs with room
  · by_cases same : a = s.array
    · subst same
      have ne : j ≠ s.offset + s.length := apart.resolve_left fun ne => ne rfl
      simp [Function.update_of_ne ne]
    · rw [h.write_cell_of_ne same]
  · rw [h.alloc_cell_of_lt old]

theorem append_next : h.next ≤ (s.append h grow b).1.next := by
  rw [append]
  split_ifs
  · exact Nat.le_refl _
  · exact Nat.le_succ _

/-- The window stays where it is, or moves to an array that was not there. -/
theorem append_array : ((s.append h grow b).2.array = s.array ∧
      (s.append h grow b).2.offset = s.offset) ∨ (s.append h grow b).2.array = h.next := by
  rw [append]
  split_ifs
  · exact .inl ⟨rfl, rfl⟩
  · exact .inr rfl

theorem append_array_lt (placed : s.array < h.next) :
    (s.append h grow b).2.array < (s.append h grow b).1.next := by
  rw [append]
  split_ifs
  · exact placed
  · exact Nat.lt_succ_self _

@[simp] theorem length_append : (s.append h grow b).2.length = s.length + 1 := by
  rw [append]
  split_ifs <;> rfl

theorem contents_append :
    (s.append h grow b).2.contents (s.append h grow b).1 = s.contents h ++ [b] := by
  rw [append]
  split_ifs with room
  · have old : ∀ i ∈ List.range s.length, (h.write s.array (Function.update (h.cell s.array)
        (s.offset + s.length) b)).cell s.array (s.offset + i) =
          h.cell s.array (s.offset + i) := by
      intro i mem
      have := List.mem_range.mp mem
      rw [Heap.write_cell, Function.update_of_ne (by omega)]
    simp only [contents, List.range_succ, List.map_append, List.map_congr_left old]
    simp
  · have old : ∀ i ∈ List.range s.length, (h.alloc (Function.update
        (fun j => if j < s.length then h.cell s.array (s.offset + j) else default)
          s.length b)).cell h.next (0 + i) = h.cell s.array (s.offset + i) := by
      intro i mem
      have lt := List.mem_range.mp mem
      rw [Heap.alloc_cell, Nat.zero_add, Function.update_of_ne (Nat.ne_of_lt lt), if_pos lt]
    simp only [contents, List.range_succ, List.map_append, List.map_congr_left old]
    simp

end Append

end Slice
