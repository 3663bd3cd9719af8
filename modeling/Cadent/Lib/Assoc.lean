import Mathlib.Data.List.Nodup

/-!
# Association lists

Finite maps as lists of keys and values, for types that are built from themselves: a map with
a proof inside cannot be a field of its own values. The first entry of a key counts.
-/

namespace Assoc

universe u v

variable {κ : Type u} {ν : Type v} [DecidableEq κ]

def get (k : κ) : List (κ × ν) → Option ν
  | [] => none
  | e :: l => if e.1 = k then some e.2 else get k l

/-- Gives the first entry of a key another value, or adds one at the end. -/
def set (k : κ) (v : ν) : List (κ × ν) → List (κ × ν)
  | [] => [(k, v)]
  | e :: l => if e.1 = k then (k, v) :: l else e :: set k v l

def erase (k : κ) : List (κ × ν) → List (κ × ν)
  | [] => []
  | e :: l => if e.1 = k then erase k l else e :: erase k l

variable {k k' : κ} {v : ν} {l : List (κ × ν)}

theorem get_set (k k' : κ) (v : ν) (l : List (κ × ν)) :
    get k' (set k v l) = if k' = k then some v else get k' l := by
  induction l with
  | nil =>
    by_cases same : k' = k
    · simp [set, get, same]
    · simp [set, get, same, Ne.symm same]
  | cons e l ih =>
    by_cases here : e.1 = k
    · by_cases same : k' = k
      · simp [set, get, here, same]
      · simp [set, get, here, same, Ne.symm same]
    · by_cases same : k' = k
      · subst same
        simp [set, get, here, ih]
      · simp [set, get, here, ih, same]

theorem get_erase (k k' : κ) (l : List (κ × ν)) :
    get k' (erase k l) = if k' = k then none else get k' l := by
  induction l with
  | nil => simp [erase, get]
  | cons e l ih =>
    by_cases here : e.1 = k
    · by_cases same : k' = k
      · subst same
        simpa [erase, here] using ih
      · simp [erase, get, here, ih, same, Ne.symm same]
    · by_cases same : k' = k
      · subst same
        simp [erase, get, here, ih]
      · simp [erase, get, here, ih, same]

theorem erase_sublist (k : κ) (l : List (κ × ν)) : (erase k l).Sublist l := by
  induction l with
  | nil => exact .slnil
  | cons e l ih =>
    rw [erase]
    split_ifs
    · exact ih.cons _
    · exact ih.cons_cons _

theorem mem_of_get (found : get k l = some v) : (k, v) ∈ l := by
  induction l with
  | nil => cases found
  | cons e l ih =>
    rw [get] at found
    split_ifs at found with here
    · obtain rfl := Option.some.inj found
      subst here
      exact List.mem_cons_self
    · exact List.mem_cons_of_mem _ (ih found)

theorem get_of_mem (nodup : (l.map Prod.fst).Nodup) (mem : (k, v) ∈ l) : get k l = some v := by
  induction l with
  | nil => cases mem
  | cons e l ih =>
    obtain ⟨fresh, nodup⟩ := List.nodup_cons.mp nodup
    rw [get]
    rcases List.mem_cons.mp mem with rfl | mem
    · rw [if_pos rfl]
    · rw [if_neg, ih nodup mem]
      intro same
      exact fresh (List.mem_map.mpr ⟨(k, v), mem, same.symm⟩)

theorem mem_set {e : κ × ν} (mem : e ∈ set k v l) : e = (k, v) ∨ e ∈ l := by
  induction l with
  | nil => exact .inl (List.mem_singleton.mp mem)
  | cons a l ih =>
    rw [set] at mem
    split_ifs at mem with here
    · rcases List.mem_cons.mp mem with new | old
      · exact .inl new
      · exact .inr (List.mem_cons_of_mem _ old)
    · rcases List.mem_cons.mp mem with rfl | later
      · exact .inr List.mem_cons_self
      · rcases ih later with new | old
        · exact .inl new
        · exact .inr (List.mem_cons_of_mem _ old)

theorem nodup_set (nodup : (l.map Prod.fst).Nodup) : ((set k v l).map Prod.fst).Nodup := by
  induction l with
  | nil => simp [set]
  | cons e l ih =>
    obtain ⟨fresh, rest⟩ := List.nodup_cons.mp nodup
    rw [set]
    split_ifs with here
    · subst here
      exact nodup
    · refine List.nodup_cons.mpr ⟨?_, ih rest⟩
      intro again
      obtain ⟨e', mem, same⟩ := List.mem_map.mp again
      rcases mem_set mem with rfl | old
      · exact here same.symm
      · exact fresh (same ▸ List.mem_map_of_mem old)

theorem nodup_erase (nodup : (l.map Prod.fst).Nodup) : ((erase k l).map Prod.fst).Nodup :=
  nodup.sublist ((erase_sublist k l).map _)

end Assoc
