import Mathlib.Algebra.BigOperators.Group.List.Basic
import Mathlib.Data.List.AList
import Mathlib.Data.List.Induction
import Mathlib.Tactic.Abel

/-!
# Finite maps

Maps with decidable keys as association lists without repeated keys. Needed on top of the
lookup lemmas are a map of lists, where a missing key stands for the empty list, the map that
a list of assignments makes, the number of keys, and the total of a measure over all values.
-/

namespace Maps

universe u v

variable {κ : Type u} {ν : Type v} [DecidableEq κ]

abbrev Map (κ : Type u) (ν : Type v) := AList fun _ : κ => ν

/-! ### Maps of lists -/

def listAt (m : Map κ (List ν)) (k : κ) : List ν := (m.lookup k).getD []

def push (m : Map κ (List ν)) (k : κ) (x : ν) : Map κ (List ν) := m.insert k (listAt m k ++ [x])

@[simp] theorem listAt_empty (k : κ) : listAt (∅ : Map κ (List ν)) k = [] := rfl

theorem listAt_push (m : Map κ (List ν)) (k k' : κ) (x : ν) :
    listAt (push m k x) k' = if k = k' then listAt m k' ++ [x] else listAt m k' := by
  by_cases same : k = k'
  · subst same
    simp [listAt, push]
  · simp [listAt, push, same, AList.lookup_insert_ne (Ne.symm same)]

theorem lookup_insert (m : Map κ ν) (k k' : κ) (v : ν) :
    (m.insert k v).lookup k' = if k' = k then some v else m.lookup k' := by
  split_ifs with same
  · rw [same, AList.lookup_insert]
  · exact AList.lookup_insert_ne same

theorem lookup_erase (m : Map κ ν) (k k' : κ) :
    (m.erase k).lookup k' = if k' = k then none else m.lookup k' := by
  split_ifs with same
  · rw [same, AList.lookup_erase]
  · exact AList.lookup_erase_ne same

theorem lookup_foldl_insert (m : Map κ ν) (l : List κ) (k : κ) (v : ν) :
    (l.foldl (fun m k => m.insert k v) m).lookup k = if k ∈ l then some v else m.lookup k := by
  induction l generalizing m with
  | nil => simp
  | cons a l ih =>
    rw [List.foldl_cons, ih, lookup_insert]
    by_cases same : k = a <;> by_cases later : k ∈ l <;> simp [same, later]

theorem lookup_foldl_erase {m : Map κ ν} {l : List κ} {k : κ} {v : ν} :
    (l.foldl (fun m k => m.erase k) m).lookup k = some v ↔ k ∉ l ∧ m.lookup k = some v := by
  induction l generalizing m with
  | nil => simp
  | cons a l ih =>
    rw [List.foldl_cons, ih, lookup_erase]
    by_cases same : k = a <;> simp [same]

omit [DecidableEq κ] in
/-- If every step keeps or drops entries or puts its own one, all entries were put by steps. -/
theorem exists_mem_of_lookup_foldl {α σ : Type*} (look : σ → κ → Option ν) (step : σ → α → σ)
    {puts : α → κ → ν → Prop}
    (one : ∀ s a k v, look (step s a) k = some v → look s k = some v ∨ puts a k v) {s : σ}
    (empty : ∀ k, look s k = none) {l : List α} {k : κ} {v : ν}
    (found : look (l.foldl step s) k = some v) : ∃ a ∈ l, puts a k v := by
  induction l using List.reverseRecOn with
  | nil => cases (empty k).symm.trans found
  | append_singleton l a ih =>
    rw [List.foldl_append] at found
    rcases one _ a k v found with old | new
    · obtain ⟨b, mem, put⟩ := ih old
      exact ⟨b, List.mem_append_left _ mem, put⟩
    · exact ⟨a, by simp, new⟩

theorem mem_entries_iff {m : Map κ ν} {k : κ} {v : ν} : ⟨k, v⟩ ∈ m.entries ↔ m.lookup k = some v :=
  AList.mem_lookup_iff.symm

theorem filterMap_lookup_perm {m : Map κ ν} {order : List κ} (keys : order.Perm m.keys) :
    (order.filterMap m.lookup).Perm (m.entries.map (·.2)) := by
  have listed : m.keys.filterMap m.lookup = m.entries.map (·.2) := by
    rw [AList.keys, List.keys, List.filterMap_map, ← List.filterMap_eq_map]
    refine List.filterMap_congr ?_
    intro e mem
    exact mem_entries_iff.mp mem
  exact listed ▸ keys.filterMap _

/-! ### Maps of assignments -/

/-- The map after some assignments. -/
def assign (l : List (κ × ν)) : Map κ ν := l.foldl (fun m e => m.insert e.1 e.2) ∅

theorem assign_concat (l : List (κ × ν)) (e : κ × ν) :
    assign (l ++ [e]) = (assign l).insert e.1 e.2 := by
  rw [assign, List.foldl_append]
  rfl

/-- Where the entries of a key agree, it gets what they say. -/
theorem lookup_assign {l : List (κ × ν)} {k : κ} {v : ν}
    (agree : ∀ v w, (k, v) ∈ l → (k, w) ∈ l → v = w) :
    (assign l).lookup k = some v ↔ (k, v) ∈ l := by
  induction l using List.reverseRecOn with
  | nil => exact ⟨nofun, fun mem => absurd mem List.not_mem_nil⟩
  | append_singleton l e ih =>
    rw [assign_concat]
    by_cases same : k = e.1
    · subst same
      have last : (e.1, e.2) ∈ l ++ [e] := List.mem_append_right _ List.mem_cons_self
      rw [AList.lookup_insert]
      constructor
      · rintro ⟨⟩
        exact last
      · intro mem
        exact congrArg some (agree _ _ last mem)
    · have other : ∀ w, (k, w) ∈ l ++ [e] ↔ (k, w) ∈ l := by
        intro w
        simp [Prod.ext_iff, same]
      rw [AList.lookup_insert_ne same, other]
      refine ih fun v w memv memw => ?_
      exact agree v w (List.mem_append_left _ memv) (List.mem_append_left _ memw)

theorem lookup_assign_entries (m : Map κ ν) (k : κ) :
    (assign (m.entries.map fun e => (e.1, e.2))).lookup k = m.lookup k := by
  have hmem : ∀ v, (k, v) ∈ (m.entries.map fun e => (e.1, e.2)) ↔ m.lookup k = some v := by
    intro v
    simp only [List.mem_map, Prod.mk.injEq]
    constructor
    · rintro ⟨e, mem, rfl, rfl⟩
      exact mem_entries_iff.mp mem
    · intro found
      exact ⟨⟨k, v⟩, mem_entries_iff.mpr found, rfl, rfl⟩
  apply Option.ext
  intro v
  rw [lookup_assign, hmem]
  intro v w mem mem'
  exact Option.some.inj (((hmem v).mp mem).symm.trans ((hmem w).mp mem'))

theorem mem_keys_iff {m : Map κ ν} {k : κ} : k ∈ m.keys ↔ (m.lookup k).isSome := by
  rw [AList.lookup_isSome, AList.mem_keys]

theorem length_keys_congr {m m' : Map κ ν} (same : ∀ k, m.lookup k = m'.lookup k) :
    m.keys.length = m'.keys.length := by
  apply List.Perm.length_eq
  rw [List.perm_ext_iff_of_nodup m.keys_nodup m'.keys_nodup]
  intro k
  rw [mem_keys_iff, mem_keys_iff, same]

theorem length_keys_insert (m : Map κ ν) (k : κ) (v : ν) :
    ((m.insert k v).keys.length : Int) =
      if (m.lookup k).isNone then (m.keys.length : Int) + 1 else m.keys.length := by
  rw [AList.keys_insert, List.length_cons, List.length_erase]
  rcases found : m.lookup k with _ | w
  · have missing : k ∉ m.keys := fun mem => by simp [mem_keys_iff, found] at mem
    simp [missing]
  · have mem : k ∈ m.keys := mem_keys_iff.mpr (by rw [found]; rfl)
    have some := List.length_pos_of_mem mem
    simp only [mem, if_true, Option.isNone_some, Bool.false_eq_true, if_false]
    omega

theorem length_keys_erase (m : Map κ ν) (k : κ) :
    ((m.erase k).keys.length : Int) =
      if (m.lookup k).isSome then (m.keys.length : Int) - 1 else m.keys.length := by
  rw [AList.keys_erase, List.length_erase]
  by_cases mem : k ∈ m.keys
  · have some := List.length_pos_of_mem mem
    rw [if_pos (mem_keys_iff.mp mem), if_pos mem]
    omega
  · rw [if_neg (mt mem_keys_iff.mpr mem), if_neg mem]

/-! ### Totals -/

/-- The sum of a measure over all values. -/
def total {M : Type*} [AddCommGroup M] (f : ν → M) (m : Map κ ν) : M :=
  (m.entries.map fun e => f e.2).sum

section Total

variable {M : Type*} [AddCommGroup M] {f : ν → M} {m : Map κ ν} {k : κ} {v : ν}

omit [DecidableEq κ] in
@[simp] theorem total_empty : total f (∅ : Map κ ν) = 0 := rfl

theorem total_erase (found : m.lookup k = some v) : total f (m.erase k) = total f m - f v := by
  have mem : k ∈ m.entries.keys := AList.lookup_isSome.mp (by rw [found]; rfl)
  obtain ⟨w, before, after, fresh, split, erased⟩ := List.exists_of_kerase mem
  have same : w = v := by
    have entry : (⟨k, w⟩ : Sigma fun _ : κ => ν) ∈ m.entries := by rw [split]; simp
    have looked : m.lookup k = some w := AList.mem_lookup_iff.mpr entry
    exact Option.some.inj (looked.symm.trans found)
  have left : (m.erase k).entries = before ++ after := erased
  rw [total, total, left, split, same]
  simp only [List.map_append, List.map_cons, List.sum_append, List.sum_cons]
  abel

theorem total_insert_new (missing : m.lookup k = none) :
    total f (m.insert k v) = total f m + f v := by
  rw [total, AList.entries_insert_of_notMem (AList.lookup_eq_none.mp missing), List.map_cons,
    List.sum_cons, total]
  exact add_comm _ _

theorem total_insert {w : ν} (found : m.lookup k = some v) :
    total f (m.insert k w) = total f m - f v + f w := by
  rw [← total_erase found, total, AList.entries_insert, List.map_cons, List.sum_cons, total]
  exact add_comm _ _

theorem total_eq_zero (zero : ∀ k v, m.lookup k = some v → f v = 0) : total f m = 0 := by
  refine List.sum_eq_zero ?_
  intro x mem
  obtain ⟨e, entry, rfl⟩ := List.mem_map.mp mem
  exact zero e.1 e.2 (AList.mem_lookup_iff.mpr entry)

theorem total_congr {g : ν → M} (same : ∀ k v, m.lookup k = some v → f v = g v) :
    total f m = total g m := by
  rw [total, total]
  refine congrArg List.sum (List.map_congr_left ?_)
  intro e mem
  exact same e.1 e.2 (AList.mem_lookup_iff.mpr mem)

/-- Another measure of one value, which has one key, changes the total by as much. -/
theorem total_change {g : ν → M} (found : m.lookup k = some v)
    (only : ∀ k', m.lookup k' = some v → k' = k) (others : ∀ w, w ≠ v → f w = g w) :
    total g m = total f m - f v + g v := by
  have rest : total f (m.erase k) = total g (m.erase k) := by
    refine total_congr ?_
    intro k' w here
    refine others w ?_
    rintro rfl
    by_cases same : k' = k
    · subst same
      simp at here
    · rw [AList.lookup_erase_ne same] at here
      exact same (only k' here)
  rw [← total_erase found, rest, total_erase found]
  abel

theorem sum_lookup {order : List κ} (keys : order.Perm m.keys) :
    (order.map fun k => ((m.lookup k).map f).getD 0).sum = total f m := by
  have listed : (m.keys.map fun k => ((m.lookup k).map f).getD 0) =
      m.entries.map fun e => f e.2 := by
    rw [AList.keys, List.keys, List.map_map]
    refine List.map_congr_left ?_
    intro e mem
    have here : m.lookup e.1 = some e.2 := AList.mem_lookup_iff.mpr mem
    simp [here]
  rw [(keys.map _).sum_eq, listed, total]

end Total

end Maps
