import Mathlib.Data.List.Nodup
import Mathlib.Order.Lattice

/-!
# Ordered maps

A key value store that is read in the order of its keys: a list of entries with increasing keys.
What a map has is said by the entries in it, of which a key has at most one.
-/

namespace Ordered

universe u v

variable {κ : Type u} {ν : Type v} [LinearOrder κ]

/-- Strictly increasing keys. -/
def Increasing (es : List (κ × ν)) : Prop := es.Pairwise fun a b => a.1 < b.1

def putEntry (k : κ) (v : ν) : List (κ × ν) → List (κ × ν)
  | [] => [(k, v)]
  | e :: es =>
    if k < e.1 then (k, v) :: e :: es
    else if k = e.1 then (k, v) :: es
    else e :: putEntry k v es

theorem mem_putEntry {k : κ} {v : ν} {es : List (κ × ν)} (sorted : Increasing es) {e : κ × ν} :
    e ∈ putEntry k v es ↔ e = (k, v) ∨ e.1 ≠ k ∧ e ∈ es := by
  induction es with
  | nil => simp [putEntry]
  | cons a es ih =>
    obtain ⟨first, sorted⟩ := List.pairwise_cons.mp sorted
    have later : ∀ e ∈ es, e.1 ≠ a.1 := fun e mem => (first e mem).ne'
    rw [putEntry]
    split_ifs with lt eq
    · have above : ∀ e ∈ a :: es, e.1 ≠ k := by
        refine List.forall_mem_cons.mpr ⟨lt.ne', fun e mem => ?_⟩
        exact (lt.trans (first e mem)).ne'
      rw [List.mem_cons]
      exact or_congr_right ⟨fun mem => ⟨above e mem, mem⟩, And.right⟩
    · rw [List.mem_cons, List.mem_cons]
      refine or_congr_right ?_
      constructor
      · intro mem
        exact ⟨eq ▸ later e mem, .inr mem⟩
      · rintro ⟨ne, rfl | mem⟩
        · exact absurd eq.symm ne
        · exact mem
    · rw [List.mem_cons, List.mem_cons, ih sorted]
      constructor
      · rintro (rfl | new | ⟨ne, mem⟩)
        · exact .inr ⟨Ne.symm eq, .inl rfl⟩
        · exact .inl new
        · exact .inr ⟨ne, .inr mem⟩
      · rintro (new | ⟨ne, here | mem⟩)
        · exact .inr (.inl new)
        · exact .inl here
        · exact .inr (.inr ⟨ne, mem⟩)

theorem increasing_putEntry (k : κ) (v : ν) {es : List (κ × ν)} (sorted : Increasing es) :
    Increasing (putEntry k v es) := by
  induction es with
  | nil => exact List.pairwise_singleton _ _
  | cons a es ih =>
    obtain ⟨first, rest⟩ := List.pairwise_cons.mp sorted
    rw [putEntry]
    split_ifs with lt eq
    · refine List.pairwise_cons.mpr ⟨List.forall_mem_cons.mpr ⟨lt, ?_⟩, sorted⟩
      exact fun e mem => lt.trans (first e mem)
    · exact List.pairwise_cons.mpr ⟨fun e mem => eq ▸ first e mem, rest⟩
    · refine List.pairwise_cons.mpr ⟨fun e mem => ?_, ih rest⟩
      rcases (mem_putEntry rest).mp mem with rfl | ⟨_, mem⟩
      · exact lt_of_le_of_ne (not_lt.mp lt) (Ne.symm eq)
      · exact first e mem

structure OrderedMap (κ : Type u) (ν : Type v) [LinearOrder κ] where
  entries : List (κ × ν)
  sorted : Increasing entries

namespace OrderedMap

def empty : OrderedMap κ ν := ⟨[], List.Pairwise.nil⟩

variable (m : OrderedMap κ ν)

def put (k : κ) (v : ν) : OrderedMap κ ν :=
  ⟨putEntry k v m.entries, increasing_putEntry k v m.sorted⟩

def delete (k : κ) : OrderedMap κ ν :=
  ⟨m.entries.filter fun e => e.1 ≠ k, List.Pairwise.sublist List.filter_sublist m.sorted⟩

def get (k : κ) : Option ν := (m.entries.find? fun e => e.1 = k).map Prod.snd

/-- The entries with a key of some kind, in order. -/
def scan (wanted : κ → Bool) : List (κ × ν) := m.entries.filter fun e => wanted e.1

variable {m}

theorem mem_put {k : κ} {v : ν} {e : κ × ν} :
    e ∈ (m.put k v).entries ↔ e = (k, v) ∨ e.1 ≠ k ∧ e ∈ m.entries :=
  mem_putEntry m.sorted

theorem mem_delete {k : κ} {e : κ × ν} : e ∈ (m.delete k).entries ↔ e.1 ≠ k ∧ e ∈ m.entries := by
  rw [delete, List.mem_filter, decide_eq_true_iff, and_comm]

theorem mem_scan {wanted : κ → Bool} {e : κ × ν} :
    e ∈ m.scan wanted ↔ e ∈ m.entries ∧ wanted e.1 = true := List.mem_filter

theorem nodup_entries (m : OrderedMap κ ν) : m.entries.Nodup :=
  m.sorted.imp fun {_ _} lt same => lt.ne (congrArg Prod.fst same)

/-- What a scan returns is known by the entries with such keys. -/
theorem scan_congr {m' : OrderedMap κ ν} {wanted : κ → Bool}
    (same : ∀ e, wanted e.1 = true → (e ∈ m.entries ↔ e ∈ m'.entries)) :
    m.scan wanted = m'.scan wanted := by
  have perm : (m.scan wanted).Perm (m'.scan wanted) := by
    refine (List.perm_ext_iff_of_nodup (m.nodup_entries.filter _) (m'.nodup_entries.filter _)).mpr ?_
    exact fun e => mem_scan.trans ((and_congr_left (same e)).trans mem_scan.symm)
  exact perm.eq_of_pairwise (fun a b _ _ lt gt => absurd (lt.trans gt) (lt_irrefl _))
    (m.sorted.filter _) (m'.sorted.filter _)

theorem mem_of_get {k : κ} {v : ν} (here : m.get k = some v) : (k, v) ∈ m.entries := by
  obtain ⟨e, found, rfl⟩ := Option.map_eq_some_iff.mp here
  have same : e.1 = k := by simpa using List.find?_some found
  exact same ▸ List.mem_of_find?_eq_some found

end OrderedMap

end Ordered
