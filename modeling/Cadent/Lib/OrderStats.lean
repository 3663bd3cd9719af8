import Mathlib.Algebra.BigOperators.Group.List.Basic
import Mathlib.Algebra.Field.Defs
import Mathlib.Data.List.Sort

/-!
# Order statistics

What is read off a list of values once it is in order: the `k` smallest and the `k` largest of
them, the median, and the sums of the first few.
-/

namespace OrderStats

universe u

variable {α : Type u}

section Order

variable [LinearOrder α]

def sorted (l : List α) : List α := l.insertionSort (· ≤ ·)

@[simp] theorem length_sorted (l : List α) : (sorted l).length = l.length :=
  List.length_insertionSort _ l

theorem sorted_perm (l : List α) : (sorted l).Perm l := List.perm_insertionSort _ l

theorem pairwise_sorted (l : List α) : (sorted l).Pairwise (· ≤ ·) :=
  List.pairwise_insertionSort _ l

theorem sorted_congr {l l' : List α} (perm : l.Perm l') : sorted l = sorted l' := by
  have both : (sorted l).Perm (sorted l') :=
      ((sorted_perm l).trans perm).trans (sorted_perm l').symm
  exact both.eq_of_pairwise' (pairwise_sorted l) (pairwise_sorted l')

theorem sorted_eq_cons {l : List α} {m : α} (mem : m ∈ l) (le : ∀ v ∈ l, m ≤ v) :
    ∃ rest, sorted l = m :: rest := by
  rcases split : sorted l with _ | ⟨first, rest⟩
  · exact absurd ((sorted_perm l).mem_iff.mpr mem) (by simp [split])
  · have inside : m ∈ first :: rest := split ▸ (sorted_perm l).mem_iff.mpr mem
    have first_mem : first ∈ l := (sorted_perm l).mem_iff.mp (split ▸ List.mem_cons_self)
    have ordered : (first :: rest).Pairwise (· ≤ ·) := split ▸ pairwise_sorted l
    have first_le : first ≤ m := by
      rcases List.mem_cons.mp inside with rfl | later
      · exact le_rfl
      · exact (List.pairwise_cons.mp ordered).1 m later
    exact ⟨rest, by rw [le_antisymm first_le (le first first_mem)]⟩

def smallest (k : Nat) (l : List α) : List α := (sorted l).take k

def largest (k : Nat) (l : List α) : List α := (sorted l).drop (l.length - k)

end Order

/-- The middle value, or the mean of the two in the middle; 0 for no values. -/
def median [LinearOrder α] [Field α] (l : List α) : α :=
  if l.length % 2 = 1 then (sorted l).getD (l.length / 2) 0
  else ((sorted l).getD (l.length / 2 - 1) 0 + (sorted l).getD (l.length / 2) 0) / 2

/-! ### Sums on the way -/

/-- A first sum, and after each further value the sum so far. -/
def running [Add α] (first : α) : List α → List α
  | [] => [first]
  | v :: rest => first :: running (v + first) rest

@[simp] theorem length_running [Add α] (first : α) (rest : List α) :
    (running first rest).length = rest.length + 1 := by
  induction rest generalizing first with
  | nil => rfl
  | cons v rest ih => simp [running, ih]

/-- Up to a place, the sum is that of the values up to there, with what was added to the first. -/
theorem getElem?_running [AddCommMonoid α] (first : α) (rest : List α) {i : Nat}
    (le : i ≤ rest.length) : (running first rest)[i]? = some (first + (rest.take i).sum) := by
  induction rest generalizing first i with
  | nil =>
    obtain rfl : i = 0 := Nat.le_zero.mp le
    simp [running]
  | cons v rest ih =>
    cases i with
    | zero => simp [running]
    | succ i =>
      have later := ih (v + first) (Nat.le_of_succ_le_succ le)
      rw [running, List.getElem?_cons_succ, later, List.take_succ_cons, List.sum_cons]
      congr 1
      rw [add_comm v first, add_assoc]

end OrderStats
