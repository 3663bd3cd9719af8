import Mathlib.Data.List.Perm.Basic
import Mathlib.Order.Lattice

/-!
# Reducing a list

The result of an operation over all elements of a list that is not empty; `List.min?` and
`List.max?` are the two that matter. For a commutative operation the order is irrelevant.
-/

namespace Reduce

universe u v

variable {α : Type u} {f : α → α → α}

def reduce? (f : α → α → α) : List α → Option α
  | [] => none
  | a :: l => some (l.foldl f a)

theorem reduce?_concat {l : List α} {m : α} (value : reduce? f l = some m) (a : α) :
    reduce? f (l ++ [a]) = some (f m a) := by
  rcases l with _ | ⟨b, l⟩
  · cases value
  · rw [List.cons_append, reduce?, List.foldl_append]
    exact congrArg (fun m => some (f m a)) (Option.some.inj value)

theorem reduce?_cons (assoc : Std.Associative f) (a : α) (l : List α) :
    reduce? f (a :: l) = (some a).merge f (reduce? f l) := by
  rcases l with _ | ⟨b, l⟩
  · rfl
  · exact congrArg some List.foldl_assoc

theorem reduce?_append (assoc : Std.Associative f) {l l' : List α} {a b : α}
    (left : reduce? f l = some a) (right : reduce? f l' = some b) :
    reduce? f (l ++ l') = some (f a b) := by
  rcases l with _ | ⟨x, l⟩
  · cases left
  rcases l' with _ | ⟨y, l'⟩
  · cases right
  obtain rfl := Option.some.inj left
  obtain rfl := Option.some.inj right
  rw [List.cons_append, reduce?, List.foldl_append, List.foldl_cons, List.foldl_assoc]

/-- Over the values that are there, one value more is one merge more. -/
theorem reduce?_filterMap_cons {β : Type v} (assoc : Std.Associative f) (g : β → Option α) (b : β)
    (l : List β) :
    reduce? f ((b :: l).filterMap g) = (g b).merge f (reduce? f (l.filterMap g)) := by
  cases value : g b with
  | none => simp [value]
  | some a => rw [List.filterMap_cons_some value, reduce?_cons assoc]

theorem reduce?_perm (comm : Std.Commutative f) (assoc : Std.Associative f) {l l' : List α}
    (perm : l.Perm l') : reduce? f l = reduce? f l' := by
  have swaps : RightCommutative f :=
    ⟨fun a b c => by rw [assoc.assoc, comm.comm b c, ← assoc.assoc]⟩
  induction perm with
  | nil => rfl
  | cons a perm _ => exact congrArg some (perm.foldl_eq a)
  | swap a b l =>
    rw [reduce?, reduce?, List.foldl_cons, List.foldl_cons, comm.comm b a]
  | trans _ _ ih ih' => exact ih.trans ih'

section Extrema

variable [LinearOrder α] {l l' : List α}

omit [LinearOrder α] in
theorem min?_eq_reduce? [Min α] (l : List α) : l.min? = reduce? min l := by
  rcases l with _ | ⟨a, l⟩ <;> rfl

omit [LinearOrder α] in
theorem max?_eq_reduce? [Max α] (l : List α) : l.max? = reduce? max l := by
  rcases l with _ | ⟨a, l⟩ <;> rfl

theorem min?_concat {m : α} (value : l.min? = some m) (a : α) :
    (l ++ [a]).min? = some (min m a) := by
  rw [min?_eq_reduce?] at value ⊢
  exact reduce?_concat value a

theorem max?_concat {m : α} (value : l.max? = some m) (a : α) :
    (l ++ [a]).max? = some (max m a) := by
  rw [max?_eq_reduce?] at value ⊢
  exact reduce?_concat value a

theorem min?_append {a b : α} (left : l.min? = some a) (right : l'.min? = some b) :
    (l ++ l').min? = some (min a b) := by
  rw [min?_eq_reduce?] at left right ⊢
  exact reduce?_append inferInstance left right

theorem max?_append {a b : α} (left : l.max? = some a) (right : l'.max? = some b) :
    (l ++ l').max? = some (max a b) := by
  rw [max?_eq_reduce?] at left right ⊢
  exact reduce?_append inferInstance left right

theorem min?_perm (perm : l.Perm l') : l.min? = l'.min? := by
  rw [min?_eq_reduce?, min?_eq_reduce?]
  exact reduce?_perm inferInstance inferInstance perm

theorem max?_perm (perm : l.Perm l') : l.max? = l'.max? := by
  rw [max?_eq_reduce?, max?_eq_reduce?]
  exact reduce?_perm inferInstance inferInstance perm

end Extrema

end Reduce
