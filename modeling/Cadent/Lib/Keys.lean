import Mathlib
import Cadent.Lib.Text

/-!
# Composed keys

A key of a text, a dash and a number can be taken apart again: the digits have no dash in
them, so the last one is the separator or the sign. Only a text that ends in a dash can be
mistaken for one with a negative number after it.
-/

namespace Keys

/-- Two lists that agree are cut alike at the last occurrence of a separator. -/
theorem cut_at_last {α : Type*} {sep : α} {x x' d d' : List α} (clean : sep ∉ d)
    (clean' : sep ∉ d') (same : x ++ sep :: d = x' ++ sep :: d') : x = x' ∧ d = d' := by
  rcases List.append_eq_append_iff.mp same with ⟨more, left, right⟩ | ⟨more, left, right⟩
  · rcases more with _ | ⟨a, more⟩
    · simp_all
    · rw [List.cons_append, List.cons.injEq] at right
      rw [right.2] at clean
      simp at clean
  · rcases more with _ | ⟨a, more⟩
    · simp_all
    · rw [List.cons_append, List.cons.injEq] at right
      rw [right.2] at clean'
      simp at clean'

/-- Two lists that agree are cut alike at the first occurrence of a separator of two. -/
theorem cut_at_first {α : Type*} {a b : α} (ne : a ≠ b) {x x' d d' : List α}
    (clean : ¬ [a, b] <:+: x) (clean' : ¬ [a, b] <:+: x')
    (same : x ++ a :: b :: d = x' ++ a :: b :: d') : x = x' ∧ d = d' := by
  have inside : ∀ {x m d d' : List α}, ¬ [a, b] <:+: x ++ m → a :: b :: d = m ++ a :: b :: d' →
      m = [] := by
    intro x m d d' clean same
    rcases m with _ | ⟨y, _ | ⟨z, m⟩⟩
    · rfl
    · exact absurd (List.cons.inj (List.cons.inj same).2).1.symm ne
    · obtain ⟨rfl, later⟩ := List.cons.inj same
      obtain ⟨rfl, _⟩ := List.cons.inj later
      exact absurd ⟨x, m, by simp⟩ clean
  rcases List.append_eq_append_iff.mp same with ⟨m, rfl, right⟩ | ⟨m, rfl, right⟩
  · obtain rfl := inside clean' right
    simp_all
  · obtain rfl := inside clean right
    simp_all

def EndsInDash (text : String) : Prop := text.toList.getLast? = some '-'

instance (text : String) : Decidable (EndsInDash text) :=
  inferInstanceAs (Decidable (text.toList.getLast? = some '-'))

/-- A text, a dash and a number. -/
def dashed (text : String) (n : Int) : String := text ++ "-" ++ n.repr

/-- The last dash of a composed key is the sign of a negative number. -/
theorem toList_dashed (text : String) (n : Int) :
    (dashed text n).toList =
      (text.toList ++ if n < 0 then ['-'] else []) ++ '-' :: n.natAbs.repr.toList := by
  rw [dashed, String.toList_append, String.toList_append, Text.toList_repr, Nat.toList_repr]
  by_cases negative : n < 0 <;> simp [negative]

/-- Composed keys are equal when their parts are, or when one text has the other one's sign. -/
theorem dashed_eq_iff {text text' : String} {n m : Int} :
    dashed text n = dashed text' m ↔ (text = text' ∧ n = m) ∨
      (m < 0 ∧ n = -m ∧ text = text' ++ "-") ∨ (n < 0 ∧ m = -n ∧ text' = text ++ "-") := by
  rw [← String.toList_inj, toList_dashed, toList_dashed]
  have dash : "-".toList = ['-'] := by decide
  have dash_notMem := Text.notMem_repr (show Text.isDigit '-' = false by decide)
  constructor
  · intro chars
    obtain ⟨texts, digits⟩ := cut_at_last (dash_notMem _) (dash_notMem _) chars
    have abs : n.natAbs = m.natAbs := Nat.repr_injective (String.toList_inj.mp digits)
    by_cases neg : n < 0
    · by_cases neg' : m < 0
      · rw [if_pos neg, if_pos neg', List.append_cancel_right_eq] at texts
        exact .inl ⟨String.toList_inj.mp texts, by omega⟩
      · rw [if_pos neg, if_neg neg', List.append_nil] at texts
        refine .inr (.inr ⟨neg, by omega, String.toList_inj.mp ?_⟩)
        rw [String.toList_append, dash, texts]
    · by_cases neg' : m < 0
      · rw [if_neg neg, if_pos neg', List.append_nil] at texts
        refine .inr (.inl ⟨neg', by omega, String.toList_inj.mp ?_⟩)
        rw [String.toList_append, dash, texts]
      · rw [if_neg neg, if_neg neg', List.append_nil, List.append_nil] at texts
        exact .inl ⟨String.toList_inj.mp texts, by omega⟩
  · rintro (⟨rfl, rfl⟩ | ⟨neg, rfl, rfl⟩ | ⟨neg, rfl, rfl⟩)
    · rfl
    · rw [if_neg (by omega), if_pos neg, String.toList_append, dash, Int.natAbs_neg,
        List.append_nil]
    · rw [if_pos neg, if_neg (by omega), String.toList_append, dash, Int.natAbs_neg,
        List.append_nil]

theorem endsInDash_append (text : String) : EndsInDash (text ++ "-") := by
  have dash : "-".toList = ['-'] := by decide
  rw [EndsInDash, String.toList_append, dash, List.getLast?_concat]

theorem dashed_inj {text text' : String} {n m : Int} (clean : m < 0 → ¬ EndsInDash text)
    (clean' : n < 0 → ¬ EndsInDash text') (same : dashed text n = dashed text' m) :
    text = text' ∧ n = m := by
  rcases dashed_eq_iff.mp same with parts | ⟨neg, _, rfl⟩ | ⟨neg, _, rfl⟩
  · exact parts
  · exact absurd (endsInDash_append text') (clean neg)
  · exact absurd (endsInDash_append text) (clean' neg)

end Keys
