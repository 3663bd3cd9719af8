import Cadent.Lib.Words
import Mathlib.Data.List.DropRight

/-!
# Replacing in one pass

Texts are replaced from left to right, and what was put in is not looked at again. So one pass
that makes one of every two equal characters leaves two of them where there were three.
-/

namespace Text

/-- `strings.Replacer`: at each place the first text of the table that is found there. -/
def replaceFrom (table : List (List Char × List Char)) (skip : Nat) : List Char → List Char
  | [] => []
  | c :: cs =>
    match skip with
    | skip + 1 => replaceFrom table skip cs
    | 0 =>
      match table.find? (·.1.isPrefixOf (c :: cs)) with
      | some (old, new) => new ++ replaceFrom table (old.length - 1) cs
      | none => c :: replaceFrom table 0 cs

def trimSpace (text : String) : String :=
  .ofList ((text.toList.dropWhile isSpace).rdropWhile isSpace)

/-- One of every two equal characters, in one pass. -/
def halve (c : Char) : List Char → List Char
  | [] => []
  | [x] => [x]
  | x :: y :: cs => if x = c ∧ y = c then c :: halve c cs else x :: halve c (y :: cs)

section Halve

variable {c : Char}

theorem intercalate_splitFrom_pair (c : Char) (acc cs : List Char) :
    [c].intercalate (splitFrom [c, c] 0 acc cs) = acc.reverse ++ halve c cs := by
  induction cs using halve.induct c generalizing acc with
  | case1 => simp [splitFrom, halve]
  | case2 x => simp [splitFrom, halve, List.isPrefixOf]
  | case3 x y cs both ih =>
    obtain ⟨rfl, rfl⟩ := both
    obtain ⟨first, rest, pieces⟩ :=
      List.exists_cons_of_ne_nil (splitFrom_ne_nil [y, y] 0 [] cs)
    have here : [y, y].isPrefixOf (y :: y :: cs) := by simp [List.isPrefixOf]
    have skipped : splitFrom [y, y] ([y, y].length - 1) [] (y :: cs) =
      splitFrom [y, y] 0 [] cs := rfl
    rw [splitFrom, if_pos here, skipped, pieces, List.intercalate_cons_cons, ← pieces, ih, halve,
      if_pos ⟨rfl, rfl⟩]
    simp
  | case4 x y cs other ih =>
    have notHere : ¬ [c, c].isPrefixOf (x :: y :: cs) := by
      simp only [List.isPrefixOf, Bool.and_true, Bool.and_eq_true, beq_iff_eq]
      exact fun same => other ⟨same.1.symm, same.2.symm⟩
    rw [splitFrom, if_neg notHere, ih, halve, if_neg other]
    simp

theorem toList_replace_pair {old new : String} (two : old.toList = [c, c]) (one : new.toList = [c])
    (text : String) : (replace text old new).toList = halve c text.toList := by
  have same : String.toList ∘ String.ofList = id := funext fun _ => String.toList_ofList
  rw [replace, split, two, String.toList_intercalate, one, List.map_map, same, List.map_id,
    intercalate_splitFrom_pair]
  rfl

theorem mem_halve {x : Char} {l : List Char} : x ∈ halve c l ↔ x ∈ l := by
  fun_induction halve c l with
  | case1 => rfl
  | case2 => rfl
  | case3 y z cs both ih =>
    obtain ⟨rfl, rfl⟩ := both
    simp [ih]
  | case4 y z cs other ih => rw [List.mem_cons, ih, ← List.mem_cons]

@[simp] theorem halve_eq_nil {l : List Char} : halve c l = [] ↔ l = [] := by
  fun_induction halve c l <;> simp

@[simp] theorem head?_halve (l : List Char) : (halve c l).head? = l.head? := by
  fun_induction halve c l with
  | case1 => rfl
  | case2 => rfl
  | case3 x y cs both => exact congrArg some both.1.symm
  | case4 => rfl

@[simp] theorem getLast?_halve (l : List Char) : (halve c l).getLast? = l.getLast? := by
  fun_induction halve c l with
  | case1 => rfl
  | case2 => rfl
  | case3 x y cs both ih =>
    obtain ⟨rfl, rfl⟩ := both
    rw [List.getLast?_cons, List.getLast?_cons, List.getLast?_cons, ih]
    cases cs.getLast? <;> rfl
  | case4 x y cs other ih =>
    rw [List.getLast?_cons, ih, List.getLast?_cons (a := x)]

theorem length_halve_le (l : List Char) : (halve c l).length ≤ l.length := by
  fun_induction halve c l with
  | case1 | case2 => exact Nat.le_refl _
  | case3 x y cs both ih =>
    simp only [List.length_cons]
    omega
  | case4 x y cs other ih =>
    simp only [List.length_cons] at ih ⊢
    omega

/-- A pass stops at every other character. -/
theorem halve_append_cons {d : Char} (other : d ≠ c) (a b : List Char) :
    halve c (a ++ d :: b) = halve c a ++ d :: halve c b := by
  have first : ∀ l, halve c (d :: l) = d :: halve c l := by
    intro l
    cases l with
    | nil => rfl
    | cons x l => rw [halve, if_neg fun both => other both.1]
  fun_induction halve c a with
  | case1 => exact first b
  | case2 x =>
    rw [List.cons_append, List.nil_append, halve, if_neg fun both => other both.2, first]
    rfl
  | case3 x y cs both ih =>
    rw [List.cons_append, List.cons_append, halve, if_pos both, ih]
    rfl
  | case4 x y cs apart ih =>
    rw [List.cons_append, List.cons_append, halve, if_neg apart, ← List.cons_append, ih]
    rfl

/-- A pass finds nothing to do where no two stand together. -/
theorem halve_eq_self_iff {l : List Char} : halve c l = l ↔ ¬ [c, c] <:+: l := by
  fun_induction halve c l with
  | case1 => simp
  | case2 x => exact iff_of_true rfl fun inside => absurd inside.length_le (by simp)
  | case3 x y cs both ih =>
    obtain ⟨rfl, rfl⟩ := both
    refine iff_of_false ?_ (not_not.mpr (List.prefix_append [y, y] cs).isInfix)
    intro same
    have length := congrArg List.length same
    have shorter := length_halve_le (c := y) cs
    simp only [List.length_cons] at length
    omega
  | case4 x y cs apart ih =>
    have notHere : ¬ [c, c] <+: x :: y :: cs := by
      rintro ⟨rest, same⟩
      obtain ⟨rfl, rfl, -⟩ : c = x ∧ c = y ∧ rest = cs := by simpa using same
      exact apart ⟨rfl, rfl⟩
    rw [List.infix_cons_iff, or_iff_right notHere, ← ih, List.cons.injEq]
    simp

theorem length_halve_eq_iff {l : List Char} : (halve c l).length = l.length ↔ halve c l = l := by
  refine ⟨?_, congrArg List.length⟩
  fun_induction halve c l with
  | case1 | case2 => exact fun _ => rfl
  | case3 x y cs both ih =>
    have shorter := length_halve_le (c := c) cs
    simp only [List.length_cons]
    omega
  | case4 x y cs apart ih =>
    intro same
    rw [ih (Nat.succ.inj same)]

theorem singleton_prefix_iff {l : List Char} : [c] <+: l ↔ l.head? = some c := by
  cases l <;> simp [List.cons_prefix_cons, eq_comm]

/-- Two that stand together after a pass were three or more. -/
theorem pair_infix_halve_iff {l : List Char} : [c, c] <:+: halve c l ↔ [c, c, c] <:+: l := by
  fun_induction halve c l with
  | case1 => simp
  | case2 x =>
    exact iff_of_false (fun inside => absurd inside.length_le (by simp))
      fun inside => absurd inside.length_le (by simp)
  | case3 x y cs both ih =>
    obtain ⟨rfl, rfl⟩ := both
    rw [List.infix_cons_iff, List.infix_cons_iff, List.infix_cons_iff, ih]
    simp only [List.cons_prefix_cons, true_and, singleton_prefix_iff, head?_halve]
    constructor
    · rintro (next | inside)
      · exact .inl next
      · exact .inr (.inr inside)
    · rintro (next | next | inside)
      · exact .inl next
      · exact .inl (singleton_prefix_iff.mp (List.IsPrefix.trans ⟨[y], rfl⟩ next))
      · exact .inr inside
  | case4 x y cs apart ih =>
    rw [List.infix_cons_iff, ih, List.infix_cons_iff (a := x)]
    simp only [List.cons_prefix_cons, singleton_prefix_iff, head?_halve, List.head?_cons,
      Option.some.injEq]
    constructor
    · rintro (⟨rfl, rfl⟩ | inside)
      · exact absurd ⟨rfl, rfl⟩ apart
      · exact .inr inside
    · rintro (⟨rfl, rfl, -⟩ | inside)
      · exact absurd ⟨rfl, rfl⟩ apart
      · exact .inr inside

/-- Texts without the character are found as before. -/
theorem prefix_halve_iff {p l : List Char} (free : c ∉ p) : p <+: halve c l ↔ p <+: l := by
  fun_induction halve c l generalizing p with
  | case1 => rfl
  | case2 => rfl
  | case3 x y cs both ih =>
    obtain ⟨rfl, rfl⟩ := both
    cases p with
    | nil => simp
    | cons d p =>
      have other : d ≠ y := fun same => free (by simp [same])
      simp [List.cons_prefix_cons, other]
  | case4 x y cs apart ih =>
    cases p with
    | nil => simp
    | cons d p =>
      rw [List.cons_prefix_cons, List.cons_prefix_cons,
        ih fun mem => free (List.mem_cons_of_mem _ mem)]

theorem infix_cons_iff_of_notMem {p l : List Char} (some : p ≠ []) (free : c ∉ p) :
    p <:+: c :: l ↔ p <:+: l := by
  rw [List.infix_cons_iff, or_iff_right]
  intro before
  obtain ⟨d, p, rfl⟩ := List.exists_cons_of_ne_nil some
  obtain ⟨rfl, -⟩ := List.cons_prefix_cons.mp before
  exact free List.mem_cons_self

theorem infix_halve_iff {p l : List Char} (some : p ≠ []) (free : c ∉ p) :
    p <:+: halve c l ↔ p <:+: l := by
  fun_induction halve c l with
  | case1 => rfl
  | case2 => rfl
  | case3 x y cs both ih =>
    obtain ⟨rfl, rfl⟩ := both
    simp only [infix_cons_iff_of_notMem some free, ih]
  | case4 x y cs apart ih =>
    have same : p <+: x :: halve c (y :: cs) ↔ p <+: x :: y :: cs := by
      have whole := prefix_halve_iff (l := x :: y :: cs) free
      rwa [halve, if_neg apart] at whole
    rw [List.infix_cons_iff, same, ih, ← List.infix_cons_iff]

theorem dropWhile_halve {p : Char → Bool} (solid : p c = false) (l : List Char) :
    (halve c l).dropWhile p = halve c (l.dropWhile p) := by
  fun_induction halve c l with
  | case1 => rfl
  | case2 x => cases own : p x <;> simp [own, halve]
  | case3 x y cs both ih =>
    obtain ⟨rfl, rfl⟩ := both
    simp [solid, halve]
  | case4 x y cs apart ih =>
    cases own : p x with
    | true => rw [List.dropWhile_cons_of_pos own, List.dropWhile_cons_of_pos own, ih]
    | false => simp [own, halve, apart]

theorem takeWhile_halve {p : Char → Bool} (solid : p c = true) (l : List Char) :
    (halve c l).takeWhile p = halve c (l.takeWhile p) := by
  fun_induction halve c l with
  | case1 => rfl
  | case2 x => cases own : p x <;> simp [own, halve]
  | case3 x y cs both ih =>
    obtain ⟨rfl, rfl⟩ := both
    simp [solid, halve, ih]
  | case4 x y cs apart ih =>
    cases own : p x with
    | false => simp [own, halve]
    | true =>
      rw [List.takeWhile_cons_of_pos own, List.takeWhile_cons_of_pos own, ih]
      cases next : p y with
      | false => simp [next, halve]
      | true => rw [List.takeWhile_cons_of_pos next, halve, if_neg apart]

end Halve

/-! ### The first field -/

/-- What stands between the first white space and the next. -/
def firstWord (l : List Char) : List Char := (l.dropWhile isSpace).takeWhile (!isSpace ·)

theorem fieldsFrom_of_ne {acc : List Char} (some : acc ≠ []) (l : List Char) :
    fieldsFrom acc l = (acc.reverse ++ l.takeWhile (!isSpace ·)) ::
      fieldsFrom [] (l.dropWhile (!isSpace ·)) := by
  induction l generalizing acc with
  | nil => simp [fieldsFrom, some]
  | cons c l ih =>
    cases space : isSpace c with
    | true => simp [fieldsFrom, space, some]
    | false =>
      rw [fieldsFrom, space, if_neg Bool.false_ne_true, ih (List.cons_ne_nil _ _)]
      simp [space]

theorem head?_fieldsFrom (l : List Char) :
    (fieldsFrom [] l).head? = if firstWord l = [] then none else some (firstWord l) := by
  rw [firstWord]
  induction l with
  | nil => rfl
  | cons c l ih =>
    cases space : isSpace c with
    | true => simpa [fieldsFrom, space] using ih
    | false =>
      rw [fieldsFrom, space, if_neg Bool.false_ne_true, fieldsFrom_of_ne (List.cons_ne_nil _ _)]
      simp [space]

theorem firstWord_halve {c : Char} (solid : isSpace c = false) (l : List Char) :
    firstWord (halve c l) = halve c (firstWord l) := by
  rw [firstWord, dropWhile_halve solid, takeWhile_halve (by simp [solid]), ← firstWord]

theorem head?_fields (text : String) :
    (fields text).head? =
      if firstWord text.toList = [] then none else some (.ofList (firstWord text.toList)) := by
  rw [fields, List.head?_map, head?_fieldsFrom]
  split_ifs <;> rfl

/-! ### Trimming -/

theorem dropWhile_eq_self {p : Char → Bool} {l : List Char}
    (first : ∀ c ∈ l.head?, p c = false) : l.dropWhile p = l := by
  cases l with
  | nil => rfl
  | cons c l => exact List.dropWhile_cons_of_neg (by simp [first c rfl])

/-- Neither end of a text is white space. -/
structure IsTrimmed (l : List Char) : Prop where
  first : ∀ c ∈ l.head?, isSpace c = false
  last : ∀ c ∈ l.getLast?, isSpace c = false

theorem isTrimmed_trimSpace (text : String) : IsTrimmed (trimSpace text).toList := by
  rw [trimSpace, String.toList_ofList]
  constructor
  · intro c first
    obtain ⟨rest, same⟩ := List.head?_eq_some_iff.mp first
    obtain ⟨dropped, whole⟩ := List.rdropWhile_prefix isSpace (text.toList.dropWhile isSpace)
    have start := List.head?_dropWhile_not isSpace text.toList
    rwa [← whole, same] at start
  · intro c last
    obtain ⟨some, rfl⟩ := List.mem_getLast?_eq_getLast last
    exact Bool.eq_false_iff.mpr (List.rdropWhile_last_not _ _ some)

theorem trimSpace_eq_self {text : String} (trimmed : IsTrimmed text.toList) :
    trimSpace text = text := by
  apply String.toList_inj.mp
  rw [trimSpace, String.toList_ofList, dropWhile_eq_self trimmed.first, List.rdropWhile,
    dropWhile_eq_self (by simpa using trimmed.last), List.reverse_reverse]

/-- White space around a text that has none at its ends is what is trimmed. -/
theorem trimSpace_spaced {before text after : List Char} (some : text ≠ [])
    (trimmed : IsTrimmed text) (spaceBefore : ∀ c ∈ before, isSpace c = true)
    (spaceAfter : ∀ c ∈ after, isSpace c = true) :
    trimSpace (.ofList (before ++ text ++ after)) = .ofList text := by
  have front : (before ++ text ++ after).dropWhile isSpace = text ++ after := by
    rw [List.append_assoc, List.dropWhile_append_of_pos spaceBefore]
    refine dropWhile_eq_self fun c first => trimmed.first c ?_
    rwa [List.head?_append_of_ne_nil _ some] at first
  have back : (text ++ after).rdropWhile isSpace = text := by
    rw [List.rdropWhile, List.reverse_append,
      List.dropWhile_append_of_pos (by simpa using spaceAfter),
      dropWhile_eq_self (by simpa using trimmed.last), List.reverse_reverse]
  rw [trimSpace, String.toList_ofList, front, back]

theorem IsTrimmed.halve {l : List Char} (trimmed : IsTrimmed l) (c : Char) :
    IsTrimmed (halve c l) :=
  ⟨by simpa using trimmed.first, by simpa using trimmed.last⟩

theorem firstWord_infix (l : List Char) : firstWord l <:+: l :=
  (List.takeWhile_prefix _).isInfix.trans (List.dropWhile_suffix _).isInfix

end Text
