import Mathlib.Algebra.Ring.Int.Defs
import Mathlib.Data.String.Basic

/-!
# Text

The parts of the `strings` and `strconv` packages that line formats are parsed with. A text
is looked at as the list of its characters.
-/

namespace Text

/-- White space, as `unicode.IsSpace` has it. -/
def isSpace (c : Char) : Bool :=
  c.toNat ∈ [0x20, 0x09, 0x0A, 0x0B, 0x0C, 0x0D, 0x85, 0xA0, 0x1680, 0x2028, 0x2029, 0x202F,
    0x205F, 0x3000] || (0x2000 ≤ c.toNat && c.toNat ≤ 0x200A)

/-- The fields of a text, of which the characters in `acc` were read last to first. -/
def fieldsFrom (acc : List Char) : List Char → List (List Char)
  | [] => if acc = [] then [] else [acc.reverse]
  | c :: cs =>
    if isSpace c then
      if acc = [] then fieldsFrom [] cs else acc.reverse :: fieldsFrom [] cs
    else fieldsFrom (c :: acc) cs

/-- `strings.Fields` cuts a text around runs of white space. -/
def fields (text : String) : List String := (fieldsFrom [] text.toList).map String.ofList

/-- The pieces of a text around a separator, of which `skip` more characters are to be read. -/
def splitFrom (sep : List Char) (skip : Nat) (acc : List Char) : List Char → List (List Char)
  | [] => [acc.reverse]
  | c :: cs =>
    match skip with
    | skip + 1 => splitFrom sep skip acc cs
    | 0 =>
      if sep.isPrefixOf (c :: cs) then acc.reverse :: splitFrom sep (sep.length - 1) [] cs
      else splitFrom sep 0 (c :: acc) cs

/-- `strings.Split` for a separator that is not empty. -/
def split (text sep : String) : List String :=
  (splitFrom sep.toList 0 [] text.toList).map String.ofList

/-- `strings.Contains`. -/
def contains (text part : String) : Bool := text.toList.tails.any (part.toList.isPrefixOf ·)

/-- `strings.IndexAny` finds one of some characters. -/
def containsAny (text chars : String) : Bool := text.toList.any (chars.toList.contains ·)

/-- `strings.Replace` of every occurrence of a text that is not empty. -/
def replace (text old new : String) : String := String.intercalate new (split text old)

def isDigit (c : Char) : Bool := '0' ≤ c && c ≤ '9'

def digitsValue (cs : List Char) : Nat := cs.foldl (fun n c => 10 * n + (c.toNat - 48)) 0

/-- `strconv.ParseInt` to base 10 and 64 bits; `none` is an error. -/
def parseInt (text : String) : Option Int :=
  let (negative, digits) := match text.toList with
    | '-' :: cs => (true, cs)
    | '+' :: cs => (false, cs)
    | cs => (false, cs)
  if digits = [] ∨ ¬ digits.all isDigit then none
  else
    let value : Int := if negative then -digitsValue digits else digitsValue digits
    if -2 ^ 63 ≤ value ∧ value < 2 ^ 63 then some value else none

theorem splitFrom_head (sep acc cs : List Char) :
    ∃ q rest, splitFrom sep 0 acc cs = (acc.reverse ++ q) :: rest ∧ q <+: cs ∧
      ∀ i < q.length, ¬ sep <+: cs.drop i := by
  induction cs generalizing acc with
  | nil => exact ⟨[], [], by simp [splitFrom], List.nil_prefix, nofun⟩
  | cons c cs ih =>
    rw [splitFrom]
    by_cases here : sep.isPrefixOf (c :: cs)
    · exact ⟨[], _, by rw [if_pos here, List.append_nil], List.nil_prefix, nofun⟩
    · obtain ⟨q, rest, eq, before, none⟩ := ih (c :: acc)
      refine ⟨c :: q, rest, ?_, (List.prefix_cons_inj c).mpr before, ?_⟩
      · rw [if_neg here, eq, List.reverse_cons, List.append_assoc, List.singleton_append]
      · intro i lt
        rcases i with _ | i
        · rw [List.drop_zero, ← List.isPrefixOf_iff_prefix]
          exact here
        · exact none i (by simpa using lt)

theorem not_infix_of_split {text sep first : String} {rest : List String} (some : sep.toList ≠ [])
    (pieces : split text sep = first :: rest) : ¬ sep.toList <:+: first.toList := by
  obtain ⟨q, others, eq, ⟨after, whole⟩, none⟩ := splitFrom_head sep.toList [] text.toList
  rw [split, eq, List.map_cons] at pieces
  obtain ⟨rfl, _⟩ := List.cons.inj pieces
  rw [String.toList_ofList, List.reverse_nil, List.nil_append]
  rintro ⟨before, later, inside⟩
  have pos := List.length_pos_of_ne_nil some
  refine none before.length ?_ ⟨later ++ after, ?_⟩
  · rw [← inside]
    simp only [List.length_append]
    omega
  · rw [← whole, ← inside]
    simp

theorem split_of_not_infix {text sep : String} (clean : ¬ sep.toList <:+: text.toList) :
    split text sep = [text] := by
  have whole : ∀ acc cs : List Char, ¬ sep.toList <:+: cs →
      splitFrom sep.toList 0 acc cs = [acc.reverse ++ cs] := by
    intro acc cs none
    induction cs generalizing acc with
    | nil => simp [splitFrom]
    | cons c cs ih =>
      rw [List.infix_cons_iff, not_or] at none
      rw [splitFrom, if_neg (by simpa [List.isPrefixOf_iff_prefix] using none.1), ih _ none.2,
        List.reverse_cons, List.append_assoc, List.singleton_append]
  rw [split, whole [] _ clean]
  simp

theorem splitFrom_ne_nil (sep : List Char) (skip : Nat) (acc cs : List Char) :
    splitFrom sep skip acc cs ≠ [] := by
  induction cs generalizing skip acc with
  | nil => exact List.cons_ne_nil _ _
  | cons c cs ih =>
    cases skip with
    | succ skip => exact ih skip acc
    | zero =>
      rw [splitFrom]
      split_ifs
      · exact List.cons_ne_nil _ _
      · exact ih 0 (c :: acc)

theorem intercalate_splitFrom {sep : List Char} (some : sep ≠ []) (skip : Nat)
    (acc cs : List Char) :
    sep.intercalate (splitFrom sep skip acc cs) = acc.reverse ++ cs.drop skip := by
  induction cs generalizing skip acc with
  | nil => simp [splitFrom]
  | cons c cs ih =>
    cases skip with
    | succ skip => exact ih skip acc
    | zero =>
      rw [splitFrom]
      split_ifs with here
      · obtain ⟨x, tail, rfl⟩ := List.exists_cons_of_ne_nil some
        obtain ⟨after, whole⟩ := List.isPrefixOf_iff_prefix.mp here
        obtain ⟨rfl, rfl⟩ := List.cons.inj whole
        obtain ⟨first, rest, pieces⟩ := List.exists_cons_of_ne_nil
          (splitFrom_ne_nil (x :: tail) ((x :: tail).length - 1) [] (tail.append after))
        rw [pieces, List.intercalate_cons_cons, ← pieces, ih]
        simp
      · rw [ih]
        simp

theorem intercalate_split_of_ne {sep : String} (some : sep.toList ≠ []) (text : String) :
    String.intercalate sep (split text sep) = text := by
  have same : String.toList ∘ String.ofList = id := funext fun _ => String.toList_ofList
  apply String.toList_inj.mp
  rw [String.toList_intercalate, split, List.map_map, same, List.map_id,
    intercalate_splitFrom some]
  rfl

/-- A separator of two characters is not where two texts meet, unless both have a part in it. -/
theorem not_infix_append {x y : Char} {l r : List Char} (left : ¬ [x, y] <:+: l)
    (right : ¬ [x, y] <:+: r) (apart : l.getLast? ≠ some x ∨ r.head? ≠ some y) :
    ¬ [x, y] <:+: l ++ r := by
  rw [List.infix_append_iff_ne_nil]
  rintro (inside | inside | ⟨l₁, l₂, some, some', both, ⟨before, rfl⟩, ⟨after, rfl⟩⟩)
  · exact left inside
  · exact right inside
  · rcases l₁ with _ | ⟨a, _ | ⟨b, l₁⟩⟩
    · exact some rfl
    · obtain ⟨rfl, rfl⟩ := List.cons.inj both
      rcases apart with last | first
      · exact last (by simp)
      · exact first rfl
    · have none := (List.cons.inj (List.cons.inj both).2).2
      exact some' (List.append_eq_nil_iff.mp none.symm).2

/-! ### Separators of one character -/

section Character

variable {sep : String} {c : Char}

theorem isPrefixOf_singleton (c x : Char) (cs : List Char) :
    [c].isPrefixOf (x :: cs) = (x == c) := by
  simp [List.isPrefixOf, Bool.beq_comm]

theorem splitFrom_char (c : Char) (acc cs : List Char) :
    splitFrom [c] 0 acc cs = List.splitOnPPrepend (· == c) cs acc := by
  induction cs generalizing acc with
  | nil => rfl
  | cons x cs ih =>
    rw [splitFrom, isPrefixOf_singleton, List.splitOnPPrepend_cons_eq_if]
    split_ifs
    · exact congrArg (acc.reverse :: ·) (ih [])
    · exact ih (x :: acc)

theorem split_eq (one : sep.toList = [c]) (text : String) :
    split text sep = (text.toList.splitOn c).map String.ofList := by
  rw [split, one, splitFrom_char]
  rfl

theorem split_ne_nil (one : sep.toList = [c]) (text : String) : split text sep ≠ [] := by
  rw [split_eq one]
  simp

theorem length_splitFrom (c : Char) (acc cs : List Char) :
    (splitFrom [c] 0 acc cs).length = cs.count c + 1 := by
  induction cs generalizing acc with
  | nil => rfl
  | cons x cs ih =>
    rw [splitFrom, isPrefixOf_singleton, List.count_cons]
    split_ifs
    · exact congrArg (· + 1) (ih [])
    · exact ih (x :: acc)

theorem length_split (one : sep.toList = [c]) (text : String) :
    (split text sep).length = text.toList.count c + 1 := by
  rw [split, one, List.length_map, length_splitFrom]

theorem intercalate_split (one : sep.toList = [c]) (text : String) :
    String.intercalate sep (split text sep) = text := by
  apply intercalate_split_of_ne
  rw [one]
  exact List.cons_ne_nil _ _

theorem split_inj (one : sep.toList = [c]) {text text' : String} :
    split text sep = split text' sep ↔ text = text' := by
  constructor
  · intro same
    rw [← intercalate_split one text, same, intercalate_split one]
  · exact fun same => same ▸ rfl

/-- Pieces that do not have the separator in them are found again. -/
theorem split_intercalate (one : sep.toList = [c]) {parts : List String} (some : parts ≠ [])
    (clean : ∀ part ∈ parts, c ∉ part.toList) :
    split (String.intercalate sep parts) sep = parts := by
  rw [split_eq one, String.toList_intercalate, one,
    List.splitOn_intercalate c (by simpa using clean)
    (by simpa using some), List.map_map]
  have same : String.ofList ∘ String.toList = id := funext fun _ => String.ofList_toList
  rw [same, List.map_id]

theorem split_pair (one : sep.toList = [c]) {a b : String} (left : c ∉ a.toList)
    (right : c ∉ b.toList) : split (a ++ sep ++ b) sep = [a, b] := by
  have join : String.intercalate sep [a, b] = a ++ sep ++ b := by
    rw [String.intercalate_cons_cons, String.intercalate_singleton]
  rw [← join]
  exact split_intercalate one (List.cons_ne_nil a [b])
    (List.forall_mem_cons.mpr ⟨left, List.forall_mem_singleton.mpr right⟩)

theorem split_triple (one : sep.toList = [c]) {a b d : String} (first : c ∉ a.toList)
    (second : c ∉ b.toList) (third : c ∉ d.toList) :
    split (a ++ sep ++ b ++ sep ++ d) sep = [a, b, d] := by
  have join : String.intercalate sep [a, b, d] = a ++ sep ++ b ++ sep ++ d := by
    rw [String.intercalate_cons_cons, String.intercalate_cons_cons, String.intercalate_singleton,
      ← String.append_assoc, ← String.append_assoc]
  rw [← join]
  exact split_intercalate one (List.cons_ne_nil a [b, d])
    (List.forall_mem_cons.mpr ⟨first, List.forall_mem_cons.mpr
      ⟨second, List.forall_mem_singleton.mpr third⟩⟩)

theorem infix_of_split (one : sep.toList = [c]) {text first second : String} {rest : List String}
    (pieces : split text sep = first :: second :: rest) :
    first.toList <+: text.toList ∧ c :: second.toList <:+: text.toList := by
  have whole := congrArg String.toList (intercalate_split one text)
  rw [pieces, String.toList_intercalate, one] at whole
  simp only [List.map_cons, List.intercalate_cons_cons] at whole
  rw [← whole]
  refine ⟨⟨_, by rw [List.append_assoc]⟩, first.toList, ?_⟩
  rcases rest with _ | ⟨third, rest⟩
  · exact ⟨[], by simp⟩
  · exact ⟨_, by rw [List.map_cons, List.intercalate_cons_cons]; simp; rfl⟩

theorem notMem_of_mem_splitOnPPrepend {l acc part : List Char} (fresh : c ∉ acc)
    (mem : part ∈ List.splitOnPPrepend (· == c) l acc) : c ∉ part := by
  induction l generalizing acc with
  | nil =>
    rw [List.splitOnPPrepend_nil, List.mem_singleton] at mem
    simpa [mem] using fresh
  | cons x l ih =>
    rw [List.splitOnPPrepend_cons_eq_if] at mem
    split_ifs at mem with same
    · rcases List.mem_cons.mp mem with rfl | later
      · simpa using fresh
      · exact ih List.not_mem_nil later
    · refine ih ?_ mem
      simp only [List.mem_cons, not_or]
      exact ⟨fun eq => same (by simp [eq]), fresh⟩

theorem notMem_of_mem_split (one : sep.toList = [c]) {text part : String}
    (mem : part ∈ split text sep) : c ∉ part.toList := by
  rw [split_eq one] at mem
  obtain ⟨piece, mem', rfl⟩ := List.mem_map.mp mem
  rw [String.toList_ofList]
  exact notMem_of_mem_splitOnPPrepend List.not_mem_nil mem'

/-- Two texts without the separator are found again in their join. -/
theorem append_sep_inj (one : sep.toList = [c]) {a b a' b' : String} (left : c ∉ a.toList)
    (right : c ∉ b.toList) : a ++ sep ++ b = a' ++ sep ++ b' ↔ a = a' ∧ b = b' := by
  constructor
  · intro same
    have lists := congrArg String.toList same
    simp only [String.toList_append, one, List.append_assoc, List.singleton_append] at lists
    rcases List.append_eq_append_iff.mp lists with ⟨mid, before, after⟩ | ⟨mid, before, after⟩
    · rcases mid with _ | ⟨x, mid⟩
      · simp only [List.append_nil, List.nil_append, List.cons.injEq, true_and] at before after
        exact ⟨String.toList_inj.mp before.symm, String.toList_inj.mp after⟩
      · rw [(List.cons.inj after).2] at right
        simp at right
    · rcases mid with _ | ⟨x, mid⟩
      · simp only [List.append_nil, List.nil_append, List.cons.injEq, true_and] at before after
        exact ⟨String.toList_inj.mp before, String.toList_inj.mp after.symm⟩
      · rw [before, (List.cons.inj after).1] at left
        simp at left
  · rintro ⟨rfl, rfl⟩
    rfl

end Character

theorem intercalate_concat (sep : String) {parts : List String} (some : parts ≠ [])
    (last : String) :
    String.intercalate sep (parts ++ [last]) = String.intercalate sep parts ++ sep ++ last := by
  rw [String.intercalate_append_of_ne_nil some (List.cons_ne_nil _ _), String.intercalate_singleton]

theorem intercalate_ne_empty (sep : String) {first : String} (some : first ≠ "")
    (rest : List String) : String.intercalate sep (first :: rest) ≠ "" := by
  intro empty
  have lists := congrArg String.toList empty
  rw [String.toList_intercalate, List.map_cons] at lists
  rcases rest with _ | ⟨second, rest⟩
  · exact some (by simpa using lists)
  · rw [List.map_cons, List.intercalate_cons_cons, List.append_assoc] at lists
    exact some (by simpa using (List.append_eq_nil_iff.mp lists).1)

/-! ### Numbers in decimal -/

theorem digitsValue_toDigits (n : Nat) : digitsValue (Nat.toDigits 10 n) = n := by
  have value := Nat.ofDigitChars_ten_toDigits (n := n)
  rwa [Nat.ofDigitChars_eq_foldl] at value

theorem isDigit_of_mem_toDigits {n : Nat} {c : Char} (mem : c ∈ Nat.toDigits 10 n) :
    isDigit c = true := by
  have digit := Nat.isDigit_of_mem_toDigits (by decide) (by decide) mem
  simpa [isDigit, Char.isDigit, Char.le_def] using digit

theorem notMem_repr {c : Char} (other : isDigit c = false) (n : Nat) : c ∉ n.repr.toList := by
  rw [Nat.toList_repr]
  intro mem
  rw [isDigit_of_mem_toDigits mem] at other
  cases other

theorem toList_repr (n : Int) : n.repr.toList =
    if n < 0 then '-' :: Nat.toDigits 10 n.natAbs else Nat.toDigits 10 n.natAbs := by
  by_cases negative : n < 0
  · have abs : (-n).toNat = n.natAbs := by omega
    simp [Int.repr_eq_if, negative, Int.not_le.mpr negative, abs]
  · have abs : n.toNat = n.natAbs := by omega
    simp [Int.repr_eq_if, negative, Int.not_lt.mp negative, abs]

theorem mem_repr {n : Int} {c : Char} (mem : c ∈ n.repr.toList) : c = '-' ∨ isDigit c = true := by
  rw [toList_repr] at mem
  split_ifs at mem
  · exact (List.mem_cons.mp mem).imp id isDigit_of_mem_toDigits
  · exact .inr (isDigit_of_mem_toDigits mem)

/-- A number of 64 bits is read back from its decimal text. -/
theorem parseInt_repr_eq (n : Int) :
    parseInt n.repr = if -2 ^ 63 ≤ n ∧ n < 2 ^ 63 then some n else none := by
  have digits : (Nat.toDigits 10 n.natAbs).all isDigit = true :=
    List.all_eq_true.mpr fun c mem => isDigit_of_mem_toDigits mem
  have value := digitsValue_toDigits n.natAbs
  rw [parseInt, toList_repr]
  by_cases negative : n < 0
  · have same : -(n.natAbs : Int) = n := by omega
    simp only [if_pos negative, Nat.toDigits_ne_nil, digits, not_true, or_self, if_false, if_true,
      value, same]
  · have same : (n.natAbs : Int) = n := by omega
    rw [if_neg negative]
    split
    rename_i parts
    split at parts
    · rename_i sign
      rw [sign] at digits
      exact absurd (List.all_eq_true.mp digits '-' List.mem_cons_self) (by decide)
    · rename_i sign
      rw [sign] at digits
      exact absurd (List.all_eq_true.mp digits '+' List.mem_cons_self) (by decide)
    · cases parts
      simp only [Nat.toDigits_ne_nil, digits, not_true, or_self, if_false, value, same,
        Bool.false_eq_true]

example : fields " a.b  12\t-5 " = ["a.b", "12", "-5"] := by decide

example : split "a|#b|#" "|#" = ["a", "b", ""] := by decide

example : (parseInt "-12", parseInt "+7", parseInt "9223372036854775808", parseInt "1a") =
    (some (-12), some 7, none, none) := by decide

end Text
