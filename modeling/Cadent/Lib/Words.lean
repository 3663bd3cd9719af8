import Cadent.Lib.Text
import Mathlib.Data.List.Infix

/-!
# Words

Texts that are put together from parts, and how `Fields`, `Split` and `Contains` find the parts
again. A word has no white space in it. A separator of several characters is found where it was
put, unless the text before it ends in a part of it.
-/

namespace Text

structure IsWord (text : String) : Prop where
  nonempty : text ≠ ""
  solid : ∀ c ∈ text.toList, isSpace c = false

instance (text : String) : Decidable (IsWord text) :=
  -- the characters of the text, where another instance tries all that there are
  letI := List.decidableBAll (fun c => isSpace c = false) text.toList
  decidable_of_iff (text ≠ "" ∧ ∀ c ∈ text.toList, isSpace c = false)
    ⟨fun both => ⟨both.1, both.2⟩, fun word => ⟨word.nonempty, word.solid⟩⟩

theorem isSpace_space : isSpace ' ' = true := by decide

theorem IsWord.space {text : String} (word : IsWord text) : ' ' ∉ text.toList := by
  intro mem
  have solid := word.solid ' ' mem
  rw [isSpace_space] at solid
  cases solid

theorem IsWord.toList_ne {text : String} (word : IsWord text) : text.toList ≠ [] := by
  intro empty
  exact word.nonempty (String.toList_inj.mp empty)

theorem isSpace_of_isDigit {c : Char} (digit : isDigit c = true) : isSpace c = false := by
  have range : 48 ≤ c.toNat ∧ c.toNat ≤ 57 := by
    simpa [isDigit, Char.le_def, UInt32.le_iff_toNat_le] using digit
  simp only [isSpace, List.mem_cons, List.not_mem_nil, or_false, Bool.or_eq_false_iff,
    decide_eq_false_iff_not, Bool.and_eq_false_iff]
  omega

theorem isWord_repr (n : Int) : IsWord n.repr := by
  constructor
  · intro empty
    have list := toList_repr n
    rw [empty] at list
    split_ifs at list
    · cases list
    · exact Nat.toDigits_ne_nil list.symm
  · intro c mem
    rcases mem_repr mem with rfl | digit
    · decide
    · exact isSpace_of_isDigit digit

/-! ### Fields -/

theorem fieldsFrom_append {word rest acc : List Char} (solid : ∀ c ∈ word, isSpace c = false) :
    fieldsFrom acc (word ++ rest) = fieldsFrom (word.reverse ++ acc) rest := by
  induction word generalizing acc with
  | nil => rfl
  | cons c word ih =>
    have own : isSpace c = false := solid c List.mem_cons_self
    rw [List.cons_append, fieldsFrom, own, if_neg Bool.false_ne_true,
      ih fun c' mem => solid c' (List.mem_cons_of_mem _ mem)]
    simp

theorem fields_intercalate {words : List String} (all : ∀ w ∈ words, IsWord w) :
    fields (String.intercalate " " words) = words := by
  have read : ∀ ws : List String, (∀ w ∈ ws, IsWord w) →
      fieldsFrom [] (List.intercalate [' '] (ws.map String.toList)) = ws.map String.toList := by
    intro ws
    induction ws with
    | nil => exact fun _ => rfl
    | cons w ws ih =>
      intro all
      have own := all w List.mem_cons_self
      have reversed : w.toList.reverse ≠ [] := by simpa using own.toList_ne
      cases ws with
      | nil =>
        have single : List.intercalate [' '] ([w].map String.toList) = w.toList ++ [] := by
          simp [List.intercalate]
        rw [single, fieldsFrom_append own.solid, List.append_nil, fieldsFrom, if_neg reversed,
          List.reverse_reverse]
        rfl
      | cons next ws =>
        rw [List.map_cons, List.map_cons, List.intercalate_cons_cons, List.append_assoc,
          fieldsFrom_append own.solid, List.append_nil, List.singleton_append, fieldsFrom,
          isSpace_space, if_pos rfl, if_neg reversed, List.reverse_reverse]
        exact congrArg _ (ih fun w mem => all w (List.mem_cons_of_mem _ mem))
  have same : String.ofList ∘ String.toList = id := funext fun _ => String.ofList_toList
  have space : " ".toList = [' '] := by decide
  rw [fields, String.toList_intercalate, space, read words all, List.map_map, same, List.map_id]

/-! ### Parts of a separator -/

/-- Nothing that a character is missing from goes across that character. -/
theorem not_infix_append_cons {l a b : List Char} {c : Char} (free : c ∉ l) (some : l ≠ [])
    (left : ¬ l <:+: a) (right : ¬ l <:+: b) : ¬ l <:+: a ++ c :: b := by
  have starts : ∀ {k : List Char}, k <+: c :: b → k ≠ [] → c ∈ k := by
    intro k before some
    obtain ⟨x, k, rfl⟩ := List.exists_cons_of_ne_nil some
    obtain ⟨rfl, -⟩ := List.cons_prefix_cons.mp before
    exact List.mem_cons_self
  rw [List.infix_append_iff_ne_nil]
  rintro (inside | inside | ⟨l₁, l₂, -, some', rfl, -, before⟩)
  · exact left inside
  · rcases List.infix_cons_iff.mp inside with before | inside
    · exact free (starts before some)
    · exact right inside
  · exact free (List.mem_append_right _ (starts before some'))

theorem not_infix_of_notMem {l a : List Char} {c : Char} (own : c ∈ l) (free : c ∉ a) :
    ¬ l <:+: a :=
  fun inside => free (inside.subset own)

/-- A separator is not found twice where pieces without it are put together. -/
theorem not_infix_intercalate {sep : String} {c : Char} (one : sep.toList = [c])
    {parts : List String} (some : ∀ part ∈ parts, part ≠ "")
    (clean : ∀ part ∈ parts, c ∉ part.toList) :
    ¬ [c, c] <:+: (String.intercalate sep parts).toList ++ [c] := by
  rw [String.toList_intercalate, one]
  have hone : ¬ [c, c] <:+: [c] := fun inside => absurd inside.length_le (by simp)
  induction parts with
  | nil => exact hone
  | cons part parts ih =>
    obtain ⟨some₁, some⟩ := List.forall_mem_cons.mp some
    obtain ⟨clean₁, clean⟩ := List.forall_mem_cons.mp clean
    have ends : ¬ [c, c] <:+: part.toList ++ [c] := by
      refine not_infix_append (not_infix_of_notMem (by simp) clean₁) hone (.inl ?_)
      intro last
      exact clean₁ (List.mem_of_getLast? last)
    cases parts with
    | nil => simpa [List.intercalate] using ends
    | cons next parts =>
      have hsome : next.toList ≠ [] := by simpa using some next List.mem_cons_self
      obtain ⟨x, xs, cut⟩ := List.exists_cons_of_ne_nil hsome
      have other : x ≠ c := by
        rintro rfl
        exact clean next List.mem_cons_self (by simp [cut])
      rw [List.map_cons, List.map_cons, List.intercalate_cons_cons, List.append_assoc]
      refine not_infix_append ends (ih some clean) (.inr ?_)
      rw [cut]
      cases parts.map String.toList with
      | nil => simpa [List.intercalate] using other
      | cons => simpa [List.intercalate_cons_cons] using other

theorem head?_intercalate {sep : String} {c : Char} (one : sep.toList = [c]) (first : String)
    (rest : List String) :
    (String.intercalate sep (first :: rest)).toList.head? =
      first.toList.head?.or (if rest = [] then none else some c) := by
  cases rest with
  | nil => simp
  | cons second rest =>
    rw [String.intercalate_cons_cons, String.toList_append, String.toList_append, one]
    simp

/-- The separator of clean parts is only followed by what the next part begins with. -/
theorem not_infix_next {sep : String} {c d : Char} (one : sep.toList = [c]) (ne : d ≠ c)
    {first : String} {rest : List String} (clean : ∀ part ∈ first :: rest, c ∉ part.toList)
    (next : ∀ part ∈ rest, part.toList.head? ≠ some d) :
    ¬ [c, d] <:+: (String.intercalate sep (first :: rest)).toList := by
  have absent : ∀ {l : List Char}, c ∉ l → ¬ [c, d] <:+: l :=
    not_infix_of_notMem List.mem_cons_self
  induction rest generalizing first with
  | nil => exact absent (clean first List.mem_cons_self)
  | cons second rest ih =>
    have later := ih (fun part mem => clean part (List.mem_cons_of_mem _ mem))
      fun part mem => next part (List.mem_cons_of_mem _ mem)
    have follows : (String.intercalate sep (second :: rest)).toList.head? ≠ some d := by
      rw [head?_intercalate one]
      have other := next second List.mem_cons_self
      cases head : second.toList.head? with
      | none => split_ifs <;> simp [ne.symm]
      | some x => simpa [head] using other
    have single : ¬ [c, d] <:+: [c] := fun inside => absurd inside.length_le (by simp)
    rw [String.intercalate_cons_cons, String.toList_append, String.toList_append, one,
      List.append_assoc]
    refine not_infix_append (absent (clean first List.mem_cons_self)) ?_ (.inr (by simp [ne.symm]))
    exact not_infix_append single later (.inr follows)

/-- Two spaces are not where words are put together. -/
theorem not_infix_words {words : List String} (all : ∀ w ∈ words, IsWord w) :
    ¬ [' ', ' '] <:+: (String.intercalate " " words).toList ++ [' '] := by
  have space : " ".toList = [' '] := by decide
  exact not_infix_intercalate space (fun w mem => (all w mem).nonempty)
    fun w mem => (all w mem).space

/-! ### Splitting -/

theorem splitFrom_skip (sep acc skipped rest : List Char) :
    splitFrom sep skipped.length acc (skipped ++ rest) = splitFrom sep 0 acc rest := by
  induction skipped with
  | nil => rfl
  | cons c skipped ih => exact ih

/-- A separator that does not begin earlier ends the first piece. -/
theorem split_append {a b sep : String} (some : sep.toList ≠ [])
    (clean : ¬ sep.toList <:+: a.toList ++ sep.toList.dropLast) :
    split (a ++ sep ++ b) sep = a :: split b sep := by
  obtain ⟨c, tail, cut⟩ := List.exists_cons_of_ne_nil some
  have cutAt : ∀ (cs acc : List Char), ¬ sep.toList <:+: cs ++ sep.toList.dropLast →
      splitFrom sep.toList 0 acc (cs ++ sep.toList ++ b.toList) =
        (acc.reverse ++ cs) :: splitFrom sep.toList 0 [] b.toList := by
    intro cs
    induction cs with
    | nil =>
      intro acc _
      have here : sep.toList.isPrefixOf (c :: (tail ++ b.toList)) := by
        rw [List.isPrefixOf_iff_prefix, cut]
        exact List.prefix_append (c :: tail) b.toList
      rw [List.nil_append, List.append_nil]
      nth_rewrite 2 [cut]
      rw [List.cons_append, splitFrom, if_pos here]
      have length : sep.toList.length - 1 = tail.length := by simp [cut]
      rw [length, splitFrom_skip]
    | cons x cs ih =>
      intro acc clean
      have later : ¬ sep.toList <:+: cs ++ sep.toList.dropLast :=
        fun inside => clean (inside.trans (List.suffix_cons x _).isInfix)
      have notHere : ¬ sep.toList.isPrefixOf (x :: (cs ++ sep.toList ++ b.toList)) := by
        rw [List.isPrefixOf_iff_prefix]
        intro before
        refine clean (List.IsPrefix.isInfix (List.prefix_of_prefix_length_le before ?_ ?_))
        · rw [List.cons_append, List.cons_prefix_cons, List.append_assoc,
            List.prefix_append_right_inj]
          exact ⟨rfl, (List.dropLast_prefix _).trans (List.prefix_append _ _)⟩
        · simp only [List.length_cons, List.length_append, List.length_dropLast, cut]
          omega
      rw [List.cons_append, List.cons_append, splitFrom, if_neg notHere, ih _ later]
      simp
  rw [split, split, String.toList_append, String.toList_append, cutAt a.toList [] clean]
  simp

theorem exists_split (text sep : String) : ∃ first rest, split text sep = first :: rest := by
  obtain ⟨q, rest, eq, -⟩ := splitFrom_head sep.toList [] text.toList
  rw [split, eq]
  exact ⟨_, _, rfl⟩

/-! ### Containing a character -/

theorem mem_intercalate {sep : String} {parts : List String} {c : Char}
    (mem : c ∈ (String.intercalate sep parts).toList) :
    c ∈ sep.toList ∨ ∃ part ∈ parts, c ∈ part.toList := by
  rw [String.toList_intercalate] at mem
  induction parts with
  | nil => cases mem
  | cons part parts ih =>
    cases parts with
    | nil => exact .inr ⟨part, by simp, by simpa [List.intercalate] using mem⟩
    | cons next parts =>
      rw [List.map_cons, List.map_cons, List.intercalate_cons_cons, List.mem_append,
        List.mem_append] at mem
      rcases mem with (own | between) | later
      · exact .inr ⟨part, by simp, own⟩
      · exact .inl between
      · exact (ih later).imp_right fun ⟨p, listed, inside⟩ =>
          ⟨p, List.mem_cons_of_mem _ listed, inside⟩

theorem mem_intercalate_of_part {sep : String} {parts : List String} {part : String} {c : Char}
    (listed : part ∈ parts) (inside : c ∈ part.toList) :
    c ∈ (String.intercalate sep parts).toList := by
  rw [String.toList_intercalate]
  induction parts with
  | nil => cases listed
  | cons first parts ih =>
    cases parts with
    | nil =>
      obtain rfl := List.mem_singleton.mp listed
      simpa [List.intercalate] using inside
    | cons next parts =>
      rw [List.map_cons, List.map_cons, List.intercalate_cons_cons, List.mem_append,
        List.mem_append]
      rcases List.mem_cons.mp listed with rfl | later
      · exact .inl (.inl inside)
      · exact .inr (ih later)

theorem mem_of_mem_split {text sep part : String} {s c : Char} (one : sep.toList = [s])
    (listed : part ∈ split text sep) (inside : c ∈ part.toList) : c ∈ text.toList := by
  rw [← intercalate_split one text]
  exact mem_intercalate_of_part listed inside

/-- A character other than what stands between the parts is in one of them. -/
theorem exists_mem_split {text sep : String} {s c : Char} (one : sep.toList = [s]) (other : c ≠ s)
    (inside : c ∈ text.toList) : ∃ part ∈ split text sep, c ∈ part.toList := by
  rw [← intercalate_split one text] at inside
  refine (mem_intercalate inside).resolve_left ?_
  rw [one, List.mem_singleton]
  exact other

theorem mem_intercalate_sep {sep : String} {c : Char} (one : sep.toList = [c]) {parts : List String}
    (two : 2 ≤ parts.length) (clean : ∀ part ∈ parts, c ∉ part.toList) :
    c ∈ (String.intercalate sep parts).toList := by
  have length := length_split one (String.intercalate sep parts)
  rw [split_intercalate one (List.ne_nil_of_length_pos (by omega)) clean] at length
  exact List.count_pos_iff.mp (by omega)

theorem toList_replace_char {old : String} {c : Char} (one : old.toList = [c]) (text new : String) :
    (replace text old new).toList =
      text.toList.flatMap fun x => if x = c then new.toList else [x] := by
  have hfree : ∀ part : String, c ∉ part.toList →
      (part.toList.flatMap fun x => if x = c then new.toList else [x]) = part.toList := by
    intro part free
    conv_rhs => rw [← List.flatMap_singleton' part.toList]
    refine List.flatMap_congr fun x mem => if_neg ?_
    rintro rfl
    exact free mem
  have hparts : ∀ parts : List String, (∀ part ∈ parts, c ∉ part.toList) →
      (String.intercalate new parts).toList = (String.intercalate old parts).toList.flatMap
        fun x => if x = c then new.toList else [x] := by
    intro parts
    induction parts with
    | nil => exact fun _ => rfl
    | cons part parts ih =>
      intro free
      obtain ⟨free₁, free⟩ := List.forall_mem_cons.mp free
      rcases parts with _ | ⟨next, parts⟩
      · rw [String.intercalate_singleton, String.intercalate_singleton, hfree part free₁]
      · rw [String.intercalate_cons_cons, String.intercalate_cons_cons]
        simp only [String.toList_append, List.flatMap_append, ih free, hfree part free₁, one]
        simp
  rw [replace, hparts _ fun part mem => notMem_of_mem_split one mem, intercalate_split one]

end Text
