import Cadent.Splitter.Lines

/-!
# Meta tags of Carbon 2.0 lines

The fields between the two spaces and the value are read as tags when there are at least two of
them: a single one is dropped, and one without an equal sign among several is a panic. The key is
cleaned with the rest of the line, and it ends before the first two spaces.
-/

namespace Splitter

open Text

/-! ### Cleaning -/

namespace CarbonTwoSplitter

/-- The characters that an underscore is put for. -/
def marks : List Char := [',', '*', '(', ')', '\x7b', '\x7d']

def under (c : Char) : Char := if c ∈ marks then '_' else c

/-- Nothing in it is replaced. -/
structure Plain (text : String) : Prop where
  dots : ¬ ['.', '.'] <:+: text.toList
  marks : ∀ c ∈ text.toList, c ∉ marks

theorem unmarked_iff {l : List Char} : l.all (!marks.contains ·) = true ↔ ∀ c ∈ l, c ∉ marks := by
  simp

instance (text : String) : Decidable (Plain text) :=
  decidable_of_iff (¬ ['.', '.'] <:+: text.toList ∧ text.toList.all (!marks.contains ·) = true)
    ⟨fun both => ⟨both.1, unmarked_iff.mp both.2⟩,
      fun plain => ⟨plain.dots, unmarked_iff.mpr plain.marks⟩⟩

theorem find_replacer (x : Char) (cs : List Char) :
    carbonTwoReplacer.find? (·.1.isPrefixOf (x :: cs)) =
      if x = '.' ∧ cs.head? = some '.' then some (['.', '.'], ['.'])
      else if x ∈ marks then some ([x], ['_']) else none := by
  by_cases dots : x = '.' ∧ cs.head? = some '.'
  · obtain ⟨rfl, next⟩ := dots
    obtain ⟨rest, rfl⟩ := List.head?_eq_some_iff.mp next
    simp [carbonTwoReplacer, List.isPrefixOf]
  · have notHere : (['.', '.'] : List Char).isPrefixOf (x :: cs) = false := by
      rw [Bool.eq_false_iff, Ne, List.isPrefixOf_iff_prefix, List.cons_prefix_cons,
        singleton_prefix_iff]
      exact fun both => dots ⟨both.1.symm, both.2⟩
    rw [if_neg dots, carbonTwoReplacer, List.find?_cons_of_neg (by simp [notHere])]
    by_cases marked : x ∈ marks
    · rw [if_pos marked]
      simp only [marks, List.mem_cons, List.not_mem_nil, or_false] at marked
      rcases marked with rfl | rfl | rfl | rfl | rfl | rfl <;> rfl
    · rw [if_neg marked]
      simp only [marks, List.mem_cons, List.not_mem_nil, or_false, not_or] at marked
      simp [List.isPrefixOf, Ne.symm marked.1, Ne.symm marked.2.1, Ne.symm marked.2.2.1,
        Ne.symm marked.2.2.2.1, Ne.symm marked.2.2.2.2.1, Ne.symm marked.2.2.2.2.2]

theorem replaceFrom_eq (l : List Char) :
    replaceFrom carbonTwoReplacer 0 l = (halve '.' l).map under := by
  fun_induction halve '.' l with
  | case1 => rfl
  | case2 x =>
    rw [replaceFrom, find_replacer, if_neg (by simp), List.map_singleton, under]
    split_ifs <;> rfl
  | case3 x y cs both ih =>
    obtain ⟨rfl, rfl⟩ := both
    have dots : carbonTwoReplacer.find? (·.1.isPrefixOf ('.' :: '.' :: cs)) =
        some (['.', '.'], ['.']) := by simp [find_replacer]
    have skipped : replaceFrom carbonTwoReplacer (['.', '.'].length - 1) ('.' :: cs) =
        replaceFrom carbonTwoReplacer 0 cs := rfl
    rw [replaceFrom, dots]
    dsimp only
    rw [skipped, ih]
    rfl
  | case4 x y cs apart ih =>
    have other : ¬ (x = '.' ∧ (y :: cs).head? = some '.') := by simpa using apart
    rw [replaceFrom, find_replacer, if_neg other, List.map_cons, ← ih, under]
    split_ifs <;> rfl

theorem toList_clean (text : String) : (clean text).toList = (halve '.' text.toList).map under := by
  rw [clean, String.toList_ofList, replaceFrom_eq]

theorem isSpace_under (c : Char) : isSpace (under c) = isSpace c := by
  rw [under]
  split_ifs with marked
  · simp only [marks, List.mem_cons, List.not_mem_nil, or_false] at marked
    rcases marked with rfl | rfl | rfl | rfl | rfl | rfl <;> decide
  · rfl

theorem under_eq_space_iff (c : Char) : under c = ' ' ↔ c = ' ' := by
  rw [under]
  split_ifs with marked
  · refine iff_of_false (by decide) ?_
    rintro rfl
    exact absurd marked (by decide)
  · rfl

theorem clean_append_space (a b : String) : clean (a ++ " " ++ b) = clean a ++ " " ++ clean b := by
  have space : " ".toList = [' '] := by decide
  apply String.toList_inj.mp
  rw [toList_clean, String.toList_append, String.toList_append, String.toList_append,
    String.toList_append, space, List.append_assoc, List.singleton_append,
    halve_append_cons (by decide), toList_clean, toList_clean]
  simp [under, marks]

/-- The words of a line are cleaned one by one. -/
theorem clean_intercalate (words : List String) :
    clean (String.intercalate " " words) = String.intercalate " " (words.map clean) := by
  induction words with
  | nil => decide
  | cons w words ih =>
    cases words with
    | nil => simp
    | cons next words =>
      rw [String.intercalate_cons_cons, clean_append_space, ih]
      simp only [List.map_cons, String.intercalate_cons_cons]

theorem map_under_eq_self_iff {l : List Char} : l.map under = l ↔ ∀ c ∈ l, c ∉ marks := by
  have own : ∀ c, under c = id c ↔ c ∉ marks := by
    intro c
    rw [under, id]
    split_ifs with marked
    · refine iff_of_false ?_ (not_not.mpr marked)
      rintro rfl
      exact absurd marked (by decide)
    · exact iff_of_true rfl marked
  have same : l.map under = l ↔ l.map under = l.map id := by rw [List.map_id]
  rw [same, List.map_inj_left]
  exact forall₂_congr fun c _ => own c

theorem clean_eq_self_iff {text : String} : clean text = text ↔ Plain text := by
  rw [← String.toList_inj, toList_clean]
  constructor
  · intro same
    have length := congrArg List.length same
    rw [List.length_map, length_halve_eq_iff] at length
    rw [length, map_under_eq_self_iff] at same
    exact ⟨halve_eq_self_iff.mp length, same⟩
  · intro plain
    rw [halve_eq_self_iff.mpr plain.dots, map_under_eq_self_iff.mpr plain.marks]

theorem isWord_clean {word : String} (isWord : IsWord word) : IsWord (clean word) := by
  constructor
  · intro empty
    have list := congrArg String.toList empty
    rw [toList_clean] at list
    exact isWord.toList_ne (by simpa using list)
  · intro c mem
    rw [toList_clean] at mem
    obtain ⟨d, own, rfl⟩ := List.mem_map.mp mem
    rw [isSpace_under]
    exact isWord.solid d (mem_halve.mp own)

/-- Cleaning neither makes nor removes two spaces. -/
theorem spaces_clean_iff {text : String} :
    [' ', ' '] <:+: (clean text).toList ↔ [' ', ' '] <:+: text.toList := by
  rw [toList_clean, List.infix_map_iff]
  constructor
  · rintro ⟨l, inside, same⟩
    obtain ⟨x, y, rfl⟩ : ∃ x y, l = [x, y] := by
      rcases l with _ | ⟨x, _ | ⟨y, _ | ⟨z, l⟩⟩⟩ <;> simp at same
      exact ⟨x, y, rfl⟩
    simp only [List.map_cons, List.cons.injEq, eq_comm (a := ' '), under_eq_space_iff] at same
    rw [same.1, same.2.1] at inside
    exact (infix_halve_iff (by simp) (by decide)).mp inside
  · intro inside
    exact ⟨[' ', ' '], (infix_halve_iff (by simp) (by decide)).mpr inside, by decide⟩

theorem getLast?_clean (text : String) :
    (clean text).toList.getLast? = text.toList.getLast?.map under := by
  rw [toList_clean, List.getLast?_map, getLast?_halve]

/-! ### Lines with two spaces -/

/-- A tag as it is written. -/
def tagText (tag : String × String) : String := tag.1 ++ "=" ++ tag.2

/-- The key, two spaces, and the rest with one space between its parts. -/
def doubled (key : String) (words : List String) : String :=
  key ++ "  " ++ String.intercalate " " words

/-- A name or a value that a tag may have. -/
structure IsTagPart (text : String) : Prop where
  word : IsWord text
  equals : '=' ∉ text.toList
  plain : Plain text

instance (text : String) : Decidable (IsTagPart text) :=
  decidable_of_iff (IsWord text ∧ '=' ∉ text.toList ∧ Plain text)
    ⟨fun all => ⟨all.1, all.2.1, all.2.2⟩, fun part => ⟨part.word, part.equals, part.plain⟩⟩

theorem cut_append {a b : String} (first : ¬ [' ', ' '] <:+: a.toList ++ [' '])
    (last : ¬ [' ', ' '] <:+: b.toList) : cut (a ++ "  " ++ b) = .ok (a, fields b) := by
  have spaces : "  ".toList = [' ', ' '] := by decide
  rw [cut, split_append (by rw [spaces]; simp) (by rw [spaces]; exact first),
    split_of_not_infix (by rw [spaces]; exact last)]

theorem head?_words {words : List String} (all : ∀ w ∈ words, IsWord w) :
    (String.intercalate " " words).toList.head? ≠ some ' ' := by
  cases words with
  | nil => exact nofun
  | cons w words =>
    have own := all w List.mem_cons_self
    obtain ⟨c, cs, cut⟩ := List.exists_cons_of_ne_nil own.toList_ne
    rw [head?_intercalate (c := ' ') (by decide), cut]
    intro same
    obtain rfl : c = ' ' := by simpa using same
    exact own.space (by simp [cut])

/-- What stands before the first two spaces is the key, without its own space at the end. -/
theorem cut_doubled {key : String} {words : List String}
    (single : ¬ [' ', ' '] <:+: key.toList) (all : ∀ w ∈ words, IsWord w) :
    ∃ start, cut (doubled key words) = .ok (start, words) ∧
      if key.toList.getLast? = some ' ' then start.toList ++ [' '] = key.toList
      else start = key := by
  have one : ¬ [' ', ' '] <:+: [' '] := fun inside => absurd inside.length_le (by simp)
  have ends : ∀ {l : List Char}, ¬ [' ', ' '] <:+: l → l.getLast? ≠ some ' ' →
      ¬ [' ', ' '] <:+: l ++ [' '] := fun apart other => not_infix_append apart one (.inl other)
  have rest : ¬ [' ', ' '] <:+: (String.intercalate " " words).toList :=
    fun inside => not_infix_words all (inside.trans (List.prefix_append _ _).isInfix)
  by_cases space : key.toList.getLast? = some ' '
  · obtain ⟨start, cutKey⟩ := List.getLast?_eq_some_iff.mp space
    have moved : doubled key words =
        String.ofList start ++ "  " ++ (" " ++ String.intercalate " " words) := by
      apply String.toList_inj.mp
      simp [doubled, cutKey]
    have before : ¬ [' ', ' '] <:+: start :=
      fun inside => single (cutKey ▸ inside.trans (List.prefix_append _ _).isInfix)
    have other : start.getLast? ≠ some ' ' := by
      intro last
      obtain ⟨start', rfl⟩ := List.getLast?_eq_some_iff.mp last
      exact single ⟨start', [], by simp [cutKey]⟩
    have after : ¬ [' ', ' '] <:+: (" " ++ String.intercalate " " words).toList := by
      rw [String.toList_append]
      exact not_infix_append one rest (.inr (head?_words all))
    refine ⟨.ofList start, ?_, by rw [if_pos space, String.toList_ofList, cutKey]⟩
    rw [moved, cut_append (by rw [String.toList_ofList]; exact ends before other) after]
    have skipped : fields (" " ++ String.intercalate " " words) =
        fields (String.intercalate " " words) := by
      rw [fields, String.toList_append]
      rfl
    rw [skipped, fields_intercalate all]
  · refine ⟨key, ?_, by rw [if_neg space]⟩
    rw [doubled, cut_append (ends single space) rest, fields_intercalate all]

theorem clean_doubled (key : String) (words : List String) :
    clean (doubled key words) = doubled (clean key) (words.map clean) := by
  have spaces : ∀ a b : String, a ++ "  " ++ b = a ++ " " ++ ("" ++ " " ++ b) := by
    intro a b
    simp only [String.append_assoc]
    rfl
  have empty : clean "" = "" := by decide
  rw [doubled, spaces, clean_append_space, clean_append_space, clean_intercalate, empty, ← spaces,
    doubled]

/-! ### Tags -/

theorem readTag_tagText {tag : String × String} (name : '=' ∉ tag.1.toList)
    (value : '=' ∉ tag.2.toList) : readTag (tagText tag) = .ok tag := by
  rw [readTag, tagText, split_pair (by decide) name value]

theorem mapM_readTag {tags : List (String × String)}
    (named : ∀ t ∈ tags, '=' ∉ t.1.toList ∧ '=' ∉ t.2.toList) :
    (tags.map tagText).mapM readTag = .ok tags := by
  induction tags with
  | nil => rfl
  | cons t tags ih =>
    obtain ⟨own, later⟩ := List.forall_mem_cons.mp named
    rw [List.map_cons, List.mapM_cons, readTag_tagText own.1 own.2, ih later]
    rfl

/-- A tag that stands alone is not read. -/
theorem readTags_tagText {tags : List (String × String)}
    (named : ∀ t ∈ tags, '=' ∉ t.1.toList ∧ '=' ∉ t.2.toList) (value time : String) :
    readTags (tags.map tagText ++ [value, time]) = .ok (if tags.length = 1 then [] else tags) := by
  have length : (tags.map tagText ++ [value, time]).length = tags.length + 2 := by simp
  have taken : (tags.map tagText ++ [value, time]).take (tags.length + 2 - 2) =
      tags.map tagText := by simp
  rw [readTags, length, taken, mapM_readTag named]
  rcases tags with _ | ⟨t, _ | ⟨t', tags⟩⟩
  · rfl
  · rfl
  · rw [if_pos (by simp), if_neg (by simp)]

/-- A tag is a panic when it has no equal sign. -/
theorem readTag_eq_ok_iff {val : String} : (∃ tag, readTag val = .ok tag) ↔ '=' ∈ val.toList := by
  have one : "=".toList = ['='] := by decide
  have length := length_split one val
  rw [readTag, ← List.count_pos_iff]
  rcases pieces : split val "=" with _ | ⟨name, _ | ⟨value, rest⟩⟩ <;> rw [pieces] at length
  · simp at length
  · refine iff_of_false nofun ?_
    simp only [List.length_singleton] at length
    omega
  · refine iff_of_true ⟨_, rfl⟩ ?_
    simp only [List.length_cons] at length
    omega

/-! ### Lines -/

/-- After the first two spaces come less than two tags, a number that is not positive at the end, or
an equal sign in each tag. -/
def TagsNamed (inline : String) : Prop :=
  ∀ key second rest, split (clean inline) "  " = key :: second :: rest →
    4 ≤ (fields second).length →
    (∀ i, parseInt ((fields second).getLastD "") = some i → 0 < i) →
    ∀ val ∈ (fields second).take ((fields second).length - 2), '=' ∈ val.toList

/-- The line is accepted with its key and its tags. -/
def Splits (now : Int) (gi : SplitItem) (line key : String) (tags : List (String × String)) :
    Prop :=
  ∃ item, processLine now gi line = .ok item ∧ item.inkey = key ∧ item.tags = tags

theorem readTime_ne_panic (now : Int) (intime : String) : readTime now intime ≠ .error .panic := by
  rw [readTime]
  rcases parseInt intime with _ | i
  · exact nofun
  · dsimp only
    split_ifs <;> exact nofun

theorem readTime_eq_ok_iff (now : Int) (intime : String) :
    (∃ t, readTime now intime = .ok t) ↔ ∀ i, parseInt intime = some i → 0 < i := by
  rw [readTime]
  rcases parseInt intime with _ | i
  · exact iff_of_true ⟨now, rfl⟩ nofun
  · dsimp only
    split_ifs with early
    · exact iff_of_false nofun fun positive => absurd (positive i rfl) (Int.not_lt.mpr early)
    · refine iff_of_true ⟨_, rfl⟩ ?_
      rintro _ ⟨⟩
      exact Int.not_le.mp early

theorem readTag_eq_panic {val : String} {failure : Failure}
    (failed : readTag val = .error failure) :
    failure = .panic := by
  rw [readTag] at failed
  rcases pieces : split val "=" with _ | ⟨name, _ | ⟨value, rest⟩⟩ <;> rw [pieces] at failed
  · exact (Except.error.inj failed).symm
  · exact (Except.error.inj failed).symm
  · cases failed

theorem mapM_eq_panic_iff {vals : List String} :
    vals.mapM readTag = .error .panic ↔ ¬ ∀ val ∈ vals, '=' ∈ val.toList := by
  induction vals with
  | nil => simp [pure, Except.pure]
  | cons val vals ih =>
    rw [List.mapM_cons, List.forall_mem_cons, ← readTag_eq_ok_iff]
    rcases own : readTag val with failure | tag
    · rw [readTag_eq_panic own]
      exact iff_of_true rfl fun both => by simp at both
    · have named : ∃ tag', Except.ok tag = (Except.ok tag' : Except Failure _) := ⟨tag, rfl⟩
      rw [and_iff_right named, ← ih]
      rcases vals.mapM readTag with failure | tags <;> simp [bind, Except.bind, pure, Except.pure]

/-- After the key and the fields are found, the tags are read when the time is. -/
theorem processLine_of_cut {now : Int} {gi : SplitItem} {inline key : String} {vals : List String}
    (found : cut (clean inline) = .ok (key, vals)) (two : 2 ≤ vals.length) {t : Int}
    (time : readTime now (vals.getLastD "") = .ok t) :
    processLine now gi inline = (readTags vals).map fun otags => { gi with
      inkey := key, inline := clean inline, intime := t, tags := otags, inphase := .parsed
      inorigin := .other } := by
  rw [processLine, found]
  simp only [bind, Except.bind, if_neg (Nat.not_lt.mpr two), time]
  rcases readTags vals with failure | tags <;> rfl

theorem processLine_untimed {now : Int} {gi : SplitItem} {inline key : String} {vals : List String}
    (found : cut (clean inline) = .ok (key, vals)) (two : 2 ≤ vals.length) {failure : Failure}
    (time : readTime now (vals.getLastD "") = .error failure) :
    processLine now gi inline ≠ .error .panic := by
  have same : processLine now gi inline = .error failure := by
    rw [processLine, found]
    simp only [bind, Except.bind, if_neg (Nat.not_lt.mpr two), time]
  rw [same]
  rintro ⟨⟩
  exact readTime_ne_panic _ _ time

theorem processLine_of_doubled {now : Int} {gi : SplitItem} {inline key second : String}
    {rest : List String} (pieces : split (clean inline) "  " = key :: second :: rest) :
    processLine now gi inline = .error .panic ↔
      4 ≤ (fields second).length ∧
      (∀ i, parseInt ((fields second).getLastD "") = some i → 0 < i) ∧
      ¬ ∀ val ∈ (fields second).take ((fields second).length - 2), '=' ∈ val.toList := by
  have found : cut (clean inline) = .ok (key, fields second) := by rw [cut, pieces]
  rw [← readTime_eq_ok_iff now]
  by_cases two : 2 ≤ (fields second).length
  · rcases time : readTime now ((fields second).getLastD "") with failure | t
    · exact iff_of_false (processLine_untimed found two time) fun all => by simp at all
    · rw [processLine_of_cut found two time, readTags, ← mapM_eq_panic_iff]
      by_cases four : 4 ≤ (fields second).length
      · rw [if_pos four]
        rcases (List.take _ (fields second)).mapM readTag with failure | tags <;>
          simp [Except.map, four]
      · rw [if_neg four]
        simp [Except.map, four]
  · refine iff_of_false ?_ fun all => by omega
    rw [processLine, found]
    simp only [bind, Except.bind, if_pos (Nat.not_le.mp two)]
    exact nofun

/-- Where there are no two spaces, two fields are left for the value and the time. -/
theorem processLine_of_single {now : Int} {gi : SplitItem} {inline : String}
    (single : ∀ key second rest, split (clean inline) "  " ≠ key :: second :: rest) :
    processLine now gi inline ≠ .error .panic := by
  have found : cut (clean inline) =
      let vs := fields (clean inline)
      if vs.length < 3 then .error (.error "Invalid Carbon2.0 line")
      else .ok (String.intercalate " " (vs.take (vs.length - 2)), vs.drop (vs.length - 2)) := by
    rw [cut]
    rcases pieces : split (clean inline) "  " with _ | ⟨key, _ | ⟨second, rest⟩⟩
    · rfl
    · rfl
    · exact absurd pieces (single key second rest)
  dsimp only at found
  by_cases few : (fields (clean inline)).length < 3
  · rw [processLine, found, if_pos few]
    exact nofun
  · rw [if_neg few] at found
    have two : ((fields (clean inline)).drop ((fields (clean inline)).length - 2)).length = 2 := by
      rw [List.length_drop]
      omega
    rcases time : readTime now
        (((fields (clean inline)).drop ((fields (clean inline)).length - 2)).getLastD "")
      with failure | t
    · exact processLine_untimed found (by rw [two]) time
    · rw [processLine_of_cut found (by rw [two]) time, readTags, two, if_neg (by decide)]
      exact nofun

theorem processLine_eq_panic_iff {now : Int} {gi : SplitItem} {inline : String} :
    processLine now gi inline = .error .panic ↔ ¬ TagsNamed inline := by
  by_cases double : ∃ key second rest, split (clean inline) "  " = key :: second :: rest
  · obtain ⟨key, second, rest, pieces⟩ := double
    rw [processLine_of_doubled pieces, TagsNamed]
    constructor
    · rintro ⟨four, positive, unnamed⟩ named
      exact unnamed (named key second rest pieces four positive)
    · intro unnamed
      by_contra all
      refine unnamed ?_
      intro key' second' rest' pieces' four positive
      obtain ⟨rfl, same⟩ := List.cons.inj (pieces.symm.trans pieces')
      obtain ⟨rfl, rfl⟩ := List.cons.inj same
      by_contra bare
      exact all ⟨four, positive, bare⟩
  · have single : ∀ key second rest, split (clean inline) "  " ≠ key :: second :: rest :=
      fun key second rest pieces => double ⟨key, second, rest, pieces⟩
    refine iff_of_false (processLine_of_single single) (not_not.mpr ?_)
    intro key second rest pieces
    exact absurd pieces (single key second rest)

/-! ### Keys and tags -/

section Tags

variable {key value : String} {tags : List (String × String)} {time : Int}

theorem plain_tagText {tag : String × String} (name : IsTagPart tag.1) (value : IsTagPart tag.2) :
    Plain (tagText tag) := by
  have equals : "=".toList = ['='] := by decide
  constructor
  · rw [tagText, String.toList_append, String.toList_append, equals, List.append_assoc,
      List.singleton_append]
    exact not_infix_append_cons (by decide) (by simp) name.plain.dots value.plain.dots
  · intro c mem
    rw [tagText, String.toList_append, String.toList_append, equals] at mem
    rcases List.mem_append.mp mem with mem | mem
    · rcases List.mem_append.mp mem with mem | mem
      · exact name.plain.marks c mem
      · rw [List.mem_singleton.mp mem]
        decide
    · exact value.plain.marks c mem

theorem isWord_tagText {tag : String × String} (name : IsTagPart tag.1) (value : IsTagPart tag.2) :
    IsWord (tagText tag) := by
  have equals : "=".toList = ['='] := by decide
  have chars : (tagText tag).toList = tag.1.toList ++ ['='] ++ tag.2.toList := by
    rw [tagText, String.toList_append, String.toList_append, equals]
  constructor
  · intro empty
    rw [empty] at chars
    simp at chars
  · intro c mem
    rw [chars, List.mem_append, List.mem_append, List.mem_singleton] at mem
    rcases mem with (mem | rfl) | mem
    · exact name.word.solid c mem
    · decide
    · exact value.word.solid c mem

theorem plain_repr (n : Int) : Plain n.repr := by
  constructor
  · intro inside
    rcases mem_repr (inside.subset List.mem_cons_self) with same | digit
    · exact absurd same (by decide)
    · exact absurd digit (by decide)
  · intro c mem marked
    simp only [marks, List.mem_cons, List.not_mem_nil, or_false] at marked
    rcases mem_repr mem with rfl | digit
    · exact absurd marked (by decide)
    · rcases marked with rfl | rfl | rfl | rfl | rfl | rfl <;> exact absurd digit (by decide)

/-- The words after the key of a line. -/
def tail (tags : List (String × String)) (value : String) (time : Int) : List String :=
  tags.map tagText ++ [value, time.repr]

/-- The key is cleaned and loses a space at its end, and a single tag is lost. -/
theorem processLine_doubled (now : Int) (gi : SplitItem) (single : ¬ [' ', ' '] <:+: key.toList)
    (parts : ∀ t ∈ tags, IsTagPart t.1 ∧ IsTagPart t.2) (word : IsWord value)
    (positive : 0 < time) :
    ∃ item, processLine now gi (doubled key (tail tags value time)) = .ok item ∧
      item.tags = (if tags.length = 1 then [] else tags) ∧
      if key.toList.getLast? = some ' ' then item.inkey.toList ++ [' '] = (clean key).toList
      else item.inkey = clean key := by
  have cleaned : (tail tags value time).map clean =
      tags.map tagText ++ [clean value, time.repr] := by
    have same : ∀ t ∈ tags, (clean ∘ tagText) t = tagText t :=
      fun t mem => clean_eq_self_iff.mpr (plain_tagText (parts t mem).1 (parts t mem).2)
    rw [tail, List.map_append, List.map_map, List.map_congr_left same, List.map_cons,
      List.map_singleton, clean_eq_self_iff.mpr (plain_repr time)]
  have words : ∀ w ∈ tags.map tagText ++ [clean value, time.repr], IsWord w := by
    intro w mem
    rcases List.mem_append.mp mem with mem | mem
    · obtain ⟨t, listed, rfl⟩ := List.mem_map.mp mem
      exact isWord_tagText (parts t listed).1 (parts t listed).2
    · rcases List.mem_pair.mp mem with rfl | rfl
      · exact isWord_clean word
      · exact isWord_repr time
  obtain ⟨start, found, begins⟩ := cut_doubled (spaces_clean_iff.not.mpr single) words
  rw [← cleaned, ← clean_doubled] at found
  rw [cleaned] at found
  have last : (tags.map tagText ++ [clean value, time.repr]).getLastD "" = time.repr := by
    simp [List.getLastD_eq_getLast?]
  obtain ⟨t, read⟩ := (readTime_eq_ok_iff now time.repr).mpr (by
    intro i parsed
    rw [parseInt_repr_eq] at parsed
    split_ifs at parsed
    rwa [← Option.some.inj parsed])
  rw [← last] at read
  have named : ∀ t ∈ tags, '=' ∉ t.1.toList ∧ '=' ∉ t.2.toList :=
    fun t mem => ⟨(parts t mem).1.equals, (parts t mem).2.equals⟩
  refine ⟨{ gi with
    inkey := start, inline := clean (doubled key (tail tags value time)), intime := t
    tags := if tags.length = 1 then [] else tags, inphase := .parsed, inorigin := .other },
    ?_, rfl, ?_⟩
  · rw [processLine_of_cut found (by simp) read, readTags_tagText named]
    rfl
  · have ends : (clean key).toList.getLast? = some ' ' ↔ key.toList.getLast? = some ' ' := by
      rw [getLast?_clean]
      simp [under_eq_space_iff]
    simpa only [ends] using begins

/-- The key is taken as it is, and so are the tags. -/
def Fits (key : String) (tags : List (String × String)) : Prop :=
  Plain key ∧ key.toList.getLast? ≠ some ' ' ∧ tags.length ≠ 1

theorem splits_iff_fits (now : Int) (gi : SplitItem) (single : ¬ [' ', ' '] <:+: key.toList)
    (parts : ∀ t ∈ tags, IsTagPart t.1 ∧ IsTagPart t.2) (word : IsWord value)
    (positive : 0 < time) :
    Splits now gi (doubled key (tail tags value time)) key tags ↔ Fits key tags := by
  obtain ⟨item, processed, kept, begins⟩ := processLine_doubled now gi single parts word positive
  have unique : Splits now gi (doubled key (tail tags value time)) key tags ↔
      item.inkey = key ∧ item.tags = tags := by
    rw [Splits, processed]
    constructor
    · rintro ⟨item', same, own⟩
      exact Except.ok.inj same ▸ own
    · exact fun own => ⟨item, rfl, own⟩
  have tags_iff : item.tags = tags ↔ tags.length ≠ 1 := by
    rw [kept]
    split_ifs with one
    · refine iff_of_false ?_ (not_not.mpr one)
      rintro rfl
      cases one
    · exact iff_of_true rfl one
  rw [unique, tags_iff, Fits, ← and_assoc]
  refine and_congr_left fun _ => ?_
  by_cases space : key.toList.getLast? = some ' '
  · rw [if_pos space] at begins
    refine iff_of_false ?_ fun both => both.2 space
    intro same
    have longer := congrArg List.length begins
    have shorter := length_halve_le (c := '.') key.toList
    rw [toList_clean, List.length_map, same, List.length_append, List.length_singleton] at longer
    omega
  · rw [if_neg space] at begins
    rw [begins, clean_eq_self_iff]
    exact ⟨fun plain => ⟨plain, space⟩, And.left⟩

/-- `ProcessLine` returns just when no tag among several is without an equal sign. A line of a key,
tags, a value and a time is accepted with them just when nothing in the key is replaced, the key
does not end in a space, and there is not just one tag. -/
theorem carbonTwo_iff (now : Int) (gi : SplitItem) :
    (∀ inline, processLine now gi inline ≠ .error .panic ↔ TagsNamed inline) ∧
    ∀ key value tags time, ¬ [' ', ' '] <:+: key.toList →
      (∀ t ∈ tags, IsTagPart t.1 ∧ IsTagPart t.2) → IsWord value → 0 < time →
      (Splits now gi (doubled key (tail tags value time)) key tags ↔ Fits key tags) := by
  constructor
  · intro inline
    rw [Ne, processLine_eq_panic_iff, not_not]
  · intro key value tags time single parts word positive
    exact splits_iff_fits now gi single parts word positive

/-- Two tags, and a line without two spaces. -/
theorem carbonTwo_iff_two :
    Splits 0 .new "host=a  h=x u=B 5 10" "host=a" [("h", "x"), ("u", "B")] ∧
      processLine 0 .new "host=a unit=B 5 10" ≠ .error .panic := by
  constructor
  · exact ((carbonTwo_iff 0 .new).2 "host=a" "5" [("h", "x"), ("u", "B")] 10 (by decide)
      (by decide +kernel) (by decide +kernel) (by decide)).mpr
        ⟨by decide +kernel, by decide, by decide⟩
  · refine ((carbonTwo_iff 0 .new).1 _).mpr ?_
    intro key second rest pieces
    rw [show split (clean "host=a unit=B 5 10") "  " = ["host=a unit=B 5 10"] by decide +kernel]
      at pieces
    cases pieces

/-- Two fields without an equal sign are a panic, and a single tag is dropped. -/
theorem carbonTwo_not_safe :
    processLine 0 .new "host=a  x y 5 10" = .error .panic ∧
    (∀ t ∈ [("h", "x")], IsTagPart t.1 ∧ IsTagPart t.2) ∧
    ¬ Splits 0 .new "host=a  h=x 5 10" "host=a" [("h", "x")] := by
  refine ⟨by decide +kernel, by decide +kernel, ?_⟩
  rintro ⟨item, processed, -, tags⟩
  have dropped : (processLine 0 .new "host=a  h=x 5 10").toOption.map (·.tags) = some [] := by
    decide +kernel
  rw [processed] at dropped
  simp [Except.toOption, tags] at dropped

end Tags

end CarbonTwoSplitter

end Splitter
