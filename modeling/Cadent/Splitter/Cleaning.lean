import Cadent.Splitter.MetaTags

/-!
# Cleaning graphite lines

The table of characters to replace is empty when lines come in, so no character is replaced. Of
two dots one is left, and of two equal signs, in one pass each; a pass over three leaves two.
-/

namespace Splitter

open CarbonTwoSplitter (marks unmarked_iff)
open Text

/-- Cleaning again changes nothing where no two dots and no two equal signs stand together. -/
theorem graphiteByteReplace_eq_self_iff {text : String} (trimmed : IsTrimmed text.toList) :
    graphiteByteReplace text = text ↔
      ¬ ['.', '.'] <:+: text.toList ∧ ¬ ['=', '='] <:+: text.toList := by
  rw [← String.toList_inj, toList_graphiteByteReplace, trimSpace_eq_self trimmed,
    ← halve_eq_self_iff, ← halve_eq_self_iff]
  constructor
  · intro same
    have dots : halve '.' text.toList = text.toList := by
      have length := congrArg List.length same
      have first := length_halve_le (c := '.') text.toList
      have second := length_halve_le (c := '=') (halve '.' text.toList)
      exact length_halve_eq_iff.mp (by omega)
    rw [dots] at same
    exact ⟨dots, same⟩
  · rintro ⟨dots, equals⟩
    rw [dots, equals]

/-- What the key and the line of an item should be. -/
structure Cleaned (item : SplitItem) : Prop where
  marks : ∀ c ∈ item.inkey.toList, c ∉ marks
  dots : ¬ ['.', '.'] <:+: item.inkey.toList
  equals : ¬ ['=', '='] <:+: item.inkey.toList
  first : (fields item.inline).head? = some item.inkey
  again : graphiteByteReplace item.inline = item.inline

/-- No character of the first field is to be replaced, and there are nowhere three dots or three
equal signs. -/
structure Cleanable (line : String) : Prop where
  marks : ∀ key ∈ (fields (trimSpace line)).head?, ∀ c ∈ key.toList, c ∉ marks
  dots : ¬ ['.', '.', '.'] <:+: (trimSpace line).toList
  equals : ¬ ['=', '=', '='] <:+: (trimSpace line).toList

variable {g : GraphiteSplitter} {now : Int} {gi item : SplitItem} {line : String}

theorem cleaned_iff_cleanable (index : g.keyIndex = 0)
    (accepted : g.processLine now gi line = .ok item) : Cleaned item ↔ Cleanable line := by
  obtain ⟨inline, first⟩ : item.inline = graphiteByteReplace line ∧
      (fields (graphiteByteReplace line)).head? = some item.inkey := by
    obtain ⟨key, t, found, rfl⟩ := GraphiteSplitter.item_of_ok accepted
    rw [index, ← List.head?_eq_getElem?] at found
    exact ⟨rfl, found⟩
  have trimmed : IsTrimmed (graphiteByteReplace line).toList := by
    rw [toList_graphiteByteReplace]
    exact ((isTrimmed_trimSpace line).halve '.').halve '='
  have again : graphiteByteReplace item.inline = item.inline ↔
      ¬ ['.', '.', '.'] <:+: (trimSpace line).toList ∧
        ¬ ['=', '=', '='] <:+: (trimSpace line).toList := by
    rw [inline, graphiteByteReplace_eq_self_iff trimmed, toList_graphiteByteReplace,
      infix_halve_iff (by simp) (by decide), pair_infix_halve_iff, pair_infix_halve_iff,
      infix_halve_iff (by simp) (by decide)]
  have key : item.inkey.toList = halve '=' (halve '.' (firstWord (trimSpace line).toList)) ∧
      (fields (trimSpace line)).head? = some (.ofList (firstWord (trimSpace line).toList)) := by
    rw [head?_fields, toList_graphiteByteReplace, firstWord_halve (by decide),
      firstWord_halve (by decide)] at first
    split_ifs at first with empty
    obtain own := Option.some.inj first
    rw [head?_fields, if_neg (by simpa using empty), ← own, String.toList_ofList]
    exact ⟨rfl, rfl⟩
  have marked : (∀ c ∈ item.inkey.toList, c ∉ marks) ↔
      ∀ key ∈ (fields (trimSpace line)).head?, ∀ c ∈ key.toList, c ∉ marks := by
    rw [key.2]
    simp [key.1, mem_halve]
  have inside : item.inkey.toList <:+: item.inline.toList := by
    rw [key.1, inline, toList_graphiteByteReplace, ← firstWord_halve (by decide),
      ← firstWord_halve (by decide)]
    exact firstWord_infix _
  constructor
  · intro cleaned
    obtain ⟨dots, equals⟩ := again.mp cleaned.again
    exact ⟨marked.mp cleaned.marks, dots, equals⟩
  · intro cleanable
    have same := again.mpr ⟨cleanable.dots, cleanable.equals⟩
    rw [← inline] at trimmed first
    obtain ⟨dots, equals⟩ := (graphiteByteReplace_eq_self_iff trimmed).mp same
    exact ⟨marked.mpr cleanable.marks, fun inKey => dots (inKey.trans inside),
      fun inKey => equals (inKey.trans inside), first, same⟩

variable (now gi) in
/-- An item of the graphite or the OpenTSDB splitter is clean just when its line had nothing to
replace in its first field, and nowhere three dots or three equal signs. -/
theorem cleaned_iff (failOnBadTime : Bool) (line : String) (item : SplitItem) :
    (GraphiteSplitter.processLine ⟨0, 2, failOnBadTime⟩ now gi line = .ok item →
      (Cleaned item ↔ Cleanable line)) ∧
    (OpenTSDBSplitter.processLine now gi line = .ok item →
      (Cleaned item ↔ Cleanable (.ofList (line.toList.drop 4)))) := by
  constructor
  · exact cleaned_iff_cleanable rfl
  · intro accepted
    rw [OpenTSDBSplitter.processLine] at accepted
    split_ifs at accepted
    exact cleaned_iff_cleanable rfl accepted

theorem cleaned_iff_twice :
    (∃ item, GraphiteSplitter.default.processLine 0 .new " a..b 1" = .ok item ∧ Cleaned item) ∧
      ∃ item, OpenTSDBSplitter.processLine 0 .new "put a==b 1" = .ok item ∧ Cleaned item := by
  constructor
  · refine ⟨⟨"a.b", "a.b 1", zeroTime, .parsed, .other, "", []⟩, by decide +kernel, ?_⟩
    refine ((cleaned_iff 0 .new true " a..b 1" _).1 (by decide +kernel)).mpr
      ⟨fun key first => unmarked_iff.mp ?_, by decide +kernel, by decide +kernel⟩
    revert key
    decide +kernel
  · refine ⟨⟨"a=b", "a=b 1", zeroTime, .parsed, .other, "", []⟩, by decide +kernel, ?_⟩
    refine ((cleaned_iff 0 .new true "put a==b 1" _).2 (by decide +kernel)).mpr
      ⟨fun key first => unmarked_iff.mp ?_, by decide +kernel, by decide +kernel⟩
    revert key
    decide +kernel

/-- A star stays in the key, and of three dots two are left, of which a second cleaning leaves
one. -/
theorem not_cleaned :
    GraphiteSplitter.default.processLine 0 .new "a*...b 1" =
        .ok ⟨"a*..b", "a*..b 1", zeroTime, .parsed, .other, "", []⟩ ∧
      '*' ∈ marks ∧ '*' ∈ "a*..b".toList ∧ ['.', '.'] <:+: "a*..b".toList ∧
      graphiteByteReplace "a*..b 1" = "a*.b 1" := by
  decide +kernel

end Splitter
