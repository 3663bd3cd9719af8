import Cadent.Lib.Text
import Cadent.Schemas.StatRepr

/-!
# Lists of tags

Tags are read from texts of a name, a separator and a value, and those that are part of a
metric's identity are kept apart from the rest. A tag is a value here; the lists below are
built anew from tags that nothing else points to.
-/

namespace Repr

open Text

def Tag.join (t : Tag) (sep : String) : String := t.name ++ sep ++ t.value

/-- The tag of one text, with the first of the separators that is in it. -/
def tagFromText (text : String) : Option Tag :=
  let parts := [split text "=", split text "_is_", split text ":"]
  match parts.find? fun spls => 2 ≤ spls.length with
  | some (name :: value :: _) => some ⟨name, value⟩
  | _ => none

def sortingTagsFromArray (keys : List String) : List Tag := keys.filterMap tagFromText

def sortingTagsFromString (key : String) : List Tag :=
  if contains key "," then sortingTagsFromArray (split key ",")
  else if contains key "." then sortingTagsFromArray (split key ".")
  else sortingTagsFromArray (split key " ")

def toStringSep (tags : List Tag) (wordsep tagsep : String) : String :=
  String.intercalate tagsep (tags.map (·.join wordsep))

/-- Adds a tag, or gives the first one of that name another value. -/
def setTag : List Tag → String → String → List Tag
  | [], name, val => [⟨name, val⟩]
  | tag :: tags, name, val =>
    if tag.name = name then ⟨name, val⟩ :: tags else tag :: setTag tags name val

def metrics2IdTags : List String :=
  ["host", "http_method", "http_code", "device", "unit", "what", "type", "result", "stat",
    "bin_max", "direction", "mtype", "unit", "file", "line", "env", "dc", "zone"]

def isMetric2Tag (name : String) : Bool := name ∈ metrics2IdTags

/-- One tag is put with the tags or with the meta tags. -/
def placeTag (lists : List Tag × List Tag) (tag : Tag) : List Tag × List Tag :=
  if isMetric2Tag tag.name then (setTag lists.1 tag.name tag.value, lists.2)
  else (lists.1, setTag lists.2 tag.name tag.value)

/-- The tags of both lists that are part of the identity, and those that are not. -/
def splitIntoMetric2Tags (intag inmeta : List Tag) : List Tag × List Tag :=
  if inmeta = [] ∧ intag = [] then (intag, inmeta)
  else intag.foldl placeTag (inmeta.foldl placeTag ([], []))

/-! ### What is told apart -/

theorem nodup_setTag {tags : List Tag} (nodup : (tags.map (·.name)).Nodup) (name val : String) :
    ((setTag tags name val).map (·.name)).Nodup ∧
      ∀ n ∈ (setTag tags name val).map (·.name), n = name ∨ n ∈ tags.map (·.name) := by
  induction tags with
  | nil => simp [setTag]
  | cons tag tags ih =>
    rw [List.map_cons, List.nodup_cons] at nodup
    rw [setTag]
    split_ifs with same
    · refine ⟨?_, ?_⟩
      · rw [List.map_cons, List.nodup_cons]
        exact same ▸ nodup
      · intro n mem
        rcases List.mem_cons.mp mem with rfl | mem
        · exact .inl rfl
        · exact .inr (List.mem_cons_of_mem _ mem)
    · obtain ⟨rest, names⟩ := ih nodup.2
      refine ⟨?_, ?_⟩
      · rw [List.map_cons, List.nodup_cons]
        refine ⟨fun mem => ?_, rest⟩
        exact (names _ mem).elim same nodup.1
      · intro n mem
        rcases List.mem_cons.mp mem with rfl | mem
        · exact .inr List.mem_cons_self
        · exact (names n mem).imp_right (List.mem_cons_of_mem _)

theorem setTag_of_notMem {tags : List Tag} {name : String} (fresh : name ∉ tags.map (·.name))
    (val : String) : setTag tags name val = tags ++ [⟨name, val⟩] := by
  induction tags with
  | nil => rfl
  | cons tag tags ih =>
    rw [List.map_cons, List.mem_cons, not_or] at fresh
    rw [setTag, if_neg (Ne.symm fresh.1), ih fresh.2]
    rfl

/-- Tags of different names are kept in the order in which they are set. -/
theorem foldl_setTag {set tags : List Tag} (nodup : ((set ++ tags).map (·.name)).Nodup) :
    tags.foldl (fun set tag => setTag set tag.name tag.value) set = set ++ tags := by
  induction tags generalizing set with
  | nil => exact (List.append_nil set).symm
  | cons tag tags ih =>
    have fresh : tag.name ∉ set.map (·.name) := by
      rw [List.map_append, List.map_cons] at nodup
      intro mem
      exact (List.nodup_append.mp nodup).2.2 _ mem _ List.mem_cons_self rfl
    rw [List.foldl_cons, setTag_of_notMem fresh, ih (by rwa [List.append_assoc]),
      List.append_assoc]
    rfl

theorem nodup_splitIntoMetric2Tags (tags : List Tag) :
    ((splitIntoMetric2Tags [] tags).1.map (·.name)).Nodup := by
  have placed : ∀ (tags : List Tag) (lists : List Tag × List Tag),
      (lists.1.map (·.name)).Nodup → ((tags.foldl placeTag lists).1.map (·.name)).Nodup := by
    intro tags
    induction tags with
    | nil => exact fun _ nodup => nodup
    | cons tag tags ih =>
      intro lists nodup
      refine ih _ ?_
      rw [placeTag]
      split_ifs
      · exact (nodup_setTag nodup tag.name tag.value).1
      · exact nodup
  rw [splitIntoMetric2Tags]
  split_ifs
  · exact List.nodup_nil
  · exact placed tags ([], []) List.nodup_nil

example : splitIntoMetric2Tags [] (sortingTagsFromArray ["host=a", "x:y=z", "unit_is_B", "nil"]) =
    ([⟨"host", "a"⟩, ⟨"unit", "B"⟩], [⟨"x:y", "z"⟩]) := by decide

/-- The names and values of tags, one after another. -/
def words (tags : List Tag) : List String := tags.flatMap fun t => [t.name, t.value]

theorem words_injective : Function.Injective words := by
  intro tags tags' same
  induction tags generalizing tags' with
  | nil =>
    cases tags' with
    | nil => rfl
    | cons => cases same
  | cons tag tags ih =>
    cases tags' with
    | nil => cases same
    | cons tag' tags' =>
      obtain ⟨⟨n, v⟩, ⟨n', v'⟩⟩ := tag, tag'
      simp only [words, List.flatMap_cons, List.cons_append, List.nil_append,
        List.cons.injEq] at same
      obtain ⟨rfl, rfl, rest⟩ := same
      rw [ih rest]

theorem toStringSep_eq (tags : List Tag) (sep : String) :
    toStringSep tags sep sep = String.intercalate sep (words tags) := by
  apply String.toList_inj.mp
  rw [toStringSep, String.toList_intercalate, String.toList_intercalate]
  induction tags with
  | nil => rfl
  | cons tag tags ih =>
    cases tags with
    | nil => simp [words, Tag.join, List.intercalate]
    | cons next tags =>
      simp only [words, Tag.join, List.map_cons, List.flatMap_cons, List.cons_append,
        List.nil_append, List.intercalate_cons_cons, String.toList_append,
          List.append_assoc] at ih ⊢
      rw [ih]

/-- Tags without separators are found again in their text. -/
theorem toStringSep_inj {tags tags' : List Tag} {sep : String} {c : Char} (one : sep.toList = [c])
    (clean : ∀ t ∈ tags, c ∉ t.name.toList ∧ c ∉ t.value.toList)
    (clean' : ∀ t ∈ tags', c ∉ t.name.toList ∧ c ∉ t.value.toList)
    (same : toStringSep tags sep sep = toStringSep tags' sep sep) : tags = tags' := by
  have free : ∀ {tags : List Tag}, (∀ t ∈ tags, c ∉ t.name.toList ∧ c ∉ t.value.toList) →
      ∀ word ∈ words tags, c ∉ word.toList := by
    intro tags clean word mem
    obtain ⟨t, listed, own⟩ := List.mem_flatMap.mp mem
    rcases List.mem_pair.mp own with rfl | rfl
    · exact (clean t listed).1
    · exact (clean t listed).2
  -- the text of no tags is one piece, and that of some is two or more
  have pieces : ∀ {tags : List Tag}, (∀ t ∈ tags, c ∉ t.name.toList ∧ c ∉ t.value.toList) →
      split (toStringSep tags sep sep) sep = if tags = [] then [""] else words tags := by
    intro tags clean
    split_ifs with none
    · rw [none, split_eq one]
      rfl
    · rw [toStringSep_eq]
      refine split_intercalate one ?_ (free clean)
      intro empty
      exact none (words_injective empty)
  have long : ∀ {tags : List Tag}, words tags ≠ [""] := by
    intro tags
    rcases tags with _ | ⟨t, tags⟩ <;> simp [words]
  have same' := congrArg (split · sep) same
  rw [pieces clean, pieces clean'] at same'
  split_ifs at same' with none none' none'
  · rw [none, none']
  · exact absurd same'.symm long
  · exact absurd same' long
  · exact words_injective same'

/-! ### Tags in order -/

/-- `sort.Sort` puts tags in the order of their names. -/
def SortsTags (env : Naming) : Prop :=
  ∀ l, (env.sortTags l).Pairwise fun s t => s.name ≤ t.name

/-- Tags with names of their own have one order. -/
theorem eq_of_same_tags {tags tags' : List Tag} (sorted : tags.Pairwise fun s t => s.name ≤ t.name)
    (sorted' : tags'.Pairwise fun s t => s.name ≤ t.name) (nodup : (tags.map (·.name)).Nodup)
    (nodup' : (tags'.map (·.name)).Nodup) (same : ∀ t, t ∈ tags ↔ t ∈ tags') : tags = tags' := by
  have perm : tags.Perm tags' := (List.perm_ext_iff_of_nodup nodup.of_map nodup'.of_map).mpr same
  refine perm.eq_of_pairwise ?_ sorted sorted'
  intro s t mem mem' le le'
  exact List.inj_on_of_nodup_map nodup mem ((same t).mpr mem') (le_antisymm le le')

/-- A naming that sorts tags. -/
def sortedNaming : Naming where
  hashIt _ text := BitVec.ofNat 64 text.length
  sortTags l := l.insertionSort fun s t => s.name ≤ t.name
  sortTags_perm l := List.perm_insertionSort _ l

theorem sortsTags_sortedNaming : SortsTags sortedNaming := by
  intro l
  have total : Std.Total fun s t : Tag => s.name ≤ t.name := ⟨fun _ _ => le_total _ _⟩
  have trans : IsTrans Tag fun s t => s.name ≤ t.name := ⟨fun _ _ _ => le_trans⟩
  exact List.pairwise_insertionSort _ l

end Repr
