import Cadent.Schemas.Tags

/-!
# Merging lists of tags

The merges are methods on a pointer to a list. Some of them change the list behind it, some
return another one that the caller has to store; `SetTags` only returns. `StatName` merges
through two different helpers, by its tag mode. A tag is a value here: nothing else in this
module points to the tags of a name.
-/

namespace Repr

namespace SortingTags

/-- What the receiver is afterwards, and what is returned. -/
def setTags (s tgs : List Tag) : List Tag × List Tag := (s, tgs)

/-- The loop of `Merge` and `MergeList`. -/
def mergeEach (s tags : List Tag) : List Tag :=
  tags.foldl (fun s tag => setTag s tag.name tag.value) s

/-- What the receiver is afterwards, and what is returned. -/
def merge (s tags : List Tag) : List Tag × List Tag :=
  if tags = [] then (s, s)
  else if s = [] then (s, tags)
  else (mergeEach s tags, mergeEach s tags)

/-- `MergeList` returns its receiver. -/
def mergeList (s tags : List Tag) : List Tag :=
  if tags = [] then s
  else if s = [] then (setTags s tags).1
  else mergeEach s tags

end SortingTags

open SortingTags

def mergeTagLists (ina inb : List Tag) : List Tag :=
  if ina = [] ∧ inb = [] then ina
  else if ina = [] then inb
  else if inb = [] then ina
  else
    let tgs := (setTags [] ina).1
    mergeList tgs inb

def mergeMetric2Tags (newtags intag inmeta : List Tag) : List Tag × List Tag :=
  if newtags = [] then (intag, inmeta) else newtags.foldl placeTag (intag, inmeta)

/-- A nil list changes nothing. What `SplitIntoMetric2Tags` makes of the lists is dropped. -/
def StatName.mergeMetric2Tags (s : StatName) (itgs : Option (List Tag)) : StatName :=
  match itgs with
  | none => s
  | some itgs =>
    let s :=
      match s.tagMode with
      | .all => { s with tags := (merge s.tags itgs).1, metaTags := [] }
      | .metrics2 =>
        let lists := Repr.mergeMetric2Tags itgs s.tags s.metaTags
        { s with tags := lists.1, metaTags := lists.2 }
    { s with xxxUniqueId := 0#64, xxxUniqueIdstr := "" }

/-! ### Setting tags one after another -/

def tagNames (tags : List Tag) : List String := tags.map (·.name)

theorem mem_setTag_self (tags : List Tag) (name val : String) :
    ⟨name, val⟩ ∈ setTag tags name val := by
  induction tags with
  | nil => exact List.mem_singleton_self _
  | cons tag tags ih =>
    rw [setTag]
    split_ifs
    · exact List.mem_cons_self
    · exact List.mem_cons_of_mem _ ih

theorem mem_setTag_of_ne {tags : List Tag} {t : Tag} {name : String} (mem : t ∈ tags)
    (other : t.name ≠ name) (val : String) : t ∈ setTag tags name val := by
  induction tags with
  | nil => cases mem
  | cons tag tags ih =>
    rw [setTag]
    rcases List.mem_cons.mp mem with rfl | mem
    · rw [if_neg other]
      exact List.mem_cons_self
    · split_ifs
      · exact List.mem_cons_of_mem _ mem
      · exact List.mem_cons_of_mem _ (ih mem)

theorem mem_of_mem_setTag {tags : List Tag} {name val : String} {t : Tag}
    (mem : t ∈ setTag tags name val) : t = ⟨name, val⟩ ∨ t ∈ tags := by
  induction tags with
  | nil => exact .inl (List.mem_singleton.mp mem)
  | cons tag tags ih =>
    rw [setTag] at mem
    split_ifs at mem with same
    · exact (List.mem_cons.mp mem).imp_right (List.mem_cons_of_mem _)
    · rcases List.mem_cons.mp mem with rfl | later
      · exact .inr List.mem_cons_self
      · exact (ih later).imp_right (List.mem_cons_of_mem _)

theorem notMem_tagNames_cons {name : String} {tag : Tag} {tags : List Tag}
    (other : name ∉ tagNames (tag :: tags)) : name ≠ tag.name ∧ name ∉ tagNames tags := by
  rw [tagNames, List.map_cons, List.mem_cons, not_or] at other
  exact other

theorem mem_mergeEach_of_notMem {tags s : List Tag} {t : Tag} (mem : t ∈ s)
    (other : t.name ∉ tagNames tags) : t ∈ mergeEach s tags := by
  induction tags generalizing s with
  | nil => exact mem
  | cons tag tags ih =>
    obtain ⟨ne, rest⟩ := notMem_tagNames_cons other
    exact ih (mem_setTag_of_ne mem ne tag.value) rest

theorem mem_mergeEach {tags : List Tag} (distinct : (tagNames tags).Nodup) (s : List Tag) {t : Tag}
    (mem : t ∈ tags) : t ∈ mergeEach s tags := by
  induction tags generalizing s with
  | nil => cases mem
  | cons tag tags ih =>
    obtain ⟨new, rest⟩ := List.nodup_cons.mp distinct
    rcases List.mem_cons.mp mem with rfl | mem
    · exact mem_mergeEach_of_notMem (s := setTag s t.name t.value) (mem_setTag_self _ _ _) new
    · exact ih rest _ mem

theorem mem_of_mem_mergeEach {tags s : List Tag} {t : Tag} (mem : t ∈ mergeEach s tags) :
    t ∈ tags ∨ t ∈ s := by
  induction tags generalizing s with
  | nil => exact .inr mem
  | cons tag tags ih =>
    rcases ih mem with later | set
    · exact .inl (List.mem_cons_of_mem _ later)
    · exact (mem_of_mem_setTag set).imp_left fun own => List.mem_cons.mpr (.inl own)

theorem nodup_mergeEach (tags : List Tag) {s : List Tag} (nodup : (tagNames s).Nodup) :
    (tagNames (mergeEach s tags)).Nodup := by
  induction tags generalizing s with
  | nil => exact nodup
  | cons tag tags ih => exact ih (nodup_setTag nodup tag.name tag.value).1

/-! ### Placing tags -/

/-- The list that a tag of this name is placed in. -/
def listOf (lists : List Tag × List Tag) (name : String) : List Tag :=
  if isMetric2Tag name then lists.1 else lists.2

/-- Each list has names of its own kind only, and none twice. -/
structure Parted (lists : List Tag × List Tag) : Prop where
  own : ∀ t ∈ lists.1, isMetric2Tag t.name = true
  others : ∀ t ∈ lists.2, isMetric2Tag t.name = false
  nodup : (tagNames lists.1 ++ tagNames lists.2).Nodup

theorem mem_placeTag_self (lists : List Tag × List Tag) (tag : Tag) :
    tag ∈ listOf (placeTag lists tag) tag.name := by
  unfold listOf placeTag
  split_ifs <;> exact mem_setTag_self _ _ _

theorem mem_placeTag_of_ne {lists : List Tag × List Tag} {tag t : Tag} (ne : t.name ≠ tag.name) :
    (t ∈ lists.1 → t ∈ (placeTag lists tag).1) ∧ (t ∈ lists.2 → t ∈ (placeTag lists tag).2) := by
  unfold placeTag
  split_ifs
  · exact ⟨fun mem => mem_setTag_of_ne mem ne _, id⟩
  · exact ⟨id, fun mem => mem_setTag_of_ne mem ne _⟩

theorem mem_placeTags_of_notMem {tags : List Tag} {lists : List Tag × List Tag} {t : Tag}
    (other : t.name ∉ tagNames tags) :
    (t ∈ lists.1 → t ∈ (tags.foldl placeTag lists).1) ∧
      (t ∈ lists.2 → t ∈ (tags.foldl placeTag lists).2) := by
  induction tags generalizing lists with
  | nil => exact ⟨id, id⟩
  | cons tag tags ih =>
    obtain ⟨ne, rest⟩ := notMem_tagNames_cons other
    exact ⟨fun mem => (ih rest).1 ((mem_placeTag_of_ne ne).1 mem),
      fun mem => (ih rest).2 ((mem_placeTag_of_ne ne).2 mem)⟩

theorem mem_placeTags {tags : List Tag} (distinct : (tagNames tags).Nodup)
    (lists : List Tag × List Tag) {t : Tag} (mem : t ∈ tags) :
    t ∈ listOf (tags.foldl placeTag lists) t.name := by
  induction tags generalizing lists with
  | nil => cases mem
  | cons tag tags ih =>
    obtain ⟨new, rest⟩ := List.nodup_cons.mp distinct
    rcases List.mem_cons.mp mem with rfl | mem
    · have hplaced := mem_placeTag_self lists t
      unfold listOf at hplaced ⊢
      split_ifs at hplaced ⊢
      · exact (mem_placeTags_of_notMem new).1 hplaced
      · exact (mem_placeTags_of_notMem new).2 hplaced
    · exact ih rest _ mem

theorem parted_placeTag {lists : List Tag × List Tag} (parted : Parted lists) (tag : Tag) :
    Parted (placeTag lists tag) := by
  obtain ⟨own, others, nodup⟩ := parted
  obtain ⟨first, second, -⟩ := List.nodup_append.mp nodup
  have hapart : ∀ {as bs : List Tag}, (∀ t ∈ as, isMetric2Tag t.name = true) →
      (∀ t ∈ bs, isMetric2Tag t.name = false) → (tagNames as).Nodup → (tagNames bs).Nodup →
      (tagNames as ++ tagNames bs).Nodup := by
    intro as bs all none nodupA nodupB
    refine List.nodup_append.mpr ⟨nodupA, nodupB, ?_⟩
    rintro _ memA _ memB rfl
    obtain ⟨a, inA, same⟩ := List.mem_map.mp memA
    obtain ⟨b, inB, rfl⟩ := List.mem_map.mp memB
    have hboth := all a inA
    rw [same, none b inB] at hboth
    cases hboth
  unfold placeTag
  split_ifs with id
  · have hown : ∀ t ∈ setTag lists.1 tag.name tag.value, isMetric2Tag t.name = true := by
      intro t mem
      rcases mem_of_mem_setTag mem with rfl | old
      · exact id
      · exact own t old
    exact ⟨hown, others, hapart hown others (nodup_setTag first _ _).1 second⟩
  · have hothers : ∀ t ∈ setTag lists.2 tag.name tag.value, isMetric2Tag t.name = false := by
      intro t mem
      rcases mem_of_mem_setTag mem with rfl | old
      · exact Bool.not_eq_true _ ▸ id
      · exact others t old
    exact ⟨own, hothers, hapart own hothers first (nodup_setTag second _ _).1⟩

theorem parted_placeTags (tags : List Tag) {lists : List Tag × List Tag} (parted : Parted lists) :
    Parted (tags.foldl placeTag lists) := by
  induction tags generalizing lists with
  | nil => exact parted
  | cons tag tags ih => exact ih (parted_placeTag parted tag)

/-! ### Merging into a name -/

namespace StatName

variable (env : Naming)

/-- A tag that a name has, in one of its lists. -/
def Has (s : StatName) (t : Tag) : Prop := t ∈ s.tags ∨ t ∈ s.metaTags

/-- Nothing is lost when tags are merged into a name: `s` before, `s'` after. -/
structure MergesAll (s : StatName) (tags : List Tag) (s' : StatName) : Prop where
  incoming : ∀ t ∈ tags, s'.Has t
  previous : ∀ t, s.Has t → t.name ∉ tagNames tags → s'.Has t
  once : Parted (s.tags, s.metaTags) → (tagNames s'.tags ++ tagNames s'.metaTags).Nodup
  placed : s.tagMode = .metrics2 → ∀ t ∈ tags, t ∈ listOf (s'.tags, s'.metaTags) t.name
  uniqueId : (s'.uniqueId env).2 =
    ({ s' with xxxUniqueId := 0#64, xxxUniqueIdstr := "" }.uniqueId env).2

theorem mergeMetric2Tags_metrics2 {s : StatName} (mode : s.tagMode = .metrics2) (tags : List Tag) :
    s.mergeMetric2Tags (some tags) =
      { s with
        tags := (tags.foldl placeTag (s.tags, s.metaTags)).1
        metaTags := (tags.foldl placeTag (s.tags, s.metaTags)).2
        xxxUniqueId := 0#64
        xxxUniqueIdstr := "" } := by
  simp only [mergeMetric2Tags, mode, Repr.mergeMetric2Tags]
  split_ifs with none
  · rw [none]
    rfl
  · rfl

theorem mergeMetric2Tags_all {s : StatName} (mode : s.tagMode = .all) (tags : List Tag) :
    s.mergeMetric2Tags (some tags) =
      { s with
        tags := (merge s.tags tags).1
        metaTags := []
        xxxUniqueId := 0#64
        xxxUniqueIdstr := "" } := by
  simp only [mergeMetric2Tags, mode]

theorem mergesAll_metrics2 {s : StatName} (mode : s.tagMode = .metrics2) {tags : List Tag}
    (distinct : (tagNames tags).Nodup) : s.MergesAll env tags (s.mergeMetric2Tags (some tags)) := by
  have hplaced : ∀ t ∈ tags, t ∈ listOf (tags.foldl placeTag (s.tags, s.metaTags)) t.name :=
    fun t mem => mem_placeTags distinct _ mem
  rw [mergeMetric2Tags_metrics2 mode]
  refine ⟨fun t mem => ?_, fun t had other => ?_, fun parted => ?_, fun _ => hplaced, rfl⟩
  · have hlist := hplaced t mem
    unfold listOf at hlist
    split_ifs at hlist
    · exact .inl hlist
    · exact .inr hlist
  · exact had.imp (mem_placeTags_of_notMem other).1 (mem_placeTags_of_notMem other).2
  · exact (parted_placeTags tags parted).nodup

/-- Where all tags are kept, a merge into no tags is not stored, and the meta tags go. -/
theorem mergesAll_all_iff {s : StatName} (mode : s.tagMode = .all) {tags : List Tag}
    (distinct : (tagNames tags).Nodup) :
    s.MergesAll env tags (s.mergeMetric2Tags (some tags)) ↔
      (tags = [] ∨ s.tags ≠ []) ∧ ∀ t ∈ s.metaTags, t.name ∉ tagNames tags → t ∈ s.tags := by
  have hother : (tags = [] ∨ s.tags ≠ []) → (merge s.tags tags).1 = mergeEach s.tags tags := by
    intro kept
    unfold merge
    split_ifs with none empty
    · rw [none]
      rfl
    · exact absurd empty (kept.resolve_left none)
    · rfl
  rw [mergeMetric2Tags_all mode]
  constructor
  · intro all
    have hkept : tags = [] ∨ s.tags ≠ [] := by
      by_contra lost
      obtain ⟨some, empty⟩ := not_or.mp lost
      obtain ⟨t, rest, rfl⟩ := List.exists_cons_of_ne_nil some
      have hlost := all.incoming t List.mem_cons_self
      simp only [Has, merge, not_not.mp empty, if_true, if_neg some, List.not_mem_nil, or_false]
        at hlost
    refine ⟨hkept, fun t mem other => ?_⟩
    rcases all.previous t (.inr mem) other with found | none
    · have hmerged : t ∈ (merge s.tags tags).1 := found
      rw [hother hkept] at hmerged
      refine (mem_of_mem_mergeEach hmerged).resolve_left fun own => other ?_
      exact List.mem_map_of_mem own
    · cases none
  · rintro ⟨kept, metas⟩
    rw [hother kept]
    refine ⟨fun t mem => .inl (mem_mergeEach distinct _ mem), fun t had other => .inl ?_,
      fun parted => ?_, fun not => ?_, rfl⟩
    · exact mem_mergeEach_of_notMem (had.elim id fun mem => metas t mem other) other
    · change (tagNames (mergeEach s.tags tags) ++ []).Nodup
      rw [List.append_nil]
      exact nodup_mergeEach tags (List.nodup_append.mp parted.nodup).1
    · rw [mode] at not
      cases not

/-- A merge loses nothing exactly when the name keeps identifying tags apart, or has tags to
merge into and no meta tag that is neither among them nor replaced. -/
theorem mergesAll_iff (s : StatName) {tags : List Tag} (distinct : (tagNames tags).Nodup) :
    s.MergesAll env tags (s.mergeMetric2Tags (some tags)) ↔
      s.tagMode = .metrics2 ∨
        (tags = [] ∨ s.tags ≠ []) ∧ ∀ t ∈ s.metaTags, t.name ∉ tagNames tags → t ∈ s.tags := by
  cases mode : s.tagMode with
  | metrics2 => exact iff_of_true (mergesAll_metrics2 env mode distinct) (.inl rfl)
  | all =>
    rw [mergesAll_all_iff env mode distinct]
    exact (or_iff_right (by decide)).symm

/-- The name of a metric that keeps all of its tags. -/
def allTagged (tags : List Tag) : StatName :=
  ⟨"requests", 0#64, "", 0#32, 0#32, .all, .fnv, tags, []⟩

/-- One incoming tag replaces a value and one is new. -/
theorem mergesAll_iff_replaced :
    (allTagged [⟨"host", "a"⟩]).MergesAll plainNaming [⟨"host", "b"⟩, ⟨"team", "x"⟩]
      ((allTagged [⟨"host", "a"⟩]).mergeMetric2Tags (some [⟨"host", "b"⟩, ⟨"team", "x"⟩])) :=
  (mergesAll_iff plainNaming (allTagged [⟨"host", "a"⟩]) (by decide)).mpr (.inr (by decide))

/-- What is merged into no tags is lost. -/
theorem merge_into_none_lost :
    ¬ (allTagged []).MergesAll plainNaming [⟨"host", "b"⟩]
      ((allTagged []).mergeMetric2Tags (some [⟨"host", "b"⟩])) := by
  intro all
  have hlost := all.incoming ⟨"host", "b"⟩ (by decide)
  revert hlost
  unfold Has
  decide

end StatName

end Repr
