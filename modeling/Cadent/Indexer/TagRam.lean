import Cadent.Lib.Maps
import Cadent.Lib.Runs
import Cadent.Schemas.Tags

/-!
# The tag index in memory

`TagIndex` keeps the uids of every tag and the tags of every uid. A tag is looked up by the text
`name=value`. The first tag of a uid that is not known yet takes the place of what the index had
under its text, and a tag that a uid already has is added once more; where neither happens, and
no name or value has an equals sign, the index answers exactly.
-/

namespace Indexer

open Maps Text Repr Runs

structure TagIndex where
  nameIndex : Map String (List String)
  uidIndex : Map String (List String)
  uidInvertIndex : Map String (List Tag)

/-- The loops that append what is not there yet. -/
def appendNew (out : List String) (s : String) : List String :=
  if s ∈ out then out else out ++ [s]

namespace TagIndex

def new : TagIndex := ⟨∅, ∅, ∅⟩

variable (tv : TagIndex)

/-- The body of the loop of `Add`. -/
def addTag (uid : String) (t : Tag) : TagIndex :=
  let nv := t.join "="
  let isNew := (tv.uidInvertIndex.lookup uid).isNone
  let tv := if isNew then
      { tv with
        uidIndex := tv.uidIndex.insert nv [uid]
        uidInvertIndex := tv.uidInvertIndex.insert uid [t] }
    else tv
  let tv := { tv with
    nameIndex := tv.nameIndex.insert t.name (appendNew (listAt tv.nameIndex t.name) t.value) }
  if isNew then tv
  else
    { tv with
      uidInvertIndex := push tv.uidInvertIndex uid t
      uidIndex := push tv.uidIndex nv uid }

def add (uid : String) (tags : List Tag) : TagIndex := tags.foldl (addTag · uid) tv

/-- The body of the loop of `DeleteByUid`. -/
def purge (uid : String) (uidIndex : Map String (List String)) (tag : Tag) :
    Map String (List String) :=
  let nv := tag.join "="
  match uidIndex.lookup nv with
  | some uids => uidIndex.insert nv (uids.filter (· ≠ uid))
  | none => uidIndex

def deleteByUid (uid : String) : TagIndex :=
  match tv.uidInvertIndex.lookup uid with
  | some tags =>
    { tv with
      uidIndex := tags.foldl (purge uid) tv.uidIndex
      uidInvertIndex := tv.uidInvertIndex.erase uid }
  | none => tv

def findTagsByUid (uid : String) : List Tag := (tv.uidInvertIndex.lookup uid).getD []

def findUidByTag (tag : Tag) : List String := (tv.uidIndex.lookup (tag.join "=")).getD []

/-- The uids of all tags; what was seen is what is in the result. -/
def findUidByTags (tags : List Tag) : List String :=
  tags.foldl (fun outSet tag =>
    match tv.uidIndex.lookup (tag.join "=") with
    | some g => g.foldl appendNew outSet
    | none => outSet) []

end TagIndex

/-! ### The history -/

inductive TagCall where
  | add (uid : String) (tags : List Tag)
  | deleteByUid (uid : String)

def tagStep (tv : TagIndex) : TagCall → Option (TagIndex × Unit)
  | .add uid tags => some (tv.add uid tags, ())
  | .deleteByUid uid => some (tv.deleteByUid uid, ())

/-- The uid was added with the tag since it was last deleted; the calls are given last to
first. -/
def AddedWith (uid : String) (tag : Tag) : List TagCall → Prop
  | [] => False
  | .add u tags :: earlier => u = uid ∧ tag ∈ tags ∨ AddedWith uid tag earlier
  | .deleteByUid u :: earlier => u ≠ uid ∧ AddedWith uid tag earlier

instance decidableAddedWith (uid : String) (tag : Tag) :
    (calls : List TagCall) → Decidable (AddedWith uid tag calls)
  | [] => inferInstanceAs (Decidable False)
  | .add u tags :: earlier =>
    have := decidableAddedWith uid tag earlier
    inferInstanceAs (Decidable (u = uid ∧ tag ∈ tags ∨ AddedWith uid tag earlier))
  | .deleteByUid u :: earlier =>
    have := decidableAddedWith uid tag earlier
    inferInstanceAs (Decidable (u ≠ uid ∧ AddedWith uid tag earlier))

/-- The calls of a history, last to first. -/
def callsOf (h : List (Taken TagIndex TagCall Unit)) : List TagCall := (h.map Taken.act).reverse

/-- A tag that no other tag has the text of. -/
def Plain (t : Tag) : Prop := '=' ∉ t.name.toList ∧ '=' ∉ t.value.toList

instance (t : Tag) : Decidable (Plain t) := inferInstanceAs (Decidable (_ ∧ _))

/-- The tags of an `Add` are plain, none of them twice and none that the uid already has, and
the first tag of a new uid has no uids. -/
def TagCareful (tv : TagIndex) : TagCall → Prop
  | .add uid tags => tags.Nodup ∧ (∀ t ∈ tags, Plain t ∧ t ∉ tv.findTagsByUid uid) ∧
      ((tv.uidInvertIndex.lookup uid).isNone → ∀ t ∈ tags.head?, tv.findUidByTag t = [])
  | .deleteByUid _ => True

instance (tv : TagIndex) : (c : TagCall) → Decidable (TagCareful tv c)
  | .add _ _ => inferInstanceAs (Decidable (_ ∧ (∀ t ∈ _, _ ∧ _) ∧ (_ → ∀ t ∈ List.head? _, _)))
  | .deleteByUid _ => inferInstanceAs (Decidable True)

theorem join_inj {t t' : Tag} (plain : Plain t) : t.join "=" = t'.join "=" ↔ t = t' := by
  rw [Tag.join, Tag.join, append_sep_inj rfl plain.1 plain.2, Tag.mk.injEq]

/-! ### Answers -/

/-- The two sides of the index hold one relation. -/
structure Holds (tv : TagIndex) (held : String → Tag → Prop) : Prop where
  tags : ∀ uid tag, tag ∈ listAt tv.uidInvertIndex uid ↔ held uid tag
  tagsOnce : ∀ uid, (listAt tv.uidInvertIndex uid).Nodup
  uids : ∀ nv uid, uid ∈ listAt tv.uidIndex nv ↔ ∃ tag, held uid tag ∧ tag.join "=" = nv
  uidsOnce : ∀ nv, (listAt tv.uidIndex nv).Nodup
  plain : ∀ uid tag, held uid tag → Plain tag

variable {tv : TagIndex} {held : String → Tag → Prop} {uid : String} {t : Tag}

theorem addTag_new (new : tv.uidInvertIndex.lookup uid = none) :
    (tv.addTag uid t).uidInvertIndex = tv.uidInvertIndex.insert uid [t] ∧
      (tv.addTag uid t).uidIndex = tv.uidIndex.insert (t.join "=") [uid] := by
  simp [TagIndex.addTag, new]

theorem addTag_known (known : tv.uidInvertIndex.lookup uid ≠ none) :
    (tv.addTag uid t).uidInvertIndex = push tv.uidInvertIndex uid t ∧
      (tv.addTag uid t).uidIndex = push tv.uidIndex (t.join "=") uid := by
  have old : ¬(tv.uidInvertIndex.lookup uid).isNone := by simpa using known
  simp [TagIndex.addTag, old]

theorem addTag_tags (tv : TagIndex) (uid : String) (t : Tag) (u : String) :
    listAt (tv.addTag uid t).uidInvertIndex u =
      if uid = u then listAt tv.uidInvertIndex u ++ [t] else listAt tv.uidInvertIndex u := by
  by_cases new : tv.uidInvertIndex.lookup uid = none
  · rw [(addTag_new new).1, listAt, lookup_insert]
    by_cases same : u = uid
    · subst same
      simp [listAt, new]
    · rw [if_neg same, if_neg (Ne.symm same), listAt]
  · rw [(addTag_known new).1, listAt_push]

theorem addTag_uids (unshared : tv.uidInvertIndex.lookup uid = none → tv.findUidByTag t = [])
    (nv : String) :
    listAt (tv.addTag uid t).uidIndex nv =
      if t.join "=" = nv then listAt tv.uidIndex nv ++ [uid] else listAt tv.uidIndex nv := by
  by_cases new : tv.uidInvertIndex.lookup uid = none
  · rw [(addTag_new new).2, listAt, lookup_insert]
    by_cases same : nv = t.join "="
    · subst same
      have empty : listAt tv.uidIndex (t.join "=") = [] := unshared new
      rw [empty]
      simp
    · rw [if_neg same, if_neg (Ne.symm same), listAt]
  · rw [(addTag_known new).2, listAt_push]

/-- A plain tag that the uid does not have, and that no other uid has when the uid is new. -/
theorem Holds.addTag (holds : Holds tv held) (plain : Plain t) (fresh : ¬held uid t)
    (unshared : tv.uidInvertIndex.lookup uid = none → tv.findUidByTag t = []) :
    Holds (tv.addTag uid t) fun u tag => u = uid ∧ tag = t ∨ held u tag := by
  constructor
  · intro u tag
    rw [addTag_tags]
    split_ifs with same
    · rw [List.mem_append, List.mem_singleton, holds.tags, or_comm, same]
      simp
    · rw [holds.tags]
      simp [Ne.symm same]
  · intro u
    rw [addTag_tags]
    split_ifs with same
    · rw [← List.concat_eq_append]
      refine List.Nodup.concat ?_ (holds.tagsOnce u)
      rw [holds.tags, ← same]
      exact fresh
    · exact holds.tagsOnce u
  · intro nv u
    rw [addTag_uids unshared]
    split_ifs with same
    · rw [List.mem_append, List.mem_singleton, holds.uids]
      constructor
      · rintro (⟨tag, old, text⟩ | rfl)
        · exact ⟨tag, .inr old, text⟩
        · exact ⟨t, .inl ⟨rfl, rfl⟩, same⟩
      · rintro ⟨tag, ⟨rfl, rfl⟩ | old, text⟩
        · exact .inr rfl
        · exact .inl ⟨tag, old, text⟩
    · rw [holds.uids]
      constructor
      · rintro ⟨tag, old, text⟩
        exact ⟨tag, .inr old, text⟩
      · rintro ⟨tag, ⟨rfl, rfl⟩ | old, text⟩
        · exact absurd text same
        · exact ⟨tag, old, text⟩
  · intro nv
    rw [addTag_uids unshared]
    split_ifs with same
    · rw [← List.concat_eq_append]
      refine List.Nodup.concat ?_ (holds.uidsOnce nv)
      rw [holds.uids]
      rintro ⟨tag, old, text⟩
      exact fresh ((join_inj plain).mp (same.trans text.symm) ▸ old)
    · exact holds.uidsOnce nv
  · rintro u tag (⟨rfl, rfl⟩ | old)
    · exact plain
    · exact holds.plain u tag old

theorem Holds.congr {held' : String → Tag → Prop} (holds : Holds tv held)
    (same : ∀ uid tag, held uid tag ↔ held' uid tag) : Holds tv held' := by
  have eq : held = held' := funext fun uid => funext fun tag => propext (same uid tag)
  exact eq ▸ holds

theorem Holds.add {tags : List Tag} (holds : Holds tv held)
    (careful : TagCareful tv (.add uid tags)) :
    Holds (tv.add uid tags) fun u tag => uid = u ∧ tag ∈ tags ∨ held u tag := by
  induction tags generalizing tv held with
  | nil => exact holds.congr (by simp)
  | cons t tags ih =>
    obtain ⟨nodup, each, unshared⟩ := careful
    obtain ⟨once, rest⟩ := List.nodup_cons.mp nodup
    obtain ⟨⟨plain, fresh⟩, later⟩ := List.forall_mem_cons.mp each
    have added := holds.addTag plain (mt (holds.tags uid t).mpr fresh) fun new =>
      unshared (by rw [new]; rfl) t rfl
    have known : (tv.addTag uid t).findTagsByUid uid = tv.findTagsByUid uid ++ [t] := by
      have listed := addTag_tags tv uid t uid
      rwa [if_pos rfl] at listed
    refine (ih added ⟨rest, ?_, ?_⟩).congr ?_
    · intro t' mem
      refine ⟨(later t' mem).1, ?_⟩
      rw [known, List.mem_append, List.mem_singleton, not_or]
      exact ⟨(later t' mem).2, fun same => once (same ▸ mem)⟩
    · intro new
      rw [TagIndex.findTagsByUid, Option.isNone_iff_eq_none.mp new] at known
      simp at known
    · intro u tag
      simp only [List.mem_cons]
      constructor
      · rintro (⟨rfl, mem⟩ | ⟨rfl, rfl⟩ | old)
        · exact .inl ⟨rfl, .inr mem⟩
        · exact .inl ⟨rfl, .inl rfl⟩
        · exact .inr old
      · rintro (⟨rfl, rfl | mem⟩ | old)
        · exact .inr (.inl ⟨rfl, rfl⟩)
        · exact .inl ⟨rfl, mem⟩
        · exact .inr (.inr old)

/-! ### Deletion -/

theorem listAt_purge (uids : Map String (List String)) (tag : Tag) (nv : String) :
    listAt (TagIndex.purge uid uids tag) nv =
      if nv = tag.join "=" then (listAt uids nv).filter (· ≠ uid) else listAt uids nv := by
  rw [TagIndex.purge]
  split
  next l found =>
    rw [listAt, lookup_insert]
    split_ifs with same
    · rw [same, listAt, found, Option.getD_some, Option.getD_some]
    · rfl
  next missing =>
    split_ifs with same
    · rw [same, listAt, missing]
      rfl
    · rfl

theorem mem_purges {uids : Map String (List String)} {tags : List Tag} {nv u : String} :
    u ∈ listAt (tags.foldl (TagIndex.purge uid) uids) nv ↔
      u ∈ listAt uids nv ∧ (nv ∈ tags.map (·.join "=") → u ≠ uid) := by
  induction tags generalizing uids with
  | nil => simp
  | cons t tags ih =>
    rw [List.foldl_cons, ih, listAt_purge, List.map_cons, List.mem_cons]
    split_ifs with same
    · simp only [List.mem_filter, decide_eq_true_eq]
      tauto
    · tauto

theorem purges_sublist (uids : Map String (List String)) (tags : List Tag) (nv : String) :
    (listAt (tags.foldl (TagIndex.purge uid) uids) nv).Sublist (listAt uids nv) := by
  induction tags generalizing uids with
  | nil => exact .refl _
  | cons t tags ih =>
    refine (ih _).trans ?_
    rw [listAt_purge]
    split_ifs
    · exact List.filter_sublist
    · exact .refl _

theorem Holds.deleteByUid (holds : Holds tv held) (uid : String) :
    Holds (tv.deleteByUid uid) fun u tag => uid ≠ u ∧ held u tag := by
  rw [TagIndex.deleteByUid]
  split
  next tags found =>
    have own : listAt tv.uidInvertIndex uid = tags := by rw [listAt, found, Option.getD_some]
    have others : ∀ u, listAt (tv.uidInvertIndex.erase uid) u =
        if u = uid then [] else listAt tv.uidInvertIndex u := by
      intro u
      rw [listAt, lookup_erase]
      split_ifs <;> rfl
    constructor
    · intro u tag
      rw [others]
      split_ifs with same
      · simp [same]
      · simp [holds.tags, Ne.symm same]
    · intro u
      rw [others]
      split_ifs
      · exact List.nodup_nil
      · exact holds.tagsOnce u
    · intro nv u
      -- the uid is found for the texts of its own tags only
      rw [mem_purges, holds.uids]
      constructor
      · rintro ⟨⟨tag, old, text⟩, purged⟩
        refine ⟨tag, ⟨?_, old⟩, text⟩
        rintro rfl
        refine purged ?_ rfl
        rw [← own]
        exact List.mem_map.mpr ⟨tag, (holds.tags uid tag).mpr old, text⟩
      · rintro ⟨tag, ⟨other, old⟩, text⟩
        exact ⟨⟨tag, old, text⟩, fun _ => Ne.symm other⟩
    · intro nv
      exact (holds.uidsOnce nv).sublist (purges_sublist _ _ nv)
    · rintro u tag ⟨_, old⟩
      exact holds.plain u tag old
  next missing =>
    refine holds.congr ?_
    intro u tag
    refine ⟨fun old => ⟨?_, old⟩, And.right⟩
    rintro rfl
    have listed := (holds.tags uid tag).mpr old
    rw [listAt, missing] at listed
    cases listed

/-! ### Several tags -/

theorem mem_appendNews {g out : List String} {u : String} :
    u ∈ g.foldl appendNew out ↔ u ∈ out ∨ u ∈ g := by
  induction g generalizing out with
  | nil => simp
  | cons a g ih =>
    rw [List.foldl_cons, ih, appendNew, List.mem_cons]
    split_ifs with old
    · constructor
      · rintro (seen | later)
        · exact .inl seen
        · exact .inr (.inr later)
      · rintro (seen | rfl | later)
        · exact .inl seen
        · exact .inl old
        · exact .inr later
    · rw [List.mem_append, List.mem_singleton, or_assoc]

theorem nodup_appendNews {g out : List String} (nodup : out.Nodup) :
    (g.foldl appendNew out).Nodup := by
  induction g generalizing out with
  | nil => exact nodup
  | cons a g ih =>
    apply ih
    rw [appendNew]
    split_ifs with old
    · exact nodup
    · exact List.concat_eq_append ▸ nodup.concat old

theorem findUidByTags_eq (tv : TagIndex) (tags : List Tag) :
    tv.findUidByTags tags = tags.foldl (fun out tag => (tv.findUidByTag tag).foldl appendNew out) []
    := by
  rw [TagIndex.findUidByTags]
  congr 1
  funext out tag
  rw [TagIndex.findUidByTag]
  split
  next g found => rw [found, Option.getD_some]
  next missing =>
    rw [missing]
    rfl

theorem mem_findUidByTags {tags : List Tag} {u : String} :
    u ∈ tv.findUidByTags tags ↔ ∃ tag ∈ tags, u ∈ tv.findUidByTag tag := by
  rw [findUidByTags_eq]
  suffices collected : ∀ out : List String,
      u ∈ tags.foldl (fun out tag => (tv.findUidByTag tag).foldl appendNew out) out ↔
        u ∈ out ∨ ∃ tag ∈ tags, u ∈ tv.findUidByTag tag by
    simpa using collected []
  induction tags with
  | nil => simp
  | cons t tags ih =>
    intro out
    rw [List.foldl_cons, ih, mem_appendNews, or_assoc, List.exists_mem_cons_iff]

theorem nodup_findUidByTags (tv : TagIndex) (tags : List Tag) : (tv.findUidByTags tags).Nodup := by
  rw [findUidByTags_eq]
  suffices collected : ∀ out : List String, out.Nodup →
      (tags.foldl (fun out tag => (tv.findUidByTag tag).foldl appendNew out) out).Nodup from
    collected [] List.nodup_nil
  induction tags with
  | nil => exact fun _ nodup => nodup
  | cons t tags ih => exact fun _ nodup => ih _ (nodup_appendNews nodup)

/-! ### Runs -/

theorem holds_run {h : List (Taken TagIndex TagCall Unit)}
    (run : Run tagStep TagCareful .new h tv) :
    Holds tv fun uid tag => AddedWith uid tag (callsOf h) := by
  refine run_invariant (fun h tv => Holds tv fun uid tag => AddedWith uid tag (callsOf h))
    ?_ ?_ run
  · constructor
    · exact fun uid tag => ⟨nofun, nofun⟩
    · exact fun uid => List.nodup_nil
    · exact fun nv uid => ⟨nofun, nofun⟩
    · exact fun nv => List.nodup_nil
    · exact nofun
  · intro h tv c tv' _ holds careful taken
    have last : ∀ b, callsOf (h ++ [⟨tv, c, b⟩]) = c :: callsOf h := by
      intro b
      simp [callsOf]
    rw [last]
    cases c with
    | add uid tags =>
      cases taken
      exact holds.add careful
    | deleteByUid uid =>
      cases taken
      exact holds.deleteByUid uid

theorem Holds.uid_iff (holds : Holds tv held) (tag : Tag) (uid : String) :
    uid ∈ tv.findUidByTag tag ↔ held uid tag := by
  refine (holds.uids (tag.join "=") uid).trans ?_
  constructor
  · rintro ⟨tag', old, text⟩
    exact (join_inj (holds.plain uid tag' old)).mp text ▸ old
  · exact fun old => ⟨tag, old, rfl⟩

theorem add_tags (tv : TagIndex) (uid : String) (tags : List Tag) :
    (tv.add uid tags).findTagsByUid uid = tv.findTagsByUid uid ++ tags := by
  induction tags generalizing tv with
  | nil => exact (List.append_nil _).symm
  | cons t tags ih =>
    have first := addTag_tags tv uid t uid
    rw [if_pos rfl] at first
    refine (ih (tv.addTag uid t)).trans ?_
    rw [TagIndex.findTagsByUid, ← listAt, first, List.append_assoc, List.singleton_append]
    rfl

/-- In every run whose calls are careful the uids found for a tag or for some tags, and the tags
found for a uid, are those of the history, none of them twice. Adding a uid again with tags that
it has changes nothing exactly when there are none. -/
theorem tag_index_exact {h : List (Taken TagIndex TagCall Unit)} {tv : TagIndex}
    (run : Run tagStep TagCareful .new h tv) :
    (∀ tag uid, uid ∈ tv.findUidByTag tag ↔ AddedWith uid tag (callsOf h)) ∧
    (∀ tag, (tv.findUidByTag tag).Nodup) ∧
    (∀ tags uid, uid ∈ tv.findUidByTags tags ↔ ∃ tag ∈ tags, AddedWith uid tag (callsOf h)) ∧
    (∀ tags, (tv.findUidByTags tags).Nodup) ∧
    (∀ uid tag, tag ∈ tv.findTagsByUid uid ↔ AddedWith uid tag (callsOf h)) ∧
    (∀ uid, (tv.findTagsByUid uid).Nodup) ∧
    (∀ uid tags, (∀ tag ∈ tags, AddedWith uid tag (callsOf h)) →
      (tv.add uid tags = tv ↔ tags = [])) := by
  have holds := holds_run run
  refine ⟨holds.uid_iff, fun tag => holds.uidsOnce _, ?_, nodup_findUidByTags tv, holds.tags,
    holds.tagsOnce, ?_⟩
  · intro tags uid
    simp only [mem_findUidByTags, holds.uid_iff]
  · intro uid tags _
    constructor
    · intro same
      have grown := add_tags tv uid tags
      rw [same] at grown
      exact List.self_eq_append_right.mp grown
    · rintro rfl
      rfl

def dcTag : Tag := ⟨"dc", "a"⟩

def hostTag : Tag := ⟨"host", "b"⟩

def retagged : List TagCall :=
  [.add "2j4" [dcTag, hostTag], .add "2j5" [⟨"unit", "s"⟩, hostTag], .deleteByUid "2j4",
    .add "2j4" [dcTag]]

theorem retagged_run : (exec tagStep TagCareful .new retagged).isSome := by
  decide

def afterRetagged : List (Taken TagIndex TagCall Unit) × TagIndex :=
  (exec tagStep TagCareful .new retagged).get retagged_run

theorem tag_index_exact_retagged :
    (∀ uid, uid ∈ afterRetagged.2.findUidByTag hostTag ↔
      AddedWith uid hostTag (callsOf afterRetagged.1)) ∧
    afterRetagged.2.findUidByTag hostTag = ["2j5"] := by
  have exact := tag_index_exact (run_of_exec tagStep TagCareful .new retagged retagged_run)
  exact ⟨exact.1 hostTag, by decide⟩

/-- A new uid whose first tag is known drops the other uids of the tag, a uid that is added again
is found twice, and a tag with an equals sign is taken for another. -/
theorem tag_index_inexact :
    (∃ h tv, Run tagStep anyStep .new h tv ∧ AddedWith "2j4" dcTag (callsOf h) ∧
      "2j4" ∉ tv.findUidByTag dcTag) ∧
    (∃ h tv, Run tagStep anyStep .new h tv ∧ tv.findUidByTag dcTag = ["2j4", "2j4"]) ∧
    (∃ h tv tag, Run tagStep anyStep .new h tv ∧ "2j4" ∈ tv.findUidByTag tag ∧
      ¬AddedWith "2j4" tag (callsOf h)) := by
  refine ⟨⟨_, _, run_of_exec tagStep anyStep .new [.add "2j4" [dcTag], .add "2j5" [dcTag]]
    (by decide), ?_, ?_⟩, ⟨_, _, run_of_exec tagStep anyStep .new
    [.add "2j4" [dcTag], .add "2j4" [dcTag]] (by decide), ?_⟩, ⟨_, _, ⟨"a=b", "c"⟩,
    run_of_exec tagStep anyStep .new [.add "2j4" [⟨"a", "b=c"⟩]] (by decide), ?_, ?_⟩⟩
  all_goals decide

end Indexer
