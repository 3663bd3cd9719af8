import Cadent.Indexer.LevelDBFind

/-!
# Deleting from the segment database

The entries that searches read have values `id:path:has_data`. A deletion compares them with
`path:1`, which no such value is, so it leaves all of them.
-/

namespace LevelDBIndex

open Globs Indexer Maps Ordered Text

variable {fold : Char → Char} {ws : List (String × String)} {p : String}

/-! ### What searches read -/

/-- Two databases with the same entries for searches. -/
def SamePos (db db' : DB) : Prop := ∀ e, IsPos e.1 → (e ∈ db.entries ↔ e ∈ db'.entries)

theorem SamePos.trans {a b c : DB} (first : SamePos a b) (second : SamePos b c) : SamePos a c :=
  fun e pos => (first e pos).trans (second e pos)

theorem SamePos.symm {a b : DB} (same : SamePos a b) : SamePos b a := fun e pos => (same e pos).symm

theorem SamePos.scan {db db' : DB} (same : SamePos db db') {start : String}
    (pos : "POS:".toList <+: start.toList) :
    db.scan (startsWith start) = db'.scan (startsWith start) := by
  refine OrderedMap.scan_congr fun e started => same e ?_
  rw [startsWith, List.isPrefixOf_iff_prefix] at started
  exact pos.trans started

theorem SamePos.find {db db' : LevelDB} (same : SamePos db.segmentConn db'.segmentConn)
    (compile : String → Except String (String → Bool)) (query : String) :
    db.find compile query = db'.find compile query := by
  have pos : ∀ n useKey : String, "POS:".toList <+: ("POS:" ++ n ++ ":" ++ useKey).toList := by
    intro n useKey
    simp only [String.toList_append, List.append_assoc]
    exact List.prefix_append _ _
  have root : findRoot db.segmentConn = findRoot db'.segmentConn := by
    have start : "POS:".toList <+: "POS:0:".toList := by decide
    rw [findRoot, findRoot, same.scan start]
  have iter : findingIter compile db.segmentConn query =
      findingIter compile db'.segmentConn query := by
    simp only [findingIter, same.scan (pos _ _)]
  rw [LevelDB.find, LevelDB.find, root, iter]

/-! ### A deletion -/

theorem length_of_map_eq {a b : String} (same : a.toList.map fold = b.toList.map fold) :
    a.toList.length = b.toList.length := by
  simpa using congrArg List.length same

/-- Nothing is deleted if no value is as long as the given one. -/
theorem deleteIf_of_length {db : DB} {key value : String}
    (lengths : ∀ v, (key, v) ∈ db.entries → v.toList.length ≠ value.toList.length) :
    (deleteIf fold db key value).1 = db := by
  rw [deleteIf]
  rcases here : db.get key with _ | v
  · rfl
  · exact if_neg fun same => lengths v (OrderedMap.mem_of_get here) (length_of_map_eq same)

theorem samePos_delete {db : DB} {key : String} (other : ¬ IsPos key) :
    SamePos (db.delete key) db := by
  intro e pos
  rw [OrderedMap.mem_delete, and_iff_right]
  rintro rfl
  exact other pos

theorem samePos_deleteIf {db : DB} {key : String} (other : ¬ IsPos key) (value : String) :
    SamePos (deleteIf fold db key value).1 db := by
  rw [deleteIf]
  rcases db.get key with _ | v
  · exact fun e _ => Iff.rfl
  · dsimp only
    split_ifs
    · exact samePos_delete other
    · exact fun e _ => Iff.rfl

theorem not_isPos_segmentKey (segment : String) (len : Nat) :
    ¬ IsPos (LevelDBSegment.segmentKey segment len) := by
  intro start
  rw [IsPos, LevelDBSegment.segmentKey] at start
  simp [List.cons_prefix_cons] at start

theorem length_below {q : String} (solid : Solid p) (below : Below q p) :
    q.toList.length + 2 ≤ p.toList.length := by
  obtain ⟨⟨rest, joined⟩, other⟩ := below
  rcases rest with _ | ⟨part, rest⟩
  · rw [List.append_nil] at joined
    exact absurd ((split_inj dot).mp joined) other
  · have alone : [part] <+: part :: rest := ⟨rest, rfl⟩
    have start := (prefix_intercalate alone).length_le
    rw [String.intercalate_singleton] at start
    have some : part.toList.length ≠ 0 := by
      rw [ne_eq, List.length_eq_zero_iff, String.toList_eq_nil_iff]
      exact solid.some part (by rw [← joined]; simp)
    rw [← intercalate_split dot p, ← joined,
      String.intercalate_append_of_ne_nil (split_ne_nil dot q)
      (List.cons_ne_nil _ _), intercalate_split dot q, String.toList_append, String.toList_append,
      List.length_append, List.length_append, dot, List.length_singleton]
    omega

/-- The keys of a path and of what is before it. -/
def OwnKey (p key : String) : Prop :=
  key = (leafEntry p "").1 ∨ ∃ q, Below q p ∧ key = (innerEntry q).1

theorem ownKey_posSegmentKey {seg : LevelDBSegment} (mem : seg ∈ parsePath p "") :
    OwnKey p (seg.posSegmentKey seg.segment seg.pos) := by
  have listed : seg.posSegmentData ∈ (parsePath p "").map LevelDBSegment.posSegmentData :=
    List.mem_map_of_mem mem
  rcases mem_posSegmentData.mp listed with same | ⟨q, below, same⟩
  · exact .inl (congrArg Prod.fst same)
  · exact .inr ⟨q, below, congrArg Prod.fst same⟩

theorem OwnKey.isPos {key : String} (own : OwnKey p key) : IsPos key := by
  rcases own with rfl | ⟨q, _, rfl⟩
  · exact isPos_posKey _ _
  · exact isPos_posKey _ _

/-- The values under them are longer or shorter than `path:1`. -/
theorem OwnKey.length_ne {key v : String} (own : OwnKey p key) (clean : Clean ws) (solid : Solid p)
    (here : (key, v) ∈ (writeAll ws).segmentConn.entries) :
    v.toList.length ≠ (p ++ ":1").toList.length := by
  have one : ("1" : String).toList.length = 1 := rfl
  have zero : ("0" : String).toList.length = 1 := rfl
  have two : (":1" : String).toList.length = 2 := rfl
  have none : ("" : String).toList.length = 0 := rfl
  rcases (mem_writeAll (e := (key, v)) clean.solid own.isPos).mp here with
    ⟨q, uid, known, same⟩ | ⟨q, inner, same⟩
  · have solid' : Solid q := clean.solid _ (mem_of_lookup_assign known)
    have key_eq : key = (leafEntry q uid).1 := congrArg Prod.fst same
    have value : v = uid ++ ":" ++ q ++ ":" ++ "1" := congrArg Prod.snd same
    rcases own with rfl | ⟨q', below, rfl⟩
    · rw [value, leafEntry_inj solid solid' key_eq]
      simp only [String.toList_append, List.length_append, colon, List.length_singleton, one, two]
      omega
    · exact absurd key_eq.symm (leafEntry_ne_innerEntry solid' (solid.of_below below))
  · have solid' := inner.solid clean.solid
    have key_eq : key = (innerEntry q).1 := congrArg Prod.fst same
    have value : v = "" ++ ":" ++ q ++ ":" ++ "0" := congrArg Prod.snd same
    rcases own with rfl | ⟨q', below, rfl⟩
    · exact absurd key_eq (leafEntry_ne_innerEntry solid solid')
    · obtain rfl := innerEntry_inj (solid.of_below below) solid' key_eq
      have shorter := length_below solid below
      rw [value]
      simp only [String.toList_append, List.length_append, colon, List.length_singleton, zero, two,
        none]
      omega

theorem samePos_deleteLoop (clean : Clean ws) (solid : Solid p) {segs : List LevelDBSegment}
    (own : ∀ seg ∈ segs, seg ∈ parsePath p "") {db : DB}
    (same : SamePos db (writeAll ws).segmentConn) (found : Bool) :
    SamePos (deleteLoop fold p segs db found).1 (writeAll ws).segmentConn := by
  induction segs generalizing db found with
  | nil => exact same
  | cons seg segs ih =>
    obtain ⟨here, own⟩ := List.forall_mem_cons.mp own
    have key := ownKey_posSegmentKey here
    have kept : ∀ {db : DB}, SamePos db (writeAll ws).segmentConn →
        SamePos (deleteIf fold db (seg.posSegmentKey seg.segment seg.pos) (p ++ ":1")).1
          (writeAll ws).segmentConn := by
      intro db same
      rw [deleteIf_of_length]
      · exact same
      · intro v mem
        have mem' := (same (seg.posSegmentKey seg.segment seg.pos, v) key.isPos).mp mem
        exact key.length_ne clean solid mem'
    have first : SamePos (if segs = [] then
        deleteIf fold db (LevelDBSegment.segmentKey seg.segment seg.length) p else (db, true)).1
        (writeAll ws).segmentConn := by
      split_ifs
      · exact (samePos_deleteIf (not_isPos_segmentKey _ _) _).trans same
      · exact same
    rw [deleteLoop]
    exact ih own (kept first) _

theorem samePos_deletePath (clean : Clean ws) (solid : Solid p) :
    SamePos (deletePath fold (writeAll ws).segmentConn p) (writeAll ws).segmentConn := by
  have loop : SamePos (deleteLoop fold p (parsePath p "") (writeAll ws).segmentConn true).1
      (writeAll ws).segmentConn :=
    samePos_deleteLoop clean solid (fun seg mem => mem) (fun e _ => Iff.rfl) true
  have other : ¬ IsPos p := fun pos => solid.colonless (pos.subset (by decide))
  rw [deletePath]
  split
  · exact fun e _ => Iff.rfl
  · exact fun e _ => Iff.rfl
  · dsimp only
    split_ifs
    · exact (samePos_delete other).trans loop
    · exact loop

/-! ### A deletion and another write -/

/-- A path that is written again with its uid changes nothing for searches. -/
theorem samePos_writeOne (clean : Clean ws) {uid : String} (known : (assign ws).lookup p = some uid)
    {db : LevelDB} (same : SamePos db.segmentConn (writeAll ws).segmentConn) :
    SamePos (writeOne db p uid).segmentConn (writeAll ws).segmentConn := by
  have mem := mem_of_lookup_assign known
  have solid : Solid p := clean.solid _ mem
  have clean' : ∀ w ∈ ws ++ [(p, uid)], Solid w.1 := by
    intro w listed
    rcases List.mem_append.mp listed with old | new
    · exact clean.solid w old
    · obtain rfl := List.mem_singleton.mp new
      exact solid
  have inner : ∀ q, Inner (ws ++ [(p, uid)]) q ↔ Inner ws q := by
    intro q
    constructor
    · rintro ⟨w, listed, below⟩
      rcases List.mem_append.mp listed with old | new
      · exact ⟨w, old, below⟩
      · obtain rfl := List.mem_singleton.mp new
        exact ⟨_, mem, below⟩
    · rintro ⟨w, old, below⟩
      exact ⟨w, List.mem_append_left _ old, below⟩
  have lookup : ∀ q, (assign (ws ++ [(p, uid)])).lookup q = (assign ws).lookup q := by
    intro q
    rw [assign_concat, lookup_insert]
    split_ifs with here
    · rw [here, known]
    · rfl
  have concat : writeAll (ws ++ [(p, uid)]) = writeOne (writeAll ws) p uid := by
    rw [writeAll, List.foldl_append]
    rfl
  intro e pos
  have whole := mem_writeAll clean' pos
  simp only [concat, lookup, inner] at whole
  rw [mem_writeAll clean.solid pos, ← whole, mem_writeOne solid pos, mem_writeOne solid pos,
    same e pos]

/-- After a deletion no search returns the path as a leaf, the other paths are found as before,
and the path is found again once it is written again. -/
structure DeletesExactly (compile : String → Except String (String → Bool)) (fold : Char → Char)
    (ws : List (String × String)) (p uid : String) : Prop where
  gone : ∀ query items, ((writeAll ws).delete fold p).find compile query = .ok items →
    ∀ item ∈ items, ¬ (item.path = p ∧ item.leaf = 1)
  kept : ∀ q uid', q ≠ p → (assign ws).lookup q = some uid' → ∀ query items items',
    (writeAll ws).find compile query = .ok items →
    ((writeAll ws).delete fold p).find compile query = .ok items' →
    (leafItem q uid' ∈ items' ↔ leafItem q uid' ∈ items)
  again : ∃ query items,
    (writeOne ((writeAll ws).delete fold p) p uid).find compile query = .ok items ∧
      leafItem p uid ∈ items

/-- What is found after a path was written again was not gone. -/
theorem not_deletesExactly (compile : String → Except String (String → Bool)) (fold : Char → Char)
    (clean : Clean ws) {uid : String} (known : (assign ws).lookup p = some uid) :
    ¬ DeletesExactly compile fold ws p uid := by
  intro exactly
  have solid : Solid p := clean.solid _ (mem_of_lookup_assign known)
  have same : SamePos ((writeAll ws).delete fold p).segmentConn (writeAll ws).segmentConn :=
    samePos_deletePath clean solid
  have again := samePos_writeOne clean known same
  obtain ⟨query, items, found, mem⟩ := exactly.again
  rw [(again.trans same.symm).find] at found
  exact exactly.gone query items found _ mem ⟨rfl, rfl⟩

theorem clean_single : Clean [("ab.cd", "u")] :=
  List.forall_mem_singleton.mpr ⟨⟨by decide, by decide⟩, by decide, by decide⟩

theorem not_deletesExactly_single :
    Clean [("ab.cd", "u")] ∧ (assign [("ab.cd", "u")]).lookup "ab.cd" = some "u" ∧
      ¬ DeletesExactly compileTokens id [("ab.cd", "u")] "ab.cd" "u" :=
  ⟨clean_single, rfl, not_deletesExactly compileTokens id clean_single rfl⟩

/-- A path that was deleted is still found by its name. -/
theorem not_deletesExactly_found :
    ¬ DeletesExactly compileTokens id [("ab.cd", "u")] "ab.cd" "u" := by
  intro exactly
  have same : SamePos ((writeAll [("ab.cd", "u")]).delete id "ab.cd").segmentConn
      (writeAll [("ab.cd", "u")]).segmentConn :=
    samePos_deletePath clean_single (clean_single.solid _ (List.mem_singleton_self _))
  have found := (same.find compileTokens "ab.cd").trans (find_name (by decide) _)
  have mem : leafItem "ab.cd" "u" ∈ scanned [("ab.cd", "u")] 1 "ab.cd" :=
    (mem_scanned clean_single (by decide)).mpr
      ⟨"ab.cd", by decide, by decide, .inl ⟨"u", rfl, rfl⟩⟩
  exact exactly.gone "ab.cd" _ found _ mem ⟨rfl, rfl⟩

end LevelDBIndex
