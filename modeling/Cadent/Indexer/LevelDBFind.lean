import Cadent.Indexer.GlobSearch
import Cadent.Indexer.LevelDBNodes

/-!
# Searches of the segment database

A search by name takes all entries at its position that begin with the name, also those of longer
names. A search by pattern starts from the segments before the first star and is filtered
afterwards, so it finds too little only: a path over several lines, and where the key of a path
lacks the dot that the start has.
-/

namespace LevelDBIndex

open Globs Indexer Maps Ordered Text

/-! ### Beginnings of keys -/

theorem prefix_cut {c : Char} {a b x y : List Char} (clean : c ∉ a) (clean' : c ∉ b) :
    a ++ c :: x <+: b ++ c :: y ↔ a = b ∧ x <+: y := by
  constructor
  · rintro ⟨rest, same⟩
    rw [List.append_assoc, List.cons_append] at same
    obtain ⟨rfl, rfl⟩ := cut_at_first_char clean clean' same
    exact ⟨rfl, List.prefix_append _ _⟩
  · rintro ⟨rfl, rest, rfl⟩
    exact ⟨rest, by simp⟩

theorem prefix_before {c : Char} {x a b : List Char} (clean : c ∉ x) :
    x <+: a ++ c :: b ↔ x <+: a := by
  constructor
  · intro start
    rcases List.prefix_or_prefix_of_prefix start (List.prefix_append a _) with shorter | longer
    · exact shorter
    · obtain ⟨more, rfl⟩ := longer
      rw [List.prefix_append_right_inj] at start
      rcases more with _ | ⟨d, more⟩
      · simp
      · obtain ⟨rfl, -⟩ := List.cons_prefix_cons.mp start
        simp at clean
  · exact fun start => start.trans (List.prefix_append _ _)

theorem startsWith_posKey {parts : List String} {useKey : String}
    (clean : ':' ∉ useKey.toList) (n : Nat) (flag : String) :
    startsWith ("POS:" ++ n.repr ++ ":" ++ useKey) (posKey parts flag) = true ↔
      n = parts.length - 1 ∧ useKey.toList <+: (keyText parts).toList := by
  rw [startsWith, List.isPrefixOf_iff_prefix, posKey]
  simp only [String.toList_append, colon, List.append_assoc, List.cons_append, List.nil_append]
  rw [List.prefix_append_right_inj, prefix_cut (colon_notMem_repr _) (colon_notMem_repr _),
    prefix_before clean, String.toList_inj]
  refine and_congr_left fun _ => ?_
  constructor
  · intro same
    have digits := congrArg (fun text => digitsValue text.toList) same
    simpa only [Nat.toList_repr, digitsValue_toDigits] using digits
  · rintro rfl
    rfl

/-! ### Nodes and what they are shown as -/

def leafItem (q uid : String) : MetricFindItem := ⟨(split q ".").getLastD "", q, q, uid, 0, 1, 0⟩

def innerItem (q : String) : MetricFindItem := ⟨(split q ".").getLastD "", q, q, "", 1, 0, 1⟩

/-- Paths that can be told from patterns, with their uids. -/
def Clean (ws : List (String × String)) : Prop :=
  ∀ w ∈ ws, Solid w.1 ∧ needRegex w.1 = false ∧ ':' ∉ w.2.toList

/-- A path that was written, or a beginning of one. -/
def Node (ws : List (String × String)) (q : String) : Prop :=
  ((assign ws).lookup q).isSome ∨ Inner ws q

/-- A path is shown as a leaf with its uid, and what others go on from as one to expand. -/
def Shown (ws : List (String × String)) (q : String) (item : MetricFindItem) : Prop :=
  (∃ uid, (assign ws).lookup q = some uid ∧ item = leafItem q uid) ∨
    Inner ws q ∧ item = innerItem q

section

variable {ws : List (String × String)} {q : String} {item : MetricFindItem}

theorem Shown.path (shown : Shown ws q item) : item.path = q := by
  rcases shown with ⟨uid, _, rfl⟩ | ⟨_, rfl⟩
  · rfl
  · rfl

theorem Shown.node (shown : Shown ws q item) : Node ws q := by
  rcases shown with ⟨uid, here, _⟩ | ⟨inner, _⟩
  · exact .inl (Option.isSome_of_eq_some here)
  · exact .inr inner

theorem Node.shown (node : Node ws q) : ∃ item, Shown ws q item := by
  rcases node with here | inner
  · obtain ⟨uid, here⟩ := Option.isSome_iff_exists.mp here
    exact ⟨_, .inl ⟨uid, here, rfl⟩⟩
  · exact ⟨_, .inr ⟨inner, rfl⟩⟩

theorem Clean.solid (clean : Clean ws) : ∀ w ∈ ws, Solid w.1 := fun w mem => (clean w mem).1

theorem Clean.node (clean : Clean ws) (node : Node ws q) : Solid q := by
  rcases node with here | inner
  · obtain ⟨uid, here⟩ := Option.isSome_iff_exists.mp here
    exact clean.solid _ (mem_of_lookup_assign here)
  · exact inner.solid clean.solid

theorem itemOf_leafEntry {uid : String} (clean : ':' ∉ uid.toList) (solid : Solid q) :
    itemOf (leafEntry q uid).2 = leafItem q uid := by
  have cut : split (leafEntry q uid).2 ":" = [uid, q, "1"] :=
    split_triple colon clean solid.colonless (by decide)
  rw [itemOf, cut]
  rfl

theorem itemOf_innerEntry (solid : Solid q) : itemOf (innerEntry q).2 = innerItem q := by
  have cut : split (innerEntry q).2 ":" = ["", q, "0"] :=
    split_triple colon (by decide) solid.colonless (by decide)
  rw [itemOf, cut]
  rfl

/-- The entries that a search goes through. -/
def scanned (ws : List (String × String)) (n : Nat) (useKey : String) : List MetricFindItem :=
  ((writeAll ws).segmentConn.scan (startsWith ("POS:" ++ n.repr ++ ":" ++ useKey))).map
    fun e => itemOf e.2

theorem isPos_of_startsWith {n : Nat} {useKey key : String}
    (start : startsWith ("POS:" ++ n.repr ++ ":" ++ useKey) key = true) : IsPos key := by
  rw [startsWith, List.isPrefixOf_iff_prefix] at start
  refine List.IsPrefix.trans ?_ start
  simp only [String.toList_append, List.append_assoc]
  exact List.prefix_append _ _

theorem mem_scanned (clean : Clean ws) {useKey : String} (free : ':' ∉ useKey.toList) {n : Nat} :
    item ∈ scanned ws n useKey ↔ ∃ q, n = (split q ".").length - 1 ∧
      useKey.toList <+: (keyText (split q ".")).toList ∧ Shown ws q item := by
  rw [scanned, List.mem_map]
  constructor
  · rintro ⟨e, mem, rfl⟩
    obtain ⟨mem, start⟩ := OrderedMap.mem_scan.mp mem
    rcases (mem_writeAll clean.solid (isPos_of_startsWith start)).mp mem with
      ⟨q, uid, here, rfl⟩ | ⟨q, inner, rfl⟩
    · obtain ⟨solid, -, noColon⟩ := clean _ (mem_of_lookup_assign here)
      obtain ⟨count, text⟩ := (startsWith_posKey free _ _).mp start
      exact ⟨q, count, text, .inl ⟨uid, here, itemOf_leafEntry noColon solid⟩⟩
    · have solid := inner.solid clean.solid
      obtain ⟨count, text⟩ := (startsWith_posKey free _ _).mp start
      exact ⟨q, count, text, .inr ⟨inner, itemOf_innerEntry solid⟩⟩
  · rintro ⟨q, count, text, shown⟩
    have start := fun flag =>
      (startsWith_posKey free n flag).mpr ⟨count, text⟩
    rcases shown with ⟨uid, here, rfl⟩ | ⟨inner, rfl⟩
    · obtain ⟨solid, -, noColon⟩ := clean _ (mem_of_lookup_assign here)
      have pos : IsPos (leafEntry q uid).1 := isPos_posKey _ _
      have mem := (mem_writeAll clean.solid pos).mpr (.inl ⟨q, uid, here, rfl⟩)
      exact ⟨_, OrderedMap.mem_scan.mpr ⟨mem, start "1"⟩, itemOf_leafEntry noColon solid⟩
    · have pos : IsPos (innerEntry q).1 := isPos_posKey _ _
      have mem := (mem_writeAll clean.solid pos).mpr (.inr ⟨q, inner, rfl⟩)
      exact ⟨_, OrderedMap.mem_scan.mpr ⟨mem, start "0"⟩,
        itemOf_innerEntry (inner.solid clean.solid)⟩

theorem nodup_scanned (clean : Clean ws) (n : Nat) (useKey : String) :
    (scanned ws n useKey).Nodup := by
  refine List.Nodup.map_on ?_ ((writeAll ws).segmentConn.nodup_entries.filter _)
  intro e mem e' mem' same
  have known : ∀ {e}, e ∈ (writeAll ws).segmentConn.scan
      (startsWith ("POS:" ++ n.repr ++ ":" ++ useKey)) →
      (∃ q uid, itemOf e.2 = leafItem q uid ∧ e = leafEntry q uid) ∨
        ∃ q, itemOf e.2 = innerItem q ∧ e = innerEntry q := by
    intro e mem
    obtain ⟨mem, start⟩ := OrderedMap.mem_scan.mp mem
    rcases (mem_writeAll clean.solid (isPos_of_startsWith start)).mp mem with
      ⟨q, uid, here, rfl⟩ | ⟨q, inner, rfl⟩
    · obtain ⟨solid, -, noColon⟩ := clean _ (mem_of_lookup_assign here)
      exact .inl ⟨q, uid, itemOf_leafEntry noColon solid, rfl⟩
    · exact .inr ⟨q, itemOf_innerEntry (inner.solid clean.solid), rfl⟩
  rcases known mem with ⟨q, uid, item, rfl⟩ | ⟨q, item, rfl⟩ <;>
    rcases known mem' with ⟨q', uid', item', rfl⟩ | ⟨q', item', rfl⟩ <;>
    have equal := item.symm.trans (same.trans item')
  · rw [show q = q' from congrArg MetricFindItem.path equal,
      show uid = uid' from congrArg MetricFindItem.uniqueId equal]
  · exact absurd (congrArg MetricFindItem.leaf equal) Nat.one_ne_zero
  · exact absurd (congrArg MetricFindItem.leaf equal) Nat.zero_ne_one
  · rw [show q = q' from congrArg MetricFindItem.path equal]

end

/-! ### Searches by name -/

/-- A search by name is for the nodes whose keys begin with the name. -/
theorem find_name {compile : String → Except String (String → Bool)} {p : String}
    (name : needRegex p = false) (ws : List (String × String)) :
    (writeAll ws).find compile p = .ok (scanned ws ((split p ".").length - 1) p) := by
  have notRoot : p ≠ "*" := by
    rintro rfl
    exact absurd name (by decide)
  rw [LevelDB.find, if_neg notRoot, findingIter, name]
  simp only [Bool.false_eq_true, if_false, pure_bind, Option.all_none, List.filter_true]
  rfl

theorem prefix_keyText_iff {p q : String} (solid : Solid q)
    (same : (split p ".").length = (split q ".").length) :
    p.toList <+: (keyText (split q ".")).toList ↔ LongStart q ∧ p.toList <+: q.toList := by
  rcases cut : split q "." with _ | ⟨first, _ | ⟨second, rest⟩⟩
  · exact absurd cut (split_ne_nil dot q)
  · have whole : keyText [first] = q := by
      rw [keyText_single, ← intercalate_split dot q, cut, String.intercalate_singleton]
    rw [whole, and_iff_right]
    intro _ _ _ more
    rw [cut] at more
    cases more
  · by_cases long : 1 < first.utf8ByteSize
    · rw [keyText_long long, ← cut, intercalate_split dot, and_iff_right]
      intro _ _ _ more
      rw [cut] at more
      cases more
      exact long
    · constructor
      · intro start
        -- the key has one dot less than the path
        have dots := start.sublist.count_le '.'
        have key := length_split dot (keyText (split q "."))
        rw [solid.parts.split_keyText, cut, keyParts, if_neg long, List.length_cons] at key
        rw [length_split dot, cut, List.length_cons, List.length_cons] at same
        omega
      · rintro ⟨long', _⟩
        exact absurd (long' _ _ _ cut) long

/-! ### Searches by pattern -/

/-- A pattern whose first two segments are without stars has a longer first one than a byte. -/
def LeadsFar (p : String) : Prop :=
  ∀ first second rest, split p "." = first :: second :: rest → '*' ∉ first.toList →
    '*' ∉ second.toList → 1 < first.utf8ByteSize

theorem longChunk_eq {done segs : List String} (filled : ∀ part ∈ done ++ segs, part ≠ "")
    (pattern : ∃ seg ∈ segs, needRegex seg = true) :
    longChunk (String.intercalate "." done) segs =
      some (String.intercalate "." (done ++ segs.takeWhile fun seg => !needRegex seg)) := by
  induction segs generalizing done with
  | nil =>
    obtain ⟨_, mem, _⟩ := pattern
    cases mem
  | cons seg segs ih =>
    rw [longChunk, List.takeWhile_cons]
    by_cases here : needRegex seg = true
    · simp [here]
    · have there : (!needRegex seg) = true := by simpa using here
      rw [if_neg here, if_pos there]
      have joined : (if 0 < (String.intercalate "." done).utf8ByteSize then
          String.intercalate "." done ++ "." else String.intercalate "." done) ++ seg =
            String.intercalate "." (done ++ [seg]) := by
        rcases done with _ | ⟨first, done⟩
        · simp
        · have size : 0 < (String.intercalate "." (first :: done)).utf8ByteSize := by
            have first' := mt String.utf8ByteSize_eq_zero_iff.mp (filled first (by simp))
            rcases done with _ | ⟨second, done⟩
            · rw [String.intercalate_singleton]
              omega
            · rw [String.intercalate_cons_cons, String.utf8ByteSize_append,
                String.utf8ByteSize_append]
              omega
          rw [if_pos size, intercalate_concat _ (List.cons_ne_nil _ _)]
      have filled' : ∀ part ∈ done ++ [seg] ++ segs, part ≠ "" := by simpa using filled
      have later := ih filled' (by simpa [here] using pattern)
      rw [joined, later, List.append_assoc, List.singleton_append]

theorem prefix_intercalate {lead parts : List String} (start : lead <+: parts) :
    (String.intercalate "." lead).toList <+: (String.intercalate "." parts).toList := by
  obtain ⟨rest, rfl⟩ := start
  rcases lead with _ | ⟨first, lead⟩
  · exact List.nil_prefix
  · rcases rest with _ | ⟨second, rest⟩
    · rw [List.append_nil]
    · rw [String.intercalate_append_of_ne_nil (List.cons_ne_nil _ _) (List.cons_ne_nil _ _),
        String.toList_append, String.toList_append, List.append_assoc]
      exact List.prefix_append _ _

theorem prefix_keyText (first : String) (parts : List String) :
    first.toList <+: (keyText (first :: parts)).toList := by
  rw [keyText, List.foldl_cons, growPart_empty]
  induction parts using List.reverseRecOn with
  | nil => exact List.prefix_rfl
  | append_singleton parts part ih =>
    rw [List.foldl_append, List.foldl_cons, List.foldl_nil, growPart]
    split_ifs
    · rw [String.toList_append, String.toList_append, List.append_assoc]
      exact ih.trans (List.prefix_append _ _)
    · rw [String.toList_append]
      exact ih.trans (List.prefix_append _ _)

theorem takeWhile_prefix {ps qs : List String}
    (starred : ∀ seg ∈ ps, needRegex seg = true ↔ '*' ∈ seg.toList)
    (matched : List.Forall₂ (fun p s => matchSegment p.toList s.toList = true) ps qs) :
    (ps.takeWhile fun seg => !needRegex seg) <+: qs := by
  induction matched with
  | nil => exact List.prefix_rfl
  | @cons p s ps qs here _ ih =>
    obtain ⟨own, starred⟩ := List.forall_mem_cons.mp starred
    rw [List.takeWhile_cons]
    split_ifs with plain
    · have starless : '*' ∉ p.toList := by
        rw [← own]
        simpa using plain
      rw [String.toList_inj.mp (matchSegment_of_starless starless here)]
      exact List.cons_prefix_cons.mpr ⟨rfl, ih starred⟩
    · exact List.nil_prefix

/-- The start of a search is before the nodes that match, unless their keys lack its first dot. -/
theorem prefix_chunk_iff {p q : String} (glob : GlobPattern p) (matched : Matches p q) :
    (String.intercalate "." ((split p ".").takeWhile fun seg => !needRegex seg)).toList <+:
      (keyText (split q ".")).toList ↔ LeadsFar p := by
  have starred : ∀ seg ∈ split p ".", needRegex seg = true ↔ '*' ∈ seg.toList :=
    fun _ mem => glob.needRegex_segment mem
  have start := takeWhile_prefix starred matched
  have some := glob.segments
  have dotless : ∀ part ∈ split p ".", '.' ∉ part.toList := fun _ mem => notMem_of_mem_split dot mem
  have same : ∀ {p q : String}, matchSegment p.toList q.toList = true → '*' ∉ p.toList → q = p :=
    fun matched starless => String.toList_inj.mp (matchSegment_of_starless starless matched)
  rw [Matches] at matched
  rw [LeadsFar]
  generalize split p "." = ps at *
  generalize split q "." = qs at *
  have skip : ∀ {seg segs}, '*' ∈ seg.toList → seg ∈ ps →
      ((seg :: segs).takeWhile fun seg => !needRegex seg) = [] := by
    intro seg segs star mem
    rw [List.takeWhile_cons, (starred seg mem).mpr star]
    rfl
  have take : ∀ {seg segs}, '*' ∉ seg.toList → seg ∈ ps →
      ((seg :: segs).takeWhile fun seg => !needRegex seg) =
        seg :: segs.takeWhile fun seg => !needRegex seg := by
    intro seg segs starless mem
    have plain : (!needRegex seg) = true := by simpa using mt (starred seg mem).mp starless
    rw [List.takeWhile_cons, if_pos plain]
  rcases matched with _ | ⟨here, matched⟩
  · simp
  rename_i first first' ps qs
  by_cases star : '*' ∈ first.toList
  · rw [skip star (by simp)]
    refine iff_of_true List.nil_prefix ?_
    rintro _ _ _ ⟨⟩ starless
    exact absurd star starless
  obtain rfl := same here star
  rcases matched with _ | ⟨here', matched⟩
  · rw [take star (by simp), List.takeWhile_nil, keyText_single, String.intercalate_singleton]
    refine iff_of_true List.prefix_rfl ?_
    rintro _ _ _ ⟨⟩
  rename_i second second' ps qs
  by_cases star' : '*' ∈ second.toList
  · rw [take star (by simp), skip star' (by simp), String.intercalate_singleton]
    refine iff_of_true (prefix_keyText _ _) ?_
    rintro _ _ _ ⟨⟩ _ starless
    exact absurd star' starless
  obtain rfl := same here' star'
  by_cases long : 1 < first'.utf8ByteSize
  · rw [keyText_long long]
    refine iff_of_true (prefix_intercalate start) ?_
    rintro _ _ _ ⟨⟩ _ _
    exact long
  · refine iff_of_false ?_ fun far => long (far _ _ _ rfl star star')
    rw [take star (by simp), take star' (by simp), String.intercalate_cons_cons,
      keyText_short long (some _ (by simp)) (some _ (by simp))]
    obtain ⟨tail, joined⟩ : (first' ++ second').toList <+:
        (String.intercalate "." ((first' ++ second') :: qs)).toList := by
      have alone : [first' ++ second'] <+: (first' ++ second') :: qs := ⟨qs, rfl⟩
      simpa using prefix_intercalate alone
    rw [← joined, String.toList_append, String.toList_append, String.toList_append,
      List.append_assoc,
      List.append_assoc, List.prefix_append_right_inj, dot, List.singleton_append]
    intro dotted
    rcases chars : second'.toList with _ | ⟨c, cs⟩
    · exact some _ (by simp) (String.toList_eq_nil_iff.mp chars)
    · rw [chars, List.cons_append] at dotted
      have first : '.' = c := (List.cons_prefix_cons.mp dotted).1
      exact dotless second' (by simp) (by simp [chars, ← first])

/-- A search by pattern is for the nodes on one line that match, if their keys begin as it does. -/
theorem find_pattern {compile : String → Except String (String → Bool)}
    (documented : Documented compile) {p : String} (glob : GlobPattern p) (notRoot : p ≠ "*")
    (colonless : ':' ∉ p.toList) {ws : List (String × String)} (clean : Clean ws) :
    ∃ items, (writeAll ws).find compile p = .ok items ∧ items.Nodup ∧ ∀ item, item ∈ items ↔
      ∃ q, Matches p q ∧ '\n' ∉ q.toList ∧ LeadsFar p ∧ Shown ws q item := by
  obtain ⟨reg, compiled, accepts⟩ := glob.compiled documented
  have chunk : longChunk "" (split p ".") =
      some (String.intercalate "." ((split p ".").takeWhile fun seg => !needRegex seg)) := by
    have pattern : ∃ seg ∈ split p ".", needRegex seg = true := by
      obtain ⟨seg, mem, star⟩ := exists_mem_split dot (by decide) glob.star
      exact ⟨seg, mem, (glob.needRegex_segment mem).mpr star⟩
    have filled : ∀ part ∈ [] ++ split p ".", part ≠ "" := glob.segments
    exact longChunk_eq filled pattern
  have free : ':' ∉ (String.intercalate "."
      ((split p ".").takeWhile fun seg => !needRegex seg)).toList := by
    have start := prefix_intercalate
      (List.takeWhile_prefix (l := split p ".") fun seg => !needRegex seg)
    rw [intercalate_split dot] at start
    exact fun mem => colonless (start.subset mem)
  have found : (writeAll ws).find compile p =
      .ok ((scanned ws ((split p ".").length - 1) (String.intercalate "."
        ((split p ".").takeWhile fun seg => !needRegex seg))).filter fun item => reg item.path) := by
    rw [LevelDB.find, if_neg notRoot, findingIter, glob.needRegex]
    simp only [if_true, compiled, chunk]
    rfl
  refine ⟨_, found, (nodup_scanned clean _ _).filter _, fun item => ?_⟩
  rw [List.mem_filter, mem_scanned clean free]
  have some := List.length_pos_of_ne_nil (split_ne_nil dot p)
  constructor
  · rintro ⟨⟨q, count, start, shown⟩, accepted⟩
    rw [shown.path] at accepted
    have some' := List.length_pos_of_ne_nil (split_ne_nil dot q)
    obtain ⟨matched, oneLine⟩ := (accepts q (by omega)).mp accepted
    exact ⟨q, matched, oneLine, (prefix_chunk_iff glob matched).mp start, shown⟩
  · rintro ⟨q, matched, oneLine, far, shown⟩
    have same := matched.length_eq
    rw [shown.path]
    exact ⟨⟨q, by omega, (prefix_chunk_iff glob matched).mpr far, shown⟩,
      (accepts q same).mpr ⟨matched, oneLine⟩⟩

/-! ### Exact searches -/

/-- The nodes that are asked for, by name or by pattern. -/
def Asked (p q : String) : Prop := if needRegex p then Matches p q else q = p

/-- What can be asked for: a name, or a pattern that is not the star alone. -/
inductive Query : String → Prop
  | name {p : String} (solid : Solid p) (plain : needRegex p = false) : Query p
  | pattern {p : String} (glob : GlobPattern p) (notRoot : p ≠ "*") (colonless : ':' ∉ p.toList) :
      Query p

/-- A search returns the nodes asked for, each once for the leaf and once for what goes on from
it, and nothing else. -/
def FindsExactly (compile : String → Except String (String → Bool)) (ws : List (String × String))
    (p : String) : Prop :=
  ∃ items, (writeAll ws).find compile p = .ok items ∧ items.Nodup ∧
    ∀ item, item ∈ items ↔ ∃ q, Asked p q ∧ Shown ws q item

/-- By name: the node has no first part of one byte before its others, and no other node with as
many parts goes on from its text, unless by such a first part. By pattern: the nodes that match are
on one line, and the pattern does not start with a segment of one byte and another one without
stars. -/
def Apart (ws : List (String × String)) (p : String) : Prop :=
  if needRegex p then ∀ q, Node ws q → Matches p q → LeadsFar p ∧ '\n' ∉ q.toList
  else (Node ws p → LongStart p) ∧ ∀ q, Node ws q → (split p ".").length = (split q ".").length →
    LongStart q → p.toList <+: q.toList → q = p

/-- Searches find what is asked for just when it is apart. -/
theorem findsExactly_iff {compile : String → Except String (String → Bool)}
    (documented : Documented compile) {ws : List (String × String)} (clean : Clean ws) {p : String}
    (query : Query p) : FindsExactly compile ws p ↔ Apart ws p := by
  rcases query with ⟨solid, plain⟩ | ⟨glob, notRoot, colonless⟩
  · have some := List.length_pos_of_ne_nil (split_ne_nil dot p)
    have found : ∀ item, item ∈ scanned ws ((split p ".").length - 1) p ↔
        ∃ q, (split p ".").length = (split q ".").length ∧ LongStart q ∧ p.toList <+: q.toList ∧
          Shown ws q item := by
      intro item
      rw [mem_scanned clean solid.colonless]
      refine exists_congr fun q => ?_
      have some' := List.length_pos_of_ne_nil (split_ne_nil dot q)
      constructor
      · rintro ⟨count, start, shown⟩
        have count' : (split p ".").length = (split q ".").length := by omega
        obtain ⟨long, start⟩ := (prefix_keyText_iff (clean.node shown.node) count').mp start
        exact ⟨count', long, start, shown⟩
      · rintro ⟨count, long, start, shown⟩
        exact ⟨by omega,
          (prefix_keyText_iff (clean.node shown.node) count).mpr ⟨long, start⟩, shown⟩
    simp only [FindsExactly, find_name plain, Asked, Apart, plain, Bool.false_eq_true, if_false,
      exists_eq_left, Except.ok.injEq, exists_eq_left']
    rw [and_iff_right (nodup_scanned clean _ _)]
    constructor
    · intro exact
      refine ⟨fun node => ?_, fun q node count long start => ?_⟩
      · obtain ⟨item, shown⟩ := node.shown
        obtain ⟨q, -, long, -, shown'⟩ := (found item).mp ((exact item).mpr shown)
        exact shown.path.symm.trans shown'.path ▸ long
      · obtain ⟨item, shown⟩ := node.shown
        have shown' := (exact item).mp ((found item).mpr ⟨q, count, long, start, shown⟩)
        exact shown.path.symm.trans shown'.path
    · rintro ⟨long, alone⟩ item
      rw [found]
      constructor
      · rintro ⟨q, count, long', start, shown⟩
        exact alone q shown.node count long' start ▸ shown
      · intro shown
        exact ⟨p, rfl, long shown.node, List.prefix_rfl, shown⟩
  · obtain ⟨items, found, nodup, listed⟩ := find_pattern documented glob notRoot colonless clean
    simp only [FindsExactly, found, Asked, Apart, glob.needRegex, if_true, Except.ok.injEq,
      exists_eq_left', listed]
    rw [and_iff_right nodup]
    constructor
    · intro exact q node matched
      obtain ⟨item, shown⟩ := node.shown
      obtain ⟨q', -, oneLine, far, shown'⟩ := (exact item).mpr ⟨q, matched, shown⟩
      exact ⟨far, shown.path.symm.trans shown'.path ▸ oneLine⟩
    · intro apart item
      refine exists_congr fun q => ?_
      constructor
      · rintro ⟨matched, -, -, shown⟩
        exact ⟨matched, shown⟩
      · rintro ⟨matched, shown⟩
        obtain ⟨far, oneLine⟩ := apart q shown.node matched
        exact ⟨matched, oneLine, far, shown⟩

/-- A pattern after two writes. -/
theorem findsExactly_iff_pattern :
    Clean [("ab.web", "u"), ("ab.db.cpu", "v")] ∧ Query "ab.*" ∧
      (FindsExactly compileTokens [("ab.web", "u"), ("ab.db.cpu", "v")] "ab.*" ↔
        Apart [("ab.web", "u"), ("ab.db.cpu", "v")] "ab.*") := by
  have clean : Clean [("ab.web", "u"), ("ab.db.cpu", "v")] := by
    refine List.forall_mem_cons.mpr ⟨⟨⟨by decide, by decide⟩, by decide, by decide⟩, ?_⟩
    exact List.forall_mem_singleton.mpr ⟨⟨by decide, by decide⟩, by decide, by decide⟩
  have glob : GlobPattern "ab.*" := ⟨by simp [plain], by decide, by decide⟩
  have query : Query "ab.*" := .pattern glob (by decide) (by decide)
  exact ⟨clean, query, findsExactly_iff documented_compileTokens clean query⟩

/-- A search for a path also returns the paths that its text begins. -/
theorem not_findsExactly_longer :
    ¬ FindsExactly compileTokens [("ab.cd", "u"), ("ab.cde", "v")] "ab.cd" := by
  have clean : Clean [("ab.cd", "u"), ("ab.cde", "v")] := by
    refine List.forall_mem_cons.mpr ⟨⟨⟨by decide, by decide⟩, by decide, by decide⟩, ?_⟩
    exact List.forall_mem_singleton.mpr ⟨⟨by decide, by decide⟩, by decide, by decide⟩
  rintro ⟨items, found, -, exact⟩
  rw [find_name (by decide)] at found
  cases found
  have shown : Shown [("ab.cd", "u"), ("ab.cde", "v")] "ab.cde" (leafItem "ab.cde" "v") :=
    .inl ⟨"v", by decide, rfl⟩
  have free : ':' ∉ "ab.cd".toList := by decide
  have mem := (mem_scanned clean free (n := 1)).mpr ⟨"ab.cde", by decide, by decide, shown⟩
  obtain ⟨q, asked, shown'⟩ := (exact _).mp mem
  have same : q = "ab.cd" := asked
  have other : q = "ab.cde" := shown'.path.symm
  exact absurd (same.symm.trans other) (by decide)

end LevelDBIndex
