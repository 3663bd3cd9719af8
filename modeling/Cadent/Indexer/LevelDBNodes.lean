import Cadent.Indexer.LevelDB
import Cadent.Lib.Maps
import Cadent.Lib.Words

/-!
# What the segment database has

A path that was written has an entry of its own with its uid, and each of its beginnings has one
without. The position and the text in the key of an entry tell which beginning it is of, also for
a path whose first part is a single byte and whose text lacks the first dot.
-/

namespace LevelDBIndex

open Indexer Maps Ordered Text

theorem dot : (".").toList = ['.'] := rfl

theorem colon : (":").toList = [':'] := rfl

/-! ### Keys -/

/-- The text of a beginning in its key. -/
def keyText (parts : List String) : String := parts.foldl growPart ""

def posKey (parts : List String) (flag : String) : String :=
  "POS:" ++ (parts.length - 1).repr ++ ":" ++ keyText parts ++ ":" ++ flag

theorem keyText_concat (parts : List String) (part : String) :
    keyText (parts ++ [part]) = growPart (keyText parts) part := by
  rw [keyText, List.foldl_append]
  rfl

theorem foldl_growPart_long {curPart : String} (long : 1 < curPart.utf8ByteSize)
    (parts : List String) :
    parts.foldl growPart curPart = String.intercalate "." (curPart :: parts) := by
  induction parts generalizing curPart with
  | nil => simp
  | cons part parts ih =>
    have longer : 1 < (curPart ++ "." ++ part).utf8ByteSize := by
      simp only [String.utf8ByteSize_append]
      omega
    rw [List.foldl_cons, growPart_long long, ih longer, String.intercalate_cons_append,
      String.intercalate_cons_cons]

theorem keyText_single (first : String) : keyText [first] = first := growPart_empty first

theorem keyText_long {first : String} (long : 1 < first.utf8ByteSize) (parts : List String) :
    keyText (first :: parts) = String.intercalate "." (first :: parts) := by
  rw [keyText, List.foldl_cons, growPart_empty, foldl_growPart_long long]

/-- After a single byte the first dot is missing. -/
theorem keyText_short {first second : String} (short : ¬ 1 < first.utf8ByteSize)
    (some : first ≠ "") (some' : second ≠ "") (parts : List String) :
    keyText (first :: second :: parts) = String.intercalate "." ((first ++ second) :: parts) := by
  have pos : 0 < first.utf8ByteSize :=
      Nat.pos_of_ne_zero (mt String.utf8ByteSize_eq_zero_iff.mp some)
  have pos' : 0 < second.utf8ByteSize :=
    Nat.pos_of_ne_zero (mt String.utf8ByteSize_eq_zero_iff.mp some')
  have long : 1 < (first ++ second).utf8ByteSize := by
    rw [String.utf8ByteSize_append]
    omega
  rw [keyText, List.foldl_cons, growPart_empty, List.foldl_cons, growPart, if_neg short,
    foldl_growPart_long long]

theorem mem_keyText {parts : List String} {c : Char} (mem : c ∈ (keyText parts).toList) :
    c = '.' ∨ ∃ part ∈ parts, c ∈ part.toList := by
  induction parts using List.reverseRecOn with
  | nil => simp [keyText] at mem
  | append_singleton parts part ih =>
    have old (mem : c ∈ (keyText parts).toList) :
        c = '.' ∨ ∃ part' ∈ parts ++ [part], c ∈ part'.toList :=
      (ih mem).imp_right fun ⟨p, listed, inside⟩ => ⟨p, List.mem_append_left _ listed, inside⟩
    rw [keyText_concat, growPart] at mem
    split_ifs at mem
    · rw [String.toList_append, String.toList_append, dot, List.mem_append, List.mem_append,
        List.mem_singleton] at mem
      rcases mem with (mem | here) | last
      · exact old mem
      · exact .inl here
      · exact .inr ⟨part, by simp, last⟩
    · rw [String.toList_append, List.mem_append] at mem
      rcases mem with mem | last
      · exact old mem
      · exact .inr ⟨part, by simp, last⟩

theorem toList_of_short {text : String} (short : ¬ 1 < text.utf8ByteSize) (some : text ≠ "") :
    ∃ c, text.toList = [c] := by
  rcases chars : text.toList with _ | ⟨c, _ | ⟨d, rest⟩⟩
  · exact absurd (String.toList_eq_nil_iff.mp chars) some
  · exact ⟨c, rfl⟩
  · have whole : text = String.singleton c ++ String.singleton d ++ String.ofList rest := by
      apply String.toList_inj.mp
      simp [chars]
    have size := congrArg String.utf8ByteSize whole
    simp only [String.utf8ByteSize_append, String.utf8ByteSize_singleton] at size
    have := c.utf8Size_pos
    have := d.utf8Size_pos
    omega

/-- The parts of a beginning are not empty and have neither dots nor colons in them. -/
structure Parts (parts : List String) : Prop where
  ne_nil : parts ≠ []
  some : ∀ part ∈ parts, part ≠ ""
  dotless : ∀ part ∈ parts, '.' ∉ part.toList
  colonless : ∀ part ∈ parts, ':' ∉ part.toList

theorem Parts.notMem_keyText {parts : List String} (ok : Parts parts) :
    ':' ∉ (keyText parts).toList := by
  intro mem
  rcases mem_keyText mem with dot | ⟨part, listed, inside⟩
  · cases dot
  · exact ok.colonless part listed inside

/-- The parts that are told apart by dots in a key. -/
def keyParts : List String → List String
  | first :: second :: parts =>
    if 1 < first.utf8ByteSize then first :: second :: parts else (first ++ second) :: parts
  | parts => parts

theorem Parts.split_keyText {parts : List String} (ok : Parts parts) :
    split (keyText parts) "." = keyParts parts := by
  rcases parts with _ | ⟨first, _ | ⟨second, parts⟩⟩
  · exact absurd rfl ok.ne_nil
  · rw [keyText_single]
    exact split_intercalate dot ok.ne_nil ok.dotless
  · rw [keyParts]
    have free := List.forall_mem_cons.mp ok.dotless
    have free' := List.forall_mem_cons.mp free.2
    split_ifs with long
    · rw [keyText_long long, split_intercalate dot ok.ne_nil ok.dotless]
    · rw [keyText_short long (ok.some _ (by simp)) (ok.some _ (by simp)),
        split_intercalate dot (List.cons_ne_nil _ _)]
      refine List.forall_mem_cons.mpr ⟨?_, free'.2⟩
      rw [String.toList_append, List.mem_append, not_or]
      exact ⟨free.1, free'.1⟩

/-- As many parts with the same text are the same. -/
theorem Parts.eq_of_keyText {parts parts' : List String} (ok : Parts parts) (ok' : Parts parts')
    (length : parts.length = parts'.length) (same : keyText parts = keyText parts') :
    parts = parts' := by
  have cut := congrArg (split · ".") same
  simp only [ok.split_keyText, ok'.split_keyText] at cut
  rcases parts with _ | ⟨first, _ | ⟨second, parts⟩⟩
  · exact absurd rfl ok.ne_nil
  · obtain ⟨first', rfl⟩ := List.length_eq_one_iff.mp length.symm
    exact cut
  · rcases parts' with _ | ⟨first', _ | ⟨second', parts'⟩⟩
    · cases length
    · cases length
    · have lengths := congrArg List.length cut
      simp only [keyParts] at cut lengths
      simp only [List.length_cons] at length
      split_ifs at cut lengths with long long' long'
      · exact cut
      · simp only [List.length_cons] at lengths
        omega
      · simp only [List.length_cons] at lengths
        omega
      · obtain ⟨start, rest⟩ := List.cons.inj cut
        obtain ⟨c, one⟩ := toList_of_short long (ok.some _ (by simp))
        obtain ⟨c', one'⟩ := toList_of_short long' (ok'.some _ (by simp))
        have chars := congrArg String.toList start
        rw [String.toList_append, String.toList_append, one, one'] at chars
        obtain ⟨rfl, tail⟩ := List.cons.inj chars
        rw [String.toList_inj.mp (one.trans one'.symm), String.toList_inj.mp tail, rest]

theorem colon_notMem_repr (n : Nat) : ':' ∉ n.repr.toList := notMem_repr (by decide) n

theorem Parts.posKey_inj {parts parts' : List String} (ok : Parts parts) (ok' : Parts parts')
    {flag flag' : String} (clean : ':' ∉ flag.toList) (clean' : ':' ∉ flag'.toList)
    (same : posKey parts flag = posKey parts' flag') : parts = parts' ∧ flag = flag' := by
  have pieces : ∀ {parts : List String} {flag : String}, Parts parts → ':' ∉ flag.toList →
      split (posKey parts flag) ":" =
        ["POS", (parts.length - 1).repr, keyText parts, flag] := by
    intro parts flag ok clean
    have whole : posKey parts flag = String.intercalate ":"
        ["POS", (parts.length - 1).repr, keyText parts, flag] := rfl
    rw [whole]
    refine split_intercalate colon (List.cons_ne_nil _ _) ?_
    simp only [List.forall_mem_cons]
    exact ⟨by decide, colon_notMem_repr _, ok.notMem_keyText, clean, by simp⟩
  have cut := congrArg (split · ":") same
  simp only [pieces ok clean, pieces ok' clean', List.cons.injEq, true_and, and_true] at cut
  obtain ⟨number, text, flags⟩ := cut
  have pos := List.length_pos_of_ne_nil ok.ne_nil
  have pos' := List.length_pos_of_ne_nil ok'.ne_nil
  have length := congrArg (fun text => digitsValue text.toList) number
  simp only [Nat.toList_repr, digitsValue_toDigits] at length
  exact ⟨ok.eq_of_keyText ok' (by omega) text, flags⟩

/-! ### Segments of a path -/

theorem parsePathLoop_eq (statKey id : String) (n : Nat) {done : List String} (some : done ≠ [])
    (parts : List String) :
    parsePathLoop statKey id n done.length (keyText done) (String.intercalate "." done) parts =
      (List.range parts.length).map fun i => ⟨done.length + i, n - 1,
        keyText (done ++ parts.take (i + 1)), String.intercalate "." (done ++ parts.take (i + 1)),
        statKey, id⟩ := by
  induction parts generalizing done with
  | nil => rfl
  | cons part parts ih =>
    have grown : done ++ [part] ≠ [] := by simp
    have later := ih grown
    rw [List.length_append, List.length_singleton, keyText_concat,
      intercalate_concat _ some] at later
    rw [parsePathLoop, if_pos (List.length_pos_of_ne_nil some), later, List.length_cons,
      List.range_succ_eq_map, List.map_cons, List.map_map]
    congr 1
    · simp [keyText_concat, intercalate_concat _ some]
    · refine List.map_congr_left fun i _ => ?_
      simp only [Function.comp_apply, List.take_succ_cons, List.append_assoc, List.singleton_append,
        Nat.succ_eq_add_one]
      congr 1
      omega

/-- The segments of a path are its beginnings. -/
theorem parsePath_eq (statKey id : String) :
    parsePath statKey id = (List.range (split statKey ".").length).map fun i =>
      ⟨i, (split statKey ".").length - 1, keyText ((split statKey ".").take (i + 1)),
        String.intercalate "." ((split statKey ".").take (i + 1)), statKey, id⟩ := by
  rw [parsePath]
  rcases cut : split statKey "." with _ | ⟨first, parts⟩
  · exact absurd cut (split_ne_nil dot statKey)
  · have later := parsePathLoop_eq statKey id (parts.length + 1) (List.cons_ne_nil first []) parts
    rw [List.length_singleton, keyText_single, String.intercalate_singleton] at later
    simp only [List.headD_cons, List.length_cons]
    rw [parsePathLoop, growPart_empty, if_neg (Nat.lt_irrefl 0), later, List.range_succ_eq_map,
      List.map_cons, List.map_map]
    refine congrArg₂ List.cons (by simp [keyText_single]) (List.map_congr_left fun i _ => ?_)
    simp only [Function.comp_apply, List.take_succ_cons, List.singleton_append,
      Nat.succ_eq_add_one, Nat.add_comm 1 i]

/-! ### What is written -/

/-- A path without colons, and no part of it is empty. -/
structure Solid (path : String) : Prop where
  some : ∀ part ∈ split path ".", part ≠ ""
  colonless : ':' ∉ path.toList

theorem Solid.parts {path : String} (solid : Solid path) : Parts (split path ".") :=
  ⟨split_ne_nil dot path, solid.some, fun _ => notMem_of_mem_split dot,
    fun _ listed inside => solid.colonless (mem_of_mem_split dot listed inside)⟩

/-- A path goes on from a beginning. -/
def Below (q path : String) : Prop := split q "." <+: split path "." ∧ q ≠ path

theorem Solid.of_below {q path : String} (solid : Solid path) (below : Below q path) : Solid q := by
  refine ⟨fun part mem => solid.some part (below.1.subset mem), fun mem => ?_⟩
  obtain ⟨part, listed, inside⟩ := exists_mem_split dot (by decide) mem
  exact solid.colonless (mem_of_mem_split dot (below.1.subset listed) inside)

def leafEntry (q uid : String) : String × String :=
  (posKey (split q ".") "1", uid ++ ":" ++ q ++ ":" ++ "1")

def innerEntry (q : String) : String × String :=
  (posKey (split q ".") "0", "" ++ ":" ++ q ++ ":" ++ "0")

theorem split_beginning (path : String) {k : Nat} (some : 0 < k) :
    split (String.intercalate "." ((split path ".").take k)) "." = (split path ".").take k := by
  have length := List.length_pos_of_ne_nil (split_ne_nil dot path)
  refine split_intercalate dot ?_ fun part mem => notMem_of_mem_split dot (List.mem_of_mem_take mem)
  exact List.ne_nil_of_length_pos (by rw [List.length_take]; omega)

theorem beginning_eq_iff (path : String) {k : Nat} (some : 0 < k) :
    String.intercalate "." ((split path ".").take k) = path ↔ (split path ".").length ≤ k := by
  rw [← split_inj dot, split_beginning path some, List.take_eq_self_iff]

theorem posSegmentData_eq {path : String} (uid : String) {i : Nat}
    (lt : i < (split path ".").length) : LevelDBSegment.posSegmentData
      ⟨i, (split path ".").length - 1, keyText ((split path ".").take (i + 1)),
        String.intercalate "." ((split path ".").take (i + 1)), path, uid⟩ =
      if i + 1 = (split path ".").length then leafEntry path uid
      else innerEntry (String.intercalate "." ((split path ".").take (i + 1))) := by
  have last : String.intercalate "." ((split path ".").take (i + 1)) = path ↔
      i + 1 = (split path ".").length := by
    rw [beginning_eq_iff path i.succ_pos]
    omega
  have pos : ((split path ".").take (i + 1)).length - 1 = i := by
    rw [List.length_take]
    omega
  simp only [LevelDBSegment.posSegmentData, LevelDBSegment.posSegmentKey, LevelDBSegment.flag, last]
  split_ifs with here
  · have all : (split path ".").take (i + 1) = split path "." := List.take_of_length_le (by omega)
    rw [all, intercalate_split dot, leafEntry, posKey, ← here, Nat.add_sub_cancel]
  · rw [innerEntry, posKey, split_beginning path i.succ_pos, pos]

theorem mem_posSegmentData {path uid : String} {e : String × String} :
    e ∈ (parsePath path uid).map LevelDBSegment.posSegmentData ↔
      e = leafEntry path uid ∨ ∃ q, Below q path ∧ e = innerEntry q := by
  have some := List.length_pos_of_ne_nil (split_ne_nil dot path)
  rw [parsePath_eq, List.map_map, List.mem_map]
  constructor
  · rintro ⟨i, mem, rfl⟩
    have lt := List.mem_range.mp mem
    rw [Function.comp_apply, posSegmentData_eq uid lt]
    split_ifs with last
    · exact .inl rfl
    · refine .inr ⟨_, ⟨?_, fun same => ?_⟩, rfl⟩
      · rw [split_beginning path i.succ_pos]
        exact List.take_prefix _ _
      · have le := (beginning_eq_iff path i.succ_pos).mp same
        omega
  · rintro (rfl | ⟨q, below, rfl⟩)
    · refine ⟨(split path ".").length - 1, List.mem_range.mpr (by omega), ?_⟩
      rw [Function.comp_apply, posSegmentData_eq uid (by omega), if_pos (by omega)]
    · have le := below.1.length_le
      have some' := List.length_pos_of_ne_nil (split_ne_nil dot q)
      have taken := List.prefix_iff_eq_take.mp below.1
      have ne : (split q ".").length ≠ (split path ".").length := fun same =>
        below.2 ((split_inj dot).mp (below.1.eq_of_length same))
      refine ⟨(split q ".").length - 1, List.mem_range.mpr (by omega), ?_⟩
      rw [Function.comp_apply, posSegmentData_eq uid (by omega), if_neg (by omega),
        Nat.sub_add_cancel some', ← taken, intercalate_split dot]

/-! ### What is there -/

theorem mem_write {db : DB} {batch : List (String × String)} {e : String × String}
    (agree : ∀ a ∈ batch, a.1 = e.1 → ∀ b ∈ batch, b.1 = e.1 → a = b) :
    e ∈ (db.write batch).entries ↔
      e ∈ batch ∨ (∀ b ∈ batch, b.1 ≠ e.1) ∧ e ∈ db.entries := by
  induction batch using List.reverseRecOn with
  | nil => simp [DB.write]
  | append_singleton batch b ih =>
    have step : (db.write (batch ++ [b])) = (db.write batch).put b.1 b.2 := by
      rw [DB.write, List.foldl_append]
      rfl
    rw [step, OrderedMap.mem_put, ih fun a mem same a' mem' => agree a (List.mem_append_left _ mem)
      same a' (List.mem_append_left _ mem')]
    simp only [List.mem_append, List.mem_singleton, or_imp, forall_and, forall_eq]
    constructor
    · rintro (rfl | ⟨ne, old | ⟨fresh, old⟩⟩)
      · exact .inl (.inr rfl)
      · exact .inl (.inl old)
      · exact .inr ⟨⟨fresh, Ne.symm ne⟩, old⟩
    · rintro ((mem | rfl) | ⟨⟨fresh, ne⟩, old⟩)
      · by_cases same : e.1 = b.1
        · exact .inl (agree e (by simp [mem]) rfl b (by simp) same.symm)
        · exact .inr ⟨same, .inl mem⟩
      · exact .inl rfl
      · exact .inr ⟨Ne.symm ne, .inr ⟨fresh, old⟩⟩

/-- The key of a beginning. -/
def IsPos (key : String) : Prop := "POS:".toList <+: key.toList

theorem isPos_posKey (parts : List String) (flag : String) : IsPos (posKey parts flag) := by
  rw [IsPos, posKey]
  simp only [String.toList_append, List.append_assoc]
  exact List.prefix_append _ _

theorem segmentConn_writeOne (db : LevelDB) (path uid : String) :
    (writeOne db path uid).segmentConn =
      db.segmentConn.write ((parsePath path uid).flatMap LevelDBSegment.insertAllIntoBatch) := by
  rw [writeOne]
  generalize parsePath path uid = segs
  induction segs generalizing db with
  | nil => rfl
  | cons seg segs ih =>
    rw [List.foldl_cons, ih, List.flatMap_cons, DB.write, DB.write, List.foldl_append]
    rfl

/-- Of the other two entries, one has a key of another kind and the other the path as its key. -/
theorem mem_insertAll_iff {path uid : String} (solid : Solid path) {e : String × String}
    (pos : IsPos e.1) : e ∈ (parsePath path uid).flatMap LevelDBSegment.insertAllIntoBatch ↔
      e ∈ (parsePath path uid).map LevelDBSegment.posSegmentData := by
  rw [List.mem_flatMap, List.mem_map]
  refine exists_congr fun seg => and_congr_right fun mem => ?_
  rw [LevelDBSegment.insertAllIntoBatch, List.mem_append, List.mem_singleton,
    @eq_comm _ seg.posSegmentData]
  refine or_iff_right fun other => ?_
  split_ifs at other
  · rcases List.mem_cons.mp other with rfl | other
    · have start := pos
      rw [IsPos, LevelDBSegment.segmentData, LevelDBSegment.segmentKey] at start
      simp [List.cons_prefix_cons] at start
    · obtain rfl := List.mem_singleton.mp other
      rw [parsePath_eq, List.mem_map] at mem
      obtain ⟨i, _, rfl⟩ := mem
      exact solid.colonless (pos.subset (by decide))
  · cases other

theorem innerEntry_inj {q q' : String} (solid : Solid q) (solid' : Solid q')
    (same : (innerEntry q).1 = (innerEntry q').1) : q = q' :=
  (split_inj dot).mp (solid.parts.posKey_inj solid'.parts (by decide) (by decide) same).1

theorem leafEntry_inj {q q' uid uid' : String} (solid : Solid q) (solid' : Solid q')
    (same : (leafEntry q uid).1 = (leafEntry q' uid').1) : q = q' :=
  (split_inj dot).mp (solid.parts.posKey_inj solid'.parts (by decide) (by decide) same).1

theorem leafEntry_ne_innerEntry {q q' uid : String} (solid : Solid q) (solid' : Solid q') :
    (leafEntry q uid).1 ≠ (innerEntry q').1 := by
  intro same
  have flags := (solid.parts.posKey_inj solid'.parts (by decide) (by decide) same).2
  revert flags
  decide

theorem mem_writeOne {db : LevelDB} {path uid : String} (solid : Solid path) {e : String × String}
    (pos : IsPos e.1) : e ∈ (writeOne db path uid).segmentConn.entries ↔
      (e = leafEntry path uid ∨ ∃ q, Below q path ∧ e = innerEntry q) ∨
      (e.1 ≠ (leafEntry path uid).1 ∧ ∀ q, Below q path → e.1 ≠ (innerEntry q).1) ∧
        e ∈ db.segmentConn.entries := by
  have batch : ∀ {b : String × String}, b.1 = e.1 →
      (b ∈ (parsePath path uid).flatMap LevelDBSegment.insertAllIntoBatch ↔
        b = leafEntry path uid ∨ ∃ q, Below q path ∧ b = innerEntry q) := by
    intro b same
    rw [mem_insertAll_iff solid (same ▸ pos), mem_posSegmentData]
  rw [segmentConn_writeOne, mem_write, batch rfl]
  · refine or_congr_right (and_congr_left fun _ => ?_)
    constructor
    · intro fresh
      refine ⟨fun same => ?_, fun q below same => ?_⟩
      · exact fresh _ ((batch same.symm).mpr (.inl rfl)) same.symm
      · exact fresh _ ((batch same.symm).mpr (.inr ⟨q, below, rfl⟩)) same.symm
    · rintro ⟨leaf, inner⟩ b mem same
      rcases (batch same).mp mem with rfl | ⟨q, below, rfl⟩
      · exact leaf same.symm
      · exact inner q below same.symm
  · intro a mem same b mem' same'
    have keys := same.trans same'.symm
    rcases (batch same).mp mem with rfl | ⟨q, below, rfl⟩ <;>
      rcases (batch same').mp mem' with rfl | ⟨q', below', rfl⟩
    · rfl
    · exact absurd keys (leafEntry_ne_innerEntry solid (solid.of_below below'))
    · exact absurd keys.symm (leafEntry_ne_innerEntry solid (solid.of_below below))
    · rw [innerEntry_inj (solid.of_below below) (solid.of_below below') keys]

/-! ### After some writes -/

def writeAll (ws : List (String × String)) : LevelDB :=
  ws.foldl (fun db w => writeOne db w.1 w.2) .empty

/-- Some path that was written goes on from here. -/
def Inner (ws : List (String × String)) (q : String) : Prop := ∃ w ∈ ws, Below q w.1

theorem Inner.solid {ws : List (String × String)} (clean : ∀ w ∈ ws, Solid w.1) {q : String}
    (inner : Inner ws q) : Solid q := by
  obtain ⟨w, mem, below⟩ := inner
  exact (clean w mem).of_below below

theorem mem_of_lookup_assign {ws : List (String × String)} {q uid : String}
    (here : (assign ws).lookup q = some uid) : (q, uid) ∈ ws := by
  induction ws using List.reverseRecOn with
  | nil => cases here
  | append_singleton ws w ih =>
    rw [assign_concat, lookup_insert] at here
    split_ifs at here with same
    · cases here
      simp [same]
    · exact List.mem_append_left _ (ih here)

/-- The entries are those of the paths with their last uids and of what is before them. -/
theorem mem_writeAll {ws : List (String × String)} (clean : ∀ w ∈ ws, Solid w.1)
    {e : String × String} (pos : IsPos e.1) :
    e ∈ (writeAll ws).segmentConn.entries ↔
      (∃ q uid, (assign ws).lookup q = some uid ∧ e = leafEntry q uid) ∨
      ∃ q, Inner ws q ∧ e = innerEntry q := by
  induction ws using List.reverseRecOn with
  | nil =>
    constructor
    · intro mem
      cases mem
    · rintro (⟨_, _, here, _⟩ | ⟨_, ⟨_, mem, _⟩, _⟩)
      · cases here
      · cases mem
  | append_singleton ws w ih =>
    obtain ⟨path, uid⟩ := w
    have solid : Solid path := clean (path, uid) (by simp)
    have clean' : ∀ w ∈ ws, Solid w.1 := fun w mem => clean w (List.mem_append_left _ mem)
    have step : writeAll (ws ++ [(path, uid)]) = writeOne (writeAll ws) path uid := by
      rw [writeAll, List.foldl_append]
      rfl
    have inner : ∀ q, Inner (ws ++ [(path, uid)]) q ↔ Inner ws q ∨ Below q path := by
      intro q
      simp [Inner, or_and_right, exists_or]
    simp only [step, mem_writeOne solid pos, ih clean', assign_concat, lookup_insert, inner]
    constructor
    · rintro ((rfl | ⟨q, below, rfl⟩) | ⟨⟨notLeaf, notInner⟩, ⟨q, u, here, rfl⟩ | ⟨q, inner, rfl⟩⟩)
      · exact .inl ⟨path, uid, by simp, rfl⟩
      · exact .inr ⟨q, .inr below, rfl⟩
      · refine .inl ⟨q, u, ?_, rfl⟩
        rw [if_neg, here]
        rintro rfl
        exact notLeaf rfl
      · exact .inr ⟨q, .inl inner, rfl⟩
    · rintro (⟨q, u, here, rfl⟩ | ⟨q, inner | below, rfl⟩)
      · split_ifs at here with same
        · cases here
          exact .inl (.inl (same ▸ rfl))
        · have solid' := clean' (q, u) (mem_of_lookup_assign here)
          refine .inr ⟨⟨fun keys => same (leafEntry_inj solid' solid keys), fun q' below => ?_⟩,
            .inl ⟨q, u, here, rfl⟩⟩
          exact leafEntry_ne_innerEntry solid' (solid.of_below below)
      · by_cases below : Below q path
        · exact .inl (.inr ⟨q, below, rfl⟩)
        · have solid' := inner.solid clean'
          refine .inr ⟨⟨(leafEntry_ne_innerEntry solid solid').symm, fun q' below' keys => ?_⟩,
            .inr ⟨q, inner, rfl⟩⟩
          exact below (innerEntry_inj solid' (solid.of_below below') keys ▸ below')
      · exact .inl (.inr ⟨q, below, rfl⟩)

end LevelDBIndex
