import Cadent.Indexer.MetricRam
import Cadent.Indexer.ParsedPaths
import Cadent.Lib.Ordered
import Mathlib.Data.String.Basic

/-!
# The index in LevelDB

`LevelDBIndexer` keeps three databases. The segment database has an entry for each beginning of a
path under its position, its text and whether the path ends there, and two more for a whole path.
The other two go from paths to uids and back. A search goes through the entries whose keys begin
like the query, or like its segments before the first pattern.

The databases are ordered maps of texts whose operations do not fail. The order of texts by
characters is the one of their bytes. Regular expressions are compiled by a function that the
caller gives, and so is the case folding of `EqualFold`.
-/

namespace LevelDBIndex

open Indexer Ordered Text

/-! ### Segments -/

structure LevelDBSegment where
  pos : Nat
  length : Nat
  segment : String
  nextSegment : String
  path : String
  id : String
  deriving DecidableEq

def parsePathLoop (statKey id : String) (pLen : Nat) :
    Nat → String → String → List String → List LevelDBSegment
  | _, _, _, [] => []
  | idx, curPart, nextPart, part :: parts =>
    let curPart := growPart curPart part
    let nextPart := if 0 < idx then nextPart ++ "." ++ part else nextPart
    ⟨idx, pLen - 1, curPart, nextPart, statKey, id⟩ ::
      parsePathLoop statKey id pLen (idx + 1) curPart nextPart parts

def parsePath (statKey id : String) : List LevelDBSegment :=
  let sParts := split statKey "."
  parsePathLoop statKey id sParts.length 0 "" (sParts.headD "") sParts

namespace LevelDBSegment

variable (ls : LevelDBSegment)

def segmentKey (segment : String) (len : Nat) : String := "SEG:" ++ len.repr ++ ":" ++ segment

def segmentData : String × String := (segmentKey ls.segment ls.length, ls.id ++ "|" ++ ls.path)

def idData : String × String := (ls.id, ls.path)

def pathData : String × String := (ls.path, ls.id)

def reverseSegmentData : String × String := (ls.path, ls.pos.repr ++ ":" ++ ls.segment)

/-- `has_data`. -/
def flag : String := if ls.nextSegment = ls.path then "1" else "0"

def posSegmentKey (path : String) (pos : Nat) : String :=
  "POS:" ++ pos.repr ++ ":" ++ path ++ ":" ++ ls.flag

def posSegmentData : String × String :=
  let useId := if ls.nextSegment = ls.path then ls.id else ""
  (ls.posSegmentKey ls.segment ls.pos, useId ++ ":" ++ ls.nextSegment ++ ":" ++ ls.flag)

def hasData : Bool := ls.segment = ls.path

/-- The batch for the segment database. -/
def insertAllIntoBatch : List (String × String) :=
  (if ls.hasData then [ls.segmentData, ls.reverseSegmentData] else []) ++ [ls.posSegmentData]

end LevelDBSegment

/-! ### Writing and deleting -/

abbrev DB := OrderedMap String String

def DB.write (db : DB) (batch : List (String × String)) : DB :=
  batch.foldl (fun db e => db.put e.1 e.2) db

structure LevelDB where
  segmentConn : DB
  pathConn : DB
  uidConn : DB

def LevelDB.empty : LevelDB := ⟨.empty, .empty, .empty⟩

def LevelDBSegment.insertAll (db : LevelDB) (ls : LevelDBSegment) : LevelDB :=
  ⟨db.segmentConn.write ls.insertAllIntoBatch, db.pathConn.write [ls.pathData],
    db.uidConn.write [ls.idData]⟩

def writeOne (db : LevelDB) (skey uid : String) : LevelDB :=
  (parsePath skey uid).foldl LevelDBSegment.insertAll db

/-- The entry of a key goes if its value is the given one up to case. The second part is whether
there is such an entry. -/
def deleteIf (fold : Char → Char) (db : DB) (key value : String) : DB × Bool :=
  match db.get key with
  | none => (db, false)
  | some v => (if v.toList.map fold = value.toList.map fold then db.delete key else db, true)

def deleteLoop (fold : Char → Char) (path : String) :
    List LevelDBSegment → DB → Bool → DB × Bool
  | [], db, found => (db, found)
  | seg :: segs, db, found =>
    let (db, found') := if segs = [] then
      deleteIf fold db (LevelDBSegment.segmentKey seg.segment seg.length) path else (db, true)
    let (db, found'') := deleteIf fold db (seg.posSegmentKey seg.segment seg.pos) (path ++ ":1")
    deleteLoop fold path segs db (found && found' && found'')

/-- The path has to be there, and its own entry goes if all others were found. -/
def deletePath (fold : Char → Char) (db : DB) (path : String) : DB :=
  match db.get path with
  | none | some "" => db
  | some _ =>
    let (db, found) := deleteLoop fold path (parsePath path "") db true
    if found then db.delete path else db

def LevelDB.delete (fold : Char → Char) (db : LevelDB) (name : String) : LevelDB :=
  { db with segmentConn := deletePath fold db.segmentConn name }

/-! ### Searching -/

/-- The segments before the first one that is a pattern. -/
def longChunk (chunk : String) : List String → Option String
  | [] => none
  | pth :: segs =>
    if needRegex pth then some chunk
    else longChunk ((if 0 < chunk.utf8ByteSize then chunk ++ "." else chunk) ++ pth) segs

def startsWith (start : String) (key : String) : Bool := start.toList.isPrefixOf key.toList

variable (compile : String → Except String (String → Bool))

/-- The entries that a search goes through, and the expression for their paths. -/
def findingIter (db : DB) (metric : String) :
    Except String (List (String × String) × Option (String → Bool)) := do
  let segs := split metric "."
  let useKey := if needRegex metric then (longChunk "" segs).getD metric else metric
  let reg ← if needRegex metric then some <$> compile (fullRegString metric) else pure none
  return (db.scan (startsWith ("POS:" ++ (segs.length - 1).repr ++ ":" ++ useKey)), reg)

/-- What a value of the form `id:path:has_data` is shown as. -/
def itemOf (value : String) : MetricFindItem :=
  let valueArr := split value ":"
  let onPath := valueArr.getD 1 ""
  let text := (split onPath ".").getLastD ""
  if valueArr.getLastD "" = "1" then ⟨text, onPath, onPath, valueArr.headD "", 0, 1, 0⟩
  else ⟨text, onPath, onPath, valueArr.headD "", 1, 0, 1⟩

def findRoot (db : DB) : List MetricFindItem :=
  (db.scan (startsWith "POS:0:")).map fun e =>
    let onPath := (split e.2 ":").getD 1 ""
    ⟨onPath, onPath, onPath, "", 1, 0, 1⟩

def LevelDB.find (db : LevelDB) (metric : String) : Except String (List MetricFindItem) := do
  if metric = "*" then return findRoot db.segmentConn
  let (entries, reged) ← findingIter compile db.segmentConn metric
  return (entries.map fun e => itemOf e.2).filter fun ms => reged.all fun reg => reg ms.path

/-! ### Listing -/

def maxPerPage : Nat := 2048

/-- The loop over the paths, with the number of those before. -/
def listLoop (wantStart stopCount : Nat) : Nat → List String → List MetricFindItem
  | _, [] => []
  | curCt, onPath :: paths =>
    let curCt := curCt + 1
    if curCt < wantStart then listLoop wantStart stopCount curCt paths
    else if stopCount < curCt then []
    else ⟨onPath, onPath, onPath, "", 0, 1, 0⟩ :: listLoop wantStart stopCount curCt paths

/-- The requests number their pages by a `uint32`, so that no product overflows. -/
def LevelDB.list (db : LevelDB) (page : BitVec 32) : List MetricFindItem :=
  listLoop (page.toNat * maxPerPage) ((page.toNat + 1) * maxPerPage) 0
    (db.pathConn.entries.map Prod.fst)

/-- The pages before the given one, one after the other. -/
def LevelDB.pagesBefore (db : LevelDB) (pages : Nat) : List MetricFindItem :=
  (List.range pages).flatMap fun page => db.list (BitVec.ofNat 32 page)

/-- No page is too long, and the pages are all paths in order. -/
structure LevelDB.Paged (db : LevelDB) : Prop where
  short : ∀ page, (db.list page).length ≤ maxPerPage
  whole : ∃ last ≤ 2 ^ 32, ∀ pages, last ≤ pages → pages ≤ 2 ^ 32 →
    (db.pagesBefore pages).map (·.path) = db.pathConn.entries.map Prod.fst

/-- A page begins with the last path of the page before it. -/
theorem listLoop_eq (wantStart stopCount ct : Nat) (paths : List String) :
    (listLoop wantStart stopCount ct paths).map (·.path) =
      (paths.take (stopCount - ct)).drop (wantStart - 1 - ct) := by
  induction paths generalizing ct with
  | nil => simp [listLoop]
  | cons p paths ih =>
    rw [listLoop]
    split_ifs with before after
    · rw [ih]
      have drops : wantStart - 1 - ct = wantStart - 1 - (ct + 1) + 1 := by omega
      rcases Nat.eq_zero_or_pos (stopCount - ct) with none | some
      · have none' : stopCount - (ct + 1) = 0 := by omega
        simp [none, none']
      · have takes : stopCount - ct = stopCount - (ct + 1) + 1 := by omega
        rw [drops, takes, List.take_succ_cons, List.drop_succ_cons]
    · have none : stopCount - ct = 0 := by omega
      simp [none]
    · have takes : stopCount - ct = stopCount - (ct + 1) + 1 := by omega
      have drops : wantStart - 1 - ct = 0 := by omega
      have drops' : wantStart - 1 - (ct + 1) = 0 := by omega
      rw [List.map_cons, ih, takes, drops, drops', List.take_succ_cons]
      rfl

theorem map_path_list (db : LevelDB) (page : BitVec 32) :
    (db.list page).map (·.path) = ((db.pathConn.entries.map Prod.fst).take
      ((page.toNat + 1) * maxPerPage)).drop (page.toNat * maxPerPage - 1) :=
  listLoop_eq _ _ 0 _

theorem length_list (db : LevelDB) (page : BitVec 32) :
    (db.list page).length = min ((page.toNat + 1) * maxPerPage) db.pathConn.entries.length -
      (page.toNat * maxPerPage - 1) := by
  have := congrArg List.length (map_path_list db page)
  simpa using this

theorem pagesBefore_succ (db : LevelDB) (pages : Nat) : db.pagesBefore (pages + 1) =
    db.list 0#32 ++ (List.range pages).flatMap fun page =>
      db.list (BitVec.ofNat 32 (page + 1)) := by
  rw [LevelDB.pagesBefore, List.range_succ_eq_map, List.flatMap_cons, List.flatMap_map]

/-- The first two pages of a full database are longer than what they are cut from. -/
theorem not_paged {db : LevelDB} (full : maxPerPage ≤ db.pathConn.entries.length) : ¬ db.Paged := by
  rintro ⟨short, last, inside, whole⟩
  have first := length_list db 0#32
  have second := length_list db 1#32
  have short := short 1#32
  obtain ⟨pages, all⟩ : ∃ pages, 2 ^ 32 = pages + 1 + 1 := ⟨4294967294, rfl⟩
  have listed := congrArg List.length (whole (2 ^ 32) inside le_rfl)
  rw [all, pagesBefore_succ, List.range_succ_eq_map, List.flatMap_cons, List.length_map,
    List.length_map, List.length_append, List.length_append] at listed
  change _ + ((db.list 1#32).length + _) = _ at listed
  simp only [BitVec.toNat_ofNat, maxPerPage] at first second short full
  omega

/-- The pages are the paths just when one page has room for one more. -/
theorem paged_iff (db : LevelDB) : db.Paged ↔ db.pathConn.entries.length < maxPerPage := by
  constructor
  · intro paged
    by_contra full
    exact not_paged (not_lt.mp full) paged
  · intro few
    have later : ∀ page : BitVec 32, page.toNat ≠ 0 → db.list page = [] := by
      intro page second
      have length := length_list db page
      refine List.eq_nil_of_length_eq_zero ?_
      rw [maxPerPage] at length few
      omega
    have first : (db.list 0#32).map (·.path) = db.pathConn.entries.map Prod.fst := by
      rw [map_path_list, BitVec.toNat_zero, Nat.zero_mul, List.drop_zero]
      exact List.take_of_length_le (by simpa using few.le)
    constructor
    · intro page
      have length := length_list db page
      omega
    · refine ⟨1, by omega, fun pages some inside => ?_⟩
      obtain ⟨pages, rfl⟩ := Nat.exists_eq_add_of_le' some
      have rest : ((List.range pages).flatMap fun page => db.list (BitVec.ofNat 32 (page + 1))) =
          [] := by
        refine List.flatMap_eq_nil_iff.mpr fun page before => later _ ?_
        have := List.mem_range.mp before
        rw [BitVec.toNat_ofNat, Nat.mod_eq_of_lt (by omega)]
        omega
      rw [pagesBefore_succ, rest, List.append_nil, first]

theorem replicate_lt_replicate {c : Char} {i j : Nat} (lt : i < j) :
    List.replicate (i + 1) c < List.replicate (j + 1) c := by
  induction i generalizing j with
  | zero =>
    obtain ⟨j, rfl⟩ := Nat.exists_eq_add_of_lt lt
    simp [List.replicate_succ]
  | succ i ih =>
    obtain ⟨j, rfl⟩ := Nat.exists_eq_add_of_le' (Nat.one_le_of_lt lt)
    rw [List.replicate_succ, List.replicate_succ (n := j + 1), List.cons_lt_cons_iff]
    exact .inr ⟨rfl, ih (Nat.lt_of_succ_lt_succ lt)⟩

/-- As many paths as a page has room for: `a`, `aa`, `aaa` and so on. -/
def fullPage : DB where
  entries := (List.range maxPerPage).map fun i => (String.ofList (List.replicate (i + 1) 'a'), "u")
  sorted := by
    refine List.pairwise_map.mpr (List.pairwise_lt_range.imp fun {i j} lt => ?_)
    rw [String.lt_iff, String.toList_ofList, String.toList_ofList]
    exact replicate_lt_replicate lt

theorem not_paged_full : ¬ (LevelDB.mk .empty fullPage .empty).Paged :=
  not_paged (by simp [fullPage])

end LevelDBIndex
