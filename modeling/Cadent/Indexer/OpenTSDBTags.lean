import Cadent.Lib.Replacing
import Cadent.Lib.Runes
import Cadent.Lib.Words
import Cadent.Schemas.Tags

/-!
# Tag queries of OpenTSDB

A query is a key and, in curly brackets, names with values. `ParseOpenTSDBTags` goes over the runes
of the query with two flags, one for the key and one for what is inside the brackets, and cuts the
latter at commas and equals signs. A bracket only sets the flags, so brackets are not matched.
-/

namespace OpenTSDBTags

open Repr Runes Text

/-! ### The parser -/

/-- The variables of the loop over the query. -/
structure Scan where
  key : List Char
  inner : List Char
  collecting : Bool
  keyCollecting : Bool
  deriving DecidableEq, Repr

namespace Scan

def init : Scan := ⟨[], [], false, true⟩

def read (s : Scan) (c : Char) : Scan :=
  if c = '\x7b' then { s with collecting := true, keyCollecting := false }
  else if c = '\x7d' then { s with collecting := false }
  else
    { s with
      inner := if s.collecting then s.inner ++ [c] else s.inner
      key := if s.keyCollecting then s.key ++ [c] else s.key }

end Scan

def scan (cs : List Char) : Scan := cs.foldl Scan.read .init

def invalidTagQuery : String := "Invalid Tag query `\x7bname=val, name=val\x7d`"

/-- The tag of one piece is set when the piece has one equals sign. -/
def setPiece (tags : List Tag) (tg : String) : List Tag :=
  match split (trimSpace tg) "=" with
  | [name, val] => setTag tags name val
  | _ => tags

structure Parsed where
  key : String
  tags : List Tag
  err : Option String
  deriving DecidableEq, Repr

def parseOpenTSDBTags (query : List UInt8) : Parsed :=
  let s := scan (runes query)
  if s.inner.length = 0 ∨ s.collecting then ⟨.ofList s.key, [], some invalidTagQuery⟩
  else ⟨.ofList s.key, (split (.ofList s.inner) ",").foldl setPiece [], none⟩

/-! ### Queries that are put together -/

/-- Names and values as the query language has them. -/
structure Word (bytes : List UInt8) : Prop where
  nonempty : bytes ≠ []
  plain : ∀ c ∈ runes bytes, c ≠ '\x7b' ∧ c ≠ '\x7d' ∧ c ≠ ',' ∧ c ≠ '=' ∧ isSpace c = false

/-- A tag with white space around it. -/
structure SpacedTag where
  before : List Char
  name : List UInt8
  value : List UInt8
  after : List Char
  spaceBefore : ∀ c ∈ before, isSpace c = true
  spaceAfter : ∀ c ∈ after, isSpace c = true
  wordName : Word name
  wordValue : Word value

namespace SpacedTag

def render (t : SpacedTag) : List UInt8 :=
  bytesOf t.before ++ t.name ++ bytesOf ['='] ++ t.value ++ bytesOf t.after

end SpacedTag

def renderQuery (key : List UInt8) (tags : List SpacedTag) : List UInt8 :=
  key ++ bytesOf ['\x7b'] ++ (bytesOf [',']).intercalate (tags.map (·.render)) ++ bytesOf ['\x7d']

/-- The query is read without an error as its key and its tags. -/
def RoundTrips (key : List UInt8) (tags : List SpacedTag) : Prop :=
  (parseOpenTSDBTags (renderQuery key tags)).err = none ∧
    bytesOf (parseOpenTSDBTags (renderQuery key tags)).key.toList = key ∧
    (parseOpenTSDBTags (renderQuery key tags)).tags.map
        (fun t => (bytesOf t.name.toList, bytesOf t.value.toList)) =
      tags.map fun t => (t.name, t.value)

/-! ### What the scan collects -/

def isBracket (c : Char) : Bool := c = '\x7b' || c = '\x7d'

theorem read_of_plain {c : Char} (plain : isBracket c = false) (s : Scan) : s.read c =
    { s with
      inner := if s.collecting then s.inner ++ [c] else s.inner
      key := if s.keyCollecting then s.key ++ [c] else s.key } := by
  rw [isBracket, Bool.or_eq_false_iff] at plain
  rw [Scan.read, if_neg (by simpa using plain.1), if_neg (by simpa using plain.2)]

/-- Without brackets all runes go where the flags say. -/
theorem foldl_read_of_plain {cs : List Char} (plain : ∀ c ∈ cs, isBracket c = false) (s : Scan) :
    cs.foldl Scan.read s =
      { s with
        inner := if s.collecting then s.inner ++ cs else s.inner
        key := if s.keyCollecting then s.key ++ cs else s.key } := by
  induction cs generalizing s with
  | nil => simp
  | cons c cs ih =>
    obtain ⟨first, rest⟩ := List.forall_mem_cons.mp plain
    rw [List.foldl_cons, ih rest, read_of_plain first]
    obtain ⟨key, inner, collecting, keyCollecting⟩ := s
    cases collecting <;> cases keyCollecting <;> simp

theorem scan_query {key inner : List Char} (plainKey : ∀ c ∈ key, isBracket c = false)
    (plainInner : ∀ c ∈ inner, isBracket c = false) :
    scan (key ++ ['\x7b'] ++ inner ++ ['\x7d']) = ⟨key, inner, false, false⟩ := by
  rw [scan, List.foldl_append, List.foldl_append, List.foldl_append,
    foldl_read_of_plain plainKey, foldl_read_of_plain plainInner]
  rfl

theorem scan_concat (cs : List Char) (c : Char) : scan (cs ++ [c]) = (scan cs).read c :=
  List.foldl_concat ..

/-! ### Reading a query back -/

namespace Word

variable {bytes : List UInt8} (word : Word bytes)

include word

theorem runes_ne_nil : runes bytes ≠ [] := by
  have some := word.nonempty
  cases bytes with
  | nil => exact absurd rfl some
  | cons b bs =>
    rw [runes, runesFrom]
    split <;> exact List.cons_ne_nil _ _

theorem isBracket_eq {c : Char} (mem : c ∈ runes bytes) : isBracket c = false := by
  obtain ⟨left, right, -⟩ := word.plain c mem
  rw [isBracket, decide_eq_false left, decide_eq_false right]
  rfl

theorem comma_notMem : ',' ∉ runes bytes := fun mem => (word.plain _ mem).2.2.1 rfl

theorem equals_notMem : '=' ∉ runes bytes := fun mem => (word.plain _ mem).2.2.2.1 rfl

theorem isSpace_eq {c : Char} (mem : c ∈ runes bytes) : isSpace c = false :=
  (word.plain c mem).2.2.2.2

end Word

namespace SpacedTag

/-- The runes of a tag that is UTF-8. -/
def text (t : SpacedTag) : List Char :=
  t.before ++ (runes t.name ++ ['='] ++ runes t.value) ++ t.after

def tag (t : SpacedTag) : Tag := ⟨.ofList (runes t.name), .ofList (runes t.value)⟩

variable (t : SpacedTag)

theorem render_eq (name : Valid t.name) (value : Valid t.value) : t.render = bytesOf t.text := by
  rw [text, bytesOf_append, bytesOf_append, bytesOf_append, bytesOf_append, name, value, render]
  simp only [List.append_assoc]

theorem mem_text {c : Char} (mem : c ∈ t.text) :
    isSpace c = true ∨ c ∈ runes t.name ∨ c = '=' ∨ c ∈ runes t.value := by
  simp only [text, List.mem_append, List.mem_singleton] at mem
  rcases mem with (before | (name | equals) | value) | after
  · exact .inl (t.spaceBefore c before)
  · exact .inr (.inl name)
  · exact .inr (.inr (.inl equals))
  · exact .inr (.inr (.inr value))
  · exact .inl (t.spaceAfter c after)

theorem isBracket_of_mem_text {c : Char} (mem : c ∈ t.text) : isBracket c = false := by
  rcases t.mem_text mem with space | name | rfl | value
  · refine Bool.eq_false_iff.mpr fun bracket => ?_
    rcases (Bool.or_eq_true _ _).mp bracket with left | right
    · rw [of_decide_eq_true left] at space
      exact absurd space (by decide)
    · rw [of_decide_eq_true right] at space
      exact absurd space (by decide)
  · exact t.wordName.isBracket_eq name
  · rfl
  · exact t.wordValue.isBracket_eq value

theorem comma_notMem_text : ',' ∉ t.text := by
  intro mem
  rcases t.mem_text mem with space | name | same | value
  · exact absurd space (by decide)
  · exact t.wordName.comma_notMem name
  · exact absurd same (by decide)
  · exact t.wordValue.comma_notMem value

theorem isTrimmed : IsTrimmed (runes t.name ++ ['='] ++ runes t.value) := by
  constructor
  · intro c first
    rw [List.append_assoc, List.head?_append_of_ne_nil _ t.wordName.runes_ne_nil] at first
    exact t.wordName.isSpace_eq (List.mem_of_mem_head? first)
  · intro c last
    rw [List.getLast?_append_of_ne_nil _ t.wordValue.runes_ne_nil] at last
    exact t.wordValue.isSpace_eq (List.mem_of_mem_getLast? last)

theorem setPiece_text (tags : List Tag) :
    setPiece tags (.ofList t.text) = setTag tags t.tag.name t.tag.value := by
  have some : runes t.name ++ ['='] ++ runes t.value ≠ [] := by simp
  have join : String.ofList (runes t.name ++ ['='] ++ runes t.value) =
      .ofList (runes t.name) ++ "=" ++ .ofList (runes t.value) := by
    rw [String.ofList_append, String.ofList_append]
  rw [setPiece, text, trimSpace_spaced some t.isTrimmed t.spaceBefore t.spaceAfter, join,
    split_pair (c := '=') rfl (by simpa using t.wordName.equals_notMem)
      (by simpa using t.wordValue.equals_notMem)]
  rfl

end SpacedTag

section Query

/-- What is inside the brackets of a query of UTF-8. -/
def inside (tags : List SpacedTag) : String :=
  String.intercalate "," (tags.map fun t => .ofList t.text)

variable {key : List UInt8} {tags : List SpacedTag}

theorem renderQuery_eq (validKey : Valid key)
    (validTags : ∀ t ∈ tags, Valid t.name ∧ Valid t.value) : renderQuery key tags =
      bytesOf (runes key ++ ['\x7b'] ++ (inside tags).toList ++ ['\x7d']) := by
  have pieces : tags.map (·.render) =
      ((tags.map fun t => String.ofList t.text).map String.toList).map bytesOf := by
    rw [List.map_map, List.map_map]
    refine List.map_congr_left fun t mem => ?_
    rw [t.render_eq (validTags t mem).1 (validTags t mem).2, Function.comp_apply,
      Function.comp_apply, String.toList_ofList]
  rw [renderQuery, pieces, inside, String.toList_intercalate, bytesOf_append, bytesOf_append,
    bytesOf_append, bytesOf_intercalate, validKey]
  rfl

theorem isBracket_of_mem_inside {c : Char} (mem : c ∈ (inside tags).toList) :
    isBracket c = false := by
  rcases mem_intercalate mem with comma | ⟨part, piece, own⟩
  · rw [show c = ',' by simpa using comma]
    rfl
  · obtain ⟨t, -, rfl⟩ := List.mem_map.mp piece
    rw [String.toList_ofList] at own
    exact t.isBracket_of_mem_text own

theorem inside_ne_empty (some : tags ≠ []) : inside tags ≠ "" := by
  obtain ⟨t, rest, rfl⟩ := List.exists_cons_of_ne_nil some
  refine intercalate_ne_empty "," (fun empty => ?_) _
  have chars : t.text = [] := by simpa using congrArg String.toList empty
  simp [SpacedTag.text] at chars

/-- Distinct names of UTF-8 are distinct texts. -/
theorem nodup_tags (validTags : ∀ t ∈ tags, Valid t.name ∧ Valid t.value)
    (distinct : (tags.map (·.name)).Nodup) : ((tags.map (·.tag)).map (·.name)).Nodup := by
  rw [List.map_map]
  refine List.pairwise_map.mpr ((List.pairwise_map.mp distinct).imp_of_mem ?_)
  intro t t' mem mem' different same
  apply different
  have names : runes t.name = runes t'.name := String.ofList_injective same
  rw [← (validTags t mem).1, ← (validTags t' mem').1, names]

theorem foldl_setPiece (validTags : ∀ t ∈ tags, Valid t.name ∧ Valid t.value)
    (distinct : (tags.map (·.name)).Nodup) :
    (tags.map fun t => String.ofList t.text).foldl setPiece [] = tags.map (·.tag) := by
  have set : (tags.map (·.tag)).foldl (fun set tag => setTag set tag.name tag.value) [] =
      [] ++ tags.map (·.tag) := foldl_setTag (nodup_tags validTags distinct)
  rw [List.nil_append, List.foldl_map] at set
  rw [List.foldl_map, ← set]
  simp only [SpacedTag.setPiece_text]

/-- A query of UTF-8 is read as its key and its tags. -/
theorem parse_renderQuery (plainKey : ∀ c ∈ runes key, isBracket c = false) (some : tags ≠ [])
    (distinct : (tags.map (·.name)).Nodup) (validKey : Valid key)
    (validTags : ∀ t ∈ tags, Valid t.name ∧ Valid t.value) :
    parseOpenTSDBTags (renderQuery key tags) =
      ⟨.ofList (runes key), tags.map (·.tag), none⟩ := by
  have read : scan (runes (renderQuery key tags)) =
      ⟨runes key, (inside tags).toList, false, false⟩ := by
    rw [renderQuery_eq validKey validTags, runes_bytesOf]
    exact scan_query plainKey fun c mem => isBracket_of_mem_inside mem
  have pieces : split (inside tags) "," = tags.map fun t => .ofList t.text := by
    refine split_intercalate (c := ',') rfl (by simpa using some) ?_
    intro part mem
    obtain ⟨t, -, rfl⟩ := List.mem_map.mp mem
    rw [String.toList_ofList]
    exact t.comma_notMem_text
  have accepted : ¬((inside tags).toList.length = 0 ∨ false = true) := by
    simpa using inside_ne_empty some
  rw [parseOpenTSDBTags, read]
  dsimp only
  rw [if_neg accepted, String.ofList_toList, pieces, foldl_setPiece validTags distinct]

/-- What is put together from runes is UTF-8, so nothing else is read back. -/
theorem roundTrips_iff (plainKey : ∀ c ∈ runes key, isBracket c = false) (some : tags ≠ [])
    (distinct : (tags.map (·.name)).Nodup) :
    RoundTrips key tags ↔ Valid key ∧ ∀ t ∈ tags, Valid t.name ∧ Valid t.value := by
  constructor
  · rintro ⟨-, sameKey, sameTags⟩
    refine ⟨valid_of_bytesOf_eq sameKey, fun t mem => ?_⟩
    have pair : (t.name, t.value) ∈ tags.map fun t => (t.name, t.value) :=
      List.mem_map_of_mem mem
    rw [← sameTags] at pair
    obtain ⟨tag, -, same⟩ := List.mem_map.mp pair
    obtain ⟨name, value⟩ := Prod.mk.inj same
    exact ⟨valid_of_bytesOf_eq name, valid_of_bytesOf_eq value⟩
  · rintro ⟨validKey, validTags⟩
    rw [RoundTrips, parse_renderQuery plainKey some distinct validKey validTags]
    refine ⟨rfl, ?_, ?_⟩
    · rw [String.toList_ofList, validKey]
    · rw [List.map_map]
      refine List.map_congr_left fun t mem => ?_
      obtain ⟨name, value⟩ := validTags t mem
      rw [Function.comp_apply, SpacedTag.tag, String.toList_ofList, String.toList_ofList,
        name, value]

end Query

/-! ### Queries that are turned down -/

/-- The number of brackets that are open, when each closing one closes the last. -/
def depth (cs : List Char) : Nat :=
  cs.foldl (fun n c => if c = '\x7b' then n + 1 else if c = '\x7d' then n - 1 else n) 0

/-- Some bracket is not closed. -/
def Unclosed (cs : List Char) : Prop := 0 < depth cs

/-- Something is inside brackets. -/
def Encloses (cs : List Char) : Prop :=
  ∃ before c after, cs = before ++ c :: after ∧ isBracket c = false ∧ 0 < depth before

/-- The last bracket is an opening one. -/
def Opens (cs : List Char) : Prop := (cs.filter isBracket).getLast? = some '\x7b'

/-- Something stands after an opening bracket, before the next bracket. -/
def Collects (cs : List Char) : Prop :=
  ∃ before c after, cs = before ++ c :: after ∧ isBracket c = false ∧ Opens before

/-- A query with an unclosed bracket, or with nothing inside the brackets, is an error. -/
def Rejects (query : List UInt8) : Prop :=
  Unclosed (runes query) ∨ ¬ Encloses (runes query) → (parseOpenTSDBTags query).err ≠ none

theorem depth_concat (cs : List Char) (c : Char) : depth (cs ++ [c]) =
    if c = '\x7b' then depth cs + 1 else if c = '\x7d' then depth cs - 1 else depth cs :=
  List.foldl_concat ..

theorem opens_concat (cs : List Char) (c : Char) : Opens (cs ++ [c]) ↔
    c = '\x7b' ∨ (isBracket c = false ∧ Opens cs) := by
  rw [Opens, Opens, List.filter_append]
  by_cases left : c = '\x7b'
  · simp [left, isBracket]
  · by_cases right : c = '\x7d'
    · simp [right, isBracket]
    · simp [left, right, isBracket]

theorem collects_concat (cs : List Char) (c : Char) : Collects (cs ++ [c]) ↔
    Collects cs ∨ (isBracket c = false ∧ Opens cs) := by
  constructor
  · rintro ⟨before, d, after, split, plain, opens⟩
    rcases List.eq_nil_or_concat after with rfl | ⟨rest, last, rfl⟩
    · obtain ⟨rfl, same⟩ := List.append_inj' split rfl
      obtain rfl : c = d := by simpa using same
      exact .inr ⟨plain, opens⟩
    · rw [List.concat_eq_append, ← List.cons_append, ← List.append_assoc] at split
      obtain ⟨rfl, -⟩ := List.append_inj' split rfl
      exact .inl ⟨before, d, rest, rfl, plain, opens⟩
  · rintro (⟨before, d, after, rfl, plain, opens⟩ | ⟨plain, opens⟩)
    · exact ⟨before, d, after ++ [c], by simp, plain, opens⟩
    · exact ⟨cs, c, [], rfl, plain, opens⟩

theorem unclosed_of_opens {cs : List Char} (opens : Opens cs) : Unclosed cs := by
  induction cs using List.reverseRecOn with
  | nil => cases opens
  | append_singleton cs c ih =>
    rw [Unclosed, depth_concat]
    rcases (opens_concat cs c).mp opens with rfl | ⟨plain, opens⟩
    · exact Nat.succ_pos _
    · have other := Bool.or_eq_false_iff.mp plain
      rw [if_neg (of_decide_eq_false other.1), if_neg (of_decide_eq_false other.2)]
      exact ih opens

theorem encloses_of_collects {cs : List Char} (collects : Collects cs) : Encloses cs := by
  obtain ⟨before, c, after, split, plain, opens⟩ := collects
  exact ⟨before, c, after, split, plain, unclosed_of_opens opens⟩

theorem scan_collecting (cs : List Char) : (scan cs).collecting = true ↔ Opens cs := by
  induction cs using List.reverseRecOn with
  | nil => exact iff_of_false Bool.false_ne_true fun opens => by cases opens
  | append_singleton cs c ih =>
    rw [scan_concat, opens_concat, ← ih, Scan.read]
    by_cases left : c = '\x7b'
    · simp [left]
    · by_cases right : c = '\x7d'
      · simp [right, isBracket]
      · simp [left, right, isBracket]

theorem scan_inner (cs : List Char) : (scan cs).inner ≠ [] ↔ Collects cs := by
  induction cs using List.reverseRecOn with
  | nil =>
    refine iff_of_false (fun some => some rfl) ?_
    rintro ⟨before, c, after, split, -⟩
    simp at split
  | append_singleton cs c ih =>
    rw [scan_concat, collects_concat, ← ih, ← scan_collecting, Scan.read]
    by_cases left : c = '\x7b'
    · simp [left, isBracket]
    · by_cases right : c = '\x7d'
      · simp [right, isBracket]
      · cases flag : (scan cs).collecting <;> simp [left, right, isBracket]

theorem err_ne_none_iff (query : List UInt8) :
    (parseOpenTSDBTags query).err ≠ none ↔ ¬ Collects (runes query) ∨ Opens (runes query) := by
  rw [← scan_inner, ← scan_collecting, not_not, ← List.length_eq_zero_iff, parseOpenTSDBTags]
  split_ifs with turned
  · exact iff_of_true (Option.some_ne_none _) turned
  · exact iff_of_false (fun some => some rfl) turned

/-- Brackets are not matched: one that is not closed is overlooked when another one is. -/
theorem rejects_iff (query : List UInt8) : Rejects query ↔
    ¬ Unclosed (runes query) ∨ Opens (runes query) ∨ ¬ Collects (runes query) := by
  rw [Rejects, err_ne_none_iff]
  constructor
  · intro rejects
    by_cases unclosed : Unclosed (runes query)
    · exact .inr (rejects (.inl unclosed)).symm
    · exact .inl unclosed
  · rintro cases (unclosed | nothing)
    · exact (cases.resolve_left (not_not.mpr unclosed)).symm
    · exact .inl fun collects => nothing (encloses_of_collects collects)

/-- Queries of UTF-8 are read back, and queries with an unclosed bracket are turned down unless
another bracket is closed after it with something inside. -/
theorem openTSDBTags_iff {key : List UInt8} (plainKey : ∀ c ∈ runes key, isBracket c = false)
    {tags : List SpacedTag} (some : tags ≠ []) (distinct : (tags.map (·.name)).Nodup)
    (query : List UInt8) :
    (RoundTrips key tags ↔ Valid key ∧ ∀ t ∈ tags, Valid t.name ∧ Valid t.value) ∧
      (Rejects query ↔
        ¬ Unclosed (runes query) ∨ Opens (runes query) ∨ ¬ Collects (runes query)) :=
  ⟨roundTrips_iff plainKey some distinct, rejects_iff query⟩

theorem word_bytesOf {c : Char} {cs : List Char} (plain : (c :: cs).all fun d =>
    d ≠ '\x7b' ∧ d ≠ '\x7d' ∧ d ≠ ',' ∧ d ≠ '=' ∧ isSpace d = false) :
    Word (bytesOf (c :: cs)) where
  nonempty empty := by
    have length := congrArg List.length empty
    rw [bytesOf, List.flatMap_cons, List.length_append, String.length_utf8EncodeChar,
      List.length_nil] at length
    have := c.utf8Size_pos
    omega
  plain := by
    rw [runes_bytesOf]
    exact fun d mem => of_decide_eq_true (List.all_eq_true.mp plain d mem)

/-- The tag `n=v` after a blank. -/
def letters : SpacedTag where
  before := [' ']
  name := bytesOf ['n']
  value := bytesOf ['v']
  after := []
  spaceBefore := List.forall_mem_singleton.mpr (by decide)
  spaceAfter _ mem := by cases mem
  wordName := word_bytesOf (by decide)
  wordValue := word_bytesOf (by decide)

/-- A tag with a letter of two bytes, and with a tab after it. -/
def host : SpacedTag where
  before := []
  name := bytesOf ['h', 'o', 's', 't']
  value := bytesOf ['w', 'é', 'b', '-', '1']
  after := [' ', '\t']
  spaceBefore _ mem := by cases mem
  spaceAfter := List.all_eq_true.mp (by decide)
  wordName := word_bytesOf (by decide)
  wordValue := word_bytesOf (by decide)

theorem openTSDBTags_iff_words :
    RoundTrips (bytesOf ['c', 'p', 'u']) [host, letters] ∧
      Rejects (bytesOf ['k', '\x7b', 'n', '=', 'v', '\x7d', '\x7b', 'm', '=', 'w']) := by
  have plainKey : ∀ c ∈ runes (bytesOf ['c', 'p', 'u']), isBracket c = false := by
    rw [runes_bytesOf]
    simp [isBracket]
  obtain ⟨trips, rejects⟩ := openTSDBTags_iff plainKey (List.cons_ne_nil host [letters])
    (by decide +kernel)
    (bytesOf ['k', '\x7b', 'n', '=', 'v', '\x7d', '\x7b', 'm', '=', 'w'])
  refine ⟨trips.mpr ⟨valid_bytesOf _, ?_⟩, rejects.mpr (.inr (.inl ?_))⟩
  · intro t mem
    rcases List.mem_pair.mp mem with rfl | rfl
    · exact ⟨valid_bytesOf _, valid_bytesOf _⟩
    · exact ⟨valid_bytesOf _, valid_bytesOf _⟩
  · rw [runes_bytesOf]
    rfl

/-- A key that is not UTF-8 is not returned, and the first of two brackets is overlooked. -/
theorem unclosed_accepted : ¬ RoundTrips [255] [letters] ∧
    ¬ Rejects (bytesOf ['k', '\x7b', '\x7b', 'n', '=', 'v', '\x7d']) := by
  constructor
  · have error : runes [255] = [runeError] := by decide
    have plainKey : ∀ c ∈ runes [255], isBracket c = false := by
      rw [error]
      exact List.forall_mem_singleton.mpr rfl
    rw [roundTrips_iff plainKey (List.cons_ne_nil letters []) (List.nodup_singleton _)]
    rintro ⟨valid, -⟩
    exact absurd valid (by decide)
  · rw [rejects_iff, runes_bytesOf, not_or, not_or, not_not, not_not]
    refine ⟨Nat.one_pos, ?_, ['k', '\x7b', '\x7b'], 'n', ['=', 'v', '\x7d'], rfl, rfl, rfl⟩
    rw [Opens]
    decide

end OpenTSDBTags
