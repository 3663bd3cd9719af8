import Cadent.Lib.Text

/-!
# The segments of a path

`NewParsedPath` cuts a path at its dots and lists its beginnings, each made from the one before
it and the next part. A dot is put between the two only where the beginning is longer than one
byte, so a path whose first part is a single byte loses its first dot.
-/

namespace Indexer

open Text

structure PathSegment where
  pos : Nat
  segment : String
  deriving DecidableEq, Repr

structure PathPart where
  segment : PathSegment
  path : String
  id : String
  length : Int
  hasdata : Bool
  deriving DecidableEq, Repr

structure ParsedPath where
  segments : List PathSegment
  paths : List PathPart
  len : Int
  parts : List String
  deriving DecidableEq, Repr

/-- `curPart` after one more part. -/
def growPart (curPart part : String) : String :=
  (if 1 < curPart.utf8ByteSize then curPart ++ "." else curPart) ++ part

def parsedPathLoop (name uid : String) : Nat → String → List String → ParsedPath → ParsedPath
  | _, _, [], p => p
  | idx, curPart, part :: parts, p =>
    let curPart := growPart curPart part
    let onSegment : PathSegment := ⟨idx, curPart⟩
    parsedPathLoop name uid (idx + 1) curPart parts
      { p with
        segments := p.segments ++ [onSegment]
        paths := p.paths ++ [⟨onSegment, name, uid, p.len - 1, false⟩] }

def newParsedPath (name uid : String) : ParsedPath :=
  let parts := split name "."
  parsedPathLoop name uid 0 "" parts ⟨[], [], parts.length, parts⟩

/-! ### What it should return -/

/-- One segment for each part: the path up to it, and more of the path in the next one. -/
structure Beginnings (name : String) (p : ParsedPath) : Prop where
  count : p.segments.length = (split name ".").length
  segment : ∀ i < (split name ".").length,
    p.segments[i]? = some ⟨i, String.intercalate "." ((split name ".").take (i + 1))⟩
  whole : p.segments.getLast?.map (·.segment) = some name
  grows : ∀ i a b, p.segments[i]? = some a → p.segments[i + 1]? = some b →
    ∃ part, part ≠ "" ∧ b.segment = a.segment ++ "." ++ part

/-- A path of one part, or with a first part that is longer than a byte. -/
def LongStart (name : String) : Prop :=
  ∀ first second rest, split name "." = first :: second :: rest → 1 < first.utf8ByteSize

/-! ### The loop -/

/-- The segments that the loop adds. -/
def beginningsFrom : Nat → String → List String → List PathSegment
  | _, _, [] => []
  | idx, curPart, part :: parts =>
    ⟨idx, growPart curPart part⟩ :: beginningsFrom (idx + 1) (growPart curPart part) parts

theorem parsedPathLoop_eq (name uid : String) (idx : Nat) (curPart : String) (parts : List String)
    (p : ParsedPath) :
    parsedPathLoop name uid idx curPart parts p =
      { p with
        segments := p.segments ++ beginningsFrom idx curPart parts
        paths := p.paths ++ (beginningsFrom idx curPart parts).map
          (⟨·, name, uid, p.len - 1, false⟩) } := by
  induction parts generalizing idx curPart p with
  | nil => simp [parsedPathLoop, beginningsFrom]
  | cons part parts ih => simp [parsedPathLoop, beginningsFrom, ih]

theorem newParsedPath_segments (name uid : String) :
    (newParsedPath name uid).segments = beginningsFrom 0 "" (split name ".") := by
  rw [newParsedPath, parsedPathLoop_eq]
  rfl

theorem length_beginningsFrom (idx : Nat) (curPart : String) (parts : List String) :
    (beginningsFrom idx curPart parts).length = parts.length := by
  induction parts generalizing idx curPart with
  | nil => rfl
  | cons part parts ih => rw [beginningsFrom, List.length_cons, List.length_cons, ih]

theorem growPart_long {curPart : String} (long : 1 < curPart.utf8ByteSize) (part : String) :
    growPart curPart part = curPart ++ "." ++ part := by
  rw [growPart, if_pos long]

theorem growPart_empty (part : String) : growPart "" part = part := String.empty_append

/-- From a beginning of two bytes on, every part comes after a dot. -/
theorem beginningsFrom_long {curPart : String} (long : 1 < curPart.utf8ByteSize) (idx : Nat)
    {parts : List String} {i : Nat} (inside : i < parts.length) :
    (beginningsFrom idx curPart parts)[i]? =
      some ⟨idx + i, String.intercalate "." (curPart :: parts.take (i + 1))⟩ := by
  induction parts generalizing idx curPart i with
  | nil => cases inside
  | cons part parts ih =>
    have longer : 1 < (growPart curPart part).utf8ByteSize := by
      rw [growPart_long long]
      simp only [String.utf8ByteSize_append]
      omega
    rw [beginningsFrom]
    cases i with
    | zero => simp [growPart_long long]
    | succ i =>
      rw [List.getElem?_cons_succ, ih longer (idx + 1) (Nat.lt_of_succ_lt_succ inside),
        growPart_long long, List.take_succ_cons, String.intercalate_cons_append,
        String.intercalate_cons_cons, Nat.add_right_comm, Nat.add_assoc]

/-- After a start that is long, or whole, each segment is the path up to its part. -/
theorem beginningsFrom_eq {name : String} (long : LongStart name) {i : Nat}
    (inside : i < (split name ".").length) :
    (beginningsFrom 0 "" (split name "."))[i]? =
      some ⟨i, String.intercalate "." ((split name ".").take (i + 1))⟩ := by
  rcases parts : split name "." with _ | ⟨first, rest⟩
  · rw [parts] at inside
    cases inside
  rw [parts, List.length_cons] at inside
  rw [beginningsFrom, growPart_empty]
  cases i with
  | zero => simp
  | succ i =>
    obtain ⟨second, rest, rfl⟩ := List.exists_cons_of_length_pos (l := rest) (by omega)
    rw [List.getElem?_cons_succ,
      beginningsFrom_long (long first second rest parts) 1 (Nat.lt_of_succ_lt_succ inside),
      Nat.add_comm 1 i]
    rfl

theorem intercalate_take_succ {parts : List String} {i : Nat} {part : String}
    (here : parts[i + 1]? = some part) :
    String.intercalate "." (parts.take (i + 1 + 1)) =
      String.intercalate "." (parts.take (i + 1)) ++ "." ++ part := by
  have started : parts.take (i + 1) ≠ [] := by
    rintro empty
    rcases List.take_eq_nil_iff.mp empty with zero | rfl
    · cases zero
    · cases here
  rw [List.take_add_one, here, Option.toList_some, intercalate_concat _ started]

/-- Where the segments are the paths up to their parts, they are all that is asked for. -/
theorem beginnings_of_segment {name : String} (solid : ∀ part ∈ split name ".", part ≠ "")
    {p : ParsedPath} (count : p.segments.length = (split name ".").length)
    (segment : ∀ i < (split name ".").length,
      p.segments[i]? = some ⟨i, String.intercalate "." ((split name ".").take (i + 1))⟩) :
    Beginnings name p := by
  refine ⟨count, segment, ?_, ?_⟩
  · have ne : split name "." ≠ [] := split_ne_nil rfl name
    have some := List.length_pos_of_ne_nil ne
    rw [List.getLast?_eq_getElem?, count, segment _ (by omega), Option.map_some,
      Nat.sub_add_cancel some, List.take_length, intercalate_split rfl]
  · intro i a b first second
    have inside : i + 1 < (split name ".").length :=
      count ▸ (List.getElem?_eq_some_iff.mp second).1
    rw [segment i (by omega)] at first
    rw [segment (i + 1) inside] at second
    cases first
    cases second
    exact ⟨_, solid _ (List.getElem_mem inside),
      intercalate_take_succ (List.getElem?_eq_getElem inside)⟩

/-- The segments of a path without an empty part are its beginnings exactly when it is one part
or starts with more than one byte. -/
theorem newParsedPath_beginnings_iff {name : String} (solid : ∀ part ∈ split name ".", part ≠ "")
    (uid : String) : Beginnings name (newParsedPath name uid) ↔ LongStart name := by
  constructor
  · intro beginnings first second rest parts
    by_contra short
    have inside : 1 < (split name ".").length := by
      rw [parts]
      simp
    have segment := beginnings.segment 1 inside
    -- the second segment lacks the dot, so it is shorter than the path up to its part
    rw [newParsedPath_segments, parts] at segment
    simp only [beginningsFrom, growPart_empty, List.getElem?_cons_succ, List.getElem?_cons_zero,
      Option.some.injEq, PathSegment.mk.injEq] at segment
    have text := congrArg String.utf8ByteSize segment.2
    rw [growPart, if_neg short] at text
    simp [String.utf8ByteSize_append] at text
  · intro long
    apply beginnings_of_segment solid
    · rw [newParsedPath_segments, length_beginningsFrom]
    · intro i inside
      rw [newParsedPath_segments]
      exact beginningsFrom_eq long inside

theorem newParsedPath_beginnings_servers :
    LongStart "servers.a.b" ∧ Beginnings "servers.a.b" (newParsedPath "servers.a.b" "u") := by
  have parts : split "servers.a.b" "." = ["servers", "a", "b"] := by decide
  have long : LongStart "servers.a.b" := by
    intro first second rest same
    rw [parts] at same
    cases same
    decide
  refine ⟨long, (newParsedPath_beginnings_iff ?_ "u").mpr long⟩
  rw [parts]
  decide

/-- The first dot is lost. -/
theorem newParsedPath_short_start :
    (newParsedPath "a.bc" "u").segments = [⟨0, "a"⟩, ⟨1, "abc"⟩] ∧
      ¬ Beginnings "a.bc" (newParsedPath "a.bc" "u") := by
  refine ⟨by decide, ?_⟩
  intro beginnings
  have whole := beginnings.whole
  revert whole
  decide

end Indexer
