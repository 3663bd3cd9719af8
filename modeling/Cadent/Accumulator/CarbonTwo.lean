import Cadent.Accumulator.Graphite

/-!
# Carbon2 lines

A line is a text of tags, two spaces, other tags, a value and a time; without the two spaces
there should be no other tags. The key of the metric is made of the tags in order. A time of
more than 32 bits is taken in nanoseconds, and one that is no `int64` to be now. The items are
those of graphite under other names. A line without any field is indexed out of range.
-/

namespace Repr

/-- `Find`; a tag that is missing has no value. -/
def findTag (tags : List Tag) (name : String) : String :=
  ((tags.find? (·.name = name)).map (·.value)).getD ""

def unit (tags : List Tag) : String := findTag tags "unit"

def mtype (tags : List Tag) : String :=
  let got := findTag tags "mtype"
  if got = "" then findTag tags "target_type" else got

/-- `Merge`; tags that come in overwrite those of their name. -/
def mergeTags (s tags : List Tag) : List Tag :=
  if tags = [] then s
  else if s = [] then tags
  else tags.foldl (fun s tag => setTag s tag.name tag.value) s

end Repr

namespace Accumulator

open Keys Repr Text

abbrev CarbonTwoBaseStatItem := GraphiteBaseStatItem

structure CarbonTwoAccumulate where
  resolution : Int
  tagMode : TagMode
  hashMode : HashMode

/-- What a line says, with the time in nanoseconds. -/
structure CarbonTwoLine where
  tags : List Tag
  metaTags : List Tag
  time : Int
  value : Option ℚ
  deriving DecidableEq

/-- How `ProcessLine` ends when it does not take a line in. -/
inductive Failure where
  | error (text : String)
  | panic
  deriving DecidableEq, Repr

def Failure.text : Failure → String
  | error text => text
  | panic => "runtime error: slice bounds out of range"

namespace CarbonTwoAccumulate

variable (env : Naming) (parseFloat : String → Option Parsed) (a : CarbonTwoAccumulate)

def mapKey (name : String) (t : Int) : String :=
  dashed name (unixNano (truncate t a.resolution)).toInt

/-- The text of the tags, and the fields after it. -/
def cut (line : String) : Except Failure (String × List String) :=
  match split line "  " with
  | key :: second :: _ => .ok (key, fields second)
  | pieces =>
    match fields line with
    | [] => .error .panic
    | _ :: vals => .ok (pieces.headD "", vals)

/-- The last field, when it is an `int64`. -/
def readTime (intime : String) (now : Int) : Int :=
  match parseInt intime with
  | some i => if 2147483647 < i then i else i * 1000000000
  | none => now

/-- A line and the time at which it came. -/
def parse (raw : String × Int) : Except Failure CarbonTwoLine :=
  match cut raw.1 with
  | .error failure => .error failure
  | .ok (key, vals) =>
    match vals.reverse with
    | intime :: val :: others =>
      match parseFloat val with
      | none => .error (.error ("Accumulate: Bad Value | Invalid CarbonTwo line `" ++ raw.1 ++ "`"))
      | some value =>
        let tags := sortingTagsFromString key
        if unit tags = "" then .error (.error "unit Tag is required")
        else if mtype tags = "" then .error (.error "mtype Tag is required")
        else
          let metaTags := sortingTagsFromArray others.reverse
          let (tags, metaTags) := match a.tagMode with
            | .all => (mergeTags tags metaTags, [])
            | .metrics2 => (tags, metaTags)
          .ok ⟨env.sortTags tags, metaTags, readTime intime raw.2, value.value?⟩
    | _ => .error (.error ("Accumulate: Invalid CarbonTwo line `" ++ raw.1 ++ "`"))

def uniqueKey (line : CarbonTwoLine) : String := toStringSep line.tags "_is_" "."

def statKey (line : CarbonTwoLine) : String := a.mapKey (uniqueKey line) line.time

def fresh (line : CarbonTwoLine) : CarbonTwoBaseStatItem where
  time := truncate line.time a.resolution
  inKey := ⟨uniqueKey line, 0#64, "", 0#32, 0#32, a.tagMode, a.hashMode, line.tags, line.metaTags⟩
  values := []
  count := 0
  sum := 0
  min := minFlag
  max := minFlag
  last := minFlag

/-- A panic is told by its text here. -/
def kind : Kind (String × Int) CarbonTwoLine CarbonTwoBaseStatItem where
  parse raw := (a.parse env parseFloat raw).mapError Failure.text
  key := a.statKey
  fresh := a.fresh
  accumulate s line := s.accumulate line.value
  zeroOut := GraphiteBaseStatItem.zeroOut
  repr := GraphiteBaseStatItem.repr

@[simp] theorem kind_parse (raw : String × Int) : (a.kind env parseFloat).parse raw =
    (a.parse env parseFloat raw).mapError Failure.text := by
  rw [kind]

end CarbonTwoAccumulate

example : CarbonTwoAccumulate.parse plainNaming wholeNumber ⟨1, .metrics2, .fnv⟩
    ("mtype=count unit=B  host=a 7 12", 0) =
    .ok ⟨[⟨"mtype", "count"⟩, ⟨"unit", "B"⟩], [⟨"host", "a"⟩], 12000000000, some 7⟩ := by
  decide +kernel

end Accumulator
