import Cadent.Accumulator.StatItem
import Cadent.Schemas.Aggregator

/-!
# Graphite lines

A line is a key, a value and a time in seconds, and may have tags after them. Its item is
the one of the key, with the tags that are part of the identity, and the time bucket. A time
that is no `int64` is taken to be now.
-/

namespace Accumulator

open Keys Repr Text

structure GraphiteBaseStatItem where
  inKey : StatName
  values : List ℚ
  time : Int
  min : ℚ
  max : ℚ
  sum : ℚ
  last : ℚ
  count : Int
  deriving DecidableEq

namespace GraphiteBaseStatItem

def repr (_now : Int) (s : GraphiteBaseStatItem) : Stat where
  time := unixNano s.time
  name := s.inKey
  min := checkFloat (some s.min)
  max := checkFloat (some s.max)
  count := s.count
  sum := checkFloat (some s.sum)
  last := checkFloat (some s.last)

def zeroOut (s : GraphiteBaseStatItem) : GraphiteBaseStatItem :=
  { s with
    time := -zeroTime, values := [], min := minFlag, max := minFlag, sum := 0, count := 0,
    last := minFlag }

def accumulate (s : GraphiteBaseStatItem) (value : Option ℚ) : GraphiteBaseStatItem :=
  match value with
  | none => s
  | some val =>
    { s with
      values := s.values ++ [val]
      min := if s.min = minFlag ∨ val < s.min then val else s.min
      max := if s.max = minFlag ∨ s.max < val then val else s.max
      count := s.count + 1
      sum := s.sum + val
      last := val }

end GraphiteBaseStatItem

structure GraphiteAccumulate where
  resolution : Int
  tagMode : TagMode
  hashMode : HashMode

/-- What a line says, with the time in nanoseconds. -/
structure GraphiteLine where
  key : String
  tags : List Tag
  metaTags : List Tag
  time : Int
  value : Option ℚ
  deriving DecidableEq

namespace GraphiteAccumulate

variable (env : Naming) (parseFloat : String → Option Parsed) (a : GraphiteAccumulate)

def mapKey (name : String) (t : Int) : String :=
  dashed name (unixNano (truncate t a.resolution)).toInt

/-- A line and the time at which it came. -/
def parse (raw : String × Int) : Except String GraphiteLine :=
  match fields raw.1 with
  | key :: val :: intime :: rest =>
    let t := match parseInt intime with
      | some i => i * 1000000000
      | none => raw.2
    match parseFloat val with
    | none => .error ("Accumulate: Bad Value | Invalid Graphite line `" ++ raw.1 ++ "`")
    | some value =>
      let tags := sortingTagsFromArray rest
      let (tgs, metaTags) := match a.tagMode with
        | .all => (tags, [])
        | .metrics2 => splitIntoMetric2Tags [] tags
      .ok ⟨key, env.sortTags tgs, metaTags, t, value.value?⟩
  | _ => .error ("Accumulate: Invalid Graphite line `" ++ raw.1 ++ "`")

def statKey (line : GraphiteLine) : String :=
  a.mapKey (line.key ++ toStringSep line.tags "." ".") line.time

def fresh (line : GraphiteLine) : GraphiteBaseStatItem where
  time := truncate line.time a.resolution
  inKey := ⟨line.key, 0#64, "", 0#32, 0#32, a.tagMode, a.hashMode, line.tags, line.metaTags⟩
  values := []
  count := 0
  sum := 0
  min := minFlag
  max := minFlag
  last := minFlag

def kind : Kind (String × Int) GraphiteLine GraphiteBaseStatItem where
  parse := a.parse env parseFloat
  key := a.statKey
  fresh := a.fresh
  accumulate s line := s.accumulate line.value
  zeroOut := GraphiteBaseStatItem.zeroOut
  repr := GraphiteBaseStatItem.repr

@[simp] theorem kind_parse : (a.kind env parseFloat).parse = a.parse env parseFloat := by
  rw [kind]

@[simp] theorem kind_key : (a.kind env parseFloat).key = a.statKey := by
  rw [kind]

end GraphiteAccumulate

end Accumulator
