import Cadent.Accumulator.CarbonTwo

/-!
# JSON lines

The line is decoded by the standard library, which is a parameter. The items are those of
graphite under other names. With all tags kept, the tags of a line are not looked at. In the
other mode `Metric2FromMap` starts from lists that are nil: it panics at the first tag, and
`ToStringSep` does when there is none.
-/

namespace Accumulator

open Keys Repr

structure JsonStructSplitItem where
  metric : String
  value : ℚ
  time : Int
  tags : List (String × String)

abbrev JsonBaseStatItem := GraphiteBaseStatItem

structure JsonAccumulate where
  resolution : Int
  tagMode : TagMode
  hashMode : HashMode

namespace JsonAccumulate

variable (unmarshal : String → Except String JsonStructSplitItem) (a : JsonAccumulate)

def mapKey (name : String) (t : Int) : String :=
  dashed name (unixNano (truncate t a.resolution)).toInt

def readTime (time now : Int) : Int :=
  if 0 < time then if 2147483647 < time then time else time * 1000000000 else now

/-- A line and the time at which it came. -/
def parse (raw : String × Int) : Except Failure GraphiteLine :=
  match unmarshal raw.1 with
  | .error text => .error (.error text)
  | .ok spl =>
    match a.tagMode with
    | .all => .ok ⟨spl.metric, [], [], readTime spl.time raw.2, some spl.value⟩
    | .metrics2 => .error .panic

def statKey (line : GraphiteLine) : String :=
  a.mapKey (line.key ++ toStringSep line.tags "." ".") line.time

def fresh (line : GraphiteLine) : JsonBaseStatItem where
  time := truncate line.time a.resolution
  inKey := ⟨line.key, 0#64, "", 0#32, 0#32, a.tagMode, a.hashMode, line.tags, line.metaTags⟩
  values := []
  count := 0
  sum := 0
  min := minFlag
  max := minFlag
  last := minFlag

/-- A panic is told by its text here. -/
def kind : Kind (String × Int) GraphiteLine JsonBaseStatItem where
  parse raw := (a.parse unmarshal raw).mapError fun
    | .error text => text
    | .panic => "runtime error: invalid memory address or nil pointer dereference"
  key := a.statKey
  fresh := a.fresh
  accumulate s line := s.accumulate line.value
  zeroOut := GraphiteBaseStatItem.zeroOut
  repr := GraphiteBaseStatItem.repr

end JsonAccumulate

end Accumulator
