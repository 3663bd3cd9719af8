import Cadent.Accumulator.StatItem

/-!
# Statsd lines

A line is `<key>:<value>|<type>|@<sample>|#tags`. Counters and gauges share one type of item,
and timers and sets have their own. The values of a set are counted by hashes, which come
from outside of the repository; the type is part of the key, so a set has lines of its own.
`start_time` and the thresholds are only read by `Write`.
-/

namespace Accumulator

open Repr Text

structure StatsdBaseStatItem where
  inKey : StatName
  count : Int
  min : ℚ
  max : ℚ
  sum : Option ℚ
  last : ℚ
  inType : String
  deriving DecidableEq

structure StatsdTimerStatItem where
  inKey : StatName
  inType : String
  count : Int
  min : ℚ
  max : ℚ
  sum : ℚ
  last : ℚ
  sampleSum : Option ℚ
  values : List ℚ
  deriving DecidableEq

structure StatsdSetStatItem where
  inKey : StatName
  inType : String
  values : List (BitVec 64)
  deriving DecidableEq

inductive StatsdItem where
  | base (item : StatsdBaseStatItem)
  | timer (item : StatsdTimerStatItem)
  | set (item : StatsdSetStatItem)
  deriving DecidableEq

/-- What a line says; `weight` is one over the sample rate. -/
structure StatsdLine where
  key : String
  cType : String
  val : String
  value : Option ℚ
  weight : Option ℚ
  tags : List Tag
  tagstr : String
  deriving DecidableEq

/-- Sums of values, which are no longer finite once one was not. -/
def addFinite (a b : Option ℚ) : Option ℚ := a.bind fun a => b.map fun b => a + b

/-- `1.0 / sample`. -/
def Parsed.inverse : Parsed → Option ℚ
  | finite value => if value = 0 then none else some (1 / value)
  | inf => some 0
  | nan => none

def StatsdBaseStatItem.accumulate (s : StatsdBaseStatItem) (value sample : Option ℚ) :
    StatsdBaseStatItem :=
  match value with
  | none => s
  | some val =>
    { s with
      sum :=
        if s.inType = "c" then addFinite s.sum (sample.map (val * ·))
        else if s.inType = "g" then some val
        else if s.inType = "-g" then addFinite s.sum (some (-val))
        else if s.inType = "+g" then addFinite s.sum (some val)
        else s.sum
      min := if s.min = minFlag ∨ val < s.min then val else s.min
      max := if s.max = minFlag ∨ s.max < val then val else s.max
      last := val
      count := s.count + 1 }

def StatsdTimerStatItem.accumulate (s : StatsdTimerStatItem) (value sample : Option ℚ) :
    StatsdTimerStatItem :=
  match value with
  | none => s
  | some val =>
    { s with
      count := s.count + 1
      sum := s.sum + val
      min := if s.min = minFlag ∨ val < s.min then val else s.min
      max := if s.max = minFlag ∨ s.max < val then val else s.max
      last := val
      sampleSum := addFinite s.sampleSum sample
      values := s.values ++ [val] }

def StatsdSetStatItem.accumulate (s : StatsdSetStatItem) (hash : BitVec 64) : StatsdSetStatItem :=
  { s with values := s.values.insert hash }

namespace StatsdItem

def accumulate (hashed : String → BitVec 64) (item : StatsdItem) (line : StatsdLine) : StatsdItem :=
  match item with
  | base s => base (s.accumulate line.value line.weight)
  | timer s => timer (s.accumulate line.value line.weight)
  | set s => set (s.accumulate (hashed line.val))

def zeroOut : StatsdItem → StatsdItem
  | base s => base { s with
      min := minFlag, max := minFlag, sum := some 0, count := 0, last := minFlag }
  | timer s => timer { s with
      values := [], min := minFlag, max := minFlag, sum := 0, count := 0, last := minFlag
      sampleSum := some 0 }
  | set s => set { s with values := [] }

def repr (now : Int) : StatsdItem → Stat
  | base s => ⟨s.inKey, 0#64, checkFloat (some s.min), checkFloat (some s.max),
      checkFloat (some s.last), checkFloat s.sum, s.count⟩
  | timer s => ⟨s.inKey, BitVec.ofInt 64 now, checkFloat (some s.min), checkFloat (some s.max),
      checkFloat (some s.last), checkFloat (some s.sum), s.count⟩
  | set s => ⟨s.inKey, BitVec.ofInt 64 now, s.values.length, s.values.length, s.values.length,
      s.values.length, s.values.length⟩

end StatsdItem

structure StatsdAccumulate where
  tagMode : TagMode
  hashMode : HashMode

namespace StatsdAccumulate

variable (env : Naming) (parseFloat : String → Option Parsed) (hashed : String → BitVec 64)
variable (a : StatsdAccumulate)

/-- A gauge that is changed by its value, which `strings.Contains` is asked for with its
arguments swapped. -/
def gaugeType (cType val : String) : String :=
  if cType = "g" then
    if contains "-" val then "-g" else if contains "+" val then "+g" else cType
  else cType

/-- The value, which a set does not need to have. -/
def parseValue (line cType val : String) : Except String (Option ℚ) :=
  if cType = "s" then .ok (some 0)
  else
    match parseFloat val with
    | none => .error ("Accumulate: Bad Value | Invalid Statds line `" ++ line ++ "`")
    | some value => .ok value.value?

/-- One over the sample rate, and the text of the value, which the rate overwrites. -/
def parseSample (line val : String) (valType : List String) : Except String (Option ℚ × String) :=
  match valType with
  | [_, _, rate] =>
    match split rate "@" with
    | [before, sample] =>
      match parseFloat sample with
      | none => .error ("Accumulate: Bad Sample number | Invalid Statds line `" ++ line ++ "`")
      | some sample => .ok (sample.inverse, before)
    | _ => .error ("Accumulate: Sample | Invalid Statds line `" ++ line ++ "`")
  | _ => .ok (some 1, val)

def parse (line : String) : Except String StatsdLine := do
  let gotTags := split line "|#"
  match split (gotTags.headD "") ":" with
  | key :: second :: _ =>
    let valType := split second "|"
    let val := valType.headD ""
    let cType := gaugeType (valType.getD 1 "c") val
    let value ← parseValue parseFloat line cType val
    let (weight, val) ← parseSample parseFloat line val valType
    match gotTags with
    | _ :: tagstr :: _ =>
      return ⟨key, cType, val, value, weight, env.sortTags (sortingTagsFromString tagstr), tagstr⟩
    | _ => return ⟨key, cType, val, value, weight, [], ""⟩
  | _ => .error ("Accumulate: Invalid Statds line `" ++ line ++ "`")

def statKey (line : StatsdLine) : String :=
  line.key ++ "|" ++ line.cType ++ "|#" ++ line.tagstr

def inKey (line : StatsdLine) : StatName :=
  ⟨line.key, 0#64, "", 0#32, 0#32, a.tagMode, a.hashMode, line.tags, []⟩

def fresh (line : StatsdLine) : StatsdItem :=
  if line.cType = "ms" ∨ line.cType = "h" then
    .timer ⟨a.inKey line, "ms", 0, minFlag, minFlag, 0, minFlag, some 0, []⟩
  else if line.cType = "s" then .set ⟨a.inKey line, "s", []⟩
  else .base ⟨a.inKey line, 0, minFlag, minFlag, some 0, minFlag, line.cType⟩

def kind : Kind String StatsdLine StatsdItem where
  parse := parse env parseFloat
  key := statKey
  fresh := a.fresh
  accumulate := StatsdItem.accumulate hashed
  zeroOut := StatsdItem.zeroOut
  repr := StatsdItem.repr

@[simp] theorem kind_parse : (a.kind env parseFloat hashed).parse = parse env parseFloat := by
  rw [kind]

@[simp] theorem kind_key : (a.kind env parseFloat hashed).key = statKey := by
  rw [kind]

end StatsdAccumulate

end Accumulator
