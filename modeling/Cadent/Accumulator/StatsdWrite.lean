import Cadent.Accumulator.Statsd
import Cadent.Lib.OrderStats
import Mathlib.Data.Rat.Floor

/-!
# What statsd items write

`Flush` has every item write itself to the formatter. A call of the formatter is a name, a
number and a type; its time is always 0 and its tags are those of the accumulator. Numbers are
exact, so the deviation of a timer is a root. An index that is out of range is a panic, after
which nothing more is written. The seconds since the first value come from the clock.
-/

namespace Accumulator

open OrderStats Repr Text

/-- A number that is handed to the formatter. -/
inductive Number where
  | exact (value : ℚ)
  | root (square : ℚ)
  | notFinite
  deriving DecidableEq

def Number.of : Option ℚ → Number
  | some value => exact value
  | none => notFinite

structure Written where
  name : StatName
  value : Number
  stype : String
  deriving DecidableEq

/-- What was written, and whether there was a panic then. -/
structure Output where
  lines : List Written
  panicked : Bool
  deriving DecidableEq

namespace Output

/-- All of it is written. -/
def just (lines : List Written) : Output := ⟨lines, false⟩

def panic : Output := ⟨[], true⟩

/-- Some lines first. -/
def after (lines : List Written) (out : Output) : Output := { out with lines := lines ++ out.lines }

/-- One output and, unless it panics, another one. -/
def append (out later : Output) : Output := if out.panicked then out else later.after out.lines

/-- The numbers that were written under a name. -/
def valuesOf (out : Output) (name : StatName) : List Number :=
  (out.lines.filter (·.name = name)).map (·.value)

end Output

/-- The options that `GetOption` looks up; `root` is `Prefix`. -/
structure StatsdOptions where
  legacyStatsd : Bool
  root : String
  suffix : String
  gaugePrefix : String
  timerPrefix : String
  setPrefix : String
  counterPrefix : String
  thresholds : List ℚ

/-- What `SetOptions` starts from. -/
def StatsdOptions.defaults : StatsdOptions where
  legacyStatsd := true
  root := "stats"
  suffix := ""
  gaugePrefix := "gauges"
  timerPrefix := "timers"
  setPrefix := "sets"
  counterPrefix := "counters"
  thresholds := [9 / 10, 95 / 100, 99 / 100]

def dotted (part : String) : String := if part = "" then "" else part ++ "."

/-- What comes before the key of a metric. -/
def StatsdOptions.path (opts : StatsdOptions) (pref : String) : String :=
  dotted opts.root ++ dotted pref ++ dotted opts.suffix

/-- `tick`, which is never 0. -/
def ticks (elapsed : Int) : ℚ := if elapsed = 0 then 1 else elapsed

/-- A name with another key. -/
def named (inKey : StatName) (key : String) : StatName :=
  ⟨key, 0#64, "", 0#32, 0#32, inKey.tagMode, inKey.hashMode, inKey.tags, inKey.metaTags⟩

/-! ### Counters and gauges -/

def StatsdBaseStatItem.write (opts : StatsdOptions) (elapsed : Int) (s : StatsdBaseStatItem) :
    List Written :=
  let key := s.inKey.key
  if s.inType = "g" ∨ s.inType = "-g" ∨ s.inType = "+g" then
    let path := opts.root ++ "." ++ opts.gaugePrefix ++ "." ++ dotted opts.suffix
    [⟨{ named s.inKey (path ++ key) with tags := [], metaTags := [] }, .exact s.last, "g"⟩]
  else
    let path := opts.path opts.counterPrefix
    let perSecond := s.sum.map (· / ticks elapsed)
    if opts.legacyStatsd then
      [⟨named s.inKey (path ++ key), .of perSecond, "c"⟩,
        ⟨named s.inKey ("stats_counts." ++ dotted opts.suffix ++ key), .of s.sum, "c"⟩]
    else
      [⟨named s.inKey (path ++ "count." ++ key), .of s.sum, "c"⟩,
        ⟨named s.inKey (path ++ "rate." ++ key), .of perSecond, "c"⟩]

/-! ### Sets -/

def StatsdSetStatItem.write (opts : StatsdOptions) (s : StatsdSetStatItem) : List Written :=
  [⟨{ named s.inKey (opts.path opts.setPrefix ++ s.inKey.key) with tagMode := .metrics2 },
    .exact s.values.length, "s"⟩]

/-! ### Timers -/

/-- An element of a slice, if there is one. -/
def index (l : List ℚ) (i : Int) : Option ℚ := if i < 0 then none else l[i.toNat]?

def round (a : ℚ) : Int := if a < 0 then ⌈a - 1 / 2⌉ else ⌊a + 1 / 2⌋

/-- The median as `Write` picks it. -/
def timerMedian (count : Int) (values : List ℚ) : Option ℚ :=
  let mid := count / 2
  if mid % 2 = 0 then index values mid
  else if 1 < count then do
    let below ← index values (mid - 1)
    let above ← index values mid
    return (below + above) / 2
  else some 0

/-- `numInThreshold`: 0.9 and 90 are the same. -/
def numInThreshold (pct : ℚ) (count : Int) : Int :=
  round (|pct| * (if |pct| < 1 then 1 else 1 / 100) * count)

/-- `p_name`. -/
def thresholdName (pct : ℚ) : String :=
  replace (toString ⌊|pct| * (if |pct| < 1 then 100 else 1)⌋) "." ""

/-- The variables that are carried from one threshold to the next. -/
structure Threshold where
  sum : ℚ
  mean : ℚ
  boundary : ℚ
  num : Int
  deriving DecidableEq

/-- What one threshold makes of the variables. -/
def Threshold.next (count : Int) (values cumulativeValues : List ℚ) (th : Threshold) (pct : ℚ) :
    Option Threshold :=
  if 1 < count then
    let num := numInThreshold pct count
    if num = 0 then some { th with num := 0 }
    else if 0 < pct then do
      let boundary ← index values (num - 1)
      let sum ← index cumulativeValues (num - 1)
      return ⟨sum, sum / num, boundary, num⟩
    else do
      let boundary ← index values (count - num)
      let total ← index cumulativeValues (count - 1)
      let below ← index cumulativeValues (count - num - 1)
      return ⟨total - below, (total - below) / num, boundary, num⟩
  else some th

namespace StatsdTimerStatItem

def line (s : StatsdTimerStatItem) (opts : StatsdOptions) (part : String) (value : Number)
    (stype : String) : Written :=
  ⟨named s.inKey (opts.path opts.timerPrefix ++ s.inKey.key ++ part), value, stype⟩

/-- The four lines of a threshold. -/
def thresholdLines (s : StatsdTimerStatItem) (opts : StatsdOptions) (pct : ℚ) (th : Threshold) :
    List Written :=
  let name := thresholdName pct
  [s.line opts (".count_" ++ name) (.exact th.num) "c",
    s.line opts (".mean_" ++ name) (.exact th.mean) "g",
    s.line opts (".sum_" ++ name) (.exact th.sum) "g",
    s.line opts ((if 0 < pct then ".upper_" else ".lower_") ++ name) (.exact th.boundary) "g"]

/-- The loop over the thresholds. -/
def writeThresholds (s : StatsdTimerStatItem) (opts : StatsdOptions)
    (values cumulativeValues : List ℚ) : Threshold → List ℚ → Output
  | _, [] => .just []
  | th, pct :: rest =>
    match th.next s.count values cumulativeValues pct with
    | none => .panic
    | some th =>
      -- the loop goes on to the next threshold when there is nothing in this one
      (s.writeThresholds opts values cumulativeValues th rest).after
        (if 1 < s.count ∧ th.num = 0 then [] else s.thresholdLines opts pct th)

/-- The lines that do not depend on the values' order. -/
def writeTotals (s : StatsdTimerStatItem) (opts : StatsdOptions) (elapsed : Int) : List Written :=
  [s.line opts ".count" (.of s.sampleSum) "c",
    s.line opts ".count_ps" (.of (s.sampleSum.map (· / ticks elapsed))) "c",
    s.line opts ".lower" (.exact (if s.min = minFlag then 0 else s.min)) "g",
    s.line opts ".upper" (.exact (if s.max = minFlag then 0 else s.max)) "g",
    s.line opts ".sum" (.exact s.sum) "g"]

def writeMiddle (s : StatsdTimerStatItem) (opts : StatsdOptions) (mean : ℚ) (std : Number)
    (median : ℚ) : List Written :=
  [s.line opts ".mean" (.exact mean) "g", s.line opts ".std" std "g",
    s.line opts ".median" (.exact median) "g"]

def write (opts : StatsdOptions) (elapsed : Int) (s : StatsdTimerStatItem) : Output :=
  let values := sorted s.values
  let cumulativeValues := running s.min values.tail
  let avg : ℚ := s.sum / s.count
  let std : ℚ := (values.map fun v => (v - avg) ^ 2).sum / s.count
  Output.after (s.writeTotals opts elapsed) <|
    if s.count = 0 then .just (s.writeMiddle opts 0 (.exact 0) 0)
    else if 0 < s.count then
      match timerMedian s.count values with
      | none => .panic
      | some median =>
        (s.writeThresholds opts values cumulativeValues ⟨s.min, s.min, s.max, s.count⟩
          opts.thresholds).after (s.writeMiddle opts avg (.root std) median)
    else .just []

end StatsdTimerStatItem

/-! ### Flushing -/

def StatsdItem.write (opts : StatsdOptions) (elapsed : Int) : StatsdItem → Output
  | base s => .just (s.write opts elapsed)
  | timer s => s.write opts elapsed
  | set s => .just (s.write opts)

/-- What `Flush` writes when it walks the map in some order, with the seconds that have passed for
each item. -/
def Store.writeAll (opts : StatsdOptions) (st : Store StatsdItem) (order : List (String × Int)) :
    Output :=
  (order.filterMap fun (key, elapsed) => (st.item? key).map (StatsdItem.write opts elapsed)).foldl
    Output.append (.just [])

end Accumulator
