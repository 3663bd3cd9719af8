import Cadent.Accumulator.Json
import Cadent.Lib.Replacing

/-!
# Splitters

A splitter reads a line and writes what it finds to an item, which comes from a pool or is new.
`ProcessLine` has that item as an argument here. A line is a text; a byte that is not part of a
character is read as U+FFFD, as the functions of the standard library do. Times are in
nanoseconds, and the indexes of a configuration are not negative. The fields of a Carbon 2.0 item
are only printed and are left out, and so is the splitter of regular expressions.
-/

namespace Splitter

open Accumulator (JsonStructSplitItem)
open Text

inductive Phase where
  | parsed
  | accumulatedParsed
  | sent
  deriving DecidableEq, Repr

inductive Origin where
  | tcp
  | udp
  | http
  | other
  deriving DecidableEq, Repr

/-- The items of all splitters; those of statsd have no time, and it stays as it was made. -/
structure SplitItem where
  inkey : String
  inline : String
  intime : Int
  inphase : Phase
  inorigin : Origin
  inoname : String
  tags : List (String × String)
  deriving DecidableEq, Repr

/-- `time.Time{}`, the beginning of the year 1. -/
def zeroTime : Int := -62135596800000000000

namespace SplitItem

/-- `new` of an item. -/
def new : SplitItem := ⟨"", "", zeroTime, .parsed, .tcp, "", []⟩

def setPhase (item : SplitItem) (n : Phase) : SplitItem := { item with inphase := n }

def setOrigin (item : SplitItem) (n : Origin) : SplitItem := { item with inorigin := n }

def setOriginName (item : SplitItem) (n : String) : SplitItem := { item with inoname := n }

end SplitItem

/-- How `ProcessLine` ends when it returns no item. -/
inductive Failure where
  | error (text : String)
  | panic
  deriving DecidableEq, Repr

/-- Seconds, or nanoseconds when there are too many of them. -/
def unixTime (i : Int) : Int := if 2147483647 < i then i else i * 1000000000

/-! ### Graphite and OpenTSDB -/

/-- The variable of the package: `init` fills a local one of the same name. -/
def graphiteReplacerByteMap : List (Char × Char) := []

def graphiteByteReplace (bs : String) : String :=
  let bs := trimSpace bs
  let bs := String.ofList (bs.toList.map fun b => (graphiteReplacerByteMap.lookup b).getD b)
  let bs := replace bs ".." "."
  replace bs "==" "="

/-- No character is replaced, and of two dots or two equal signs one is left. -/
theorem toList_graphiteByteReplace (bs : String) :
    (graphiteByteReplace bs).toList = halve '=' (halve '.' (trimSpace bs).toList) := by
  have none : ((trimSpace bs).toList.map fun b => (graphiteReplacerByteMap.lookup b).getD b) =
      (trimSpace bs).toList := List.map_id _
  rw [graphiteByteReplace, toList_replace_pair (c := '=') (by decide) (by decide),
    toList_replace_pair (c := '.') (by decide) (by decide), String.toList_ofList, none]

attribute [irreducible] graphiteByteReplace

structure GraphiteSplitter where
  keyIndex : Nat
  timeIndex : Nat
  failOnBadTime : Bool
  deriving DecidableEq

/-- `MinTimeDelta`, in seconds. -/
def minTimeDelta : Int := 362 * 24 * 60 * 60

namespace GraphiteSplitter

/-- What `NewGraphiteSplitter` makes without a configuration. -/
def default : GraphiteSplitter := ⟨0, 2, true⟩

variable (g : GraphiteSplitter)

def readTime (now : Int) (graphiteArray : List String) : Except Failure Int :=
  match graphiteArray[g.timeIndex]? with
  | none => .ok zeroTime
  | some text =>
    match parseInt text with
    | some i =>
      let t := unixTime i
      if g.failOnBadTime ∧ minTimeDelta < |t / 1000000000 - now / 1000000000| then
        .error (.error "Invalid Graphite Time Field")
      else .ok t
    | none =>
      if g.failOnBadTime then .error (.error "Invalid Graphite Time Field") else .ok zeroTime

def processLine (now : Int) (gi : SplitItem) (line : String) : Except Failure SplitItem :=
  let line := graphiteByteReplace line
  let graphiteArray := fields line
  match graphiteArray[g.keyIndex]? with
  | none => .error (.error "Invalid Graphite/Space line")
  | some key =>
    match g.readTime now graphiteArray with
    | .error failure => .error failure
    | .ok t => .ok { gi with
        inkey := key, inline := line, intime := t, inphase := .parsed, inorigin := .other }

theorem item_of_ok {g : GraphiteSplitter} {now : Int} {gi item : SplitItem} {line : String}
    (accepted : g.processLine now gi line = .ok item) :
    ∃ key t, (fields (graphiteByteReplace line))[g.keyIndex]? = some key ∧
      item = { gi with
        inkey := key, inline := graphiteByteReplace line, intime := t, inphase := .parsed
        inorigin := .other } := by
  rw [processLine] at accepted
  generalize graphiteByteReplace line = text at accepted ⊢
  rcases array : (fields text)[g.keyIndex]? with _ | key
  · simp only [array] at accepted
    cases accepted
  · rcases time : g.readTime now (fields text) with failure | t
    · simp only [array, time] at accepted
      cases accepted
    · simp only [array, time] at accepted
      exact ⟨key, t, rfl, (Except.ok.inj accepted).symm⟩

end GraphiteSplitter

namespace OpenTSDBSplitter

/-- The splitter that `NewOpenTSDBSplitter` makes. -/
def graphSplit : GraphiteSplitter := ⟨0, 2, false⟩

def processLine (now : Int) (gi : SplitItem) (line : String) : Except Failure SplitItem :=
  if "put ".toList.isPrefixOf line.toList then
    graphSplit.processLine now gi (.ofList (line.toList.drop 4))
  else .error (.error "Invalid OpenTSDB line")

end OpenTSDBSplitter

/-! ### Statsd -/

namespace StatsdSplitter

def processLine (si : SplitItem) (line : String) : Except Failure SplitItem :=
  match split line ":" with
  | key :: _ :: _ => .ok { si with
      inkey := key, inline := line, inphase := .parsed, inorigin := .other }
  | _ => .error (.error ("Invalid Statsd line: " ++ line))

end StatsdSplitter

/-! ### Carbon 2.0 -/

/-- What `CARBONTWO_REPLACER` was made of. -/
def carbonTwoReplacer : List (List Char × List Char) :=
  [(['.', '.'], ['.']), ([','], ['_']), (['*'], ['_']), (['('], ['_']), ([')'], ['_']),
    (['\x7b'], ['_']), (['\x7d'], ['_'])]

namespace CarbonTwoSplitter

def clean (inline : String) : String := .ofList (replaceFrom carbonTwoReplacer 0 inline.toList)

/-- The key, and the fields after it. -/
def cut (line : String) : Except Failure (String × List String) :=
  match split line "  " with
  | key :: second :: _ => .ok (key, fields second)
  | _ =>
    let vs := fields line
    if vs.length < 3 then .error (.error "Invalid Carbon2.0 line")
    else .ok (String.intercalate " " (vs.take (vs.length - 2)), vs.drop (vs.length - 2))

/-- The last field; `now` when it is not an `int64`. -/
def readTime (now : Int) (intime : String) : Except Failure Int :=
  match parseInt intime with
  | some i => if i ≤ 0 then .error (.error "Invalid Carbon2.0 line") else .ok (unixTime i)
  | none => .ok now

/-- The second part is taken without asking whether there is one. -/
def readTag (val : String) : Except Failure (String × String) :=
  match split val "=" with
  | name :: value :: _ => .ok (name, value)
  | _ => .error .panic

def readTags (vals : List String) : Except Failure (List (String × String)) :=
  if 4 ≤ vals.length then (vals.take (vals.length - 2)).mapM readTag else .ok []

def processLine (now : Int) (gi : SplitItem) (inline : String) : Except Failure SplitItem := do
  let line := clean inline
  let (key, vals) ← cut line
  if vals.length < 2 then .error (.error "Invalid Carbon2.0 line")
  else
    let t ← readTime now (vals.getLastD "")
    let otags ← readTags vals
    return { gi with
      inkey := key, inline := line, intime := t, tags := otags, inphase := .parsed
      inorigin := .other }

end CarbonTwoSplitter

/-! ### JSON -/

namespace JsonSplitter

/-- A new struct. -/
def newStruct : JsonStructSplitItem := ⟨"", 0, 0, []⟩

def getStructJsonItem : Option JsonStructSplitItem → JsonStructSplitItem
  | none => newStruct
  | some x => { x with metric := "", tags := [], time := 0, value := 0 }

variable (marshal : JsonStructSplitItem → String)
variable (range : List (String × String) → List (String × String))

/-- The tags are read in the order in which `range` goes over the map. -/
def parseJson (splItem : SplitItem) (jItem : JsonStructSplitItem) : Except Failure SplitItem :=
  if jItem.metric = "" then .error (.error "Invalid Json object")
  else .ok { splItem with
    inkey := jItem.metric
    intime := unixTime jItem.time
    tags := if jItem.tags ≠ [] then range jItem.tags else splItem.tags
    inline := marshal jItem }

/-- `json.Unmarshal` writes to a struct. -/
def processLine (unmarshal : JsonStructSplitItem → String → Except String JsonStructSplitItem)
    (splItem : SplitItem) (pooled : Option JsonStructSplitItem) (line : String) :
    Except Failure SplitItem :=
  match unmarshal (getStructJsonItem pooled) line with
  | .error text => .error (.error text)
  | .ok jItem => parseJson marshal range splItem jItem

end JsonSplitter

end Splitter
