import Cadent.Utils.Trie

/-!
# The metric index in memory

`MetricIndex` knows metrics by path, by uid and in a trie, and when each was last seen. The
calls run one after another, as their locks make them. Times are nanoseconds, the clock is read
from the caller. The LevelDB partitions are opened and deleted from but nothing is written to
them, so only the choice of a partition, which can fail, is here. The regular expressions of a
search are compiled by a function that the caller gives, and the order in which a Go map is
iterated is an argument too.
-/

namespace Indexer

open Maps Text Utils

/-! ### Queries -/

def needRegex (metric : String) : Bool := containsAny metric "(|*?[\x7b^$"

def regifyKeyString (name : String) : String :=
  let regable := replace name ".." "."
  let regable := replace regable "\x7b" "("
  let regable := replace regable "\x7d" ")"
  let regable := replace regable "," "|"
  let regable := replace regable "." "\\."
  replace regable "*" ".*"

def fullRegString (name : String) : String :=
  let regable := regifyKeyString name
  let regable := if regable.toList.head? = some '^' then regable else "^" ++ regable
  if regable.toList.getLast? = some '$' then regable else regable ++ "$"

/-- The loop of `splitMetricsPath` inside or outside of braces, the piece so far read last to
first. -/
def splitMetricsPathFrom (gotFirst : Bool) (onStr : List Char) : List Char → List String
  | [] => if onStr = [] then [] else [String.ofList onStr.reverse]
  | c :: cs =>
    if c = '\x7b' then splitMetricsPathFrom true (c :: onStr) cs
    else if c = '\x7d' then splitMetricsPathFrom false (c :: onStr) cs
    else if c = ',' ∧ !gotFirst then
      String.ofList onStr.reverse :: splitMetricsPathFrom gotFirst [] cs
    else splitMetricsPathFrom gotFirst (c :: onStr) cs

def splitMetricsPath (metric : String) : List String :=
  splitMetricsPathFrom false [] metric.toList

/-- Whether a part is a pattern is asked of the whole query. -/
def toTrieQuery (metric : String) : String :=
  String.intercalate "." ((split metric ".").map fun spl =>
    if containsAny metric "*?[\x7b^$\x7d])(" then "*" else spl)

example : splitMetricsPath "a.\x7bb,c\x7d,d," = ["a.\x7bb,c\x7d", "d"] := by decide

/-! ### The index -/

structure TrieItem where
  uid : String
  lastHit : Int
  path : String
  deriving DecidableEq

structure MetricIndex where
  nameIndex : Map String String
  uidIndex : Map String String
  lastHit : Map String Int
  trieIndex : Trie TrieItem

structure MetricFindItem where
  text : String
  id : String
  path : String
  uniqueId : String
  expandable : Nat
  leaf : Nat
  allowChildren : Nat
  deriving DecidableEq

/-- What a call answers: nothing, `ErrorCannotDeleteByRegex`, or a panic. -/
inductive Outcome where
  | done
  | cannotDeleteByRegex
  | panicked
  deriving DecidableEq

def numPartitions : Nat := 16

/-- The partition of a path; the index -1 is out of range. -/
def whichPartition (met : String) : Option Nat :=
  let part := met.toList.count '.' + 1
  if part % numPartitions = 0 then none else some (part % numPartitions - 1)

namespace MetricIndex

def new : MetricIndex := ⟨∅, ∅, ∅, Utils.new "."⟩

variable (mi : MetricIndex)

def add (uid path : String) (now : Int) : MetricIndex :=
  match mi.nameIndex.lookup path with
  | some _ => { mi with lastHit := mi.lastHit.insert uid now }
  | none =>
    { mi with
      nameIndex := mi.nameIndex.insert path uid
      uidIndex := mi.uidIndex.insert uid path
      trieIndex := mi.trieIndex.put path ⟨uid, now, path⟩ }

def setLastSeen (uid : String) (lastseen : Int) : MetricIndex :=
  { mi with lastHit := mi.lastHit.insert uid lastseen }

def contains (metric : String) : String := (mi.nameIndex.lookup metric).getD ""

def containsUid (uid : String) : String := (mi.uidIndex.lookup uid).getD ""

/-- Whether `CullExpired` removes a uid that is indexed. -/
def expired (now dur : Int) (uid : String) : Bool :=
  let dur := if dur > 0 then -dur else dur
  match mi.lastHit.lookup uid with
  | some t => t < now + dur
  | none => true

/-- The metrics that `CullExpired` removes. The clock is read for each of them. -/
def toDel (now : String → Int) (dur : Int) : List (String × String) :=
  (mi.uidIndex.entries.filter fun e => mi.expired (now e.1) dur e.1).map fun e => (e.1, e.2)

/-- The removal of one metric by `CullExpired`. -/
def cull (e : String × String) : MetricIndex :=
  { trieIndex := (mi.trieIndex.pop e.2).1
    lastHit := mi.lastHit.erase e.1
    uidIndex := mi.uidIndex.erase e.1
    nameIndex := mi.nameIndex.erase e.1 }

/-- The second loop of `CullExpired`. -/
def cullExpired (order : List (String × String)) : MetricIndex := order.foldl cull mi

def delete (pth : String) : MetricIndex × Outcome :=
  if needRegex pth then (mi, .cannotDeleteByRegex)
  else
    let mi := match mi.nameIndex.lookup pth with
      | some uid => { mi with
          nameIndex := mi.nameIndex.erase pth
          uidIndex := mi.uidIndex.erase uid }
      | none => mi
    let mi := { mi with
      lastHit := mi.lastHit.erase pth
      trieIndex := (mi.trieIndex.pop pth).1 }
    (mi, if (whichPartition pth).isSome then .done else .panicked)

def deleteByUid (uid : String) : MetricIndex × Outcome :=
  match mi.uidIndex.lookup uid with
  | some pth => mi.delete pth
  | none => (mi, .done)

/-! ### Searches -/

def findByUid (uid : String) : List MetricFindItem :=
  match mi.uidIndex.lookup uid with
  | some pth => [⟨pth, pth, pth, "", 0, 1, 0⟩]
  | none => []

/-- A found value is never a time, so every item of the root can be expanded. -/
def findRoot (range : List (String × Found TrieItem) → List (String × Found TrieItem)) :
    List MetricFindItem :=
  (range ((mi.trieIndex.children "*").entries.map fun e => (e.1, e.2))).map fun e =>
    ⟨e.1, e.1, e.1, "", 1, 0, 1⟩

end MetricIndex

/-- The variables of the loops of `Find`. -/
structure FindState where
  mt : List MetricFindItem
  seenList : List String
  errorList : List String

/-- One entry of `have`, with the expression that it has to match when there is one. -/
def FindState.visit (reg : Option (String → Bool)) (hasDataOnly : Bool) (st : FindState)
    (e : String × Found TrieItem) : FindState :=
  if e.1 ∈ st.seenList then st
  else if reg.any fun matchString => !matchString e.1 then st
  else
    let nm := (split e.1 ".").getLastD ""
    let seen := st.seenList ++ [e.1]
    match e.2 with
    | .value (some item) =>
      { st with mt := st.mt ++ [⟨nm, e.1, e.1, item.uid, 0, 1, 0⟩], seenList := seen }
    | .value none | .children _ =>
      if hasDataOnly then st
      else { st with mt := st.mt ++ [⟨nm, e.1, e.1, "", 1, 0, 1⟩], seenList := seen }

namespace MetricIndex

section Find

variable (compile : String → Except String (String → Bool))
  (range : List (String × Found TrieItem) → List (String × Found TrieItem))
  (mi : MetricIndex) (metric : String) (hasDataOnly : Bool)

/-- One target of `Find`. Without a pattern in the target the trie is asked for the whole
query. -/
def findTarget (st : FindState) (targ : String) : FindState :=
  match mi.nameIndex.lookup targ with
  | some got =>
    if metric ∈ st.seenList then st
    else
      { st with
        mt := st.mt ++ [⟨(split targ ".").getLastD "", metric, metric, got, 0, 1, 0⟩]
        seenList := st.seenList ++ [metric] }
  | none =>
    let search := fun (trieQ : String) (reg : Option (String → Bool)) =>
      (range ((mi.trieIndex.childrenFlat trieQ).entries.map fun e => (e.1, e.2))).foldl
        (FindState.visit reg hasDataOnly) st
    if needRegex targ then
      match compile (fullRegString targ) with
      | .error err => { st with errorList := st.errorList ++ [err] }
      | .ok reg => search (toTrieQuery targ) (some reg)
    else search metric none

/-- The items and the error; an error text is taken as it is and not as a format. -/
def find : List MetricFindItem × Option String :=
  if metric = "*" then (mi.findRoot range, none)
  else
    let st := (splitMetricsPath metric).foldl (findTarget compile range mi metric hasDataOnly)
      ⟨[], [], []⟩
    (st.mt, if st.errorList = [] then none else some (String.intercalate ", " st.errorList))

end Find

end MetricIndex

end Indexer
