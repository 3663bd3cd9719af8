import Cadent.Lib.Runs
import Cadent.Splitter.Lines
import Mathlib.Logic.Function.Basic

/-!
# Recycled items

`PutSplitItem` puts an item into the pool of its type, and a later `ProcessLine` writes to it what
it finds in its line. No splitter writes the origin name, and the splitter of JSON writes neither
the phase nor the origin, and the tags only if its line has any. An item is not used after it was
put back, so items are values here; an item that a pool gives is any of those in it, or a new one.
The clock stands still.
-/

namespace Splitter

open Accumulator (JsonStructSplitItem)
open Runs

/-- The types of items; the OpenTSDB splitter has those of graphite. -/
inductive ItemType where
  | graphite
  | statsd
  | carbonTwo
  | json
  deriving DecidableEq

/-- A call of `ProcessLine`; `range` is the order in which the tags of a struct are gone over. -/
inductive Call where
  | graphite (g : GraphiteSplitter) (line : String)
  | openTSDB (line : String)
  | statsd (line : String)
  | carbonTwo (line : String)
  | json (range : List (String × String) → List (String × String)) (line : String)

/-- The clock, and `encoding/json`. -/
structure Env where
  now : Int
  unmarshal : JsonStructSplitItem → String → Except String JsonStructSplitItem
  marshal : JsonStructSplitItem → String

namespace Call

def itemType : Call → ItemType
  | graphite _ _ => .graphite
  | openTSDB _ => .graphite
  | statsd _ => .statsd
  | carbonTwo _ => .carbonTwo
  | json _ _ => .json

/-- What is returned when the pools give an item and a struct. -/
def run (env : Env) (item : SplitItem) (struct : Option JsonStructSplitItem) :
    Call → Except Failure SplitItem
  | graphite g line => g.processLine env.now item line
  | openTSDB line => OpenTSDBSplitter.processLine env.now item line
  | statsd line => StatsdSplitter.processLine item line
  | carbonTwo line => CarbonTwoSplitter.processLine env.now item line
  | json range line => JsonSplitter.processLine env.marshal range env.unmarshal item struct line

/-- The struct that is put back when the line was accepted. -/
def structAfter (env : Env) (struct : Option JsonStructSplitItem) :
    Call → Option JsonStructSplitItem
  | json _ line =>
    match env.unmarshal (JsonSplitter.getStructJsonItem struct) line with
    | .error _ => none
    | .ok jItem => if jItem.metric = "" then none else some jItem
  | _ => none

end Call

structure System where
  live : List (ItemType × SplitItem)
  pools : ItemType → List SplitItem
  structs : List JsonStructSplitItem

def start : System := ⟨[], fun _ => [], []⟩

inductive Action where
  | processLine (call : Call) (pooled struct : Option Nat)
  | setPhase (i : Nat) (n : Phase)
  | setOrigin (i : Nat) (n : Origin)
  | setOriginName (i : Nat) (n : String)
  | putSplitItem (i : Nat)

/-- An element of a pool and the rest of it, or nothing. -/
def take {α : Type} (pool : List α) : Option Nat → Option (Option α × List α)
  | none => some (none, pool)
  | some i => (pool[i]?).map fun a => (some a, pool.eraseIdx i)

namespace System

variable (s : System)

def edit (i : Nat) (f : SplitItem → SplitItem) : System :=
  { s with live := s.live.modify i fun entry => (entry.1, f entry.2) }

/-- An item is taken from its pool when the line is accepted, and a struct before. -/
def process (env : Env) (call : Call) (pooled struct : Option Nat) :
    Option (System × Except Failure SplitItem) :=
  match take (s.pools call.itemType) pooled, take s.structs struct with
  | some (item, items), some (struct, structs) =>
    let structs := structs ++ (call.structAfter env struct).toList
    match call.run env (item.getD .new) struct with
    | .ok out => some (⟨s.live ++ [(call.itemType, out)],
        Function.update s.pools call.itemType items, structs⟩, .ok out)
    | .error failure => some ({ s with structs := structs }, .error failure)
  | _, _ => none

def put (i : Nat) : Option System :=
  (s.live[i]?).map fun entry => { s with
    live := s.live.eraseIdx i
    pools := Function.update s.pools entry.1 (s.pools entry.1 ++ [entry.2]) }

def step (env : Env) : Action → Option (System × Option (Except Failure SplitItem))
  | .processLine call pooled struct =>
    (s.process env call pooled struct).map fun (s', out) => (s', some out)
  | .setPhase i n => some (s.edit i (·.setPhase n), none)
  | .setOrigin i n => some (s.edit i (·.setOrigin n), none)
  | .setOriginName i n => some (s.edit i (·.setOriginName n), none)
  | .putSplitItem i => (s.put i).map fun s' => (s', none)

end System

abbrev History := List (Taken System Action (Option (Except Failure SplitItem)))

/-- Every line gives what it gives when the pools are empty. -/
def Forgets (env : Env) (h : History) : Prop :=
  ∀ e ∈ h, ∀ call pooled struct, e.act = .processLine call pooled struct →
    e.out = some (call.run env .new none)

/-- An item on which nothing is left that the next line does not overwrite. -/
structure Blank (type : ItemType) (item : SplitItem) : Prop where
  oname : item.inoname = ""
  json : type = .json → item.inphase = .parsed ∧ item.inorigin = .tcp ∧ item.tags = []

/-- Only such items are put back. -/
def PutsBlank (s : System) : Action → Prop
  | .putSplitItem i => ∀ entry ∈ s.live[i]?, Blank entry.1 entry.2
  | _ => True

instance (type : ItemType) (item : SplitItem) : Decidable (Blank type item) :=
  decidable_of_iff (item.inoname = "" ∧
      (type = .json → item.inphase = .parsed ∧ item.inorigin = .tcp ∧ item.tags = []))
    ⟨fun both => ⟨both.1, both.2⟩, fun blank => ⟨blank.oname, blank.json⟩⟩

instance (s : System) (a : Action) : Decidable (PutsBlank s a) :=
  match a with
  | .putSplitItem i => inferInstanceAs (Decidable (∀ entry ∈ s.live[i]?, Blank entry.1 entry.2))
  | .processLine _ _ _ | .setPhase _ _ | .setOrigin _ _ | .setOriginName _ _ =>
    inferInstanceAs (Decidable True)

/-! ### What is kept of an item -/

section Calls

variable {env : Env} {item item' : SplitItem}

/-- What the splitter of a type never writes. -/
def Unwritten : ItemType → SplitItem → Prop
  | .graphite, item => item.tags = []
  | .statsd, item => item.tags = [] ∧ item.intime = zeroTime
  | _, _ => True

theorem graphite_congr (g : GraphiteSplitter) (now : Int) (line : String)
    (oname : item.inoname = item'.inoname) (tags : item.tags = item'.tags) :
    g.processLine now item line = g.processLine now item' line := by
  simp only [GraphiteSplitter.processLine, oname, tags]

theorem openTSDB_congr (now : Int) (line : String) (oname : item.inoname = item'.inoname)
    (tags : item.tags = item'.tags) :
    OpenTSDBSplitter.processLine now item line = OpenTSDBSplitter.processLine now item' line := by
  rw [OpenTSDBSplitter.processLine, OpenTSDBSplitter.processLine,
    graphite_congr _ now _ oname tags]

theorem statsd_congr (line : String) (oname : item.inoname = item'.inoname)
    (tags : item.tags = item'.tags) (time : item.intime = item'.intime) :
    StatsdSplitter.processLine item line = StatsdSplitter.processLine item' line := by
  simp only [StatsdSplitter.processLine, oname, tags, time]

theorem carbonTwo_congr (now : Int) (line : String) (oname : item.inoname = item'.inoname) :
    CarbonTwoSplitter.processLine now item line = CarbonTwoSplitter.processLine now item' line := by
  simp only [CarbonTwoSplitter.processLine, oname]

/-- A struct that comes from the pool is like a new one. -/
theorem getStructJsonItem_eq (struct : Option JsonStructSplitItem) :
    JsonSplitter.getStructJsonItem struct = JsonSplitter.newStruct := by
  cases struct <;> rfl

/-- A line that is given an item from a pool does not see it when nothing is left on the item. -/
theorem run_eq_new (call : Call) (struct : Option JsonStructSplitItem)
    (unwritten : Unwritten call.itemType item) (blank : Blank call.itemType item) :
    call.run env item struct = call.run env .new none := by
  cases call with
  | graphite g line => exact graphite_congr g env.now line blank.oname unwritten
  | openTSDB line => exact openTSDB_congr env.now line blank.oname unwritten
  | statsd line => exact statsd_congr line blank.oname unwritten.1 unwritten.2
  | carbonTwo line => exact carbonTwo_congr env.now line blank.oname
  | json range line =>
    obtain ⟨phase, origin, tags⟩ := blank.json rfl
    simp only [Call.run, JsonSplitter.processLine, getStructJsonItem_eq, JsonSplitter.parseJson,
      phase, origin, tags, blank.oname]
    rfl

theorem unwritten_run {call : Call} {struct : Option JsonStructSplitItem} {out : SplitItem}
    (unwritten : Unwritten call.itemType item) (ok : call.run env item struct = .ok out) :
    Unwritten call.itemType out := by
  cases call with
  | graphite g line =>
    obtain ⟨key, t, -, rfl⟩ := GraphiteSplitter.item_of_ok ok
    exact unwritten
  | openTSDB line =>
    rw [Call.run, OpenTSDBSplitter.processLine] at ok
    split_ifs at ok
    obtain ⟨key, t, -, rfl⟩ := GraphiteSplitter.item_of_ok ok
    exact unwritten
  | statsd line =>
    rw [Call.run, StatsdSplitter.processLine] at ok
    rcases pieces : Text.split line ":" with _ | ⟨key, _ | ⟨second, rest⟩⟩
    · simp only [pieces] at ok
      cases ok
    · simp only [pieces] at ok
      cases ok
    · simp only [pieces] at ok
      obtain rfl := Except.ok.inj ok
      exact unwritten
  | carbonTwo line => trivial
  | json range line => trivial

end Calls

/-! ### Runs -/

section Runs

variable {env : Env} {h : History} {s s' : System}

/-- What live and pooled items have on them. -/
structure Inv (s : System) : Prop where
  live : ∀ entry ∈ s.live, Unwritten entry.1 entry.2
  pools : ∀ type, ∀ item ∈ s.pools type, Unwritten type item ∧ Blank type item

theorem inv_start : Inv start where
  live _ mem := absurd mem List.not_mem_nil
  pools _ _ mem := absurd mem List.not_mem_nil

theorem blank_new (type : ItemType) : Unwritten type .new ∧ Blank type .new := by
  refine ⟨?_, rfl, fun _ => ⟨rfl, rfl, rfl⟩⟩
  cases type <;> simp [Unwritten, SplitItem.new]

theorem mem_of_take {α : Type} {pool rest : List α} {i : Option Nat} {a : Option α}
    (taken : take pool i = some (a, rest)) : (∀ b ∈ a, b ∈ pool) ∧ ∀ b ∈ rest, b ∈ pool := by
  cases i with
  | none =>
    obtain ⟨rfl, rfl⟩ := Prod.mk.inj (Option.some.inj taken)
    exact ⟨nofun, fun b mem => mem⟩
  | some i =>
    obtain ⟨b, here, same⟩ := Option.map_eq_some_iff.mp taken
    obtain ⟨rfl, rfl⟩ := Prod.mk.inj same
    refine ⟨?_, fun c mem => List.mem_of_mem_eraseIdx mem⟩
    rintro c ⟨⟩
    exact List.mem_of_getElem? here

theorem Inv.edit (inv : Inv s) (i : Nat) {f : SplitItem → SplitItem}
    (keeps : ∀ type item, Unwritten type item → Unwritten type (f item)) : Inv (s.edit i f) := by
  refine ⟨?_, inv.pools⟩
  intro entry mem
  obtain ⟨j, here⟩ := List.mem_iff_getElem?.mp mem
  rw [System.edit, List.getElem?_modify] at here
  obtain ⟨old, listed, rfl⟩ := Option.map_eq_some_iff.mp here
  have own := inv.live old (List.mem_of_getElem? listed)
  split_ifs
  · exact keeps _ _ own
  · exact own

theorem Inv.put (inv : Inv s) {i : Nat} (blank : ∀ entry ∈ s.live[i]?, Blank entry.1 entry.2)
    (put : s.put i = some s') : Inv s' := by
  obtain ⟨entry, here, rfl⟩ := Option.map_eq_some_iff.mp put
  refine ⟨fun other mem => inv.live other (List.mem_of_mem_eraseIdx mem), ?_⟩
  intro type item mem
  by_cases same : type = entry.1
  · subst same
    simp only [Function.update_self, List.mem_append, List.mem_singleton] at mem
    rcases mem with mem | rfl
    · exact inv.pools _ item mem
    · exact ⟨inv.live entry (List.mem_of_getElem? here), blank entry here⟩
  · simp only [Function.update_of_ne same] at mem
    exact inv.pools type item mem

/-- A line sees nothing of the pools. -/
theorem Inv.process (inv : Inv s) {call : Call} {pooled struct : Option Nat}
    {out : Except Failure SplitItem}
    (processed : s.process env call pooled struct = some (s', out)) :
    Inv s' ∧ out = call.run env .new none := by
  rw [System.process] at processed
  rcases taken : take (s.pools call.itemType) pooled with _ | ⟨item, items⟩
  · simp only [taken] at processed
    cases processed
  rcases taken' : take s.structs struct with _ | ⟨struct', structs⟩
  · simp only [taken, taken'] at processed
    cases processed
  obtain ⟨mem, rest⟩ := mem_of_take taken
  have clean : Unwritten call.itemType (item.getD .new) ∧ Blank call.itemType (item.getD .new) := by
    cases item with
    | none => exact blank_new _
    | some item => exact inv.pools _ item (mem item rfl)
  have same : call.run env (item.getD .new) struct' = call.run env .new none :=
    run_eq_new call struct' clean.1 clean.2
  rcases ran : call.run env (item.getD .new) struct' with failure | out'
  · simp only [taken, taken', ran] at processed
    obtain ⟨rfl, rfl⟩ := Prod.mk.inj (Option.some.inj processed)
    exact ⟨⟨inv.live, inv.pools⟩, ran.symm.trans same⟩
  · simp only [taken, taken', ran] at processed
    obtain ⟨rfl, rfl⟩ := Prod.mk.inj (Option.some.inj processed)
    refine ⟨⟨?_, ?_⟩, ran.symm.trans same⟩
    · intro entry listed
      rcases List.mem_append.mp listed with old | own
      · exact inv.live entry old
      · rw [List.mem_singleton.mp own]
        exact unwritten_run clean.1 ran
    · intro type item' listed
      by_cases own : type = call.itemType
      · subst own
        simp only [Function.update_self] at listed
        exact inv.pools _ item' (rest item' listed)
      · simp only [Function.update_of_ne own] at listed
        exact inv.pools type item' listed

theorem Inv.step (inv : Inv s) {a : Action} {out : Option (Except Failure SplitItem)}
    (puts : PutsBlank s a) (taken : s.step env a = some (s', out)) :
    Inv s' ∧ ∀ call pooled struct, a = .processLine call pooled struct →
      out = some (call.run env .new none) := by
  cases a with
  | processLine call pooled struct =>
    obtain ⟨⟨s'', out'⟩, processed, same⟩ := Option.map_eq_some_iff.mp taken
    obtain ⟨rfl, rfl⟩ := Prod.mk.inj same
    obtain ⟨inv', fresh⟩ := inv.process processed
    refine ⟨inv', ?_⟩
    rintro _ _ _ ⟨⟩
    rw [fresh]
  | setPhase i n | setOrigin i n | setOriginName i n =>
    obtain ⟨rfl, rfl⟩ := Prod.mk.inj (Option.some.inj taken)
    exact ⟨inv.edit i fun type _ own => by cases type <;> exact own, nofun⟩
  | putSplitItem i =>
    obtain ⟨s'', put, same⟩ := Option.map_eq_some_iff.mp taken
    obtain ⟨rfl, rfl⟩ := Prod.mk.inj same
    exact ⟨inv.put puts put, nofun⟩

/-- Where only blank items are put back, every line gives what it gives when the pools are
empty. -/
theorem recycled_forgets (run : Run (fun s a => s.step env a) PutsBlank start h s) :
    Forgets env h := by
  have both : Inv s ∧ Forgets env h := by
    refine run_invariant (fun h s => Inv s ∧ Forgets env h) ⟨inv_start, ?_⟩ ?_ run
    · exact fun e mem => absurd mem List.not_mem_nil
    rintro h s a s' out ⟨inv, forgets⟩ puts taken
    obtain ⟨inv', fresh⟩ := inv.step puts taken
    refine ⟨inv', ?_⟩
    intro e mem
    rcases List.mem_append.mp mem with old | own
    · exact forgets e old
    · rw [List.mem_singleton.mp own]
      exact fresh
  exact both.2

end Runs

/-! ### Some lines -/

/-- Lines that are read as metrics, of which one has a tag. -/
def someJson : Env where
  now := 0
  unmarshal struct line := .ok { struct with
    metric := line, tags := if line = "tagged" then [("h", "x")] else struct.tags }
  marshal := JsonStructSplitItem.metric

def graphiteCall (line : String) : Call := .graphite .default line

/-- Two lines with the same item. -/
def twiceUsed : List Action :=
  [.processLine (graphiteCall "a 1") none none, .setPhase 0 .sent, .setOrigin 0 .udp,
    .putSplitItem 0, .processLine (graphiteCall "b 2") (some 0) none]

theorem recycled_forgets_twice :
    ∃ h s, Run (fun s a => s.step someJson a) PutsBlank start h s ∧ h.length = 5 ∧
      Forgets someJson h := by
  have run := run_of_exec (fun s a => s.step someJson a) PutsBlank start twiceUsed
    (by decide +kernel)
  exact ⟨_, _, run, by decide +kernel, recycled_forgets run⟩

/-- An item that is put back with an origin name, and one that is put back with tags. -/
def namedItem : List Action :=
  [.processLine (graphiteCall "a 1") none none, .setOriginName 0 "first", .putSplitItem 0]

def taggedItem : List Action := [.processLine (.json id "tagged") none none, .putSplitItem 0]

/-- What a line gives after some actions. -/
def givenAfter (actions : List Action) (call : Call) (pooled struct : Option Nat) :
    Option (Except Failure SplitItem) :=
  (exec (fun s a => s.step someJson a) anyStep start actions).bind fun r =>
    (r.2.process someJson call pooled struct).map Prod.snd

theorem not_forgets_of_given (actions : List Action) (call : Call) (pooled struct : Option Nat)
    (out : Except Failure SplitItem) (given : givenAfter actions call pooled struct = some out)
    (differs : out ≠ call.run someJson .new none) :
    ∃ h s, Run (fun s a => s.step someJson a) anyStep start h s ∧ ¬ Forgets someJson h := by
  obtain ⟨⟨h, s⟩, ran, given⟩ := Option.bind_eq_some_iff.mp given
  obtain ⟨⟨s', out'⟩, processed, rfl⟩ := Option.map_eq_some_iff.mp given
  have before : Run (fun s a => s.step someJson a) anyStep start h s := run_of_execFrom .start ran
  have taken : s.step someJson (.processLine call pooled struct) = some (s', some out') := by
    rw [System.step, processed]
    rfl
  refine ⟨_, _, .step before trivial taken, ?_⟩
  intro forgets
  have fresh := forgets _ (List.mem_append_right h List.mem_cons_self) call pooled struct rfl
  exact differs (Option.some.inj fresh)

/-- The origin name of one sender is that of another, and the tags of one line are those of
another. -/
theorem recycled_remembers :
    (∃ h s, Run (fun s a => s.step someJson a) anyStep start h s ∧ ¬ Forgets someJson h) ∧
    (givenAfter namedItem (graphiteCall "b 2") (some 0) none).map
        (·.toOption.map (·.inoname)) = some (some "first") ∧
    (givenAfter taggedItem (.json id "plain") (some 0) (some 0)).map
        (·.toOption.map (·.tags)) = some (some [("h", "x")]) ∧
    ((Call.json id "plain").run someJson .new none).toOption.map (·.tags) = some [] := by
  refine ⟨?_, by decide +kernel, by decide +kernel, by decide +kernel⟩
  exact not_forgets_of_given namedItem (graphiteCall "b 2") (some 0) none
    (.ok ⟨"b", "b 2", zeroTime, .parsed, .other, "first", []⟩) (by decide +kernel)
      (by decide +kernel)

end Splitter
