import Cadent.Accumulator.Keeping
import Cadent.Accumulator.StatsdWrite
import Mathlib.Data.Finset.Card

/-!
# Gauges and sets

What a statsd client means by the lines of a gauge and of a set, and what is written for them at
the next flush. A gauge is set by a number and changed by one with a sign. A set counts the
different values it was given.
-/

namespace Accumulator

open Groups Maps Repr StatsdAccumulate Text

/-! ### Lines without tags -/

/-- A key that can stand before the colon of a line. -/
structure CleanKey (key : String) : Prop where
  colon : ':' ∉ key.toList
  hash : ¬ ['|', '#'] <:+: key.toList

section Line

variable {env : Naming} {parseFloat : String → Option Parsed} {key second : String}

theorem split_line (clean : CleanKey key) (colon : ':' ∉ second.toList)
    (hash : ¬ ['|', '#'] <:+: second.toList) :
    split (key ++ ":" ++ second) "|#" = [key ++ ":" ++ second] ∧
      split (key ++ ":" ++ second) ":" = [key, second] := by
  have sep : "|#".toList = ['|', '#'] := by decide
  have mark : ":".toList = [':'] := by decide
  constructor
  · apply split_of_not_infix
    rw [sep, String.toList_append, String.toList_append, mark]
    refine not_infix_append (not_infix_append clean.hash (by decide) (.inr (by decide))) hash ?_
    exact .inl (by simp)
  · exact split_pair mark clean.colon colon

theorem parse_line (clean : CleanKey key) (colon : ':' ∉ second.toList)
    (hash : ¬ ['|', '#'] <:+: second.toList) {val : String} {rest : List String}
    (pieces : split second "|" = val :: rest) {value weight : Option ℚ} {val' : String}
    (valued : parseValue parseFloat (key ++ ":" ++ second)
      (gaugeType ((val :: rest).getD 1 "c") val) val = .ok value)
    (sampled : parseSample parseFloat (key ++ ":" ++ second) val (val :: rest) =
      .ok (weight, val')) :
    parse env parseFloat (key ++ ":" ++ second) =
      .ok ⟨key, gaugeType ((val :: rest).getD 1 "c") val, val', value, weight, [], ""⟩ := by
  obtain ⟨tags, colons⟩ := split_line clean colon hash
  rw [parse, tags]
  dsimp only [List.headD_cons]
  rw [colons]
  dsimp only
  rw [pieces]
  simp only [List.headD_cons, valued, sampled, bind, Except.bind]
  rfl

end Line

/-! ### Gauges -/

inductive Sign where
  | none
  | plus
  | minus
  deriving DecidableEq

/-- The value of a gauge line: a number without a sign, and the sign before it. -/
structure GaugeUpdate where
  sign : Sign
  digits : String
  number : ℚ

namespace GaugeUpdate

def text (u : GaugeUpdate) : String :=
  match u.sign with
  | .none => u.digits
  | .plus => "+" ++ u.digits
  | .minus => "-" ++ u.digits

/-- The text as a number. -/
def value (u : GaugeUpdate) : ℚ :=
  match u.sign with
  | .minus => -u.number
  | _ => u.number

/-- What the gauge becomes. -/
def apply (gauge : ℚ) (u : GaugeUpdate) : ℚ :=
  match u.sign with
  | .none => u.number
  | .plus => gauge + u.number
  | .minus => gauge - u.number

/-- The texts are those of numbers. -/
structure Reads (parseFloat : String → Option Parsed) (u : GaugeUpdate) : Prop where
  number : parseFloat u.digits = some (.finite u.number)
  value : parseFloat u.text = some (.finite u.value)
  unsigned : ∃ c cs, u.digits.toList = c :: cs ∧ c ≠ '-' ∧ c ≠ '+'
  colon : ':' ∉ u.digits.toList
  bar : '|' ∉ u.digits.toList

theorem toList_text (u : GaugeUpdate) : u.text.toList =
    (match u.sign with | .none => [] | .plus => ['+'] | .minus => ['-']) ++ u.digits.toList := by
  cases sign : u.sign <;> simp [text, sign]

variable {parseFloat : String → Option Parsed} {u : GaugeUpdate}

theorem Reads.notMem (reads : u.Reads parseFloat) : ':' ∉ u.text.toList ∧ '|' ∉ u.text.toList := by
  rw [toList_text]
  cases u.sign <;> simp [reads.colon, reads.bar]

/-- The sign of a gauge is not seen. -/
theorem Reads.gaugeType (reads : u.Reads parseFloat) : gaugeType "g" u.text = "g" := by
  obtain ⟨c, cs, digits, minus, plus⟩ := reads.unsigned
  have hidden : contains "-" u.text = false ∧ contains "+" u.text = false := by
    rw [contains, contains, toList_text, digits]
    cases u.sign <;> simp [List.isPrefixOf, minus, plus]
  rw [StatsdAccumulate.gaugeType, hidden.1, hidden.2]
  rfl

/-- A gauge line. -/
def line (key : String) (u : GaugeUpdate) : String := key ++ ":" ++ (u.text ++ "|g")

/-- What is read of it. -/
def parsed (key : String) (u : GaugeUpdate) : StatsdLine :=
  ⟨key, "g", u.text, some u.value, some 1, [], ""⟩

theorem parse_line {env : Naming} {key : String} (clean : CleanKey key)
    (reads : u.Reads parseFloat) : parse env parseFloat (u.line key) = .ok (u.parsed key) := by
  obtain ⟨colon, bar⟩ := reads.notMem
  have mark : "|g".toList = ['|', 'g'] := by decide
  have pieces : split (u.text ++ "|g") "|" = [u.text, "g"] := by
    have joined : u.text ++ "|g" = u.text ++ "|" ++ "g" := by
      rw [String.append_assoc]
      rfl
    rw [joined]
    exact split_pair (by decide) bar (by decide)
  have valued : parseValue parseFloat (key ++ ":" ++ (u.text ++ "|g"))
      (StatsdAccumulate.gaugeType "g" u.text) u.text = .ok (some u.value) := by
    rw [reads.gaugeType, parseValue, if_neg (by decide), reads.value]
    rfl
  have colon' : ':' ∉ (u.text ++ "|g").toList := by simp [mark, colon]
  have hash : ¬ ['|', '#'] <:+: (u.text ++ "|g").toList := by
    rw [String.toList_append, mark]
    exact not_infix_append (fun inside => bar (inside.subset List.mem_cons_self)) (by decide)
      (.inr (by decide))
  have type : StatsdAccumulate.gaugeType ([u.text, "g"].getD 1 "c") u.text = "g" := reads.gaugeType
  rw [line, Accumulator.parse_line clean colon' hash pieces valued rfl, type, parsed]

end GaugeUpdate

section Gauge

variable (env : Naming) (parseFloat : String → Option Parsed) (hashed : String → BitVec 64)
variable (a : StatsdAccumulate)

/-- The key in the map of the gauge of a key. -/
def gaugeKey (key : String) : String := key ++ "|" ++ "g" ++ "|#" ++ ""

/-- What is written for a gauge. -/
def gaugeLine (opts : StatsdOptions) (key : String) (value : ℚ) : Written :=
  ⟨⟨opts.root ++ "." ++ opts.gaugePrefix ++ "." ++ dotted opts.suffix ++ key, 0#64, "", 0#32, 0#32,
    a.tagMode, a.hashMode, [], []⟩, .exact value, "g"⟩

/-- After some lines there is one item, and the next flush writes one value. -/
def WritesGauge (key : String) (lines : List String) (value : ℚ) : Prop :=
  ∃ st, serve (a.kind env parseFloat hashed) .empty (lines.map .line) = .ok st ∧
    st.stats.keys = [gaugeKey key] ∧
    ∀ opts elapsed, st.writeAll opts [(gaugeKey key, elapsed)] = .just [gaugeLine a opts key value]

/-- The last line sets the gauge, or changes it from 0. -/
def SetLast (updates : List GaugeUpdate) : Prop :=
  ∃ before last, updates = before ++ [last] ∧
    (last.sign = .none ∨ before.foldl GaugeUpdate.apply 0 = 0)

variable {env parseFloat hashed a} {key : String}

theorem gather_gauge (updates : List GaugeUpdate) (last : GaugeUpdate) :
    ∃ s, gather (a.kind env parseFloat hashed) ((updates ++ [last]).map (·.parsed key)) =
        some (.base s) ∧
      s.inKey = a.inKey (last.parsed key) ∧ s.inType = "g" ∧ s.last = last.value := by
  have name : ∀ u : GaugeUpdate, a.inKey (u.parsed key) = a.inKey (last.parsed key) := fun _ => rfl
  induction updates using List.reverseRecOn generalizing last with
  | nil => exact ⟨_, rfl, rfl, rfl, rfl⟩
  | append_singleton updates u ih =>
    obtain ⟨s, here, inKey, inType, -⟩ := ih u fun _ => rfl
    rw [List.map_append, List.map_singleton, gather_concat, here]
    refine ⟨_, rfl, ?_, ?_, rfl⟩
    · exact inKey.trans (name u)
    · exact inType

theorem foldl_apply_iff (before : List GaugeUpdate) (last : GaugeUpdate) :
    last.value = (before ++ [last]).foldl GaugeUpdate.apply 0 ↔
      last.sign = .none ∨ before.foldl GaugeUpdate.apply 0 = 0 := by
  rw [List.foldl_concat, GaugeUpdate.apply, GaugeUpdate.value]
  cases last.sign with
  | none => simp
  | plus => simp
  | minus => simp [sub_eq_add_neg]

theorem writesGauge_iff_last (clean : CleanKey key) {before : List GaugeUpdate} {last : GaugeUpdate}
    (reads : ∀ u ∈ before ++ [last], u.Reads parseFloat) {value : ℚ} :
    WritesGauge env parseFloat hashed a key ((before ++ [last]).map (·.line key)) value ↔
      last.value = value := by
  have parses : ∀ u ∈ before ++ [last],
      (a.kind env parseFloat hashed).parse (u.line key) = .ok (u.parsed key) := by
    intro u mem
    rw [kind_parse]
    exact u.parse_line clean (reads u mem)
  obtain ⟨st, served, holds⟩ := holds_empty.serve_lines parses
  rw [List.nil_append] at holds
  obtain ⟨keys, item⟩ := holds.keys_eq (by simp) (gaugeKey key) (by
    intro line mem
    obtain ⟨u, -, rfl⟩ := List.mem_map.mp mem
    rfl)
  obtain ⟨s, gathered, inKey, inType, number⟩ := gather_gauge before last
  rw [gathered] at item
  have writes : ∀ opts elapsed, st.writeAll opts [(gaugeKey key, elapsed)] =
      .just [gaugeLine a opts key last.value] := by
    intro opts elapsed
    simp only [Store.writeAll, List.filterMap_cons, item, Option.map_some, List.filterMap_nil,
      StatsdItem.write, StatsdBaseStatItem.write, inType, inKey, number]
    rfl
  constructor
  · rintro ⟨st', served', -, writes'⟩
    obtain rfl := Except.ok.inj (served'.symm.trans served)
    have same := (writes .defaults 0).symm.trans (writes' .defaults 0)
    simpa [Output.just, gaugeLine] using same
  · rintro rfl
    exact ⟨st, served, keys, writes⟩

/-- A gauge is written as its lines make it just when the last of them sets it, or changes it
from 0: a sign in front of the number is taken as part of the number. -/
theorem gauge_iff (env : Naming) (hashed : String → BitVec 64) (a : StatsdAccumulate)
    (clean : CleanKey key) {updates : List GaugeUpdate} (nonempty : updates ≠ [])
    (reads : ∀ u ∈ updates, u.Reads parseFloat) :
    WritesGauge env parseFloat hashed a key (updates.map (·.line key))
        (updates.foldl GaugeUpdate.apply 0) ↔
      SetLast updates := by
  obtain ⟨before, last, rfl⟩ := (List.eq_nil_or_concat' updates).resolve_left nonempty
  rw [writesGauge_iff_last clean reads, foldl_apply_iff]
  constructor
  · intro fits
    exact ⟨before, last, rfl, fits⟩
  · rintro ⟨before', last', same, fits⟩
    obtain ⟨rfl, lasts⟩ := List.append_inj' same rfl
    obtain rfl := List.singleton_inj.mp lasts
    exact fits

/-- Two numbers, one of them to be added, and one more that replaces them. -/
def threeUpdates : List GaugeUpdate := [⟨.none, "5", 5⟩, ⟨.plus, "3", 3⟩, ⟨.none, "7", 7⟩]

theorem gauge_iff_three :
    WritesGauge plainNaming wholeNumber (fun _ => 0#64) ⟨.metrics2, .fnv⟩ "a"
      (threeUpdates.map (·.line "a")) 7 := by
  have reads : ∀ u ∈ threeUpdates, u.Reads wholeNumber := by
    intro u mem
    simp only [threeUpdates, List.mem_cons, List.not_mem_nil, or_false] at mem
    rcases mem with rfl | rfl | rfl
    · exact ⟨by decide +kernel, by decide +kernel, ⟨'5', [], by decide⟩, by decide, by decide⟩
    · exact ⟨by decide +kernel, by decide +kernel, ⟨'3', [], by decide⟩, by decide, by decide⟩
    · exact ⟨by decide +kernel, by decide +kernel, ⟨'7', [], by decide⟩, by decide, by decide⟩
  exact (gauge_iff plainNaming (fun _ => 0#64) ⟨.metrics2, .fnv⟩ ⟨by decide, by decide⟩ (by decide)
    reads).mpr ⟨[⟨.none, "5", 5⟩, ⟨.plus, "3", 3⟩], ⟨.none, "7", 7⟩, rfl, .inl rfl⟩

/-- After `a:5|g` and `a:+3|g` the gauge is written as 3. -/
theorem gauge_not_changed :
    ¬ WritesGauge plainNaming wholeNumber (fun _ => 0#64) ⟨.metrics2, .fnv⟩ "a"
      ["a:5|g", "a:+3|g"] ([⟨.none, "5", 5⟩, ⟨.plus, "3", 3⟩].foldl GaugeUpdate.apply 0) := by
  have reads : ∀ u ∈ [⟨.none, "5", 5⟩] ++ [⟨.plus, "3", 3⟩], GaugeUpdate.Reads wholeNumber u := by
    intro u mem
    rcases List.mem_pair.mp mem with rfl | rfl
    · exact ⟨by decide +kernel, by decide +kernel, ⟨'5', [], by decide⟩, by decide, by decide⟩
    · exact ⟨by decide +kernel, by decide +kernel, ⟨'3', [], by decide⟩, by decide, by decide⟩
  intro writes
  have last := (writesGauge_iff_last ⟨by decide, by decide⟩ reads).mp writes
  exact absurd last (by decide +kernel)

end Gauge

/-! ### Sets -/

/-- A value that is put into a set, and the text of its sample rate. -/
structure SetLine where
  value : String
  rate : Option String
  deriving DecidableEq

namespace SetLine

def second (l : SetLine) : String :=
  match l.rate with
  | none => l.value ++ "|s"
  | some rate => l.value ++ "|s|@" ++ rate

def line (key : String) (l : SetLine) : String := key ++ ":" ++ l.second

/-- The text that is hashed. -/
def kept (l : SetLine) : String :=
  match l.rate with
  | none => l.value
  | some _ => ""

structure Reads (parseFloat : String → Option Parsed) (l : SetLine) : Prop where
  colon : ':' ∉ l.value.toList
  bar : '|' ∉ l.value.toList
  rate : ∀ rate ∈ l.rate, (parseFloat rate).isSome ∧ ':' ∉ rate.toList ∧ '|' ∉ rate.toList ∧
    '@' ∉ rate.toList

variable {parseFloat : String → Option Parsed} {l : SetLine}

theorem Reads.pieces (reads : l.Reads parseFloat) :
    split l.second "|" = l.value :: "s" :: (l.rate.map ("@" ++ ·)).toList := by
  rw [second]
  cases here : l.rate with
  | none =>
    have joined : l.value ++ "|s" = l.value ++ "|" ++ "s" := by
      rw [String.append_assoc]
      rfl
    dsimp only
    rw [joined]
    exact split_pair (by decide) reads.bar (by decide)
  | some rate =>
    obtain ⟨-, -, bar, -⟩ := reads.rate rate here
    have joined : l.value ++ "|s|@" ++ rate = l.value ++ "|" ++ "s" ++ "|" ++ ("@" ++ rate) := by
      simp only [String.append_assoc]
      rfl
    dsimp only
    rw [joined]
    exact split_triple (by decide) reads.bar (by decide) (by simp [bar])

theorem Reads.second (reads : l.Reads parseFloat) :
    ':' ∉ l.second.toList ∧ ¬ ['|', '#'] <:+: l.second.toList := by
  have inValue : ¬ ['|', '#'] <:+: l.value.toList :=
    fun inside => reads.bar (inside.subset List.mem_cons_self)
  rw [SetLine.second]
  cases here : l.rate with
  | none =>
    have mark : "|s".toList = ['|', 's'] := by decide
    simp only [String.toList_append, mark]
    refine ⟨by simp [reads.colon], ?_⟩
    exact not_infix_append inValue (by decide) (.inr (by decide))
  | some rate =>
    obtain ⟨-, colon, bar, -⟩ := reads.rate rate here
    have mark : "|s|@".toList = ['|', 's', '|', '@'] := by decide
    have inRate : ¬ ['|', '#'] <:+: rate.toList :=
      fun inside => bar (inside.subset List.mem_cons_self)
    simp only [String.toList_append, mark]
    refine ⟨by simp [reads.colon, colon], ?_⟩
    exact not_infix_append (not_infix_append inValue (by decide) (.inr (by decide))) inRate
      (.inl (by simp))

/-- What is read of it. -/
def parsed (parseFloat : String → Option Parsed) (key : String) (l : SetLine) : StatsdLine :=
  ⟨key, "s", l.kept, some 0, match l.rate with
    | none => some 1
    | some rate => (parseFloat rate).bind Parsed.inverse, [], ""⟩

/-- A set line is taken in with its value, or with none when it has a sample rate. -/
theorem parse_line {env : Naming} {key : String} (clean : CleanKey key)
    (reads : l.Reads parseFloat) :
    parse env parseFloat (l.line key) = .ok (l.parsed parseFloat key) := by
  obtain ⟨colon, hash⟩ := reads.second
  have sampled : parseSample parseFloat (key ++ ":" ++ l.second) l.value
      (l.value :: "s" :: (l.rate.map ("@" ++ ·)).toList) =
        .ok ((l.parsed parseFloat key).weight, l.kept) := by
    rw [parsed, kept]
    cases here : l.rate with
    | none => rfl
    | some rate =>
      obtain ⟨number, -, -, mark⟩ := reads.rate rate here
      obtain ⟨sample, read⟩ := Option.isSome_iff_exists.mp number
      have pieces : split ("@" ++ rate) "@" = ["", rate] := by
        have joined : "@" ++ rate = "" ++ "@" ++ rate := rfl
        rw [joined]
        exact split_pair (by decide) (by decide) mark
      simp only [parseSample, Option.map_some, Option.toList_some, pieces, read, Option.bind_some]
  rw [line, Accumulator.parse_line clean colon hash reads.pieces rfl sampled]
  rfl

end SetLine

section Set

variable (env : Naming) (parseFloat : String → Option Parsed) (hashed : String → BitVec 64)
variable (a : StatsdAccumulate)

def setKey (key : String) : String := key ++ "|" ++ "s" ++ "|#" ++ ""

/-- Lines of a set and flushes, as texts. -/
def setEvents (key : String) (events : List (Event SetLine)) : List (Event String) :=
  events.map fun
    | .line l => .line (l.line key)
    | .flushList => .flushList

/-- The lines since the last reset. -/
def sinceReset (lines : List SetLine) : List (Event SetLine) → List SetLine
  | [] => lines
  | .line l :: events => sinceReset (lines ++ [l]) events
  | .flushList :: events => sinceReset [] events

/-- The next flush writes the number of different values since the last one, and does so when there
were any. -/
def CountsValues (keep : Bool) (key : String) (events : List (Event SetLine)) : Prop :=
  ∃ st, serveWith (a.kind env parseFloat hashed) keep .empty (setEvents key events) = .ok st ∧
    (sinceReset [] events ≠ [] → (st.item? (setKey key)).isSome) ∧
    ∀ item, st.item? (setKey key) = some item → ∀ opts elapsed,
      (item.write opts elapsed).lines.map (·.value) =
        [.exact (((sinceReset [] events).map (·.value)).dedup.length : ℚ)]

/-- The values that are only given with a sample rate. -/
def onlySampled (lines : List SetLine) : List String :=
  ((lines.filter (·.rate.isSome)).map (·.value)).filter fun v =>
    v ∉ (lines.filter (·.rate.isNone)).map (·.value)

/-- No line has a sample rate; or just one value is only given with one, and none if the empty text
has the hash of a value without one. -/
def RatesCount (lines : List SetLine) : Prop :=
  (∀ l ∈ lines, l.rate = none) ∨
    (onlySampled lines).dedup.length =
      if ∃ l ∈ lines, l.rate = none ∧ hashed l.value = hashed "" then 0 else 1

variable {env parseFloat hashed a} {key : String} {keep : Bool}

theorem statsd_clears : Clears (a.kind env parseFloat hashed) := by
  constructor
  · intro item line
    cases item with
    | base s =>
      cases value : line.value <;> simp [kind, StatsdItem.accumulate, StatsdItem.zeroOut,
        StatsdBaseStatItem.accumulate, value]
    | timer s =>
      cases value : line.value <;> simp [kind, StatsdItem.accumulate, StatsdItem.zeroOut,
        StatsdTimerStatItem.accumulate, value]
    | set s => rfl
  · intro item
    cases item <;> rfl

/-- The item of a set that some lines were put into. -/
def setItem (hashed : String → BitVec 64) (a : StatsdAccumulate) (key : String)
    (lines : List SetLine) : StatsdItem :=
  .set ⟨⟨key, 0#64, "", 0#32, 0#32, a.tagMode, a.hashMode, [], []⟩, "s",
    lines.foldl (fun values l => values.insert (hashed l.kept)) []⟩

variable (env parseFloat) in
theorem keptItem_set (earlier lines : List SetLine) :
    keptItem (a.kind env parseFloat hashed) (earlier.map (·.parsed parseFloat key))
        (lines.map (·.parsed parseFloat key)) =
      if earlier = [] ∧ lines = [] then none else some (setItem hashed a key lines) := by
  have folded : ∀ (lines : List SetLine) (inKey : StatName) (values : List (BitVec 64)),
      (lines.map (·.parsed parseFloat key)).foldl (a.kind env parseFloat hashed).accumulate
        (.set ⟨inKey, "s", values⟩) =
      .set ⟨inKey, "s", lines.foldl (fun values l => values.insert (hashed l.kept)) values⟩ := by
    intro lines inKey
    induction lines with
    | nil => exact fun _ => rfl
    | cons l lines ih => exact fun values => ih (values.insert (hashed l.kept))
  cases earlier with
  | cons first earlier =>
    rw [if_neg (by simp), List.map_cons, keptItem]
    exact congrArg some (folded lines _ [])
  | nil =>
    cases lines with
    | nil => rfl
    | cons l lines =>
      rw [if_neg (by simp), List.map_nil, keptItem]
      exact congrArg some (folded (l :: lines) _ [])

theorem length_foldl_insert (lines : List SetLine) :
    (lines.foldl (fun values l => values.insert (hashed l.kept)) []).length =
      (lines.map fun l => hashed l.kept).toFinset.card := by
  have spec : (lines.foldl (fun values l => values.insert (hashed l.kept)) []).Nodup ∧
      ∀ h, h ∈ lines.foldl (fun values l => values.insert (hashed l.kept)) [] ↔
        h ∈ lines.map fun l => hashed l.kept := by
    induction lines using List.reverseRecOn with
    | nil => exact ⟨List.nodup_nil, fun _ => .rfl⟩
    | append_singleton lines l ih =>
      rw [List.foldl_concat]
      refine ⟨ih.1.insert, fun h => ?_⟩
      rw [List.mem_insert_iff, ih.2 h, List.map_append, List.mem_append, List.map_singleton,
        List.mem_singleton, or_comm]
  rw [← List.toFinset_card_of_nodup spec.1]
  congr 1
  ext h
  simpa using spec.2 h

/-- The values that are given without a sample rate, and those that are given with one. -/
def plainValues (lines : List SetLine) : List String :=
  (lines.filter (·.rate.isNone)).map (·.value)

def sampledValues (lines : List SetLine) : List String :=
  (lines.filter (·.rate.isSome)).map (·.value)

theorem mem_plainValues {lines : List SetLine} {v : String} :
    v ∈ plainValues lines ↔ ∃ l ∈ lines, l.rate = none ∧ l.value = v := by
  simp [plainValues, and_assoc]

theorem mem_sampledValues {lines : List SetLine} {v : String} :
    v ∈ sampledValues lines ↔ ∃ l ∈ lines, l.rate ≠ none ∧ l.value = v := by
  simp [sampledValues, and_assoc, Option.isSome_iff_ne_none]

theorem length_values (lines : List SetLine) : (lines.map (·.value)).dedup.length =
    (onlySampled lines).dedup.length + (plainValues lines).toFinset.card := by
  have all : (lines.map (·.value)).toFinset =
      (sampledValues lines).toFinset ∪ (plainValues lines).toFinset := by
    ext v
    simp only [List.mem_toFinset, List.mem_map, Finset.mem_union, mem_plainValues,
      mem_sampledValues]
    constructor
    · rintro ⟨l, mem, rfl⟩
      by_cases none : l.rate = none
      · exact .inr ⟨l, mem, none, rfl⟩
      · exact .inl ⟨l, mem, none, rfl⟩
    · rintro (⟨l, mem, -, rfl⟩ | ⟨l, mem, -, rfl⟩)
      · exact ⟨l, mem, rfl⟩
      · exact ⟨l, mem, rfl⟩
  have only : (onlySampled lines).toFinset =
      (sampledValues lines).toFinset \ (plainValues lines).toFinset := by
    ext v
    simp [onlySampled, sampledValues, plainValues]
  rw [← List.card_toFinset, ← List.card_toFinset, all, only, Finset.card_sdiff_add_card]

/-- Where the hashes tell the values apart, there are as many as values just when the lines with a
sample rate stand for one value more. -/
theorem card_kept_iff {lines : List SetLine}
    (apart : ∀ l ∈ lines, ∀ l' ∈ lines, hashed l.value = hashed l'.value → l.value = l'.value) :
    (lines.map fun l => hashed l.kept).toFinset.card = (lines.map (·.value)).dedup.length ↔
      RatesCount hashed lines := by
  have image : ((plainValues lines).toFinset.image hashed).card =
      (plainValues lines).toFinset.card := by
    apply Finset.card_image_of_injOn
    intro v mem v' mem' same
    rw [Finset.mem_coe, List.mem_toFinset, mem_plainValues] at mem mem'
    obtain ⟨l, listed, -, rfl⟩ := mem
    obtain ⟨l', listed', -, rfl⟩ := mem'
    exact apart l listed l' listed' same
  rw [length_values, RatesCount]
  by_cases plain : ∀ l ∈ lines, l.rate = none
  · have kept : (lines.map fun l => hashed l.kept).toFinset =
        (plainValues lines).toFinset.image hashed := by
      ext h
      simp only [List.mem_toFinset, List.mem_map, Finset.mem_image, mem_plainValues]
      constructor
      · rintro ⟨l, mem, rfl⟩
        exact ⟨l.value, ⟨l, mem, plain l mem, rfl⟩, by rw [SetLine.kept, plain l mem]⟩
      · rintro ⟨-, ⟨l, mem, none, rfl⟩, rfl⟩
        exact ⟨l, mem, by rw [SetLine.kept, none]⟩
    have none : onlySampled lines = [] := by
      have no : lines.filter (·.rate.isSome) = [] := by
        rw [List.filter_eq_nil_iff]
        intro l mem
        simp [plain l mem]
      simp [onlySampled, no]
    exact iff_of_true (by simp [kept, image, none]) (.inl plain)
  · have kept : (lines.map fun l => hashed l.kept).toFinset =
        insert (hashed "") ((plainValues lines).toFinset.image hashed) := by
      ext h
      simp only [List.mem_toFinset, List.mem_map, Finset.mem_insert, Finset.mem_image,
        mem_plainValues]
      constructor
      · rintro ⟨l, mem, rfl⟩
        cases rate : l.rate with
        | none => exact .inr ⟨l.value, ⟨l, mem, rate, rfl⟩, by rw [SetLine.kept, rate]⟩
        | some text => exact .inl (by rw [SetLine.kept, rate])
      · rintro (rfl | ⟨-, ⟨l, mem, none, rfl⟩, rfl⟩)
        · push Not at plain
          obtain ⟨l, mem, some⟩ := plain
          obtain ⟨text, rate⟩ := Option.ne_none_iff_exists'.mp some
          exact ⟨l, mem, by rw [SetLine.kept, rate]⟩
        · exact ⟨l, mem, by rw [SetLine.kept, none]⟩
    have empty : hashed "" ∈ (plainValues lines).toFinset.image hashed ↔
        ∃ l ∈ lines, l.rate = none ∧ hashed l.value = hashed "" := by
      simp only [Finset.mem_image, List.mem_toFinset, mem_plainValues]
      constructor
      · rintro ⟨-, ⟨l, mem, none, rfl⟩, same⟩
        exact ⟨l, mem, none, same⟩
      · rintro ⟨l, mem, none, same⟩
        exact ⟨l.value, ⟨l, mem, none, rfl⟩, same⟩
    rw [kept, Finset.card_insert_eq_ite, image]
    simp only [empty, plain, false_or]
    split_ifs <;> omega

variable (env hashed a) in
theorem flush_setEvents (clean : CleanKey key) {events : List (Event SetLine)}
    (reads : ∀ l, .line l ∈ events → l.Reads parseFloat) (earlier lines : List SetLine) :
    sinceFlush (a.kind env parseFloat hashed) (lines.map (·.parsed parseFloat key))
        (setEvents key events) = (sinceReset lines events).map (·.parsed parseFloat key) ∧
      ∃ earlier' : List SetLine,
        beforeFlush (a.kind env parseFloat hashed) (earlier.map (·.parsed parseFloat key))
          (lines.map (·.parsed parseFloat key)) (setEvents key events) =
            earlier'.map (·.parsed parseFloat key) := by
  induction events generalizing earlier lines with
  | nil => exact ⟨rfl, earlier, rfl⟩
  | cons event events ih =>
    have later : ∀ l, .line l ∈ events → l.Reads parseFloat :=
      fun l mem => reads l (List.mem_cons_of_mem _ mem)
    cases event with
    | flushList =>
      obtain ⟨since, earlier', before⟩ := ih later (earlier ++ lines) []
      rw [List.map_append] at before
      exact ⟨since, earlier', before⟩
    | line l =>
      have own : (a.kind env parseFloat hashed).parse (l.line key) =
          .ok (l.parsed parseFloat key) := by
        rw [kind_parse]
        exact l.parse_line clean (reads l List.mem_cons_self)
      obtain ⟨since, earlier', before⟩ := ih later earlier (lines ++ [l])
      rw [List.map_append] at since before
      simp only [setEvents, List.map_cons, sinceFlush, beforeFlush, own]
      exact ⟨since, earlier', before⟩

theorem countsValues_iff_card (clean : CleanKey key) {events : List (Event SetLine)}
    (reads : ∀ l, .line l ∈ events → l.Reads parseFloat) :
    CountsValues env parseFloat hashed a keep key events ↔
      ((sinceReset [] events).map fun l => hashed l.kept).toFinset.card =
        ((sinceReset [] events).map (·.value)).dedup.length := by
  have accepted : ∀ raw, .line raw ∈ setEvents key events →
      ((a.kind env parseFloat hashed).parse raw).toOption.isSome := by
    intro raw mem
    obtain ⟨event, listed, same⟩ := List.mem_map.mp mem
    cases event with
    | flushList => cases same
    | line l =>
      obtain rfl := Event.line.inj same
      rw [kind_parse, l.parse_line clean (reads l listed)]
      rfl
  have start : Held (a.kind env parseFloat hashed) keep [] [] .empty := held_empty
  obtain ⟨st, served, held⟩ := serveWith_held statsd_clears start accepted
  obtain ⟨since, earlier, before⟩ := flush_setEvents env hashed a clean reads [] []
  have own : ∀ lines : List SetLine, group (a.kind env parseFloat hashed).key
      (lines.map (·.parsed parseFloat key)) (setKey key) = lines.map (·.parsed parseFloat key) := by
    intro lines
    rw [group, List.filter_eq_self]
    intro line mem
    obtain ⟨l, -, rfl⟩ := List.mem_map.mp mem
    exact decide_eq_true rfl
  -- the item of the set, in either mode
  obtain ⟨flushed, item⟩ : ∃ flushed : List SetLine, st.item? (setKey key) =
      if flushed = [] ∧ sinceReset [] events = [] then none
      else some (setItem hashed a key (sinceReset [] events)) := by
    refine ⟨if keep then earlier else [], ?_⟩
    have here := held.items (setKey key)
    simp only [List.map_nil] at since before
    rw [since, before, own, own] at here
    rw [here, ← keptItem_set env parseFloat]
    cases keep <;> rfl
  have written : ∀ (opts : StatsdOptions) (elapsed : Int),
      ((setItem hashed a key (sinceReset [] events)).write opts elapsed).lines.map (·.value) =
        [.exact (((sinceReset [] events).map fun l => hashed l.kept).toFinset.card : ℚ)] := by
    intro opts elapsed
    rw [← length_foldl_insert]
    rfl
  constructor
  · rintro ⟨st', served', -, counts⟩
    obtain rfl := Except.ok.inj (served'.symm.trans served)
    split_ifs at item with none
    · rw [none.2]
      rfl
    · have same := (written .defaults 0).symm.trans (counts _ item .defaults 0)
      simpa using same
  · intro same
    refine ⟨st, served, ?_, ?_⟩
    · intro some
      rw [item, if_neg fun both => some both.2]
      rfl
    · intro item' here opts elapsed
      rw [item] at here
      split_ifs at here
      obtain rfl := Option.some.inj here
      rw [written, same]

/-- With hashes that tell the values apart, the number that is written for a set is that of its
different values just when no line since the last reset has a sample rate, or when those with one
stand for one value more, or for none where the empty text is taken for a value. -/
theorem set_iff (env : Naming) (a : StatsdAccumulate) (keep : Bool) (clean : CleanKey key)
    {events : List (Event SetLine)} (reads : ∀ l, .line l ∈ events → l.Reads parseFloat)
    (apart : ∀ l ∈ sinceReset [] events, ∀ l' ∈ sinceReset [] events,
      hashed l.value = hashed l'.value → l.value = l'.value) :
    CountsValues env parseFloat hashed a keep key events ↔
      RatesCount hashed (sinceReset [] events) := by
  rw [countsValues_iff_card clean reads, card_kept_iff apart]

/-- A set with a value from before a reset, and two values with and without a sample rate. -/
def fourEvents : List (Event SetLine) :=
  [.line ⟨"x", some "2"⟩, .flushList, .line ⟨"y", none⟩, .line ⟨"zz", some "2"⟩, .line ⟨"y", none⟩]

theorem set_iff_four : CountsValues plainNaming wholeNumber (fun v => BitVec.ofNat 64 v.length)
    ⟨.metrics2, .fnv⟩ true "a" fourEvents := by
  have reads : ∀ l, .line l ∈ fourEvents → l.Reads wholeNumber := by
    intro l mem
    simp only [fourEvents, List.mem_cons, Event.line.injEq, reduceCtorEq, List.not_mem_nil,
      or_false,
      false_or] at mem
    rcases mem with rfl | rfl | rfl | rfl <;> exact ⟨by decide, by decide, by decide⟩
  exact (set_iff plainNaming ⟨.metrics2, .fnv⟩ true ⟨by decide, by decide⟩ reads
    (by decide +kernel)).mpr (.inr (by decide +kernel))

/-- Of two values with a sample rate only one is counted. -/
theorem set_not_counted : ¬ CountsValues plainNaming wholeNumber
    (fun v => BitVec.ofNat 64 v.length) ⟨.metrics2, .fnv⟩ false "a"
    [.line ⟨"x", some "2"⟩, .line ⟨"yy", some "2"⟩] := by
  have reads : ∀ l, .line l ∈ [Event.line (⟨"x", some "2"⟩ : SetLine), .line ⟨"yy", some "2"⟩] →
      l.Reads wholeNumber := by
    intro l mem
    simp only [List.mem_cons, Event.line.injEq, List.not_mem_nil, or_false] at mem
    rcases mem with rfl | rfl <;> exact ⟨by decide, by decide, by decide⟩
  rw [countsValues_iff_card ⟨by decide, by decide⟩ reads]
  decide +kernel

end Set

end Accumulator
