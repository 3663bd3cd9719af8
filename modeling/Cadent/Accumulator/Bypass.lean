import Cadent.Accumulator.CarbonTwo
import Cadent.Accumulator.Sequential
import Cadent.Accumulator.Statsd
import Cadent.Lib.Consume

/-!
# Stats that pass by the accumulator

`ProcessLineToRepr` makes a stat of one line without an item. In bypass mode it stands in for
`ProcessLine` and the flush after it. Each format reads the line a second time, in its own
words; the statsd one does not read the value.
-/

namespace Accumulator

open Consume Keys Maps Repr Text

/-- A stat made of one line, with the name it points to. `none` is a sum that is not finite. -/
structure LineStat where
  name : StatName
  time : BitVec 64
  min : ℚ
  max : ℚ
  last : ℚ
  sum : Option ℚ
  count : Int
  deriving DecidableEq

/-- A new stat in which the count, the sum and the time are set. -/
def LineStat.one (name : StatName) (sum : Option ℚ) (time : BitVec 64) : LineStat :=
  ⟨name, time, 0, 0, 0, sum, 1⟩

/-- `val / sample`. -/
def Parsed.under (val : ℚ) : Parsed → Option ℚ
  | finite sample => if sample = 0 then none else some (val / sample)
  | inf => some 0
  | nan => none

section Formats

variable (env : Naming) (parseFloat : String → Option Parsed)

def GraphiteAccumulate.processLineToRepr (a : GraphiteAccumulate) (raw : String × Int) :
    Except String LineStat :=
  match fields raw.1 with
  | key :: val :: intime :: rest =>
    let t := match parseInt intime with
      | some i => i * 1000000000
      | none => raw.2
    match parseFloat val with
    | none => .error ("Accumulate: Bad Value | Invalid Graphite line `" ++ raw.1 ++ "`")
    | some fVal =>
      let (tags, metaTags) :=
        if 0 < rest.length then
          let orgtags := sortingTagsFromArray rest
          let (tags, metaTags) :=
            if a.tagMode = .metrics2 then splitIntoMetric2Tags [] orgtags else (orgtags, [])
          (env.sortTags tags, metaTags)
        else ([], [])
      .ok (.one ⟨key, 0#64, "", 0#32, 0#32, a.tagMode, a.hashMode, tags, metaTags⟩ fVal.value?
        (unixNano t))
  | _ => .error ("Accumulate: Invalid Graphite line `" ++ raw.1 ++ "`")

def CarbonTwoAccumulate.processLineToRepr (a : CarbonTwoAccumulate) (raw : String × Int) :
    Except Failure LineStat :=
  match CarbonTwoAccumulate.cut raw.1 with
  | .error failure => .error failure
  | .ok (key, vals) =>
    match vals.reverse with
    | intime :: val :: others =>
      match parseFloat val with
      | none => .error (.error ("Accumulate: Bad Value | Invalid CarbonTwo line `" ++ raw.1 ++ "`"))
      | some fVal =>
        let tags := sortingTagsFromString key
        if unit tags = "" then .error (.error "unit Tag is required")
        else if mtype tags = "" then .error (.error "mtype Tag is required")
        else
          let metaTags := sortingTagsFromArray others.reverse
          let (tags, metaTags) := match a.tagMode with
            | .all => (mergeTags tags metaTags, [])
            | .metrics2 => (tags, metaTags)
          let tags := env.sortTags tags
          let uniqueKey := toStringSep tags "_is_" "."
          .ok (.one ⟨uniqueKey, 0#64, "", 0#32, 0#32, a.tagMode, a.hashMode, tags, metaTags⟩
            fVal.value? (unixNano (CarbonTwoAccumulate.readTime intime raw.2)))
    | _ => .error (.error ("Accumulate: Invalid CarbonTwo line `" ++ raw.1 ++ "`"))

/-- The sample rate of `ProcessLineToRepr`. -/
def StatsdAccumulate.sampleOf (line : String) (valType : List String) : Except String Parsed :=
  match valType with
  | [_, _, rate] =>
    match split rate "@" with
    | [_, sample] =>
      match parseFloat sample with
      | none => .error ("Accumulate: Bad Sample number | Invalid Statds line `" ++ line ++ "`")
      | some sample => .ok sample
    | _ => .error ("Accumulate: Sample | Invalid Statds line `" ++ line ++ "`")
  | _ => .ok (.finite 1)

/-- `fVal` is declared and never given a value. -/
def StatsdAccumulate.processLineToRepr (a : StatsdAccumulate) (now : Int) (line : String) :
    Except String LineStat := do
  let gotTags := split line "|#"
  match split (gotTags.headD "") ":" with
  | key :: second :: _ =>
    let sample ← StatsdAccumulate.sampleOf parseFloat line (split second "|")
    let tags := match gotTags with
      | _ :: tagstr :: _ => env.sortTags (sortingTagsFromString tagstr)
      | _ => []
    let fVal : ℚ := 0
    return .one ⟨key, 0#64, "", 0#32, 0#32, a.tagMode, a.hashMode, tags, []⟩
      (sample.under (fVal * 1)) (unixNano now)
  | _ => .error ("Accumulate: Invalid Statds line `" ++ line ++ "`")

end Formats

/-! ### The second reading of a line -/

section Readings

variable {env : Naming} {parseFloat : String → Option Parsed}

theorem GraphiteAccumulate.processLineToRepr_of_parse {a : GraphiteAccumulate}
    {raw : String × Int} {line : GraphiteLine} (parsed : a.parse env parseFloat raw = .ok line) :
    a.processLineToRepr env parseFloat raw =
      .ok (.one (a.fresh line).inKey line.value (unixNano line.time)) := by
  have untagged : env.sortTags [] = [] := List.perm_nil.mp (env.sortTags_perm [])
  rcases cut : fields raw.1 with _ | ⟨key, _ | ⟨val, _ | ⟨intime, rest⟩⟩⟩
  · simp [GraphiteAccumulate.parse, cut] at parsed
  · simp [GraphiteAccumulate.parse, cut] at parsed
  · simp [GraphiteAccumulate.parse, cut] at parsed
  · rcases read : parseFloat val with _ | value
    · simp [GraphiteAccumulate.parse, cut, read] at parsed
    · simp only [GraphiteAccumulate.parse, cut, read, Except.ok.injEq] at parsed
      subst parsed
      cases rest
      all_goals
        cases seconds : parseInt intime
        all_goals
          cases mode : a.tagMode
          all_goals
            simp [GraphiteAccumulate.processLineToRepr, cut, read, seconds, mode, untagged,
              GraphiteAccumulate.fresh, sortingTagsFromArray, splitIntoMetric2Tags]

theorem CarbonTwoAccumulate.processLineToRepr_of_parse {a : CarbonTwoAccumulate}
    {raw : String × Int} {line : CarbonTwoLine} (parsed : a.parse env parseFloat raw = .ok line) :
    a.processLineToRepr env parseFloat raw =
      .ok (.one (a.fresh line).inKey line.value (unixNano line.time)) := by
  rcases cut : CarbonTwoAccumulate.cut raw.1 with failure | ⟨key, vals⟩
  · simp [CarbonTwoAccumulate.parse, cut] at parsed
  · rcases last : vals.reverse with _ | ⟨intime, _ | ⟨val, others⟩⟩
    · simp [CarbonTwoAccumulate.parse, cut, last] at parsed
    · simp [CarbonTwoAccumulate.parse, cut, last] at parsed
    · rcases read : parseFloat val with _ | value
      · simp [CarbonTwoAccumulate.parse, cut, last, read] at parsed
      · simp only [CarbonTwoAccumulate.parse, cut, last, read] at parsed
        split_ifs at parsed with noUnit noType
        simp only [Except.ok.injEq] at parsed
        subst parsed
        cases mode : a.tagMode
        all_goals
          simp only [CarbonTwoAccumulate.processLineToRepr, cut, last, read, if_neg noUnit,
            if_neg noType, mode, CarbonTwoAccumulate.fresh, CarbonTwoAccumulate.uniqueKey]

theorem StatsdAccumulate.sampleOf_of_parseSample {line val val' : String} {valType : List String}
    {weight : Option ℚ} (read : parseSample parseFloat line val valType = .ok (weight, val')) :
    ∃ sample, sampleOf parseFloat line valType = .ok sample ∧ sample.inverse = weight := by
  have plain : parseSample parseFloat line val valType = .ok (some 1, val) →
      sampleOf parseFloat line valType = .ok (.finite 1) →
      ∃ sample, sampleOf parseFloat line valType = .ok sample ∧ sample.inverse = weight := by
    intro one here
    rw [one] at read
    cases read
    exact ⟨.finite 1, here, by simp [Parsed.inverse]⟩
  rcases valType with _ | ⟨value, _ | ⟨cType, _ | ⟨rate, _ | ⟨next, rest⟩⟩⟩⟩
  · exact plain rfl rfl
  · exact plain rfl rfl
  · exact plain rfl rfl
  · -- the rate has to be one text after an `@`
    rcases cut : split rate "@" with _ | ⟨before, _ | ⟨sample, _ | ⟨more, rest⟩⟩⟩
    · simp [parseSample, cut] at read
    · simp [parseSample, cut] at read
    · rcases number : parseFloat sample with _ | parsed
      · simp [parseSample, cut, number] at read
      · simp only [parseSample, cut, number, Except.ok.injEq, Prod.mk.injEq] at read
        exact ⟨parsed, by simp only [sampleOf, cut, number], read.1⟩
    · simp [parseSample, cut] at read
  · exact plain rfl rfl

/-- No value is read, and the sum is 0 for every rate that scales values. -/
theorem StatsdAccumulate.processLineToRepr_of_parse {a : StatsdAccumulate} {raw : String}
    {line : StatsdLine} {weight : ℚ} (parsed : parse env parseFloat raw = .ok line)
    (scales : line.weight = some weight) (now : Int) :
    a.processLineToRepr env parseFloat now raw = .ok (.one (a.inKey line) (some 0) (unixNano now))
    := by
  have zero : ∀ {sample : Parsed}, sample.inverse = some weight →
      sample.under (0 * 1) = some 0 := by
    intro sample inverse
    cases sample with
    | finite rate =>
      rw [Parsed.inverse] at inverse
      split_ifs at inverse with none
      simp [Parsed.under, none]
    | inf => rfl
    | nan => cases inverse
  rcases cut : split ((split raw "|#").headD "") ":" with _ | ⟨key, _ | ⟨second, rest⟩⟩
  · simp only [parse, cut, reduceCtorEq] at parsed
  · simp only [parse, cut, reduceCtorEq] at parsed
  · simp only [parse, cut] at parsed
    obtain ⟨value, -, parsed⟩ := bind_ok parsed
    obtain ⟨⟨weight', val⟩, sampled, parsed⟩ := bind_ok parsed
    obtain ⟨sample, read, inverse⟩ := sampleOf_of_parseSample sampled
    rcases tagged : split raw "|#" with _ | ⟨first, _ | ⟨tagstr, others⟩⟩
    all_goals
      simp only [tagged, pure, Except.pure, Except.ok.injEq] at parsed
      subst parsed
      rw [tagged] at cut
      simp only [processLineToRepr, tagged, cut, read, bind, Except.bind, pure, Except.pure, inKey,
        zero (inverse.trans scales)]

end Readings

/-! ### What is forwarded -/

/-- A stat that passes by is the one that the next flush of a fresh accumulator has, and its sum
is the value of the line times its weight. -/
def Forwards {Raw Line Item ε : Type} (K : Kind Raw Line Item) (toRepr : Raw → Except ε LineStat)
    (raw : Raw) (scaled : ℚ) : Prop :=
  ∃ stat st, toRepr raw = .ok stat ∧ Store.empty.processLine K raw = .ok st ∧
    stat.sum = some scaled ∧
    ∀ keep order, (order.map Prod.fst).Perm st.stats.keys →
      ∃ flushed, (st.flushList K keep order).1 = [flushed] ∧
        stat.name.key = flushed.name.key ∧ stat.name.tags = flushed.name.tags ∧
        stat.name.metaTags = flushed.name.metaTags ∧
        stat.sum = some flushed.sum ∧ stat.count = flushed.count

section Forwards

variable {Raw Line Item ε : Type} {K : Kind Raw Line Item}

theorem flushList_single {raw : Raw} {line : Line} (parsed : K.parse raw = .ok line) :
    ∃ st, Store.empty.processLine K raw = .ok st ∧ st.stats.keys = [K.key line] ∧
      ∀ keep now, (st.flushList K keep [(K.key line, now)]).1 =
        [K.repr now (K.accumulate (K.fresh line) line)] := by
  obtain ⟨st, processed, holds⟩ := holds_empty.processLine parsed
  obtain ⟨keys, item⟩ := holds.keys_eq (by simp) (K.key line) (by simp)
  refine ⟨st, processed, keys, ?_⟩
  intro keep now
  simp only [Store.flushList, Store.read, List.filterMap_cons, item, List.filterMap_nil]
  rfl

/-- A line is forwarded as it is flushed when both sums are the scaled value. -/
theorem forwards_iff {toRepr : Raw → Except ε LineStat} {raw : Raw} {line : Line} {name : StatName}
    {sum : Option ℚ} {time : BitVec 64} {scaled flushed : ℚ} (parsed : K.parse raw = .ok line)
    (made : toRepr raw = .ok (.one name sum time))
    (repr : ∀ now, (K.repr now (K.accumulate (K.fresh line) line)).name = name ∧
      (K.repr now (K.accumulate (K.fresh line) line)).count = 1 ∧
      (K.repr now (K.accumulate (K.fresh line) line)).sum = flushed) :
    Forwards K toRepr raw scaled ↔ sum = some scaled ∧ flushed = scaled := by
  obtain ⟨st, processed, keys, flush⟩ := flushList_single parsed
  constructor
  · rintro ⟨stat, st', made', processed', summed, flushes⟩
    obtain rfl := Except.ok.inj (made.symm.trans made')
    obtain rfl := Except.ok.inj (processed.symm.trans processed')
    obtain ⟨got, only, -, -, -, same, -⟩ := flushes false [(K.key line, 0)] (by rw [keys]; rfl)
    obtain rfl := List.singleton_inj.mp ((flush false 0).symm.trans only)
    rw [(repr 0).2.2, summed] at same
    exact ⟨summed, (Option.some.inj same).symm⟩
  · rintro ⟨rfl, rfl⟩
    refine ⟨_, st, made, processed, rfl, ?_⟩
    intro keep order perm
    rw [keys] at perm
    obtain ⟨⟨key, now⟩, rfl, rfl⟩ := List.map_eq_singleton_iff.mp (List.perm_singleton.mp perm)
    obtain ⟨named, counted, summed⟩ := repr now
    exact ⟨_, flush keep now, by rw [named]; rfl, by rw [named]; rfl, by rw [named]; rfl,
      by rw [summed]; rfl, by rw [counted]; rfl⟩

end Forwards

section Formats

variable (env : Naming) (parseFloat : String → Option Parsed) (hashed : String → BitVec 64)

/-- The stat of a first value: a sum that is the flag is shown as 0. -/
theorem checkFloat_eq_self_iff (val : ℚ) : checkFloat (some val) = val ↔ val ≠ minFlag := by
  rw [checkFloat]
  constructor
  · rintro shown rfl
    rw [if_pos rfl] at shown
    exact absurd shown (by decide +kernel)
  · intro other
    rw [if_neg other]

theorem GraphiteBaseStatItem.repr_first {s : GraphiteBaseStatItem} (count : s.count = 0)
    (sum : s.sum = 0) {value : Option ℚ} {val : ℚ} (finite : value = some val) (now : Int) :
    ((s.accumulate value).repr now).name = s.inKey ∧ ((s.accumulate value).repr now).count = 1 ∧
      ((s.accumulate value).repr now).sum = checkFloat (some val) := by
  subst finite
  simp [GraphiteBaseStatItem.repr, accumulate, count, sum]

theorem GraphiteAccumulate.forwards_iff_ne_flag (a : GraphiteAccumulate) {raw : String × Int}
    {line : GraphiteLine} {val : ℚ} (parsed : a.parse env parseFloat raw = .ok line)
    (finite : line.value = some val) :
    Forwards (a.kind env parseFloat) (a.processLineToRepr env parseFloat) raw val ↔
      val ≠ minFlag := by
  rw [forwards_iff parsed (processLineToRepr_of_parse parsed)
    (GraphiteBaseStatItem.repr_first rfl rfl finite), checkFloat_eq_self_iff]
  exact and_iff_right finite

theorem CarbonTwoAccumulate.forwards_iff_ne_flag (a : CarbonTwoAccumulate) {raw : String × Int}
    {line : CarbonTwoLine} {val : ℚ} (parsed : a.parse env parseFloat raw = .ok line)
    (finite : line.value = some val) :
    Forwards (a.kind env parseFloat) (a.processLineToRepr env parseFloat) raw val ↔
      val ≠ minFlag := by
  have parsed' : (a.kind env parseFloat).parse raw = .ok line := by
    rw [kind_parse, parsed]
    rfl
  rw [forwards_iff parsed' (processLineToRepr_of_parse parsed)
    (GraphiteBaseStatItem.repr_first rfl rfl finite), checkFloat_eq_self_iff]
  exact and_iff_right finite

/-- The stat of a counter has the sum 0, which is its value only if the scaled value is 0. -/
theorem StatsdAccumulate.forwards_iff_eq_zero (a : StatsdAccumulate) {raw : String}
    {line : StatsdLine} {val weight : ℚ} (parsed : parse env parseFloat raw = .ok line)
    (counter : line.cType = "c") (finite : line.value = some val)
    (scales : line.weight = some weight) (now : Int) :
    Forwards (a.kind env parseFloat hashed) (a.processLineToRepr env parseFloat now) raw
      (val * weight) ↔ val * weight = 0 := by
  have repr : ∀ now, (StatsdItem.repr now ((a.fresh line).accumulate hashed line)).name =
      a.inKey line ∧ (StatsdItem.repr now ((a.fresh line).accumulate hashed line)).count = 1 ∧
      (StatsdItem.repr now ((a.fresh line).accumulate hashed line)).sum =
        checkFloat (some (val * weight)) := by
    intro now
    simp [fresh, counter, StatsdItem.accumulate, StatsdBaseStatItem.accumulate, finite, scales,
      addFinite, StatsdItem.repr]
  have made := a.processLineToRepr_of_parse parsed scales now
  have parsed' : (a.kind env parseFloat hashed).parse raw = .ok line := by
    dsimp only [kind]
    exact parsed
  rw [forwards_iff parsed' made repr, Option.some.injEq]
  constructor
  · rintro ⟨zero, -⟩
    exact zero.symm
  · intro zero
    rw [zero]
    exact ⟨rfl, by decide +kernel⟩

/-- Graphite and carbon2 stats pass by as they are flushed, but for a value that is the flag of
an empty item. A counter of statsd does so only with a scaled value of 0. -/
theorem forwards_formats_iff :
    (∀ (a : GraphiteAccumulate) (raw : String × Int) (line : GraphiteLine) (val : ℚ),
      a.parse env parseFloat raw = .ok line → line.value = some val →
      (Forwards (a.kind env parseFloat) (a.processLineToRepr env parseFloat) raw val ↔
        val ≠ minFlag)) ∧
    (∀ (a : CarbonTwoAccumulate) (raw : String × Int) (line : CarbonTwoLine) (val : ℚ),
      a.parse env parseFloat raw = .ok line → line.value = some val →
      (Forwards (a.kind env parseFloat) (a.processLineToRepr env parseFloat) raw val ↔
        val ≠ minFlag)) ∧
    (∀ (a : StatsdAccumulate) (now : Int) (raw : String) (line : StatsdLine) (val weight : ℚ),
      StatsdAccumulate.parse env parseFloat raw = .ok line → line.cType = "c" →
      line.value = some val → line.weight = some weight →
      (Forwards (a.kind env parseFloat hashed) (a.processLineToRepr env parseFloat now) raw
        (val * weight) ↔ val * weight = 0)) := by
  refine ⟨?_, ?_, ?_⟩
  · intro a raw line val parsed finite
    exact a.forwards_iff_ne_flag env parseFloat parsed finite
  · intro a raw line val parsed finite
    exact a.forwards_iff_ne_flag env parseFloat parsed finite
  · intro a now raw line val weight parsed counter finite scales
    exact a.forwards_iff_eq_zero env parseFloat hashed parsed counter finite scales now

/-- A graphite line and a carbon2 line pass by as they are flushed, and a counter of 0. -/
theorem forwards_formats_iff_three :
    Forwards (GraphiteAccumulate.kind plainNaming wholeNumber ⟨1, .metrics2, .fnv⟩)
      (GraphiteAccumulate.processLineToRepr plainNaming wholeNumber ⟨1, .metrics2, .fnv⟩)
      ("a 5 100 host=b x=y", 0) 5 ∧
    Forwards (CarbonTwoAccumulate.kind plainNaming wholeNumber ⟨1, .all, .fnv⟩)
      (CarbonTwoAccumulate.processLineToRepr plainNaming wholeNumber ⟨1, .all, .fnv⟩)
      ("mtype=count unit=B  host=a 7 12", 0) 7 ∧
    Forwards (StatsdAccumulate.kind plainNaming wholeNumber (fun _ => 0#64) ⟨.all, .fnv⟩)
      (StatsdAccumulate.processLineToRepr plainNaming wholeNumber ⟨.all, .fnv⟩ 0)
      "a:0|c|@2" (0 * (1 / 2)) := by
  obtain ⟨graphite, carbonTwo, statsd⟩ :=
    forwards_formats_iff plainNaming wholeNumber (fun _ => 0#64)
  refine ⟨?_, ?_, ?_⟩
  · exact (graphite _ _ ⟨"a", [⟨"host", "b"⟩], [⟨"x", "y"⟩], 100000000000, some 5⟩ 5
      (by decide +kernel) rfl).mpr (by decide +kernel)
  · exact (carbonTwo _ _ ⟨[⟨"mtype", "count"⟩, ⟨"unit", "B"⟩, ⟨"host", "a"⟩], [], 12000000000,
      some 7⟩ 7 (by decide +kernel) rfl).mpr (by decide +kernel)
  · exact (statsd _ 0 _ ⟨"a", "c", "", some 0, some (1 / 2), [], ""⟩ 0 (1 / 2)
      (by decide +kernel) rfl rfl rfl).mpr (by decide +kernel)

/-- The counter `a:5|c` passes by with the sum 0. -/
theorem counter_forwarded_as_zero :
    StatsdAccumulate.parse plainNaming wholeNumber "a:5|c" =
      .ok ⟨"a", "c", "5", some 5, some 1, [], ""⟩ ∧
    (StatsdAccumulate.processLineToRepr plainNaming wholeNumber ⟨.all, .fnv⟩ 0 "a:5|c").toOption.map
      (·.sum) = some (some 0) ∧
    ¬ Forwards (StatsdAccumulate.kind plainNaming wholeNumber (fun _ => 0#64) ⟨.all, .fnv⟩)
      (StatsdAccumulate.processLineToRepr plainNaming wholeNumber ⟨.all, .fnv⟩ 0)
      "a:5|c" (5 * 1) := by
  have parsed : StatsdAccumulate.parse plainNaming wholeNumber "a:5|c" =
      .ok ⟨"a", "c", "5", some 5, some 1, [], ""⟩ := by decide +kernel
  refine ⟨parsed, by decide +kernel, ?_⟩
  rw [StatsdAccumulate.forwards_iff_eq_zero plainNaming wholeNumber _ _ parsed rfl rfl rfl]
  decide +kernel

end Formats

end Accumulator
