import Cadent.Accumulator.Bypass

/-!
# Stats that are injected

`ProcessRepr` takes in a stat that was made elsewhere. A stat with a count of 1 is taken for a
line and accumulated, any other is merged. A new item starts with the smallest, the largest and
the last value of the stat, which `ProcessLineToRepr` leaves at 0. The time of the stat is read
back as seconds when it is small. Stats have finite numbers here.
-/

namespace Accumulator

open Groups Keys Repr Text

/-- Nano or second timestamps. -/
def Stat.toTime (s : Stat) : Int :=
  if 2147483647 < s.time.toInt then s.time.toInt else s.time.toInt * 1000000000

def LineStat.finite? (s : LineStat) : Option Stat :=
  s.sum.map fun sum => ⟨s.name, s.time, s.min, s.max, s.last, sum, s.count⟩

def GraphiteBaseStatItem.merge (s : GraphiteBaseStatItem) (stat : Stat) : GraphiteBaseStatItem :=
  { s with
    min := if s.min = minFlag ∨ stat.min < s.min then stat.min else s.min
    max := if s.max = minFlag ∨ s.max < stat.max then stat.max else s.max
    count := s.count + stat.count
    sum := s.sum + stat.sum
    last := if s.time < stat.toTime ∨ s.last = minFlag then stat.last else s.last }

namespace GraphiteAccumulate

variable (env : Naming) (parseFloat : String → Option Parsed) (a : GraphiteAccumulate)

/-- The name as the tag mode has it. `Merge` adds nothing to a list that is empty. -/
def obeyTagMode (name : StatName) : StatName :=
  let tgs := if 0 < name.tags.length then env.sortTags name.tags else name.tags
  match a.tagMode with
  | .all =>
    let merged := if tgs = [] then [] else mergeTags tgs name.metaTags
    { name with tags := env.sortTags merged, metaTags := [] }
  | .metrics2 =>
    let (tgs, metaTags) := splitIntoMetric2Tags tgs name.metaTags
    { name with tags := env.sortTags tgs, metaTags := metaTags }

/-- `ProcessRepr`; its steps are those of `ProcessLine`. -/
def reprKind : Kind Stat Stat GraphiteBaseStatItem where
  parse stat := .ok { stat with name := a.obeyTagMode env stat.name }
  key stat := a.mapKey (stat.name.key ++ toStringSep stat.name.tags "." ".") stat.toTime
  fresh stat :=
    { time := truncate stat.toTime a.resolution
      inKey := { stat.name with tagMode := a.tagMode }
      values := []
      count := 0
      sum := 0
      min := stat.min
      max := stat.max
      last := stat.last }
  accumulate s stat := if stat.count = 1 then s.accumulate (some stat.sum) else s.merge stat
  zeroOut := GraphiteBaseStatItem.zeroOut
  repr := GraphiteBaseStatItem.repr

/-- The stats that some lines are made into. -/
def injected (raws : List (String × Int)) : Option (List Stat) :=
  raws.mapM fun raw => (a.processLineToRepr env parseFloat raw).toOption.bind LineStat.finite?

end GraphiteAccumulate

/-- What two items are compared by. -/
structure Figures where
  count : Int
  sum : ℚ
  min : ℚ
  max : ℚ
  last : ℚ
  time : Int
  deriving DecidableEq

def figures (s : GraphiteBaseStatItem) : Figures :=
  ⟨s.count, s.sum, s.min, s.max, s.last, s.time⟩

/-- Lines, and the stats that they are made into, leave the same items. -/
def InjectsAlike (env : Naming) (parseFloat : String → Option Parsed) (a : GraphiteAccumulate)
    (raws : List (String × Int)) : Prop :=
  ∃ st st' stats, serve (a.kind env parseFloat) .empty (raws.map .line) = .ok st ∧
    a.injected env parseFloat raws = some stats ∧
    serve (a.reprKind env) .empty (stats.map .line) = .ok st' ∧
    ∀ key, (st.item? key).map figures = (st'.item? key).map figures

/-- A line without tags that is read, with a finite value. -/
structure PlainLine (env : Naming) (parseFloat : String → Option Parsed)
    (a : GraphiteAccumulate) where
  raw : String × Int
  line : GraphiteLine
  val : ℚ
  parsed : a.parse env parseFloat raw = .ok line
  untagged : (fields raw.1).length = 3
  finite : line.value = some val

namespace PlainLine

variable {env : Naming} {parseFloat : String → Option Parsed} {a : GraphiteAccumulate}

/-- The stat that the line is made into. -/
def stat (l : PlainLine env parseFloat a) : Stat :=
  ⟨(a.fresh l.line).inKey, unixNano l.line.time, 0, 0, 0, l.val, 1⟩

/-- The key of the item that takes the line in. -/
def itemKey (l : PlainLine env parseFloat a) : String := a.statKey l.line

/-- The time of the stat is read back into the bucket of the line. -/
def ReadsBack (l : PlainLine env parseFloat a) : Prop :=
  truncate l.stat.toTime a.resolution = truncate l.line.time a.resolution
  deriving Decidable

theorem noTags (l : PlainLine env parseFloat a) : l.line.tags = [] ∧ l.line.metaTags = [] := by
  have untagged : env.sortTags [] = [] := List.perm_nil.mp (env.sortTags_perm [])
  have parsed := l.parsed
  obtain ⟨key, val, intime, three⟩ := List.length_eq_three.mp l.untagged
  rw [GraphiteAccumulate.parse] at parsed
  simp only [three] at parsed
  rcases read : parseFloat val with _ | value
  · simp [read] at parsed
  · simp only [read, Except.ok.injEq] at parsed
    rw [← parsed]
    cases mode : a.tagMode
    all_goals simp [sortingTagsFromArray, splitIntoMetric2Tags, untagged]

theorem made (l : PlainLine env parseFloat a) :
    (a.processLineToRepr env parseFloat l.raw).toOption.bind LineStat.finite? = some l.stat := by
  rw [GraphiteAccumulate.processLineToRepr_of_parse l.parsed, l.finite]
  rfl

theorem parse_stat (l : PlainLine env parseFloat a) :
    (a.reprKind env).parse l.stat = .ok l.stat := by
  have untagged : env.sortTags [] = [] := List.perm_nil.mp (env.sortTags_perm [])
  obtain ⟨tags, metaTags⟩ := l.noTags
  have name : a.obeyTagMode env l.stat.name = l.stat.name := by
    simp only [GraphiteAccumulate.obeyTagMode, stat, GraphiteAccumulate.fresh, tags, metaTags]
    cases a.tagMode
    all_goals simp [splitIntoMetric2Tags, untagged]
  simp only [GraphiteAccumulate.reprKind, name]

theorem key_stat {l : PlainLine env parseFloat a} (back : l.ReadsBack) :
    (a.reprKind env).key l.stat = l.itemKey := by
  rw [ReadsBack] at back
  simp only [GraphiteAccumulate.reprKind, itemKey, GraphiteAccumulate.statKey,
    GraphiteAccumulate.mapKey, back]
  rfl

end PlainLine

/-! ### The items of one key -/

/-- The smallest values of two items that took in the same values: a value that is not positive
makes up for the 0 that the second one started with. -/
def LeastAlike (vals : List ℚ) (least least' : ℚ) : Prop :=
  least = least' ∧ (∃ v ∈ vals, v ≤ 0) ∨ (∀ v ∈ vals, 0 < v) ∧ least' = 0 ∧ 0 < least

def GreatestAlike (vals : List ℚ) (greatest greatest' : ℚ) : Prop :=
  greatest = greatest' ∧ (∃ v ∈ vals, 0 ≤ v) ∨
    (∀ v ∈ vals, v < 0) ∧ greatest' = 0 ∧ greatest < 0

theorem minFlag_neg : minFlag < 0 := by decide +kernel

theorem LeastAlike.accumulate {vals : List ℚ} {least least' : ℚ}
    (alike : LeastAlike vals least least') (val : ℚ) :
    LeastAlike (vals ++ [val]) (if least = minFlag ∨ val < least then val else least)
      (if least' = minFlag ∨ val < least' then val else least') := by
  rcases alike with ⟨rfl, v, mem, small⟩ | ⟨positive, rfl, above⟩
  · exact .inl ⟨rfl, v, List.mem_append_left _ mem, small⟩
  · have zero : (0 : ℚ) ≠ minFlag := minFlag_neg.ne'
    have flag : least ≠ minFlag := (minFlag_neg.trans above).ne'
    rcases le_or_gt val 0 with small | large
    · refine .inl ⟨?_, val, by simp, small⟩
      rw [if_pos (.inr (small.trans_lt above))]
      rcases small.lt_or_eq with negative | rfl
      · rw [if_pos (.inr negative)]
      · simp
    · refine .inr ⟨?_, ?_, ?_⟩
      · intro v mem
        rcases List.mem_append.mp mem with old | own
        · exact positive v old
        · exact List.mem_singleton.mp own ▸ large
      · rw [if_neg (not_or.mpr ⟨zero, large.not_gt⟩)]
      · split_ifs
        · exact large
        · exact above

theorem GreatestAlike.accumulate {vals : List ℚ} {greatest greatest' : ℚ}
    (alike : GreatestAlike vals greatest greatest') (val : ℚ) :
    GreatestAlike (vals ++ [val])
      (if greatest = minFlag ∨ greatest < val then val else greatest)
      (if greatest' = minFlag ∨ greatest' < val then val else greatest') := by
  rcases alike with ⟨rfl, v, mem, large⟩ | ⟨negative, rfl, below⟩
  · exact .inl ⟨rfl, v, List.mem_append_left _ mem, large⟩
  · have zero : (0 : ℚ) ≠ minFlag := minFlag_neg.ne'
    rcases le_or_gt 0 val with large | small
    · refine .inl ⟨?_, val, by simp, large⟩
      rw [if_pos (.inr (below.trans_le large))]
      rcases large.lt_or_eq with positive | rfl
      · rw [if_pos (.inr positive)]
      · simp
    · refine .inr ⟨?_, ?_, ?_⟩
      · intro v mem
        rcases List.mem_append.mp mem with old | own
        · exact negative v old
        · exact List.mem_singleton.mp own ▸ small
      · rw [if_neg (not_or.mpr ⟨zero, small.not_gt⟩)]
      · split_ifs
        · exact small
        · exact below

/-- An item of lines and the item of their stats. -/
structure Alike (vals : List ℚ) (s s' : GraphiteBaseStatItem) : Prop where
  count : s.count = s'.count
  sum : s.sum = s'.sum
  last : s.last = s'.last
  time : s.time = s'.time
  least : LeastAlike vals s.min s'.min
  greatest : GreatestAlike vals s.max s'.max

theorem Alike.accumulate {vals : List ℚ} {s s' : GraphiteBaseStatItem} (alike : Alike vals s s')
    (val : ℚ) : Alike (vals ++ [val]) (s.accumulate (some val)) (s'.accumulate (some val)) where
  count := congrArg (· + 1) alike.count
  sum := congrArg (· + val) alike.sum
  last := rfl
  time := alike.time
  least := alike.least.accumulate val
  greatest := alike.greatest.accumulate val

/-- The items have the same figures if no 0 was brought in. -/
theorem Alike.figures_iff {vals : List ℚ} {s s' : GraphiteBaseStatItem} (alike : Alike vals s s') :
    figures s = figures s' ↔ (∃ v ∈ vals, v ≤ 0) ∧ ∃ v ∈ vals, 0 ≤ v := by
  simp only [figures, Figures.mk.injEq, alike.count, alike.sum, alike.last, alike.time, true_and,
    and_true]
  apply and_congr
  · rcases alike.least with ⟨same, small⟩ | ⟨positive, zero, above⟩
    · exact iff_of_true same small
    · refine iff_of_false (zero ▸ above.ne') ?_
      rintro ⟨v, mem, small⟩
      exact (positive v mem).not_ge small
  · rcases alike.greatest with ⟨same, large⟩ | ⟨negative, zero, below⟩
    · exact iff_of_true same large
    · refine iff_of_false (zero ▸ below.ne) ?_
      rintro ⟨v, mem, large⟩
      exact (negative v mem).not_ge large

section Runs

variable {env : Naming} {parseFloat : String → Option Parsed} {a : GraphiteAccumulate}

theorem PlainLine.alike_first {l : PlainLine env parseFloat a} (back : l.ReadsBack) :
    Alike [l.val] ((a.fresh l.line).accumulate (some l.val))
      (((a.reprKind env).fresh l.stat).accumulate (some l.val)) := by
  have zero : (0 : ℚ) ≠ minFlag := minFlag_neg.ne'
  have least : LeastAlike [l.val] l.val (if (0 : ℚ) = minFlag ∨ l.val < 0 then l.val else 0) := by
    rcases lt_trichotomy l.val 0 with small | none | large
    · exact .inl ⟨by rw [if_pos (.inr small)], l.val, by simp, small.le⟩
    · exact .inl ⟨by simp [none], l.val, by simp, none.le⟩
    · exact .inr ⟨by simpa using large, by simp [zero, large.le], large⟩
  have greatest : GreatestAlike [l.val] l.val
      (if (0 : ℚ) = minFlag ∨ 0 < l.val then l.val else 0) := by
    rcases lt_trichotomy l.val 0 with small | none | large
    · exact .inr ⟨by simpa using small, by simp [zero, small.le], small⟩
    · exact .inl ⟨by simp [none], l.val, by simp, none.ge⟩
    · exact .inl ⟨by rw [if_pos (.inr large)], l.val, by simp, large.le⟩
  constructor
  · rfl
  · rfl
  · rfl
  · exact back.symm
  · have first : ((a.fresh l.line).accumulate (some l.val)).min = l.val := by
      simp [GraphiteBaseStatItem.accumulate, GraphiteAccumulate.fresh]
    rw [first]
    exact least
  · have first : ((a.fresh l.line).accumulate (some l.val)).max = l.val := by
      simp [GraphiteBaseStatItem.accumulate, GraphiteAccumulate.fresh]
    rw [first]
    exact greatest

/-- The item of some lines and the item of their stats are alike. -/
theorem gather_alike {ls : List (PlainLine env parseFloat a)} (nonempty : ls ≠ [])
    (back : ∀ l ∈ ls, l.ReadsBack) :
    ∃ s s', gather (a.kind env parseFloat) (ls.map (·.line)) = some s ∧
      gather (a.reprKind env) (ls.map (·.stat)) = some s' ∧ Alike (ls.map (·.val)) s s' := by
  induction ls using List.reverseRecOn with
  | nil => exact absurd rfl nonempty
  | append_singleton ls l ih =>
    have single : ∀ s, (a.kind env parseFloat).accumulate s l.line = s.accumulate (some l.val) := by
      intro s
      rw [← l.finite]
      rfl
    have single' : ∀ s, (a.reprKind env).accumulate s l.stat = s.accumulate (some l.val) := by
      intro s
      simp [GraphiteAccumulate.reprKind, PlainLine.stat]
    simp only [List.map_append, List.map_cons, List.map_nil, gather_concat, single, single']
    refine ⟨_, _, rfl, rfl, ?_⟩
    rcases ls.eq_nil_or_concat' with rfl | ⟨before, last, same⟩
    · exact PlainLine.alike_first (back l (by simp))
    · obtain ⟨s, s', gathered, gathered', alike⟩ :=
        ih (by simp [same]) fun l' mem => back l' (List.mem_append_left _ mem)
      rw [gathered, gathered']
      exact alike.accumulate l.val

/-- A value at most 0 and one at least 0 among those that go to the same item. -/
def Straddles (a : GraphiteAccumulate) (ls : List (PlainLine env parseFloat a)) : Prop :=
  ∀ l ∈ ls, (∃ l' ∈ ls, l'.itemKey = l.itemKey ∧ l'.val ≤ 0) ∧
    ∃ l' ∈ ls, l'.itemKey = l.itemKey ∧ 0 ≤ l'.val
  deriving Decidable

theorem injected_eq (ls : List (PlainLine env parseFloat a)) :
    a.injected env parseFloat (ls.map (·.raw)) = some (ls.map (·.stat)) := by
  induction ls with
  | nil => rfl
  | cons l ls ih =>
    rw [GraphiteAccumulate.injected] at ih ⊢
    rw [List.map_cons, List.mapM_cons, l.made, ih]
    rfl

/-- With times that are read back, the stats of lines leave the same items as the lines just when
each item was given a value at most 0 and one at least 0. -/
theorem injectsAlike_iff (ls : List (PlainLine env parseFloat a)) (back : ∀ l ∈ ls, l.ReadsBack) :
    InjectsAlike env parseFloat a (ls.map (·.raw)) ↔ Straddles a ls := by
  have parses : ∀ l ∈ ls, (a.kind env parseFloat).parse l.raw = .ok l.line :=
    fun l _ => l.parsed
  have parses' : ∀ l ∈ ls, (a.reprKind env).parse l.stat = .ok l.stat := fun l _ => l.parse_stat
  obtain ⟨st, served, holds⟩ := holds_empty.serve_lines parses
  obtain ⟨st', served', holds'⟩ := holds_empty.serve_lines parses'
  rw [List.nil_append] at holds holds'
  -- the lines of one key, which their stats share
  have items : ∀ key, st.item? key =
      gather (a.kind env parseFloat) ((group PlainLine.itemKey ls key).map (·.line)) := by
    intro key
    rw [holds.items key, group, List.filter_map]
    rfl
  have items' : ∀ key, st'.item? key =
      gather (a.reprKind env) ((group PlainLine.itemKey ls key).map (·.stat)) := by
    intro key
    rw [holds'.items key, group, List.filter_map, group]
    congr 2
    apply List.filter_congr
    intro l mem
    rw [Function.comp_apply, PlainLine.key_stat (back l mem)]
  have same_iff : InjectsAlike env parseFloat a (ls.map (·.raw)) ↔
      ∀ key, (st.item? key).map figures = (st'.item? key).map figures := by
    constructor
    · rintro ⟨st₁, st₂, stats, served₁, made, served₂, same⟩
      obtain rfl := Except.ok.inj (served.symm.trans served₁)
      obtain rfl := Option.some.inj ((injected_eq ls).symm.trans made)
      obtain rfl := Except.ok.inj (served'.symm.trans served₂)
      exact same
    · intro same
      exact ⟨st, st', _, served, injected_eq ls, served', same⟩
  rw [same_iff]
  have among : ∀ (key : String) (P : ℚ → Prop),
      (∃ v ∈ (group PlainLine.itemKey ls key).map (·.val), P v) ↔
        ∃ l' ∈ ls, l'.itemKey = key ∧ P l'.val := by
    intro key P
    simp [mem_group, and_assoc]
  constructor
  · intro same l mem
    have own : l ∈ group PlainLine.itemKey ls l.itemKey := mem_group.mpr ⟨mem, rfl⟩
    obtain ⟨s, s', gathered, gathered', alike⟩ := gather_alike (List.ne_nil_of_mem own)
      fun l' mem' => back l' (mem_group.mp mem').1
    have figured := same l.itemKey
    rw [items, items', gathered, gathered', Option.map_some, Option.map_some, Option.some.injEq,
      alike.figures_iff, among _ (· ≤ 0), among _ (0 ≤ ·)] at figured
    exact figured
  · intro straddles key
    rw [items, items']
    rcases used : group PlainLine.itemKey ls key with _ | ⟨l, rest⟩
    · rfl
    · have own : l ∈ group PlainLine.itemKey ls key := by simp [used]
      obtain ⟨mem, rfl⟩ := mem_group.mp own
      rw [← used]
      obtain ⟨s, s', gathered, gathered', alike⟩ := gather_alike (List.ne_nil_of_mem own)
        fun l' mem' => back l' (mem_group.mp mem').1
      rw [gathered, gathered', Option.map_some, Option.map_some, Option.some.injEq,
        alike.figures_iff, among _ (· ≤ 0), among _ (0 ≤ ·)]
      exact straddles l mem

/-- Two lines of one key and bucket. -/
def twoSigns : List (PlainLine plainNaming wholeNumber ⟨1000000000, .metrics2, .fnv⟩) :=
  [⟨("a 5 100", 0), ⟨"a", [], [], 100000000000, some 5⟩, 5, by decide +kernel, by decide +kernel,
      rfl⟩,
    ⟨("a -3 100", 0), ⟨"a", [], [], 100000000000, some (-3)⟩, -3, by decide +kernel,
      by decide +kernel, rfl⟩]

theorem injectsAlike_iff_twoSigns :
    InjectsAlike plainNaming wholeNumber ⟨1000000000, .metrics2, .fnv⟩
      [("a 5 100", 0), ("a -3 100", 0)] :=
  (injectsAlike_iff twoSigns (by decide +kernel)).mpr (by decide +kernel)

/-- A single value of 5 leaves 0 as the smallest value when it is injected. -/
theorem injected_least_zero :
    ¬ InjectsAlike plainNaming wholeNumber ⟨1000000000, .metrics2, .fnv⟩ [("a 5 100", 0)] := by
  let a : GraphiteAccumulate := ⟨1000000000, .metrics2, .fnv⟩
  let stat : Stat :=
    ⟨⟨"a", 0#64, "", 0#32, 0#32, .metrics2, .fnv, [], []⟩, 100000000000#64, 0, 0, 0,
    5, 1⟩
  have line : ((serve (a.kind plainNaming wholeNumber) .empty
      [.line ("a 5 100", 0)]).toOption.bind (·.item? "a-100000000000")).map figures =
        some ⟨1, 5, 5, 5, 5, 100000000000⟩ := by decide +kernel
  have made : a.injected plainNaming wholeNumber [("a 5 100", 0)] = some [stat] := by
    decide +kernel
  have injected : ((serve (a.reprKind plainNaming) .empty [.line stat]).toOption.bind
      (·.item? "a-100000000000")).map figures = some ⟨1, 5, 0, 5, 5, 100000000000⟩ := by
    decide +kernel
  rintro ⟨st, st', stats, served, made', served', same⟩
  obtain rfl := Option.some.inj (made.symm.trans made')
  have both := same "a-100000000000"
  rw [List.map_singleton] at served served'
  rw [served] at line
  rw [served'] at injected
  have differ := line.symm.trans (both.trans injected)
  exact absurd differ (by decide +kernel)

end Runs

end Accumulator
