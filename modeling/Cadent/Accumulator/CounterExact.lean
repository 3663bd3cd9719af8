import Cadent.Accumulator.StatsdProtocol
import Cadent.Lib.Words

/-!
# What a flush returns for counters

A counter line is a key and a value, with or without its type, and with a sample rate or none.
A flush returns one stat for each key of the lines since the flush before it, whatever the forms
of its lines. The sum is that of the values, each over its rate, and it is shown as 0 when it is
the flag of an empty item.
-/

namespace Accumulator

open Groups Repr StatsdAccumulate Text

/-! ### Lines -/

/-- What comes after the value: nothing, the type, or the type and a sample rate. -/
inductive CounterForm where
  | bare
  | typed
  | sampled (text : String) (rate : ℚ)

/-- A line of a counter, with the text of its value. -/
structure CounterLine where
  key : String
  text : String
  value : ℚ
  form : CounterForm

namespace CounterLine

def rate (l : CounterLine) : ℚ :=
  match l.form with
  | .sampled _ rate => rate
  | _ => 1

/-- The part after the colon, in its pieces. -/
def pieces (l : CounterLine) : List String :=
  match l.form with
  | .bare => [l.text]
  | .typed => [l.text, "c"]
  | .sampled text _ => [l.text, "c", "@" ++ text]

def second (l : CounterLine) : String := String.intercalate "|" l.pieces

def line (l : CounterLine) : String := l.key ++ ":" ++ l.second

/-- What is read of it. -/
def parsed (l : CounterLine) : StatsdLine :=
  ⟨l.key, "c", match l.form with | .sampled _ _ => "" | _ => l.text, some l.value,
    some (1 / l.rate), [], ""⟩

/-- The texts are those of numbers, none of which is the flag, and the rate is positive. -/
structure Reads (parseFloat : String → Option Parsed) (l : CounterLine) : Prop where
  key : ':' ∉ l.key.toList ∧ '|' ∉ l.key.toList
  value : parseFloat l.text = some (.finite l.value)
  clean : ':' ∉ l.text.toList ∧ '|' ∉ l.text.toList
  unflagged : l.value ≠ minFlag
  rate : ∀ text rate, l.form = .sampled text rate → parseFloat text = some (.finite rate) ∧
    0 < rate ∧ ':' ∉ text.toList ∧ '|' ∉ text.toList ∧ '@' ∉ text.toList

variable {parseFloat : String → Option Parsed} {l : CounterLine}

theorem Reads.cleanKey (reads : l.Reads parseFloat) : CleanKey l.key :=
  ⟨reads.key.1, fun inside => reads.key.2 (inside.subset List.mem_cons_self)⟩

/-- No piece has a colon or a bar, and none after the first begins with a hash. -/
theorem Reads.pieces (reads : l.Reads parseFloat) :
    ∃ rest, l.pieces = l.text :: rest ∧
      (∀ part ∈ l.pieces, ':' ∉ part.toList ∧ '|' ∉ part.toList) ∧
      ∀ part ∈ rest, part.toList.head? ≠ some '#' := by
  rw [CounterLine.pieces]
  cases form : l.form with
  | bare => exact ⟨[], rfl, by simp [reads.clean], by simp⟩
  | typed => exact ⟨["c"], rfl, by simp [reads.clean], by simp⟩
  | sampled text rate =>
    obtain ⟨-, -, colon, bar, -⟩ := reads.rate text rate form
    exact ⟨["c", "@" ++ text], rfl, by simp [reads.clean, colon, bar], by simp⟩

theorem Reads.sampled (reads : l.Reads parseFloat) (raw : String) {rest : List String}
    (parts : l.pieces = l.text :: rest) :
    parseSample parseFloat raw l.text (l.text :: rest) =
        .ok (l.parsed.weight, l.parsed.val) ∧ (l.text :: rest).getD 1 "c" = "c" := by
  rw [CounterLine.pieces] at parts
  rw [parsed, CounterLine.rate]
  cases form : l.form with
  | bare | typed =>
    rw [form] at parts
    obtain rfl := (List.cons.inj parts).2
    simp [parseSample]
  | sampled text rate =>
    rw [form] at parts
    obtain rfl := (List.cons.inj parts).2
    obtain ⟨number, positive, -, -, mark⟩ := reads.rate text rate form
    have pieces : split ("@" ++ text) "@" = ["", text] := by
      have joined : "@" ++ text = "" ++ "@" ++ text := rfl
      rw [joined]
      exact split_pair (by decide) (by decide) mark
    simp [parseSample, pieces, number, Parsed.inverse, positive.ne']

/-- All forms of a line are read alike. -/
theorem parse_line {env : Naming} (reads : l.Reads parseFloat) :
    parse env parseFloat l.line = .ok l.parsed := by
  obtain ⟨rest, parts, clean, next⟩ := reads.pieces
  obtain ⟨sampled, type⟩ := reads.sampled l.line parts
  have bar : "|".toList = ['|'] := by decide
  have colon : ':' ∉ l.second.toList := by
    intro mem
    rcases mem_intercalate mem with inside | ⟨part, listed, inside⟩
    · simp at inside
    · exact (clean part listed).1 inside
  have hash : ¬ ['|', '#'] <:+: l.second.toList := by
    rw [CounterLine.second, parts]
    refine not_infix_next bar (by decide) ?_ next
    rw [← parts]
    exact fun part mem => (clean part mem).2
  have cut : split l.second "|" = l.text :: rest := by
    rw [CounterLine.second, ← parts]
    exact split_intercalate bar (by simp [parts]) fun part mem => (clean part mem).2
  have counter : gaugeType ((l.text :: rest).getD 1 "c") l.text = "c" := by
    rw [type]
    rfl
  have valued : parseValue parseFloat l.line
      (gaugeType ((l.text :: rest).getD 1 "c") l.text) l.text = .ok (some l.value) := by
    rw [counter, parseValue, if_neg (by decide), reads.value]
    rfl
  have read : parse env parseFloat l.line = _ :=
    Accumulator.parse_line reads.cleanKey colon hash cut valued sampled
  rw [counter] at read
  exact read

end CounterLine

/-! ### Items -/

section Items

variable {env : Naming} {parseFloat : String → Option Parsed} {hashed : String → BitVec 64}
variable {a : StatsdAccumulate}

/-- The item of the counter of a key that has taken in some lines. -/
structure CounterOf (key : String) (lines : List CounterLine) (s : StatsdBaseStatItem) : Prop where
  name : s.inKey.key = key ∧ s.inKey.tags = []
  type : s.inType = "c"
  count : s.count = lines.length
  sum : s.sum = some (lines.map fun l => l.value / l.rate).sum
  min : (lines.map (·.value)).min? = some s.min
  max : (lines.map (·.value)).max? = some s.max
  last : (lines.map (·.value)).getLast? = some s.last

variable (env parseFloat hashed a) in
theorem counterOf_fresh (l : CounterLine) :
    ∃ s, (a.kind env parseFloat hashed).accumulate (a.fresh l.parsed) l.parsed = .base s ∧
      CounterOf l.key [l] s := by
  have type : l.parsed.cType = "c" := rfl
  refine ⟨_, by simp only [fresh, type]; rfl, ?_⟩
  constructor
  · exact ⟨rfl, rfl⟩
  · exact type
  · rfl
  · simp [StatsdBaseStatItem.accumulate, CounterLine.parsed, addFinite, div_eq_mul_inv]
  · simp [StatsdBaseStatItem.accumulate, CounterLine.parsed]
  · simp [StatsdBaseStatItem.accumulate, CounterLine.parsed]
  · simp [StatsdBaseStatItem.accumulate, CounterLine.parsed]

theorem CounterOf.accumulate {key : String} {lines : List CounterLine} {s : StatsdBaseStatItem}
    (counter : CounterOf key lines s) (unflagged : ∀ l ∈ lines, l.value ≠ minFlag)
    (l : CounterLine) :
    CounterOf key (lines ++ [l]) (s.accumulate l.parsed.value l.parsed.weight) := by
  have values : ∀ v ∈ lines.map (·.value), v ≠ minFlag := by
    intro v mem
    obtain ⟨l, mem', rfl⟩ := List.mem_map.mp mem
    exact unflagged l mem'
  constructor
  · exact counter.name
  · exact counter.type
  · simp [StatsdBaseStatItem.accumulate, CounterLine.parsed, counter.count]
  · simp [StatsdBaseStatItem.accumulate, CounterLine.parsed, counter.type, counter.sum, addFinite,
      div_eq_mul_inv]
  · rw [List.map_append, List.map_singleton, min?_flagged counter.min values]
    rfl
  · rw [List.map_append, List.map_singleton, max?_flagged counter.max values]
    rfl
  · rw [List.map_append, List.map_singleton, List.getLast?_concat]
    rfl

variable (env parseFloat hashed a) in
theorem gather_counter {key : String} {lines : List CounterLine} (nonempty : lines ≠ [])
    (same : ∀ l ∈ lines, l.key = key) (unflagged : ∀ l ∈ lines, l.value ≠ minFlag) :
    ∃ s, gather (a.kind env parseFloat hashed) (lines.map (·.parsed)) = some (.base s) ∧
      CounterOf key lines s := by
  induction lines using List.reverseRecOn with
  | nil => exact absurd rfl nonempty
  | append_singleton lines l ih =>
    have own : l.key = key := same l (List.mem_append_right _ List.mem_cons_self)
    have before : ∀ l ∈ lines, l.value ≠ minFlag :=
      fun l mem => unflagged l (List.mem_append_left _ mem)
    rw [List.map_append, List.map_singleton, gather_concat]
    rcases List.eq_nil_or_concat' lines with rfl | ⟨init, last, rfl⟩
    · obtain ⟨s, made, counter⟩ := counterOf_fresh env parseFloat hashed a l
      exact ⟨s, congrArg some made, own ▸ counter⟩
    · obtain ⟨s, gathered, counter⟩ :=
        ih (by simp) (fun l mem => same l (List.mem_append_left _ mem)) before
      rw [gathered]
      exact ⟨_, rfl, counter.accumulate before l⟩

end Items

/-! ### Flushes -/

section Flush

variable {env : Naming} {parseFloat : String → Option Parsed} {hashed : String → BitVec 64}
variable {a : StatsdAccumulate}

/-- A stat with what some lines of a counter add up to. -/
structure CountsUp (lines : List CounterLine) (key : String) (stat : Stat) : Prop where
  name : stat.name.key = key ∧ stat.name.tags = []
  count : stat.count = lines.length
  sum : stat.sum = checkFloat (some (lines.map fun l => l.value / l.rate).sum)
  min : (lines.map (·.value)).min? = some stat.min
  max : (lines.map (·.value)).max? = some stat.max
  last : (lines.map (·.value)).getLast? = some stat.last

theorem CounterOf.repr {key : String} {lines : List CounterLine} {s : StatsdBaseStatItem}
    (counter : CounterOf key lines s) (unflagged : ∀ l ∈ lines, l.value ≠ minFlag) (now : Int) :
    CountsUp lines key (StatsdItem.repr now (.base s)) := by
  have shown : ∀ v ∈ lines.map (·.value), checkFloat (some v) = v := by
    intro v mem
    obtain ⟨l, mem', rfl⟩ := List.mem_map.mp mem
    exact checkFloat_of_ne (unflagged l mem')
  constructor
  · exact counter.name
  · exact counter.count
  · exact congrArg checkFloat counter.sum
  · rw [counter.min]
    exact congrArg some (shown _ (List.min?_mem counter.min)).symm
  · rw [counter.max]
    exact congrArg some (shown _ (List.max?_mem counter.max)).symm
  · rw [counter.last]
    exact congrArg some (shown _ (List.mem_of_getLast? counter.last)).symm

/-- One stat for each key of the lines, and no other. -/
def CountersExact (lines : List CounterLine) (out : List Stat) : Prop :=
  ∃ keys : List String, keys.Nodup ∧ (∀ key, key ∈ keys ↔ ∃ l ∈ lines, l.key = key) ∧
    List.Forall₂ (fun stat key => CountsUp (group (·.key) lines key) key stat) out keys

/-- The form of a line is not seen in the key of the map. -/
theorem separates_counters (lines : List CounterLine) :
    Separates (fun l => statKey l.parsed) CounterLine.key lines := by
  intro l _ l' _
  constructor
  · intro same
    simp only [statKey, CounterLine.parsed, String.append_assoc] at same
    exact (String.append_left_inj _).mp same
  · intro same
    simp only [statKey, CounterLine.parsed, same]

theorem Holds.counters {lines : List CounterLine} {st : Store StatsdItem}
    (holds : Holds (a.kind env parseFloat hashed) (lines.map (·.parsed)) st)
    (unflagged : ∀ l ∈ lines, l.value ≠ minFlag) {order : List (String × Int)}
    (keys : (order.map Prod.fst).Perm st.stats.keys) :
    CountersExact lines (st.flushList (a.kind env parseFloat hashed) false order).1 := by
  obtain ⟨nodup, used, flushed⟩ := holds.flushList keys
  have used' : ∀ key, key ∈ order.map Prod.fst ↔ ∃ l ∈ lines, statKey l.parsed = key := by
    intro key
    rw [used key]
    simp
  obtain ⟨names, nodup', listed, related⟩ := exists_identities (separates_counters lines) nodup
    fun key mem => (used' key).mp mem
  refine ⟨names, nodup', ?_, ?_⟩
  · intro key
    rw [listed key]
    constructor
    · rintro ⟨l, mem, _, same⟩
      exact ⟨l, mem, same⟩
    · rintro ⟨l, mem, same⟩
      exact ⟨l, mem, (used' _).mpr ⟨l, mem, rfl⟩, same⟩
  · refine forall₂_trans ?_ flushed (List.forall₂_map_left_iff.mp related)
    rintro stat ⟨statKey', now⟩ key ⟨item, gathered, rfl⟩ ⟨same, l, mem, -, rfl⟩
    have moved : group (a.kind env parseFloat hashed).key (lines.map (·.parsed)) statKey' =
        (group (fun l => statKey l.parsed) lines statKey').map (·.parsed) := by
      rw [group, List.filter_map]
      rfl
    rw [moved, same] at gathered
    have unflagged' : ∀ m ∈ group (·.key) lines l.key, m.value ≠ minFlag :=
      fun m mem' => unflagged m (mem_group.mp mem').1
    obtain ⟨s, gathered', counter⟩ := gather_counter env parseFloat hashed a
      (List.ne_nil_of_mem (mem_group.mpr ⟨mem, rfl⟩))
        (fun m mem' => (mem_group.mp mem').2) unflagged'
    obtain rfl := Option.some.inj (gathered.symm.trans gathered')
    exact counter.repr unflagged' now

/-- After any counter lines and flushes, a flush returns what the lines since the last one add up
to, whatever the order of iteration. -/
theorem counters_exact (env : Naming) (hashed : String → BitVec 64) (a : StatsdAccumulate)
    {events : List (Event CounterLine)} (reads : ∀ l, .line l ∈ events → l.Reads parseFloat) :
    ∃ st,
      serve (a.kind env parseFloat hashed) .empty (events.map (.map CounterLine.line)) = .ok st ∧
      ∀ order : List (String × Int), (order.map Prod.fst).Perm st.stats.keys →
        CountersExact (givenSince [] events)
          (st.flushList (a.kind env parseFloat hashed) false order).1 := by
  have parses : ∀ l : CounterLine, .line l ∈ events →
      (a.kind env parseFloat hashed).parse l.line = .ok l.parsed := by
    intro l mem
    rw [kind_parse]
    exact CounterLine.parse_line (reads l mem)
  have accepted : ∀ raw, Event.line raw ∈ events.map (Event.map CounterLine.line) →
      ((a.kind env parseFloat hashed).parse raw).toOption.isSome := by
    intro raw mem
    obtain ⟨event, listed, same⟩ := List.mem_map.mp mem
    cases event with
    | flushList => cases same
    | line l =>
      obtain rfl := Event.line.inj same
      rw [parses l listed]
      rfl
  obtain ⟨st, served, holds⟩ := serve_holds holds_empty accepted
  have since := sinceFlush_map parses []
  rw [List.map_nil] at since
  rw [since] at holds
  refine ⟨st, served, fun order keys => holds.counters ?_ keys⟩
  intro l mem
  rcases mem_givenSince mem with none | listed
  · cases none
  · exact (reads l listed).unflagged

/-- One key in all three forms, a key that was flushed before, and another one. -/
def counterEvents : List (Event CounterLine) :=
  [.line ⟨"a", "5", 5, .bare⟩, .flushList, .line ⟨"b", "3", 3, .bare⟩,
    .line ⟨"b", "4", 4, .sampled "2" 2⟩, .line ⟨"c", "-1", -1, .typed⟩, .line ⟨"b", "7", 7, .typed⟩]

theorem reads_counterEvents : ∀ l, .line l ∈ counterEvents → l.Reads wholeNumber := by
  intro l mem
  simp only [counterEvents, List.mem_cons, Event.line.injEq, reduceCtorEq, List.not_mem_nil,
    or_false, false_or] at mem
  rcases mem with rfl | rfl | rfl | rfl | rfl
  · exact ⟨by decide, by decide +kernel, by decide, by decide +kernel, by rintro _ _ ⟨⟩⟩
  · exact ⟨by decide, by decide +kernel, by decide, by decide +kernel, by rintro _ _ ⟨⟩⟩
  · refine ⟨by decide, by decide +kernel, by decide, by decide +kernel, ?_⟩
    rintro _ _ ⟨⟩
    exact ⟨by decide +kernel, by decide +kernel, by decide, by decide, by decide⟩
  · exact ⟨by decide, by decide +kernel, by decide, by decide +kernel, by rintro _ _ ⟨⟩⟩
  · exact ⟨by decide, by decide +kernel, by decide, by decide +kernel, by rintro _ _ ⟨⟩⟩

theorem counters_exact_forms :
    (∀ l, .line l ∈ counterEvents → l.Reads wholeNumber) ∧
    let K := kind plainNaming wholeNumber (fun _ => 0#64) ⟨.metrics2, .fnv⟩
    (givenSince [] counterEvents).length = 4 ∧
    ∃ st, serve K .empty (counterEvents.map (.map CounterLine.line)) = .ok st ∧
      CountersExact (givenSince [] counterEvents)
        (st.flushList K false (st.stats.keys.reverse.map fun key => (key, 9))).1 := by
  obtain ⟨st, served, exact_⟩ :=
    counters_exact plainNaming (fun _ => 0#64) ⟨.metrics2, .fnv⟩ reads_counterEvents
  refine ⟨reads_counterEvents, by decide +kernel, st, served, exact_ _ ?_⟩
  rw [List.map_map]
  simp [Function.comp_def]

/-- Two values whose sum is the flag are flushed with the sum 0. -/
theorem counters_inexact :
    let K := kind plainNaming wholeNumber (fun _ => 0#64) ⟨.metrics2, .fnv⟩
    let flushed (lines : List CounterLine) : Option (List (Int × ℚ)) :=
      (serve K .empty (lines.map fun l => .line l.line)).toOption.map fun st =>
        (st.flushList K false (st.stats.keys.map fun key => (key, 0))).1.map fun stat =>
          (stat.count, stat.sum)
    let half : CounterLine := ⟨"a", "-4611686018427387904", -4611686018427387904, .typed⟩
    half.Reads wholeNumber ∧ flushed [half, half] = some [(2, 0)] ∧
      ([half, half].map fun l => l.value / l.rate).sum = -9223372036854775808 := by
  refine ⟨⟨by decide, by decide +kernel, by decide, by decide +kernel, nofun⟩, ?_, ?_⟩
  · decide +kernel
  · decide +kernel

end Flush

end Accumulator
