import Cadent.Accumulator.Graphite
import Cadent.Accumulator.Sequential

/-!
# What a graphite flush returns

Without tags, a flush returns one stat for each key and time bucket of the lines since the
flush before it, and the stat has what the values of those lines add up to. The map is keyed
by texts, which tell keys and buckets apart as long as the nanoseconds of a bucket are an
`int64` and no key ends in a dash while a bucket is before 1970. A sum that is the flag of an
empty item is shown as 0.
-/

namespace Accumulator

open Groups Keys Repr Text

section Items

variable {env : Naming} {parseFloat : String → Option Parsed} {a : GraphiteAccumulate}

/-- The values that were read. -/
def values (lines : List GraphiteLine) : List ℚ := lines.filterMap (·.value)

theorem values_concat {line : GraphiteLine} {v : ℚ} (value : line.value = some v)
    (lines : List GraphiteLine) : values (lines ++ [line]) = values lines ++ [v] := by
  simp [values, value]

/-- An item that has taken in some lines, of which the first is known. -/
structure ItemOf (a : GraphiteAccumulate) (lines : List GraphiteLine)
    (item : GraphiteBaseStatItem) : Prop where
  first : ∃ line, lines.head? = some line ∧ item.inKey.key = line.key ∧
    item.time = truncate line.time a.resolution
  count : item.count = lines.length
  sum : item.sum = (values lines).sum
  min : (values lines).min? = some item.min
  max : (values lines).max? = some item.max
  last : (values lines).getLast? = some item.last

theorem itemOf_fresh {line : GraphiteLine} {v : ℚ} (value : line.value = some v) :
    ItemOf a [line] ((a.fresh line).accumulate line.value) := by
  rw [value]
  constructor
  · exact ⟨line, rfl, rfl, rfl⟩
  · rfl
  · simp [values, value, GraphiteBaseStatItem.accumulate, GraphiteAccumulate.fresh]
  · simp [values, value, GraphiteBaseStatItem.accumulate, GraphiteAccumulate.fresh]
  · simp [values, value, GraphiteBaseStatItem.accumulate, GraphiteAccumulate.fresh]
  · simp [values, value, GraphiteBaseStatItem.accumulate]

theorem ItemOf.accumulate {lines : List GraphiteLine} {item : GraphiteBaseStatItem}
    (itemOf : ItemOf a lines item) (unflagged : ∀ v ∈ values lines, v ≠ minFlag)
    {line : GraphiteLine} {v : ℚ} (value : line.value = some v) :
    ItemOf a (lines ++ [line]) (item.accumulate line.value) := by
  rw [value]
  constructor
  · obtain ⟨first, head, key, time⟩ := itemOf.first
    refine ⟨first, ?_, key, time⟩
    rw [List.head?_append, head]
    rfl
  · simp [GraphiteBaseStatItem.accumulate, itemOf.count]
  · simp [GraphiteBaseStatItem.accumulate, itemOf.sum, values_concat value]
  · rw [values_concat value, min?_flagged itemOf.min unflagged]
    rfl
  · rw [values_concat value, max?_flagged itemOf.max unflagged]
    rfl
  · rw [values_concat value, List.getLast?_concat]
    rfl

/-- Lines that have values, none of which is the flag. -/
def Valued (lines : List GraphiteLine) : Prop :=
  ∀ line ∈ lines, ∃ v, line.value = some v ∧ v ≠ minFlag

theorem Valued.unflagged {lines : List GraphiteLine} (valued : Valued lines) :
    ∀ v ∈ values lines, v ≠ minFlag := by
  intro v mem
  obtain ⟨line, mem', value⟩ := List.mem_filterMap.mp mem
  obtain ⟨w, value', unflagged⟩ := valued line mem'
  rw [value, Option.some.injEq] at value'
  exact value' ▸ unflagged

theorem gather_itemOf {lines : List GraphiteLine} (valued : Valued lines)
    {item : GraphiteBaseStatItem} (gathered : gather (a.kind env parseFloat) lines = some item) :
    ItemOf a lines item := by
  induction lines using List.reverseRecOn generalizing item with
  | nil => cases gathered
  | append_singleton lines line ih =>
    have before : Valued lines := fun l mem => valued l (List.mem_append_left _ mem)
    obtain ⟨v, value, _⟩ := valued line (List.mem_append_right _ List.mem_cons_self)
    rw [gather_concat, Option.some.injEq] at gathered
    subst gathered
    rcases old : gather (a.kind env parseFloat) lines with _ | item
    · have none : lines = [] := by
        rcases lines with _ | ⟨first, lines⟩
        · rfl
        · cases old
      subst none
      exact itemOf_fresh value
    · exact (ih before old).accumulate before.unflagged value

end Items

section Flush

variable {env : Naming} {parseFloat : String → Option Parsed} {a : GraphiteAccumulate}

/-- The key and the time bucket of a line. -/
def GraphiteAccumulate.pairOf (a : GraphiteAccumulate) (line : GraphiteLine) : String × Int :=
  (line.key, truncate line.time a.resolution)

/-- A stat with what the values of some lines add up to. -/
structure SumsUp (lines : List GraphiteLine) (pair : String × Int) (stat : Stat) : Prop where
  name : stat.name.key = pair.1
  time : stat.time.toInt = pair.2
  count : stat.count = lines.length
  sum : stat.sum = checkFloat (some (values lines).sum)
  min : (values lines).min? = some stat.min
  max : (values lines).max? = some stat.max
  last : (values lines).getLast? = some stat.last

theorem sumsUp_repr {lines : List GraphiteLine} {pair : String × Int}
    {item : GraphiteBaseStatItem} (itemOf : ItemOf a lines item) (valued : Valued lines)
    (pairs : ∀ line ∈ lines, a.pairOf line = pair) (fits : (unixNano pair.2).toInt = pair.2)
    (now : Int) : SumsUp lines pair (item.repr now) := by
  have shown : ∀ v ∈ values lines, checkFloat (some v) = v :=
    fun v mem => checkFloat_of_ne (valued.unflagged v mem)
  obtain ⟨first, head, key, time⟩ := itemOf.first
  have same := pairs first (List.mem_of_mem_head? head)
  subst same
  constructor
  · exact key
  · rw [GraphiteBaseStatItem.repr, time]
    exact fits
  · exact itemOf.count
  · rw [GraphiteBaseStatItem.repr, itemOf.sum]
  · rw [itemOf.min]
    exact congrArg some (shown _ (List.min?_mem itemOf.min)).symm
  · rw [itemOf.max]
    exact congrArg some (shown _ (List.max?_mem itemOf.max)).symm
  · rw [itemOf.last]
    exact congrArg some (shown _ (List.mem_of_getLast? itemOf.last)).symm

/-- One stat for each key and bucket of the lines, and no other. -/
def Exact (a : GraphiteAccumulate) (lines : List GraphiteLine) (out : List Stat) : Prop :=
  ∃ pairs : List (String × Int), pairs.Nodup ∧
    (∀ p, p ∈ pairs ↔ ∃ line ∈ lines, a.pairOf line = p) ∧
    List.Forall₂ (fun stat p => SumsUp (group a.pairOf lines p) p stat) out pairs

/-- Lines without tags whose keys and buckets the composed keys tell apart. -/
structure Keyed (a : GraphiteAccumulate) (lines : List GraphiteLine) : Prop where
  fits : ∀ line ∈ lines, (unixNano (truncate line.time a.resolution)).toInt =
    truncate line.time a.resolution
  clean : (∀ line ∈ lines, ¬ EndsInDash line.key) ∨
    ∀ line ∈ lines, 0 ≤ truncate line.time a.resolution

theorem Keyed.separates {lines : List GraphiteLine} (keyed : Keyed a lines)
    (untagged : ∀ line ∈ lines, line.tags = []) : Separates a.statKey a.pairOf lines := by
  have keyOf : ∀ line ∈ lines, a.statKey line =
      dashed (a.pairOf line).1 (a.pairOf line).2 := by
    intro line mem
    rw [GraphiteAccumulate.statKey, untagged line mem, GraphiteAccumulate.mapKey,
      keyed.fits line mem]
    exact congrArg (dashed · _) (String.append_empty)
  intro x mem y mem'
  rw [keyOf x mem, keyOf y mem']
  constructor
  · intro same
    have clean : ∀ u ∈ lines, ∀ w ∈ lines, (a.pairOf w).2 < 0 → ¬ EndsInDash (a.pairOf u).1 := by
      intro u inU w inW before
      rcases keyed.clean with keys | buckets
      · exact keys u inU
      · exact absurd before (Int.not_lt.mpr (buckets w inW))
    obtain ⟨key, bucket⟩ := dashed_inj (clean x mem y mem') (clean y mem' x mem) same
    exact Prod.ext key bucket
  · intro same
    rw [same]

theorem Holds.exact {lines : List GraphiteLine} {st : Store GraphiteBaseStatItem}
    (holds : Holds (a.kind env parseFloat) lines st) (valued : Valued lines)
    (untagged : ∀ line ∈ lines, line.tags = []) (keyed : Keyed a lines)
    {order : List (String × Int)} (keys : (order.map Prod.fst).Perm st.stats.keys) :
    Exact a lines (st.flushList (a.kind env parseFloat) false order).1 := by
  obtain ⟨nodup, used, flushed⟩ := holds.flushList keys
  have separates := keyed.separates untagged
  obtain ⟨pairs, nodup', listed, related⟩ :=
    exists_identities separates nodup fun key mem => (used key).mp mem
  refine ⟨pairs, nodup', ?_, ?_⟩
  · intro p
    rw [listed p]
    constructor
    · rintro ⟨line, mem, _, same⟩
      exact ⟨line, mem, same⟩
    · rintro ⟨line, mem, same⟩
      exact ⟨line, mem, (used _).mpr ⟨line, mem, rfl⟩, same⟩
  · refine forall₂_trans ?_ flushed (List.forall₂_map_left_iff.mp related)
    rintro stat ⟨key, now⟩ p ⟨item, gathered, rfl⟩ ⟨same, line, mem, _, rfl⟩
    have lines' : (a.kind env parseFloat).key = a.statKey := rfl
    rw [lines', same] at gathered
    have valued' : Valued (group a.pairOf lines (a.pairOf line)) :=
      fun l mem' => valued l (mem_group.mp mem').1
    exact sumsUp_repr (gather_itemOf valued' gathered) valued' (fun l mem' => (mem_group.mp mem').2)
      (keyed.fits line mem) now

/-! ### From the texts of lines -/

/-- A text of a key, a finite value and a time. -/
structure Reads (parseFloat : String → Option Parsed) (text key : String) (value : ℚ)
    (seconds : Int) : Prop where
  fields : ∃ val intime, fields text = [key, val, intime] ∧
    parseFloat val = some (.finite value) ∧ parseInt intime = some seconds
  unflagged : value ≠ minFlag
  since1970 : 0 ≤ seconds

theorem parse_of_reads {text key : String} {value : ℚ} {seconds : Int}
    (reads : Reads parseFloat text key value seconds) (now : Int) :
    a.parse env parseFloat (text, now) =
      .ok ⟨key, [], [], seconds * 1000000000, some value⟩ := by
  obtain ⟨val, intime, three, float, int⟩ := reads.fields
  have sorted : env.sortTags [] = [] := List.perm_nil.mp (env.sortTags_perm [])
  rw [GraphiteAccumulate.parse]
  dsimp only
  rw [three]
  dsimp only
  rw [float, int]
  dsimp only
  cases a.tagMode
  · simp [sorted, sortingTagsFromArray, splitIntoMetric2Tags, Parsed.value?]
  · simp [sorted, sortingTagsFromArray, Parsed.value?]

/-- After any lines and flushes, a flush returns what the lines since the last one add up to,
whatever the order of iteration. -/
theorem flushList_exact (env : Naming) (a : GraphiteAccumulate)
    {events : List (Event (String × Int))}
    (wellFormed : ∀ text now, .line (text, now) ∈ events →
      ∃ key value seconds, Reads parseFloat text key value seconds)
    (keyed : Keyed a (sinceFlush (a.kind env parseFloat) [] events)) :
    ∃ st, serve (a.kind env parseFloat) .empty events = .ok st ∧
      ∀ order : List (String × Int), (order.map Prod.fst).Perm st.stats.keys →
        Exact a (sinceFlush (a.kind env parseFloat) [] events)
          (st.flushList (a.kind env parseFloat) false order).1 := by
  have parsed : ∀ raw line, .line raw ∈ events → (a.kind env parseFloat).parse raw = .ok line →
      line.tags = [] ∧ ∃ v, line.value = some v ∧ v ≠ minFlag := by
    rintro ⟨text, now⟩ line mem parsed
    obtain ⟨key, value, seconds, reads⟩ := wellFormed text now mem
    obtain rfl := Except.ok.inj ((parse_of_reads reads now).symm.trans parsed)
    exact ⟨rfl, value, rfl, reads.unflagged⟩
  have accepted : ∀ raw, .line raw ∈ events →
      ((a.kind env parseFloat).parse raw).toOption.isSome := by
    rintro ⟨text, now⟩ mem
    obtain ⟨key, value, seconds, reads⟩ := wellFormed text now mem
    have ok : (a.kind env parseFloat).parse (text, now) = _ := parse_of_reads reads now
    rw [ok]
    rfl
  obtain ⟨st, served, holds⟩ := serve_holds holds_empty accepted
  refine ⟨st, served, fun order keys => holds.exact ?_ ?_ keyed keys⟩
  · intro line mem
    rcases mem_sinceFlush mem with none | ⟨raw, mem', here⟩
    · cases none
    · exact (parsed raw line mem' here).2
  · intro line mem
    rcases mem_sinceFlush mem with none | ⟨raw, mem', here⟩
    · cases none
    · exact (parsed raw line mem' here).1

end Flush

/-! ### Some lines -/

/-- What a flush returns after some lines, which came at 7 seconds. -/
def flushedAfter (resolution : Int) (texts : List String) : Option (List Stat) :=
  let K := GraphiteAccumulate.kind plainNaming wholeNumber ⟨resolution, .metrics2, .fnv⟩
  (serve K .empty (texts.map fun text => .line (text, 7000000000))).toOption.map fun st =>
    (st.flushList K false (st.stats.keys.map fun key => (key, 0))).1

def threeEvents : List (Event (String × Int)) :=
  [.line ("a 5 10", 0), .flushList, .line ("a.b 7 12", 0), .line ("a.b 3 11", 0)]

theorem flushList_exact_three :
    (∀ text now, .line (text, now) ∈ threeEvents →
      ∃ key value seconds, Reads wholeNumber text key value seconds) ∧
    let a : GraphiteAccumulate := ⟨10000000000, .metrics2, .fnv⟩
    let K := a.kind plainNaming wholeNumber
    (sinceFlush K [] threeEvents).length = 2 ∧
    ∃ st, serve K .empty threeEvents = .ok st ∧
      Exact a (sinceFlush K [] threeEvents)
        (st.flushList K false (st.stats.keys.reverse.map fun key => (key, 9))).1 := by
  have wellFormed : ∀ text now, .line (text, now) ∈ threeEvents →
      ∃ key value seconds, Reads wholeNumber text key value seconds := by
    intro text now mem
    simp only [threeEvents, List.mem_cons, Event.line.injEq, Prod.mk.injEq, reduceCtorEq,
      List.not_mem_nil, or_false, false_or] at mem
    rcases mem with ⟨rfl, _⟩ | ⟨rfl, _⟩ | ⟨rfl, _⟩
    · exact ⟨"a", 5, 10, ⟨"5", "10", by decide, by decide +kernel, by decide⟩, by decide +kernel,
        by decide⟩
    · exact ⟨"a.b", 7, 12, ⟨"7", "12", by decide, by decide +kernel, by decide⟩,
        by decide +kernel, by decide⟩
    · exact ⟨"a.b", 3, 11, ⟨"3", "11", by decide, by decide +kernel, by decide⟩,
        by decide +kernel, by decide⟩
  obtain ⟨st, served, exact_⟩ := flushList_exact plainNaming ⟨10000000000, .metrics2, .fnv⟩
    wellFormed ⟨by decide +kernel, .inl (by decide +kernel)⟩
  refine ⟨wellFormed, by decide +kernel, st, served, exact_ _ ?_⟩
  rw [List.map_map]
  simp [Function.comp_def]

/-- Two values whose sum is the flag; two keys that are composed alike with their buckets; two
times that are 2 ^ 64 nanoseconds apart; a time that is no `int64`. -/
theorem flushList_inexact :
    (flushedAfter 1000000000 ["a -4611686018427387904 10", "a -4611686018427387904 10"]).map
      (·.map fun stat => (stat.count, stat.sum)) = some [(2, 0)] ∧
    (flushedAfter 512000000000 ["a- 1 300", "a 2 5"]).map
      (·.map fun stat => (stat.name.key, stat.count)) = some [("a-", 2)] ∧
    (flushedAfter 1000000000 ["a 1 0", "a 2 36028797018963968"]).map
      (·.map fun stat => (stat.time.toInt, stat.count)) = some [(0, 2)] ∧
    (flushedAfter 1000000000 ["a 1 9223372036854775808"]).map
      (·.map fun stat => stat.time.toInt) = some [7000000000] := by
  decide +kernel

end Accumulator
