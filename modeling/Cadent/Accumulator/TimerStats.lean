import Cadent.Accumulator.StatsdWrite
import Mathlib.Algebra.Order.Field.Rat
import Mathlib.Tactic.Linarith

/-!
# The statistics of a timer

A timer that has taken in some values writes their median and, for each threshold, the number,
the mean, the sum and the boundary of a share of them. The shares are found in the values in
order and in their running sums, which begin with the tracked minimum.
-/

namespace Repr

open OrderStats

/-- `ACCUMULATE_FUNC[MEDIAN]`. -/
def accumulateMedian (vals : List ℚ) : Option ℚ :=
  let lVal := vals.length
  if lVal = 0 then some 0
  else
    let vals := sorted vals
    let useV := lVal / 2
    if lVal % 2 = 0 ∧ 3 < lVal then do
      let below ← vals[useV - 1]?
      let above ← vals[useV + 1]?
      return (below + above) / 2
    else vals[useV]?

end Repr

namespace Accumulator

open OrderStats Repr

/-! ### Values that are taken in -/

/-- A name without tags. -/
def plainName (key : String) : StatName := ⟨key, 0#64, "", 0#32, 0#32, .metrics2, .fnv, [], []⟩

/-- A timer without values. -/
def freshTimer (inKey : StatName) : StatsdTimerStatItem :=
  ⟨inKey, "ms", 0, minFlag, minFlag, 0, minFlag, some 0, []⟩

/-- A timer that has taken in values, each with its weight. -/
def fed (inKey : StatName) (readings : List (ℚ × Option ℚ)) : StatsdTimerStatItem :=
  readings.foldl (fun s r => s.accumulate (some r.1) r.2) (freshTimer inKey)

section Fed

variable {inKey : StatName} {readings : List (ℚ × Option ℚ)}

theorem fed_concat (readings : List (ℚ × Option ℚ)) (r : ℚ × Option ℚ) :
    fed inKey (readings ++ [r]) = (fed inKey readings).accumulate (some r.1) r.2 := by
  simp [fed]

theorem fed_inKey : (fed inKey readings).inKey = inKey := by
  induction readings using List.reverseRecOn with
  | nil => rfl
  | append_singleton readings r ih =>
    rw [fed_concat]
    exact ih

theorem fed_values : (fed inKey readings).values = readings.map Prod.fst := by
  induction readings using List.reverseRecOn with
  | nil => rfl
  | append_singleton readings r ih => simp [fed_concat, StatsdTimerStatItem.accumulate, ih]

theorem fed_count : (fed inKey readings).count = readings.length := by
  induction readings using List.reverseRecOn with
  | nil => rfl
  | append_singleton readings r ih => simp [fed_concat, StatsdTimerStatItem.accumulate, ih]

theorem fed_singleton (r : ℚ × Option ℚ) :
    (fed inKey [r]).min = r.1 ∧ (fed inKey [r]).max = r.1 := by
  simp [fed, freshTimer, StatsdTimerStatItem.accumulate]

variable (inKey) in
/-- The tracked minimum is the least value, unless one is the flag. -/
theorem fed_min (unflagged : ∀ r ∈ readings, r.1 ≠ minFlag) (some : readings ≠ []) :
    (fed inKey readings).min ∈ readings.map Prod.fst ∧
      ∀ v ∈ readings.map Prod.fst, (fed inKey readings).min ≤ v := by
  induction readings using List.reverseRecOn with
  | nil => exact absurd rfl some
  | append_singleton readings r ih =>
    have own : ∀ s : StatsdTimerStatItem, (s.accumulate (.some r.1) r.2).min =
        if s.min = minFlag ∨ r.1 < s.min then r.1 else s.min := fun _ => rfl
    rw [fed_concat, own]
    by_cases none : readings = []
    · subst none
      simp [fed, freshTimer]
    · obtain ⟨mem, le⟩ := ih (fun r' mem' => unflagged r' (List.mem_append_left _ mem')) none
      have ne : (fed inKey readings).min ≠ minFlag := by
        obtain ⟨r', mem', eq⟩ := List.mem_map.mp mem
        rw [← eq]
        exact unflagged r' (List.mem_append_left _ mem')
      by_cases less : r.1 < (fed inKey readings).min
      · rw [if_pos (.inr less)]
        refine ⟨by simp, ?_⟩
        intro v inside
        rw [List.map_append, List.mem_append] at inside
        rcases inside with old | new
        · exact less.le.trans (le v old)
        · simp only [List.map_cons, List.map_nil, List.mem_singleton] at new
          exact new.ge
      · rw [if_neg (not_or.mpr ⟨ne, less⟩)]
        refine ⟨by simpa using .inl (by simpa using mem), ?_⟩
        intro v inside
        rw [List.map_append, List.mem_append] at inside
        rcases inside with old | new
        · exact le v old
        · simp only [List.map_cons, List.map_nil, List.mem_singleton] at new
          exact new ▸ not_lt.mp less

end Fed

/-! ### Names and outputs -/

section Output

variable {s : StatsdTimerStatItem} {opts : StatsdOptions}

/-- The name of a line of a timer: its key is in the path of the options and before the part, and
its tags and modes are those of the timer. -/
def lineName (opts : StatsdOptions) (inKey : StatName) (part : String) : StatName where
  key := dotted opts.root ++ dotted opts.timerPrefix ++ dotted opts.suffix ++ inKey.key ++ part
  xxxUniqueId := 0#64
  xxxUniqueIdstr := ""
  resolution := 0#32
  ttl := 0#32
  tagMode := inKey.tagMode
  hashMode := inKey.hashMode
  tags := inKey.tags
  metaTags := inKey.metaTags

theorem line_eq (part : String) (value : Number) (stype : String) :
    s.line opts part value stype = ⟨lineName opts s.inKey part, value, stype⟩ := rfl

theorem lineName_inj {inKey : StatName} {part part' : String} :
    lineName opts inKey part = lineName opts inKey part' ↔ part = part' := by
  simp [lineName]

theorem valuesOf_after (lines : List Written) (out : Output) (name : StatName) :
    (out.after lines).valuesOf name = (Output.just lines).valuesOf name ++ out.valuesOf name := by
  simp [Output.valuesOf, Output.after, Output.just]

theorem after_after (lines later : List Written) (out : Output) :
    (out.after later).after lines = out.after (lines ++ later) := by
  simp [Output.after]

theorem valuesOf_eq_nil {out : Output} {name : StatName}
    (other : ∀ line ∈ out.lines, line.name ≠ name) : out.valuesOf name = [] := by
  simpa [Output.valuesOf] using other

/-- Whatever is written for thresholds is one of the four lines of one of them. -/
theorem writeThresholds_lines {values cumulativeValues : List ℚ} {thresholds : List ℚ}
    {th : Threshold} {line : Written}
    (mem : line ∈ (s.writeThresholds opts values cumulativeValues th thresholds).lines) :
    ∃ pct th, line ∈ s.thresholdLines opts pct th := by
  induction thresholds generalizing th with
  | nil => cases mem
  | cons pct rest ih =>
    rw [StatsdTimerStatItem.writeThresholds] at mem
    split at mem
    · cases mem
    · rename_i th' _
      rcases List.mem_append.mp mem with own | later
      · split_ifs at own
        · cases own
        · exact ⟨pct, th', own⟩
      · exact ih later

theorem thresholdLines_name {pct : ℚ} {th : Threshold} {line : Written}
    (mem : line ∈ s.thresholdLines opts pct th) : line.name ≠ lineName opts s.inKey ".median" := by
  have differ : ∀ {part : String} {value : Number} {stype : String}, part ≠ ".median" →
      (s.line opts part value stype).name ≠ lineName opts s.inKey ".median" := by
    intro part value stype ne same
    exact ne (lineName_inj.mp same)
  simp only [StatsdTimerStatItem.thresholdLines, List.mem_cons, List.not_mem_nil, or_false] at mem
  rcases mem with rfl | rfl | rfl | rfl
  · exact differ fun same => by simpa using congrArg String.toList same
  · exact differ fun same => by simpa using congrArg String.toList same
  · exact differ fun same => by simpa using congrArg String.toList same
  · refine differ fun same => ?_
    have lists := congrArg String.toList same
    split_ifs at lists <;> simp at lists

end Output

/-! ### Medians -/

section Median

theorem index_natCast (l : List ℚ) (i : Nat) : index l i = l[i]? := by
  simp [index]

theorem index_of_lt {l : List ℚ} {i : Nat} (lt : i < l.length) : index l i = some (l.getD i 0) := by
  rw [index_natCast, List.getElem?_eq_getElem lt, List.getD_eq_getElem l 0 lt]

theorem timerMedian_eq {l : List ℚ} (nonempty : l ≠ []) :
    timerMedian l.length l = some (if l.length / 2 % 2 = 0 then l.getD (l.length / 2) 0
      else (l.getD (l.length / 2 - 1) 0 + l.getD (l.length / 2) 0) / 2) := by
  have pos := List.length_pos_iff.mpr nonempty
  have half : (l.length : Int) / 2 = (l.length / 2 : Nat) := by omega
  rw [timerMedian, half]
  by_cases even : l.length / 2 % 2 = 0
  · have even' : ((l.length / 2 : Nat) : Int) % 2 = 0 := by omega
    rw [if_pos even', if_pos even, index_of_lt (by omega)]
  · have odd' : ¬ ((l.length / 2 : Nat) : Int) % 2 = 0 := by omega
    have more : 1 < (l.length : Int) := by omega
    have below : ((l.length / 2 : Nat) : Int) - 1 = (l.length / 2 - 1 : Nat) := by omega
    rw [if_neg odd', if_pos more, if_neg even, below, index_of_lt (by omega),
      index_of_lt (by omega)]
    rfl

theorem timerMedian_eq_median_iff {vals : List ℚ} (nonempty : vals ≠ []) :
    timerMedian vals.length (sorted vals) = some (median vals) ↔
      (vals.length % 4 = 0 ∨ vals.length % 4 = 3 →
        (sorted vals).getD (vals.length / 2 - 1) 0 = (sorted vals).getD (vals.length / 2) 0) := by
  have nonempty' : sorted vals ≠ [] := by
    rw [← List.length_pos_iff, length_sorted]
    exact List.length_pos_iff.mpr nonempty
  have picked := timerMedian_eq nonempty'
  rw [length_sorted] at picked
  rw [picked, Option.some.injEq, median]
  generalize (sorted vals).getD (vals.length / 2 - 1) 0 = a
  generalize (sorted vals).getD (vals.length / 2) 0 = b
  -- the test is on the half of the length and not on the length
  have cases : vals.length % 4 = 0 ∨ vals.length % 4 = 1 ∨ vals.length % 4 = 2 ∨
      vals.length % 4 = 3 := by omega
  rcases cases with zero | one | two | three
  · rw [if_pos (by omega), if_neg (by omega)]
    constructor
    · intro same _
      linarith
    · intro tied
      linarith [tied (.inl zero)]
  · rw [if_pos (by omega), if_pos (by omega)]
    simp [one]
  · rw [if_neg (by omega), if_neg (by omega)]
    simp [two]
  · rw [if_neg (by omega), if_pos (by omega)]
    constructor
    · intro same _
      linarith
    · intro tied
      linarith [tied (.inr three)]

theorem accumulateMedian_eq_median_iff {vals : List ℚ} (nonempty : vals ≠ []) :
    accumulateMedian vals = some (median vals) ↔
      (vals.length = 2 →
        (sorted vals).getD (vals.length / 2 - 1) 0 = (sorted vals).getD (vals.length / 2) 0) ∧
      (vals.length % 2 = 0 ∧ 3 < vals.length →
        (sorted vals).getD (vals.length / 2) 0 = (sorted vals).getD (vals.length / 2 + 1) 0) := by
  have pos := List.length_pos_iff.mpr nonempty
  have found : ∀ {i : Nat}, i < vals.length →
      (sorted vals)[i]? = some ((sorted vals).getD i 0) := by
    intro i lt
    have lt' : i < (sorted vals).length := by rwa [length_sorted]
    rw [← index_natCast, index_of_lt lt']
  rw [accumulateMedian, median]
  simp only [if_neg (Nat.ne_of_gt pos)]
  by_cases even : vals.length % 2 = 0
  · by_cases many : 3 < vals.length
    · rw [if_pos ⟨even, many⟩, if_neg (by omega), found (by omega), found (by omega)]
      generalize (sorted vals).getD (vals.length / 2 - 1) 0 = a
      generalize (sorted vals).getD (vals.length / 2) 0 = b
      generalize (sorted vals).getD (vals.length / 2 + 1) 0 = c
      simp only [bind, Option.bind, pure, Option.some.injEq]
      constructor
      · intro same
        exact ⟨fun two => by omega, fun _ => by linarith⟩
      · rintro ⟨-, tied⟩
        linarith [tied ⟨even, many⟩]
    · rw [if_neg (fun both => many both.2), if_neg (by omega), found (by omega), Option.some.injEq]
      generalize (sorted vals).getD (vals.length / 2 - 1) 0 = a
      generalize (sorted vals).getD (vals.length / 2) 0 = b
      constructor
      · intro same
        exact ⟨fun _ => by linarith, fun both => absurd both.2 many⟩
      · rintro ⟨tied, -⟩
        linarith [tied (by omega)]
  · rw [if_neg (fun both => even both.1), if_pos (by omega), found (by omega)]
    refine ⟨fun _ => ⟨fun two => by omega, fun both => absurd both.1 even⟩, fun _ => rfl⟩

theorem valuesOf_median {inKey : StatName} {readings : List (ℚ × Option ℚ)}
    (nonempty : readings ≠ []) (opts : StatsdOptions) (elapsed : Int) :
    ((fed inKey readings).write opts elapsed).valuesOf (lineName opts inKey ".median") =
      (timerMedian readings.length (sorted (readings.map Prod.fst))).toList.map .exact := by
  have own : ∀ {part : String} (value : Number) (stype : String),
      ((fed inKey readings).line opts part value stype).name = lineName opts inKey part := by
    intro part value stype
    rw [line_eq, fed_inKey]
  have pos : (0 : Int) < readings.length := by
    have := List.length_pos_iff.mpr nonempty
    omega
  have totals : (Output.just ((fed inKey readings).writeTotals opts elapsed)).valuesOf
      (lineName opts inKey ".median") = [] := by
    apply valuesOf_eq_nil
    intro line mem same
    simp only [Output.just, StatsdTimerStatItem.writeTotals, List.mem_cons, List.not_mem_nil,
      or_false] at mem
    rcases mem with rfl | rfl | rfl | rfl | rfl <;>
      · rw [own, lineName_inj] at same
        exact absurd same (by decide)
  rw [StatsdTimerStatItem.write, valuesOf_after, totals, List.nil_append, fed_count, fed_values,
    if_neg pos.ne', if_pos pos]
  cases timerMedian readings.length (sorted (readings.map Prod.fst)) with
  | none => rfl
  | some median =>
    have later : ∀ th, ((fed inKey readings).writeThresholds opts
        (sorted (readings.map Prod.fst)) (running (fed inKey readings).min
          (sorted (readings.map Prod.fst)).tail) th opts.thresholds).valuesOf
            (lineName opts inKey ".median") = [] := by
      intro th
      apply valuesOf_eq_nil
      intro line mem
      obtain ⟨pct, th', own⟩ := writeThresholds_lines mem
      have name := thresholdLines_name own
      rwa [fed_inKey] at name
    simp only
    rw [valuesOf_after, later, List.append_nil]
    simp [Output.valuesOf, Output.just, StatsdTimerStatItem.writeMiddle, line_eq, fed_inKey,
      lineName_inj]

/-- The values in the middle that have to be equal. -/
def MiddleTied (vals : List ℚ) : Prop :=
  (vals.length % 4 = 0 ∨ vals.length % 4 = 3 ∨ vals.length = 2 →
    (sorted vals).getD (vals.length / 2 - 1) 0 = (sorted vals).getD (vals.length / 2) 0) ∧
  (vals.length % 2 = 0 ∧ 3 < vals.length →
    (sorted vals).getD (vals.length / 2) 0 = (sorted vals).getD (vals.length / 2 + 1) 0)

/-- Timers test the parity of the half and not of the length, and the reduction takes the mean of
the values around the middle of an even number, so both find the median just when these are
tied. -/
theorem medians_iff {inKey : StatName} {readings : List (ℚ × Option ℚ)} {vals : List ℚ}
    (order : (readings.map Prod.fst).Perm vals) (nonempty : vals ≠ []) (opts : StatsdOptions)
    (elapsed : Int) :
    (((fed inKey readings).write opts elapsed).valuesOf (lineName opts inKey ".median") =
        [.exact (median vals)] ∧ accumulateMedian vals = some (median vals)) ↔
      MiddleTied vals := by
  have length : readings.length = vals.length := by
    rw [← order.length_eq, List.length_map]
  have nonempty' : readings ≠ [] := by
    rw [← List.length_pos_iff, length]
    exact List.length_pos_iff.mpr nonempty
  have written : ((fed inKey readings).write opts elapsed).valuesOf
      (lineName opts inKey ".median") =
      [.exact (median vals)] ↔ timerMedian vals.length (sorted vals) = some (median vals) := by
    rw [valuesOf_median nonempty', sorted_congr order, length]
    cases timerMedian vals.length (sorted vals) <;> simp
  rw [written, timerMedian_eq_median_iff nonempty, accumulateMedian_eq_median_iff nonempty,
    MiddleTied]
  constructor
  · rintro ⟨timer, two, many⟩
    refine ⟨?_, many⟩
    rintro (zero | three | eq)
    · exact timer (.inl zero)
    · exact timer (.inr three)
    · exact two eq
  · rintro ⟨tied, many⟩
    exact ⟨fun h => tied (h.imp_right .inl), fun two => tied (.inr (.inr two)), many⟩

theorem medians_iff_five : ((fed (plainName "a")
      [(3, some 1), (1, some 1), (5, some 1), (4, some 1), (2, some 1)]).write .defaults 1).valuesOf
        (lineName .defaults (plainName "a") ".median") = [.exact (median [1, 2, 3, 4, 5])] ∧
    accumulateMedian [1, 2, 3, 4, 5] = some (median [1, 2, 3, 4, 5]) :=
  (medians_iff (by decide +kernel) (by decide) _ _).mpr ⟨by decide +kernel, by decide +kernel⟩

/-- Of three values a timer writes the mean of the lower two, and of four the reduction takes the
mean of the second and the last. -/
theorem medians_missed :
    ((fed (plainName "a") [(1, some 1), (2, some 1), (4, some 1)]).write .defaults 1).valuesOf
        (lineName .defaults (plainName "a") ".median") ≠ [.exact (median [1, 2, 4])] ∧
      accumulateMedian [1, 2, 4, 8] ≠ some (median [1, 2, 4, 8]) := by
  decide +kernel

end Median

/-! ### Thresholds -/

section Thresholds

/-- A threshold in percent. -/
def percent (pct : ℚ) : ℚ := if |pct| < 1 then 100 * |pct| else |pct|

/-- The number of values, of all there are, that a threshold stands for. -/
def portion (pct : ℚ) (n : Nat) : Nat := ⌊percent pct / 100 * n + 1 / 2⌋.toNat

theorem percent_nonneg (pct : ℚ) : 0 ≤ percent pct := by
  have := abs_nonneg pct
  rw [percent]
  split_ifs <;> linarith

theorem numInThreshold_eq (pct : ℚ) (n : Nat) : numInThreshold pct n = portion pct n := by
  have same : |pct| * (if |pct| < 1 then 1 else 1 / 100) * ((n : Int) : ℚ) =
      percent pct / 100 * n := by
    rw [percent, Int.cast_natCast]
    split_ifs <;> ring
  have nonneg : 0 ≤ percent pct / 100 * n := by
    have := percent_nonneg pct
    positivity
  rw [numInThreshold, same, round, if_neg (not_lt.mpr nonneg), portion,
    Int.toNat_of_nonneg (Int.floor_nonneg.mpr (by linarith))]

/-- A threshold of at most all stands for at most all values. -/
theorem portion_le {pct : ℚ} (bounded : |pct| ≤ 100) (n : Nat) : portion pct n ≤ n := by
  have le : percent pct ≤ 100 := by
    rw [percent]
    split_ifs <;> linarith
  have below : percent pct / 100 * n + 1 / 2 < ((n : Int) : ℚ) + 1 := by
    have : percent pct / 100 * n ≤ 1 * n := by gcongr; linarith
    rw [Int.cast_natCast]
    linarith
  have floor := Int.floor_lt.mpr (by exact_mod_cast below :
    percent pct / 100 * n + 1 / 2 < (((n : Int) + 1 : Int) : ℚ))
  rw [portion]
  omega

/-- The variables for a share of the smallest values. -/
def upperThreshold (k : Nat) (vals : List ℚ) : Threshold where
  sum := (smallest k vals).sum
  mean := (smallest k vals).sum / k
  boundary := (smallest k vals).getLastD 0
  num := k

/-- The variables for a share of the largest values. -/
def lowerThreshold (k : Nat) (vals : List ℚ) : Threshold where
  sum := (largest k vals).sum
  mean := (largest k vals).sum / k
  boundary := (largest k vals).headD 0
  num := k

variable {vals : List ℚ} {min pct : ℚ} {th : Threshold}

theorem next_zero (many : 1 < vals.length) (zero : portion pct vals.length = 0) :
    th.next vals.length (sorted vals) (running min (sorted vals).tail) pct =
      some { th with num := 0 } := by
  have many' : (1 : Int) < vals.length := by omega
  rw [Threshold.next, if_pos many', numInThreshold_eq, zero]
  rfl

/-- The running sums begin with the smallest value. -/
theorem next_upper (many : 1 < vals.length) (pos : 0 < pct) (bounded : pct ≤ 100)
    (least : (sorted vals).head? = some min) (some : portion pct vals.length ≠ 0) :
    th.next vals.length (sorted vals) (running min (sorted vals).tail) pct =
      .some (upperThreshold (portion pct vals.length) vals) := by
  have le := portion_le (abs_le.mpr ⟨by linarith, bounded⟩) vals.length
  obtain ⟨k, share⟩ := Nat.exists_eq_succ_of_ne_zero some
  rw [share] at le
  have many' : (1 : Int) < vals.length := by omega
  obtain ⟨rest, split⟩ := List.head?_eq_some_iff.mp least
  have length : rest.length + 1 = vals.length := by
    rw [← length_sorted vals, split, List.length_cons]
  have boundary : index (sorted vals) k = .some ((smallest (k + 1) vals).getLastD 0) := by
    have lt : k < (sorted vals).length := by rw [length_sorted]; omega
    rw [index_natCast, List.getElem?_eq_getElem lt, smallest, List.take_succ_eq_append_getElem lt,
      List.getLastD_concat]
  have sum : index (running min rest) k = .some (smallest (k + 1) vals).sum := by
    rw [index_natCast, getElem?_running min rest (by omega), smallest, split, List.take_succ_cons,
      List.sum_cons]
  have at' : ((k.succ : Nat) : Int) - 1 = k := by omega
  rw [Threshold.next, if_pos many', numInThreshold_eq, share, if_neg (by omega), if_pos pos, at',
    boundary, split, List.tail_cons, sum]
  rfl

/-- The difference of two running sums does not depend on how they begin. -/
theorem next_lower (neg : pct < 0) (some : portion pct vals.length ≠ 0)
    (less : portion pct vals.length < vals.length) :
    th.next vals.length (sorted vals) (running min (sorted vals).tail) pct =
      .some (lowerThreshold (portion pct vals.length) vals) := by
  generalize share : portion pct vals.length = k at some less
  have many' : (1 : Int) < vals.length := by omega
  have length : (sorted vals).tail.length + 1 = vals.length := by
    rw [List.length_tail, length_sorted]
    omega
  have boundary : index (sorted vals) ((vals.length - k : Nat) : Int) =
      .some ((largest k vals).headD 0) := by
    have lt : vals.length - k < (sorted vals).length := by rw [length_sorted]; omega
    rw [index_natCast, List.getElem?_eq_getElem lt, largest, List.drop_eq_getElem_cons lt]
    rfl
  have total : index (running min (sorted vals).tail) ((vals.length - 1 : Nat) : Int) =
      .some (min + (sorted vals).tail.sum) := by
    rw [index_natCast, getElem?_running min _ (by omega), List.take_of_length_le (by omega)]
  have below : index (running min (sorted vals).tail) ((vals.length - k - 1 : Nat) : Int) =
      .some (min + ((sorted vals).tail.take (vals.length - k - 1)).sum) := by
    rw [index_natCast, getElem?_running min _ (by omega)]
  have rest : (min + (sorted vals).tail.sum) -
      (min + ((sorted vals).tail.take (vals.length - k - 1)).sum) = (largest k vals).sum := by
    have cut := List.sum_take_add_sum_drop (sorted vals).tail (vals.length - k - 1)
    have shifted : (sorted vals).tail.drop (vals.length - k - 1) = largest k vals := by
      rw [largest, List.drop_tail, Nat.sub_add_cancel (by omega)]
    rw [shifted] at cut
    linarith
  have e1 : (vals.length : Int) - k = (vals.length - k : Nat) := by omega
  have e2 : (vals.length : Int) - 1 = (vals.length - 1 : Nat) := by omega
  have e3 : ((vals.length - k : Nat) : Int) - 1 = (vals.length - k - 1 : Nat) := by omega
  rw [Threshold.next, if_pos many', numInThreshold_eq, share, if_neg (by omega),
    if_neg (not_lt.mpr neg.le), e1, e2, e3, boundary, total, below]
  simp only [bind, Option.bind, pure, rest]
  rfl

/-- A share of all values is looked for before the first one. -/
theorem next_all (many : 1 < vals.length) (neg : pct < 0)
    (all : portion pct vals.length = vals.length) :
    th.next vals.length (sorted vals) (running min (sorted vals).tail) pct = none := by
  have many' : (1 : Int) < vals.length := by omega
  have before : index (running min (sorted vals).tail) ((vals.length : Int) - vals.length - 1) =
      none := by
    rw [index, if_pos (by omega)]
  rw [Threshold.next, if_pos many', numInThreshold_eq, all, if_neg (by omega),
    if_neg (not_lt.mpr neg.le), before]
  cases index (sorted vals) ((vals.length : Int) - vals.length) with
  | none => rfl
  | some boundary =>
    cases index (running min (sorted vals).tail) ((vals.length : Int) - 1) <;> rfl

/-! ### All thresholds -/

variable {s : StatsdTimerStatItem} {opts : StatsdOptions} {values cumulativeValues : List ℚ}
variable {thresholds : List ℚ}

/-- What a threshold adds to the output. -/
def StatsdTimerStatItem.emitted (s : StatsdTimerStatItem) (opts : StatsdOptions) (pct : ℚ)
    (th : Threshold) : List Written :=
  if 1 < s.count ∧ th.num = 0 then [] else s.thresholdLines opts pct th

/-- Where every threshold finds its values, whatever the variables were, there is no panic and each
has its lines. -/
theorem writeThresholds_eq (carried : Threshold → Prop) (lines : ℚ → List Written → Prop)
    (start : carried th)
    (step : ∀ pct ∈ thresholds, ∀ th, carried th → ∃ th',
      th.next s.count values cumulativeValues pct = some th' ∧ carried th' ∧
        lines pct (s.emitted opts pct th')) :
    ∃ blocks : List (ℚ × List Written), blocks.map Prod.fst = thresholds ∧
      (∀ block ∈ blocks, lines block.1 block.2) ∧
      s.writeThresholds opts values cumulativeValues th thresholds =
        .just (blocks.flatMap Prod.snd) := by
  induction thresholds generalizing th with
  | nil => exact ⟨[], rfl, nofun, rfl⟩
  | cons pct rest ih =>
    obtain ⟨th', found, carried', own⟩ := step pct List.mem_cons_self th start
    obtain ⟨blocks, firsts, each, written⟩ :=
      ih carried' fun pct' mem => step pct' (List.mem_cons_of_mem _ mem)
    refine ⟨(pct, s.emitted opts pct th') :: blocks, congrArg (pct :: ·) firsts, ?_, ?_⟩
    · exact List.forall_mem_cons.mpr ⟨own, each⟩
    · rw [StatsdTimerStatItem.writeThresholds, found]
      simp only [written]
      rfl

/-- A threshold that never finds its values is a panic. -/
theorem writeThresholds_panicked (mem : pct ∈ thresholds)
    (missing : ∀ th : Threshold, th.next s.count values cumulativeValues pct = none) :
    (s.writeThresholds opts values cumulativeValues th thresholds).panicked = true := by
  induction thresholds generalizing th with
  | nil => cases mem
  | cons first rest ih =>
    rw [StatsdTimerStatItem.writeThresholds]
    rcases List.mem_cons.mp mem with rfl | later
    · rw [missing th]
      rfl
    · cases th.next s.count values cumulativeValues first with
      | none => rfl
      | some th' => exact ih later

variable {inKey : StatName} {readings : List (ℚ × Option ℚ)}

variable (inKey) in
theorem write_thresholds (nonempty : readings ≠ []) (opts : StatsdOptions) (elapsed : Int) :
    ∃ first, first.length = 8 ∧ (fed inKey readings).write opts elapsed =
      ((fed inKey readings).writeThresholds opts (sorted (readings.map Prod.fst))
        (running (fed inKey readings).min (sorted (readings.map Prod.fst)).tail)
        ⟨(fed inKey readings).min, (fed inKey readings).min, (fed inKey readings).max,
          readings.length⟩ opts.thresholds).after first := by
  have pos : (0 : Int) < readings.length := by
    have := List.length_pos_iff.mpr nonempty
    omega
  have nonempty' : sorted (readings.map Prod.fst) ≠ [] := by
    rw [← List.length_pos_iff, length_sorted, List.length_map]
    exact List.length_pos_iff.mpr nonempty
  have picked := timerMedian_eq nonempty'
  rw [length_sorted, List.length_map] at picked
  rw [StatsdTimerStatItem.write, fed_count, fed_values, if_neg pos.ne', if_pos pos, picked]
  simp only [after_after]
  exact ⟨_, rfl, rfl⟩

/-- The number of values that a threshold stands for, which is 1 for the only one. -/
def share (pct : ℚ) (n : Nat) : Nat := if n = 1 then 1 else portion pct n

theorem next_single (th : Threshold) (pct : ℚ) (values sums : List ℚ) :
    th.next 1 values sums pct = some th := by
  rw [Threshold.next]
  exact if_neg (by simp)

theorem emitted_single (r : ℚ × Option ℚ) (pct : ℚ) (th : Threshold) :
    (fed inKey [r]).emitted opts pct th = (fed inKey [r]).thresholdLines opts pct th := by
  rw [StatsdTimerStatItem.emitted, fed_count]
  exact if_neg (by simp)

/-- The variables that the loop starts with, for one value. -/
theorem upperThreshold_single (v : ℚ) : upperThreshold 1 [v] = ⟨v, v, v, 1⟩ := by
  simp [upperThreshold, smallest, sorted]

theorem lowerThreshold_single (v : ℚ) : lowerThreshold 1 [v] = ⟨v, v, v, 1⟩ := by
  simp [lowerThreshold, largest, sorted]

theorem emitted_zero (many : 1 < readings.length) (pct : ℚ) (th : Threshold) :
    (fed inKey readings).emitted opts pct { th with num := 0 } = [] := by
  have many' : (1 : Int) < readings.length := by omega
  rw [StatsdTimerStatItem.emitted, fed_count]
  exact if_pos ⟨many', rfl⟩

theorem emitted_of_num {pct : ℚ} {th : Threshold} (some : th.num ≠ 0) :
    s.emitted opts pct th = s.thresholdLines opts pct th := by
  rw [StatsdTimerStatItem.emitted]
  exact if_neg fun both => some both.2

theorem thresholdLines_upper {p : ℚ} (pos : 0 < p) (k : Nat) (vals : List ℚ) :
    s.thresholdLines opts p (upperThreshold k vals) =
      [⟨lineName opts s.inKey (".count_" ++ thresholdName p), .exact k, "c"⟩,
        ⟨lineName opts s.inKey (".mean_" ++ thresholdName p),
          .exact ((smallest k vals).sum / k), "g"⟩,
        ⟨lineName opts s.inKey (".sum_" ++ thresholdName p), .exact (smallest k vals).sum, "g"⟩,
        ⟨lineName opts s.inKey (".upper_" ++ thresholdName p),
          .exact ((smallest k vals).getLastD 0), "g"⟩] := by
  simp only [StatsdTimerStatItem.thresholdLines, upperThreshold, line_eq, if_pos pos,
    Int.cast_natCast]

theorem thresholdLines_lower {p : ℚ} (neg : p < 0) (k : Nat) (vals : List ℚ) :
    s.thresholdLines opts p (lowerThreshold k vals) =
      [⟨lineName opts s.inKey (".count_" ++ thresholdName p), .exact k, "c"⟩,
        ⟨lineName opts s.inKey (".mean_" ++ thresholdName p),
          .exact ((largest k vals).sum / k), "g"⟩,
        ⟨lineName opts s.inKey (".sum_" ++ thresholdName p), .exact (largest k vals).sum, "g"⟩,
        ⟨lineName opts s.inKey (".lower_" ++ thresholdName p),
          .exact ((largest k vals).headD 0), "g"⟩] := by
  simp only [StatsdTimerStatItem.thresholdLines, lowerThreshold, line_eq,
    if_neg (not_lt.mpr neg.le),
    Int.cast_natCast]

/-- A timer writes eight lines and then a block of lines for each threshold. -/
def StatsdTimerStatItem.WritesBlocks (s : StatsdTimerStatItem) (opts : StatsdOptions)
    (elapsed : Int) (lines : ℚ → List Written → Prop) : Prop :=
  ∃ (first : List Written) (blocks : List (ℚ × List Written)), first.length = 8 ∧
    blocks.map Prod.fst = opts.thresholds ∧ (∀ block ∈ blocks, lines block.1 block.2) ∧
    s.write opts elapsed = .just (first ++ blocks.flatMap Prod.snd)

/-- Where each threshold leads to its own lines, these are what is written. -/
theorem write_of_steps (nonempty : readings ≠ []) (opts : StatsdOptions) (elapsed : Int)
    (carried : Threshold → Prop) (lines : ℚ → List Written → Prop)
    (start : carried ⟨(fed inKey readings).min, (fed inKey readings).min,
      (fed inKey readings).max, readings.length⟩)
    (step : ∀ pct ∈ opts.thresholds, ∀ th, carried th → ∃ th',
      th.next (readings.map Prod.fst).length (sorted (readings.map Prod.fst))
        (running (fed inKey readings).min (sorted (readings.map Prod.fst)).tail) pct = some th' ∧
      carried th' ∧ lines pct ((fed inKey readings).emitted opts pct th')) :
    (fed inKey readings).WritesBlocks opts elapsed lines := by
  obtain ⟨first, eight, written⟩ := write_thresholds inKey nonempty opts elapsed
  have count : (fed inKey readings).count = (readings.map Prod.fst).length := by
    rw [fed_count, List.length_map]
  rw [← count] at step
  obtain ⟨blocks, firsts, each, all⟩ := writeThresholds_eq carried lines start step
  refine ⟨first, blocks, eight, firsts, each, ?_⟩
  rw [written, all]
  rfl

variable (inKey) in
/-- The lines for the thresholds between 0 and 100 percent. -/
theorem write_upper (nonempty : readings ≠ []) (unflagged : ∀ r ∈ readings, r.1 ≠ minFlag)
    (opts : StatsdOptions) (bounded : ∀ p ∈ opts.thresholds, 0 < p ∧ p ≤ 100) (elapsed : Int) :
    (fed inKey readings).WritesBlocks opts elapsed fun p block =>
      block = if share p (readings.map Prod.fst).length = 0 then [] else
        (fed inKey readings).thresholdLines opts p
          (upperThreshold (share p (readings.map Prod.fst).length) (readings.map Prod.fst)) := by
  rcases readings with _ | ⟨r, _ | ⟨r', later⟩⟩
  · exact absurd rfl nonempty
  · -- the variables stay what they were before the loop
    refine write_of_steps nonempty opts elapsed (· = upperThreshold 1 [r.1]) _ ?_ ?_
    · rw [(fed_singleton r).1, (fed_singleton r).2, upperThreshold_single]
      rfl
    · rintro p - th rfl
      refine ⟨_, next_single _ p _ _, rfl, ?_⟩
      rw [emitted_single]
      exact (if_neg Nat.one_ne_zero).symm
  · generalize all : r :: r' :: later = readings at *
    have many : 1 < (readings.map Prod.fst).length := by
      rw [← all]
      simp
    have least : (sorted (readings.map Prod.fst)).head? = some (fed inKey readings).min := by
      obtain ⟨mem, le⟩ := fed_min inKey unflagged nonempty
      obtain ⟨rest, split⟩ := sorted_eq_cons mem le
      rw [split]
      rfl
    refine write_of_steps nonempty opts elapsed (fun _ => True) _ trivial ?_
    intro p mem th _
    have shared : share p (readings.map Prod.fst).length =
        portion p (readings.map Prod.fst).length := if_neg many.ne'
    rw [shared]
    by_cases zero : portion p (readings.map Prod.fst).length = 0
    · refine ⟨_, next_zero many zero, trivial, ?_⟩
      rw [if_pos zero]
      exact emitted_zero (by simpa using many) p th
    · obtain ⟨pos, le⟩ := bounded p mem
      refine ⟨_, next_upper many pos le least zero, trivial, ?_⟩
      rw [if_neg zero]
      exact emitted_of_num (Int.natCast_ne_zero.mpr zero)

/-- For every threshold between 0 and 100 percent that stands for some values, a timer writes the
number, the mean, the sum and the largest of as many of the smallest values, and it writes nothing
else after its first lines. -/
theorem upper_thresholds (nonempty : readings ≠ []) (unflagged : ∀ r ∈ readings, r.1 ≠ minFlag)
    (opts : StatsdOptions) (bounded : ∀ p ∈ opts.thresholds, 0 < p ∧ p ≤ 100) (elapsed : Int) :
    ∃ first, first.length = 8 ∧ (fed inKey readings).write opts elapsed =
      .just (first ++ opts.thresholds.flatMap fun p =>
        let k := share p readings.length
        let least := smallest k (readings.map Prod.fst)
        if k = 0 then []
        else
          [⟨lineName opts inKey (".count_" ++ thresholdName p), .exact k, "c"⟩,
            ⟨lineName opts inKey (".mean_" ++ thresholdName p), .exact (least.sum / k), "g"⟩,
            ⟨lineName opts inKey (".sum_" ++ thresholdName p), .exact least.sum, "g"⟩,
            ⟨lineName opts inKey (".upper_" ++ thresholdName p),
              .exact (least.getLastD 0), "g"⟩]) := by
  obtain ⟨first, blocks, eight, firsts, each, eq⟩ :=
    write_upper inKey nonempty unflagged opts bounded elapsed
  refine ⟨first, eight, ?_⟩
  rw [eq, ← firsts, List.flatMap_map]
  refine congrArg (fun lines => Output.just (first ++ lines))
    (List.flatMap_congr fun block mem => ?_)
  have pos : 0 < block.1 := (bounded _ (firsts ▸ List.mem_map_of_mem mem)).1
  rw [each block mem, thresholdLines_upper pos, fed_inKey, List.length_map]

theorem upper_thresholds_three : ∃ first, first.length = 8 ∧
    (fed (plainName "a") [(5, some 1), (2, some 1), (-1, some 1)]).write
        { StatsdOptions.defaults with thresholds := [1 / 10, 60, 9 / 10] } 1 =
      .just (first ++
        [⟨plainName "stats.timers.a.count_60", .exact 2, "c"⟩,
          ⟨plainName "stats.timers.a.mean_60", .exact (1 / 2), "g"⟩,
          ⟨plainName "stats.timers.a.sum_60", .exact 1, "g"⟩,
          ⟨plainName "stats.timers.a.upper_60", .exact 2, "g"⟩,
          ⟨plainName "stats.timers.a.count_90", .exact 3, "c"⟩,
          ⟨plainName "stats.timers.a.mean_90", .exact 2, "g"⟩,
          ⟨plainName "stats.timers.a.sum_90", .exact 6, "g"⟩,
          ⟨plainName "stats.timers.a.upper_90", .exact 5, "g"⟩]) := by
  obtain ⟨first, eight, written⟩ := @upper_thresholds (plainName "a")
    [(5, some 1), (2, some 1), (-1, some 1)] (by decide) (by decide +kernel)
    { StatsdOptions.defaults with thresholds := [1 / 10, 60, 9 / 10] } (by decide +kernel) 1
  refine ⟨first, eight, written.trans (congrArg (fun lines => Output.just (first ++ lines)) ?_)⟩
  decide +kernel

variable (th min) in
/-- A share of several values is found, whatever the running sums begin with. -/
theorem next_isSome (many : 1 < vals.length) (pos : 0 < pct) (bounded : pct ≤ 100) :
    ∃ th', th.next vals.length (sorted vals) (running min (sorted vals).tail) pct = some th' := by
  have le := portion_le (abs_le.mpr ⟨by linarith, bounded⟩) vals.length
  by_cases zero : portion pct vals.length = 0
  · exact ⟨_, next_zero many zero⟩
  · have many' : (1 : Int) < vals.length := by omega
    have last : (portion pct vals.length : Int) - 1 =
        (portion pct vals.length - 1 : Nat) := by omega
    rw [Threshold.next, if_pos many', numInThreshold_eq, if_neg (by omega), if_pos pos, last,
      index_of_lt (by rw [length_sorted]; omega),
      index_of_lt (by rw [length_running, List.length_tail, length_sorted]; omega)]
    exact ⟨_, rfl⟩

/-- The lines that a negative threshold should have. -/
def StatsdTimerStatItem.LowerLines (s : StatsdTimerStatItem) (opts : StatsdOptions) (vals : List ℚ)
    (pct : ℚ) (block : List Written) : Prop :=
  pct < 0 → 0 < portion pct vals.length →
    block = s.thresholdLines opts pct (lowerThreshold (portion pct vals.length) vals)

theorem write_lower_single (r : ℚ × Option ℚ) (opts : StatsdOptions)
    (bounded : ∀ p ∈ opts.thresholds, p ≠ 0 ∧ |p| ≤ 100) (elapsed : Int) :
    (fed inKey [r]).WritesBlocks opts elapsed ((fed inKey [r]).LowerLines opts [r.1]) := by
  refine write_of_steps (List.cons_ne_nil r []) opts elapsed (· = lowerThreshold 1 [r.1]) _
    ?_ ?_
  · rw [(fed_singleton r).1, (fed_singleton r).2, lowerThreshold_single]
    rfl
  · rintro p mem th rfl
    refine ⟨_, next_single _ p _ _, rfl, ?_⟩
    intro neg some
    have one : portion p [r.1].length = 1 := le_antisymm (portion_le (bounded p mem).2 1) some
    rw [emitted_single, one]

theorem write_lower_many (many : 1 < readings.length) (opts : StatsdOptions)
    (bounded : ∀ p ∈ opts.thresholds, p ≠ 0 ∧ |p| ≤ 100)
    (partly : ∀ p ∈ opts.thresholds, p < 0 → portion p readings.length ≠ readings.length)
    (elapsed : Int) :
    (fed inKey readings).WritesBlocks opts elapsed
      ((fed inKey readings).LowerLines opts (readings.map Prod.fst)) := by
  have nonempty : readings ≠ [] := by
    rintro rfl
    cases many
  have many' : 1 < (readings.map Prod.fst).length := by rwa [List.length_map]
  refine write_of_steps nonempty opts elapsed (fun _ => True) _ trivial ?_
  intro p mem th _
  obtain ⟨ne, le⟩ := bounded p mem
  rcases lt_or_gt_of_ne ne with neg | pos
  · by_cases zero : portion p (readings.map Prod.fst).length = 0
    · refine ⟨_, next_zero many' zero, trivial, ?_⟩
      intro _ some
      exact absurd zero some.ne'
    · have less : portion p (readings.map Prod.fst).length < (readings.map Prod.fst).length := by
        refine lt_of_le_of_ne (portion_le le _) ?_
        rw [List.length_map]
        exact partly p mem neg
      refine ⟨_, next_lower neg zero less, trivial, ?_⟩
      intro _ _
      exact emitted_of_num (Int.natCast_ne_zero.mpr zero)
  · obtain ⟨th', found⟩ := next_isSome (fed inKey readings).min th many' pos (abs_le.mp le).2
    exact ⟨th', found, trivial, fun neg => absurd pos (not_lt.mpr neg.le)⟩

theorem write_lower_panicked (many : 1 < readings.length) (opts : StatsdOptions) {p : ℚ}
    (mem : p ∈ opts.thresholds) (neg : p < 0) (all : portion p readings.length = readings.length)
    (elapsed : Int) : ((fed inKey readings).write opts elapsed).panicked = true := by
  have nonempty : readings ≠ [] := by
    rintro rfl
    cases many
  obtain ⟨first, -, written⟩ := write_thresholds inKey nonempty opts elapsed
  rw [written]
  refine writeThresholds_panicked mem fun th => ?_
  have length : readings.length = (readings.map Prod.fst).length := (List.length_map _).symm
  rw [fed_count, length]
  rw [length] at many all
  exact next_all many neg all

/-- A negative threshold that stands for some but not all values has its lines, and one that
stands for all of several values is a panic. -/
theorem lower_thresholds_iff (nonempty : readings ≠ []) (opts : StatsdOptions)
    (bounded : ∀ p ∈ opts.thresholds, p ≠ 0 ∧ |p| ≤ 100) (elapsed : Int) :
    (((fed inKey readings).write opts elapsed).panicked = false ∧
      ∀ p ∈ opts.thresholds, p < 0 → 0 < portion p readings.length →
        let k := portion p readings.length
        let greatest := largest k (readings.map Prod.fst)
        [⟨lineName opts inKey (".count_" ++ thresholdName p), .exact k, "c"⟩,
          ⟨lineName opts inKey (".mean_" ++ thresholdName p), .exact (greatest.sum / k), "g"⟩,
          ⟨lineName opts inKey (".sum_" ++ thresholdName p), .exact greatest.sum, "g"⟩,
          ⟨lineName opts inKey (".lower_" ++ thresholdName p), .exact (greatest.headD 0), "g"⟩] <:+:
            ((fed inKey readings).write opts elapsed).lines) ↔
      readings.length = 1 ∨
        ∀ p ∈ opts.thresholds, p < 0 → portion p readings.length ≠ readings.length := by
  have pos := List.length_pos_iff.mpr nonempty
  constructor
  · rintro ⟨calm, -⟩
    by_contra! both
    obtain ⟨several, p, mem, neg, all⟩ := both
    rw [write_lower_panicked (by omega) opts mem neg all] at calm
    cases calm
  · intro fits
    have written : (fed inKey readings).WritesBlocks opts elapsed
        ((fed inKey readings).LowerLines opts (readings.map Prod.fst)) := by
      by_cases one : readings.length = 1
      · obtain ⟨r, rfl⟩ := List.length_eq_one_iff.mp one
        exact write_lower_single r opts bounded elapsed
      · exact write_lower_many (by omega) opts bounded (fits.resolve_left one) elapsed
    obtain ⟨first, blocks, -, firsts, each, eq⟩ := written
    rw [eq]
    refine ⟨rfl, ?_⟩
    intro p mem neg some
    rw [← firsts] at mem
    obtain ⟨block, listed, rfl⟩ := List.mem_map.mp mem
    have own := each block listed neg (by rwa [List.length_map])
    rw [List.length_map, thresholdLines_lower neg, fed_inKey] at own
    dsimp only
    rw [← own]
    have inside : block.2 <:+: (blocks.map Prod.snd).flatten :=
      List.infix_of_mem_flatten (List.mem_map_of_mem listed)
    exact inside.trans (List.suffix_append _ _).isInfix

theorem lower_thresholds_iff_three :
    ((fed (plainName "a") [(5, some 1), (2, some 1), (-1, some 1)]).write
        { StatsdOptions.defaults with thresholds := [-1 / 2, 100] } 1).panicked = false ∧
      [⟨plainName "stats.timers.a.count_50", .exact 2, "c"⟩,
        ⟨plainName "stats.timers.a.mean_50", .exact (7 / 2), "g"⟩,
        ⟨plainName "stats.timers.a.sum_50", .exact 7, "g"⟩,
        ⟨plainName "stats.timers.a.lower_50", .exact 2, "g"⟩] <:+:
      ((fed (plainName "a") [(5, some 1), (2, some 1), (-1, some 1)]).write
        { StatsdOptions.defaults with thresholds := [-1 / 2, 100] } 1).lines := by
  obtain ⟨calm, lines⟩ := (@lower_thresholds_iff (plainName "a")
    [(5, some 1), (2, some 1), (-1, some 1)] (by decide)
    { StatsdOptions.defaults with thresholds := [-1 / 2, 100] } (by decide +kernel) 1).mpr
      (.inr (by decide +kernel))
  have own := lines (-1 / 2) List.mem_cons_self (by decide +kernel) (by decide +kernel)
  refine ⟨calm, ?_⟩
  convert own using 1
  decide +kernel

/-- A timer with two values and a threshold of -90. -/
theorem lower_threshold_panics : ((fed (plainName "a") [(1, some 1), (2, some 1)]).write
    { StatsdOptions.defaults with thresholds := [-90] } 1).panicked = true := by
  decide +kernel

end Thresholds

end Accumulator
