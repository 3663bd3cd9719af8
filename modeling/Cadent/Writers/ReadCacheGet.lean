import Cadent.Writers.ReadCacheItem

/-!
# Reading a range from the read cache

`Get` goes through the points in the order they came in and takes those whose time is between the
start and the end, as nanoseconds in 64 bits. A point keeps its time in seconds; `ToTime` takes more
than 2147483647 of them for nanoseconds, and a point at zero is skipped. The first time moves to a
later point and the last time to an earlier one, so that they come out the wrong way round. The
points are sorted in the end.
-/

namespace ReadCache

open Formats TimeSeries

/-- `UnixNano` of a time. -/
def unixNano (t : Int) : Int := (BitVec.ofInt 64 t).toInt

/-- What `Get` returns. -/
structure Found where
  stats : List Point
  firsttime : Int
  lasttime : Int

/-- The test that a point has to pass. -/
def Taken (start stop : Int) (stat : Point) : Prop :=
  stat.t ≠ 0#64 ∧ unixNano start ≤ unixNano (toTime stat.t) ∧
    unixNano (toTime stat.t) ≤ unixNano stop

instance (start stop : Int) (stat : Point) : Decidable (Taken start stop stat) :=
  inferInstanceAs (Decidable (_ ∧ _))

/-- One round of the loop. -/
def gather (start stop : Int) (found : Found) (stat : Point) : Found :=
  if Taken start stop stat then
    let time := toTime stat.t
    { stats := found.stats ++ [stat]
      firsttime :=
        if found.firsttime = zeroTime then time
        else if found.firsttime < time then time
        else found.firsttime
      lasttime :=
        if found.lasttime = zeroTime then time
        else if time < found.lasttime then time
        else found.lasttime }
  else found

namespace ReadCacheItem

variable (rc : ReadCacheItem)

/-- The points that are kept, as the iterator returns them. -/
def retained : List Point := rc.data.stats.map Stat.reprValue

def get (start stop : Int) : Found :=
  let found := rc.retained.foldl (gather start stop) ⟨[], zeroTime, zeroTime⟩
  { found with stats := found.stats.mergeSort fun a b => decide (a.t.toInt ≤ b.t.toInt) }

end ReadCacheItem

/-- The time of a point that is kept in seconds. -/
def timeOf (stat : Point) : Int := stat.t.toInt * 1000000000

def Within (start stop : Int) (stat : Point) : Prop :=
  start ≤ timeOf stat ∧ timeOf stat ≤ stop

instance (start stop : Int) (stat : Point) : Decidable (Within start stop stat) :=
  inferInstanceAs (Decidable (_ ∧ _))

/-- The points of a range. -/
def ReadCacheItem.between (rc : ReadCacheItem) (start stop : Int) : List Point :=
  rc.retained.filter fun stat => decide (Within start stop stat)

structure Answers (rc : ReadCacheItem) (start stop : Int) : Prop where
  points : (rc.get start stop).stats.Perm (rc.between start stop)
  sorted : (rc.get start stop).stats.Pairwise fun a b => timeOf a ≤ timeOf b
  empty : rc.between start stop = [] →
    (rc.get start stop).firsttime = zeroTime ∧ (rc.get start stop).lasttime = zeroTime
  first : rc.between start stop ≠ [] →
    IsLeast {t | ∃ p ∈ rc.between start stop, timeOf p = t} (rc.get start stop).firsttime
  last : rc.between start stop ≠ [] →
    IsGreatest {t | ∃ p ∈ rc.between start stop, timeOf p = t} (rc.get start stop).lasttime

/-- Each point in the range passes the test and each that passes is in the range, all of them with
one time that is taken for seconds. -/
structure Agreed (rc : ReadCacheItem) (start stop : Int) : Prop where
  test : ∀ p ∈ rc.retained, Taken start stop p ↔ Within start stop p
  seconds : ∀ p ∈ rc.retained, Within start stop p → p.t.toInt ≤ 2147483647
  together : ∀ p ∈ rc.retained, ∀ q ∈ rc.retained, Within start stop p → Within start stop q →
    p.t = q.t

/-! ### What the loop finds -/

variable {start stop : Int} {l : List Point} {found : Found}

/-- The points that passed, the latest of them first and the earliest last. -/
structure Gathered (start stop : Int) (l : List Point) (found : Found) : Prop where
  stats : found.stats = l.filter fun p => decide (Taken start stop p)
  empty : found.stats = [] → found.firsttime = zeroTime ∧ found.lasttime = zeroTime
  first : found.stats ≠ [] → IsGreatest {t | ∃ p ∈ found.stats, toTime p.t = t} found.firsttime
  last : found.stats ≠ [] → IsLeast {t | ∃ p ∈ found.stats, toTime p.t = t} found.lasttime

theorem zeroTime_lt_toTime {t : BitVec 64} (nonneg : 0 ≤ t.toInt) : zeroTime < toTime t := by
  rw [toTime, zeroTime]
  split_ifs <;> omega

theorem gathered_gather (nonneg : ∀ p ∈ l, 0 ≤ p.t.toInt) (gathered : Gathered start stop l found)
    (p : Point) : Gathered start stop (l ++ [p]) (gather start stop found p) := by
  rw [gather]
  by_cases taken : Taken start stop p
  · rw [if_pos taken]
    dsimp only
    have more : found.stats ++ [p] ≠ [] := List.concat_ne_nil p found.stats
    have later : ∀ t ∈ {t | ∃ q ∈ found.stats, toTime q.t = t}, t ≠ zeroTime := by
      rintro _ ⟨q, mem, rfl⟩
      rw [gathered.stats] at mem
      exact (zeroTime_lt_toTime (nonneg q (List.mem_filter.mp mem).1)).ne'
    refine ⟨?_, fun none => absurd none more, fun _ => ?_, fun _ => ?_⟩
    · rw [gathered.stats, List.filter_append, List.filter_singleton, decide_eq_true taken]
      rfl
    · rw [times_concat]
      by_cases none : found.stats = []
      · rw [(gathered.empty none).1, if_pos rfl]
        simp [none]
      · have greatest := gathered.first none
        have larger : (if found.firsttime < toTime p.t then toTime p.t else found.firsttime) =
            max (toTime p.t) found.firsttime := by
          split_ifs <;> omega
        rw [if_neg (later _ greatest.1), larger]
        exact greatest.insert (toTime p.t)
    · rw [times_concat]
      by_cases none : found.stats = []
      · rw [(gathered.empty none).2, if_pos rfl]
        simp [none]
      · have least := gathered.last none
        have smaller : (if toTime p.t < found.lasttime then toTime p.t else found.lasttime) =
            min (toTime p.t) found.lasttime := by
          split_ifs <;> omega
        rw [if_neg (later _ least.1), smaller]
        exact least.insert (toTime p.t)
  · rw [if_neg taken]
    have same : (l ++ [p]).filter (fun p => decide (Taken start stop p)) =
        l.filter fun p => decide (Taken start stop p) := by
      rw [List.filter_append, List.filter_singleton, decide_eq_false taken]
      exact List.append_nil _
    exact ⟨gathered.stats.trans same.symm, gathered.empty, gathered.first, gathered.last⟩

variable (start stop) in
theorem gathered_foldl (nonneg : ∀ p ∈ l, 0 ≤ p.t.toInt) :
    Gathered start stop l (l.foldl (gather start stop) ⟨[], zeroTime, zeroTime⟩) := by
  induction l using List.reverseRecOn with
  | nil =>
    exact ⟨rfl, fun _ => ⟨rfl, rfl⟩, fun some => absurd rfl some, fun some => absurd rfl some⟩
  | append_singleton l p ih =>
    rw [List.foldl_append]
    have earlier : ∀ q ∈ l, 0 ≤ q.t.toInt := fun q mem => nonneg q (List.mem_append_left _ mem)
    exact gathered_gather earlier (ih earlier) p

/-! ### The answer -/

/-- The seconds that are kept of a time are not negative. -/
theorem retained_nonneg {maxBytes cut : Nat} {rc : ReadCacheItem} {calls : List Call}
    (traced : Traced maxBytes rc calls cut) : ∀ p ∈ rc.retained, 0 ≤ p.t.toInt := by
  intro p mem
  rw [ReadCacheItem.retained, traced.stats, List.map_map] at mem
  obtain ⟨c, -, rfl⟩ := List.mem_map.mp mem
  have seconds : (c.stored.reprValue).t = (splitNano c.point.t).1.setWidth 64 := by
    have low : newDefaultOptions.highTimeResolution = false := rfl
    simp only [Call.stored, newStat, low, Bool.false_eq_true, if_false]
    split_ifs <;> rfl
  change 0 ≤ (c.stored.reprValue).t.toInt
  have short : ((splitNano c.point.t).1.setWidth 64).toNat < 2 ^ 32 := by
    rw [BitVec.toNat_setWidth_of_le (by decide)]
    exact (splitNano c.point.t).1.isLt
  rw [seconds, BitVec.toInt_eq_toNat_of_lt (by omega)]
  exact Int.natCast_nonneg _

theorem toTime_le_timeOf (p : Point) : toTime p.t ≤ timeOf p := by
  rw [toTime, timeOf]
  split_ifs <;> omega

theorem toTime_eq_timeOf_iff (p : Point) : toTime p.t = timeOf p ↔ p.t.toInt ≤ 2147483647 := by
  rw [toTime, timeOf]
  split_ifs <;> omega

theorem eq_of_timeOf_eq {p q : Point} (same : timeOf p = timeOf q) : p.t = q.t := by
  rw [timeOf, timeOf] at same
  exact BitVec.eq_of_toInt_eq (by omega)

variable {rc : ReadCacheItem}

theorem mem_between {p : Point} :
    p ∈ rc.between start stop ↔ p ∈ rc.retained ∧ Within start stop p := by
  rw [ReadCacheItem.between, List.mem_filter, decide_eq_true_iff]

theorem agreed_of_answers (nonneg : ∀ p ∈ rc.retained, 0 ≤ p.t.toInt)
    (answers : Answers rc start stop) : Agreed rc start stop := by
  have gathered := gathered_foldl start stop nonneg
  have same := (List.mergeSort_perm _ _).symm.trans answers.points
  have test : ∀ p ∈ rc.retained, Taken start stop p ↔ Within start stop p := by
    intro p mem
    have iff := same.mem_iff (a := p)
    rw [gathered.stats, List.mem_filter, decide_eq_true_iff, mem_between] at iff
    simpa [mem] using iff
  -- the latest time is at most the time that is read of any point in the range
  have above : ∀ p ∈ rc.between start stop, ∀ q ∈ rc.between start stop,
      timeOf p ≤ toTime q.t := by
    intro p memp q memq
    have latest := (answers.last (List.ne_nil_of_mem memp)).2 ⟨p, memp, rfl⟩
    have found := same.mem_iff.mpr memq
    exact latest.trans ((gathered.last (List.ne_nil_of_mem found)).2 ⟨q, found, rfl⟩)
  refine ⟨test, fun p mem within => ?_, fun p memp q memq within within' => ?_⟩
  · have inside := mem_between.mpr ⟨mem, within⟩
    exact (toTime_eq_timeOf_iff p).mp (le_antisymm (toTime_le_timeOf p) (above p inside p inside))
  · have insidep := mem_between.mpr ⟨memp, within⟩
    have insideq := mem_between.mpr ⟨memq, within'⟩
    exact eq_of_timeOf_eq (le_antisymm
      ((above p insidep q insideq).trans (toTime_le_timeOf q))
      ((above q insideq p insidep).trans (toTime_le_timeOf p)))

theorem answers_of_agreed (nonneg : ∀ p ∈ rc.retained, 0 ≤ p.t.toInt)
    (agreed : Agreed rc start stop) : Answers rc start stop := by
  have gathered := gathered_foldl start stop nonneg
  have same : (rc.retained.foldl (gather start stop) ⟨[], zeroTime, zeroTime⟩).stats =
      rc.between start stop := by
    rw [gathered.stats]
    exact List.filter_congr fun p mem => by rw [decide_eq_decide]; exact agreed.test p mem
  have read : ∀ p ∈ rc.between start stop, toTime p.t = timeOf p := fun p inside =>
    (toTime_eq_timeOf_iff p).mpr
      (agreed.seconds p (mem_between.mp inside).1 (mem_between.mp inside).2)
  have one : ∀ p ∈ rc.between start stop, ∀ q ∈ rc.between start stop, timeOf p = timeOf q := by
    intro p insidep q insideq
    obtain ⟨memp, withinp⟩ := mem_between.mp insidep
    obtain ⟨memq, withinq⟩ := mem_between.mp insideq
    rw [timeOf, timeOf, agreed.together p memp q memq withinp withinq]
  refine ⟨?_, ?_, fun none => ?_, fun some => ?_, fun some => ?_⟩
  · exact same ▸ List.mergeSort_perm _ _
  · refine List.Pairwise.imp ?_ (List.pairwise_mergeSort ?_ ?_ _)
    · intro a b le
      have := of_decide_eq_true le
      rw [timeOf, timeOf]
      omega
    · intro a b c ab bc
      exact decide_eq_true ((of_decide_eq_true ab).trans (of_decide_eq_true bc))
    · intro a b
      simpa using le_total a.t.toInt b.t.toInt
  · exact gathered.empty (same.trans none)
  · obtain ⟨⟨q, mem, time⟩, -⟩ := gathered.first (same ▸ some)
    rw [same] at mem
    have first : (rc.get start stop).firsttime = timeOf q := time.symm.trans (read q mem)
    rw [first]
    refine ⟨⟨q, mem, rfl⟩, ?_⟩
    rintro _ ⟨p, inside, rfl⟩
    exact (one q mem p inside).le
  · obtain ⟨⟨q, mem, time⟩, -⟩ := gathered.last (same ▸ some)
    rw [same] at mem
    have last : (rc.get start stop).lasttime = timeOf q := time.symm.trans (read q mem)
    rw [last]
    refine ⟨⟨q, mem, rfl⟩, ?_⟩
    rintro _ ⟨p, inside, rfl⟩
    exact (one p inside q mem).le

/-- A time that 64 bits of nanoseconds have. -/
def Representable (t : Int) : Prop := -2 ^ 63 ≤ t ∧ t < 2 ^ 63

theorem unixNano_eq {t : Int} (representable : Representable t) : unixNano t = t := by
  obtain ⟨least, most⟩ := representable
  rw [unixNano, BitVec.toInt_ofInt]
  exact Int.bmod_eq_of_le (by omega) (by omega)

/-- For times in seconds and a range in nanoseconds the test is right. -/
theorem taken_iff_within {p : Point} (hstart : Representable start) (hstop : Representable stop)
    (positive : 0 < p.t.toInt) (seconds : p.t.toInt ≤ 2147483647) :
    Taken start stop p ↔ Within start stop p := by
  have time : toTime p.t = timeOf p := (toTime_eq_timeOf_iff p).mpr seconds
  have fits : Representable (timeOf p) := by
    rw [timeOf]
    constructor <;> omega
  have nonzero : p.t ≠ 0#64 := by
    intro zero
    rw [zero] at positive
    exact absurd positive (by decide)
  rw [Taken, Within, time, unixNano_eq hstart, unixNano_eq hstop, unixNano_eq fits,
    and_iff_right nonzero]

/-- After any calls, `Get` answers a range just when what it takes is what is in the range, in one
second that is read as a second. Where all points are kept in such seconds and the range is one of
nanoseconds, that is when no two points in the range have different times. -/
theorem get_answers_iff {maxBytes : Nat} {calls : List Call}
    (ran : (newReadCacheItem maxBytes).addAll calls = some rc) (start stop : Int) :
    (Answers rc start stop ↔ Agreed rc start stop) ∧
      (Representable start → Representable stop →
        (∀ p ∈ rc.retained, 0 < p.t.toInt ∧ p.t.toInt ≤ 2147483647) →
        (Answers rc start stop ↔ ∀ p ∈ rc.retained, ∀ q ∈ rc.retained,
          Within start stop p → Within start stop q → p.t = q.t)) := by
  obtain ⟨rc', cut, ran', traced⟩ := traced_addAll maxBytes calls
  obtain rfl := Option.some.inj (ran.symm.trans ran')
  have iff : Answers rc start stop ↔ Agreed rc start stop :=
    ⟨agreed_of_answers (retained_nonneg traced), answers_of_agreed (retained_nonneg traced)⟩
  refine ⟨iff, fun hstart hstop seconds => iff.trans ⟨fun agreed => agreed.together, fun one => ?_⟩⟩
  refine ⟨fun p mem => ?_, fun p mem _ => (seconds p mem).2, one⟩
  exact taken_iff_within hstart hstop (seconds p mem).1 (seconds p mem).2

/-- An item with a point at ten seconds and one at twenty. -/
def twoPoints : ReadCacheItem :=
  ((newReadCacheItem 100).addAll [single 10#64, single 20#64]).get (by decide)

/-- Of two points, one is in the range. -/
theorem get_answers_iff_one :
    (newReadCacheItem 100).addAll [single 10#64, single 20#64] = some twoPoints ∧
      twoPoints.between 15000000000 30000000000 = [(single 20#64).point] ∧
      Answers twoPoints 15000000000 30000000000 := by
  have ran : (newReadCacheItem 100).addAll [single 10#64, single 20#64] = some twoPoints :=
    (Option.some_get _).symm
  refine ⟨ran, by decide, ?_⟩
  exact ((get_answers_iff ran 15000000000 30000000000).2 ⟨by decide, by decide⟩
    ⟨by decide, by decide⟩ (by decide)).mpr (by decide)

/-- Of two points in the range, the later one is said to be the first and the earlier one the
last. -/
theorem get_turned :
    (newReadCacheItem 100).addAll [single 10#64, single 20#64] = some twoPoints ∧
      twoPoints.between 0 30000000000 = [(single 10#64).point, (single 20#64).point] ∧
      (twoPoints.get 0 30000000000).firsttime = 20000000000 ∧
      (twoPoints.get 0 30000000000).lasttime = 10000000000 ∧
      ¬ Answers twoPoints 0 30000000000 := by
  refine ⟨(Option.some_get _).symm, by decide, by decide, by decide, fun answers => ?_⟩
  have one := (agreed_of_answers (by decide) answers).together (single 10#64).point (by decide)
    (single 20#64).point (by decide) (by decide) (by decide)
  exact absurd one (by decide)

end ReadCache
