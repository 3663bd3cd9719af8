import Cadent.Accumulator.CarbonTwo
import Cadent.Accumulator.Keeping

/-!
# Stats with and without kept keys

Graphite and carbon2 items are found by a name and the time bucket of a line. A kept item has
lost its time, and its name is that of the first line it ever took in. So what a flush returns
for it is what a new item would have given only where that makes no difference; and since the
bucket is part of the key, there is an item for every bucket of a metric that was ever seen.
-/

namespace Accumulator

open Groups Keys Maps Repr

/-! ### Labels and figures -/

namespace GraphiteBaseStatItem

/-- An item without values. -/
def blank (inKey : StatName) (time : Int) : GraphiteBaseStatItem :=
  ⟨inKey, [], time, minFlag, minFlag, 0, minFlag, 0⟩

def relabel (s : GraphiteBaseStatItem) (inKey : StatName) (time : Int) : GraphiteBaseStatItem :=
  { s with inKey := inKey, time := time }

theorem accumulate_relabel (s : GraphiteBaseStatItem) (inKey : StatName) (time : Int)
    (value : Option ℚ) :
    (s.relabel inKey time).accumulate value = (s.accumulate value).relabel inKey time := by
  cases value <;> rfl

/-- What some values amount to, under no name. -/
def figures (vs : List (Option ℚ)) : GraphiteBaseStatItem :=
  vs.foldl accumulate (blank ⟨"", 0#64, "", 0#32, 0#32, .metrics2, .fnv, [], []⟩ 0)

theorem foldl_blank (vs : List (Option ℚ)) (inKey : StatName) (time : Int) :
    vs.foldl accumulate (blank inKey time) = (figures vs).relabel inKey time := by
  induction vs using List.reverseRecOn with
  | nil => rfl
  | append_singleton vs v ih =>
    rw [figures, List.foldl_concat, List.foldl_concat, ih, accumulate_relabel]
    rfl

theorem count_figures (vs : List (Option ℚ)) :
    0 ≤ (figures vs).count ∧ (0 < (figures vs).count ↔ ∃ v ∈ vs, v.isSome) := by
  induction vs using List.reverseRecOn with
  | nil => exact ⟨le_rfl, by decide⟩
  | append_singleton vs v ih =>
    have step : (figures (vs ++ [v])).count = (figures vs).count + if v.isSome then 1 else 0 := by
      rw [figures, List.foldl_concat]
      cases v with
      | none => exact (add_zero _).symm
      | some val => rfl
    obtain ⟨nonneg, iff⟩ := ih
    rw [step]
    cases v with
    | none => simpa using ⟨nonneg, iff⟩
    | some val => exact ⟨by simp; omega, by simp; omega⟩

end GraphiteBaseStatItem

open GraphiteBaseStatItem

/-- A stat with some figures, unless they are empty. -/
def stamp (item : GraphiteBaseStatItem) (name : StatName) (time : BitVec 64) : Option Stat :=
  if 0 < item.count then some { item.repr 0 with name := name, time := time } else none

theorem stamp_eq_some_iff {item : GraphiteBaseStatItem} {name : StatName} {time : BitVec 64}
    {stat : Stat} : stamp item name time = some stat ↔
      0 < item.count ∧ { item.repr 0 with name := name, time := time } = stat := by
  rw [stamp]
  split_ifs with some
  · simp [some]
  · simp [some]

/-! ### Accumulators with buckets -/

section Bucketed

variable {Raw Line : Type}

/-- An accumulator that finds its items by a name and a time bucket. -/
structure Bucketed (K : Kind Raw Line GraphiteBaseStatItem) where
  name : Line → StatName
  bucket : Line → Int
  /-- The part of the key that a name stands for. -/
  text : StatName → String
  value : Line → Option ℚ
  key : ∀ line, K.key line = dashed (text (name line)) (unixNano (bucket line)).toInt
  fresh : ∀ line, K.fresh line = blank (name line) (bucket line)
  accumulate : ∀ item line, K.accumulate item line = item.accumulate (value line)
  zeroOut : K.zeroOut = GraphiteBaseStatItem.zeroOut
  repr : K.repr = GraphiteBaseStatItem.repr

variable {K : Kind Raw Line GraphiteBaseStatItem} (B : Bucketed K)

include B in
theorem Bucketed.clears : Clears K := by
  constructor
  · intro item line
    rw [B.zeroOut, B.accumulate]
    cases B.value line <;> rfl
  · intro item
    rw [B.zeroOut]
    rfl

theorem Bucketed.foldl (lines : List Line) (item : GraphiteBaseStatItem) :
    lines.foldl K.accumulate item =
      (lines.map B.value).foldl GraphiteBaseStatItem.accumulate item := by
  rw [List.foldl_map]
  congr 1
  funext item line
  exact B.accumulate item line

/-- What is shown of a key, for the lines it had before the last flush and since. -/
def Bucketed.shown : List Line → List Line → Option Stat
  | first :: _, lines =>
    stamp (figures (lines.map B.value)) (B.name first) (unixNano (-zeroTime))
  | [], [] => none
  | [], cur :: rest =>
    stamp (figures ((cur :: rest).map B.value)) (B.name cur) (unixNano (B.bucket cur))

/-- The stat of a key, when something was counted. -/
def shownAt (K : Kind Raw Line GraphiteBaseStatItem) (st : Store GraphiteBaseStatItem)
    (key : String) : Option Stat :=
  ((st.item? key).map (K.repr 0)).filter fun stat => 0 < stat.count

variable {keep : Bool} {earlier lines : List Line} {st : Store GraphiteBaseStatItem}

theorem shownAt_eq (held : Held K keep earlier lines st) (key : String) :
    shownAt K st key = B.shown (if keep then group K.key earlier key else [])
      (group K.key lines key) := by
  have stamped : ∀ (item : GraphiteBaseStatItem) (name : StatName) (time : Int),
      (some ((item.relabel name time).repr 0)).filter (fun stat => 0 < stat.count) =
        stamp item name (unixNano time) := by
    intro item name time
    rw [stamp, Option.filter_some]
    split_ifs <;> simp_all [GraphiteBaseStatItem.repr, relabel]
  rw [shownAt, held.items key, B.repr]
  generalize (if keep then group K.key earlier key else []) = before
  generalize group K.key lines key = since
  cases before with
  | nil =>
    cases since with
    | nil => rfl
    | cons cur rest =>
      rw [keptItem, gather, List.head?_cons, Option.map_some, B.foldl, B.fresh, foldl_blank,
        Option.map_some, stamped]
      rfl
  | cons first before =>
    have zeroed : K.zeroOut (K.fresh first) = blank (B.name first) (-zeroTime) := by
      rw [B.zeroOut, B.fresh]
      rfl
    rw [keptItem, zeroed, B.foldl, foldl_blank, Option.map_some, stamped]
    rfl

/-! ### What a flush returns -/

include B in
theorem filter_read (st : Store GraphiteBaseStatItem) (order : List (String × Int)) :
    (st.read K order).filter (fun stat => 0 < stat.count) =
      (order.map Prod.fst).filterMap (shownAt K st) := by
  rw [Store.read, List.filter_filterMap, List.filterMap_map]
  congr 1
  funext e
  obtain ⟨key, now⟩ := e
  have same : K.repr now = K.repr 0 := by
    rw [B.repr]
    rfl
  simp only [shownAt, Function.comp_apply, same]

/-- A key has a value, and was in the map before the last flush. -/
structure Bucketed.Reused (earlier lines : List Line) (key : String) (first cur : Line) : Prop where
  first : (group K.key earlier key).head? = some first
  cur : (group K.key lines key).head? = some cur
  valued : ∃ line ∈ group K.key lines key, (B.value line).isSome

/-- A name or a bucket that comes back after a flush makes no difference to what is shown. -/
def Bucketed.NoReuse (earlier lines : List Line) : Prop :=
  ∀ key first cur, B.Reused earlier lines key first cur →
    B.name first = B.name cur ∧ unixNano (B.bucket cur) = unixNano (-zeroTime)

theorem Bucketed.shown_eq (noReuse : B.NoReuse earlier lines) (key : String) :
    B.shown (group K.key earlier key) (group K.key lines key) =
      B.shown [] (group K.key lines key) := by
  cases before : group K.key earlier key with
  | nil => rfl
  | cons first before' =>
    cases since : group K.key lines key with
    | nil => rfl
    | cons cur rest =>
      rw [Bucketed.shown, Bucketed.shown]
      by_cases some : ∃ line ∈ cur :: rest, (B.value line).isSome
      · obtain ⟨name, time⟩ := noReuse key first cur
          ⟨by rw [before]; rfl, by rw [since]; rfl, since ▸ some⟩
        rw [name, time]
      · have none : ¬ 0 < (figures ((cur :: rest).map B.value)).count := by
          rw [(count_figures _).2]
          rintro ⟨v, mem, here⟩
          obtain ⟨line, mem', rfl⟩ := List.mem_map.mp mem
          exact some ⟨line, mem', here⟩
        rw [stamp, stamp, if_neg none, if_neg none]

theorem count_pos_iff (lines : List Line) :
    0 < (figures (lines.map B.value)).count ↔ ∃ line ∈ lines, (B.value line).isSome := by
  rw [(count_figures _).2]
  simp

variable {B} in
theorem Bucketed.Reused.shown {key : String} {first cur : Line}
    (reused : B.Reused earlier lines key first cur) :
    ∃ stat, B.shown [] (group K.key lines key) = some stat ∧ stat.name = B.name cur ∧
      stat.time = unixNano (B.bucket cur) := by
  obtain ⟨rest, since⟩ := List.head?_eq_some_iff.mp reused.cur
  have pos := (count_pos_iff B _).mpr reused.valued
  rw [since] at pos ⊢
  exact ⟨_, stamp_eq_some_iff.mpr ⟨pos, rfl⟩, rfl, rfl⟩

/-- Where a stat that is shown has its label from. -/
theorem Bucketed.shown_cases {before since : List Line} {stat : Stat}
    (here : B.shown before since = some stat) :
    (∃ line ∈ since, (B.value line).isSome) ∧
    ((∃ first, before.head? = some first ∧ B.name first = stat.name ∧
        unixNano (-zeroTime) = stat.time) ∨
      before = [] ∧ ∃ cur, since.head? = some cur ∧ B.name cur = stat.name ∧
        unixNano (B.bucket cur) = stat.time) := by
  cases before with
  | cons first before =>
    obtain ⟨pos, rfl⟩ := stamp_eq_some_iff.mp here
    exact ⟨(count_pos_iff B _).mp pos, .inl ⟨first, rfl, rfl, rfl⟩⟩
  | nil =>
    cases since with
    | nil => cases here
    | cons cur rest =>
      obtain ⟨pos, rfl⟩ := stamp_eq_some_iff.mp here
      exact ⟨(count_pos_iff B _).mp pos, .inr ⟨rfl, cur, rfl, rfl, rfl⟩⟩

theorem key_of_head {key : String} {line : Line}
    (head : (group K.key lines key).head? = some line) :
    K.key line = key :=
  (mem_group.mp (List.mem_of_mem_head? head)).2

section Necessary

variable (all : ∀ key stat, B.shown [] (group K.key lines key) = some stat →
  ∃ key', B.shown (group K.key earlier key') (group K.key lines key') = some stat)

variable {B}

include all in
/-- What is shown with kept keys for a key that came back is shown for a key that came back. -/
theorem Bucketed.Reused.match {key : String} {first cur : Line}
    (reused : B.Reused earlier lines key first cur) :
    unixNano (B.bucket cur) = unixNano (-zeroTime) ∧
      ∃ key' first' cur', B.Reused earlier lines key' first' cur' ∧ B.name first' = B.name cur := by
  obtain ⟨stat, shown, name, time⟩ := reused.shown
  obtain ⟨key', here⟩ := all key stat shown
  obtain ⟨counted, old | ⟨none, cur', head, name', time'⟩⟩ := B.shown_cases here
  · obtain ⟨first', head, name', time'⟩ := old
    have ⟨line, mem, _⟩ := counted
    obtain ⟨cur', rest, since⟩ := List.exists_cons_of_ne_nil (List.ne_nil_of_mem mem)
    have head' : (group K.key lines key').head? = some cur' := by
      rw [since]
      rfl
    exact ⟨time.symm.trans time'.symm, key', first', cur', ⟨head, head', counted⟩, name'.trans name⟩
  · -- the label of a new item leads to the same key
    have same : key' = key := by
      rw [← key_of_head head, ← key_of_head reused.cur, B.key, B.key, name', time', name, time]
    rw [same] at none
    exact absurd reused.first (by rw [none]; nofun)

include all in
theorem Bucketed.Reused.name {key : String} {first cur : Line}
    (reused : B.Reused earlier lines key first cur) : B.name first = B.name cur := by
  have negative : (unixNano (-zeroTime)).toInt < 0 := by decide
  -- on the length of the name: it may only be told by a key whose name is shorter by a dash
  induction length : (B.text (B.name cur)).length using Nat.strong_induction_on
    generalizing key first cur with
  | _ n ih =>
    obtain ⟨time, key', first', cur', reused', name⟩ := reused.match all
    obtain ⟨time', -⟩ := reused'.match all
    have keys : dashed (B.text (B.name cur)) (unixNano (B.bucket first')).toInt =
        dashed (B.text (B.name cur')) (unixNano (-zeroTime)).toInt := by
      rw [← name, ← time', ← B.key, ← B.key, key_of_head reused'.first, key_of_head reused'.cur]
    rcases dashed_eq_iff.mp keys with ⟨text, -⟩ | ⟨-, -, text⟩ | ⟨less, eq, -⟩
    · have same : key' = key := by
        rw [← key_of_head reused'.cur, ← key_of_head reused.cur, B.key, B.key, time, time', text]
      subst same
      rw [← name, Option.some.inj (reused.first.symm.trans reused'.first)]
    · have shorter : (B.text (B.name cur')).length < n := by
        rw [← length, text, String.length_append]
        exact Nat.lt_add_of_pos_right (by decide)
      have same := ih _ shorter reused' rfl
      rw [name] at same
      rw [← same] at shorter
      exact absurd length shorter.ne
    · omega

include all in
/-- When all that is shown without kept keys is shown with them, no name or bucket came back. -/
theorem Bucketed.noReuse_of_shown : B.NoReuse earlier lines :=
  fun _ _ _ reused => ⟨reused.name all, (reused.match all).1⟩

end Necessary

/-! ### One flush in both modes -/

theorem filterMap_perm {κ β : Type} [DecidableEq κ] {f : κ → Option β} {keys keys' : List κ}
    (nodup : keys.Nodup) (nodup' : keys'.Nodup)
    (listed : ∀ k, (f k).isSome → k ∈ keys ∧ k ∈ keys') :
    (keys.filterMap f).Perm (keys'.filterMap f) := by
  have only : ∀ l : List κ, l.filterMap f = (l.filter fun k => (f k).isSome).filterMap f := by
    intro l
    rw [List.filterMap_filter]
    refine List.filterMap_congr fun k _ => ?_
    cases f k <;> rfl
  rw [only keys, only keys']
  apply List.Perm.filterMap
  rw [List.perm_ext_iff_of_nodup (nodup.filter _) (nodup'.filter _)]
  intro k
  simp only [List.mem_filter, and_congr_left_iff]
  exact fun here => ⟨fun _ => (listed k here).2, fun _ => (listed k here).1⟩

theorem shownAt_listed (sound : st.Sound) {key : String} (here : (shownAt K st key).isSome) :
    key ∈ st.stats.keys := by
  rw [← item?_isSome_iff sound]
  cases item : st.item? key with
  | none =>
    rw [shownAt, item] at here
    cases here
  | some _ => rfl

/-- The lines of some events. -/
def eventLines (K : Kind Raw Line GraphiteBaseStatItem) (events : List (Event Raw)) : List Line :=
  events.flatMap fun
    | .line raw => (K.parse raw).toOption.toList
    | .flushList => []

theorem beforeFlush_append_sinceFlush (events : List (Event Raw)) (earlier lines : List Line) :
    beforeFlush K earlier lines events ++ sinceFlush K lines events =
      earlier ++ lines ++ eventLines K events := by
  induction events generalizing earlier lines with
  | nil => simp [beforeFlush, sinceFlush, eventLines]
  | cons event events ih =>
    cases event with
    | line raw | flushList => simp [beforeFlush, sinceFlush, ih, eventLines]

/-- The metric that a name is the name of. -/
def metric (name : StatName) : String × List Tag := (name.key, name.tags)

/-- The stats of the next flush that count something are the same whether the keys are kept or not,
and no more items are kept than there are metrics. -/
structure Bucketed.FlushAgrees (events : List (Event Raw))
    (kept dropped : Store GraphiteBaseStatItem) :
    Prop where
  keeping : serveWith K true .empty events = .ok kept
  dropping : serveWith K false .empty events = .ok dropped
  stats : ∀ order order' : List (String × Int), (order.map Prod.fst).Perm kept.stats.keys →
    (order'.map Prod.fst).Perm dropped.stats.keys →
    ((kept.flushList K true order).1.filter fun stat => 0 < stat.count).Perm
      ((dropped.flushList K false order').1.filter fun stat => 0 < stat.count)
  items : ∀ order, (kept.flushList K true order).2.stats.keys.length ≤
    ((eventLines K events).map fun line => metric (B.name line)).dedup.length

theorem Held.length_keys (held : Held K true earlier lines st) :
    st.stats.keys.length = ((earlier ++ lines).map K.key).dedup.length := by
  refine List.Perm.length_eq ?_
  rw [List.perm_ext_iff_of_nodup st.stats.keys_nodup (List.nodup_dedup _)]
  intro key
  rw [← item?_isSome_iff held.sound, held.items key, if_pos rfl, keptItem_isSome_iff,
    List.mem_dedup,
    List.mem_map]
  simp only [List.mem_append, mem_group]
  constructor
  · rintro ⟨line, ⟨mem, same⟩ | ⟨mem, same⟩⟩
    · exact ⟨line, .inl mem, same⟩
    · exact ⟨line, .inr mem, same⟩
  · rintro ⟨line, mem | mem, same⟩
    · exact ⟨line, .inl ⟨mem, same⟩⟩
    · exact ⟨line, .inr ⟨mem, same⟩⟩

theorem Held.perm_iff {kept dropped : Store GraphiteBaseStatItem}
    (held : Held K true earlier lines kept) (held' : Held K false earlier lines dropped) :
    (∀ order order' : List (String × Int), (order.map Prod.fst).Perm kept.stats.keys →
      (order'.map Prod.fst).Perm dropped.stats.keys →
      ((kept.flushList K true order).1.filter fun stat => 0 < stat.count).Perm
        ((dropped.flushList K false order').1.filter fun stat => 0 < stat.count)) ↔
      B.NoReuse earlier lines := by
  have inKept : ∀ key, shownAt K kept key =
      B.shown (group K.key earlier key) (group K.key lines key) := shownAt_eq B held
  have inDropped : ∀ key, shownAt K dropped key = B.shown [] (group K.key lines key) :=
    shownAt_eq B held'
  simp only [Store.flushList, filter_read B]
  constructor
  · intro perm
    apply Bucketed.noReuse_of_shown
    intro key stat here
    have some : shownAt K dropped key = some stat := (inDropped key).trans here
    have listed := shownAt_listed held'.sound (by rw [some]; rfl)
    have firsts : ∀ keys : List String,
        (keys.map fun key => (key, (0 : Int))).map Prod.fst = keys :=
      fun keys => by rw [List.map_map]; exact List.map_id keys
    have perm' := perm (kept.stats.keys.map (·, 0)) (dropped.stats.keys.map (·, 0))
      (by rw [firsts]) (by rw [firsts])
    rw [firsts, firsts] at perm'
    obtain ⟨key', -, here'⟩ := List.mem_filterMap.mp
      (perm'.mem_iff.mpr (List.mem_filterMap.mpr ⟨key, listed, some⟩))
    exact ⟨key', (inKept key').symm.trans here'⟩
  · intro noReuse order order' keys keys'
    have same : shownAt K kept = shownAt K dropped := by
      funext key
      rw [inKept, inDropped, B.shown_eq noReuse]
    rw [same]
    refine filterMap_perm (keys.nodup_iff.mpr kept.stats.keys_nodup)
      (keys'.nodup_iff.mpr dropped.stats.keys_nodup) fun key here => ⟨?_, ?_⟩
    · exact keys.mem_iff.mpr (shownAt_listed held.sound (by rwa [same]))
    · exact keys'.mem_iff.mpr (shownAt_listed held'.sound here)

/-- Nothing came back that shows, and the lines have no more keys in the map than metrics. -/
structure Bucketed.Apart (events : List (Event Raw)) : Prop where
  noReuse : B.NoReuse (beforeFlush K [] [] events) (sinceFlush K [] events)
  few : ((eventLines K events).map K.key).dedup.length ≤
    ((eventLines K events).map fun line => metric (B.name line)).dedup.length

theorem Bucketed.flushAgrees_iff {events : List (Event Raw)}
    (wellFormed : ∀ raw, .line raw ∈ events → (K.parse raw).toOption.isSome) :
    (∃ kept dropped, B.FlushAgrees events kept dropped) ↔ B.Apart events := by
  have start : ∀ keep, Held K keep [] [] .empty := fun _ => held_empty
  obtain ⟨kept, served, held⟩ := serveWith_held B.clears (start true) wellFormed
  obtain ⟨dropped, served', held'⟩ := serveWith_held B.clears (start false) wellFormed
  have count : ∀ order, (kept.flushList K true order).2.stats.keys.length =
      ((eventLines K events).map K.key).dedup.length := by
    intro order
    have keys := held.length_keys
    rwa [beforeFlush_append_sinceFlush] at keys
  constructor
  · rintro ⟨_, _, agrees⟩
    obtain rfl := Except.ok.inj (agrees.keeping.symm.trans served)
    obtain rfl := Except.ok.inj (agrees.dropping.symm.trans served')
    exact ⟨(held.perm_iff B held').mp agrees.stats, count [] ▸ agrees.items []⟩
  · rintro ⟨noReuse, few⟩
    exact ⟨kept, dropped, served, served', (held.perm_iff B held').mpr noReuse,
      fun order => (count order).symm ▸ few⟩

variable {B} in
theorem Bucketed.noReuse_of_ne
    (apart : ∀ line ∈ earlier, ∀ line' ∈ lines, K.key line ≠ K.key line') :
    B.NoReuse earlier lines := by
  intro key first cur reused
  have first_mem := (mem_group.mp (List.mem_of_mem_head? reused.first)).1
  have cur_mem := (mem_group.mp (List.mem_of_mem_head? reused.cur)).1
  exact absurd ((key_of_head reused.first).trans (key_of_head reused.cur).symm)
    (apart first first_mem cur cur_mem)

end Bucketed

/-! ### Graphite and carbon2 -/

variable (env : Naming) (parseFloat : String → Option Parsed)

def graphiteBuckets (a : GraphiteAccumulate) : Bucketed (a.kind env parseFloat) where
  name line := (a.fresh line).inKey
  bucket line := truncate line.time a.resolution
  text name := name.key ++ toStringSep name.tags "." "."
  value line := line.value
  key _ := rfl
  fresh _ := rfl
  accumulate _ _ := rfl
  zeroOut := rfl
  repr := rfl

def carbonTwoBuckets (a : CarbonTwoAccumulate) : Bucketed (a.kind env parseFloat) where
  name line := (a.fresh line).inKey
  bucket line := truncate line.time a.resolution
  text name := name.key
  value line := line.value
  key _ := rfl
  fresh _ := rfl
  accumulate _ _ := rfl
  zeroOut := rfl
  repr := rfl

/-- After any lines and flushes, the next flush returns the same stats that count something with
kept keys as without, and keeps no more items than there are metrics, just when no metric has a
value in a bucket that it had a line in before the last flush, up to the bucket of the zero time,
and the lines have no more buckets than metrics. -/
theorem keepKeys_iff :
    (∀ (a : GraphiteAccumulate) (events : List (Event (String × Int))), 0 < a.resolution →
      (∀ raw, .line raw ∈ events → ((a.kind env parseFloat).parse raw).toOption.isSome) →
      ((∃ kept dropped, (graphiteBuckets env parseFloat a).FlushAgrees events kept dropped) ↔
        (graphiteBuckets env parseFloat a).Apart events)) ∧
    ∀ (a : CarbonTwoAccumulate) (events : List (Event (String × Int))), 0 < a.resolution →
      (∀ raw, .line raw ∈ events → ((a.kind env parseFloat).parse raw).toOption.isSome) →
      ((∃ kept dropped, (carbonTwoBuckets env parseFloat a).FlushAgrees events kept dropped) ↔
        (carbonTwoBuckets env parseFloat a).Apart events) := by
  constructor
  · intro a events _ wellFormed
    exact Bucketed.flushAgrees_iff _ wellFormed
  · intro a events _ wellFormed
    exact Bucketed.flushAgrees_iff _ wellFormed

def tenSecondGraphite : GraphiteAccumulate := ⟨10000000000, .metrics2, .fnv⟩

def tenSecondCarbonTwo : CarbonTwoAccumulate := ⟨10000000000, .metrics2, .fnv⟩

theorem wellFormed_of_all {Raw Line Item : Type} {K : Kind Raw Line Item}
    {events : List (Event Raw)} (all : events.all fun
      | .line raw => (K.parse raw).toOption.isSome
      | .flushList => true) :
    ∀ raw, .line raw ∈ events → (K.parse raw).toOption.isSome :=
  fun _ mem => List.all_eq_true.mp all _ mem

theorem keepKeys_iff_apart :
    (∃ kept dropped, (graphiteBuckets plainNaming wholeNumber tenSecondGraphite).FlushAgrees
      [.line ("a 5 10", 0), .line ("a 7 12", 0), .flushList, .line ("b 3 11", 0)] kept dropped) ∧
    ∃ kept dropped, (carbonTwoBuckets plainNaming wholeNumber tenSecondCarbonTwo).FlushAgrees
      [.line ("mtype=count unit=B  5 10", 0), .flushList, .line ("mtype=rate unit=B  3 11", 0)]
      kept dropped := by
  constructor
  · exact ((keepKeys_iff plainNaming wholeNumber).1 tenSecondGraphite _ (by decide)
      (wellFormed_of_all (by decide +kernel))).mpr
        ⟨Bucketed.noReuse_of_ne (by decide +kernel), by decide +kernel⟩
  · exact ((keepKeys_iff plainNaming wholeNumber).2 tenSecondCarbonTwo _ (by decide)
      (wellFormed_of_all (by decide +kernel))).mpr
        ⟨Bucketed.noReuse_of_ne (by decide +kernel), by decide +kernel⟩

/-- A metric with a second line in its bucket, which is shown at the zero time, and a metric with
two buckets, which are both kept. -/
theorem keepKeys_differ :
    (¬ ∃ kept dropped, (graphiteBuckets plainNaming wholeNumber tenSecondGraphite).FlushAgrees
      [.line ("a 5 10", 0), .flushList, .line ("a 7 12", 0)] kept dropped) ∧
    ¬ ∃ kept dropped, (graphiteBuckets plainNaming wholeNumber tenSecondGraphite).FlushAgrees
      [.line ("a 5 10", 0), .flushList, .line ("a 7 20", 0)] kept dropped := by
  constructor
  · rintro ⟨kept, dropped, agrees⟩
    have apart := (Bucketed.flushAgrees_iff _ (wellFormed_of_all (by decide +kernel))).mp
      ⟨kept, dropped, agrees⟩
    have back := apart.noReuse "a-10000000000" ⟨"a", [], [], 10000000000, some 5⟩
      ⟨"a", [], [], 12000000000, some 7⟩ ⟨by decide +kernel, by decide +kernel,
        ⟨"a", [], [], 12000000000, some 7⟩, by decide +kernel, rfl⟩
    exact absurd back.2 (by decide +kernel)
  · rintro ⟨kept, dropped, agrees⟩
    have apart := (Bucketed.flushAgrees_iff _ (wellFormed_of_all (by decide +kernel))).mp
      ⟨kept, dropped, agrees⟩
    exact absurd apart.few (by decide +kernel)

end Accumulator
