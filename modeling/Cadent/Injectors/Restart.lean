import Cadent.Injectors.Offsets

/-!
# Restart of a partition consumer

`startConsume` with the starting offset "oldest": the commit topic is replayed into the offset
map, the smallest offset of the map is where the consumption of the data topic starts, and
messages below the offset of their own uid are skipped. The broker answers without errors other
than a requested offset that is out of range; there is no local database of marks. Messages are
decoded, and of a metric only the uid is kept.

The commit topic is read from the oldest offset of the data topic on, where it has that offset,
and reading ends at a tick of a clock when at most one message is left after the last one read.
-/

namespace Injectors

open Maps

/-- A partition of a topic: the oldest offset that is retained, the offset of the next message,
and the messages with their offsets. -/
structure Topic (α : Type) where
  oldest : Int
  newest : Int
  messages : List (Int × α)
  ordered : (messages.map Prod.fst).Pairwise (· < ·)
  retained : ∀ m ∈ messages, oldest ≤ m.1 ∧ m.1 < newest

/-- What a consumer that starts at an offset gets; `none` when the offset is out of range. -/
def Topic.consumePartition {α : Type} (t : Topic α) (offset : Int) : Option (List (Int × α)) :=
  if t.oldest ≤ offset ∧ offset ≤ t.newest then
    some (t.messages.filter fun m => offset ≤ m.1)
  else none

structure KWrittenMessage where
  uid : String
  topic : String
  partition : Int
  offset : Int
  writeTime : Int
  deriving DecidableEq

/-- A partition consumer. -/
structure KafkaPartition where
  topic : String
  partition : Int

/-- One message of the commit topic. -/
def replayMark (o : OffsetMap) (conv : KWrittenMessage) : OffsetMap :=
  if conv.offset > 0 then
    o.addIfBigger ⟨conv.uid, conv.topic, conv.partition, conv.offset, conv.writeTime⟩
  else o

section Start

variable (kf : KafkaPartition) (data : Topic String) (commit : Topic KWrittenMessage)

/-- The messages of the commit topic that its consumer gets. -/
def commitLog : List (Int × KWrittenMessage) :=
  match commit.consumePartition data.oldest with
  | some log => log
  | none => commit.messages

/-- The offset of the last message that the consumer of the commit topic gets. -/
def readTo : Int := ((commitLog data commit).getLast?.map Prod.fst).getD commit.oldest

/-- The marks that `getLatestOffsetsCommitted` reads before it returns; `none` when it does not.
With one message or none in the topic the first tick may come before a message does. -/
def committed (tickFirst : Bool) : Option (List KWrittenMessage) :=
  if tickFirst ∧ commit.newest - commit.oldest ≤ 1 then some []
  else if commit.newest - readTo data commit ≤ 1 then some ((commitLog data commit).map Prod.snd)
  else none

def getLatestOffsetsCommitted (tickFirst : Bool) : Option OffsetMap :=
  (committed data commit tickFirst).map (·.foldl replayMark ∅)

/-- Where the consumption of the data topic starts. -/
def useOffset (offsets : OffsetMap) : Int :=
  let minOffset := offsets.partitionMinOffset kf.topic kf.partition
  let use := if minOffset > 0 then minOffset else data.oldest
  if data.oldest > use then data.oldest else use

/-- The messages that `onConsumePartition` hands to `DoWorkReprOffset`; `none` when there is no
consumer for the offset. -/
def handed (offsets : OffsetMap) : Option (List (Int × String)) :=
  (data.consumePartition (useOffset kf data offsets)).map fun messages =>
    messages.filter fun msg => !offsets.isLower msg.2 msg.1

def startConsume (tickFirst : Bool) : Option (List (Int × String)) :=
  (getLatestOffsetsCommitted data commit tickFirst).bind (handed kf data)

end Start

/-! ### What has to be handed on -/

/-- No mark of its own uid covers the message. -/
def Uncovered (commit : Topic KWrittenMessage) (msg : Int × String) : Prop :=
  ∀ mark ∈ commit.messages, mark.2.uid = msg.2 → mark.2.offset < msg.1

instance (commit : Topic KWrittenMessage) (msg : Int × String) : Decidable (Uncovered commit msg) :=
  inferInstanceAs (Decidable (∀ mark ∈ commit.messages, mark.2.uid = msg.2 → mark.2.offset < msg.1))

/-- The offset of the last mark of a uid. -/
def lastMark (marks : List KWrittenMessage) (uid : String) : Option Int :=
  (marks.filter (·.uid = uid)).getLast?.map KWrittenMessage.offset

/-- There are no marks, or the message is not before the last mark of every uid. -/
def AfterSome (marks : List KWrittenMessage) (msg : Int × String) : Prop :=
  marks = [] ∨ ∃ uid offset, lastMark marks uid = some offset ∧ offset ≤ msg.1

/-- The consumer of the commit topic comes to its end, and the message is not before the last
mark that it gets of every uid. -/
def Reached (data : Topic String) (commit : Topic KWrittenMessage) (msg : Int × String) : Prop :=
  commit.newest - readTo data commit ≤ 1 ∧
    AfterSome ((commitLog data commit).map Prod.snd) msg

/-- A mark of the partition, with an offset. -/
def OwnMark (kf : KafkaPartition) (mark : KWrittenMessage) : Prop :=
  mark.topic = kf.topic ∧ mark.partition = kf.partition ∧ 0 < mark.offset

instance (kf : KafkaPartition) (mark : KWrittenMessage) : Decidable (OwnMark kf mark) :=
  inferInstanceAs (Decidable (_ ∧ _ ∧ _))

/-! ### The replay -/

theorem lastMark_concat (marks : List KWrittenMessage) (mark : KWrittenMessage) (uid : String) :
    lastMark (marks ++ [mark]) uid =
      if uid = mark.uid then some mark.offset else lastMark marks uid := by
  rw [lastMark, List.filter_append]
  by_cases same : uid = mark.uid
  · simp [same]
  · simp [same, Ne.symm same, lastMark]

variable {kf : KafkaPartition} {data : Topic String} {commit : Topic KWrittenMessage}
  {marks : List KWrittenMessage} {msg : Int × String}

/-- The replay leaves the last mark of every uid. -/
theorem stored_replay (own : ∀ mark ∈ marks, OwnMark kf mark) (uid : String) :
    OffsetMap.stored (marks.foldl replayMark ∅) uid = lastMark marks uid := by
  induction marks using List.reverseRecOn with
  | nil => rfl
  | append_singleton marks mark ih =>
    obtain ⟨earlier, last⟩ := List.forall_mem_append.mp own
    have positive := (last mark List.mem_cons_self).2.2
    rw [List.foldl_append, List.foldl_cons, List.foldl_nil, replayMark, if_pos positive,
      OffsetMap.stored_addIfBigger, lastMark_concat, ih earlier]

/-- A marker of the partition, with an offset. -/
def OwnMarker (kf : KafkaPartition) (omark : OffsetMarker) : Prop :=
  omark.topic = kf.topic ∧ omark.partition = kf.partition ∧ 0 < omark.offset

theorem own_addIfBigger {o : OffsetMap} {omark : OffsetMarker}
    (own : ∀ id m, o.lookup id = some m → OwnMarker kf m) (new : OwnMarker kf omark) :
    ∀ id m, (o.addIfBigger omark).lookup id = some m → OwnMarker kf m := by
  intro id m found
  rw [OffsetMap.addIfBigger] at found
  split at found
  next item held =>
    split_ifs at found
    · rw [lookup_insert] at found
      split_ifs at found
      · cases found
        exact ⟨(own _ _ held).1, (own _ _ held).2.1, new.2.2⟩
      · exact own id m found
    · rw [lookup_insert] at found
      split_ifs at found
      · cases found
        exact new
      · exact own id m found
  next =>
    rw [lookup_insert] at found
    split_ifs at found
    · cases found
      exact new
    · exact own id m found

theorem own_replay (own : ∀ mark ∈ marks, OwnMark kf mark) :
    ∀ id m, (marks.foldl replayMark ∅ : OffsetMap).lookup id = some m → OwnMarker kf m := by
  induction marks using List.reverseRecOn with
  | nil => exact nofun
  | append_singleton marks mark ih =>
    obtain ⟨earlier, last⟩ := List.forall_mem_append.mp own
    have new := last mark List.mem_cons_self
    rw [List.foldl_append, List.foldl_cons, List.foldl_nil, replayMark, if_pos new.2.2]
    exact own_addIfBigger (ih earlier) new

/-! ### The start -/

/-- Of markers of the partition the loop takes the smallest offset. -/
theorem min_fold (l : List ((_ : String) × OffsetMarker)) (own : ∀ e ∈ l, OwnMarker kf e.2) :
    let r := l.foldl (fun minO e => OffsetMap.minStep kf.topic kf.partition minO e.2) (-2)
    l = [] ∧ r = -2 ∨ 0 < r ∧ (∃ e ∈ l, e.2.offset = r) ∧ ∀ e ∈ l, r ≤ e.2.offset := by
  induction l using List.reverseRecOn with
  | nil => exact .inl ⟨rfl, rfl⟩
  | append_singleton l e ih =>
    obtain ⟨earlier, last⟩ := List.forall_mem_append.mp own
    obtain ⟨topic, partition, positive⟩ := last e List.mem_cons_self
    have smaller := ih earlier
    dsimp only at smaller ⊢
    rw [List.foldl_append, List.foldl_cons, List.foldl_nil]
    generalize l.foldl (fun minO e => OffsetMap.minStep kf.topic kf.partition minO e.2) (-2) = r
      at smaller ⊢
    rw [OffsetMap.minStep, if_pos ⟨partition, topic⟩]
    have here : e ∈ l ++ [e] := List.mem_append_right _ List.mem_cons_self
    refine .inr ?_
    rw [List.forall_mem_append, List.forall_mem_singleton]
    rcases smaller with ⟨rfl, rfl⟩ | ⟨found, ⟨e', mem, same⟩, least⟩
    · rw [if_pos ⟨.inl rfl, positive⟩]
      exact ⟨positive, ⟨e, here, rfl⟩, nofun, Int.le_refl _⟩
    · split_ifs with lower
      · have below : ∀ e'' ∈ l, e.2.offset ≤ e''.2.offset := by
          intro e'' mem''
          have := least e'' mem''
          omega
        exact ⟨positive, ⟨e, here, rfl⟩, below, Int.le_refl _⟩
      · exact ⟨found, ⟨e', List.mem_append_left _ mem, same⟩, least, by omega⟩

theorem minOffset_spec {o : OffsetMap} (own : ∀ id m, o.lookup id = some m → OwnMarker kf m) :
    let r := o.partitionMinOffset kf.topic kf.partition
    (∀ id, OffsetMap.stored o id = none) ∧ r = -2 ∨
      0 < r ∧ (∃ id, OffsetMap.stored o id = some r) ∧
        ∀ id x, OffsetMap.stored o id = some x → r ≤ x := by
  have markers : ∀ e ∈ o.entries, OwnMarker kf e.2 := fun e mem =>
    own e.1 e.2 (mem_entries_iff.mp mem)
  rcases min_fold o.entries markers with ⟨empty, none_⟩ | ⟨found, ⟨e, mem, same⟩, least⟩
  · refine .inl ⟨?_, none_⟩
    intro id
    rw [OffsetMap.stored, Option.map_eq_none_iff, Option.eq_none_iff_forall_ne_some]
    intro m held
    have mem := mem_entries_iff.mpr held
    rw [empty] at mem
    cases mem
  · refine .inr ⟨found, ⟨e.1, ?_⟩, ?_⟩
    · rw [OffsetMap.stored, mem_entries_iff.mp mem, Option.map_some, same]
      rfl
    · intro id x held
      obtain ⟨m, lookup, rfl⟩ := Option.map_eq_some_iff.mp held
      exact least ⟨id, m⟩ (mem_entries_iff.mpr lookup)

theorem lastMark_mem {uid : String} {offset : Int} (last : lastMark marks uid = some offset) :
    ∃ mark ∈ marks, mark.uid = uid ∧ mark.offset = offset := by
  obtain ⟨mark, found, rfl⟩ := Option.map_eq_some_iff.mp last
  have mem := List.mem_of_getLast? found
  rw [List.mem_filter, decide_eq_true_eq] at mem
  exact ⟨mark, mem.1, mem.2, rfl⟩

theorem lastMark_eq_none (none_ : ∀ uid, lastMark marks uid = none) : marks = [] := by
  rcases List.eq_nil_or_concat marks with rfl | ⟨front, mark, rfl⟩
  · rfl
  · have last := none_ mark.uid
    rw [List.concat_eq_append, lastMark_concat, if_pos rfl] at last
    cases last

/-- After the replay of some marks exactly the messages that are not before the last mark of
every uid are handed on, of those that no mark covers. -/
theorem handed_iff (own : ∀ mark ∈ marks, OwnMark kf mark) (mem : msg ∈ data.messages)
    (uncovered : ∀ mark ∈ marks, mark.uid = msg.2 → mark.offset < msg.1) :
    (∃ l, handed kf data (marks.foldl replayMark ∅) = some l ∧ msg ∈ l) ↔ AfterSome marks msg := by
  have stored := stored_replay own
  have retained := data.retained msg mem
  generalize replayed : (marks.foldl replayMark ∅ : OffsetMap) = o at stored ⊢
  have kept : o.isLower msg.2 msg.1 = false := by
    rw [Bool.eq_false_iff]
    intro lower
    obtain ⟨x, held, below⟩ := OffsetMap.isLower_iff.mp lower
    rw [stored] at held
    obtain ⟨mark, markMem, uid, rfl⟩ := lastMark_mem held
    exact absurd (uncovered mark markMem uid) (by omega)
  have started : (∃ l, handed kf data o = some l ∧ msg ∈ l) ↔ useOffset kf data o ≤ msg.1 := by
    have above : data.oldest ≤ useOffset kf data o := by
      rw [useOffset]
      split_ifs <;> omega
    rw [handed, Topic.consumePartition]
    constructor
    · rintro ⟨l, found, member⟩
      split_ifs at found
      · cases found
        rw [List.mem_filter, List.mem_filter, decide_eq_true_eq] at member
        exact member.1.2
      · cases found
    · intro reached
      rw [if_pos ⟨above, by omega⟩]
      refine ⟨_, rfl, ?_⟩
      rw [List.mem_filter, List.mem_filter, decide_eq_true_eq, kept]
      exact ⟨⟨mem, reached⟩, rfl⟩
  rw [started, useOffset, AfterSome]
  rcases minOffset_spec (replayed ▸ own_replay own) with ⟨empty, none_⟩ | ⟨found, ⟨id, held⟩, least⟩
  · have no : marks = [] := lastMark_eq_none fun uid => (stored uid).symm.trans (empty uid)
    rw [none_]
    simp only [no, true_or, iff_true]
    split_ifs <;> omega
  · rw [if_pos found]
    constructor
    · intro reached
      refine .inr ⟨id, _, (stored id).symm.trans held, ?_⟩
      split_ifs at reached <;> omega
    · rintro (rfl | ⟨uid, offset, last, before⟩)
      · cases (stored id).symm.trans held
      · have := least uid offset ((stored uid).trans last)
        split_ifs <;> omega

/-! ### Restart -/

theorem commitLog_subset (mark : Int × KWrittenMessage) (mem : mark ∈ commitLog data commit) :
    mark ∈ commit.messages := by
  rw [commitLog, Topic.consumePartition] at mem
  split_ifs at mem
  · exact (List.mem_filter.mp mem).1
  · exact mem

/-- A restarted consumer hands on every message that no mark of its own uid covers if and only if
each of them is reached: the consumer of the commit topic comes to its end, and the message is
not before the last mark that it gets of every uid. -/
theorem restart_recovers (kf : KafkaPartition) (data : Topic String)
    (commit : Topic KWrittenMessage) (own : ∀ mark ∈ commit.messages, OwnMark kf mark.2) :
    (∀ tickFirst, ∀ msg ∈ data.messages, Uncovered commit msg →
      ∃ l, startConsume kf data commit tickFirst = some l ∧ msg ∈ l) ↔
    ∀ msg ∈ data.messages, Uncovered commit msg → Reached data commit msg := by
  have ownLog : ∀ mark ∈ (commitLog data commit).map Prod.snd, OwnMark kf mark := by
    intro mark mem
    obtain ⟨e, listed, rfl⟩ := List.mem_map.mp mem
    exact own e (commitLog_subset e listed)
  have uncoveredLog : ∀ msg, Uncovered commit msg →
      ∀ mark ∈ (commitLog data commit).map Prod.snd, mark.uid = msg.2 → mark.offset < msg.1 := by
    intro msg uncovered mark mem
    obtain ⟨e, listed, rfl⟩ := List.mem_map.mp mem
    exact uncovered e (commitLog_subset e listed)
  constructor
  · intro all msg mem uncovered
    obtain ⟨l, started, member⟩ := all false msg mem uncovered
    rw [startConsume, getLatestOffsetsCommitted, committed, if_neg (by simp)] at started
    split_ifs at started with ends
    swap
    · cases started
    exact ⟨ends, (handed_iff ownLog mem (uncoveredLog msg uncovered)).mp ⟨l, started, member⟩⟩
  · intro reached tickFirst msg mem uncovered
    obtain ⟨ends, after⟩ := reached msg mem uncovered
    rw [startConsume, getLatestOffsetsCommitted, committed]
    split_ifs with early
    · have noMarks : ∀ mark ∈ ([] : List KWrittenMessage), OwnMark kf mark := nofun
      exact (handed_iff noMarks mem nofun).mpr (.inl rfl)
    · exact (handed_iff ownLog mem (uncoveredLog msg uncovered)).mpr after

def partitionT : KafkaPartition := ⟨"t", 0⟩

/-- A data topic with one message of each of two uids. -/
def twoUids (oldest : Int) (retained : oldest ≤ 3) : Topic String where
  oldest := oldest
  newest := 13
  messages := [(3, "b"), (12, "a")]
  ordered := by decide
  retained := by
    intro m mem
    simp only [List.mem_cons, List.not_mem_nil, or_false] at mem
    rcases mem with rfl | rfl <;> simp only <;> omega

/-- The mark of an offset of a uid. -/
def markAt (uid : String) (offset : Int) : KWrittenMessage := ⟨uid, "t", 0, offset, 0⟩

/-- A commit topic with a mark of the one uid before one of the other. -/
def bothMarked : Topic KWrittenMessage where
  oldest := 0
  newest := 2
  messages := [(0, markAt "b" 2), (1, markAt "a" 10)]
  ordered := by decide
  retained := by decide

/-- A commit topic with two marks of the one uid. -/
def oneMarked : Topic KWrittenMessage where
  oldest := 0
  newest := 2
  messages := [(0, markAt "a" 7), (1, markAt "a" 10)]
  ordered := by decide
  retained := by decide

theorem restart_recovers_both :
    (∀ mark ∈ bothMarked.messages, OwnMark partitionT mark.2) ∧
    ∀ tickFirst, ∃ l,
      startConsume partitionT (twoUids 0 (by decide)) bothMarked tickFirst = some l ∧
      (3, "b") ∈ l := by
  have own : ∀ mark ∈ bothMarked.messages, OwnMark partitionT mark.2 := by decide
  have reached : ∀ msg ∈ (twoUids 0 (by decide)).messages, Uncovered bothMarked msg →
      Reached (twoUids 0 (by decide)) bothMarked msg := by
    intro msg mem _
    refine ⟨by decide, .inr ⟨"b", 2, by decide, ?_⟩⟩
    simp only [twoUids, List.mem_cons, List.not_mem_nil, or_false] at mem
    rcases mem with rfl | rfl <;> simp
  refine ⟨own, fun tickFirst => ?_⟩
  exact (restart_recovers partitionT _ bothMarked own).mpr reached tickFirst (3, "b")
    List.mem_cons_self (by decide)

/-- The message of a uid that has no mark is lost, and so is one whose mark is before the oldest
offset of the data topic in the commit topic; where the commit topic ends there the consumer does
not start. -/
theorem restart_loses :
    (Uncovered oneMarked (3, "b") ∧ ∀ tickFirst,
      startConsume partitionT (twoUids 0 (by decide)) oneMarked tickFirst = some [(12, "a")]) ∧
    (Uncovered bothMarked (3, "b") ∧ ∀ tickFirst,
      startConsume partitionT (twoUids 1 (by decide)) bothMarked tickFirst = some [(12, "a")]) ∧
    ∀ tickFirst, startConsume partitionT (twoUids 2 (by decide)) bothMarked tickFirst = none := by
  decide

end Injectors
