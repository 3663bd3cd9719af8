import Cadent.Series.Acceptance
import Cadent.Writers.ChunkPartition

/-!
# The log slice beside the chunks

Additions, whole log dumps and rotations as atomic steps. `AddWithOffset` puts a point
into the slice of the next log message before it asks the chunk, and the chunk refuses a
point at time zero and every point of a series type that does not exist. The chunks hold
exactly what was accepted; slice and messages hold everything that was offered, so the
two agree as long as nothing was refused. The dump at shutdown is the last one and does
not clear the slice; points may still be added after it.
-/

namespace LogSlice

open Cache CacheChunk ChunkPartition Maps Registry Runs TimeSeries

structure System where
  cacher : CacherChunk
  /-- The messages that log dumps have sent. -/
  logs : List CacheChunkLog
  /-- The message of the dump at shutdown, after which there is no other. -/
  last : Option CacheChunkLog

inductive Action where
  | addWithOffset (name : StatName) (stat : Point) (offset : Option OffsetInSeries)
      (now : BitVec 32)
  | dumpLog
  | shutdown
  | cycleChunks

inductive Outcome where
  | returned (err : Option SeriesError)
  | done
  | rotated (slice : Option CacheChunkSlice)

def currentLogChunk (wc : CacherChunk) : CacheChunkLog := ⟨wc.curSlice, wc.curSequenceId⟩

def step (s : System) : Action → Option (System × Outcome)
  | .addWithOffset name stat offset now =>
    let r := s.cacher.addWithOffset name stat offset now
    some ({ s with cacher := r.1 }, .returned r.2)
  | .dumpLog =>
    if s.last.isSome then none
    else
      some ({ s with
        cacher := s.cacher.clearSlice
        logs := s.logs ++ [currentLogChunk s.cacher] }, .done)
  | .shutdown =>
    if s.last.isSome then none
    else some ({ s with last := some (currentLogChunk s.cacher) }, .done)
  | .cycleChunks =>
    match s.cacher.cycleInternalChunks with
    | some (cacher, out) => some ({ s with cacher := cacher }, .rotated out)
    | none => none

def start (cacher : CacherChunk) : System := ⟨cacher, [], none⟩

/-! ### What was offered and accepted -/

abbrev History := List (Taken System Action Outcome)

def acceptedBy (e : Taken System Action Outcome) : Option Accepted :=
  match e.act, e.out with
  | .addWithOffset name stat _ _, .returned none =>
    some ⟨e.pre.cacher.curSequenceId, name.uniqueId, stat⟩
  | _, _ => none

/-- The point of an addition, whatever the answer. -/
def offeredBy (e : Taken System Action Outcome) : Option Accepted :=
  match e.act with
  | .addWithOffset name stat _ _ => some ⟨e.pre.cacher.curSequenceId, name.uniqueId, stat⟩
  | _ => none

def emittedBy (e : Taken System Action Outcome) : Option CacheChunkSlice :=
  match e.out with
  | .rotated out => out
  | _ => none

def accepted (h : History) : List Accepted := h.filterMap acceptedBy

def offered (h : History) : List Accepted := h.filterMap offeredBy

def emitted (h : History) : List CacheChunkSlice := h.filterMap emittedBy

def logged (uid : StatId) (logs : List CacheChunkLog) : List Point :=
  logs.flatMap fun m => listAt m.slice uid

/-- The chunk is the current one or was handed to the writer. -/
def InSomeChunk (h : History) (wc : CacherChunk) (uid : StatId) (p : Point) : Prop :=
  ∃ c, (wc.curChunk = some c ∨ ∃ e ∈ emitted h, e.slice = c) ∧
    ∃ points, ChunkPartition.Holds wc.heap c uid points ∧ p ∈ points

/-- Slice and messages hold the accepted points and no others, the last message those that
were in the slice then, the chunks hold them too, each in the sequence that was current, and
nothing is logged that is in no chunk. -/
structure Agreed (h : History) (s : System) : Prop where
  sliced : ∀ uid, (logged uid s.logs ++ listAt s.cacher.curSlice uid).Perm
    (statsOf uid (accepted h))
  ended : ∀ m ∈ s.last, ∀ uid, listAt m.slice uid <+: listAt s.cacher.curSlice uid
  chunked : Partitioned (accepted h) (emitted h) s.cacher
  backed : ∀ m ∈ s.logs ++ s.last.toList, ∀ uid, ∀ p ∈ listAt m.slice uid,
    InSomeChunk h s.cacher uid p

/-- An addition that the chunk does not refuse. -/
def Taking (seriesType : String) : Action → Prop
  | .addWithOffset _ stat _ _ => stat.t ≠ 0#64 ∧ seriesType ∈ seriesTypes
  | _ => True

instance (seriesType : String) (a : Action) : Decidable (Taking seriesType a) :=
  match a with
  | .addWithOffset _ stat _ _ =>
    inferInstanceAs (Decidable (stat.t ≠ 0#64 ∧ seriesType ∈ seriesTypes))
  | .dumpLog | .shutdown | .cycleChunks => inferInstanceAs (Decidable True)

/-! ### The effect of a step -/

theorem effect_of_step {s s' : System} {a : Action} {b : Outcome}
    (taken : step s a = some (s', b)) :
    Effect s.cacher s'.cacher (acceptedBy ⟨s, a, b⟩) (emittedBy ⟨s, a, b⟩) := by
  cases a with
  | addWithOffset name stat offset now =>
    simp only [step, Option.some.injEq, Prod.mk.injEq] at taken
    obtain ⟨rfl, rfl⟩ := taken
    rcases s.cacher.addWithOffset_cases name stat offset now with
      ⟨e, same⟩ | ⟨heap, c, ok, same⟩
    · rw [same]
      exact .kept (.inr rfl) rfl rfl rfl
    · rw [same]
      exact .added ok rfl rfl rfl
  | dumpLog | shutdown =>
    simp only [step] at taken
    split at taken <;> cases taken
    exact .kept (.inl rfl) rfl rfl rfl
  | cycleChunks =>
    simp only [step] at taken
    split at taken <;> cases taken
    exact .cycled ‹_›

/-- The chunk that the next point goes to makes series of the configured type. -/
def Typed (seriesType : String) (wc : CacherChunk) : Prop :=
  wc.seriesType = seriesType ∧ wc.target.seriesType = seriesType

theorem typed_step {seriesType : String} {s s' : System} {a : Action} {b : Outcome}
    (typed : Typed seriesType s.cacher) (taken : step s a = some (s', b)) :
    Typed seriesType s'.cacher := by
  cases a with
  | addWithOffset name stat offset now =>
    simp only [step, Option.some.injEq, Prod.mk.injEq] at taken
    obtain ⟨rfl, -⟩ := taken
    rcases s.cacher.addWithOffset_cases name stat offset now with
      ⟨e, same⟩ | ⟨heap, c, ok, same⟩
    · rw [same]
      exact typed
    · rw [same]
      refine ⟨typed.1, ?_⟩
      rcases item_addWithOffset_ok ok with
        ⟨-, ⟨ref, item, series, -, -, -, -, rfl⟩ | ⟨opened, series, -, -, -, -, rfl⟩⟩
      · exact typed.2
      · exact typed.2
  | dumpLog | shutdown =>
    simp only [step] at taken
    split at taken <;> cases taken
    exact typed
  | cycleChunks =>
    simp only [step] at taken
    split at taken <;> cases taken
    rename_i out cycled
    rcases CacherChunk.cycleInternalChunks_cases cycled with
      ⟨-, -, rfl⟩ | ⟨c, oldest, rest, -, -, -, rfl⟩
    · exact ⟨typed.1, typed.1⟩
    · exact ⟨typed.1, typed.1⟩

/-! ### When the chunk refuses -/

theorem takes_built {seriesType : String} {points : List Point} {series : Series}
    (built : Built seriesType points series) : series.Takes ∧ seriesType ∈ seriesTypes := by
  obtain ⟨first, opened, -, new, all⟩ := built
  refine ⟨Series.takes_addAll (takes_newTimeSeries (by decide) new) _ all, ?_⟩
  exact (newTimeSeries_ok_iff _ _ _).mp ⟨opened, new⟩

/-- A chunk whose items are series built by it takes a point unless its time is zero or
there is no such series. -/
theorem item_addWithOffset_iff {heap : List Item} {as : List Accepted} {c : CacheChunkItem}
    (filled : Filled heap as c) (name : StatName) (stat : Point) (offset : Option OffsetInSeries)
    (now : BitVec 32) :
    (∃ r, c.addWithOffset heap name stat offset now = .ok r) ↔
      stat.t ≠ 0#64 ∧ c.seriesType ∈ seriesTypes := by
  have hholds := filled.points name.uniqueId
  constructor
  · rintro ⟨r, ok⟩
    obtain ⟨hzero, ⟨ref, item, series, found, here, -, -, -⟩ | ⟨opened, series, -, new, -, -, -⟩⟩ :=
      item_addWithOffset_ok ok
    · rw [ChunkPartition.Holds, found] at hholds
      obtain ⟨item', -, built⟩ := hholds
      exact ⟨hzero, (takes_built built).2⟩
    · exact ⟨hzero, (newTimeSeries_ok_iff _ _ _).mp ⟨opened, new⟩⟩
  · rintro ⟨hzero, known⟩
    unfold CacheChunkItem.addWithOffset
    rw [if_neg hzero]
    cases found : c.ts.lookup name.uniqueId with
    | some ref =>
      rw [ChunkPartition.Holds, found] at hholds
      obtain ⟨item, here, built⟩ := hholds
      obtain ⟨series, added, -⟩ := Series.addStat_ok (takes_built built).1 stat
      dsimp only
      rw [here]
      dsimp only
      rw [added]
      exact ⟨_, rfl⟩
    | none =>
      obtain ⟨opened, new⟩ := (newTimeSeries_ok_iff c.seriesType stat.t none).mpr known
      have takes : opened.Takes := takes_newTimeSeries (by decide) new
      obtain ⟨series, added, -⟩ := Series.addStat_ok takes stat
      dsimp only
      rw [new]
      change ∃ r, (opened.addStat stat >>= _) = Except.ok r
      rw [added]
      exact ⟨_, rfl⟩

theorem addWithOffset_none_iff (wc : CacherChunk) (name : StatName) (stat : Point)
    (offset : Option OffsetInSeries) (now : BitVec 32) :
    (wc.addWithOffset name stat offset now).2 = none ↔
      ∃ r, wc.target.addWithOffset wc.heap name stat offset now = .ok r := by
  have same : { wc with curSlice := push wc.curSlice name.uniqueId stat }.target = wc.target := rfl
  rw [CacherChunk.addWithOffset, CacherChunk.ensureChunk_eq, same]
  cases added : wc.target.addWithOffset wc.heap name stat offset now with
  | error e => simp [CacherChunk.addToChunk, added]
  | ok r => simp [CacherChunk.addToChunk, added]

/-- What a step offers is accepted exactly when the action is a taking one. -/
theorem accepted_iff_taking {seriesType : String} {as : List Accepted} {es : List CacheChunkSlice}
    {s s' : System} {a : Action} {b : Outcome} (inv : Inv as es s.cacher)
    (typed : Typed seriesType s.cacher) (taken : step s a = some (s', b)) :
    acceptedBy ⟨s, a, b⟩ = offeredBy ⟨s, a, b⟩ ↔ Taking seriesType a := by
  cases a with
  | addWithOffset name stat offset now =>
    simp only [step, Option.some.injEq, Prod.mk.injEq] at taken
    obtain ⟨-, rfl⟩ := taken
    obtain ⟨-, filled, -, -⟩ := target_filled inv
    have hiff := (addWithOffset_none_iff s.cacher name stat offset now).trans
      (item_addWithOffset_iff filled name stat offset now)
    rw [typed.2] at hiff
    rw [Taking, ← hiff]
    cases (s.cacher.addWithOffset name stat offset now).2 with
    | none => exact ⟨fun _ => rfl, fun _ => rfl⟩
    | some e => simp [acceptedBy, offeredBy]
  | dumpLog | shutdown | cycleChunks =>
    simp only [step] at taken
    split at taken <;> cases taken
    exact ⟨fun _ => trivial, fun _ => rfl⟩

/-! ### Whole runs -/

/-- What was offered is in the slice or was logged, in the order it came, and what was in the
slice at shutdown still is. -/
structure Recorded (h : History) (s : System) : Prop where
  offered : ∀ uid, logged uid s.logs ++ listAt s.cacher.curSlice uid = statsOf uid (offered h)
  ended : ∀ m ∈ s.last, ∀ uid, listAt m.slice uid <+: listAt s.cacher.curSlice uid

theorem curSlice_addWithOffset (wc : CacherChunk) (name : StatName) (stat : Point)
    (offset : Option OffsetInSeries) (now : BitVec 32) :
    (wc.addWithOffset name stat offset now).1.curSlice = push wc.curSlice name.uniqueId stat := by
  rcases wc.addWithOffset_cases name stat offset now with ⟨e, same⟩ | ⟨heap, c, -, same⟩
  · rw [same]
  · rw [same]

theorem curSlice_cycleInternalChunks {wc wc' : CacherChunk} {out : Option CacheChunkSlice}
    (cycled : wc.cycleInternalChunks = some (wc', out)) : wc'.curSlice = wc.curSlice := by
  rcases CacherChunk.cycleInternalChunks_cases cycled with
    ⟨-, -, rfl⟩ | ⟨c, oldest, rest, -, -, -, rfl⟩
  · rfl
  · rfl

theorem offered_snoc (h : History) (e : Taken System Action Outcome) (uid : StatId) :
    statsOf uid (offered (h ++ [e])) =
      statsOf uid (offered h) ++ statsOf uid (offeredBy e).toList := by
  rw [offered, filterMap_snoc, statsOf_append]
  rfl

theorem recorded_step {h : History} {s s' : System} {a : Action} {b : Outcome}
    (recorded : Recorded h s) (taken : step s a = some (s', b)) :
    Recorded (h ++ [⟨s, a, b⟩]) s' := by
  obtain ⟨before, ended⟩ := recorded
  cases a with
  | addWithOffset name stat offset now =>
    simp only [step, Option.some.injEq, Prod.mk.injEq] at taken
    obtain ⟨rfl, rfl⟩ := taken
    have pushed : ∀ uid, listAt (push s.cacher.curSlice name.uniqueId stat) uid =
        listAt s.cacher.curSlice uid ++ if name.uniqueId = uid then [stat] else [] := by
      intro uid
      rw [listAt_push]
      split_ifs <;> simp
    constructor
    · intro uid
      dsimp only
      rw [offered_snoc, ← before uid, curSlice_addWithOffset, pushed, List.append_assoc]
      by_cases same : name.uniqueId = uid
      · simp [offeredBy, statsOf, same]
      · simp [offeredBy, statsOf, same]
    · intro m mem uid
      dsimp only
      rw [curSlice_addWithOffset, pushed]
      exact (ended m mem uid).trans (List.prefix_append _ _)
  | dumpLog =>
    simp only [step] at taken
    split at taken <;> cases taken
    rename_i running
    constructor
    · intro uid
      rw [offered_snoc, ← before uid]
      simp [offeredBy, statsOf, logged, currentLogChunk, CacherChunk.clearSlice]
    · intro m mem
      exact absurd (Option.isSome_of_mem mem) running
  | shutdown =>
    simp only [step] at taken
    split at taken <;> cases taken
    constructor
    · intro uid
      rw [offered_snoc, ← before uid]
      simp [offeredBy, statsOf]
    · rintro m ⟨⟩ uid
      exact List.prefix_refl _
  | cycleChunks =>
    simp only [step] at taken
    split at taken <;> cases taken
    rename_i out cycled
    have same := curSlice_cycleInternalChunks cycled
    constructor
    · intro uid
      rw [offered_snoc, ← before uid]
      simp [offeredBy, statsOf, same]
    · intro m mem uid
      dsimp only
      rw [same]
      exact ended m mem uid

/-- Until the first refusal what is accepted is what is offered; from then on some metric
has been offered more than it accepted. -/
structure Balanced (seriesType : String) (h : History) : Prop where
  le : ∀ uid, (statsOf uid (accepted h)).length ≤ (statsOf uid (offered h)).length
  same : (∀ e ∈ h, Taking seriesType e.act) → accepted h = offered h
  less : (¬ ∀ e ∈ h, Taking seriesType e.act) →
    ∃ uid, (statsOf uid (accepted h)).length < (statsOf uid (offered h)).length

/-- A step accepts what it offers, or nothing of it. -/
theorem acceptedBy_cases (e : Taken System Action Outcome) :
    acceptedBy e = offeredBy e ∨ acceptedBy e = none ∧ ∃ a, offeredBy e = some a := by
  obtain ⟨s, a, b⟩ := e
  cases a with
  | addWithOffset name stat offset now =>
    rcases b with (_ | e) | _ | _
    · exact .inl rfl
    all_goals exact .inr ⟨rfl, _, rfl⟩
  | dumpLog | shutdown | cycleChunks => exact .inl rfl

theorem balanced_step {seriesType : String} {h : History} {e : Taken System Action Outcome}
    (balanced : Balanced seriesType h)
    (iff : acceptedBy e = offeredBy e ↔ Taking seriesType e.act) :
    Balanced seriesType (h ++ [e]) := by
  have hacc : accepted (h ++ [e]) = accepted h ++ (acceptedBy e).toList := filterMap_snoc _ _ _
  have hoff : offered (h ++ [e]) = offered h ++ (offeredBy e).toList := filterMap_snoc _ _ _
  have hmore : ∀ uid, (statsOf uid (acceptedBy e).toList).length ≤
      (statsOf uid (offeredBy e).toList).length := by
    intro uid
    rcases acceptedBy_cases e with same | ⟨none, -⟩
    · rw [same]
    · rw [none]
      exact Nat.zero_le _
  constructor
  · intro uid
    have hle := balanced.le uid
    have := hmore uid
    rw [hacc, hoff, statsOf_append, statsOf_append, List.length_append, List.length_append]
    omega
  · intro all
    rw [List.forall_mem_append, List.forall_mem_singleton] at all
    rw [hacc, hoff, balanced.same all.1, iff.mpr all.2]
  · intro some_refused
    by_cases before : ∀ e ∈ h, Taking seriesType e.act
    · -- the new step is the refused one
      have hnot : ¬ acceptedBy e = offeredBy e := by
        intro same
        apply some_refused
        rw [List.forall_mem_append, List.forall_mem_singleton]
        exact ⟨before, iff.mp same⟩
      obtain ⟨hnone, a, ha⟩ := (acceptedBy_cases e).resolve_left hnot
      refine ⟨a.uid, ?_⟩
      have hle := balanced.le a.uid
      rw [hacc, hoff, hnone, ha, statsOf_append, statsOf_append, List.length_append,
        List.length_append]
      simp only [Option.toList_none, Option.toList_some, statsOf, List.filterMap_nil,
        List.filterMap_cons, if_true, List.length_nil, List.length_cons] at hle ⊢
      omega
    · obtain ⟨uid, hlt⟩ := balanced.less before
      refine ⟨uid, ?_⟩
      have := hmore uid
      rw [hacc, hoff, statsOf_append, statsOf_append, List.length_append, List.length_append]
      omega

/-- What every run keeps. -/
structure Kept (seriesType : String) (h : History) (s : System) : Prop where
  inv : Inv (accepted h) (emitted h) s.cacher
  typed : Typed seriesType s.cacher
  recorded : Recorded h s
  balanced : Balanced seriesType h

theorem kept_start (slots : Nat) (seriesType : String) (resumed : Option Int) :
    Kept seriesType [] (start (CacherChunk.start slots seriesType resumed)) := by
  refine ⟨inv_start _ _ _, ?_, ?_, ?_⟩
  · cases resumed <;> exact ⟨rfl, rfl⟩
  · refine ⟨fun uid => ?_, nofun⟩
    cases resumed <;> rfl
  · refine ⟨fun _ => le_rfl, fun _ => rfl, fun refused => absurd ?_ refused⟩
    intro e he
    cases he

theorem kept_of_run {slots : Nat} {seriesType : String} {resumed : Option Int} {h : History}
    {s : System} (run : Run step anyStep (start (CacherChunk.start slots seriesType resumed)) h s) :
    Kept seriesType h s := by
  refine run_invariant (Kept seriesType) (kept_start _ _ _) ?_ run
  intro h s a s' b kept _ taken
  refine ⟨?_, typed_step kept.typed taken, recorded_step kept.recorded taken,
    balanced_step kept.balanced (accepted_iff_taking kept.inv kept.typed taken)⟩
  rw [accepted, emitted, filterMap_snoc, filterMap_snoc]
  exact inv_effect kept.inv (effect_of_step taken)

theorem inSomeChunk_of_accepted {h : History} {wc : CacherChunk}
    (inv : Inv (accepted h) (emitted h) wc) {a : Accepted} (mem : a ∈ accepted h) :
    InSomeChunk h wc a.uid a.stat := by
  have hheld : ∀ {c : CacheChunkItem}, Filled wc.heap (accepted h) c → c.sequence = a.sequence →
      ∃ points, ChunkPartition.Holds wc.heap c a.uid points ∧ a.stat ∈ points := by
    intro c filled same
    refine ⟨_, filled.points a.uid, List.mem_filterMap.mpr ⟨a, ?_, if_pos rfl⟩⟩
    exact List.mem_filter.mpr ⟨mem, by simp [same]⟩
  rcases inv.once a mem with ⟨here, some, -⟩ | ⟨-, e, ⟨sent, same⟩, -⟩
  · obtain ⟨c, cur⟩ := Option.isSome_iff_exists.mp some
    obtain ⟨sequence, filled⟩ := inv.current c cur
    exact ⟨c, .inl cur, hheld filled (sequence.trans here.symm)⟩
  · obtain ⟨sequence, filled⟩ := inv.slices e sent
    exact ⟨e.slice, .inr ⟨e, sent, rfl⟩, hheld filled (sequence.trans same)⟩

/-- In every state of every run, slice and chunks agree exactly as long as every addition
so far had a time and the series type exists. -/
theorem agreed_iff {slots : Nat} {seriesType : String} {resumed : Option Int} {h : History}
    {s : System} (run : Run step anyStep (start (CacherChunk.start slots seriesType resumed)) h s) :
    Agreed h s ↔ ∀ e ∈ h, Taking seriesType e.act := by
  obtain ⟨inv, -, recorded, balanced⟩ := kept_of_run run
  constructor
  · intro agreed
    by_contra refused
    obtain ⟨uid, hlt⟩ := balanced.less refused
    have hlen := (agreed.sliced uid).length_eq
    rw [recorded.offered uid] at hlen
    omega
  · intro taking
    have hsame := balanced.same taking
    refine ⟨?_, recorded.ended, inv.toPartitioned, ?_⟩
    · intro uid
      rw [recorded.offered uid, hsame]
    · intro m hm uid p hp
      have hin : p ∈ statsOf uid (accepted h) := by
        rw [hsame, ← recorded.offered uid]
        rcases List.mem_append.mp hm with dumped | last
        · exact List.mem_append_left _ (List.mem_flatMap.mpr ⟨m, dumped, hp⟩)
        · exact List.mem_append_right _
            ((recorded.ended m (Option.mem_toList.mp last) uid).subset hp)
      obtain ⟨a, ha, hstat⟩ := List.mem_filterMap.mp hin
      by_cases huid : a.uid = uid
      · rw [if_pos huid] at hstat
        obtain rfl := Option.some.inj hstat
        rw [← huid]
        exact inSomeChunk_of_accepted inv ha
      · rw [if_neg huid] at hstat
        cases hstat

/-- A point, a log dump, a rotation, a point of the next sequence, the dump at shutdown and
one point more. -/
theorem agreed_iff_dumped :
    ∃ h s, Run step anyStep (start (CacherChunk.start 6 "json" (some 3))) h s ∧
      logged load.uniqueId s.logs = [sample 1] ∧
      logged load.uniqueId s.last.toList = [sample 2] ∧
      listAt s.cacher.curSlice load.uniqueId = [sample 2, sample 3] ∧ Agreed h s := by
  have run := run_of_exec step anyStep (start (CacherChunk.start 6 "json" (some 3)))
    [.addWithOffset load (sample 1) none 1#32, .dumpLog, .cycleChunks,
     .addWithOffset load (sample 2) none 2#32, .shutdown,
     .addWithOffset load (sample 3) none 3#32] (by decide)
  exact ⟨_, _, run, by decide, by decide, by decide, (agreed_iff run).mpr (by decide)⟩

/-- A point at time zero is refused and yet logged. -/
theorem refused_point_logged :
    ∃ h s, Run step anyStep (start (CacherChunk.start 6 "json" (some 3))) h s ∧
      accepted h = [] ∧ logged load.uniqueId s.logs = [sample 0] ∧ ¬ Agreed h s := by
  have run := run_of_exec step anyStep (start (CacherChunk.start 6 "json" (some 3)))
    [.addWithOffset load (sample 0) none 1#32, .dumpLog] (by decide)
  refine ⟨_, _, run, by decide, by decide, ?_⟩
  intro agreed
  have hlen := (agreed.sliced load.uniqueId).length_eq
  revert hlen
  decide

end LogSlice
