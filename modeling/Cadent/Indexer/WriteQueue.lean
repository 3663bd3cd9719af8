import Cadent.Lib.Maps
import Cadent.Lib.Runs
import Cadent.Schemas.StatRepr

/-!
# The write queue of the index

`Cacher` keeps the metrics that are to be indexed, each under the hash of all its tags, and
remembers the ids that it has handed out. Every critical section is a step: `AddBack` forgets
an id in one and adds the metric in another, so other goroutines may come between. A map is
iterated in an order that the action names. The tags of a queued metric are sorted in place each
time that its id or its size is asked for. Sizes are integers without overflow; the gauges and the
log are left out.
-/

namespace Repr

namespace StatName

variable (env : Naming)

def uniqueIdAllTagsString (s : StatName) : String :=
  s.key ++ ":" ++ baseString (env.sortTags s.tags) ++ ":" ++ baseString (env.sortTags s.metaTags)

def uniqueIdAllTags (s : StatName) : BitVec 64 :=
  env.hashIt s.hashMode (s.uniqueIdAllTagsString env)

/-- The bytes of the key and of the text of the sorted tags. -/
def byteSize (s : StatName) : Int :=
  s.key.utf8ByteSize + (baseString (env.sortTags s.tags)).utf8ByteSize

/-- A name whose tags were sorted for its id and for its size. -/
def queued (s : StatName) : StatName := ((s.sortedTags env).sortedMetaTags env).sortedTags env

/-- `StatName{}`. -/
def blank : StatName := ⟨"", 0#64, "", 0#32, 0#32, .metrics2, .fnv, [], []⟩

end StatName

end Repr

namespace Indexer

open Maps Repr Runs

structure Cacher where
  maxKeys : Int
  curSize : Int
  accept : Bool
  alreadyWrittenCache : Map (BitVec 64) Bool
  cache : Map (BitVec 64) StatName

def cacherMetricsKeys : Int := 1024 * 1024 * 10

def newCacher : Cacher := ⟨cacherMetricsKeys, 0, true, ∅, ∅⟩

namespace Cacher

variable (env : Naming) (wc : Cacher)

/-- The name that is kept has its tags in order: they were sorted for its id and its size. -/
def add (metric : StatName) : Cacher × Option String :=
  if !wc.accept then (wc, none)
  else if wc.maxKeys < wc.cache.keys.length then
    (wc, some "Cacher: too many keys, dropping metric")
  else
    let uid := metric.uniqueIdAllTags env
    if (wc.alreadyWrittenCache.lookup uid).isSome then (wc, none)
    else if (wc.cache.lookup uid).isSome then (wc, none)
    else
      let metric := metric.queued env
      ({ wc with
          cache := wc.cache.insert uid metric
          curSize := wc.curSize + metric.byteSize env }, none)

/-- The metric that is found first leaves the queue. -/
def take (k : BitVec 64) (g : StatName) : Cacher × StatName :=
  let g := g.sortedTags env
  ({ wc with
      alreadyWrittenCache := wc.alreadyWrittenCache.insert k true
      curSize := wc.curSize - g.byteSize env
      cache := wc.cache.erase k }, g)

/-- The first critical section of `AddBack`; the second is that of `Add`. -/
def forget (metric : StatName) : Cacher :=
  { wc with alreadyWrittenCache := wc.alreadyWrittenCache.erase (metric.uniqueIdAllTags env) }

end Cacher

/-! ### The system -/

inductive QueueAction where
  | add (metric : StatName)
  /-- The loop over the map finds an entry, or there is none. -/
  | getNextMetric (first : Option (BitVec 64))
  | addBack (metric : StatName)
  | shutdown

inductive QueueOutcome where
  | added (err : Option String)
  | returned (metric : StatName)
  | done
  deriving DecidableEq

abbrev QueueHistory := List (Taken Cacher QueueAction QueueOutcome)

section Steps

variable (env : Naming)

def queueStep (wc : Cacher) : QueueAction → Option (Cacher × QueueOutcome)
  | .add metric => some ((wc.add env metric).1, .added (wc.add env metric).2)
  | .getNextMetric none => if wc.cache.keys = [] then some (wc, .returned .blank) else none
  | .getNextMetric (some k) =>
    (wc.cache.lookup k).map fun g => ((wc.take env k g).1, .returned (wc.take env k g).2)
  | .addBack metric => some (wc.forget env metric, .done)
  | .shutdown => some ({ wc with accept := false }, .done)

/-- A call of `Add` that was let in. -/
def Accepts (metric : StatName) (e : Taken Cacher QueueAction QueueOutcome) : Prop :=
  e.pre.accept = true ∧ e.act = .add metric ∧ e.out = .added none

/-- A `Pop` that found an entry under an id and returned a metric. -/
def pops (uid : BitVec 64) (e : Taken Cacher QueueAction QueueOutcome) : Bool :=
  match e.act, e.out with
  | .getNextMetric (some k), .returned _ => k = uid
  | _, _ => false

def AddsBack (uid : BitVec 64) (e : Taken Cacher QueueAction QueueOutcome) : Prop :=
  ∃ metric, e.act = .addBack metric ∧ metric.uniqueIdAllTags env = uid

/-- The `Pop` of an id returned a metric of that id that was let in before. The tags of what it
returned were sorted several times over; its own id is the same again if that changed nothing. -/
def ReturnsOwn (before : QueueHistory) (uid : BitVec 64)
    (e : Taken Cacher QueueAction QueueOutcome) : Prop :=
  ∃ metric g : StatName, (∃ a ∈ before, Accepts metric a) ∧ metric.uniqueIdAllTags env = uid ∧
    e.out = .returned g ∧ g.key = metric.key ∧ g.tags.Perm metric.tags ∧
    g.metaTags.Perm metric.metaTags ∧
    ((∀ l ∈ [metric.tags, metric.metaTags], env.sortTags (env.sortTags l) = env.sortTags l) →
      g.uniqueIdAllTags env = uid)

/-- What should hold after a history: besides the two maps and the size, that an id is handed
out once as long as it is not added back, that it is a metric of the id that is handed out, and
that what was let in is still there or was handed out. -/
structure WritesOnce (h : QueueHistory) (wc : Cacher) : Prop where
  apart : ∀ uid, uid ∈ wc.cache → uid ∉ wc.alreadyWrittenCache
  size : wc.curSize = total (StatName.byteSize env) wc.cache
  once : ∀ uid before between after, h = before ++ between ++ after →
    (∀ e ∈ between, ¬ AddsBack env uid e) → between.countP (pops uid) ≤ 1
  own : ∀ uid before e after, h = before ++ [e] ++ after → e.act = .getNextMetric (some uid) →
    ReturnsOwn env before uid e
  kept : ∀ metric, (∃ e ∈ h, Accepts metric e) →
    metric.uniqueIdAllTags env ∈ wc.cache ∨ metric.uniqueIdAllTags env ∈ wc.alreadyWrittenCache ∨
      ∃ e ∈ h, pops (metric.uniqueIdAllTags env) e = true

end Steps

/-! ### The size of a name -/

theorem utf8ByteSize_intercalate (sep : String) (l : List String) :
    (String.intercalate sep l).utf8ByteSize =
      (l.map String.utf8ByteSize).sum + sep.utf8ByteSize * (l.length - 1) := by
  induction l with
  | nil => simp
  | cons first l ih =>
    rcases l with _ | ⟨second, l⟩
    · simp
    · rw [String.intercalate_cons_cons, String.utf8ByteSize_append, String.utf8ByteSize_append, ih]
      simp only [List.map_cons, List.sum_cons, List.length_cons, Nat.add_sub_cancel, Nat.mul_add,
        Nat.mul_one]
      omega

theorem utf8ByteSize_baseString {tags tags' : List Tag} (perm : tags.Perm tags') :
    (baseString tags).utf8ByteSize = (baseString tags').utf8ByteSize := by
  rw [baseString, baseString, utf8ByteSize_intercalate, utf8ByteSize_intercalate, List.length_map,
    List.length_map, perm.length_eq, ((perm.map _).map String.utf8ByteSize).sum_eq]

theorem byteSize_sortedTags (env : Naming) (s : StatName) :
    (s.sortedTags env).byteSize env = s.byteSize env := by
  rw [StatName.byteSize, StatName.byteSize, StatName.sortedTags,
    utf8ByteSize_baseString (env.sortTags_perm (env.sortTags s.tags))]

/-! ### The id of a name -/

/-- A name that was queued and handed out has its own id, if sorting its tags again is idle. -/
theorem uniqueIdAllTags_queued (env : Naming) {metric : StatName}
    (settled : ∀ l ∈ [metric.tags, metric.metaTags],
      env.sortTags (env.sortTags l) = env.sortTags l) :
    ((metric.queued env).sortedTags env).uniqueIdAllTags env = metric.uniqueIdAllTags env := by
  have tags := settled metric.tags (by simp)
  have metaTags := settled metric.metaTags (by simp)
  simp only [StatName.uniqueIdAllTags, StatName.uniqueIdAllTagsString, StatName.queued,
    StatName.sortedTags, StatName.sortedMetaTags, tags, metaTags]

theorem tags_queued_perm (env : Naming) (metric : StatName) :
    ((metric.queued env).sortedTags env).tags.Perm metric.tags := by
  have sorts := env.sortTags_perm
  exact (sorts _).trans ((sorts _).trans (sorts _))

/-! ### What a step does -/

section Runs

variable {env : Naming} {wc wc' : Cacher} {a : QueueAction}
  {out : QueueOutcome} {h : QueueHistory}

inductive QueueEffect (env : Naming) (wc : Cacher) :
    QueueAction → Cacher → QueueOutcome → Prop
  | closed {metric : StatName} (off : wc.accept = false) :
      QueueEffect env wc (.add metric) wc (.added none)
  | overflow {metric : StatName} (err : String) :
      QueueEffect env wc (.add metric) wc (.added (some err))
  | known {metric : StatName} (there : metric.uniqueIdAllTags env ∈ wc.cache ∨
        metric.uniqueIdAllTags env ∈ wc.alreadyWrittenCache) :
      QueueEffect env wc (.add metric) wc (.added none)
  | add {metric : StatName} (on : wc.accept = true)
      (unwritten : metric.uniqueIdAllTags env ∉ wc.alreadyWrittenCache)
      (missing : wc.cache.lookup (metric.uniqueIdAllTags env) = none) :
      QueueEffect env wc (.add metric)
        { wc with
          cache := wc.cache.insert (metric.uniqueIdAllTags env) (metric.queued env)
          curSize := wc.curSize + (metric.queued env).byteSize env } (.added none)
  | nothing : QueueEffect env wc (.getNextMetric none) wc (.returned .blank)
  | take {k : BitVec 64} {g : StatName} (found : wc.cache.lookup k = some g) :
      QueueEffect env wc (.getNextMetric (some k)) (wc.take env k g).1
        (.returned (g.sortedTags env))
  | forget {metric : StatName} :
      QueueEffect env wc (.addBack metric) (wc.forget env metric) .done
  | shutdown : QueueEffect env wc .shutdown { wc with accept := false } .done

theorem add_effect (metric : StatName) :
    QueueEffect env wc (.add metric) (wc.add env metric).1
      (.added (wc.add env metric).2) := by
  rw [Cacher.add]
  dsimp only
  split_ifs with off full written queued
  · exact .closed (by simpa using off)
  · exact .overflow _
  · exact .known (.inr (AList.lookup_isSome.mp written))
  · exact .known (.inl (AList.lookup_isSome.mp queued))
  · refine .add (by simpa using off) ?_ ?_
    · exact fun mem => written (AList.lookup_isSome.mpr mem)
    · simpa using queued

theorem queueStep_effect (taken : queueStep env wc a = some (wc', out)) :
    QueueEffect env wc a wc' out := by
  cases a with
  | add metric =>
    cases taken
    exact add_effect metric
  | getNextMetric first =>
    cases first with
    | none =>
      rw [queueStep] at taken
      split_ifs at taken
      cases taken
      exact .nothing
    | some k =>
      obtain ⟨g, found, same⟩ := Option.map_eq_some_iff.mp taken
      cases same
      exact .take found
  | addBack metric =>
    cases taken
    exact .forget
  | shutdown =>
    cases taken
    exact .shutdown

/-! ### What every step keeps -/

/-- What holds of the last state. An id is in the map of written ones only after a `Pop`, and a
metric that was let in is queued under its own id. -/
structure QueueInv (env : Naming) (h : QueueHistory) (wc : Cacher) : Prop where
  apart : ∀ uid, uid ∈ wc.cache → uid ∉ wc.alreadyWrittenCache
  size : wc.curSize = total (StatName.byteSize env) wc.cache
  written : ∀ uid ∈ wc.alreadyWrittenCache, ∃ e ∈ h, pops uid e = true
  kept : ∀ metric, (∃ e ∈ h, Accepts metric e) → metric.uniqueIdAllTags env ∈ wc.cache ∨
    ∃ e ∈ h, pops (metric.uniqueIdAllTags env) e = true
  named : ∀ uid g, wc.cache.lookup uid = some g → ∃ metric : StatName,
    (∃ e ∈ h, Accepts metric e) ∧ metric.uniqueIdAllTags env = uid ∧ g = metric.queued env

theorem exists_mem_concat {P : Taken Cacher QueueAction QueueOutcome → Prop}
    {e : Taken Cacher QueueAction QueueOutcome} : (∃ x ∈ h ++ [e], P x) ↔ (∃ x ∈ h, P x) ∨ P e := by
  simp [or_and_right, exists_or]

/-- A step that leaves the queue as it is keeps all of it, if what it lets in was there. -/
theorem QueueInv.idle (inv : QueueInv env h wc) (cache : wc'.cache = wc.cache)
    (size : wc'.curSize = wc.curSize)
    (forgets : ∀ uid ∈ wc'.alreadyWrittenCache, uid ∈ wc.alreadyWrittenCache)
    (letIn : ∀ metric, Accepts metric ⟨wc, a, out⟩ → metric.uniqueIdAllTags env ∈ wc.cache ∨
      metric.uniqueIdAllTags env ∈ wc.alreadyWrittenCache) :
    QueueInv env (h ++ [⟨wc, a, out⟩]) wc' := by
  constructor
  · intro uid queued written
    rw [cache] at queued
    exact inv.apart uid queued (forgets uid written)
  · rw [size, cache, inv.size]
  · intro uid written
    exact exists_mem_concat.mpr (.inl (inv.written uid (forgets uid written)))
  · intro metric accepted
    rw [cache, exists_mem_concat]
    have settled : metric.uniqueIdAllTags env ∈ wc.cache ∨
        ∃ e ∈ h, pops (metric.uniqueIdAllTags env) e = true := by
      rcases exists_mem_concat.mp accepted with old | new
      · exact inv.kept metric old
      · exact (letIn metric new).imp_right (inv.written _)
    exact settled.imp_right .inl
  · intro uid g found
    rw [cache] at found
    obtain ⟨metric, accepted, rest⟩ := inv.named uid g found
    exact ⟨metric, exists_mem_concat.mpr (.inl accepted), rest⟩

theorem QueueInv.add {metric : StatName} (inv : QueueInv env h wc) (on : wc.accept = true)
    (unwritten : metric.uniqueIdAllTags env ∉ wc.alreadyWrittenCache)
    (missing : wc.cache.lookup (metric.uniqueIdAllTags env) = none) :
    QueueInv env (h ++ [⟨wc, .add metric, .added none⟩])
      { wc with
        cache := wc.cache.insert (metric.uniqueIdAllTags env) (metric.queued env)
        curSize := wc.curSize + (metric.queued env).byteSize env } := by
  constructor
  · intro uid queued
    rcases (AList.mem_insert _).mp queued with rfl | old
    · exact unwritten
    · exact inv.apart uid old
  · exact (congrArg (· + _) inv.size).trans (total_insert_new missing).symm
  · intro uid written
    exact exists_mem_concat.mpr (.inl (inv.written uid written))
  · intro other accepted
    rw [exists_mem_concat, AList.mem_insert]
    rcases exists_mem_concat.mp accepted with old | ⟨-, same, -⟩
    · rcases inv.kept other old with queued | popped
      · exact .inl (.inr queued)
      · exact .inr (.inl popped)
    · cases same
      exact .inl (.inl rfl)
  · intro uid g found
    rw [lookup_insert] at found
    split_ifs at found with same
    · cases found
      exact ⟨metric, exists_mem_concat.mpr (.inr ⟨on, rfl, rfl⟩), same.symm, rfl⟩
    · obtain ⟨other, accepted, rest⟩ := inv.named uid g found
      exact ⟨other, exists_mem_concat.mpr (.inl accepted), rest⟩

theorem QueueInv.take {k : BitVec 64} {g : StatName} (inv : QueueInv env h wc)
    (found : wc.cache.lookup k = some g) :
    QueueInv env (h ++ [⟨wc, .getNextMetric (some k), .returned (g.sortedTags env)⟩])
      (wc.take env k g).1 := by
  have popped : pops k ⟨wc, .getNextMetric (some k), .returned (g.sortedTags env)⟩ = true := by
    simp [pops]
  constructor
  · intro uid queued
    obtain ⟨other, queued⟩ := AList.mem_erase.mp queued
    intro written
    rcases (AList.mem_insert _).mp written with rfl | written
    · exact other rfl
    · exact inv.apart uid queued written
  · change wc.curSize - _ = total _ (wc.cache.erase k)
    rw [total_erase found, byteSize_sortedTags, inv.size]
  · intro uid written
    rw [exists_mem_concat]
    rcases (AList.mem_insert _).mp written with rfl | old
    · exact .inr popped
    · exact .inl (inv.written uid old)
  · intro metric accepted
    rw [exists_mem_concat]
    have before : ∃ e ∈ h, Accepts metric e := by
      refine (exists_mem_concat.mp accepted).resolve_right ?_
      rintro ⟨-, same, -⟩
      cases same
    by_cases same : metric.uniqueIdAllTags env = k
    · rw [same]
      exact .inr (.inr popped)
    · rcases inv.kept metric before with queued | old
      · exact .inl (AList.mem_erase.mpr ⟨same, queued⟩)
      · exact .inr (.inl old)
  · intro uid g' there
    change (wc.cache.erase k).lookup uid = some g' at there
    rw [lookup_erase] at there
    split_ifs at there
    obtain ⟨metric, accepted, rest⟩ := inv.named uid g' there
    exact ⟨metric, exists_mem_concat.mpr (.inl accepted), rest⟩

theorem QueueInv.step (inv : QueueInv env h wc) (taken : queueStep env wc a = some (wc', out)) :
    QueueInv env (h ++ [⟨wc, a, out⟩]) wc' := by
  have unlet : ∀ metric, (∀ metric, a ≠ .add metric) → ¬ Accepts metric ⟨wc, a, out⟩ := by
    rintro metric other ⟨-, same, -⟩
    exact other metric same
  cases queueStep_effect taken with
  | closed off =>
    refine inv.idle rfl rfl (fun _ written => written) ?_
    rintro metric ⟨on, -⟩
    cases off.symm.trans on
  | overflow err =>
    refine inv.idle rfl rfl (fun _ written => written) ?_
    rintro metric ⟨-, -, clean⟩
    cases clean
  | known there =>
    refine inv.idle rfl rfl (fun _ written => written) ?_
    rintro metric ⟨-, same, -⟩
    cases same
    exact there
  | add on unwritten missing => exact inv.add on unwritten missing
  | nothing | shutdown =>
    exact inv.idle rfl rfl (fun _ written => written)
      fun metric letIn => absurd letIn (unlet metric nofun)
  | take found => exact inv.take found
  | forget =>
    exact inv.idle rfl rfl (fun uid written => (AList.mem_erase.mp written).2)
      fun metric letIn => absurd letIn (unlet metric nofun)

theorem queueInv_of_run (run : Run (queueStep env) anyStep newCacher h wc) : QueueInv env h wc := by
  refine run_invariant (QueueInv env) ?_ ?_ run
  · refine ⟨nofun, rfl, nofun, ?_, nofun⟩
    rintro metric ⟨e, mem, -⟩
    cases mem
  · intro h wc a wc' out inv _ taken
    exact inv.step taken

/-! ### What was handed out stays written -/

/-- After the one `Pop` of an id that is not added back, the id is among the written ones. -/
theorem pops_le_one {uid : BitVec 64} {before between : QueueHistory}
    (run : Run (queueStep env) anyStep newCacher (before ++ between) wc)
    (away : ∀ e ∈ between, ¬ AddsBack env uid e) :
    between.countP (pops uid) = 0 ∨
      between.countP (pops uid) = 1 ∧ uid ∈ wc.alreadyWrittenCache := by
  induction between using List.reverseRecOn generalizing wc with
  | nil => exact .inl rfl
  | append_singleton between e ih =>
    obtain ⟨pre, act, out⟩ := e
    rw [← List.append_assoc] at run
    obtain ⟨earlier, -, taken⟩ := run_snoc run
    have apart := (queueInv_of_run earlier).apart uid
    have last := away ⟨pre, act, out⟩ (by simp)
    have count := ih earlier fun e mem => away e (List.mem_append_left _ mem)
    rw [List.countP_append, List.countP_singleton]
    cases queueStep_effect taken with
    | take found =>
      rename_i k g
      by_cases same : k = uid
      · subst same
        have none := count.resolve_right fun written =>
          apart (AList.lookup_isSome.mp (by rw [found]; rfl)) written.2
        right
        refine ⟨by simp [pops, none], ?_⟩
        exact (AList.mem_insert _).mpr (.inl rfl)
      · have kept : uid ∈ pre.alreadyWrittenCache →
            uid ∈ (pre.take env k g).1.alreadyWrittenCache := fun written =>
          (AList.mem_insert _).mpr (.inr written)
        simpa [pops, same] using count.imp_right (And.imp_right kept)
    | forget =>
      rename_i metric
      have kept : uid ∈ pre.alreadyWrittenCache →
          uid ∈ (pre.forget env metric).alreadyWrittenCache := fun written =>
        AList.mem_erase.mpr ⟨fun same => last ⟨metric, rfl, same.symm⟩, written⟩
      simpa [pops] using count.imp_right (And.imp_right kept)
    | closed | overflow | known | add | nothing | shutdown => simpa [pops] using count

/-- What a `Pop` returns was let in under the id that it was found under. -/
theorem returnsOwn_of_run {uid : BitVec 64} {e : Taken Cacher QueueAction QueueOutcome}
    (run : Run (queueStep env) anyStep newCacher (h ++ [e]) wc)
    (pop : e.act = .getNextMetric (some uid)) : ReturnsOwn env h uid e := by
  obtain ⟨pre, act, out⟩ := e
  obtain ⟨before, -, taken⟩ := run_snoc run
  cases pop
  cases queueStep_effect taken with
  | take found =>
    obtain ⟨metric, accepted, id, rfl⟩ := (queueInv_of_run before).named _ _ found
    refine ⟨metric, _, accepted, id, rfl, rfl, tags_queued_perm env metric, env.sortTags_perm _,
      fun settled => ?_⟩
    rw [uniqueIdAllTags_queued env settled, id]

/-- After every run of calls the queue has written each metric once. -/
theorem index_writes_once (run : Run (queueStep env) anyStep newCacher h wc) :
    WritesOnce env h wc := by
  have inv := queueInv_of_run run
  refine ⟨inv.apart, inv.size, ?_, ?_, ?_⟩
  · rintro uid before between after rfl away
    obtain ⟨mid, earlier⟩ := run_of_append run
    rcases pops_le_one earlier away with none | ⟨one, -⟩
    · omega
    · omega
  · rintro uid before e after rfl pop
    obtain ⟨mid, earlier⟩ := run_of_append run
    exact returnsOwn_of_run earlier pop
  · intro metric accepted
    rcases inv.kept metric accepted with queued | popped
    · exact .inl queued
    · exact .inr (.inr popped)

end Runs

/-- A name without tags. -/
def named (key : String) : StatName := { StatName.blank with key := key }

/-- A metric that is added, handed out, added again in vain, and added back. -/
theorem index_writes_once_again :
    ∃ h wc, Run (queueStep plainNaming) anyStep newCacher h wc ∧
      h.map (·.out) = [.added none, .returned (named "a"), .added none, .done, .added none,
        .returned (named "a")] ∧
      WritesOnce plainNaming h wc := by
  have run := run_of_exec (queueStep plainNaming) anyStep newCacher
    [.add (named "a"), .getNextMetric (some 3#64), .add (named "a"), .addBack (named "a"),
     .add (named "a"), .getNextMetric (some 3#64)] (by decide)
  exact ⟨_, _, run, by decide, index_writes_once run⟩

end Indexer
