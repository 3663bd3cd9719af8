import Cadent.Indexer.MetricRam
import Cadent.Lib.Maps
import Cadent.Schemas.Tags

/-!
# Caches of tag ids and of searches

Both caches keep the first entry under a key, with the second it was added in. The keys are texts
put together without a separator, so different tags or searches can have one key. The limit of the
tag cache is an hour in nanoseconds and is compared with seconds.
-/

namespace ReadCaches

open Indexer Maps Repr

/-- The entries that were added before some time are dropped. -/
def purge {ν : Type} (added : ν → Int) (maxBack : Int) (cache : Map String ν) : Map String ν :=
  (cache.keys.filter fun k => (cache.lookup k).any fun v => added v < maxBack).foldl
    (fun m k => m.erase k) cache

theorem lookup_of_purge {ν : Type} {added : ν → Int} {maxBack : Int} {cache : Map String ν}
    {k : String} {v : ν} (found : (purge added maxBack cache).lookup k = some v) :
    cache.lookup k = some v :=
  (lookup_foldl_erase.mp found).2

theorem lookup_of_erase {ν : Type} {cache : Map String ν} {k k' : String} {v : ν}
    (found : (cache.erase k').lookup k = some v) : cache.lookup k = some v := by
  rw [lookup_erase] at found
  split_ifs at found
  exact found

/-! ### Tag ids -/

/-- `TAG_CACHE_MAX_TIME_IN_CACHE`. -/
def tagCacheMaxTimeInCache : Int := 60 * 60 * 1000000000

structure TagCacheItem where
  added : Int
  name : String
  value : String
  isMeta : Bool
  id : String

abbrev TagCache := Map String TagCacheItem

namespace TagCache

def key (name value : String) (isMeta : Bool) : String :=
  name ++ value ++ if isMeta then "true" else "false"

def add (rc : TagCache) (now : Int) (name value : String) (isMeta : Bool) (id : String) :
    TagCache × Bool :=
  if (rc.lookup (key name value isMeta)).isSome then (rc, false)
  else (rc.insert (key name value isMeta) ⟨now, name, value, isMeta, id⟩, true)

def get (rc : TagCache) (now : Int) (name value : String) (isMeta : Bool) : TagCache × String :=
  match rc.lookup (key name value isMeta) with
  | none => (rc, "")
  | some gots =>
    if gots.added < now - tagCacheMaxTimeInCache then (rc.erase (key name value isMeta), "")
    else (rc, gots.id)

def periodPurge (rc : TagCache) (now : Int) : TagCache :=
  purge TagCacheItem.added (now - tagCacheMaxTimeInCache) rc

/-- What happens to a cache, each at some second. -/
inductive Op where
  | add (now : Int) (name value : String) (isMeta : Bool) (id : String)
  | get (now : Int) (name value : String) (isMeta : Bool)
  | periodPurge (now : Int)

def step (rc : TagCache) : Op → TagCache
  | .add now name value isMeta id => (rc.add now name value isMeta id).1
  | .get now name value isMeta => (rc.get now name value isMeta).1
  | .periodPurge now => rc.periodPurge now

def run (history : List Op) : TagCache := history.foldl step ∅

/-- A get answers nothing or the id of an add of the same tag in the hour before. -/
def Honest (history : List Op) : Prop :=
  ∀ before now name value isMeta after, history = before ++ .get now name value isMeta :: after →
    ((run before).get now name value isMeta).2 = "" ∨ ∃ added,
      .add added name value isMeta ((run before).get now name value isMeta).2 ∈ before ∧
        now - 60 * 60 ≤ added

/-- Before a get, tags with the same flag whose name and value together are the same text are the
same, and were added in the hour before. -/
def Apart (history : List Op) : Prop :=
  ∀ before now name value isMeta after, history = before ++ .get now name value isMeta :: after →
    ∀ added name' value' id, .add added name' value' isMeta id ∈ before →
      name' ++ value' = name ++ value → name' = name ∧ value' = value ∧ now - 60 * 60 ≤ added

/-- It is enough that the tags of any two operations can be told apart. -/
theorem apart_of_mem {history : List Op}
    (all : ∀ now name value isMeta, .get now name value isMeta ∈ history →
      ∀ added name' value' id, .add added name' value' isMeta id ∈ history →
        name' ++ value' = name ++ value →
          name' = name ∧ value' = value ∧ now - 60 * 60 ≤ added) : Apart history := by
  rintro before now name value isMeta after rfl added name' value' id mem
  exact all now name value isMeta (by simp) added name' value' id (List.mem_append_left _ mem)

/-- The flag can be told from the last letters of a key. -/
theorem eq_of_key_eq {name value name' value' : String} {isMeta isMeta' : Bool}
    (same : key name value isMeta = key name' value' isMeta') :
    name ++ value = name' ++ value' ∧ isMeta = isMeta' := by
  have chars := congrArg String.toList same
  cases isMeta <;> cases isMeta' <;>
    simp only [key, Bool.false_eq_true, if_true, if_false, String.toList_append] at chars
  · have texts := List.append_cancel_right chars
    rw [← String.toList_append, ← String.toList_append] at texts
    exact ⟨String.toList_inj.mp texts, rfl⟩
  · have ends := congrArg List.reverse chars
    simp at ends
  · have ends := congrArg List.reverse chars
    simp at ends
  · have texts := List.append_cancel_right chars
    rw [← String.toList_append, ← String.toList_append] at texts
    exact ⟨String.toList_inj.mp texts, rfl⟩

/-- The entries that an operation puts. -/
def Puts (op : Op) (k : String) (item : TagCacheItem) : Prop :=
  ∃ now name value isMeta id, op = .add now name value isMeta id ∧ k = key name value isMeta ∧
    item = ⟨now, name, value, isMeta, id⟩

theorem lookup_step (rc : TagCache) (op : Op) (k : String) (item : TagCacheItem)
    (found : (rc.step op).lookup k = some item) : rc.lookup k = some item ∨ Puts op k item := by
  cases op with
  | add now name value isMeta id =>
    rw [step, add] at found
    split_ifs at found
    · exact .inl found
    · rw [lookup_insert] at found
      split_ifs at found with same
      · exact .inr ⟨now, name, value, isMeta, id, rfl, same, (Option.some.inj found).symm⟩
      · exact .inl found
  | get now name value isMeta =>
    rw [step, get] at found
    split at found
    · exact .inl found
    · split_ifs at found
      · exact .inl (lookup_of_erase found)
      · exact .inl found
  | periodPurge now => exact .inl (lookup_of_purge found)

/-- A get answers nothing or what some add put under the same key. -/
theorem get_cases (before : List Op) (now : Int) (name value : String) (isMeta : Bool) :
    ((run before).get now name value isMeta).2 = "" ∨ ∃ added name' value',
      .add added name' value' isMeta ((run before).get now name value isMeta).2 ∈ before ∧
        name' ++ value' = name ++ value := by
  rw [get]
  rcases found : (run before).lookup (key name value isMeta) with _ | gots
  · exact .inl rfl
  · dsimp only
    split_ifs
    · exact .inl rfl
    · obtain ⟨op, mem, added, name', value', isMeta', id, rfl, same, rfl⟩ :=
        exists_mem_of_lookup_foldl (fun rc k => rc.lookup k) step lookup_step (fun _ => rfl) found
      obtain ⟨texts, rfl⟩ := eq_of_key_eq same
      exact .inr ⟨added, name', value', mem, texts.symm⟩

theorem Apart.honest {history : List Op} (apart : Apart history) : Honest history := by
  intro before now name value isMeta after cut
  rcases get_cases before now name value isMeta with nothing | ⟨added, name', value', mem, texts⟩
  · exact .inl nothing
  · obtain ⟨rfl, rfl, recent⟩ := apart before now name value isMeta after cut _ _ _ _ mem texts
    exact .inr ⟨added, mem, recent⟩

end TagCache

/-! ### Searches -/

/-- `INDEX_CACHE_MAX_TIME_IN_CACHE`, in nanoseconds. -/
def indexCacheMaxTimeInCache : Int := 60 * 1000000000

structure IndexCacheItem where
  added : Int
  data : List MetricFindItem

structure IndexReadCache where
  cache : Map String IndexCacheItem
  maxItems : Int

namespace IndexReadCache

def newIndexCache (maxItems : Int) : IndexReadCache := ⟨∅, maxItems⟩

def key (metric : String) (tags : List Tag) : String := metric ++ toStringSep tags "=" " "

/-- An add to a full cache first drops the entry that a range over the cache begins with. -/
def add (rc : IndexReadCache) (range : List String → List String) (now : Int) (metric : String)
    (tags : List Tag) (items : List MetricFindItem) : IndexReadCache × Bool :=
  if (rc.cache.lookup (key metric tags)).isSome then (rc, false)
  else
    let cache := if rc.maxItems < rc.cache.keys.length then
      (range rc.cache.keys).head?.elim rc.cache rc.cache.erase else rc.cache
    ({ rc with cache := cache.insert (key metric tags) ⟨now, items⟩ }, true)

def get (rc : IndexReadCache) (now : Int) (metric : String) (tags : List Tag) :
    IndexReadCache × Option (List MetricFindItem) :=
  match rc.cache.lookup (key metric tags) with
  | none => (rc, none)
  | some gots =>
    if gots.added < now - indexCacheMaxTimeInCache / 1000000000 then
      ({ rc with cache := rc.cache.erase (key metric tags) }, none)
    else (rc, some gots.data)

def periodPurge (rc : IndexReadCache) (now : Int) : IndexReadCache :=
  { rc with cache := purge IndexCacheItem.added (now - indexCacheMaxTimeInCache) rc.cache }

/-- What happens to a cache, each at some second. -/
inductive Op where
  | add (range : List String → List String) (now : Int) (metric : String) (tags : List Tag)
      (items : List MetricFindItem)
  | get (now : Int) (metric : String) (tags : List Tag)
  | periodPurge (now : Int)

def step (rc : IndexReadCache) : Op → IndexReadCache
  | .add range now metric tags items => (rc.add range now metric tags items).1
  | .get now metric tags => (rc.get now metric tags).1
  | .periodPurge now => rc.periodPurge now

def run (maxItems : Int) (history : List Op) : IndexReadCache :=
  history.foldl step (newIndexCache maxItems)

/-- A get answers nothing or the items of an add for the same search in the minute before. -/
def Honest (maxItems : Int) (history : List Op) : Prop :=
  ∀ before now metric tags after, history = before ++ .get now metric tags :: after →
    ((run maxItems before).get now metric tags).2 = none ∨ ∃ range added items,
      .add range added metric tags items ∈ before ∧ now - 60 ≤ added ∧
        ((run maxItems before).get now metric tags).2 = some items

/-- Before a get, searches with the same text for the metric and the tags together are the same. -/
def Apart (history : List Op) : Prop :=
  ∀ before now metric tags after, history = before ++ .get now metric tags :: after →
    ∀ range added metric' tags' items, .add range added metric' tags' items ∈ before →
      key metric' tags' = key metric tags → metric' = metric ∧ tags' = tags

theorem apart_of_mem {history : List Op}
    (all : ∀ now metric tags, .get now metric tags ∈ history →
      ∀ range added metric' tags' items, .add range added metric' tags' items ∈ history →
        key metric' tags' = key metric tags → metric' = metric ∧ tags' = tags) :
    Apart history := by
  rintro before now metric tags after rfl range added metric' tags' items mem
  exact all now metric tags (by simp) range added metric' tags' items
    (List.mem_append_left _ mem)

/-- The entries that an operation puts. -/
def Puts (op : Op) (k : String) (item : IndexCacheItem) : Prop :=
  ∃ range now metric tags items, op = .add range now metric tags items ∧ k = key metric tags ∧
    item = ⟨now, items⟩

theorem lookup_step (rc : IndexReadCache) (op : Op) (k : String) (item : IndexCacheItem)
    (found : (rc.step op).cache.lookup k = some item) :
    rc.cache.lookup k = some item ∨ Puts op k item := by
  cases op with
  | add range now metric tags items =>
    rw [step, add] at found
    split_ifs at found with known full
    · exact .inl found
    · rw [lookup_insert] at found
      split_ifs at found with same
      · exact .inr ⟨range, now, metric, tags, items, rfl, same, (Option.some.inj found).symm⟩
      · rcases first : (range rc.cache.keys).head? with _ | k'
        · rw [first] at found
          exact .inl found
        · rw [first] at found
          exact .inl (lookup_of_erase found)
    · rw [lookup_insert] at found
      split_ifs at found with same
      · exact .inr ⟨range, now, metric, tags, items, rfl, same, (Option.some.inj found).symm⟩
      · exact .inl found
  | get now metric tags =>
    rw [step, get] at found
    split at found
    · exact .inl found
    · split_ifs at found
      · exact .inl (lookup_of_erase found)
      · exact .inl found
  | periodPurge now => exact .inl (lookup_of_purge found)

theorem Apart.honest {history : List Op} (apart : Apart history) (maxItems : Int) :
    Honest maxItems history := by
  intro before now metric tags after cut
  rw [get]
  rcases found : (run maxItems before).cache.lookup (key metric tags) with _ | gots
  · exact .inl rfl
  · dsimp only
    split_ifs with old
    · exact .inl rfl
    · obtain ⟨op, mem, range, added, metric', tags', items, rfl, same, rfl⟩ :=
        exists_mem_of_lookup_foldl (fun rc k => rc.cache.lookup k) step lookup_step
          (fun _ => rfl) found
      obtain ⟨rfl, rfl⟩ := apart before now metric tags after cut _ _ _ _ _ mem same.symm
      refine .inr ⟨range, added, items, mem, ?_, rfl⟩
      simp only [indexCacheMaxTimeInCache] at old
      omega

end IndexReadCache

/-- Both caches answer for their own keys as long as these can be told apart and no tag is asked
for after more than an hour. -/
theorem caches_honest_of_apart (tagHistory : List TagCache.Op) (history : List IndexReadCache.Op)
    (maxItems : Int) (tagsApart : TagCache.Apart tagHistory)
    (searchesApart : IndexReadCache.Apart history) :
    TagCache.Honest tagHistory ∧ IndexReadCache.Honest maxItems history :=
  ⟨tagsApart.honest, searchesApart.honest maxItems⟩

/-- Two tags, one of them added again later, with a purge between the gets. -/
def tagHistory : List TagCache.Op :=
  [.add 0 "host" "web" false "1", .add 5 "host" "db" false "2", .get 60 "host" "web" false,
    .add 70 "host" "web" false "9", .periodPurge 80, .get 90 "host" "db" false,
    .get 95 "host" "web" false]

/-- Two searches in a cache for less, so that the second add drops the first one. -/
def searchHistory : List IndexReadCache.Op :=
  [.add id 0 "a.*" [] [⟨"b", "a.b", "a.b", "1", 0, 1, 0⟩], .get 10 "a.*" [],
    .add id 20 "a.*" [⟨"host", "web"⟩] [⟨"c", "a.c", "a.c", "2", 0, 1, 0⟩],
    .get 30 "a.*" [⟨"host", "web"⟩], .get 40 "a.*" [], .get 120 "a.*" [⟨"host", "web"⟩]]

theorem caches_honest_of_apart_shared :
    ((TagCache.run tagHistory).get 95 "host" "web" false).2 = "1" ∧
      ((IndexReadCache.run 0 (searchHistory.take 4)).get 40 "a.*" []).2 = none ∧
      TagCache.Apart tagHistory ∧ IndexReadCache.Apart searchHistory ∧
      TagCache.Honest tagHistory ∧ IndexReadCache.Honest 0 searchHistory := by
  have tagsApart : TagCache.Apart tagHistory := by
    refine TagCache.apart_of_mem ?_
    intro now name value isMeta asked added name' value' id mem
    simp only [tagHistory, List.mem_cons, TagCache.Op.get.injEq, TagCache.Op.add.injEq,
      reduceCtorEq, List.not_mem_nil, or_false, false_or] at asked mem
    rcases asked with ⟨rfl, rfl, rfl, rfl⟩ | ⟨rfl, rfl, rfl, rfl⟩ | ⟨rfl, rfl, rfl, rfl⟩
    all_goals rcases mem with ⟨rfl, rfl, rfl, -, -⟩ | ⟨rfl, rfl, rfl, -, -⟩ | ⟨rfl, rfl, rfl, -, -⟩
    all_goals decide +kernel
  have searchesApart : IndexReadCache.Apart searchHistory := by
    refine IndexReadCache.apart_of_mem ?_
    intro now metric tags asked range added metric' tags' items mem
    simp only [searchHistory, List.mem_cons, IndexReadCache.Op.get.injEq,
      IndexReadCache.Op.add.injEq, reduceCtorEq, List.not_mem_nil, or_false, false_or] at asked mem
    rcases asked with ⟨rfl, rfl, rfl⟩ | ⟨rfl, rfl, rfl⟩ | ⟨rfl, rfl, rfl⟩ | ⟨rfl, rfl, rfl⟩
    all_goals rcases mem with ⟨-, -, rfl, rfl, -⟩ | ⟨-, -, rfl, rfl, -⟩
    all_goals decide +kernel
  exact ⟨by decide +kernel, by decide +kernel, tagsApart, searchesApart,
    caches_honest_of_apart _ _ 0 tagsApart searchesApart⟩

/-- A tag is answered with the id of another one, a tag with an id from two hours before, and a
search with the items of another one. -/
theorem not_honest :
    ¬ TagCache.Honest [.add 0 "ab" "c" false "1", .get 0 "a" "bc" false] ∧
      ¬ TagCache.Honest [.add 0 "a" "b" false "1", .get 7200 "a" "b" false] ∧
      ¬ IndexReadCache.Honest 10 [.add id 0 "aa=b" [] [], .get 0 "a" [⟨"a", "b"⟩]] := by
  refine ⟨fun honest => ?_, fun honest => ?_, fun honest => ?_⟩
  · rcases honest [.add 0 "ab" "c" false "1"] 0 "a" "bc" false [] rfl with nothing | ⟨added, mem, _⟩
    · exact absurd nothing (by decide)
    · simp at mem
  · rcases honest [.add 0 "a" "b" false "1"] 7200 "a" "b" false [] rfl with
      nothing | ⟨added, mem, late⟩
    · exact absurd nothing (by decide)
    · simp at mem
      omega
  · rcases honest [.add id 0 "aa=b" [] []] 0 "a" [⟨"a", "b"⟩] [] rfl with
      nothing | ⟨_, _, _, mem, _⟩
    · exact absurd nothing (by decide)
    · simp at mem

end ReadCaches
