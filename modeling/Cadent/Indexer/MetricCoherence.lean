import Cadent.Indexer.Partitions
import Cadent.Lib.Runs

/-!
# Coherence of the metric index

The index is coherent when the two maps are inverse to each other, the trie has the paths of the
one with the uids of the other, and only indexed uids have a time. `CullExpired` removes uids
where the map has paths, and `Delete` removes a path where the map has uids; a call of them keeps
the index coherent when that makes no difference.
-/

namespace Indexer

open Maps Text Utils Runs

structure Coherent (mi : MetricIndex) : Prop where
  inverse : ∀ path uid, mi.nameIndex.lookup path = some uid ↔ mi.uidIndex.lookup uid = some path
  trie : ∀ path, (mi.trieIndex.get path).map (fun item => (item.path, item.uid)) =
    (mi.nameIndex.lookup path).map fun uid => (path, uid)
  hits : ∀ uid, (mi.lastHit.lookup uid).isSome → (mi.uidIndex.lookup uid).isSome

/-! ### Calls -/

inductive Call where
  | add (uid path : String) (now : Int)
  | setLastSeen (uid : String) (lastseen : Int)
  | delete (path : String)
  | deleteByUid (uid : String)
  | cullExpired (now : String → Int) (dur : Int) (order : List (String × String))

def step (mi : MetricIndex) : Call → Option (MetricIndex × Outcome)
  | .add uid path now => some (mi.add uid path now, .done)
  | .setLastSeen uid lastseen => some (mi.setLastSeen uid lastseen, .done)
  | .delete path => some (mi.delete path)
  | .deleteByUid uid => some (mi.deleteByUid uid)
  | .cullExpired now dur order =>
    if order.Perm (mi.toDel now dur) then some (mi.cullExpired order, .done) else none

/-- Metrics by uid and path: neither has two of the other, and the paths are short. -/
structure Metrics where
  named : String → String → Prop
  paired : ∀ {uid path uid' path'}, named uid path → named uid' path' → (uid = uid' ↔ path = path')
  short : ∀ {uid path}, named uid path → (split path ".").length < numPartitions

/-- The calls that are made. -/
def Regular (metrics : Metrics) (mi : MetricIndex) : Call → Prop
  | .add uid path _ => metrics.named uid path
  | .setLastSeen uid _ => (mi.uidIndex.lookup uid).isSome
  | .delete path => (split path ".").length < numPartitions
  | .deleteByUid _ | .cullExpired _ _ _ => True

/-- The metric of a path has not been seen again since it was added, or it has its path as its
uid. -/
def Forgets (mi : MetricIndex) (path : String) : Prop :=
  ∀ uid ∈ mi.nameIndex.lookup path, mi.lastHit.lookup uid = none ∨ uid = path

/-- What a call expires. -/
def Expires (mi : MetricIndex) (now : String → Int) (dur : Int) (uid : String) : Prop :=
  (mi.uidIndex.lookup uid).isSome ∧ mi.expired (now uid) dur uid

/-- The calls for which it makes no difference that a path and a uid are confused. -/
def Careful (mi : MetricIndex) : Call → Prop
  | .delete path => needRegex path ∨ Forgets mi path
  | .deleteByUid uid => ∀ path ∈ mi.uidIndex.lookup uid, needRegex path ∨ Forgets mi path
  | .cullExpired now dur _ => ∀ e ∈ mi.nameIndex.entries,
      (Expires mi now dur e.2 ↔ Expires mi now dur e.1)
  | .add _ _ _ | .setLastSeen _ _ => True

instance (mi : MetricIndex) (path : String) : Decidable (Forgets mi path) :=
  inferInstanceAs (Decidable (∀ uid ∈ mi.nameIndex.lookup path, _ ∨ _))

instance (mi : MetricIndex) (now : String → Int) (dur : Int) (uid : String) :
    Decidable (Expires mi now dur uid) :=
  inferInstanceAs (Decidable (_ ∧ _))

instance (metrics : Metrics) [∀ uid path, Decidable (metrics.named uid path)] (mi : MetricIndex) :
    (c : Call) → Decidable (Regular metrics mi c)
  | .add uid path _ => inferInstanceAs (Decidable (metrics.named uid path))
  | .setLastSeen uid _ => inferInstanceAs (Decidable (mi.uidIndex.lookup uid).isSome)
  | .delete path => inferInstanceAs (Decidable ((split path ".").length < numPartitions))
  | .deleteByUid _ | .cullExpired _ _ _ => inferInstanceAs (Decidable True)

instance (mi : MetricIndex) : (c : Call) → Decidable (Careful mi c)
  | .delete path => inferInstanceAs (Decidable (needRegex path ∨ Forgets mi path))
  | .deleteByUid uid =>
    inferInstanceAs (Decidable (∀ path ∈ mi.uidIndex.lookup uid, needRegex path ∨ Forgets mi path))
  | .cullExpired now dur _ =>
    inferInstanceAs (Decidable (∀ e ∈ mi.nameIndex.entries,
      (Expires mi now dur e.2 ↔ Expires mi now dur e.1)))
  | .add _ _ _ | .setLastSeen _ _ => inferInstanceAs (Decidable True)

/-! ### Removals -/

section Cull

variable (mi : MetricIndex) (order : List (String × String))

theorem cull_nameIndex : (mi.cullExpired order).nameIndex =
    (order.map Prod.fst).foldl (fun m k => m.erase k) mi.nameIndex := by
  induction order generalizing mi with
  | nil => rfl
  | cons e order ih => exact ih (mi.cull e)

theorem cull_uidIndex : (mi.cullExpired order).uidIndex =
    (order.map Prod.fst).foldl (fun m k => m.erase k) mi.uidIndex := by
  induction order generalizing mi with
  | nil => rfl
  | cons e order ih => exact ih (mi.cull e)

theorem cull_lastHit : (mi.cullExpired order).lastHit =
    (order.map Prod.fst).foldl (fun m k => m.erase k) mi.lastHit := by
  induction order generalizing mi with
  | nil => rfl
  | cons e order ih => exact ih (mi.cull e)

theorem cull_trieIndex : (mi.cullExpired order).trieIndex =
    (order.map Prod.snd).foldl (fun tr k => (tr.pop k).1) mi.trieIndex := by
  induction order generalizing mi with
  | nil => rfl
  | cons e order ih => exact ih (mi.cull e)

end Cull

/-! ### The invariant -/

/-- A coherent index of some metrics. -/
structure Indexes (metrics : Metrics) (mi : MetricIndex) : Prop extends Coherent mi where
  known : ∀ path uid, mi.nameIndex.lookup path = some uid → metrics.named uid path
  sound : mi.trieIndex.Sound

variable {metrics : Metrics} {mi : MetricIndex}

theorem indexes_new : Indexes metrics .new where
  inverse _ _ := ⟨nofun, nofun⟩
  trie path := by
    have empty : (Utils.new "." : Trie TrieItem).get path = none := Trie.Refines.new.get path
    rw [MetricIndex.new, empty]
    rfl
  hits := nofun
  known := nofun
  sound := .new

namespace Indexes

theorem add (indexes : Indexes metrics mi) {uid path : String} (named : metrics.named uid path)
    (now : Int) : Indexes metrics (mi.add uid path now) := by
  rw [MetricIndex.add]
  split
  next uid' found =>
    have same : uid' = uid := (metrics.paired (indexes.known _ _ found) named).mpr rfl
    subst same
    refine { indexes with hits := ?_ }
    intro u hit
    rw [lookup_insert] at hit
    split_ifs at hit with here
    · rw [here, (indexes.inverse _ _).mp found]
      rfl
    · exact indexes.hits u hit
  next fresh =>
    constructor
    · constructor
      · intro p u
        rw [lookup_insert, lookup_insert]
        split_ifs with samePath sameUid sameUid
        · rw [samePath, sameUid]
          simp only
        · rw [samePath, ← indexes.inverse, fresh]
          exact ⟨fun own => absurd (Option.some.inj own).symm sameUid, nofun⟩
        · constructor
          · intro found
            exact absurd ((metrics.paired (indexes.known p u found) named).mp sameUid) samePath
          · intro own
            exact absurd (Option.some.inj own).symm samePath
        · exact indexes.inverse p u
      · intro p
        rw [indexes.sound.get_put, lookup_insert]
        split_ifs with same
        · rw [same]
          rfl
        · exact indexes.trie p
      · intro u hit
        rw [lookup_insert]
        split_ifs
        · rfl
        · exact indexes.hits u hit
    · intro p u found
      rw [lookup_insert] at found
      split_ifs at found with same
      · cases found
        exact same ▸ named
      · exact indexes.known p u found
    · exact indexes.sound.put path _

/-- An index from which some metrics are gone everywhere is coherent. -/
theorem without (indexes : Indexes metrics mi) {mi' : MetricIndex} (gone : String → Prop)
    (name : ∀ path uid, mi'.nameIndex.lookup path = some uid ↔
      mi.nameIndex.lookup path = some uid ∧ ¬gone uid)
    (uids : ∀ path uid, mi'.uidIndex.lookup uid = some path ↔
      mi.uidIndex.lookup uid = some path ∧ ¬gone uid)
    (items : ∀ path item, mi'.trieIndex.get path = some item ↔
      mi.trieIndex.get path = some item ∧ ¬gone item.uid)
    (hits : ∀ uid, (mi'.lastHit.lookup uid).isSome →
      (mi.lastHit.lookup uid).isSome ∧ ¬gone uid)
    (sound : mi'.trieIndex.Sound) : Indexes metrics mi' := by
  constructor
  · constructor
    · intro path uid
      rw [name, uids, indexes.inverse]
    · intro path
      apply Option.ext
      rintro ⟨path', uid⟩
      have old : (path', uid) ∈ (mi.trieIndex.get path).map (fun item => (item.path, item.uid)) ↔
          (path', uid) ∈ (mi.nameIndex.lookup path).map fun uid => (path, uid) := by
        rw [indexes.trie]
      simp only [Option.mem_def, Option.map_eq_some_iff, Prod.mk.injEq, items, name] at old ⊢
      constructor
      · rintro ⟨item, ⟨found, stays⟩, rfl, rfl⟩
        obtain ⟨u, named, same, rfl⟩ := old.mp ⟨item, found, rfl, rfl⟩
        exact ⟨item.uid, ⟨named, stays⟩, same, rfl⟩
      · rintro ⟨u, ⟨named, stays⟩, rfl, rfl⟩
        obtain ⟨item, found, same, rfl⟩ := old.mpr ⟨u, named, rfl, rfl⟩
        exact ⟨item, ⟨found, stays⟩, same, rfl⟩
    · intro uid hit
      obtain ⟨seen, stays⟩ := hits uid hit
      obtain ⟨path, found⟩ := Option.isSome_iff_exists.mp (indexes.hits uid seen)
      exact Option.isSome_iff_exists.mpr ⟨path, (uids path uid).mpr ⟨found, stays⟩⟩
  · intro path uid found
    exact indexes.known path uid ((name path uid).mp found).1
  · exact sound

/-- The item of a path in the trie has the uid of the path. -/
theorem name_of_item (indexes : Indexes metrics mi) {path : String} {item : TrieItem}
    (found : mi.trieIndex.get path = some item) : mi.nameIndex.lookup path = some item.uid := by
  have same := indexes.trie path
  rw [found] at same
  obtain ⟨uid, named, eq⟩ := Option.map_eq_some_iff.mp same.symm
  rw [named, (Prod.mk.inj eq).2]

theorem path_unique (indexes : Indexes metrics mi) {path path' uid : String}
    (named : mi.nameIndex.lookup path = some uid) (named' : mi.nameIndex.lookup path' = some uid) :
    path = path' := by
  rw [indexes.inverse] at named named'
  exact Option.some.inj (named.symm.trans named')

theorem delete (indexes : Indexes metrics mi) {path : String}
    (careful : needRegex path ∨ Forgets mi path) : Indexes metrics (mi.delete path).1 := by
  rw [MetricIndex.delete]
  by_cases pattern : needRegex path
  · rw [if_pos pattern]
    exact indexes
  rw [if_neg pattern]
  have forgets := careful.resolve_left pattern
  dsimp only
  split
  next uid named =>
    apply indexes.without (· = uid)
    · intro p u
      rw [lookup_erase]
      split_ifs with same
      · have own : mi.nameIndex.lookup p = some uid := same ▸ named
        simp [own, eq_comm]
      · refine ⟨fun found => ⟨found, ?_⟩, And.left⟩
        rintro rfl
        exact same (indexes.path_unique found named)
    · intro p u
      rw [lookup_erase]
      split_ifs with same <;> simp [same]
    · intro p item
      rw [indexes.sound.get_pop]
      split_ifs with same
      · constructor
        · rintro ⟨⟩
        · rintro ⟨found, other⟩
          have own := indexes.name_of_item found
          exact absurd (Option.some.inj (own.symm.trans (same ▸ named))) other
      · refine ⟨fun found => ⟨found, ?_⟩, And.left⟩
        rintro rfl
        exact same (indexes.path_unique (indexes.name_of_item found) named)
    · intro u hit
      rw [lookup_erase] at hit
      split_ifs at hit with other
      · cases hit
      refine ⟨hit, ?_⟩
      rintro rfl
      rcases forgets u named with unseen | same
      · rw [unseen] at hit
        cases hit
      · exact other same
    · exact indexes.sound.pop path
  next missing =>
    apply indexes.without (fun _ => False)
    · simp
    · simp
    · intro p item
      rw [indexes.sound.get_pop]
      split_ifs with same
      · constructor
        · rintro ⟨⟩
        · rintro ⟨found, -⟩
          cases missing.symm.trans (same ▸ indexes.name_of_item found)
      · simp
    · intro u hit
      rw [lookup_erase] at hit
      split_ifs at hit
      · cases hit
      · exact ⟨hit, not_false⟩
    · exact indexes.sound.pop path

theorem mem_toDel {now : String → Int} {dur : Int} {uid path : String} :
    (uid, path) ∈ mi.toDel now dur ↔
      mi.uidIndex.lookup uid = some path ∧ mi.expired (now uid) dur uid := by
  simp only [MetricIndex.toDel, List.mem_map, List.mem_filter, Prod.mk.injEq]
  constructor
  · rintro ⟨e, ⟨mem, old⟩, rfl, rfl⟩
    exact ⟨mem_entries_iff.mp mem, old⟩
  · rintro ⟨found, old⟩
    exact ⟨⟨uid, path⟩, ⟨mem_entries_iff.mpr found, old⟩, rfl, rfl⟩

theorem expires_iff {now : String → Int} {dur : Int} {uid : String} :
    uid ∈ (mi.toDel now dur).map Prod.fst ↔ Expires mi now dur uid := by
  rw [Expires, Option.isSome_iff_exists, List.mem_map]
  constructor
  · rintro ⟨⟨u, path⟩, mem, rfl⟩
    obtain ⟨found, old⟩ := mem_toDel.mp mem
    exact ⟨⟨path, found⟩, old⟩
  · rintro ⟨⟨path, found⟩, old⟩
    exact ⟨(uid, path), mem_toDel.mpr ⟨found, old⟩, rfl⟩

theorem cullExpired (indexes : Indexes metrics mi) {now : String → Int} {dur : Int}
    {order : List (String × String)} (perm : order.Perm (mi.toDel now dur))
    (careful : ∀ e ∈ mi.nameIndex.entries,
      (Expires mi now dur e.2 ↔ Expires mi now dur e.1)) :
    Indexes metrics (mi.cullExpired order) := by
  have uids : ∀ uid, uid ∈ order.map Prod.fst ↔ Expires mi now dur uid := by
    intro uid
    rw [(perm.map _).mem_iff, expires_iff]
  apply indexes.without (Expires mi now dur)
  · intro p u
    rw [cull_nameIndex, lookup_foldl_erase, uids, and_comm]
    refine and_congr_right fun found => not_congr ?_
    exact (careful ⟨p, u⟩ (mem_entries_iff.mpr found)).symm
  · intro p u
    rw [cull_uidIndex, lookup_foldl_erase, uids, and_comm]
  · intro p item
    rw [cull_trieIndex, indexes.sound.get_pops, and_comm]
    refine and_congr_right fun found => not_congr ?_
    have named := (indexes.inverse _ _).mp (indexes.name_of_item found)
    rw [(perm.map _).mem_iff, List.mem_map]
    constructor
    · rintro ⟨⟨u, p'⟩, mem, rfl⟩
      obtain ⟨own, old⟩ := mem_toDel.mp mem
      have same : u = item.uid := by
        rw [← indexes.inverse] at own named
        exact Option.some.inj (own.symm.trans named)
      exact same ▸ ⟨by rw [own]; rfl, old⟩
    · rintro ⟨_, old⟩
      exact ⟨(item.uid, p), mem_toDel.mpr ⟨named, old⟩, rfl⟩
  · intro u hit
    obtain ⟨t, seen⟩ := Option.isSome_iff_exists.mp hit
    rw [cull_lastHit, lookup_foldl_erase, uids] at seen
    exact ⟨Option.isSome_iff_exists.mpr ⟨t, seen.2⟩, seen.1⟩
  · rw [cull_trieIndex]
    exact indexes.sound.pops _

theorem setLastSeen (indexes : Indexes metrics mi) {uid : String}
    (known : (mi.uidIndex.lookup uid).isSome) (lastseen : Int) :
    Indexes metrics (mi.setLastSeen uid lastseen) := by
  refine { indexes with hits := ?_ }
  intro u hit
  rw [MetricIndex.setLastSeen, lookup_insert] at hit
  split_ifs at hit with same
  · exact same ▸ known
  · exact indexes.hits u hit

theorem step (indexes : Indexes metrics mi) {c : Call} {mi' : MetricIndex} {o : Outcome}
    (regular : Regular metrics mi c) (careful : Careful mi c)
    (taken : step mi c = some (mi', o)) : Indexes metrics mi' := by
  cases c with
  | add uid path now =>
    cases taken
    exact indexes.add regular now
  | setLastSeen uid lastseen =>
    cases taken
    exact indexes.setLastSeen regular lastseen
  | delete path =>
    obtain rfl : (mi.delete path).1 = mi' := congrArg Prod.fst (Option.some.inj taken)
    exact indexes.delete careful
  | deleteByUid uid =>
    obtain rfl : (mi.deleteByUid uid).1 = mi' := congrArg Prod.fst (Option.some.inj taken)
    rw [MetricIndex.deleteByUid]
    split
    next path found => exact indexes.delete (careful path found)
    next => exact indexes
  | cullExpired now dur order =>
    rw [Indexer.step] at taken
    split_ifs at taken with perm
    cases taken
    exact indexes.cullExpired perm careful

end Indexes

/-! ### Short paths -/

theorem not_dvd_segments {path : String} (short : (split path ".").length < numPartitions) :
    ¬ numPartitions ∣ segments path := by
  have hpos : 0 < segments path := List.length_pos_iff.mpr (split_ne_nil Utils.dot path)
  exact fun full => absurd (Nat.le_of_dvd hpos full) (not_le.mpr short)

theorem delete_returns {path : String} (short : (split path ".").length < numPartitions) :
    (mi.delete path).2 ≠ .panicked := by
  intro panicked
  exact not_dvd_segments short ((delete_panicked_iff mi path).mp panicked).2

theorem Indexes.returns (indexes : Indexes metrics mi) {c : Call} {mi' : MetricIndex} {o : Outcome}
    (regular : Regular metrics mi c) (taken : Indexer.step mi c = some (mi', o)) :
    o ≠ .panicked := by
  cases c with
  | add uid path now | setLastSeen uid lastseen =>
    cases taken
    rintro ⟨⟩
  | delete path =>
    obtain rfl : (mi.delete path).2 = o := congrArg Prod.snd (Option.some.inj taken)
    exact delete_returns regular
  | deleteByUid uid =>
    obtain rfl : (mi.deleteByUid uid).2 = o := congrArg Prod.snd (Option.some.inj taken)
    rw [MetricIndex.deleteByUid]
    split
    next path found =>
      exact delete_returns (metrics.short
        (indexes.known path uid ((indexes.inverse _ _).mpr found)))
    next => rintro ⟨⟩
  | cullExpired now dur order =>
    rw [Indexer.step] at taken
    split_ifs at taken
    cases taken
    rintro ⟨⟩

/-! ### A metric that is added -/

/-- A metric that `Contains`, `Find` and the uid find. A path is the one target of its own query
when `Find` does not take it for several targets or for the root. -/
structure Present (mi : MetricIndex) (uid path : String) : Prop where
  contains : mi.contains path = uid
  containsUid : mi.containsUid uid = path
  findByUid : mi.findByUid uid = [⟨path, path, path, "", 0, 1, 0⟩]
  trie : ∃ item, mi.trieIndex.get path = some item ∧ item.path = path ∧ item.uid = uid
  find : splitMetricsPath path = [path] → path ≠ "*" → ∀ compile range hasDataOnly,
    mi.find compile range path hasDataOnly =
      ([⟨(split path ".").getLastD "", path, path, uid, 0, 1, 0⟩], none)

theorem Coherent.present {uid path : String} (coherent : Coherent mi)
    (named : mi.nameIndex.lookup path = some uid) : Present mi uid path := by
  have found := (coherent.inverse path uid).mp named
  constructor
  · rw [MetricIndex.contains, named, Option.getD_some]
  · rw [MetricIndex.containsUid, found, Option.getD_some]
  · rw [MetricIndex.findByUid, found]
  · have items := coherent.trie path
    rw [named] at items
    obtain ⟨item, held, same⟩ := Option.map_eq_some_iff.mp items
    obtain ⟨path', uid'⟩ := Prod.mk.inj same
    exact ⟨item, held, path', uid'⟩
  · intro target root compile range hasDataOnly
    rw [MetricIndex.find, if_neg root, target, List.foldl_cons, List.foldl_nil,
      MetricIndex.findTarget, named]
    rfl

theorem lookup_add (indexes : Indexes metrics mi) {uid path : String}
    (named : metrics.named uid path) (now : Int) :
    (mi.add uid path now).nameIndex.lookup path = some uid := by
  rw [MetricIndex.add]
  split
  next uid' found =>
    rw [← (metrics.paired (indexes.known _ _ found) named).mpr rfl]
    exact found
  next => exact AList.lookup_insert _

/-! ### Runs -/

/-- In every run whose calls are careful no call panics, the index is coherent in the state that
is reached, and a metric that is added there, for the first time or again, is found. -/
theorem index_coherent (metrics : Metrics) {h : List (Taken MetricIndex Call Outcome)}
    {mi : MetricIndex}
    (run : Run step (fun mi c => Regular metrics mi c ∧ Careful mi c) .new h mi) :
    Coherent mi ∧ (∀ e ∈ h, e.out ≠ .panicked) ∧
      ∀ uid path now, metrics.named uid path → Present (mi.add uid path now) uid path := by
  have kept : Indexes metrics mi ∧ ∀ e ∈ h, e.out ≠ .panicked := by
    refine run_invariant (fun h mi => Indexes metrics mi ∧ ∀ e ∈ h, e.out ≠ .panicked)
      ⟨indexes_new, nofun⟩ ?_ run
    rintro h mi c mi' o ⟨indexes, returns⟩ ⟨regular, careful⟩ taken
    refine ⟨indexes.step regular careful taken, ?_⟩
    intro e mem
    rcases List.mem_append.mp mem with old | new
    · exact returns e old
    · obtain rfl := List.mem_singleton.mp new
      exact indexes.returns regular taken
  refine ⟨kept.1.toCoherent, kept.2, ?_⟩
  intro uid path now named
  exact (kept.1.add named now).toCoherent.present (lookup_add kept.1 named now)

/-- The one metric of the runs below. -/
def oneMetric : Metrics where
  named uid path := uid = "2j4" ∧ path = "a.b"
  paired := by
    rintro _ _ _ _ ⟨rfl, rfl⟩ ⟨rfl, rfl⟩
    simp only
  short := by
    rintro _ _ ⟨rfl, rfl⟩
    decide

instance (uid path : String) : Decidable (oneMetric.named uid path) :=
  inferInstanceAs (Decidable (_ ∧ _))

def readded : List Call :=
  [.add "2j4" "a.b" 0, .deleteByUid "2j4", .add "2j4" "a.b" 1, .setLastSeen "2j4" 2,
    .cullExpired (fun _ => 4) 3 []]

theorem readded_run : (exec step (fun mi c => Regular oneMetric mi c ∧ Careful mi c) .new
    readded).isSome := by
  decide

theorem index_coherent_readded : Coherent ((exec step
    (fun mi c => Regular oneMetric mi c ∧ Careful mi c) .new readded).get readded_run).2 :=
  (index_coherent oneMetric (run_of_exec step _ .new readded readded_run)).1

def culled : List Call :=
  [.add "2j4" "a.b" 0, .cullExpired (fun _ => 0) 1 [("2j4", "a.b")], .add "2j4" "a.b" 1]

theorem culled_run : (exec step (Regular oneMetric) .new culled).isSome := by
  decide

def deleted : List Call :=
  [.add "2j4" "a.b" 0, .add "2j4" "a.b" 1, .delete "a.b"]

theorem deleted_run : (exec step (Regular oneMetric) .new deleted).isSome := by
  decide

/-- A metric that is culled and added again is known by its path alone, and one that is deleted
after it was added twice leaves its time behind. -/
theorem index_incoherent :
    (∃ h mi, Run step (Regular oneMetric) .new h mi ∧ mi.contains "a.b" = "2j4" ∧
      mi.containsUid "2j4" = "" ∧ mi.trieIndex.get "a.b" = none ∧ ¬Coherent mi) ∧
    (∃ h mi, Run step (Regular oneMetric) .new h mi ∧ mi.uidIndex.lookup "2j4" = none ∧
      mi.lastHit.lookup "2j4" = some 1 ∧ ¬Coherent mi) := by
  constructor
  · refine ⟨_, _, run_of_exec step (Regular oneMetric) .new culled culled_run, ?_, ?_, ?_, ?_⟩
    · decide
    · decide
    · decide
    · intro coherent
      have known := (coherent.inverse "a.b" "2j4").mp (by decide)
      revert known
      decide
  · refine ⟨_, _, run_of_exec step (Regular oneMetric) .new deleted deleted_run, ?_, ?_, ?_⟩
    · decide
    · decide
    · intro coherent
      have known := coherent.hits "2j4" (by decide)
      revert known
      decide

end Indexer
