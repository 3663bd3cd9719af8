import Cadent.Indexer.MetricCoherence
import Cadent.Lib.Globs
import Cadent.Lib.Words
import Cadent.Utils.TrieSearch

/-!
# Searches for several targets

A query may have several targets with commas between them. A target that is indexed is answered
with the whole query for its path, and one that is neither indexed nor a pattern is searched for
by the whole query, so a list is searched target by target only where every target is a pattern.
-/

namespace Indexer

open Maps Text Utils Runs

/-! ### What a search collects -/

/-- The item of a node, if it is shown. -/
def itemOf (hasDataOnly : Bool) (key : String) : Found TrieItem → Option MetricFindItem
  | .value (some item) => some ⟨(split key ".").getLastD "", key, key, item.uid, 0, 1, 0⟩
  | .value none | .children _ =>
    if hasDataOnly then none else some ⟨(split key ".").getLastD "", key, key, "", 1, 0, 1⟩

theorem path_of_itemOf {hasDataOnly : Bool} {key : String} {f : Found TrieItem}
    {item : MetricFindItem} (shown : itemOf hasDataOnly key f = some item) : item.path = key := by
  rcases f with children | (_ | value)
  · cases hasDataOnly with
    | true => cases shown
    | false => exact congrArg MetricFindItem.path (Option.some.inj shown).symm
  · cases hasDataOnly with
    | true => cases shown
    | false => exact congrArg MetricFindItem.path (Option.some.inj shown).symm
  · exact congrArg MetricFindItem.path (Option.some.inj shown).symm

def itemAt (mi : MetricIndex) (hasDataOnly : Bool) (key : String) : Option MetricFindItem :=
  (mi.trieIndex.node? key).bind fun c => itemOf hasDataOnly key c.found

/-- The items so far are those of the keys that were seen. -/
structure Collected (mi : MetricIndex) (hasDataOnly : Bool) (st : FindState) : Prop where
  items : st.mt.map some = st.seenList.map (itemAt mi hasDataOnly)
  once : st.seenList.Nodup

variable {mi : MetricIndex} {hasDataOnly : Bool} {st : FindState}

theorem visit_eq (reg : Option (String → Bool)) (st : FindState) (key : String)
    (f : Found TrieItem) : FindState.visit reg hasDataOnly st (key, f) =
      if key ∈ st.seenList ∨ reg.any (fun matchString => !matchString key) then st
      else match itemOf hasDataOnly key f with
        | none => st
        | some item => { st with mt := st.mt ++ [item], seenList := st.seenList ++ [key] } := by
  by_cases seen : key ∈ st.seenList
  · rw [FindState.visit, if_pos seen, if_pos (.inl seen)]
  · by_cases other : reg.any fun matchString => !matchString key
    · rw [FindState.visit, if_neg seen, if_pos other, if_pos (.inr other)]
    · rw [FindState.visit, if_neg seen, if_neg other, if_neg (not_or.mpr ⟨seen, other⟩)]
      rcases f with children | (_ | item)
      · cases hasDataOnly <;> rfl
      · cases hasDataOnly <;> rfl
      · rfl

theorem Collected.visit (collected : Collected mi hasDataOnly st) (reg : Option (String → Bool))
    {key : String} {f : Found TrieItem}
    (here : itemAt mi hasDataOnly key = itemOf hasDataOnly key f) :
    Collected mi hasDataOnly (st.visit reg hasDataOnly (key, f)) ∧
      ∀ k, k ∈ (st.visit reg hasDataOnly (key, f)).seenList ↔ k ∈ st.seenList ∨
        k = key ∧ (reg.all fun matchString => matchString key) ∧
          (itemAt mi hasDataOnly key).isSome := by
  have hreg : (reg.any fun matchString => !matchString key) =
      !(reg.all fun matchString => matchString key) := by
    cases reg <;> rfl
  rw [visit_eq, hreg]
  by_cases seen : key ∈ st.seenList
  · rw [if_pos (.inl seen)]
    refine ⟨collected, fun k => ⟨.inl, ?_⟩⟩
    rintro (old | ⟨rfl, _⟩)
    · exact old
    · exact seen
  · by_cases fits : reg.all fun matchString => matchString key
    · rw [if_neg (not_or.mpr ⟨seen, by simp [fits]⟩)]
      rcases shown : itemOf hasDataOnly key f with _ | item
      · rw [here, shown]
        exact ⟨collected, fun k => by simp⟩
      · rw [here, shown]
        refine ⟨⟨?_, ?_⟩, fun k => by simp [fits]⟩
        · simp [collected.items, here, shown]
        · rw [← List.concat_eq_append]
          exact collected.once.concat seen
    · rw [if_pos (.inr (by simpa using fits))]
      exact ⟨collected, fun k => by simp [fits]⟩

theorem Collected.visits (collected : Collected mi hasDataOnly st) (reg : Option (String → Bool))
    {entries : List (String × Found TrieItem)}
    (here : ∀ e ∈ entries, itemAt mi hasDataOnly e.1 = itemOf hasDataOnly e.1 e.2) :
    Collected mi hasDataOnly (entries.foldl (FindState.visit reg hasDataOnly) st) ∧
      ∀ k, k ∈ (entries.foldl (FindState.visit reg hasDataOnly) st).seenList ↔
        k ∈ st.seenList ∨ (k ∈ entries.map Prod.fst ∧ (reg.all fun matchString => matchString k) ∧
          (itemAt mi hasDataOnly k).isSome) := by
  induction entries generalizing st with
  | nil => exact ⟨collected, fun k => by simp⟩
  | cons e entries ih =>
    obtain ⟨hfirst, hrest⟩ := List.forall_mem_cons.mp here
    obtain ⟨collected', seen⟩ := collected.visit reg hfirst
    obtain ⟨collected'', seen'⟩ := ih collected' hrest
    refine ⟨collected'', fun k => ?_⟩
    rw [List.foldl_cons, seen', seen, List.map_cons, List.mem_cons]
    constructor
    · rintro ((old | ⟨rfl, found⟩) | ⟨later, found⟩)
      · exact .inl old
      · exact .inr ⟨.inl rfl, found⟩
      · exact .inr ⟨.inr later, found⟩
    · rintro (old | ⟨rfl | later, found⟩)
      · exact .inl (.inl old)
      · exact .inl (.inr ⟨rfl, found⟩)
      · exact .inr ⟨later, found⟩

/-! ### One target -/

section Search

variable {range : List (String × Found TrieItem) → List (String × Found TrieItem)}

/-- The keys that a search of the trie shows. -/
def Shows (mi : MetricIndex) (hasDataOnly : Bool) (trieQ : String) (reg : Option (String → Bool))
    (k : String) : Prop :=
  List.Forall₂ Tree.Fits (split trieQ ".") (split k ".") ∧
    (reg.all fun matchString => matchString k) ∧ (itemAt mi hasDataOnly k).isSome

/-- The loop over what the trie answers to a query. -/
def search (range : List (String × Found TrieItem) → List (String × Found TrieItem))
    (mi : MetricIndex) (hasDataOnly : Bool) (st : FindState) (trieQ : String)
    (reg : Option (String → Bool)) : FindState :=
  (range ((mi.trieIndex.childrenFlat trieQ).entries.map fun e => (e.1, e.2))).foldl
    (FindState.visit reg hasDataOnly) st

theorem Collected.search (collected : Collected mi hasDataOnly st) (sound : mi.trieIndex.Sound)
    (perm : ∀ l, (range l).Perm l) (trieQ : String) (reg : Option (String → Bool)) :
    Collected mi hasDataOnly (search range mi hasDataOnly st trieQ reg) ∧
      ∀ k, k ∈ (search range mi hasDataOnly st trieQ reg).seenList ↔
        k ∈ st.seenList ∨ Shows mi hasDataOnly trieQ reg k := by
  have hentry : ∀ k f, (k, f) ∈ range ((mi.trieIndex.childrenFlat trieQ).entries.map
      fun e => (e.1, e.2)) ↔ List.Forall₂ Tree.Fits (split trieQ ".") (split k ".") ∧
        ∃ c, mi.trieIndex.node? k = some c ∧ f = c.found := by
    intro k f
    rw [(perm _).mem_iff, ← sound.lookup_childrenFlat]
    simp only [List.mem_map, Prod.mk.injEq]
    constructor
    · rintro ⟨e, mem, rfl, rfl⟩
      exact mem_entries_iff.mp mem
    · intro found
      exact ⟨⟨k, f⟩, mem_entries_iff.mpr found, rfl, rfl⟩
  have hitems : ∀ e ∈ range ((mi.trieIndex.childrenFlat trieQ).entries.map fun e => (e.1, e.2)),
      itemAt mi hasDataOnly e.1 = itemOf hasDataOnly e.1 e.2 := by
    intro e mem
    obtain ⟨_, c, found, same⟩ := (hentry e.1 e.2).mp mem
    rw [itemAt, found, Option.bind_some, same]
  obtain ⟨collected', seen⟩ := collected.visits reg hitems
  refine ⟨collected', fun k => (seen k).trans (or_congr Iff.rfl ?_)⟩
  rw [Shows, List.mem_map]
  constructor
  · rintro ⟨⟨e, mem, rfl⟩, found⟩
    exact ⟨((hentry e.1 e.2).mp mem).1, found⟩
  · rintro ⟨fits, found, shown⟩
    obtain ⟨c, hnode, _⟩ := Option.bind_eq_some_iff.mp (Option.eq_some_of_isSome shown)
    exact ⟨⟨(k, c.found), (hentry k c.found).mpr ⟨fits, c, hnode, rfl⟩, rfl⟩, found, shown⟩

theorem Collected.mem_mt (collected : Collected mi hasDataOnly st) {item : MetricFindItem} :
    item ∈ st.mt ↔ ∃ k ∈ st.seenList, itemAt mi hasDataOnly k = some item := by
  rw [← List.mem_map, ← collected.items]
  simp

theorem Collected.paths (collected : Collected mi hasDataOnly st) :
    st.mt.map (·.path) = st.seenList := by
  have hitems := congrArg (List.map (Option.map (·.path))) collected.items
  have hkeys : st.seenList.map (Option.map (·.path) ∘ itemAt mi hasDataOnly) =
      st.seenList.map some := by
    apply List.map_congr_left
    intro k mem
    have hshown : itemAt mi hasDataOnly k ∈ st.mt.map some := by
      rw [collected.items]
      exact List.mem_map_of_mem mem
    obtain ⟨item, _, shown⟩ := List.mem_map.mp hshown
    obtain ⟨c, _, found⟩ := Option.bind_eq_some_iff.mp shown.symm
    rw [Function.comp_apply, ← shown, Option.map_some, path_of_itemOf found]
  rw [List.map_map, List.map_map, hkeys] at hitems
  apply List.map_injective_iff.mpr (Option.some_injective String)
  rw [List.map_map]
  exact hitems

theorem node_of_itemAt {k : String} {item : MetricFindItem}
    (shown : itemAt mi hasDataOnly k = some item) : (mi.trieIndex.node? k).isSome := by
  obtain ⟨c, found, _⟩ := Option.bind_eq_some_iff.mp shown
  rw [found]
  rfl

variable {compile : String → Except String (String → Bool)} {metric targ : String}

theorem findTarget_known {uid : String} (known : mi.nameIndex.lookup targ = some uid) :
    mi.findTarget compile range metric hasDataOnly st targ =
      if metric ∈ st.seenList then st
      else
        { st with
          mt := st.mt ++ [⟨(split targ ".").getLastD "", metric, metric, uid, 0, 1, 0⟩]
          seenList := st.seenList ++ [metric] } := by
  rw [MetricIndex.findTarget, known]

theorem findTarget_plain (unknown : mi.nameIndex.lookup targ = none)
    (plain : needRegex targ = false) : mi.findTarget compile range metric hasDataOnly st targ =
      search range mi hasDataOnly st metric none := by
  rw [MetricIndex.findTarget, unknown]
  simp only [plain]
  rfl

theorem findTarget_failed (unknown : mi.nameIndex.lookup targ = none)
    (pattern : needRegex targ = true) {err : String}
    (failed : compile (fullRegString targ) = .error err) :
    mi.findTarget compile range metric hasDataOnly st targ =
      { st with errorList := st.errorList ++ [err] } := by
  rw [MetricIndex.findTarget, unknown]
  simp only [pattern, failed]
  rfl

theorem findTarget_pattern (unknown : mi.nameIndex.lookup targ = none)
    (pattern : needRegex targ = true) {reg : String → Bool}
    (compiled : compile (fullRegString targ) = .ok reg) :
    mi.findTarget compile range metric hasDataOnly st targ =
      search range mi hasDataOnly st (toTrieQuery targ) (some reg) := by
  rw [MetricIndex.findTarget, unknown]
  simp only [pattern, compiled]
  rfl

/-- The keys that a pattern shows. -/
def PatternShows (compile : String → Except String (String → Bool)) (mi : MetricIndex)
    (hasDataOnly : Bool) (targ k : String) : Prop :=
  ∃ reg, compile (fullRegString targ) = .ok reg ∧
    Shows mi hasDataOnly (toTrieQuery targ) (some reg) k

variable (compile metric) in
/-- A pattern that is not indexed itself adds what it shows, whatever the whole query is. -/
theorem Collected.pattern (collected : Collected mi hasDataOnly st) (sound : mi.trieIndex.Sound)
    (perm : ∀ l, (range l).Perm l) (unknown : mi.nameIndex.lookup targ = none)
    (pattern : needRegex targ = true) :
    Collected mi hasDataOnly (mi.findTarget compile range metric hasDataOnly st targ) ∧
      ∀ k, k ∈ (mi.findTarget compile range metric hasDataOnly st targ).seenList ↔
        k ∈ st.seenList ∨ PatternShows compile mi hasDataOnly targ k := by
  rcases compiled : compile (fullRegString targ) with err | reg
  · rw [findTarget_failed unknown pattern compiled]
    refine ⟨⟨collected.items, collected.once⟩, fun k => ⟨.inl, ?_⟩⟩
    rintro (old | ⟨reg, compiled', _⟩)
    · exact old
    · rw [compiled] at compiled'
      cases compiled'
  · rw [findTarget_pattern unknown pattern compiled]
    obtain ⟨collected', seen⟩ := collected.search sound perm (toTrieQuery targ) (some reg)
    refine ⟨collected', fun k => (seen k).trans (or_congr Iff.rfl ?_)⟩
    constructor
    · intro shows
      exact ⟨reg, compiled, shows⟩
    · rintro ⟨reg', compiled', shows⟩
      obtain rfl := Except.ok.inj (compiled.symm.trans compiled')
      exact shows

variable (compile metric) in
theorem Collected.patterns {targs : List String} (collected : Collected mi hasDataOnly st)
    (sound : mi.trieIndex.Sound) (perm : ∀ l, (range l).Perm l)
    (unknown : ∀ t ∈ targs, mi.nameIndex.lookup t = none)
    (pattern : ∀ t ∈ targs, needRegex t = true) :
    Collected mi hasDataOnly
        (targs.foldl (mi.findTarget compile range metric hasDataOnly) st) ∧
      ∀ k, k ∈ (targs.foldl (mi.findTarget compile range metric hasDataOnly) st).seenList ↔
        k ∈ st.seenList ∨ ∃ t ∈ targs, PatternShows compile mi hasDataOnly t k := by
  induction targs generalizing st with
  | nil => exact ⟨collected, fun k => by simp⟩
  | cons t targs ih =>
    obtain ⟨unknown₁, unknown⟩ := List.forall_mem_cons.mp unknown
    obtain ⟨pattern₁, pattern⟩ := List.forall_mem_cons.mp pattern
    obtain ⟨collected', seen⟩ := collected.pattern compile metric sound perm unknown₁ pattern₁
    obtain ⟨collected'', seen'⟩ := ih collected' unknown pattern
    refine ⟨collected'', fun k => ?_⟩
    rw [List.foldl_cons, seen', seen, List.exists_mem_cons_iff, or_assoc]

end Search

/-! ### The targets of a query -/

/-- Whether the loop of `splitMetricsPath` is inside of braces after some text. -/
def openAfter (gotFirst : Bool) (cs : List Char) : Bool :=
  cs.foldl (fun gotFirst c =>
    if c = '\x7b' then true else if c = '\x7d' then false else gotFirst) gotFirst

theorem splitMetricsPathFrom_append (gotFirst : Bool) (onStr : List Char) {cs : List Char}
    (rest : List Char) (commaFree : ',' ∉ cs) : splitMetricsPathFrom gotFirst onStr (cs ++ rest) =
      splitMetricsPathFrom (openAfter gotFirst cs) (cs.reverse ++ onStr) rest := by
  induction cs generalizing gotFirst onStr with
  | nil => rfl
  | cons c cs ih =>
    rw [List.mem_cons, not_or] at commaFree
    have hcomma : ¬ (c = ',' ∧ !gotFirst) := fun h => commaFree.1 h.1.symm
    rw [List.cons_append, splitMetricsPathFrom, openAfter, List.foldl_cons, List.reverse_cons,
      List.append_assoc, List.singleton_append]
    split_ifs with opens closes
    · exact ih _ _ commaFree.2
    · exact ih _ _ commaFree.2
    · exact ih _ _ commaFree.2

theorem splitMetricsPathFrom_comma (onStr cs : List Char) :
    splitMetricsPathFrom false onStr (',' :: cs) =
      String.ofList onStr.reverse :: splitMetricsPathFrom false [] cs := by
  simp [splitMetricsPathFrom]

theorem splitMetricsPath_of_commaFree {t : String} (commaFree : ',' ∉ t.toList) :
    splitMetricsPath t = if t = "" then [] else [t] := by
  have happend := splitMetricsPathFrom_append false [] [] commaFree
  rw [List.append_nil, List.append_nil] at happend
  rw [splitMetricsPath, happend, splitMetricsPathFrom]
  by_cases empty : t = ""
  · simp [empty]
  · have hsome : t.toList ≠ [] := by simpa using empty
    rw [if_neg (by simpa using hsome), if_neg empty, List.reverse_reverse, String.ofList_toList]

/-- Targets with closed braces are told apart. -/
theorem splitMetricsPath_intercalate {targs : List String} (commaFree : ∀ t ∈ targs, ',' ∉ t.toList)
    (closed : ∀ t ∈ targs, openAfter false t.toList = false) (some : ∀ t ∈ targs, t ≠ "") :
    splitMetricsPath (String.intercalate "," targs) = targs := by
  induction targs with
  | nil => rfl
  | cons t targs ih =>
    obtain ⟨commaFree₁, commaFree⟩ := List.forall_mem_cons.mp commaFree
    obtain ⟨closed₁, closed⟩ := List.forall_mem_cons.mp closed
    obtain ⟨some₁, some⟩ := List.forall_mem_cons.mp some
    rcases targs with _ | ⟨next, targs⟩
    · rw [String.intercalate_singleton, splitMetricsPath_of_commaFree commaFree₁, if_neg some₁]
    · have hlist : (String.intercalate "," (t :: next :: targs)).toList =
          t.toList ++ ',' :: (String.intercalate "," (next :: targs)).toList := by
        rw [String.intercalate_cons_cons]
        simp
      rw [splitMetricsPath, hlist, splitMetricsPathFrom_append _ _ _ commaFree₁, closed₁,
        List.append_nil, splitMetricsPathFrom_comma, ← splitMetricsPath,
        ih commaFree closed some, List.reverse_reverse, String.ofList_toList]

/-! ### The union of the targets -/

def Reachable (mi : MetricIndex) : Prop := ∃ h, Run step anyStep .new h mi

theorem Reachable.sound (reachable : Reachable mi) : mi.trieIndex.Sound := by
  obtain ⟨h, run⟩ := reachable
  have hdelete : ∀ (mi : MetricIndex) (path : String), mi.trieIndex.Sound →
      (mi.delete path).1.trieIndex.Sound := by
    intro mi path sound
    rw [MetricIndex.delete]
    split_ifs
    · exact sound
    all_goals
      rcases mi.nameIndex.lookup path with _ | uid <;> exact sound.pop path
  refine run_invariant (fun _ mi => mi.trieIndex.Sound) .new ?_ run
  intro h mi c mi' o sound _ taken
  cases c with
  | add uid path now =>
    obtain rfl : mi.add uid path now = mi' := congrArg Prod.fst (Option.some.inj taken)
    rw [MetricIndex.add]
    rcases mi.nameIndex.lookup path with _ | uid'
    · exact sound.put path _
    · exact sound
  | setLastSeen uid lastseen =>
    obtain rfl : mi.setLastSeen uid lastseen = mi' := congrArg Prod.fst (Option.some.inj taken)
    exact sound
  | delete path =>
    obtain rfl : (mi.delete path).1 = mi' := congrArg Prod.fst (Option.some.inj taken)
    exact hdelete mi path sound
  | deleteByUid uid =>
    obtain rfl : (mi.deleteByUid uid).1 = mi' := congrArg Prod.fst (Option.some.inj taken)
    rw [MetricIndex.deleteByUid]
    rcases mi.uidIndex.lookup uid with _ | path
    · exact sound
    · exact hdelete mi path sound
  | cullExpired now dur order =>
    rw [step] at taken
    split_ifs at taken
    obtain rfl : mi.cullExpired order = mi' := congrArg Prod.fst (Option.some.inj taken)
    rw [cull_trieIndex]
    exact sound.pops _

/-- A path of the index: a metric's, or one that leads to others. -/
def IsNode (mi : MetricIndex) (path : String) : Prop :=
  (mi.nameIndex.lookup path).isSome ∨ (mi.trieIndex.node? path).isSome

def MetricFindItem.triple (item : MetricFindItem) : String × String × Nat :=
  (item.path, item.uniqueId, item.leaf)

/-- What a list of targets is answered with. -/
structure SearchesEach (compile : String → Except String (String → Bool))
    (range : List (String × Found TrieItem) → List (String × Found TrieItem)) (mi : MetricIndex)
    (hasDataOnly : Bool) (targs : List String) : Prop where
  union : ∀ x, x ∈ (mi.find compile range (String.intercalate "," targs) hasDataOnly).1.map
      MetricFindItem.triple ↔
    ∃ t ∈ targs, x ∈ (mi.find compile range t hasDataOnly).1.map MetricFindItem.triple
  once : ((mi.find compile range (String.intercalate "," targs) hasDataOnly).1.map (·.path)).Nodup
  nodes : ∀ item ∈ (mi.find compile range (String.intercalate "," targs) hasDataOnly).1,
    IsNode mi item.path

section Union

variable {compile : String → Except String (String → Bool)}
  {range : List (String × Found TrieItem) → List (String × Found TrieItem)}

theorem collected_empty (mi : MetricIndex) (hasDataOnly : Bool) :
    Collected mi hasDataOnly ⟨[], [], []⟩ := ⟨rfl, List.nodup_nil⟩

theorem Collected.isNode (collected : Collected mi hasDataOnly st) {item : MetricFindItem}
    (mem : item ∈ st.mt) : IsNode mi item.path := by
  obtain ⟨k, _, shown⟩ := collected.mem_mt.mp mem
  obtain ⟨c, _, found⟩ := Option.bind_eq_some_iff.mp shown
  rw [path_of_itemOf found]
  exact .inr (node_of_itemAt shown)

/-- The root is listed once, node by node. -/
theorem findRoot_nodes (sound : mi.trieIndex.Sound) (perm : ∀ l, (range l).Perm l) :
    ((mi.findRoot range).map (·.path)).Nodup ∧
      ∀ item ∈ mi.findRoot range, IsNode mi item.path := by
  have hpaths : (mi.findRoot range).map (·.path) =
      (range ((mi.trieIndex.children "*").entries.map fun e => (e.1, e.2))).map Prod.fst := by
    rw [MetricIndex.findRoot, List.map_map]
    rfl
  constructor
  · rw [hpaths, ((perm _).map _).nodup_iff, List.map_map]
    exact (mi.trieIndex.children "*").keys_nodup
  · intro item mem
    have hkey : item.path ∈ (mi.findRoot range).map (·.path) := List.mem_map_of_mem mem
    rw [hpaths, ((perm _).map _).mem_iff, List.map_map, List.mem_map] at hkey
    obtain ⟨e, listed, same⟩ := hkey
    have hfound := mem_entries_iff.mp listed
    rw [← lookup_assign_entries] at hfound
    obtain ⟨_, c, hnode, _⟩ := (sound.lookup_childrenFlat "*" e.1 e.2).mp hfound
    have hsame : e.1 = item.path := same
    rw [hsame] at hnode
    refine .inr ?_
    rw [hnode]
    rfl

variable (compile hasDataOnly) in
/-- A query for one target shows each node once. -/
theorem find_commaFree (sound : mi.trieIndex.Sound) (perm : ∀ l, (range l).Perm l) {t : String}
    (commaFree : ',' ∉ t.toList) :
    ((mi.find compile range t hasDataOnly).1.map (·.path)).Nodup ∧
      ∀ item ∈ (mi.find compile range t hasDataOnly).1, IsNode mi item.path := by
  have hcollected : ∀ {st}, Collected mi hasDataOnly st →
      (st.mt.map (·.path)).Nodup ∧ ∀ item ∈ st.mt, IsNode mi item.path := by
    intro st collected
    refine ⟨?_, fun item mem => collected.isNode mem⟩
    rw [collected.paths]
    exact collected.once
  have hempty := collected_empty mi hasDataOnly
  by_cases root : t = "*"
  · rw [MetricIndex.find, if_pos root]
    exact findRoot_nodes sound perm
  rw [MetricIndex.find, if_neg root, splitMetricsPath_of_commaFree commaFree]
  by_cases empty : t = ""
  · rw [if_pos empty]
    exact hcollected hempty
  rw [if_neg empty, List.foldl_cons, List.foldl_nil]
  rcases known : mi.nameIndex.lookup t with _ | uid
  · cases pattern : needRegex t with
    | false =>
      rw [findTarget_plain known pattern]
      exact hcollected (hempty.search sound perm t none).1
    | true => exact hcollected (hempty.pattern compile t sound perm known pattern).1
  · rw [findTarget_known known, if_neg List.not_mem_nil]
    refine ⟨List.nodup_singleton _, fun item mem => ?_⟩
    obtain rfl := List.mem_singleton.mp mem
    refine .inl ?_
    rw [known]
    rfl

theorem searchesEach_one (sound : mi.trieIndex.Sound) (perm : ∀ l, (range l).Perm l)
    {targs : List String} (commaFree : ∀ t ∈ targs, ',' ∉ t.toList) (one : targs.length ≤ 1) :
    SearchesEach compile range mi hasDataOnly targs := by
  rcases targs with _ | ⟨t, _ | ⟨next, targs⟩⟩
  · exact ⟨fun x => by simp [MetricIndex.find, splitMetricsPath, splitMetricsPathFrom],
      List.nodup_nil, nofun⟩
  · obtain ⟨once, nodes⟩ := find_commaFree hasDataOnly compile sound perm
      (commaFree t (List.mem_singleton_self t))
    constructor
    · intro x
      rw [String.intercalate_singleton]
      simp
    · rw [String.intercalate_singleton]
      exact once
    · rw [String.intercalate_singleton]
      exact nodes
  · simp at one

theorem ne_star_of_comma {metric : String} (comma : ',' ∈ metric.toList) : metric ≠ "*" := by
  rintro rfl
  revert comma
  decide

/-- A target that is searched for by itself in a list of targets: a pattern, but not of the root,
with closed braces, that is not indexed itself. -/
structure PatternTarget (mi : MetricIndex) (t : String) : Prop where
  pattern : needRegex t = true
  notRoot : t ≠ "*"
  closed : openAfter false t.toList = false
  unknown : mi.nameIndex.lookup t = none

theorem PatternTarget.ne_empty {t : String} (target : PatternTarget mi t) : t ≠ "" := by
  rintro rfl
  have := target.pattern
  revert this
  decide

theorem mem_find_pattern (sound : mi.trieIndex.Sound) (perm : ∀ l, (range l).Perm l) {t : String}
    (commaFree : ',' ∉ t.toList) (target : PatternTarget mi t) {item : MetricFindItem} :
    item ∈ (mi.find compile range t hasDataOnly).1 ↔
      ∃ k, PatternShows compile mi hasDataOnly t k ∧ itemAt mi hasDataOnly k = some item := by
  obtain ⟨collected, seen⟩ := (collected_empty mi hasDataOnly).pattern compile t
    sound perm target.unknown target.pattern
  rw [MetricIndex.find, if_neg target.notRoot, splitMetricsPath_of_commaFree commaFree,
    if_neg target.ne_empty]
  refine collected.mem_mt.trans (exists_congr fun k => and_congr_left fun _ => ?_)
  rw [seen]
  simp

theorem searchesEach_patterns (sound : mi.trieIndex.Sound) (perm : ∀ l, (range l).Perm l)
    {targs : List String} (commaFree : ∀ t ∈ targs, ',' ∉ t.toList)
    (targets : ∀ t ∈ targs, PatternTarget mi t) :
    SearchesEach compile range mi hasDataOnly targs := by
  by_cases one : targs.length ≤ 1
  · exact searchesEach_one sound perm commaFree one
  have one' : (",").toList = [','] := rfl
  have hroot := ne_star_of_comma (mem_intercalate_sep one' (by omega) commaFree)
  obtain ⟨collected, seen⟩ := (collected_empty mi hasDataOnly).patterns compile
    (String.intercalate "," targs) sound perm (fun t mem => (targets t mem).unknown)
    (fun t mem => (targets t mem).pattern)
  have hfind : (mi.find compile range (String.intercalate "," targs) hasDataOnly).1 =
      (targs.foldl (mi.findTarget compile range (String.intercalate "," targs) hasDataOnly)
        ⟨[], [], []⟩).mt := by
    rw [MetricIndex.find, if_neg hroot, splitMetricsPath_intercalate commaFree
      (fun t mem => (targets t mem).closed) fun t mem => (targets t mem).ne_empty]
  have hmem : ∀ item, item ∈ (mi.find compile range (String.intercalate "," targs) hasDataOnly).1 ↔
      ∃ t ∈ targs, item ∈ (mi.find compile range t hasDataOnly).1 := by
    intro item
    rw [hfind, collected.mem_mt]
    constructor
    · rintro ⟨k, mem, shown⟩
      obtain ⟨t, listed, shows⟩ := ((seen k).mp mem).resolve_left List.not_mem_nil
      exact ⟨t, listed, (mem_find_pattern sound perm (commaFree t listed) (targets t listed)).mpr
        ⟨k, shows, shown⟩⟩
    · rintro ⟨t, listed, mem⟩
      obtain ⟨k, shows, shown⟩ :=
        (mem_find_pattern sound perm (commaFree t listed) (targets t listed)).mp mem
      exact ⟨k, (seen k).mpr (.inr ⟨t, listed, shows⟩), shown⟩
  constructor
  · intro x
    simp only [List.mem_map, hmem]
    constructor
    · rintro ⟨item, ⟨t, listed, mem⟩, rfl⟩
      exact ⟨t, listed, item, mem, rfl⟩
    · rintro ⟨t, listed, item, mem, rfl⟩
      exact ⟨item, ⟨t, listed, mem⟩, rfl⟩
  · rw [hfind, collected.paths]
    exact collected.once
  · rw [hfind]
    exact fun item mem => collected.isNode mem

/-! ### Lists that are not searched target by target -/

/-- An index of one metric. -/
def lone (path : String) : MetricIndex := MetricIndex.new.add "u" path 0

theorem reachable_lone (path : String) : Reachable (lone path) :=
  ⟨_, .step (a := .add "u" path 0) .start trivial rfl⟩

theorem lookup_lone (path k : String) :
    (lone path).nameIndex.lookup k = if k = path then some "u" else none :=
  lookup_insert _ _ _ _

theorem node_lone {path k : String} (found : ((lone path).trieIndex.node? k).isSome) :
    split k "." <+: split path "." := by
  have hput := (Tree.sub_put_isSome (⟨"u", 0, path⟩ : TrieItem) (split_ne_nil Utils.dot path)
    (split k ".") .newTree).mp found
  refine hput.resolve_right fun empty => ?_
  rcases parts : split k "." with _ | ⟨part, parts⟩
  · exact split_ne_nil Utils.dot k parts
  · rw [parts] at empty
    cases empty

/-- No segment of a path without commas has a comma. -/
theorem not_node_of_comma {path k : String} (commaFree : ',' ∉ path.toList)
    (comma : ',' ∈ k.toList) :
    ¬ ((lone path).trieIndex.node? k).isSome := by
  intro found
  obtain ⟨part, listed, inside⟩ := exists_mem_split Utils.dot (by decide) comma
  exact commaFree (mem_of_mem_split Utils.dot ((node_lone found).subset listed) inside)

theorem not_isNode_of_comma {path k : String} (commaFree : ',' ∉ path.toList)
    (comma : ',' ∈ k.toList) : ¬ IsNode (lone path) k := by
  rintro (named | found)
  · rw [lookup_lone] at named
    split_ifs at named with same
    · exact commaFree (same ▸ comma)
    · cases named
  · exact not_node_of_comma commaFree comma found

theorem comma_mem_intercalate (t next : String) (targs : List String)
    (commaFree : ∀ s ∈ t :: next :: targs, ',' ∉ s.toList) :
    ',' ∈ (String.intercalate "," (t :: next :: targs)).toList := by
  have one : (",").toList = [','] := rfl
  exact mem_intercalate_sep one (by simp) commaFree

theorem mem_findTarget {metric targ : String} {item : MetricFindItem} (mem : item ∈ st.mt) :
    item ∈ (mi.findTarget compile range metric hasDataOnly st targ).mt := by
  have hvisit : ∀ (reg : Option (String → Bool)) (st : FindState) (e : String × Found TrieItem),
      item ∈ st.mt → item ∈ (st.visit reg hasDataOnly e).mt := by
    intro reg st e mem
    rw [visit_eq]
    split_ifs
    · exact mem
    · rcases itemOf hasDataOnly e.1 e.2 with _ | item'
      · exact mem
      · exact List.mem_append_left _ mem
  have hsearch : ∀ trieQ reg, item ∈ (search range mi hasDataOnly st trieQ reg).mt := by
    intro trieQ reg
    rw [search]
    generalize range _ = entries
    clear * - mem hvisit
    induction entries generalizing st with
    | nil => exact mem
    | cons e entries ih => exact ih (hvisit reg st e mem)
  rcases known : mi.nameIndex.lookup targ with _ | uid
  · cases pattern : needRegex targ with
    | false =>
      rw [findTarget_plain known pattern]
      exact hsearch _ _
    | true =>
      rcases compiled : compile (fullRegString targ) with err | reg
      · rw [findTarget_failed known pattern compiled]
        exact mem
      · rw [findTarget_pattern known pattern compiled]
        exact hsearch _ _
  · rw [findTarget_known known]
    split_ifs
    · exact mem
    · exact List.mem_append_left _ mem

theorem mem_findTargets {metric : String} (targs : List String) {item : MetricFindItem}
    (mem : item ∈ st.mt) :
    item ∈ (targs.foldl (mi.findTarget compile range metric hasDataOnly) st).mt := by
  induction targs generalizing st with
  | nil => exact mem
  | cons targ targs ih => exact ih (mem_findTarget mem)

/-- An indexed target is answered with the whole list for its path. -/
theorem not_searchesEach_closed {t next : String} {targs : List String}
    (commaFree : ∀ s ∈ t :: next :: targs, ',' ∉ s.toList)
    (closed : openAfter false t.toList = false) :
    ¬ SearchesEach compile range (lone t) hasDataOnly (t :: next :: targs) := by
  intro each
  have hcomma := comma_mem_intercalate t next targs commaFree
  have hroot := ne_star_of_comma hcomma
  have hlist : (String.intercalate "," (t :: next :: targs)).toList =
      t.toList ++ ',' :: (String.intercalate "," (next :: targs)).toList := by
    rw [String.intercalate_cons_cons]
    simp
  have hsplit : splitMetricsPath (String.intercalate "," (t :: next :: targs)) =
      t :: splitMetricsPath (String.intercalate "," (next :: targs)) := by
    rw [splitMetricsPath, hlist, splitMetricsPathFrom_append _ _ _ (commaFree t (by simp)), closed,
      List.append_nil, splitMetricsPathFrom_comma, List.reverse_reverse, String.ofList_toList]
    rfl
  generalize hmetric : String.intercalate "," (t :: next :: targs) = metric at *
  have hknown : (lone t).nameIndex.lookup t = some "u" := (lookup_lone t t).trans (if_pos rfl)
  have hfind : ∃ item ∈ ((lone t).find compile range metric hasDataOnly).1, item.path = metric := by
    rw [MetricIndex.find, if_neg hroot, hsplit, List.foldl_cons, findTarget_known hknown,
      if_neg List.not_mem_nil]
    refine ⟨⟨(split t ".").getLastD "", metric, metric, "u", 0, 1, 0⟩, ?_, rfl⟩
    exact mem_findTargets _ (List.mem_singleton_self _)
  obtain ⟨item, mem, same⟩ := hfind
  have hnode := each.nodes item (by rw [hmetric]; exact mem)
  rw [same] at hnode
  exact not_isNode_of_comma (commaFree t (by simp)) hcomma hnode

/-- No path of the one metric fits a list of targets. -/
theorem search_lone_of_comma (perm : ∀ l, (range l).Perm l) {path metric : String}
    (commaFree : ',' ∉ path.toList) (comma : ',' ∈ metric.toList) (st : FindState)
    (reg : Option (String → Bool)) : search range (lone path) hasDataOnly st metric reg = st := by
  have hnone : ((lone path).trieIndex.childrenFlat metric).entries = [] := by
    rw [List.eq_nil_iff_forall_not_mem]
    intro e mem
    obtain ⟨fits, c, found, _⟩ :=
      ((reachable_lone path).sound.lookup_childrenFlat metric e.1 e.2).mp (mem_entries_iff.mp mem)
    have hnode : ((lone path).trieIndex.node? e.1).isSome := by
      rw [found]
      rfl
    -- the part with the comma is neither a star nor a segment of the path
    obtain ⟨part, listed, inside⟩ := exists_mem_split Utils.dot (by decide) comma
    obtain ⟨segment, listed', fit⟩ := Tree.exists_fits fits listed
    rcases fit with rfl | rfl
    · revert inside
      decide
    · exact commaFree (mem_of_mem_split Utils.dot ((node_lone hnode).subset listed') inside)
  rw [search, hnone, List.map_nil, List.perm_nil.mp (perm [])]
  rfl

/-- Where no pattern compiles, only the indexed target is answered, with the whole list. -/
theorem paths_lone (perm : ∀ l, (range l).Perm l) (fails : ∀ text, compile text = .error "")
    {path metric : String} (commaFree : ',' ∉ path.toList) (comma : ',' ∈ metric.toList)
    (pieces : List String) {st : FindState} (same : ∀ item ∈ st.mt, item.path = metric) :
    ∀ item ∈ (pieces.foldl ((lone path).findTarget compile range metric hasDataOnly) st).mt,
      item.path = metric := by
  induction pieces generalizing st with
  | nil => exact same
  | cons piece pieces ih =>
    apply ih
    rcases known : (lone path).nameIndex.lookup piece with _ | uid
    · cases pattern : needRegex piece with
      | false =>
        rw [findTarget_plain known pattern, search_lone_of_comma perm commaFree comma]
        exact same
      | true =>
        rw [findTarget_failed known pattern (fails _)]
        exact same
    · rw [findTarget_known known]
      split_ifs
      · exact same
      · intro item mem
        rcases List.mem_append.mp mem with old | new
        · exact same item old
        · rw [List.mem_singleton.mp new]

/-- An open brace joins targets into one pattern, and where that does not compile nothing is
answered for the metric that the first target names. -/
theorem not_searchesEach_open (perm : ∀ l, (range l).Perm l)
    (fails : ∀ text, compile text = .error "") {t next : String} {targs : List String}
    (commaFree : ∀ s ∈ t :: next :: targs, ',' ∉ s.toList)
    (opened : openAfter false t.toList = true) :
    ¬ SearchesEach compile range (lone t) hasDataOnly (t :: next :: targs) := by
  intro each
  have hcomma := comma_mem_intercalate t next targs commaFree
  have hroot := ne_star_of_comma hcomma
  have hfree := commaFree t (by simp)
  have hknown : (lone t).nameIndex.lookup t = some "u" := (lookup_lone t t).trans (if_pos rfl)
  have hown : (t, "u", 1) ∈ ((lone t).find compile range t hasDataOnly).1.map
      MetricFindItem.triple := by
    have hstar : t ≠ "*" := by
      rintro rfl
      revert opened
      decide
    have hempty : t ≠ "" := by
      rintro rfl
      revert opened
      decide
    rw [MetricIndex.find, if_neg hstar, splitMetricsPath_of_commaFree hfree, if_neg hempty,
      List.foldl_cons, findTarget_known hknown, if_neg List.not_mem_nil]
    exact List.mem_singleton_self _
  have hall := (each.union (t, "u", 1)).mpr ⟨t, by simp, hown⟩
  generalize String.intercalate "," (t :: next :: targs) = metric at *
  rw [MetricIndex.find, if_neg hroot] at hall
  obtain ⟨item, mem, triple⟩ := List.mem_map.mp hall
  have hsame : t = metric := by
    rw [← paths_lone perm fails hfree hcomma _
      (fun _ none => (List.not_mem_nil none).elim) item mem]
    exact (congrArg Prod.fst triple).symm
  exact hfree (hsame ▸ hcomma)

end Union

/-- Only a single target is searched for by itself whatever the index is. In a given index so are
lists of patterns, but for that of the root, with closed braces and not indexed themselves. -/
theorem searchesEach_iff {targs : List String} (commaFree : ∀ t ∈ targs, ',' ∉ t.toList) :
    ((∀ mi, Reachable mi → ∀ compile range hasDataOnly, (∀ l, (range l).Perm l) →
      SearchesEach compile range mi hasDataOnly targs) ↔ targs.length ≤ 1) ∧
    ∀ mi, Reachable mi → ∀ compile range hasDataOnly, (∀ l, (range l).Perm l) →
      (∀ t ∈ targs, PatternTarget mi t) → SearchesEach compile range mi hasDataOnly targs := by
  refine ⟨⟨fun each => ?_, fun one => ?_⟩, ?_⟩
  · rcases targs with _ | ⟨t, _ | ⟨next, targs⟩⟩
    · exact Nat.zero_le 1
    · exact le_rfl
    · cases opened : openAfter false t.toList with
      | false =>
        exact absurd (each (lone t) (reachable_lone t)
          (fun _ => .error "") id false fun _ => .refl _)
          (not_searchesEach_closed commaFree opened)
      | true =>
        exact absurd (each (lone t) (reachable_lone t)
          (fun _ => .error "") id false fun _ => .refl _)
          (not_searchesEach_open (fun _ => .refl _) (fun _ => rfl) commaFree opened)
  · intro mi reachable compile range hasDataOnly perm
    exact searchesEach_one reachable.sound perm commaFree one
  · intro mi reachable compile range hasDataOnly perm targets
    exact searchesEach_patterns reachable.sound perm commaFree targets

theorem reachable_two (path path' : String) : Reachable ((lone path).add "v" path' 0) :=
  ⟨_, .step (a := .add "v" path' 0) (.step (a := .add "u" path 0) .start trivial rfl) trivial rfl⟩

/-- Two patterns, each of which matches one of two metrics. -/
theorem searchesEach_iff_patterns :
    let mi := (lone "ab").add "v" "ba" 0
    (mi.find Globs.compileTokens id "a*,b*" true).1.map MetricFindItem.triple =
        [("ab", "u", 1), ("ba", "v", 1)] ∧
      (mi.find Globs.compileTokens id "b*" true).1.map MetricFindItem.triple = [("ba", "v", 1)] ∧
      SearchesEach Globs.compileTokens id mi true ["a*", "b*"] := by
  refine ⟨by decide +kernel, by decide +kernel, ?_⟩
  refine (searchesEach_iff (by decide)).2 _ (reachable_two "ab" "ba") _ _ _ (fun _ => .refl _) ?_
  intro t mem
  rcases List.mem_pair.mp mem with rfl | rfl
  · exact ⟨by decide, by decide, by decide, by decide⟩
  · exact ⟨by decide, by decide, by decide, by decide⟩

/-- Of two metrics that are asked for by name, one is answered and with the list for its path. -/
theorem names_searched_as_list :
    let mi := (lone "a").add "v" "b" 0
    let compile : String → Except String (String → Bool) := fun _ => .error "no expressions"
    Reachable mi ∧
      (mi.find compile id "a,b" true).1.map MetricFindItem.triple = [("a,b", "u", 1)] ∧
      (mi.find compile id "b" true).1.map MetricFindItem.triple = [("b", "v", 1)] ∧
      ¬ SearchesEach compile id mi true ["a", "b"] := by
  intro mi compile
  refine ⟨reachable_two "a" "b", by decide, by decide, fun each => ?_⟩
  have hlost := (each.union ("b", "v", 1)).mpr ⟨"b", by decide, by decide⟩
  revert hlost
  decide

end Indexer
