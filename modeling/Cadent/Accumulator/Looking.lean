import Cadent.Accumulator.Json
import Cadent.Accumulator.Keeping
import Cadent.Accumulator.Statsd

/-!
# Looking at the current stats

`CurrentStats` lists what is in the map. The stats it lists point to the names of the items, and
it sets the key and the resolution of each name: the key becomes the one of the map, which is
never the key of the metric. A look leaves its mark on every item it finds.

A line that is refused changes nothing here. One at which the process stops can only be the last
event of a run.
-/

namespace Repr

def StatName.setKey (s : StatName) (name : String) : StatName :=
  if name ≠ s.key then { s with xxxUniqueId := 0#64, xxxUniqueIdstr := "", key := name }
  else { s with key := name }

theorem StatName.key_setKey (s : StatName) (name : String) : (s.setKey name).key = name := by
  rw [setKey]
  split_ifs
  · rfl
  · rfl

end Repr

namespace Accumulator

open Groups Keys Maps Repr

section Named

variable {Raw Line Item : Type}

/-- The name that an item holds, which is neither accumulated nor zeroed. -/
structure Named (K : Kind Raw Line Item) where
  name : Item → StatName
  rename : Item → StatName → Item
  name_rename : ∀ item n, name (rename item n) = n
  name_accumulate : ∀ item line, name (K.accumulate item line) = name item
  name_zeroOut : ∀ item, name (K.zeroOut item) = name item
  name_repr : ∀ now item, (K.repr now item).name = name item
  key_ne : ∀ line, (name (K.fresh line)).key ≠ K.key line

variable {K : Kind Raw Line Item} (N : Named K)

/-- The item of a key after a look. -/
def Named.seen (resolution : BitVec 32) (key : String) (item : Item) : Item :=
  N.rename item { (N.name item).setKey key with resolution := resolution }

/-- `CurrentStats`, with the first flush time in seconds and the order of iteration. -/
def Store.currentStats (resolution : BitVec 32) (now : Int) :
    Store Item → List String → List Stat × Store Item
  | st, [] => ([], st)
  | st, key :: order =>
    match st.stats.lookup key with
    | none => currentStats resolution now st order
    | some ref =>
      let st := st.update ref (N.seen resolution key)
      let rr := st.items[ref]?.map fun item => { K.repr now item with time := unixNano now }
      let (rest, st) := currentStats resolution now st order
      (rr.toList ++ rest, st)

/-- An order of iteration for every map, with the times at which its items are asked. -/
structure Iteration where
  order : List String → List (String × Int)
  perm : ∀ keys, ((order keys).map Prod.fst).Perm keys

inductive Watched (Raw : Type) where
  | line (raw : Raw)
  | flush (walk : Iteration)
  | look (now : Int) (walk : Iteration)

def Watched.isLook : Watched Raw → Bool
  | look .. => true
  | _ => false

def Watched.isFlush : Watched Raw → Bool
  | flush _ => true
  | _ => false

/-- A line that is refused changes nothing. -/
def Store.take (K : Kind Raw Line Item) (st : Store Item) (raw : Raw) : Store Item :=
  (st.processLine K raw).toOption.getD st

/-- What the flushes of a run return. -/
def flushes (keep : Bool) (resolution : BitVec 32) :
    Store Item → List (Watched Raw) → List (List Stat)
  | _, [] => []
  | st, .line raw :: events => flushes keep resolution (st.take K raw) events
  | st, .flush walk :: events =>
    let (out, st) := st.flushList K keep (walk.order st.stats.keys)
    out :: flushes keep resolution st events
  | st, .look now walk :: events =>
    let order := (walk.order st.stats.keys).map Prod.fst
    flushes keep resolution (st.currentStats N resolution now order).2 events

/-- The flushes return what they would return without the looks. -/
def Unseen (keep : Bool) (resolution : BitVec 32) (events : List (Watched Raw)) : Prop :=
  flushes N keep resolution .empty events =
    flushes N keep resolution .empty (events.filter fun e => !e.isLook)

/-- Before the last flush, there is nothing in the map when someone looks. `found` says whether
there is something in it. -/
def LooksAtNothing (K : Kind Raw Line Item) (keep : Bool) : Bool → List (Watched Raw) → Prop
  | _, [] => True
  | found, .line raw :: events =>
    LooksAtNothing K keep (found || (K.parse raw).toOption.isSome) events
  | found, .flush _ :: events => LooksAtNothing K keep (found && keep) events
  | found, .look .. :: events =>
    (found = true → ∀ e ∈ events, e.isFlush = false) ∧ LooksAtNothing K keep found events

/-! ### What a look leaves alone -/

/-- Two stores with the same map and as many objects. -/
structure SameShape (st st' : Store Item) : Prop where
  stats : st.stats = st'.stats
  length : st.items.length = st'.items.length

variable {N} {st st' : Store Item}

theorem SameShape.sound (same : SameShape st st') (sound : st.Sound) : st'.Sound := by
  constructor
  · intro key ref here
    rw [← same.length]
    exact sound.listed (same.stats ▸ here)
  · intro key key' ref here here'
    exact sound.apart (same.stats ▸ here) (same.stats ▸ here')

theorem sameShape_update (st : Store Item) (ref : Nat) (f : Item → Item) :
    SameShape st (st.update ref f) :=
  ⟨rfl, by simp [Store.update]⟩

theorem SameShape.trans {st'' : Store Item} (same : SameShape st st') (same' : SameShape st' st'') :
    SameShape st st'' :=
  ⟨same.stats.trans same'.stats, same.length.trans same'.length⟩

theorem SameShape.take (same : SameShape st st') (raw : Raw) :
    SameShape (st.take K raw) (st'.take K raw) := by
  rw [Store.take, Store.take, Store.processLine, Store.processLine]
  rcases K.parse raw with error | line
  · exact same
  · dsimp only [bind, Except.bind]
    rw [← same.stats, ← same.length]
    rcases st.stats.lookup (K.key line) with _ | ref
    · refine ⟨?_, ?_⟩
      · simp [Store.insert, Store.update, Store.make, same.stats, Except.toOption, pure,
          Except.pure]
      · simp [Store.insert, Store.update, Store.make, same.length, Except.toOption, pure,
          Except.pure]
    · exact ⟨by simp [Store.update, same.stats, Except.toOption, pure, Except.pure],
        by simp [Store.update, same.length, Except.toOption, pure, Except.pure]⟩

theorem sameShape_currentStats (resolution : BitVec 32) (now : Int) (order : List String) :
    SameShape st (st.currentStats N resolution now order).2 := by
  induction order generalizing st with
  | nil => exact ⟨rfl, rfl⟩
  | cons key order ih =>
    rw [Store.currentStats]
    rcases st.stats.lookup key with _ | ref
    · exact ih
    · exact (sameShape_update st ref _).trans ih

/-! ### What a look leaves behind -/

variable (N) in
/-- An item whose name has the key of the map. -/
def Marked (st : Store Item) (key : String) : Prop :=
  ∃ item, st.item? key = some item ∧ (N.name item).key = key

variable (N) in
/-- No item is marked. -/
def Own (st : Store Item) : Prop := ∀ key item, st.item? key = some item → (N.name item).key ≠ key

/-- A line is refused, or taken in by the item of its key. -/
theorem take_spec (sound : st.Sound) (raw : Raw) : (st.take K raw).Sound ∧
    ((∃ error, K.parse raw = .error error) ∧ st.take K raw = st ∨
      ∃ line, K.parse raw = .ok line ∧ ∀ key, (st.take K raw).item? key =
        if key = K.key line then some (K.accumulate ((st.item? key).getD (K.fresh line)) line)
        else st.item? key) := by
  rcases parsed : K.parse raw with error | line
  · have refused : st.take K raw = st := by
      rw [Store.take, Store.processLine, parsed]
      rfl
    rw [refused]
    exact ⟨sound, .inl ⟨⟨error, rfl⟩, rfl⟩⟩
  · obtain ⟨st', processed, sound', items⟩ := processLine_spec sound parsed
    have taken : st.take K raw = st' := by
      rw [Store.take, processed]
      rfl
    rw [taken]
    exact ⟨sound', .inr ⟨line, rfl, items⟩⟩

theorem Marked.listed (sound : st.Sound) {key : String} (marked : Marked N st key) :
    key ∈ st.stats.keys := by
  obtain ⟨item, here, -⟩ := marked
  rw [← item?_isSome_iff sound, here]
  rfl

theorem Marked.take (sound : st.Sound) {key : String} (marked : Marked N st key) (raw : Raw) :
    Marked N (st.take K raw) key := by
  obtain ⟨item, here, name⟩ := marked
  obtain ⟨-, ⟨-, refused⟩ | ⟨line, -, items⟩⟩ := take_spec (K := K) sound raw
  · rw [refused]
    exact ⟨item, here, name⟩
  · rw [Marked, items key]
    by_cases same : key = K.key line
    · rw [if_pos same, here]
      exact ⟨_, rfl, by rw [N.name_accumulate]; exact name⟩
    · rw [if_neg same]
      exact ⟨item, here, name⟩

theorem Own.take (sound : st.Sound) (own : Own N st) (raw : Raw) : Own N (st.take K raw) := by
  obtain ⟨-, ⟨-, refused⟩ | ⟨line, -, items⟩⟩ := take_spec (K := K) sound raw
  · rw [refused]
    exact own
  · intro key item here
    rw [items key] at here
    split_ifs at here with same
    · obtain rfl := Option.some.inj here
      rw [N.name_accumulate]
      rcases old : st.item? key with _ | item
      · exact same ▸ N.key_ne line
      · exact own key item old
    · exact own key item here

theorem marked_currentStats (sound : st.Sound) (resolution : BitVec 32) (now : Int)
    {order : List String} {key : String}
    (marked : Marked N st key ∨ key ∈ order ∧ key ∈ st.stats.keys) :
    Marked N (st.currentStats N resolution now order).2 key := by
  induction order generalizing st with
  | nil => exact marked.resolve_right fun listed => absurd listed.1 List.not_mem_nil
  | cons first order ih =>
    rw [Store.currentStats]
    rcases found : st.stats.lookup first with _ | ref
    · refine ih sound (marked.imp_right fun ⟨mem, listed⟩ => ⟨?_, listed⟩)
      rcases List.mem_cons.mp mem with rfl | mem
      · have isSome := AList.lookup_isSome.mpr (AList.mem_keys.mpr listed)
        rw [found] at isSome
        cases isSome
      · exact mem
    · refine ih (sound.update ref _) ?_
      have items := item?_update sound found (N.seen resolution first)
      by_cases same : key = first
      · subst same
        have listed : key ∈ st.stats.keys := marked.elim (·.listed sound) And.right
        obtain ⟨item, here⟩ := Option.isSome_iff_exists.mp ((item?_isSome_iff sound).mpr listed)
        refine .inl ⟨N.seen resolution key item, ?_, ?_⟩
        · rw [items, if_pos rfl, here]
          rfl
        · rw [Named.seen, N.name_rename]
          exact StatName.key_setKey _ _
      · rcases marked with ⟨item, here, name⟩ | ⟨mem, listed⟩
        · exact .inl ⟨item, by rw [items, if_neg same]; exact here, name⟩
        · exact .inr ⟨(List.mem_cons.mp mem).resolve_left same, listed⟩

theorem flushList_ne (sound : st.Sound) (own : Own N st) (same : SameShape st st') {key : String}
    (marked : Marked N st' key) (keep : Bool) (walk : Iteration) :
    (st'.flushList K keep (walk.order st'.stats.keys)).1 ≠
      (st.flushList K keep (walk.order st.stats.keys)).1 := by
  have listed : key ∈ st.stats.keys := same.stats ▸ marked.listed (same.sound sound)
  rw [← same.stats]
  intro equal
  have all : ∀ {s : Store Item}, SameShape st s → ∀ entry ∈ walk.order st.stats.keys,
      ((s.item? entry.1).map (K.repr entry.2)).isSome := by
    intro s shape entry mem
    rw [Option.isSome_map, item?_isSome_iff (shape.sound sound), ← shape.stats,
      ← (walk.perm st.stats.keys).mem_iff]
    exact List.mem_map_of_mem mem
  obtain ⟨⟨key', now⟩, mem, rfl⟩ := List.mem_map.mp ((walk.perm _).mem_iff.mpr listed)
  have one := eq_of_filterMap_eq (all same) (all ⟨rfl, rfl⟩) equal _ mem
  obtain ⟨item', here', name'⟩ := marked
  obtain ⟨item, here⟩ := Option.isSome_iff_exists.mp ((item?_isSome_iff sound).mpr listed)
  rw [here, here', Option.map_some, Option.map_some, Option.some.injEq] at one
  have names := congrArg Stat.name one
  rw [N.name_repr, N.name_repr] at names
  exact own key' item here (names ▸ name')

/-- A mark that is there before a flush is seen by it. -/
theorem flushes_ne (keep : Bool) (resolution : BitVec 32) {events : List (Watched Raw)}
    {key : String} (sound : st.Sound) (own : Own N st) (same : SameShape st st')
    (marked : Marked N st' key) (flushed : ∃ e ∈ events, e.isFlush = true) :
    flushes N keep resolution st' events ≠
      flushes N keep resolution st (events.filter fun e => !e.isLook) := by
  induction events generalizing st st' with
  | nil =>
    obtain ⟨e, mem, -⟩ := flushed
    cases mem
  | cons event events ih =>
    have later : event.isFlush = false → ∃ e ∈ events, e.isFlush = true := by
      intro other
      obtain ⟨e, mem, isFlush⟩ := flushed
      rcases List.mem_cons.mp mem with rfl | mem
      · rw [other] at isFlush
        cases isFlush
      · exact ⟨e, mem, isFlush⟩
    cases event with
    | line raw =>
      exact ih (take_spec sound raw).1 (own.take sound raw) (same.take raw)
        (marked.take (same.sound sound) raw) (later rfl)
    | flush walk =>
      intro equal
      exact flushList_ne sound own same marked keep walk (List.cons.inj equal).1
    | look now walk =>
      exact ih sound own (same.trans (sameShape_currentStats resolution now _))
        (marked_currentStats (same.sound sound) resolution now (.inl marked)) (later rfl)

/-! ### Runs in which nobody sees an item -/

theorem sound_reset (sound : st.Sound) (keep : Bool) : (st.reset K keep).Sound := by
  cases keep with
  | false => exact ⟨nofun, nofun⟩
  | true =>
    have kept : SameShape st (st.reset K true) := ⟨rfl, by simp [Store.reset]⟩
    exact kept.sound sound

theorem Own.reset (own : Own N st) (keep : Bool) : Own N (st.reset K keep) := by
  intro key item here
  cases keep with
  | false => cases here
  | true =>
    rw [item?_reset_kept] at here
    obtain ⟨old, was, rfl⟩ := Option.map_eq_some_iff.mp here
    rw [N.name_zeroOut]
    exact own key old was

theorem keys_take (sound : st.Sound) (raw : Raw) :
    (st.take K raw).stats.keys ≠ [] ↔
      st.stats.keys ≠ [] ∨ (K.parse raw).toOption.isSome := by
  obtain ⟨sound', ⟨⟨error, parsed⟩, refused⟩ | ⟨line, parsed, items⟩⟩ :=
    take_spec (K := K) sound raw
  · rw [refused, parsed]
    simp [Except.toOption]
  · have listed : K.key line ∈ (st.take K raw).stats.keys := by
      rw [← item?_isSome_iff sound', items, if_pos rfl]
      rfl
    rw [parsed]
    exact iff_of_true (List.ne_nil_of_mem listed) (.inr rfl)

theorem keys_reset (st : Store Item) (keep : Bool) :
    (st.reset K keep).stats.keys ≠ [] ↔ st.stats.keys ≠ [] ∧ keep = true := by
  cases keep with
  | false | true => simp [Store.reset]

theorem flushes_eq_nil (keep : Bool) (resolution : BitVec 32) {events : List (Watched Raw)}
    (none : ∀ e ∈ events, e.isFlush = false) (st : Store Item) :
    flushes N keep resolution st events = [] := by
  induction events generalizing st with
  | nil => rfl
  | cons event events ih =>
    have later : ∀ e ∈ events, e.isFlush = false := fun e mem => none e (List.mem_cons_of_mem _ mem)
    cases event with
    | line raw | look now walk => exact ih later _
    | flush walk => cases none (.flush walk) List.mem_cons_self

/-- Flushes return the same as without the looks just when no look before a flush finds
something. -/
theorem flushes_eq_iff (keep : Bool) (resolution : BitVec 32) {events : List (Watched Raw)}
    {found : Bool} (sound : st.Sound) (own : Own N st)
    (counts : st.stats.keys ≠ [] ↔ found = true) :
    flushes N keep resolution st events =
        flushes N keep resolution st (events.filter fun e => !e.isLook) ↔
      LooksAtNothing K keep found events := by
  induction events generalizing st found with
  | nil => exact iff_of_true rfl trivial
  | cons event events ih =>
    cases event with
    | line raw =>
      apply ih (take_spec sound raw).1 (own.take sound raw)
      rw [keys_take sound, counts, Bool.or_eq_true]
    | flush walk =>
      have after := ih (sound_reset (K := K) sound keep) (own.reset keep)
        (by rw [keys_reset, counts, Bool.and_eq_true])
      constructor
      · intro equal
        exact after.mp (List.cons.inj equal).2
      · intro nothing
        exact congrArg ((st.flushList K keep (walk.order st.stats.keys)).1 :: ·) (after.mpr nothing)
    | look now walk =>
      rw [LooksAtNothing]
      cases found with
      | false =>
        have empty : st.stats.keys = [] := by simpa using counts
        have same : (st.currentStats N resolution now
            ((walk.order st.stats.keys).map Prod.fst)).2 = st := by
          have perm := walk.perm st.stats.keys
          rw [empty] at perm ⊢
          rw [List.perm_nil.mp perm]
          rfl
        have skipped := ih sound own counts
        rw [flushes, same]
        exact skipped.trans (and_iff_right nofun).symm
      | true =>
        by_cases flushed : ∃ e ∈ events, e.isFlush = true
        · obtain ⟨key, keys, listed⟩ := List.exists_cons_of_ne_nil (counts.mpr rfl)
          have mem : key ∈ st.stats.keys := by simp [listed]
          have marked := marked_currentStats (N := N) sound resolution now
            (.inr ⟨(walk.perm st.stats.keys).mem_iff.mpr mem, mem⟩)
          have seen := flushes_ne keep resolution sound own
            (sameShape_currentStats resolution now _) marked flushed
          refine iff_of_false seen ?_
          rintro ⟨unflushed, -⟩
          obtain ⟨e, later, isFlush⟩ := flushed
          exact absurd (unflushed rfl e later) (by simp [isFlush])
        · have unflushed : ∀ e ∈ events, e.isFlush = false := by simpa using flushed
          have rest : ∀ e ∈ events.filter fun e => !e.isLook, e.isFlush = false :=
            fun e mem => unflushed e (List.mem_of_mem_filter mem)
          refine iff_of_true ?_ ⟨fun _ => unflushed, (ih sound own counts).mp ?_⟩
          · exact (flushes_eq_nil keep resolution unflushed _).trans
              (flushes_eq_nil keep resolution rest st).symm
          · rw [flushes_eq_nil keep resolution unflushed, flushes_eq_nil keep resolution rest]

theorem unseen_iff (N : Named K) (keep : Bool) (resolution : BitVec 32)
    (events : List (Watched Raw)) :
    Unseen N keep resolution events ↔ LooksAtNothing K keep false events :=
  flushes_eq_iff keep resolution sound_empty nofun (by simp [Store.empty])

end Named

/-! ### The accumulators -/

section Accumulators

variable (env : Naming) (parseFloat : String → Option Parsed) (hashed : String → BitVec 64)
variable (unmarshal : String → Except String JsonStructSplitItem)

theorem length_lt_dashed (text : String) (n : Int) : text.length < (dashed text n).length := by
  have dash : "-".length = 1 := rfl
  rw [dashed, String.length_append, String.length_append, dash]
  omega

/-- The key of a bucket is longer than what it is made of. -/
theorem ne_dashed (text rest : String) (n : Int) : text ≠ dashed (text ++ rest) n := by
  intro same
  have longer := length_lt_dashed (text ++ rest) n
  rw [← same, String.length_append] at longer
  omega

def GraphiteBaseStatItem.rename (s : GraphiteBaseStatItem) (name : StatName) :
    GraphiteBaseStatItem := { s with inKey := name }

theorem GraphiteBaseStatItem.inKey_accumulate (s : GraphiteBaseStatItem) (value : Option ℚ) :
    (s.accumulate value).inKey = s.inKey := by
  cases value with
  | none => rfl
  | some val => rfl

def GraphiteAccumulate.named (a : GraphiteAccumulate) : Named (a.kind env parseFloat) where
  name := GraphiteBaseStatItem.inKey
  rename := GraphiteBaseStatItem.rename
  name_rename _ _ := rfl
  name_accumulate item line := item.inKey_accumulate line.value
  name_zeroOut _ := rfl
  name_repr _ _ := rfl
  key_ne _ := ne_dashed _ _ _

def JsonAccumulate.named (a : JsonAccumulate) : Named (a.kind unmarshal) where
  name := GraphiteBaseStatItem.inKey
  rename := GraphiteBaseStatItem.rename
  name_rename _ _ := rfl
  name_accumulate item line := item.inKey_accumulate line.value
  name_zeroOut _ := rfl
  name_repr _ _ := rfl
  key_ne _ := ne_dashed _ _ _

def CarbonTwoAccumulate.named (a : CarbonTwoAccumulate) : Named (a.kind env parseFloat) where
  name := GraphiteBaseStatItem.inKey
  rename := GraphiteBaseStatItem.rename
  name_rename _ _ := rfl
  name_accumulate item line := item.inKey_accumulate line.value
  name_zeroOut _ := rfl
  name_repr _ _ := rfl
  key_ne _ same := (length_lt_dashed _ _).ne (congrArg String.length same)

def StatsdItem.inKey : StatsdItem → StatName
  | base s => s.inKey
  | timer s => s.inKey
  | set s => s.inKey

def StatsdItem.rename (item : StatsdItem) (name : StatName) : StatsdItem :=
  match item with
  | base s => base { s with inKey := name }
  | timer s => timer { s with inKey := name }
  | set s => set { s with inKey := name }

def StatsdAccumulate.named (a : StatsdAccumulate) : Named (a.kind env parseFloat hashed) where
  name := StatsdItem.inKey
  rename := StatsdItem.rename
  name_rename item _ := by cases item <;> rfl
  name_accumulate item line := by
    cases item with
    | base s =>
      rcases value : line.value
      all_goals
        simp only [kind, StatsdItem.accumulate, StatsdItem.inKey, StatsdBaseStatItem.accumulate,
          value]
    | timer s =>
      rcases value : line.value
      all_goals
        simp only [kind, StatsdItem.accumulate, StatsdItem.inKey, StatsdTimerStatItem.accumulate,
          value]
    | set s => rfl
  name_zeroOut item := by cases item <;> rfl
  name_repr _ item := by cases item <;> rfl
  key_ne line := by
    have named : (a.fresh line).inKey.key = line.key := by
      rw [fresh]
      split_ifs
      · rfl
      · rfl
      · rfl
    intro same
    have lengths := congrArg String.length (named.symm.trans same)
    have bar : "|".length = 1 := rfl
    simp only [kind_key, statKey, String.length_append, bar] at lengths
    omega

/-- With every accumulator, flushes return what they would return without the looks just when
no look before a flush finds an item. -/
theorem unseen_accumulators_iff (keep : Bool) (resolution : BitVec 32) :
    (∀ (a : GraphiteAccumulate) (events : List (Watched (String × Int))),
      Unseen (a.named env parseFloat) keep resolution events ↔
        LooksAtNothing (a.kind env parseFloat) keep false events) ∧
    (∀ (a : CarbonTwoAccumulate) (events : List (Watched (String × Int))),
      Unseen (a.named env parseFloat) keep resolution events ↔
        LooksAtNothing (a.kind env parseFloat) keep false events) ∧
    (∀ (a : JsonAccumulate) (events : List (Watched (String × Int))),
      Unseen (a.named unmarshal) keep resolution events ↔
        LooksAtNothing (a.kind unmarshal) keep false events) ∧
    (∀ (a : StatsdAccumulate) (events : List (Watched String)),
      Unseen (a.named env parseFloat hashed) keep resolution events ↔
        LooksAtNothing (a.kind env parseFloat hashed) keep false events) := by
  refine ⟨?_, ?_, ?_, ?_⟩
  · exact fun a events => unseen_iff (a.named env parseFloat) keep resolution events
  · exact fun a events => unseen_iff (a.named env parseFloat) keep resolution events
  · exact fun a events => unseen_iff (a.named unmarshal) keep resolution events
  · exact fun a events => unseen_iff (a.named env parseFloat hashed) keep resolution events

/-- The map as it is listed. -/
def inOrder : Iteration := ⟨fun keys => keys.map (·, 0), fun keys => by simp [Function.comp_def]⟩

/-- After a look, the stat of `a` is flushed under the key of the map. -/
theorem look_renames :
    let a : GraphiteAccumulate := ⟨1000000000, .metrics2, .fnv⟩
    let events : List (Watched (String × Int)) :=
      [.line ("a 5 100", 0), .look 0 inOrder, .flush inOrder]
    (flushes (a.named plainNaming wholeNumber) false 10#32 .empty events).flatten.map
      (fun stat => (stat.name.key, stat.name.resolution)) = [("a-100000000000", 10#32)] ∧
    (flushes (a.named plainNaming wholeNumber) false 10#32 .empty
      (events.filter fun e => !e.isLook)).flatten.map
      (fun stat => (stat.name.key, stat.name.resolution)) = [("a", 0#32)] ∧
    ¬ Unseen (a.named plainNaming wholeNumber) false 10#32 events := by
  intro a events
  have seen : (flushes (a.named plainNaming wholeNumber) false 10#32 .empty events).flatten.map
      (fun stat => (stat.name.key, stat.name.resolution)) = [("a-100000000000", 10#32)] := by
    decide +kernel
  have unseen : (flushes (a.named plainNaming wholeNumber) false 10#32 .empty
      (events.filter fun e => !e.isLook)).flatten.map
      (fun stat => (stat.name.key, stat.name.resolution)) = [("a", 0#32)] := by
    decide +kernel
  refine ⟨seen, unseen, ?_⟩
  intro same
  rw [Unseen] at same
  rw [same, unseen] at seen
  exact absurd seen (by decide)

end Accumulators

end Accumulator
