import Cadent.Accumulator.StatItem
import Cadent.Lib.Runs

/-!
# Lines and flushes

One goroutine processes lines while others flush. `ProcessLine` looks its item up, takes the
value in and inserts the item when it is new; a flush reads all items and resets them later.
Each of these is one step. What is flushed adds up to the lines only when no line and no
other flush comes between the two steps of a flush.
-/

namespace Accumulator

open Maps Runs

/-- Where the goroutine that processes lines is: with an item that it found, with one that
it made, or with one that it made and that has its value. -/
inductive Worker (Line : Type) where
  | idle
  | found (line : Line) (ref : Nat)
  | fresh (line : Line) (ref : Nat)
  | made (line : Line) (ref : Nat)
  deriving DecidableEq

structure System (Line Item : Type) where
  store : Store Item
  worker : Worker Line
  /-- The flushes that have read the items and have not reset them. -/
  pending : Nat

inductive Action (Raw : Type) where
  | lookup (raw : Raw)
  | accumulate
  | insert
  | read (order : List (String × Int))
  | reset

section Steps

variable {Raw Line Item : Type} (K : Kind Raw Line Item) (inKeepKeys : Bool)

def start : System Line Item := ⟨.empty, .idle, 0⟩

/-- One step and the stats that a flush has read in it. -/
def step (s : System Line Item) : Action Raw → Option (System Line Item × List Stat)
  | .lookup raw =>
    match s.worker, K.parse raw with
    | .idle, .ok line =>
      match s.store.stats.lookup (K.key line) with
      | some ref => some ({ s with worker := .found line ref }, [])
      | none =>
        some (⟨s.store.make (K.fresh line), .fresh line s.store.items.length, s.pending⟩, [])
    | _, _ => none
  | .accumulate =>
    match s.worker with
    | .found line ref =>
      some (⟨s.store.update ref (K.accumulate · line), .idle, s.pending⟩, [])
    | .fresh line ref =>
      some (⟨s.store.update ref (K.accumulate · line), .made line ref, s.pending⟩, [])
    | _ => none
  | .insert =>
    match s.worker with
    | .made line ref => some (⟨s.store.insert (K.key line) ref, .idle, s.pending⟩, [])
    | _ => none
  | .read order =>
    if (order.map Prod.fst).Perm s.store.stats.keys then
      some ({ s with pending := s.pending + 1 }, s.store.read K order)
    else none
  | .reset =>
    match s.pending with
    | 0 => none
    | pending + 1 => some (⟨s.store.reset K inKeepKeys, s.worker, pending⟩, [])

abbrev History (Raw Line Item : Type) :=
  List (Taken (System Line Item) (Action Raw) (List Stat))

/-- The line that a step begins with. -/
def lineOf : Action Raw → Option Line
  | .lookup raw => (K.parse raw).toOption
  | _ => none

def linesOf (h : History Raw Line Item) : List Line := h.filterMap fun e => lineOf K e.act

def flushedIn (h : History Raw Line Item) : List Stat := h.flatMap (·.out)

/-- No flush is between its two steps when the map changes or when another one reads it, and
an item that was looked up is still in the map when it takes the value in. -/
def Careful (s : System Line Item) : Action Raw → Prop
  | .accumulate =>
    match s.worker with
    | .found line ref => s.pending = 0 ∧ s.store.stats.lookup (K.key line) = some ref
    | _ => True
  | .insert => s.pending = 0
  | .read _ => s.pending = 0
  | _ => True

instance (s : System Line Item) (a : Action Raw) : Decidable (Careful K s a) := by
  cases a with
  | accumulate =>
    unfold Careful
    cases s.worker <;> infer_instance
  | _ => unfold Careful; infer_instance

/-- What a step does. -/
inductive Effect (s : System Line Item) : Action Raw → System Line Item → List Stat → Prop
  | found {raw : Raw} {line : Line} {ref : Nat} (idle : s.worker = .idle)
      (parsed : K.parse raw = .ok line) (here : s.store.stats.lookup (K.key line) = some ref) :
      Effect s (.lookup raw) ⟨s.store, .found line ref, s.pending⟩ []
  | fresh {raw : Raw} {line : Line} (idle : s.worker = .idle)
      (parsed : K.parse raw = .ok line) (missing : s.store.stats.lookup (K.key line) = none) :
      Effect s (.lookup raw)
        ⟨s.store.make (K.fresh line), .fresh line s.store.items.length, s.pending⟩ []
  | taken {line : Line} {ref : Nat} (worker : s.worker = .found line ref) :
      Effect s .accumulate ⟨s.store.update ref (K.accumulate · line), .idle, s.pending⟩ []
  | filled {line : Line} {ref : Nat} (worker : s.worker = .fresh line ref) :
      Effect s .accumulate
        ⟨s.store.update ref (K.accumulate · line), .made line ref, s.pending⟩ []
  | inserted {line : Line} {ref : Nat} (worker : s.worker = .made line ref) :
      Effect s .insert ⟨s.store.insert (K.key line) ref, .idle, s.pending⟩ []
  | read {order : List (String × Int)}
      (keys : (order.map Prod.fst).Perm s.store.stats.keys) :
      Effect s (.read order) ⟨s.store, s.worker, s.pending + 1⟩ (s.store.read K order)
  | reset {pending : Nat} (here : s.pending = pending + 1) :
      Effect s .reset ⟨s.store.reset K inKeepKeys, s.worker, pending⟩ []

variable {K inKeepKeys} {s s' : System Line Item} {a : Action Raw} {out : List Stat}

theorem effect_of_step (taken : step K inKeepKeys s a = some (s', out)) :
    Effect K inKeepKeys s a s' out := by
  cases a with
  | lookup raw =>
    rw [step] at taken
    split at taken
    next line idle parsed =>
      split at taken
      next ref here =>
        cases taken
        exact .found idle parsed here
      next missing =>
        cases taken
        exact .fresh idle parsed missing
    next => cases taken
  | accumulate =>
    rw [step] at taken
    split at taken
    next line ref worker =>
      cases taken
      exact .taken worker
    next line ref worker =>
      cases taken
      exact .filled worker
    next => cases taken
  | insert =>
    rw [step] at taken
    split at taken
    next line ref worker =>
      cases taken
      exact .inserted worker
    next => cases taken
  | read order =>
    rw [step] at taken
    split_ifs at taken with keys
    cases taken
    exact .read keys
  | reset =>
    rw [step] at taken
    split at taken
    next => cases taken
    next pending here =>
      cases taken
      exact .reset here

theorem read_of_step {order : List (String × Int)}
    (taken : step K inKeepKeys s (.read order) = some (s', out)) :
    (order.map Prod.fst).Perm s.store.stats.keys ∧ out = s.store.read K order := by
  cases effect_of_step taken with
  | read keys => exact ⟨keys, rfl⟩

end Steps

/-- Something that lines bring and items add up: it is nothing for new and for zeroed items.
It need not be so for all lines and items. -/
structure Tally {Raw Line Item : Type} (K : Kind Raw Line Item) (M : Type) [AddCommGroup M] where
  measure : Item → M
  weight : Line → M
  counted : Line → Prop
  plain : Item → Prop
  measure_fresh : ∀ line, measure (K.fresh line) = 0
  plain_fresh : ∀ line, counted line → plain (K.fresh line)
  measure_accumulate : ∀ item line, plain item → counted line →
    measure (K.accumulate item line) = measure item + weight line
  plain_accumulate : ∀ item line, plain item → plain (K.accumulate item line)
  measure_zeroOut : ∀ item, plain item → measure (K.zeroOut item) = 0
  plain_zeroOut : ∀ item, plain item → plain (K.zeroOut item)

section Balance

variable {Raw Line Item M : Type} [AddCommGroup M] {K : Kind Raw Line Item} (T : Tally K M)

/-- What the object of a reference has. -/
def Tally.at (items : List Item) (ref : Nat) : M := ((items[ref]?).map T.measure).getD 0

/-- What has not been read yet of the items in the map. -/
def Tally.live (s : System Line Item) : M :=
  if s.pending = 0 then total (T.at s.store.items) s.store.stats else 0

/-- What the goroutine that processes lines still has to bring into the map. -/
def Tally.aside (s : System Line Item) : M :=
  match s.worker with
  | .idle => 0
  | .found line _ => T.weight line
  | .fresh line ref => T.weight line + T.at s.store.items ref
  | .made _ ref => T.at s.store.items ref

/-- An item that is not in the map, and neither is its key. -/
structure Unlisted (K : Kind Raw Line Item) (st : Store Item) (line : Line) (ref : Nat) :
    Prop where
  stored : ref < st.items.length
  unlisted : ∀ key, st.stats.lookup key ≠ some ref
  missing : st.stats.lookup (K.key line) = none

/-- What the goroutine that processes lines knows. -/
def Knows (s : System Line Item) : Prop :=
  match s.worker with
  | .idle => True
  | .found line _ => T.counted line
  | .fresh line ref => T.counted line ∧ Unlisted K s.store line ref
  | .made line ref => Unlisted K s.store line ref

/-- All that the lines brought was flushed, or is in the map, or on its way there. -/
structure Balanced (shown : Stat → M) (h : History Raw Line Item) (s : System Line Item) :
    Prop where
  sound : s.store.Sound
  plain : ∀ item ∈ s.store.items, T.plain item
  knows : Knows T s
  once : s.pending ≤ 1
  balance : ((flushedIn h).map shown).sum + T.live s + T.aside s =
    ((linesOf K h).map T.weight).sum

variable {T} {shown : Stat → M} {h : History Raw Line Item} {s s' : System Line Item}
variable {a : Action Raw} {out : List Stat} {inKeepKeys : Bool}

theorem at_append {items : List Item} {ref : Nat} (stored : ref < items.length) (item : Item) :
    T.at (items ++ [item]) ref = T.at items ref := by
  rw [Tally.at, List.getElem?_append_left stored, Tally.at]

theorem at_modify_ne {items : List Item} {ref other : Nat} (ne : other ≠ ref) (f : Item → Item) :
    T.at (items.modify ref f) other = T.at items other := by
  simp [Tally.at, ne.symm]

theorem at_modify {items : List Item} {ref : Nat} {item : Item} (here : items[ref]? = some item)
    (f : Item → Item) : T.at (items.modify ref f) ref = T.measure (f item) := by
  simp [Tally.at, here]

theorem at_eq {items : List Item} {ref : Nat} {item : Item} (here : items[ref]? = some item) :
    T.at items ref = T.measure item := by
  simp [Tally.at, here]

theorem exists_item {items : List Item} {ref : Nat} (stored : ref < items.length) :
    ∃ item, items[ref]? = some item ∧ item ∈ items :=
  ⟨items[ref], List.getElem?_eq_getElem stored, List.getElem_mem stored⟩

theorem mem_modify {items : List Item} {ref : Nat} {f : Item → Item} {item : Item}
    (mem : item ∈ items.modify ref f) : item ∈ items ∨ ∃ old ∈ items, item = f old := by
  obtain ⟨n, here⟩ := List.mem_iff_getElem?.mp mem
  rw [List.getElem?_modify] at here
  obtain ⟨old, found, eq⟩ := Option.map_eq_some_iff.mp here
  split_ifs at eq
  · exact .inr ⟨old, List.mem_of_getElem? found, eq.symm⟩
  · exact .inl (eq ▸ List.mem_of_getElem? found)

theorem Unlisted.modify {st : Store Item} {line : Line} {ref : Nat}
    (unlisted : Unlisted K st line ref) (other : Nat) (f : Item → Item) :
    Unlisted K (st.update other f) line ref :=
  ⟨by simpa [Store.update] using unlisted.stored, unlisted.unlisted, unlisted.missing⟩

theorem linesOf_snoc (e : Taken (System Line Item) (Action Raw) (List Stat)) :
    linesOf K (h ++ [e]) = linesOf K h ++ (lineOf K e.act).toList := filterMap_snoc _ h e

theorem flushedIn_snoc (e : Taken (System Line Item) (Action Raw) (List Stat)) :
    flushedIn (h ++ [e]) = flushedIn h ++ e.out := by
  simp [flushedIn]

theorem linesOf_silent {e : Taken (System Line Item) (Action Raw) (List Stat)}
    (silent : lineOf K e.act = none) : linesOf K (h ++ [e]) = linesOf K h := by
  rw [linesOf_snoc, silent, Option.toList_none, List.append_nil]

theorem lineOf_lookup {raw : Raw} {line : Line} (parsed : K.parse raw = .ok line) :
    lineOf K (.lookup raw) = some line := by
  rw [lineOf, parsed]
  rfl

theorem Balanced.read_line (inv : Balanced T shown h s) {raw : Raw} {line : Line}
    (idle : s.worker = .idle) (parsed : K.parse raw = .ok line) (live : T.live s' = T.live s)
    (aside : T.aside s' = T.weight line) :
    ((flushedIn (h ++ [⟨s, .lookup raw, []⟩])).map shown).sum + T.live s' + T.aside s' =
      ((linesOf K (h ++ [⟨s, .lookup raw, []⟩])).map T.weight).sum := by
  have balance := inv.balance
  rw [Tally.aside, idle, add_zero] at balance
  rw [linesOf_snoc, flushedIn_snoc, lineOf_lookup parsed, List.append_nil, Option.toList_some,
    List.map_append, List.sum_append, ← balance, List.map_singleton,
    List.sum_singleton, live, aside]

theorem Balanced.found (inv : Balanced T shown h s) {raw : Raw} {line : Line} {ref : Nat}
    (idle : s.worker = .idle) (parsed : K.parse raw = .ok line) (counted : T.counted line) :
    Balanced T shown (h ++ [⟨s, .lookup raw, []⟩]) ⟨s.store, .found line ref, s.pending⟩ :=
  ⟨inv.sound, inv.plain, counted, inv.once, inv.read_line idle parsed rfl rfl⟩

theorem Balanced.fresh (inv : Balanced T shown h s) {raw : Raw} {line : Line}
    (idle : s.worker = .idle) (parsed : K.parse raw = .ok line) (counted : T.counted line)
    (missing : s.store.stats.lookup (K.key line) = none) :
    Balanced T shown (h ++ [⟨s, .lookup raw, []⟩])
      ⟨s.store.make (K.fresh line), .fresh line s.store.items.length, s.pending⟩ := by
  have live : T.live ⟨s.store.make (K.fresh line), .fresh line s.store.items.length, s.pending⟩ =
      T.live s := by
    rw [Tally.live, Tally.live]
    refine if_congr Iff.rfl (total_congr ?_) rfl
    exact fun key ref here => at_append (inv.sound.listed here) _
  have new : T.at (s.store.items ++ [K.fresh line]) s.store.items.length = 0 := by
    simp [Tally.at, T.measure_fresh]
  refine ⟨inv.sound.make _, ?_, ⟨counted, ?_, ?_, missing⟩, inv.once, ?_⟩
  · intro item mem
    rcases List.mem_append.mp mem with old | own
    · exact inv.plain item old
    · rw [List.mem_singleton.mp own]
      exact T.plain_fresh line counted
  · simp [Store.make]
  · intro key here
    exact absurd (inv.sound.listed here) (Nat.lt_irrefl _)
  · refine inv.read_line idle parsed live ?_
    dsimp only [Tally.aside, Store.make]
    rw [new, add_zero]

/-- A step that reads no line and flushes nothing only moves what there is. -/
theorem Balanced.moved (inv : Balanced T shown h s) (silent : lineOf K a = none)
    (sound : s'.store.Sound) (plain : ∀ item ∈ s'.store.items, T.plain item) (knows : Knows T s')
    (pending : s'.pending = s.pending) (same : T.live s' + T.aside s' = T.live s + T.aside s) :
    Balanced T shown (h ++ [⟨s, a, []⟩]) s' := by
  refine ⟨sound, plain, knows, pending ▸ inv.once, ?_⟩
  rw [linesOf_silent silent, flushedIn_snoc, List.append_nil, ← inv.balance, add_assoc, same,
    add_assoc]

theorem plain_update (inv : Balanced T shown h s) (ref : Nat) (line : Line) :
    ∀ item ∈ (s.store.update ref (K.accumulate · line)).items, T.plain item := by
  intro item mem
  rcases mem_modify mem with old | ⟨old, mem', rfl⟩
  · exact inv.plain item old
  · exact T.plain_accumulate old line (inv.plain old mem')

theorem Balanced.taken (inv : Balanced T shown h s) {line : Line} {ref : Nat}
    (worker : s.worker = .found line ref) (quiet : s.pending = 0)
    (here : s.store.stats.lookup (K.key line) = some ref) :
    Balanced T shown (h ++ [⟨s, .accumulate, []⟩])
      ⟨s.store.update ref (K.accumulate · line), .idle, s.pending⟩ := by
  obtain ⟨item, object, mem⟩ := exists_item (inv.sound.listed here)
  have counted : T.counted line := by
    have knows := inv.knows
    rw [Knows, worker] at knows
    exact knows
  have changed := total_change (f := T.at s.store.items)
    (g := T.at (s.store.items.modify ref (K.accumulate · line))) here
    (fun key' here' => inv.sound.apart here' here) (fun other ne => (at_modify_ne ne _).symm)
  rw [at_modify object, at_eq object, T.measure_accumulate item line (inv.plain item mem) counted]
    at changed
  refine inv.moved rfl (inv.sound.update ref _) (plain_update inv ref line) trivial rfl ?_
  simp only [Tally.live, if_pos quiet, Tally.aside, worker, Store.update, changed]
  abel

theorem Balanced.filled (inv : Balanced T shown h s) {line : Line} {ref : Nat}
    (worker : s.worker = .fresh line ref) :
    Balanced T shown (h ++ [⟨s, .accumulate, []⟩])
      ⟨s.store.update ref (K.accumulate · line), .made line ref, s.pending⟩ := by
  have knows := inv.knows
  rw [Knows, worker] at knows
  obtain ⟨counted, unlisted⟩ := knows
  obtain ⟨item, object, mem⟩ := exists_item unlisted.stored
  have live : T.live ⟨s.store.update ref (K.accumulate · line), .made line ref, s.pending⟩ =
      T.live s := by
    rw [Tally.live, Tally.live]
    refine if_congr Iff.rfl (total_congr ?_) rfl
    intro key other here
    refine at_modify_ne ?_ _
    rintro rfl
    exact unlisted.unlisted key here
  refine inv.moved rfl (inv.sound.update ref _) (plain_update inv ref line) (unlisted.modify ref _)
    rfl ?_
  rw [live]
  simp only [Tally.aside, worker, Store.update, at_eq object, at_modify object,
    T.measure_accumulate item line (inv.plain item mem) counted, add_comm]

theorem Balanced.inserted (inv : Balanced T shown h s) {line : Line} {ref : Nat}
    (worker : s.worker = .made line ref) (quiet : s.pending = 0) :
    Balanced T shown (h ++ [⟨s, .insert, []⟩])
      ⟨s.store.insert (K.key line) ref, .idle, s.pending⟩ := by
  have unlisted : Unlisted K s.store line ref := by
    have knows := inv.knows
    rw [Knows, worker] at knows
    exact knows
  refine inv.moved rfl (inv.sound.insert unlisted.stored unlisted.unlisted _) inv.plain trivial
    rfl ?_
  simp only [Tally.live, if_pos quiet, Tally.aside, worker, Store.insert,
    total_insert_new unlisted.missing]
  abel

theorem sum_read (inv : Balanced T shown h s) {order : List (String × Int)}
    (keys : (order.map Prod.fst).Perm s.store.stats.keys)
    (seen : ∀ key now item, s.store.item? key = some item →
      shown (K.repr now item) = T.measure item) :
    ((s.store.read K order).map shown).sum = total (T.at s.store.items) s.store.stats := by
  rw [← sum_lookup keys, Store.read, List.map_map, List.map_filterMap]
  have each : ∀ entry ∈ order,
      ((s.store.item? entry.1).map (K.repr entry.2)).map shown =
        some (((s.store.stats.lookup entry.1).map (T.at s.store.items)).getD 0) := by
    intro entry mem
    obtain ⟨ref, found⟩ := Option.isSome_iff_exists.mp (AList.lookup_isSome.mpr
      (AList.mem_keys.mpr (keys.mem_iff.mp (List.mem_map_of_mem mem))))
    obtain ⟨item, object, _⟩ := exists_item (inv.sound.listed found)
    have item? : s.store.item? entry.1 = some item := by
      rw [Store.item?, found, Option.bind_some, object]
    rw [item?, found, Option.map_some, Option.map_some, seen entry.1 entry.2 item item?,
      Option.map_some, Option.getD_some, at_eq object]
  rw [List.filterMap_congr each, List.filterMap_eq_map']
  rfl

theorem Balanced.read (inv : Balanced T shown h s) {order : List (String × Int)}
    (quiet : s.pending = 0) (keys : (order.map Prod.fst).Perm s.store.stats.keys)
    (seen : ∀ key now item, s.store.item? key = some item →
      shown (K.repr now item) = T.measure item) :
    Balanced T shown (h ++ [⟨s, .read order, s.store.read K order⟩])
      ⟨s.store, s.worker, s.pending + 1⟩ := by
  refine ⟨inv.sound, inv.plain, inv.knows, by simp [quiet], ?_⟩
  have balance := inv.balance
  rw [Tally.live, if_pos quiet] at balance
  rw [linesOf_silent rfl, flushedIn_snoc, ← balance, Tally.live, if_neg (Nat.succ_ne_zero _),
    add_zero, List.map_append, List.sum_append, sum_read inv keys seen]
  rfl

theorem mem_refs {st : Store Item} {ref : Nat} :
    ref ∈ st.refs ↔ ∃ key, st.stats.lookup key = some ref := by
  rw [Store.refs, List.mem_map]
  constructor
  · rintro ⟨e, mem, rfl⟩
    exact ⟨e.1, AList.mem_lookup_iff.mpr mem⟩
  · rintro ⟨key, here⟩
    exact ⟨⟨key, ref⟩, AList.mem_lookup_iff.mp here, rfl⟩

theorem length_reset (st : Store Item) :
    (st.reset K inKeepKeys).items.length = st.items.length := by
  rw [Store.reset]
  split_ifs <;> simp

theorem lookup_reset {st : Store Item} {key : String} {ref : Nat}
    (here : (st.reset K inKeepKeys).stats.lookup key = some ref) :
    st.stats.lookup key = some ref := by
  rw [Store.reset] at here
  split_ifs at here
  · exact here
  · cases here

theorem Store.Sound.reset {st : Store Item} (sound : st.Sound) : (st.reset K inKeepKeys).Sound := by
  constructor
  · intro key ref here
    rw [length_reset]
    exact sound.listed (lookup_reset here)
  · intro key key' ref here here'
    exact sound.apart (lookup_reset here) (lookup_reset here')

theorem at_reset_of_notMem {st : Store Item} {ref : Nat} (unlisted : ref ∉ st.refs) :
    T.at (st.reset K inKeepKeys).items ref = T.at st.items ref := by
  rw [Store.reset]
  split_ifs
  · simp only [Tally.at, List.getElem?_mapIdx, if_neg unlisted, Option.map_id']
  · rfl

theorem Unlisted.reset {st : Store Item} {line : Line} {ref : Nat}
    (unlisted : Unlisted K st line ref) : Unlisted K (st.reset K inKeepKeys) line ref := by
  refine ⟨by rw [length_reset]; exact unlisted.stored, ?_, ?_⟩
  · exact fun key here => unlisted.unlisted key (lookup_reset here)
  · refine Option.eq_none_iff_forall_not_mem.mpr ?_
    intro ref' here
    have := lookup_reset here
    rw [unlisted.missing] at this
    cases this

theorem Unlisted.notMem_refs {st : Store Item} {line : Line} {ref : Nat}
    (unlisted : Unlisted K st line ref) : ref ∉ st.refs := by
  rw [mem_refs]
  rintro ⟨key, here⟩
  exact unlisted.unlisted key here

theorem total_reset (inv : Balanced T shown h s) :
    total (T.at (s.store.reset K inKeepKeys).items) (s.store.reset K inKeepKeys).stats = 0 := by
  refine total_eq_zero ?_
  intro key ref here
  have listed := lookup_reset here
  rw [Store.reset] at here ⊢
  split_ifs at here ⊢ with keep
  · obtain ⟨item, object, mem⟩ := exists_item (inv.sound.listed listed)
    simp only [Tally.at, List.getElem?_mapIdx, object, if_pos (mem_refs.mpr ⟨key, listed⟩),
      Option.map_some, Option.getD_some]
    exact T.measure_zeroOut item (inv.plain item mem)
  · cases here

theorem Balanced.reset (inv : Balanced T shown h s) {pending : Nat}
    (here : s.pending = pending + 1) :
    Balanced T shown (h ++ [⟨s, .reset, []⟩])
      ⟨s.store.reset K inKeepKeys, s.worker, pending⟩ := by
  have once := inv.once
  have none : pending = 0 := by omega
  have aside : T.aside ⟨s.store.reset K inKeepKeys, s.worker, pending⟩ = T.aside s := by
    have knows := inv.knows
    rw [Knows] at knows
    rw [Tally.aside, Tally.aside]
    dsimp only
    split at knows
    next => rfl
    next => rfl
    next => rw [at_reset_of_notMem knows.2.notMem_refs]
    next => exact at_reset_of_notMem knows.notMem_refs
  refine ⟨inv.sound.reset, ?_, ?_, by dsimp only; omega, ?_⟩
  · intro item mem
    rw [Store.reset] at mem
    split_ifs at mem
    · obtain ⟨n, lt, eq⟩ := List.mem_mapIdx.mp mem
      have old := inv.plain _ (List.getElem_mem lt)
      split_ifs at eq
      · exact eq ▸ T.plain_zeroOut _ old
      · exact eq ▸ old
    · exact inv.plain item mem
  · have knows := inv.knows
    rw [Knows] at knows ⊢
    dsimp only
    split at knows
    next => trivial
    next => exact knows
    next => exact ⟨knows.1, knows.2.reset⟩
    next => exact knows.reset
  · have balance := inv.balance
    rw [Tally.live, if_neg (by omega)] at balance
    rw [linesOf_silent rfl, flushedIn_snoc, List.append_nil, ← balance, aside, Tally.live,
      if_pos none]
    dsimp only
    rw [total_reset inv]

/-- One step, in which a line counts and a flush shows what the items have. -/
theorem Balanced.step (inv : Balanced T shown h s) (careful : Careful K s a)
    (counted : ∀ line, lineOf K a = some line → T.counted line)
    (seen : ∀ order, a = .read order → ∀ key now item, s.store.item? key = some item →
      shown (K.repr now item) = T.measure item)
    (taken : step K inKeepKeys s a = some (s', out)) :
    Balanced T shown (h ++ [⟨s, a, out⟩]) s' := by
  cases effect_of_step taken with
  | found idle parsed here => exact inv.found idle parsed (counted _ (lineOf_lookup parsed))
  | fresh idle parsed missing =>
    exact inv.fresh idle parsed (counted _ (lineOf_lookup parsed)) missing
  | taken worker =>
    rw [Careful, worker] at careful
    exact inv.taken worker careful.1 careful.2
  | filled worker => exact inv.filled worker
  | inserted worker => exact inv.inserted worker careful
  | read keys => exact inv.read careful keys (seen _ rfl)
  | reset here => exact inv.reset here

theorem balanced_start : Balanced T shown [] (start : System Line Item) :=
  ⟨sound_empty, nofun, trivial, Nat.zero_le 1, by simp [Tally.live, Tally.aside, start,
    flushedIn, linesOf, Store.empty]⟩

/-- With no line under way, a flush brings what is flushed to what the lines brought. -/
theorem Balanced.flushed (inv : Balanced T shown h s) (idle : s.worker = .idle)
    (quiet : s.pending = 0) {order : List (String × Int)}
    (keys : (order.map Prod.fst).Perm s.store.stats.keys)
    (seen : ∀ key now item, s.store.item? key = some item →
      shown (K.repr now item) = T.measure item) :
    ((flushedIn (h ++ [⟨s, .read order, s.store.read K order⟩])).map shown).sum =
      ((linesOf K (h ++ [⟨s, .read order, s.store.read K order⟩])).map T.weight).sum := by
  have balance := (inv.read quiet keys seen).balance
  rw [Tally.live, if_neg (Nat.succ_ne_zero _), Tally.aside] at balance
  dsimp only at balance
  rw [idle, add_zero, add_zero] at balance
  exact balance

end Balance

end Accumulator
