import Cadent.Lib.Runs
import Cadent.Schemas.AggregatorTotals

/-!
# Additions and clearings at the same time

`Add` looks its element up under the read lock. Later it inserts a copy under the write lock,
or it changes the element that it found, under no lock. Any number of them may be under way
while `GetListAndClear`, which is one step, hands the elements out, and a receiver reads them
after that. A count is lost when a copy is inserted over another one, and when an element is
changed after its receiver has read it.
-/

namespace Repr

open Keys Maps Runs

variable {α : Type}

/-- An `Add` between its steps: the stat, its key, the time of its bucket and what it found. -/
structure Adding where
  stat : Nat
  key : String
  time : BitVec 64
  element : Option Nat
  deriving DecidableEq

structure Sharing (α : Type) where
  heap : Heap α
  agg : Aggregator
  adding : List Adding
  /-- The lists that were returned and are not read yet. -/
  returned : List (List Nat)

namespace Sharing

inductive Action where
  | lookup (ref : Nat)
  | finish (i : Nat)
  | getListAndClear (order : List String)
  | receive (i : Nat)

/-- What a step adds, or what a receiver reads. -/
inductive Seen where
  | nothing
  | added (count : Int)
  | received (counts : List Int)
  deriving DecidableEq

def countAt (h : Heap α) (ref : Nat) : Int := ((h.stats[ref]?).map (·.count)).getD 0

def start (h : Heap α) (resolution : Int) : Sharing α := ⟨h, newAggregator resolution, [], []⟩

section Steps

variable [Add α] [LT α] [DecidableLT α] (env : Naming) (durations : Durations)
  (sort : (Nat → Int) → List Nat → List Nat)

/-- The second step of an `Add`; `none` stands for a nil pointer. -/
def finishAdd (s : Sharing α) (a : Adding) : Option (Heap α × Aggregator × Int) := do
  let stat ← s.heap.stats[a.stat]?
  match a.element with
  | none =>
    let name ← s.heap.names[stat.name]?
    return (s.heap.copy stat name,
      { s.agg with items := s.agg.items.insert a.key s.heap.stats.length }, stat.count)
  | some element =>
    let h ← s.heap.takeIn element stat a.time
      (durations.toUint32 (durations.seconds s.agg.resolution))
    return (h, s.agg, stat.count)

def step (s : Sharing α) : Action → Option (Sharing α × Seen)
  | .lookup ref => do
    let stat ← s.heap.stats[ref]?
    let name ← s.heap.names[stat.name]?
    let key := s.agg.mapKey (name.idText env) stat.toTime
    let time := unixNano (s.agg.resolutionTime stat.toTime)
    return ({ s with
      heap := { s.heap with names := s.heap.names.set stat.name (name.asked env) }
      adding := s.adding ++ [⟨ref, key, time, s.agg.items.lookup key⟩] }, .nothing)
  | .finish i => do
    let a ← s.adding[i]?
    let (h, agg, count) ← finishAdd durations s a
    return (⟨h, agg, s.adding.eraseIdx i, s.returned⟩, .added count)
  | .getListAndClear order =>
    if order.Perm s.agg.items.keys then
      let (list, agg) := s.agg.getListAndClear sort s.heap order
      some (⟨s.heap, agg, s.adding, s.returned ++ [list]⟩, .nothing)
    else none
  | .receive i => do
    let list ← s.returned[i]?
    return ({ s with returned := s.returned.eraseIdx i }, .received (list.map (countAt s.heap)))

abbrev History (α : Type) := List (Taken (Sharing α) Action Seen)

def addedIn (h : History α) : List Int :=
  h.filterMap fun e => match e.out with
    | .added count => some count
    | _ => none

def receivedIn (h : History α) : List Int :=
  h.flatMap fun e => match e.out with
    | .received counts => counts
    | _ => []

/-- The elements of the map and those of the lists that are still to be read. -/
def held (s : Sharing α) : List Nat := s.agg.items.entries.map (·.2) ++ s.returned.flatten

/-- All that was added has been received or is held. -/
def Accounted (h : History α) (s : Sharing α) : Prop :=
  (receivedIn h).sum + ((held s).map (countAt s.heap)).sum = (addedIn h).sum

instance (h : History α) (s : Sharing α) : Decidable (Accounted h s) :=
  inferInstanceAs (Decidable (_ = (addedIn h).sum))

/-- A copy is inserted only where nothing is, and an element is changed only while it is in
the map or in a list that is still to be read. -/
def Safe (s : Sharing α) (a : Adding) : Prop :=
  match a.element with
  | none => s.agg.items.lookup a.key = none
  | some element => element ∈ held s

instance (s : Sharing α) : (a : Adding) → Decidable (Safe s a)
  | ⟨_, key, _, none⟩ => inferInstanceAs (Decidable (s.agg.items.lookup key = none))
  | ⟨_, _, _, some element⟩ => inferInstanceAs (Decidable (element ∈ held s))

def Careful (s : Sharing α) : Action → Prop
  | .finish i => ∀ a ∈ s.adding[i]?, Safe s a
  | _ => True

instance (s : Sharing α) : (a : Action) → Decidable (Careful s a)
  | .finish i => inferInstanceAs (Decidable (∀ a ∈ s.adding[i]?, Safe s a))
  | .lookup _ | .getListAndClear _ | .receive _ => inferInstanceAs (Decidable True)

/-- What a step does. -/
inductive Effect (s : Sharing α) : Action → Sharing α → Seen → Prop
  | found {ref : Nat} {names : List StatName} {a : Adding} :
      Effect s (.lookup ref) ⟨⟨s.heap.stats, names⟩, s.agg, s.adding ++ [a], s.returned⟩ .nothing
  | inserted {i : Nat} {a : Adding} {stat : StatRepr α} {name : StatName}
      (here : s.adding[i]? = some a) (missing : a.element = none) :
      Effect s (.finish i) ⟨s.heap.copy stat name,
        ⟨s.agg.items.insert a.key s.heap.stats.length, s.agg.resolution⟩,
        s.adding.eraseIdx i, s.returned⟩ (.added stat.count)
  | changed {i element : Nat} {a : Adding} {stat e : StatRepr α} {names : List StatName}
      (here : s.adding[i]? = some a) (found : a.element = some element)
      (object : s.heap.stats[element]? = some e) :
      Effect s (.finish i) ⟨⟨s.heap.stats.set element (e.takeIn stat a.time), names⟩, s.agg,
        s.adding.eraseIdx i, s.returned⟩ (.added stat.count)
  | cleared {order : List String} (keys : order.Perm s.agg.items.keys) :
      Effect s (.getListAndClear order) ⟨s.heap, ⟨∅, s.agg.resolution⟩, s.adding,
        s.returned ++ [sort s.heap.timeAt (order.filterMap s.agg.items.lookup)]⟩ .nothing
  | received {i : Nat} {list : List Nat} (here : s.returned[i]? = some list) :
      Effect s (.receive i) ⟨s.heap, s.agg, s.adding, s.returned.eraseIdx i⟩
        (.received (list.map (countAt s.heap)))

variable {env durations sort} {s s' : Sharing α} {a : Action} {out : Seen}

theorem effect_of_step (taken : step env durations sort s a = some (s', out)) :
    Effect sort s a s' out := by
  cases a with
  | lookup ref =>
    simp only [step, Option.bind_eq_bind, Option.bind_eq_some_iff] at taken
    obtain ⟨stat, _, name, _, eq⟩ := taken
    cases eq
    exact .found
  | finish i =>
    simp only [step, finishAdd, Option.bind_eq_bind, Option.bind_eq_some_iff] at taken
    obtain ⟨a, here, ⟨h, agg, count⟩, ⟨stat, _, ran⟩, eq⟩ := taken
    cases eq
    split at ran
    next missing =>
      obtain ⟨name, _, eq⟩ := Option.bind_eq_some_iff.mp ran
      cases eq
      exact .inserted here missing
    next element found =>
      obtain ⟨h', changed, eq⟩ := Option.bind_eq_some_iff.mp ran
      cases eq
      simp only [Heap.takeIn, Option.bind_eq_bind, Option.bind_eq_some_iff] at changed
      obtain ⟨e, object, _, _, eq⟩ := changed
      cases eq
      exact .changed here found object
  | getListAndClear order =>
    rw [step] at taken
    split_ifs at taken with keys
    cases taken
    exact .cleared keys
  | receive i =>
    simp only [step, Option.bind_eq_bind, Option.bind_eq_some_iff] at taken
    obtain ⟨list, here, eq⟩ := taken
    cases eq
    exact .received here

end Steps

/-! ### What is held -/

section Held

variable {h : Heap α} {refs : List Nat}

theorem countAt_copy {ref : Nat} (stored : ref < h.stats.length) (stat : StatRepr α)
    (name : StatName) : countAt (h.copy stat name) ref = countAt h ref := by
  rw [countAt, Heap.copy, List.getElem?_append_left stored, countAt]

theorem countAt_set_ne {stats : List (StatRepr α)} {names names' : List StatName} {ref other : Nat}
    (ne : other ≠ ref) (e : StatRepr α) :
    countAt ⟨stats.set ref e, names⟩ other = countAt ⟨stats, names'⟩ other := by
  rw [countAt, List.getElem?_set_ne ne.symm, countAt]

theorem sum_countAt_set {names : List StatName} {element : Nat} {e e' : StatRepr α} {count : Int}
    (nodup : refs.Nodup) (mem : element ∈ refs) (object : h.stats[element]? = some e)
    (more : e'.count = e.count + count) :
    (refs.map (countAt ⟨h.stats.set element e', names⟩)).sum =
      (refs.map (countAt h)).sum + count := by
  have perm := List.perm_cons_erase mem
  have others : (refs.erase element).map (countAt ⟨h.stats.set element e', names⟩) =
      (refs.erase element).map (countAt h) := by
    refine List.map_congr_left ?_
    intro ref rest
    exact countAt_set_ne (nodup.mem_erase_iff.mp rest).1 e'
  have own : countAt ⟨h.stats.set element e', names⟩ element = countAt h element + count := by
    have lt := (List.getElem?_eq_some_iff.mp object).1
    simp [countAt, object, List.getElem?_set_self lt, more]
  rw [(perm.map _).sum_eq, (perm.map (countAt h)).sum_eq, List.map_cons, List.map_cons,
    List.sum_cons, List.sum_cons, others, own]
  omega

end Held

section Runs

variable {h : History α} {s s' : Sharing α} {a : Action} {out : Seen}

theorem addedIn_snoc (pre : Sharing α) (a : Action) (out : Seen) :
    addedIn (h ++ [⟨pre, a, out⟩]) = addedIn h ++ match out with
      | .added count => [count]
      | _ => [] := by
  cases out <;> simp [addedIn]

theorem receivedIn_snoc (pre : Sharing α) (a : Action) (out : Seen) :
    receivedIn (h ++ [⟨pre, a, out⟩]) = receivedIn h ++ match out with
      | .received counts => counts
      | _ => [] := by
  cases out <;> simp [receivedIn]

/-- Nothing is held twice, and all that was added has been received or is held. -/
structure Balanced (h : History α) (s : Sharing α) : Prop where
  nodup : (held s).Nodup
  stored : ∀ ref ∈ held s, ref < s.heap.stats.length
  accounted : Accounted h s

/-- Steps that move the elements but change no count. -/
theorem Balanced.moved (inv : Balanced h s) (same : s'.heap.stats = s.heap.stats)
    (perm : (held s').Perm (held s)) (a : Action) : Balanced (h ++ [⟨s, a, .nothing⟩]) s' := by
  have counts : countAt s'.heap = countAt s.heap := by
    funext ref
    rw [countAt, same, countAt]
  refine ⟨perm.nodup_iff.mpr inv.nodup, ?_, ?_⟩
  · intro ref mem
    rw [same]
    exact inv.stored ref (perm.mem_iff.mp mem)
  · have accounted := inv.accounted
    rw [Accounted] at accounted ⊢
    rw [addedIn_snoc, receivedIn_snoc, List.append_nil, List.append_nil, counts,
      (perm.map _).sum_eq, accounted]

theorem Balanced.inserted (inv : Balanced h s) {key : String} {i : Nat} {stat : StatRepr α}
    {name : StatName} (missing : s.agg.items.lookup key = none) :
    Balanced (h ++ [⟨s, .finish i, .added stat.count⟩]) ⟨s.heap.copy stat name,
      ⟨s.agg.items.insert key s.heap.stats.length, s.agg.resolution⟩,
      s.adding.eraseIdx i, s.returned⟩ := by
  have more : held ⟨s.heap.copy stat name,
      ⟨s.agg.items.insert key s.heap.stats.length, s.agg.resolution⟩,
      s.adding.eraseIdx i, s.returned⟩ = s.heap.stats.length :: held s := by
    rw [held, AList.insert_of_notMem (AList.lookup_eq_none.mp missing)]
    rfl
  have kept : (held s).map (countAt (s.heap.copy stat name)) =
      (held s).map (countAt s.heap) :=
    List.map_congr_left fun ref mem => countAt_copy (inv.stored ref mem) stat name
  have own : countAt (s.heap.copy stat name) s.heap.stats.length = stat.count := by
    simp [countAt, Heap.copy]
  refine ⟨?_, ?_, ?_⟩
  · rw [more, List.nodup_cons]
    exact ⟨fun mem => Nat.lt_irrefl _ (inv.stored _ mem), inv.nodup⟩
  · rw [more]
    intro ref mem
    have long : (s.heap.copy stat name).stats.length = s.heap.stats.length + 1 := by
      simp [Heap.copy]
    dsimp only
    rcases List.mem_cons.mp mem with rfl | old
    · omega
    · have := inv.stored ref old
      omega
  · have accounted := inv.accounted
    rw [Accounted] at accounted ⊢
    rw [addedIn_snoc, receivedIn_snoc, more, List.append_nil, List.map_cons, List.sum_cons, kept,
      own, List.sum_append, List.sum_singleton, ← accounted]
    omega

theorem Balanced.received (inv : Balanced h s) {i : Nat} {list : List Nat}
    (here : s.returned[i]? = some list) :
    Balanced (h ++ [⟨s, .receive i, .received (list.map (countAt s.heap))⟩])
      ⟨s.heap, s.agg, s.adding, s.returned.eraseIdx i⟩ := by
  obtain ⟨lt, rfl⟩ := List.getElem?_eq_some_iff.mp here
  have perm : (held s).Perm (s.returned[i] ++
      held ⟨s.heap, s.agg, s.adding, s.returned.eraseIdx i⟩) := by
    have split := (List.getElem_cons_eraseIdx_perm lt).flatten
    rw [List.flatten_cons] at split
    have swapped := List.perm_append_comm_assoc (s.agg.items.entries.map (·.2)) s.returned[i]
      (s.returned.eraseIdx i).flatten
    exact (split.symm.append_left _).trans swapped
  have nodup := perm.nodup_iff.mp inv.nodup
  refine ⟨(List.nodup_append.mp nodup).2.1, ?_, ?_⟩
  · intro ref mem
    exact inv.stored ref (perm.mem_iff.mpr (List.mem_append_right _ mem))
  · have accounted := inv.accounted
    rw [Accounted] at accounted ⊢
    rw [(perm.map _).sum_eq, List.map_append, List.sum_append] at accounted
    rw [addedIn_snoc, receivedIn_snoc, List.append_nil, List.sum_append, ← accounted, add_assoc]

variable [Add α] [LT α] [DecidableLT α]

/-- An element that is held takes a stat in. -/
theorem Balanced.changed (inv : Balanced h s) {i element : Nat} {stat e : StatRepr α}
    {names : List StatName} {time : BitVec 64} (mem : element ∈ held s)
    (object : s.heap.stats[element]? = some e) :
    Balanced (h ++ [⟨s, .finish i, .added stat.count⟩])
      ⟨⟨s.heap.stats.set element (e.takeIn stat time), names⟩, s.agg, s.adding.eraseIdx i,
        s.returned⟩ := by
  refine ⟨inv.nodup, ?_, ?_⟩
  · intro ref mem
    rw [List.length_set]
    exact inv.stored ref mem
  · have accounted := inv.accounted
    have total :
        ((held s).map (countAt ⟨s.heap.stats.set element (e.takeIn stat time), names⟩)).sum =
        ((held s).map (countAt s.heap)).sum + stat.count :=
      sum_countAt_set inv.nodup mem object rfl
    rw [Accounted] at accounted ⊢
    rw [addedIn_snoc, receivedIn_snoc, List.append_nil, List.sum_append, List.sum_singleton,
      ← accounted, add_assoc, ← total]
    rfl

variable {env : Naming} {durations : Durations} {sort : (Nat → Int) → List Nat → List Nat}

theorem Balanced.step (sorts : SortsStats sort) (inv : Balanced h s) (careful : Careful s a)
    (taken : step env durations sort s a = some (s', out)) : Balanced (h ++ [⟨s, a, out⟩]) s' := by
  cases effect_of_step taken with
  | found =>
    refine inv.moved ?_ ?_ _
    · rfl
    · exact .refl _
  | inserted here missing =>
    have safe := careful _ here
    rw [Safe, missing] at safe
    exact inv.inserted safe
  | changed here found object =>
    have safe := careful _ here
    rw [Safe, found] at safe
    exact inv.changed safe object
  | cleared keys =>
    refine inv.moved ?_ ?_ _
    · rfl
    have listed := (sorts.perm s.heap.timeAt _).trans (filterMap_lookup_perm keys)
    rw [held, held, List.flatten_append, List.flatten_singleton, AList.empty_entries, List.map_nil,
      List.nil_append]
    exact List.perm_append_comm.trans (listed.append_right _)
  | received here => exact inv.received here

/-- In every run in which no copy is inserted over another one and no element is changed after
its receiver has read it, all counts that were added have been received or are held. -/
theorem counted_of_run (env : Naming) (durations : Durations) (sorts : SortsStats sort)
    {old : Heap α} {resolution : Int}
    (run : Run (step env durations sort) Careful (start old resolution) h s) : Accounted h s := by
  have inv : Balanced h s := by
    refine run_invariant Balanced ?_ ?_ run
    · exact ⟨List.nodup_nil, nofun, rfl⟩
    · intro h s a s' out inv careful taken
      exact inv.step sorts careful taken
  exact inv.accounted

end Runs

/-! ### Two additions to one bucket -/

def sameBucket : Heap Int := ⟨[oneStat 0 5, oneStat 0 6], [idName "x" 1#32]⟩

/-- One addition after the other, a list, and its receiver. -/
def inTurn : List Action :=
  [.lookup 0, .finish 0, .lookup 1, .getListAndClear ["x-0"], .finish 0, .receive 0]

theorem inTurn_run :
    (exec (step plainNaming plainDurations sortStats) Careful
      (start sameBucket 10000000000) inTurn).isSome := by
  decide

theorem counted_of_run_inTurn : ∃ h s, Run (step plainNaming plainDurations sortStats) Careful
    (start sameBucket 10000000000) h s ∧ addedIn h = [1, 1] ∧ receivedIn h = [2] ∧
      Accounted h s := by
  have run := run_of_exec (step plainNaming plainDurations sortStats) Careful
    (start sameBucket 10000000000) inTurn inTurn_run
  exact ⟨_, _, run, by decide, by decide,
    counted_of_run plainNaming plainDurations sortsStats_sortStats run⟩

/-- Two additions that both find nothing. -/
def twoFirst : List Action := [.lookup 0, .lookup 1, .finish 0, .finish 0]

/-- An addition that finds an element, which is handed out and read before it is changed. -/
def tooLate : List Action :=
  [.lookup 0, .finish 0, .lookup 1, .getListAndClear ["x-0"], .receive 0, .finish 0]

/-- The second copy takes the place of the first, and the element is changed behind the back
of its receiver. Both times a count of two was added and one is accounted for. -/
theorem counts_lost :
    (∃ h s, Run (step plainNaming plainDurations sortStats) anyStep
      (start sameBucket 10000000000) h s ∧ addedIn h = [1, 1] ∧ receivedIn h = [] ∧
      ((held s).map (countAt s.heap)).sum = 1 ∧ ¬ Accounted h s) ∧
    ∃ h s, Run (step plainNaming plainDurations sortStats) anyStep
      (start sameBucket 10000000000) h s ∧ addedIn h = [1, 1] ∧ receivedIn h = [1] ∧
      ((held s).map (countAt s.heap)).sum = 0 ∧ ¬ Accounted h s := by
  constructor
  · have run := run_of_exec (step plainNaming plainDurations sortStats) anyStep
      (start sameBucket 10000000000) twoFirst (by decide)
    exact ⟨_, _, run, by decide, by decide, by decide, by decide⟩
  · have run := run_of_exec (step plainNaming plainDurations sortStats) anyStep
      (start sameBucket 10000000000) tooLate (by decide)
    exact ⟨_, _, run, by decide, by decide, by decide, by decide⟩

end Sharing

end Repr
