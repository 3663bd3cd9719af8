import Cadent.Lib.Bags
import Cadent.Lib.Groups
import Cadent.Lib.Reduce
import Cadent.Schemas.Aggregator

/-!
# What an aggregator adds up

The entry of a bucket has the totals of the stats that were filed there. Entries are objects
of their own, so nothing that was added is changed, but for what its name remembers. The
bookkeeping is done for any set of slots: the keys of one aggregator, or those of all the
aggregators of a `MultiAggregator`, which share their heap. The values add up exactly.
-/

namespace Repr

open Bags Keys Maps Reduce

/-- A stat with the id and the time of the bucket it is filed under. -/
structure Filing (α : Type) where
  stat : StatRepr α
  id : String
  bucket : Int

def Filing.key {α : Type} (f : Filing α) : String := dashed f.id (unixNano f.bucket).toInt

/-- How a stat of a heap is filed at a resolution. -/
def filing {α : Type} (env : Naming) (h : Heap α) (resolution : Int) (ref : Nat) :
    Option (Filing α) := do
  let stat ← h.stats[ref]?
  let name ← h.names[stat.name]?
  return ⟨stat, name.idText env, truncate stat.toTime resolution⟩

theorem filing_eq_some {α : Type} {env : Naming} {h : Heap α} {sa : Aggregator} {ref : Nat}
    {f : Filing α} (input : filing env h sa.resolution ref = some f) :
    ∃ name, h.stats[ref]? = some f.stat ∧ h.names[f.stat.name]? = some name ∧
      f.id = name.idText env ∧ f.bucket = sa.resolutionTime f.stat.toTime := by
  simp only [filing, Option.bind_eq_bind, Option.bind_eq_some_iff] at input
  obtain ⟨stat, here, name, named, eq⟩ := input
  obtain rfl := Option.some.inj eq
  exact ⟨name, here, named, rfl, rfl⟩

theorem mapKey_filing {α : Type} {env : Naming} {sa : Aggregator} {name : StatName} {f : Filing α}
    (id : f.id = name.idText env) (bucket : f.bucket = sa.resolutionTime f.stat.toTime) :
    sa.mapKey (name.idText env) f.stat.toTime = f.key := by
  rw [Filing.key, id, bucket]
  rfl

/-! ### Filings -/

section Filings

variable {α : Type}

/-- A stat that was filed alone keeps its time, and several have that of the bucket. -/
def timeOf : List (Filing α) → Option (BitVec 64)
  | [f] => some f.stat.time
  | g => g.getLast?.map fun f => unixNano f.bucket

theorem timeOf_concat {g : List (Filing α)} (nonempty : g ≠ []) (f : Filing α) :
    timeOf (g ++ [f]) = some (unixNano f.bucket) := by
  rcases g with _ | ⟨a, _ | ⟨b, g⟩⟩
  · exact absurd rfl nonempty
  · rfl
  · have final : ((a :: b :: g) ++ [f]).getLast? = some f := List.getLast?_concat
    rw [List.cons_append, List.cons_append, timeOf]
    · exact congrArg (Option.map fun f => unixNano f.bucket) final
    · rintro c ⟨⟩

theorem timeOf_perm {g g' : List (Filing α)} (perm : g.Perm g') (bucket : Int)
    (within : ∀ f ∈ g, f.bucket = bucket) : timeOf g = timeOf g' := by
  have last : ∀ {g : List (Filing α)}, (∀ f ∈ g, f.bucket = bucket) →
      g.getLast?.map (fun f => unixNano f.bucket) =
        if g = [] then none else some (unixNano bucket) := by
    intro g within
    rcases g.eq_nil_or_concat with rfl | ⟨init, f, rfl⟩
    · rfl
    · simp [within f (by simp)]
  rcases g with _ | ⟨a, _ | ⟨b, g⟩⟩
  · rw [← List.perm_nil.mp perm.symm]
  · rw [← List.singleton_perm.mp perm]
  · rcases g' with _ | ⟨a', _ | ⟨b', g'⟩⟩
    · exact absurd perm.length_eq (by simp)
    · exact absurd perm.length_eq (by simp)
    · have within' : ∀ f ∈ a' :: b' :: g', f.bucket = bucket :=
        fun f mem => within f (perm.mem_iff.mpr mem)
      exact (last within).trans (last within').symm

/-- How a sequence of stats is filed. -/
def filings (env : Naming) (old : Heap α) (resolution : Int) (refs : List Nat) :
    List (Filing α) := refs.filterMap (filing env old resolution)

/-- What was filed under one key. -/
def under (fs : List (Filing α)) (key : String) : List (Filing α) := fs.filter fun f => f.key = key

theorem under_cons (f : Filing α) (fs : List (Filing α)) (came : String → List (Filing α))
    (key : String) :
    Function.update came f.key (came f.key ++ [f]) key ++ under fs key =
      came key ++ under (f :: fs) key := by
  by_cases same : key = f.key
  · subst same
    simp [under]
  · rw [Function.update_of_ne same, under, under, List.filter_cons_of_neg (by simp [Ne.symm same])]

/-- The unique id and the time bucket of a filing. -/
def Filing.pair (f : Filing α) : String × Int := (f.id, f.bucket)

def groupOf (fs : List (Filing α)) (p : String × Int) : List (Filing α) :=
  fs.filter fun f => f.pair = p

/-- Different pairs are filed under different keys. -/
def Separated (fs : List (Filing α)) : Prop :=
  ∀ f ∈ fs, ∀ f' ∈ fs, f.key = f'.key → f.pair = f'.pair

theorem key_of_pair {f f' : Filing α} (same : f.pair = f'.pair) : f.key = f'.key := by
  obtain ⟨id, bucket⟩ := Prod.mk.injEq .. ▸ same
  rw [Filing.key, Filing.key, id, bucket]

theorem under_eq_groupOf {fs : List (Filing α)} (separated : Separated fs) {f : Filing α}
    (mem : f ∈ fs) : under fs f.key = groupOf fs f.pair := by
  refine List.filter_congr ?_
  intro f' mem'
  rw [decide_eq_decide]
  exact ⟨separated f' mem' f mem, key_of_pair⟩

end Filings

/-! ### Grand totals -/

section Grand

variable {α β : Type} [AddCommMonoid β] {measure : StatRepr α → β} {h : Heap α}

/-- The total of a measure over a list of stats. -/
def grandTotal (measure : StatRepr α → β) (h : Heap α) (refs : List Nat) : β :=
  ((refs.filterMap (h.stats[·]?)).map measure).sum

theorem grandTotal_perm {refs refs' : List Nat} (perm : refs.Perm refs') :
    grandTotal measure h refs = grandTotal measure h refs' :=
  ((perm.filterMap _).map _).sum_eq

/-- Entries that have the totals of their keys have together the total of everything. -/
theorem grandTotal_of_keys {fs : List (Filing α)} {find : String → Option Nat}
    {order : List String} (nodup : order.Nodup) (covers : ∀ f ∈ fs, f.key ∈ order)
    (entries : ∀ k ∈ order, ∃ ref e, find k = some ref ∧ h.stats[ref]? = some e ∧
      measure e = ((under fs k).map (measure ·.stat)).sum) :
    grandTotal measure h (order.filterMap find) = (fs.map (measure ·.stat)).sum := by
  have each : ∀ order' : List String, (∀ k ∈ order', k ∈ order) →
      grandTotal measure h (order'.filterMap find) =
        ((order'.flatMap (under fs)).map (measure ·.stat)).sum := by
    intro order' sub
    induction order' with
    | nil => rfl
    | cons k order' ih =>
      obtain ⟨ref, e, found, object, total⟩ := entries k (sub k List.mem_cons_self)
      have rest := ih fun k' mem => sub k' (List.mem_cons_of_mem _ mem)
      rw [grandTotal] at rest ⊢
      rw [List.filterMap_cons_some found, List.filterMap_cons_some object, List.map_cons,
        List.sum_cons, rest, total, List.flatMap_cons, List.map_append, List.sum_append]
  rw [each order fun _ mem => mem]
  exact ((flatMap_group_perm Filing.key nodup covers).map _).sum_eq

theorem grandTotal_inputs {env : Naming} {resolution : Int} {refs : List Nat}
    (inputs : ∀ ref ∈ refs, (filing env h resolution ref).isSome) :
    ((filings env h resolution refs).map (measure ·.stat)).sum = grandTotal measure h refs := by
  rw [grandTotal]
  induction refs with
  | nil => rfl
  | cons ref refs ih =>
    obtain ⟨f, input⟩ := Option.isSome_iff_exists.mp (inputs ref List.mem_cons_self)
    have rest := ih fun r mem => inputs r (List.mem_cons_of_mem _ mem)
    have stat : h.stats[ref]? = some f.stat := by
      simp only [filing, Option.bind_eq_bind, Option.bind_eq_some_iff] at input
      obtain ⟨stat, here, name, _, eq⟩ := input
      rw [here, ← Option.some.inj eq]
    rw [filings] at rest ⊢
    rw [List.filterMap_cons_some input, List.filterMap_cons_some stat, List.map_cons,
      List.map_cons, List.sum_cons, List.sum_cons, rest]

end Grand

/-! ### Stats that can be filed -/

/-- Stats that are filed under keys of their own: the nanoseconds of their buckets are
`int64`s, and no id was made up to end in a dash, unless no bucket is before 1970. -/
structure Fileable {α : Type} (old : Heap α) (resolution : Int) (refs : List Nat) : Prop where
  stored : ∀ ref ∈ refs, ∃ stat name, old.stats[ref]? = some stat ∧
    old.names[stat.name]? = some name
  fits : ∀ ref ∈ refs, ∀ stat ∈ old.stats[ref]?,
    (unixNano (truncate stat.toTime resolution)).toInt = truncate stat.toTime resolution
  clean : (∀ ref ∈ refs, ∀ stat ∈ old.stats[ref]?, ∀ name ∈ old.names[stat.name]?,
      ¬ EndsInDash name.xxxUniqueIdstr) ∨
    ∀ ref ∈ refs, ∀ stat ∈ old.stats[ref]?, 0 ≤ truncate stat.toTime resolution

section Fileable

variable {α : Type} {env : Naming} {old : Heap α} {resolution : Int} {refs : List Nat}

theorem Fileable.perm (fileable : Fileable old resolution refs) {refs' : List Nat}
    (perm : refs.Perm refs') : Fileable old resolution refs' := by
  obtain ⟨stored, fits, clean⟩ := fileable
  simp only [perm.mem_iff] at stored fits clean
  exact ⟨stored, fits, clean⟩

theorem isSome_filing (fileable : Fileable old resolution refs) (dur : Int) {ref : Nat}
    (mem : ref ∈ refs) : (filing env old dur ref).isSome := by
  obtain ⟨stat, name, here, named⟩ := fileable.stored ref mem
  simp [filing, here, named]

theorem mem_filings {f : Filing α} (mem : f ∈ filings env old resolution refs) :
    ∃ ref ∈ refs, ∃ stat ∈ old.stats[ref]?, ∃ name ∈ old.names[stat.name]?,
      f = ⟨stat, name.idText env, truncate stat.toTime resolution⟩ := by
  obtain ⟨ref, member, input⟩ := List.mem_filterMap.mp mem
  simp only [filing, Option.bind_eq_bind, Option.bind_eq_some_iff] at input
  obtain ⟨stat, here, name, named, eq⟩ := input
  exact ⟨ref, member, stat, here, name, named, (Option.some.inj eq).symm⟩

theorem separated_filings (fileable : Fileable old resolution refs) :
    Separated (filings env old resolution refs) := by
  have own : ∀ f ∈ filings env old resolution refs, (unixNano f.bucket).toInt = f.bucket := by
    intro f mem
    obtain ⟨ref, member, stat, here, name, _, rfl⟩ := mem_filings mem
    exact fileable.fits ref member stat here
  have clean : ∀ f ∈ filings env old resolution refs, ∀ f' ∈ filings env old resolution refs,
      f'.bucket < 0 → ¬ EndsInDash f.id := by
    intro f mem f' mem' before
    obtain ⟨ref, member, stat, here, name, named, rfl⟩ := mem_filings mem
    obtain ⟨ref', member', stat', here', name', _, rfl⟩ := mem_filings mem'
    rcases fileable.clean with ids | buckets
    · exact StatName.not_endsInDash_idText (ids ref member stat here name named)
    · exact absurd before (Int.not_lt.mpr (buckets ref' member' stat' here'))
  intro f mem f' mem' same
  rw [Filing.key, Filing.key, own f mem, own f' mem'] at same
  obtain ⟨id, bucket⟩ := dashed_inj (clean f mem f' mem') (clean f' mem' f mem) same
  exact Prod.ext id bucket

end Fileable

/-! ### The heap from before -/

section OldKept

variable {α : Type} {env : Naming} {old h : Heap α} {name : StatName}

theorem Heap.copy_stats {h : Heap α} {stat e : StatRepr α} {name : StatName} {r : Nat}
    (here : h.stats[r]? = some e) : (h.copy stat name).stats[r]? = some e :=
  (List.getElem?_append_left (List.getElem?_eq_some_iff.mp here).1).trans here

theorem Heap.copy_names {h : Heap α} {stat : StatRepr α} {name own : StatName} {n : Nat}
    (here : h.names[n]? = some own) : (h.copy stat name).names[n]? = some own :=
  (List.getElem?_append_left (List.getElem?_eq_some_iff.mp here).1).trans here

/-- A heap is as it was but for what names remember. -/
structure OldKept (env : Naming) (old h : Heap α) : Prop where
  stats : ∀ {r : Nat} {stat}, old.stats[r]? = some stat → h.stats[r]? = some stat
  names : ∀ {n : Nat} {name}, old.names[n]? = some name →
    h.names[n]? = some name ∨ h.names[n]? = some (name.asked env)

theorem length_le_of_getElem? {β : Type} {l l' : List β}
    (kept : ∀ (n : Nat) b, l[n]? = some b → ∃ b', l'[n]? = some b') : l.length ≤ l'.length := by
  by_contra shorter
  obtain ⟨b', here⟩ := kept l'.length _ (List.getElem?_eq_getElem (by omega))
  simp at here

theorem OldKept.length_stats_le (kept : OldKept env old h) : old.stats.length ≤ h.stats.length :=
  length_le_of_getElem? fun _ stat here => ⟨stat, kept.stats here⟩

theorem OldKept.length_names_le (kept : OldKept env old h) : old.names.length ≤ h.names.length :=
  length_le_of_getElem? fun _ name here =>
    (kept.names here).elim (fun eq => ⟨name, eq⟩) fun eq => ⟨_, eq⟩

/-- A name that is asked for its id answers as it did in the old heap. -/
theorem OldKept.ask (kept : OldKept env old h) {n : Nat} (here : old.names[n]? = some name) :
    ∃ name', h.names[n]? = some name' ∧
      name'.idText env = name.idText env ∧ name'.asked env = name.asked env := by
  rcases kept.names here with same | asked
  · exact ⟨name, same, rfl, rfl⟩
  · exact ⟨_, asked, StatName.idText_asked env name, StatName.asked_asked name⟩

theorem OldKept.remember (kept : OldKept env old h) {n : Nat} (here : old.names[n]? = some name) :
    OldKept env old { h with names := h.names.set n (name.asked env) } := by
  have lt : n < old.names.length := (List.getElem?_eq_some_iff.mp here).1
  have le := kept.length_names_le
  refine ⟨kept.stats, fun {m other} there => ?_⟩
  by_cases same : n = m
  · subst same
    obtain rfl : name = other := Option.some.inj (here.symm.trans there)
    exact .inr (List.getElem?_set_self (by omega))
  · rw [List.getElem?_set_ne same]
    exact kept.names there

theorem OldKept.copy (kept : OldKept env old h) (stat : StatRepr α) :
    OldKept env old (h.copy stat name) :=
  ⟨fun here => Heap.copy_stats (kept.stats here),
    fun here => (kept.names here).imp Heap.copy_names Heap.copy_names⟩

theorem OldKept.set (kept : OldKept env old h) {ref n : Nat} (fresh : old.stats.length ≤ ref)
    (freshName : old.names.length ≤ n) (e : StatRepr α) (own : StatName) :
    OldKept env old ⟨h.stats.set ref e, h.names.set n own⟩ := by
  refine ⟨fun {r stat} here => ?_, fun {m other} here => ?_⟩
  · have lt := (List.getElem?_eq_some_iff.mp here).1
    rw [List.getElem?_set_ne (by omega)]
    exact kept.stats here
  · have lt := (List.getElem?_eq_some_iff.mp here).1
    rw [List.getElem?_set_ne (by omega)]
    exact kept.names here

end OldKept

/-! ### Slots with entries -/

/-- What an entry shows besides its name. -/
structure Summary (α : Type) where
  count : Int
  sum : α
  min : Option α
  max : Option α
  last : Option α
  time : Option (BitVec 64)

def StatRepr.summary {α : Type} (e : StatRepr α) : Summary α :=
  ⟨e.count, e.sum, some e.min, some e.max, some e.last, some e.time⟩

section Totals

variable {α : Type} [AddCommMonoid α] [LinearOrder α]

def summary (g : List (Filing α)) : Summary α where
  count := (g.map (·.stat.count)).sum
  sum := (g.map (·.stat.sum)).sum
  min := (g.map (·.stat.min)).min?
  max := (g.map (·.stat.max)).max?
  last := g.getLast?.map (·.stat.last)
  time := timeOf g

theorem summary_single (f : Filing α) (name : Nat) :
    { f.stat with name := name }.summary = summary [f] := by
  simp [StatRepr.summary, summary, timeOf]

theorem summary_takeIn {e : StatRepr α} {g : List (Filing α)} (same : e.summary = summary g)
    (f : Filing α) : (e.takeIn f.stat (unixNano f.bucket)).summary = summary (g ++ [f]) := by
  obtain ⟨count, sum, least, greatest, _⟩ := (Summary.mk.injEq ..).mp same
  have nonempty : g ≠ [] := by
    rintro rfl
    cases least
  have time := timeOf_concat nonempty f
  simp only [StatRepr.summary, StatRepr.takeIn, summary, time, Summary.mk.injEq, List.map_append,
    List.map_cons, List.map_nil, List.sum_append, List.sum_singleton, List.getLast?_append,
    min?_concat least.symm, max?_concat greatest.symm, count, sum, true_and, and_true]
  refine ⟨?_, ?_, rfl⟩
  · rw [min_comm, min_def_lt]
  · rw [max_def_lt]

/-- An object that is not one of the heap `old`, nor is its name, and that has the totals of
what was filed and the id of the first. -/
structure EntryOf (old h : Heap α) (ref : Nat) (g : List (Filing α)) (e : StatRepr α)
    (name : StatName) : Prop where
  object : h.stats[ref]? = some e
  nameObject : h.names[e.name]? = some name
  fresh : old.stats.length ≤ ref
  freshName : old.names.length ≤ e.name
  totals : e.summary = summary g
  id : g.head?.map (·.id) = some name.xxxUniqueIdstr

/-- Every slot that something was filed in has an entry of its own, and the heap from
before is as it was but for what names remember. -/
structure Filed {ι : Type} (env : Naming) (old h : Heap α) (find : ι → Option Nat)
    (came : ι → List (Filing α)) : Prop extends OldKept env old h where
  found : ∀ {i ref}, find i = some ref → ∃ e name, EntryOf old h ref (came i) e name
  missing : ∀ {i}, find i = none → came i = []
  apart : ∀ {i j ref}, find i = some ref → find j = some ref → i = j

section Filing

variable {ι : Type} {env : Naming} {old h : Heap α} {find : ι → Option Nat}
variable {came : ι → List (Filing α)} {f : Filing α} {name : StatName} {i : ι} {ref : Nat}

/-- To remember the id of an old name changes no entry. -/
theorem Filed.remember (filed : Filed env old h find came) {n : Nat}
    (here : old.names[n]? = some name) :
    Filed env old { h with names := h.names.set n (name.asked env) } find came := by
  have lt : n < old.names.length := (List.getElem?_eq_some_iff.mp here).1
  refine ⟨filed.toOldKept.remember here, ?_, filed.missing, filed.apart⟩
  intro i ref found
  obtain ⟨e, own, entry⟩ := filed.found found
  have := entry.freshName
  refine ⟨e, own, { entry with nameObject := ?_ }⟩
  rw [List.getElem?_set_ne (by omega)]
  exact entry.nameObject

/-- A slot with an entry has something filed in it, and the entry has its id. -/
theorem Filed.first (filed : Filed env old h find came) (found : find i = some ref) :
    ∃ f rest e name, came i = f :: rest ∧ h.stats[ref]? = some e ∧
      h.names[e.name]? = some name ∧ name.xxxUniqueIdstr = f.id ∧ e.summary = summary (came i) := by
  obtain ⟨e, name, entry⟩ := filed.found found
  rcases first : came i with _ | ⟨f, rest⟩
  · have := entry.id
    rw [first] at this
    cases this
  · have id := entry.id
    rw [first] at id
    exact ⟨f, rest, e, name, rfl, entry.object, entry.nameObject, (Option.some.inj id).symm,
      first ▸ entry.totals⟩

/-- What holds of all slots holds of those of one aggregator. -/
theorem Filed.restrict {κ : Type} (filed : Filed env old h find came) {slot : κ → ι}
    (inj : Function.Injective slot) :
    Filed env old h (fun k => find (slot k)) fun k => came (slot k) :=
  ⟨filed.toOldKept, filed.found, filed.missing, fun found found' => inj (filed.apart found found')⟩

variable [DecidableEq ι]

/-- The first stat of a slot is copied there. -/
theorem Filed.copy (filed : Filed env old h find came) (new : find i = none)
    (id : name.xxxUniqueIdstr = f.id) :
    Filed env old (h.copy f.stat name) (Function.update find i (some h.stats.length))
      (Function.update came i (came i ++ [f])) := by
  have kept := filed.toOldKept
  have older : ∀ {j ref}, find j = some ref → ref < h.stats.length := by
    intro j ref found
    obtain ⟨e, own, entry⟩ := filed.found found
    exact (List.getElem?_eq_some_iff.mp entry.object).1
  refine ⟨kept.copy f.stat, ?_, ?_, ?_⟩
  · intro j ref found
    by_cases same : j = i
    · subst same
      rw [Function.update_self, Option.some.injEq] at found
      subst found
      rw [Function.update_self, filed.missing new, List.nil_append]
      refine ⟨{ f.stat with name := h.names.length }, name, ?_, ?_, kept.length_stats_le,
        kept.length_names_le, summary_single f _, ?_⟩
      · simp [Heap.copy]
      · simp [Heap.copy]
      · simp [id]
    · rw [Function.update_of_ne same] at found ⊢
      obtain ⟨e, own, entry⟩ := filed.found found
      exact ⟨e, own, { entry with
        object := Heap.copy_stats entry.object, nameObject := Heap.copy_names entry.nameObject }⟩
  · intro j missing
    by_cases same : j = i
    · subst same
      simp at missing
    · rw [Function.update_of_ne same] at missing ⊢
      exact filed.missing missing
  · intro j k ref found found'
    rw [Function.update_apply] at found found'
    split_ifs at found found' with same same' same'
    · rw [same, same']
    · exact absurd (older found') (Option.some.inj found).not_gt
    · exact absurd (older found) (Option.some.inj found').not_gt
    · exact filed.apart found found'

theorem Filed.takeIn (filed : Filed env old h find came) (found : find i = some ref)
    (resolution : BitVec 32) :
    ∃ h', h.takeIn ref f.stat (unixNano f.bucket) resolution = some h' ∧
      Filed env old h' find (Function.update came i (came i ++ [f])) := by
  obtain ⟨e, own, entry⟩ := filed.found found
  have fresh := entry.fresh
  have freshName := entry.freshName
  have refLt := (List.getElem?_eq_some_iff.mp entry.object).1
  have nameLt := (List.getElem?_eq_some_iff.mp entry.nameObject).1
  refine ⟨_, by rw [Heap.takeIn, entry.object, Option.bind_eq_bind, Option.bind_some,
    entry.nameObject]; rfl, filed.toOldKept.set fresh freshName .., ?_, ?_, filed.apart⟩
  · intro j ref' found'
    obtain ⟨e', own', entry'⟩ := filed.found found'
    -- the resolution is written to one name, whose id stays
    have named : ∃ own'', (h.names.set e.name { own with resolution := resolution })[e'.name]? =
        some own'' ∧ own''.xxxUniqueIdstr = own'.xxxUniqueIdstr := by
      by_cases same : e.name = e'.name
      · have eq : own = own' :=
          Option.some.inj (entry.nameObject.symm.trans (same ▸ entry'.nameObject))
        rw [← same, List.getElem?_set_self nameLt]
        exact ⟨_, rfl, by rw [eq]⟩
      · rw [List.getElem?_set_ne same]
        exact ⟨own', entry'.nameObject, rfl⟩
    obtain ⟨own'', nameObject, id⟩ := named
    by_cases same : j = i
    · subst same
      obtain rfl : ref = ref' := Option.some.inj (found.symm.trans found')
      obtain rfl : e = e' := Option.some.inj (entry.object.symm.trans entry'.object)
      rw [Function.update_self]
      refine ⟨e.takeIn f.stat (unixNano f.bucket), own'', List.getElem?_set_self refLt, nameObject,
        fresh, freshName, summary_takeIn entry.totals f, ?_⟩
      rw [id, ← entry'.id]
      rcases first : came j with _ | ⟨g, rest⟩
      · have := entry'.id
        rw [first] at this
        cases this
      · rfl
    · rw [Function.update_of_ne same]
      have ne : ref ≠ ref' := fun eq => same (filed.apart found' (eq ▸ found))
      refine ⟨e', own'', ?_, nameObject, entry'.fresh, entry'.freshName, entry'.totals, ?_⟩
      · rw [List.getElem?_set_ne ne]
        exact entry'.object
      · rw [id, entry'.id]
  · intro j missing
    have ne : j ≠ i := by
      rintro rfl
      rw [found] at missing
      cases missing
    rw [Function.update_of_ne ne]
    exact filed.missing missing

/-- An aggregator whose keys are some of the slots files a stat of the old heap. -/
theorem Filed.add (filed : Filed env old h find came) {sa : Aggregator} {slot : String → ι}
    (inj : Function.Injective slot) (agree : ∀ key, sa.items.lookup key = find (slot key))
    (durations : Durations) (input : filing env old sa.resolution ref = some f) :
    ∃ h' sa' find', sa.add env durations h ref = some (h', sa') ∧
      sa'.resolution = sa.resolution ∧
      Filed env old h' find' (Function.update came (slot f.key) (came (slot f.key) ++ [f])) ∧
      (∀ key, sa'.items.lookup key = find' (slot key)) ∧
      ∀ i, i ≠ slot f.key → find' i = find i := by
  obtain ⟨name, here, named, filedId, filedBucket⟩ := filing_eq_some input
  obtain ⟨name', named', id, asked⟩ := filed.ask named
  have remembered := filed.remember named
  rw [Aggregator.add_eq (filed.stats here) named', id, asked, mapKey_filing filedId filedBucket,
    ← filedBucket]
  rcases found : sa.items.lookup f.key with _ | element
  · have id' : (name.asked env).xxxUniqueIdstr = f.id := by rw [← StatName.idText_eq, filedId]
    refine ⟨_, _, _, rfl, rfl, remembered.copy (agree _ ▸ found) id', ?_,
      fun i ne => Function.update_of_ne ne _ _⟩
    intro k
    by_cases same : k = f.key
    · rw [same, Function.update_self]
      exact AList.lookup_insert _
    · rw [Function.update_of_ne fun eq => same (inj eq)]
      exact (AList.lookup_insert_ne same).trans (agree k)
  · obtain ⟨h', taken, filed'⟩ := remembered.takeIn (f := f) (agree _ ▸ found)
      (durations.toUint32 (durations.seconds sa.resolution))
    refine ⟨h', sa, find, ?_, rfl, filed', agree, fun _ _ => rfl⟩
    exact congrArg (Option.map fun h => (h, sa)) taken

end Filing

/-! ### One aggregator -/

section Single

variable {env : Naming} {durations : Durations} {old h : Heap α} {sa : Aggregator}
variable {refs : List Nat}

theorem addAll_filed {came : String → List (Filing α)}
    (filed : Filed env old h (fun key => sa.items.lookup key) came)
    (inputs : ∀ ref ∈ refs, (filing env old sa.resolution ref).isSome) :
    ∃ h' sa', sa.addAll env durations h refs = some (h', sa') ∧
      sa'.resolution = sa.resolution ∧ Filed env old h' (fun key => sa'.items.lookup key)
        fun key => came key ++ under (filings env old sa.resolution refs) key := by
  induction refs generalizing h sa came with
  | nil => exact ⟨h, sa, rfl, rfl, by simpa [filings, under] using filed⟩
  | cons ref refs ih =>
    obtain ⟨f, input⟩ := Option.isSome_iff_exists.mp (inputs ref List.mem_cons_self)
    obtain ⟨h₁, sa₁, find, added, res, filed₁, agree, _⟩ :=
      filed.add Function.injective_id (fun _ => rfl) durations input
    have same : find = fun key => sa₁.items.lookup key := funext fun key => (agree key).symm
    rw [same] at filed₁
    obtain ⟨h₂, sa₂, all, res', filed₂⟩ := ih filed₁ fun r mem => by
      rw [res]
      exact inputs r (List.mem_cons_of_mem _ mem)
    refine ⟨h₂, sa₂, ?_, res'.trans res, ?_⟩
    · rw [Aggregator.addAll, added]
      exact all
    · rw [res] at filed₂
      have first : filings env old sa.resolution (ref :: refs) =
          f :: filings env old sa.resolution refs := List.filterMap_cons_some input
      rw [first]
      simpa only [id, under_cons] using filed₂

/-- One entry for each pair that occurred, with the totals of its stats. -/
structure Aggregated (h : Heap α) (fs : List (Filing α)) (out : List Nat) : Prop where
  entries : ∃ pairs : List (String × Int), pairs.Nodup ∧
    (∀ p, p ∈ pairs ↔ ∃ f ∈ fs, f.pair = p) ∧
    List.Forall₂ (fun ref p => ∃ e name, h.stats[ref]? = some e ∧
      h.names[e.name]? = some name ∧ name.xxxUniqueIdstr = p.1 ∧
      e.summary = summary (groupOf fs p)) out pairs
  distinct : out.Nodup
  sorted : out.Pairwise fun a b => h.timeAt a ≤ h.timeAt b

/-- The entry of a key is that of the pair of the first stat filed under it. -/
theorem entry_of_key {fs : List (Filing α)} (separated : Separated fs)
    (filed : Filed env old h (fun key => sa.items.lookup key) (under fs)) {k : String}
    (mem : k ∈ sa.items.keys) :
    ∃ ref f, sa.items.lookup k = some ref ∧ f ∈ fs ∧ f.key = k ∧
      (under fs k).head? = some f ∧ ∃ e name, h.stats[ref]? = some e ∧
        h.names[e.name]? = some name ∧ name.xxxUniqueIdstr = f.id ∧
        e.summary = summary (groupOf fs f.pair) := by
  obtain ⟨ref, here⟩ := Option.isSome_iff_exists.mp
    (AList.lookup_isSome.mpr (AList.mem_keys.mpr mem))
  obtain ⟨f, rest, e, name, first, object, nameObject, id, totals⟩ := filed.first here
  have filedIn : f ∈ under fs k := by
    rw [first]
    exact List.mem_cons_self
  obtain ⟨mem', key⟩ := List.mem_filter.mp filedIn
  obtain rfl : f.key = k := by simpa using key
  rw [under_eq_groupOf separated mem'] at totals
  exact ⟨ref, f, here, mem', rfl, by rw [first]; rfl, e, name, object, nameObject, id, totals⟩

theorem key_mem_of_filed {fs : List (Filing α)}
    (filed : Filed env old h (fun key => sa.items.lookup key) (under fs)) {f : Filing α}
    (mem : f ∈ fs) : f.key ∈ sa.items.keys := by
  refine AList.mem_keys.mp (AList.lookup_isSome.mp ?_)
  by_contra missing
  have none := filed.missing (i := f.key) (Option.not_isSome_iff_eq_none.mp missing)
  have filedIn : f ∈ under fs f.key := List.mem_filter.mpr ⟨mem, by simp⟩
  rw [none] at filedIn
  cases filedIn

theorem grandTotal_of_filed {β : Type} [AddCommMonoid β] {measure : StatRepr α → β}
    (summed : ∀ {e : StatRepr α} {g : List (Filing α)}, e.summary = summary g →
      measure e = (g.map (measure ·.stat)).sum)
    {sort : (Nat → Int) → List Nat → List Nat} (sorts : SortsStats sort) {fs : List (Filing α)}
    (filed : Filed env old h (fun key => sa.items.lookup key) (under fs))
    {order : List String} (keys : order.Perm sa.items.keys) :
    grandTotal measure h (sa.getListAndClear sort h order).1 = (fs.map (measure ·.stat)).sum := by
  rw [Aggregator.getListAndClear, grandTotal_perm (sorts.perm _ _)]
  refine grandTotal_of_keys (keys.nodup_iff.mpr sa.items.keys_nodup)
    (fun f mem => keys.mem_iff.mpr (key_mem_of_filed filed mem)) ?_
  intro key mem
  obtain ⟨ref, entry⟩ := Option.isSome_iff_exists.mp
    (AList.lookup_isSome.mpr (AList.mem_keys.mpr (keys.mem_iff.mp mem)))
  obtain ⟨e, name, entryOf⟩ := filed.found entry
  exact ⟨ref, e, entry, entryOf.object, summed entryOf.totals⟩

theorem aggregated_of_filed {sort : (Nat → Int) → List Nat → List Nat} (sorts : SortsStats sort)
    {fs : List (Filing α)} (separated : Separated fs)
    (filed : Filed env old h (fun key => sa.items.lookup key) (under fs)) {order : List String}
    (keys : order.Perm sa.items.keys) : Aggregated h fs (sa.getListAndClear sort h order).1 := by
  have found := fun k (mem : k ∈ order) => entry_of_key separated filed (keys.mem_iff.mp mem)
  -- the pair of a key is that of the first stat filed under it
  let pairOf : String → String × Int := fun k => ((under fs k).head?.map Filing.pair).getD ("", 0)
  have related : List.Forall₂ (fun ref p => ∃ e name, h.stats[ref]? = some e ∧
      h.names[e.name]? = some name ∧ name.xxxUniqueIdstr = p.1 ∧
      e.summary = summary (groupOf fs p)) (order.filterMap fun k => sa.items.lookup k)
      (order.map pairOf) := by
    refine List.forall₂_map_right_iff.mpr (Groups.forall₂_filterMap ?_)
    intro k mem
    obtain ⟨ref, f, here, _, _, first, e, name, object, nameObject, id, totals⟩ := found k mem
    have pair : pairOf k = f.pair := by simp [pairOf, first]
    rw [pair]
    exact ⟨ref, here, e, name, object, nameObject, id, totals⟩
  obtain ⟨pairs, matched, perm⟩ := List.perm_comp_forall₂ (sorts.perm h.timeAt _) related
  have distinct : (order.filterMap fun k => sa.items.lookup k).Nodup :=
    List.Nodup.filterMap (fun _ _ _ here here' => filed.apart here here')
      (keys.nodup_iff.mpr sa.items.keys_nodup)
  refine ⟨⟨pairs, perm.nodup_iff.mpr ?_, ?_, matched⟩,
    (sorts.perm h.timeAt _).nodup_iff.mpr distinct, sorts.sorted h.timeAt _⟩
  · refine List.Nodup.map_on ?_ (keys.nodup_iff.mpr sa.items.keys_nodup)
    intro k mem k' mem' same
    obtain ⟨_, f, _, _, rfl, first, _⟩ := found k mem
    obtain ⟨_, f', _, _, rfl, first', _⟩ := found k' mem'
    simp only [pairOf, first, first', Option.map_some, Option.getD_some] at same
    exact key_of_pair same
  · intro p
    rw [perm.mem_iff, List.mem_map]
    constructor
    · rintro ⟨k, mem, rfl⟩
      obtain ⟨_, f, _, mem', _, first, _⟩ := found k mem
      exact ⟨f, mem', by simp [pairOf, first]⟩
    · rintro ⟨f, mem, rfl⟩
      have listed : f.key ∈ order := keys.mem_iff.mpr (key_mem_of_filed filed mem)
      obtain ⟨_, f', _, mem', same, first, _⟩ := found f.key listed
      refine ⟨f.key, listed, ?_⟩
      simp only [pairOf, first, Option.map_some, Option.getD_some]
      exact separated f' mem' f mem same

/-! ### The order of the additions -/

/-- Everything of a summary but `Last`. -/
def Summary.lasting (s : Summary α) : Summary α := { s with last := none }

/-- What is shown of an entry, whatever the order of the additions was. -/
def shown (h : Heap α) (ref : Nat) : Option (String × Summary α) := do
  let e ← h.stats[ref]?
  let name ← h.names[e.name]?
  return (name.xxxUniqueIdstr, e.summary.lasting)

theorem lasting_perm {g g' : List (Filing α)} (perm : g.Perm g') (bucket : Int)
    (within : ∀ f ∈ g, f.bucket = bucket) : (summary g).lasting = (summary g').lasting := by
  simp only [Summary.lasting, summary, Summary.mk.injEq]
  exact ⟨(perm.map _).sum_eq, (perm.map _).sum_eq, min?_perm (perm.map _), max?_perm (perm.map _),
    trivial, timeOf_perm perm bucket within⟩

theorem shown_of_aggregated {fs fs' : List (Filing α)} {h h' : Heap α} {out out' : List Nat}
    (perm : fs.Perm fs') (agg : Aggregated h fs out) (agg' : Aggregated h' fs' out') :
    (out.map (shown h)).Perm (out'.map (shown h')) := by
  have values : ∀ {h : Heap α} {fs : List (Filing α)} {out : List Nat}
      {pairs : List (String × Int)}, List.Forall₂ (fun ref p => ∃ e name,
        h.stats[ref]? = some e ∧ h.names[e.name]? = some name ∧ name.xxxUniqueIdstr = p.1 ∧
        e.summary = summary (groupOf fs p)) out pairs →
      out.map (shown h) = pairs.map fun p => some (p.1, (summary (groupOf fs p)).lasting) := by
    intro h fs out pairs matched
    induction matched with
    | nil => rfl
    | cons entry _ ih =>
      obtain ⟨e, name, object, nameObject, id, totals⟩ := entry
      rw [List.map_cons, List.map_cons, ih]
      simp [shown, object, nameObject, id, totals]
  obtain ⟨pairs, nodup, mem, matched⟩ := agg.entries
  obtain ⟨pairs', nodup', mem', matched'⟩ := agg'.entries
  have samePairs : pairs.Perm pairs' := by
    rw [List.perm_ext_iff_of_nodup nodup nodup']
    intro p
    rw [mem, mem']
    simp only [perm.mem_iff]
  rw [values matched, values matched']
  refine (samePairs.map _).trans (List.Perm.of_eq (List.map_congr_left ?_))
  intro p _
  have group : (groupOf fs p).Perm (groupOf fs' p) := perm.filter _
  rw [lasting_perm group p.2]
  intro f filed
  have pair : f.pair = p := by simpa using (List.mem_filter.mp filed).2
  rw [← pair]
  rfl

end Single

/-! ### Several aggregators on one heap -/

section Multi

variable {env : Naming} {durations : Durations} {old h : Heap α}
variable {aggs : Map (BitVec 64) Aggregator}

/-- The slots of all aggregators. -/
def findIn (aggs : Map (BitVec 64) Aggregator) (i : BitVec 64 × String) : Option Nat :=
  (aggs.lookup i.1).bind fun sa => sa.items.lookup i.2

/-- The aggregator of a duration, which has that resolution. -/
def HasAgg (durations : Durations) (aggs : Map (BitVec 64) Aggregator) (dur : Int) : Prop :=
  ∃ sa, aggs.lookup (durations.seconds dur) = some sa ∧ sa.resolution = dur

theorem hasAgg_insert {sa sa' : Aggregator} {dur dur' : Int}
    (here : aggs.lookup (durations.seconds dur) = some sa) (res : sa'.resolution = sa.resolution)
    (has : HasAgg durations aggs dur') :
    HasAgg durations (aggs.insert (durations.seconds dur) sa') dur' := by
  obtain ⟨own, found, ownRes⟩ := has
  by_cases same : durations.seconds dur' = durations.seconds dur
  · obtain rfl : own = sa := Option.some.inj ((same ▸ found).symm.trans here)
    exact ⟨sa', same ▸ AList.lookup_insert _, res.trans ownRes⟩
  · exact ⟨own, (AList.lookup_insert_ne same).trans found, ownRes⟩

theorem findIn_insert (find : BitVec 64 × String → Option Nat) {sa : Aggregator} {k : BitVec 64}
    (agree : ∀ key, sa.items.lookup key = find (k, key))
    (others : ∀ k' key, k' ≠ k → find (k', key) = findIn aggs (k', key)) :
    findIn (aggs.insert k sa) = find := by
  funext ⟨k', key⟩
  by_cases same : k' = k
  · subst same
    rw [findIn, AList.lookup_insert]
    exact agree key
  · rw [findIn, AList.lookup_insert_ne same]
    exact (others k' key same).symm

/-- One stat is filed in each of the aggregators, and nothing else changes. -/
theorem addLoop_filed {ref : Nat} {durs : List Int} (distinct : (durs.map durations.seconds).Nodup)
    {came : BitVec 64 × String → List (Filing α)} (filed : Filed env old h (findIn aggs) came)
    (present : ∀ dur ∈ durs, HasAgg durations aggs dur)
    (input : ∀ dur, (filing env old dur ref).isSome) :
    ∃ h' aggs' came', MultiAggregator.addLoop env durations ref durs h aggs = some (h', aggs') ∧
      Filed env old h' (findIn aggs') came' ∧
      (∀ dur, HasAgg durations aggs dur → HasAgg durations aggs' dur) ∧
      (∀ dur ∈ durs, ∀ key, came' (durations.seconds dur, key) =
        came (durations.seconds dur, key) ++ under (filings env old dur [ref]) key) ∧
      ∀ k, k ∉ durs.map durations.seconds → ∀ key, came' (k, key) = came (k, key) := by
  induction durs generalizing h aggs came with
  | nil =>
    exact ⟨h, aggs, came, rfl, filed, fun _ => id, fun _ mem => absurd mem List.not_mem_nil,
      fun _ _ _ => rfl⟩
  | cons dur durs ih =>
    obtain ⟨fresh, distinct⟩ := List.nodup_cons.mp distinct
    obtain ⟨sa, here, res⟩ := present dur List.mem_cons_self
    obtain ⟨f, filedAs⟩ := Option.isSome_iff_exists.mp (input dur)
    obtain ⟨h₁, sa₁, find₁, added, res₁, filed₁, agree, others⟩ :=
      filed.add (Prod.mk_right_injective (durations.seconds dur))
        (fun key => by rw [findIn, here]; rfl) durations (res.symm ▸ filedAs)
    have find : findIn (aggs.insert (durations.seconds dur) sa₁) = find₁ :=
      findIn_insert _ agree fun k' key ne => others _ fun eq => ne (congrArg Prod.fst eq)
    rw [← find] at filed₁
    obtain ⟨h₂, aggs₂, came₂, looped, filed₂, kept, here₂, others₂⟩ := ih distinct filed₁
      (fun dur' mem => hasAgg_insert here res₁ (present dur' (List.mem_cons_of_mem _ mem)))
    have one : filings env old dur [ref] = [f] := by simp [filings, filedAs]
    refine ⟨h₂, aggs₂, came₂, ?_, filed₂, fun dur' has => kept dur' (hasAgg_insert here res₁ has),
      ?_, ?_⟩
    · rw [MultiAggregator.addLoop, here, Option.bind_eq_bind, Option.bind_some, added]
      exact looped
    · intro dur' mem key
      rcases List.mem_cons.mp mem with rfl | mem
      · rw [others₂ _ fresh, one]
        by_cases same : key = f.key
        · subst same
          simp [under]
        · rw [Function.update_of_ne fun eq => same (congrArg Prod.snd eq), under,
            List.filter_cons_of_neg (by simp [Ne.symm same]), List.filter_nil, List.append_nil]
      · have ne : durations.seconds dur' ≠ durations.seconds dur := fun eq =>
          fresh (eq ▸ List.mem_map_of_mem mem)
        rw [here₂ dur' mem, Function.update_of_ne fun eq => ne (congrArg Prod.fst eq)]
    · intro k notin key
      obtain ⟨ne, notin⟩ := List.ne_and_not_mem_of_not_mem_cons notin
      rw [others₂ k notin, Function.update_of_ne fun eq => ne (congrArg Prod.fst eq)]

theorem multiAddAll_filed {ma : MultiAggregator} {refs : List Nat}
    (distinct : (ma.resolutions.map durations.seconds).Nodup)
    {came : BitVec 64 × String → List (Filing α)} (filed : Filed env old h (findIn ma.aggs) came)
    (present : ∀ dur ∈ ma.resolutions, HasAgg durations ma.aggs dur)
    (inputs : ∀ ref ∈ refs, ∀ dur, (filing env old dur ref).isSome) :
    ∃ h' ma' came', ma.addAll env durations h refs = some (h', ma') ∧
      Filed env old h' (findIn ma'.aggs) came' ∧
      (∀ dur ∈ ma.resolutions, HasAgg durations ma'.aggs dur) ∧
      ∀ dur ∈ ma.resolutions, ∀ key, came' (durations.seconds dur, key) =
        came (durations.seconds dur, key) ++ under (filings env old dur refs) key := by
  induction refs generalizing h ma came with
  | nil => exact ⟨h, ma, came, rfl, filed, present, by simp [filings, under]⟩
  | cons ref refs ih =>
    obtain ⟨h₁, aggs₁, came₁, looped, filed₁, kept, here, _⟩ :=
      addLoop_filed distinct filed present (inputs ref List.mem_cons_self)
    obtain ⟨h₂, ma₂, came₂, all, filed₂, present₂, here₂⟩ :=
      @ih h₁ ⟨aggs₁, ma.resolutions⟩ distinct came₁ filed₁
        (fun dur mem => kept dur (present dur mem))
        (fun r mem => inputs r (List.mem_cons_of_mem _ mem))
    refine ⟨h₂, ma₂, came₂, ?_, filed₂, present₂, ?_⟩
    · rw [MultiAggregator.addAll, MultiAggregator.add, looped]
      exact all
    · intro dur mem key
      have split : filings env old dur (ref :: refs) =
          filings env old dur [ref] ++ filings env old dur refs :=
        List.filterMap_append (l := [ref])
      rw [here₂ dur mem key, here dur mem key, split, under, under, under, List.filter_append,
        List.append_assoc]

theorem newMulti_aggs {res : List Int} (distinct : (res.map durations.seconds).Nodup) :
    (∀ dur ∈ res, HasAgg durations (newMulti durations res).aggs dur) ∧
      ∀ i, findIn (newMulti durations res).aggs i = none := by
  suffices built : ∀ (res : List Int) (aggs : Map (BitVec 64) Aggregator),
      (res.map durations.seconds).Nodup → (∀ i, findIn aggs i = none) →
      let aggs' := res.foldl
        (fun aggs dur => aggs.insert (durations.seconds dur) (newAggregator dur)) aggs
      (∀ dur ∈ res, HasAgg durations aggs' dur) ∧ (∀ i, findIn aggs' i = none) ∧
        ∀ k, k ∉ res.map durations.seconds → aggs'.lookup k = aggs.lookup k by
    obtain ⟨present, empty, _⟩ := built res ∅ distinct fun _ => rfl
    exact ⟨present, empty⟩
  intro res
  induction res with
  | nil => exact fun aggs _ empty => ⟨nofun, empty, fun _ _ => rfl⟩
  | cons dur res ih =>
    intro aggs distinct empty
    obtain ⟨fresh, distinct⟩ := List.nodup_cons.mp distinct
    have empty' : ∀ i, findIn (aggs.insert (durations.seconds dur) (newAggregator dur)) i = none :=
      congrFun (findIn_insert (fun _ => none) (fun _ => rfl) fun k' key _ =>
        (empty (k', key)).symm)
    obtain ⟨present, empty'', others⟩ := ih _ distinct empty'
    refine ⟨?_, empty'', ?_⟩
    · intro dur' mem
      rcases List.mem_cons.mp mem with rfl | mem
      · exact ⟨_, (others _ fresh).trans (AList.lookup_insert _), rfl⟩
      · exact present dur' mem
    · intro k notin
      obtain ⟨ne, notin⟩ := List.ne_and_not_mem_of_not_mem_cons notin
      exact (others k notin).trans (AList.lookup_insert_ne ne)

end Multi

/-! ### All of it -/

section Main

variable {env : Naming} {durations : Durations} {old : Heap α} {resolution : Int}
variable {refs : List Nat}

theorem filed_empty {ι : Type} {find : ι → Option Nat} (empty : ∀ i, find i = none) :
    Filed env old old find fun _ => [] :=
  ⟨⟨fun here => here, .inl⟩, by simp [empty], fun _ => rfl, by simp [empty]⟩

variable (env) in
theorem addAll_new (durations : Durations) (fileable : Fileable old resolution refs) :
    ∃ h sa, (newAggregator resolution).addAll env durations old refs = some (h, sa) ∧
      sa.resolution = resolution ∧ Filed env old h (fun key => sa.items.lookup key)
        (under (filings env old resolution refs)) := by
  have empty : Filed env old old (fun key => (newAggregator resolution).items.lookup key)
      fun _ => [] := filed_empty fun _ => rfl
  exact addAll_filed empty fun _ => isSome_filing fileable _

theorem Filed.kept {ι : Type} {h : Heap α} {find : ι → Option Nat}
    {came : ι → List (Filing α)} (filed : Filed env old h find came) {n : Nat} {name : StatName}
    (here : old.names[n]? = some name) :
    ∃ name', h.names[n]? = some name' ∧ StatName.Kept env name name' := by
  rcases filed.names here with same | asked
  · exact ⟨name, same, StatName.kept_refl name⟩
  · exact ⟨_, asked, StatName.kept_asked name⟩

variable (env durations) in
/-- The list of an aggregator has one entry for each unique id and time bucket, with the
totals of the stats that were added there. It is sorted and the aggregator is empty. Another
order of the additions gives entries that differ in their `Last` and in their names, but not
in their ids. The stats that were added are as they were, up to what their names remember.
In several aggregators of different resolutions the grand totals are those of the stats. -/
theorem aggregator_totals {sort : (Nat → Int) → List Nat → List Nat} (sorts : SortsStats sort)
    (fileable : Fileable old resolution refs) :
    (∃ h sa, (newAggregator resolution).addAll env durations old refs = some (h, sa) ∧
      (∀ (r : Nat) stat, old.stats[r]? = some stat → h.stats[r]? = some stat) ∧
      (∀ (n : Nat) name, old.names[n]? = some name →
        ∃ name', h.names[n]? = some name' ∧ StatName.Kept env name name') ∧
      ∀ order : List String, order.Perm sa.items.keys →
        Aggregated h (filings env old resolution refs) (sa.getListAndClear sort h order).1 ∧
        (sa.getListAndClear sort h order).2 = newAggregator resolution ∧
        ∀ refs', refs.Perm refs' → ∃ h' sa',
          (newAggregator resolution).addAll env durations old refs' = some (h', sa') ∧
          ∀ order' : List String, order'.Perm sa'.items.keys →
            ((sa.getListAndClear sort h order).1.map (shown h)).Perm
              ((sa'.getListAndClear sort h' order').1.map (shown h'))) ∧
    ∀ resolutions : List Int, (resolutions.map durations.seconds).Nodup →
      ∃ h ma, (newMulti durations resolutions).addAll env durations old refs = some (h, ma) ∧
        ∀ dur ∈ resolutions, ∃ sa, ma.aggs.lookup (durations.seconds dur) = some sa ∧
          ∀ order : List String, order.Perm sa.items.keys →
            grandTotal StatRepr.count h (sa.getListAndClear sort h order).1 =
              grandTotal StatRepr.count old refs ∧
            grandTotal StatRepr.sum h (sa.getListAndClear sort h order).1 =
              grandTotal StatRepr.sum old refs := by
  constructor
  · obtain ⟨h, sa, all, res, filed⟩ := addAll_new env durations fileable
    refine ⟨h, sa, all, fun _ _ => filed.stats, fun _ _ => filed.kept, ?_⟩
    intro order keys
    have agg := aggregated_of_filed sorts (separated_filings fileable) filed keys
    refine ⟨agg, by rw [Aggregator.getListAndClear, res]; rfl, ?_⟩
    intro refs' perm
    have fileable' := fileable.perm perm
    obtain ⟨h', sa', all', _, filed'⟩ := addAll_new env durations fileable'
    refine ⟨h', sa', all', ?_⟩
    intro order' keys'
    exact shown_of_aggregated (perm.filterMap _) agg
      (aggregated_of_filed sorts (separated_filings fileable') filed' keys')
  · intro resolutions distinct
    obtain ⟨present, empty⟩ := newMulti_aggs distinct
    have inputs : ∀ ref ∈ refs, ∀ dur, (filing env old dur ref).isSome :=
      fun _ mem dur => isSome_filing fileable dur mem
    obtain ⟨h, ma, came, all, filed, present', here⟩ :=
      multiAddAll_filed distinct (filed_empty empty) present inputs
    refine ⟨h, ma, all, ?_⟩
    intro dur mem
    obtain ⟨sa, found, _⟩ := present' dur mem
    refine ⟨sa, found, ?_⟩
    intro order keys
    have own : Filed env old h (fun key => sa.items.lookup key)
        (under (filings env old dur refs)) := by
      have part := filed.restrict (Prod.mk_right_injective (durations.seconds dur))
      simpa only [findIn, found, Option.bind_some, here dur mem, List.nil_append] using part
    rw [← grandTotal_inputs fun ref member => inputs ref member dur,
      ← grandTotal_inputs fun ref member => inputs ref member dur]
    exact ⟨grandTotal_of_filed (fun same => congrArg Summary.count same) sorts own keys,
      grandTotal_of_filed (fun same => congrArg Summary.sum same) sorts own keys⟩

end Main

end Totals

/-! ### Four stats, and where the totals are not what was to be expected -/

def plainDurations : Durations := ⟨BitVec.ofInt 64, fun seconds => seconds.setWidth 32⟩

def sortStats (time : Nat → Int) (l : List Nat) : List Nat :=
  l.insertionSort fun a b => time a ≤ time b

theorem sortsStats_sortStats : SortsStats sortStats := by
  refine ⟨fun time l => List.perm_insertionSort _ l, fun time l => ?_⟩
  have total : Std.Total fun a b => time a ≤ time b := ⟨fun a b => Int.le_total _ _⟩
  have trans : IsTrans Nat fun a b => time a ≤ time b := ⟨fun _ _ _ => Int.le_trans⟩
  exact List.pairwise_insertionSort _ l

/-- The entries that a sequence of additions makes, with their names. -/
def entriesOf (old : Heap Int) (resolution : Int) (refs : List Nat) :
    Option (List (StatRepr Int × StatName)) := do
  let (h, sa) ← (newAggregator resolution).addAll plainNaming plainDurations old refs
  (sa.getListAndClear sortStats h sa.items.keys).1.mapM fun ref => do
    let e ← h.stats[ref]?
    let name ← h.names[e.name]?
    return (e, name)

def idName (id : String) (ttl : BitVec 32) : StatName :=
  ⟨"a.b", 37#64, id, 10#32, ttl, .metrics2, .fnv, [], []⟩

def oneStat (name : Nat) (time : Int) : StatRepr Int := ⟨name, BitVec.ofInt 64 time, 3, 3, 3, 3, 1⟩

/-- Two ids in one second, one of them twice, and again in the next second. -/
def fourStats : Heap Int :=
  ⟨[oneStat 0 5, oneStat 1 5, oneStat 0 5, oneStat 0 6],
    [idName "x" 1#32, idName "" 2#32]⟩

theorem aggregator_totals_four :
    Fileable fourStats 1000000000 [0, 1, 2, 3] ∧
    (entriesOf fourStats 1000000000 [0, 1, 2, 3]).map (·.map (·.1.count)) = some [1, 1, 2] ∧
    (∃ h sa, (newAggregator 1000000000).addAll plainNaming plainDurations fourStats [0, 1, 2, 3] =
        some (h, sa) ∧
      Aggregated h (filings plainNaming fourStats 1000000000 [0, 1, 2, 3])
        (sa.getListAndClear sortStats h sa.items.keys.reverse).1) ∧
    ∃ h ma, (newMulti plainDurations [1000000000, 60000000000]).addAll plainNaming plainDurations
        fourStats [0, 1, 2, 3] = some (h, ma) ∧
      ∃ sa, ma.aggs.lookup (plainDurations.seconds 60000000000) = some sa ∧
        grandTotal StatRepr.count h (sa.getListAndClear sortStats h sa.items.keys).1 = 4 := by
  have fileable : Fileable fourStats 1000000000 [0, 1, 2, 3] := by
    refine ⟨?_, by decide, .inr (by decide)⟩
    intro ref mem
    simp only [List.mem_cons, List.not_mem_nil, or_false] at mem
    rcases mem with rfl | rfl | rfl | rfl
    all_goals exact ⟨_, _, rfl, rfl⟩
  obtain ⟨⟨h, sa, all, _, _, listed⟩, several⟩ :=
    aggregator_totals plainNaming plainDurations sortsStats_sortStats fileable
  obtain ⟨h', ma, all', totals⟩ := several [1000000000, 60000000000] (by decide)
  obtain ⟨sa', found, total⟩ := totals 60000000000 (by decide)
  refine ⟨fileable, by decide +kernel, ⟨h, sa, all, (listed _ (List.reverse_perm _)).1⟩, h', ma,
    all', sa', found, ?_⟩
  rw [(total _ (.refl _)).1]
  decide

/-- The name of an entry is the one of the stat that came first, and a name that had no id
has one afterwards. Ids that end in a dash and buckets before 1970 compose the same keys, and
so do times too far off for an `int64` of nanoseconds. A resolution that is listed twice
counts twice. -/
theorem aggregator_totals_fail :
    ((entriesOf ⟨[oneStat 0 5, oneStat 1 5], [idName "x" 1#32, idName "x" 2#32]⟩
        1000000000 [0, 1]).map (·.map (·.2.ttl)) = some [1#32] ∧
      (entriesOf ⟨[oneStat 0 5, oneStat 1 5], [idName "x" 1#32, idName "x" 2#32]⟩
        1000000000 [1, 0]).map (·.map (·.2.ttl)) = some [2#32]) ∧
    ((newAggregator 1000000000).addAll plainNaming plainDurations
        ⟨[oneStat 0 5], [idName "" 1#32]⟩ [0]).map (·.1.names[0]?) =
      some (some (idName "11" 1#32)) ∧
    (entriesOf ⟨[oneStat 0 5, oneStat 1 (-5)], [idName "a-" 1#32, idName "a" 1#32]⟩
        1000000000 [0, 1]).map (·.map fun e => (e.1.count, e.2.xxxUniqueIdstr)) =
      some [(2, "a-")] ∧
    (entriesOf ⟨[oneStat 0 (-1), oneStat 0 (-1 - 2 ^ 55)], [idName "x" 1#32]⟩
        1000000000 [0, 1]).map (·.map (·.1.count)) = some [2] ∧
    (((newMulti plainDurations [1000000000, 1000000000, 2000000000]).addAll plainNaming
        plainDurations ⟨[oneStat 0 5], [idName "x" 1#32]⟩ [0]).bind fun p =>
          [1000000000, 2000000000].mapM fun dur =>
            (p.2.aggs.lookup (plainDurations.seconds dur)).map fun sa =>
              grandTotal StatRepr.count p.1 (sa.getListAndClear sortStats p.1 sa.items.keys).1) =
      some [2, 1] := by
  decide

end Repr
