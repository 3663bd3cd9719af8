import Cadent.Lib.Maps

/-!
# The map of written offsets

`offsetMap` keeps a marker for every id. Callers make a marker for one call of `AddIfBigger` and
do not touch it afterwards, so that a marker is a value here, and the locks are left out.
`AddIfBigger` stores an offset that is not bigger too, which makes the offset of an id the one
that was added last; it is the maximum of what was offered as long as no lower one is added.
-/

namespace Injectors

open Maps

structure OffsetMarker where
  id : String
  topic : String
  partition : Int
  offset : Int
  writeTime : Int
  deriving DecidableEq

abbrev OffsetMap := Map String OffsetMarker

namespace OffsetMap

variable (o : OffsetMap)

def addIfBigger (omark : OffsetMarker) : OffsetMap :=
  match o.lookup omark.id with
  | some item =>
    if omark.offset > item.offset then o.insert omark.id { item with offset := omark.offset }
    else o.insert omark.id omark
  | none => o.insert omark.id omark

def isLower (id : String) (inoffset : Int) : Bool :=
  match o.lookup id with
  | some gt => gt.offset > inoffset
  | none => false

def updateOffsetIfBigger (id : String) (inoffset : Int) : OffsetMap × Bool :=
  match o.lookup id with
  | some item =>
    if inoffset > item.offset then (o.insert id { item with offset := inoffset }, true)
    else (o, false)
  | none => (o, false)

/-- The body of the loop of `PartitionMinOffset`. -/
def minStep (topic : String) (partition minO : Int) (of : OffsetMarker) : Int :=
  if of.partition = partition ∧ of.topic = topic then
    if (minO = -2 ∨ minO > of.offset) ∧ of.offset > 0 then of.offset else minO
  else minO

def partitionMinOffset (topic : String) (partition : Int) : Int :=
  o.entries.foldl (fun minO e => minStep topic partition minO e.2) (-2)

/-- The offset that is stored for an id. -/
def stored (id : String) : Option Int := (o.lookup id).map OffsetMarker.offset

variable {o}

theorem stored_addIfBigger (o : OffsetMap) (omark : OffsetMarker) (id : String) :
    stored (o.addIfBigger omark) id = if id = omark.id then some omark.offset else stored o id := by
  rw [addIfBigger]
  split
  next item found =>
    split_ifs with bigger same same <;> simp [stored, lookup_insert, same]
  next missing =>
    split_ifs with same <;> simp [stored, lookup_insert, same]

theorem stored_updateOffsetIfBigger (o : OffsetMap) (id id' : String) (inoffset : Int) :
    stored (o.updateOffsetIfBigger id inoffset).1 id' =
      if id' = id then (stored o id).map (max · inoffset) else stored o id' := by
  rw [updateOffsetIfBigger]
  split
  next item found =>
    have old : stored o id = some item.offset := by rw [stored, found, Option.map_some]
    by_cases same : id' = id
    · subst same
      rw [if_pos rfl, old, Option.map_some]
      split_ifs with bigger
      · rw [stored, AList.lookup_insert, Option.map_some, Int.max_eq_right (Int.le_of_lt bigger)]
      · rw [old, Int.max_eq_left (Int.not_lt.mp bigger)]
    · rw [if_neg same]
      split_ifs
      · rw [stored, AList.lookup_insert_ne same, stored]
      · rfl
  next missing =>
    split_ifs with same
    · rw [same, stored, missing]
      rfl
    · rfl

theorem isLower_iff {id : String} {inoffset : Int} :
    o.isLower id inoffset ↔ ∃ x, stored o id = some x ∧ inoffset < x := by
  rw [isLower]
  split
  next gt found => simp [stored, found]
  next missing => simp [stored, missing]

end OffsetMap

/-! ### Offers -/

inductive OffsetCall where
  | addIfBigger (omark : OffsetMarker)
  | updateOffsetIfBigger (id : String) (inoffset : Int)

def call (o : OffsetMap) : OffsetCall → OffsetMap
  | .addIfBigger omark => o.addIfBigger omark
  | .updateOffsetIfBigger id inoffset => (o.updateOffsetIfBigger id inoffset).1

def afterCalls (calls : List OffsetCall) : OffsetMap := calls.foldl call ∅

/-- The offsets that calls, given last to first, offered for an id: those of `AddIfBigger`, and of
`UpdateOffsetIfBigger` once there was one. -/
def offers (id : String) : List OffsetCall → List Int
  | [] => []
  | .addIfBigger omark :: earlier =>
    if id = omark.id then omark.offset :: offers id earlier else offers id earlier
  | .updateOffsetIfBigger id' inoffset :: earlier =>
    if id = id' ∧ offers id earlier ≠ [] then inoffset :: offers id earlier else offers id earlier

/-- The map has the maximum of what was offered for every id, and answers from it. -/
structure Maximal (o : OffsetMap) (calls : List OffsetCall) : Prop where
  stored : ∀ id, OffsetMap.stored o id = (offers id calls.reverse).max?
  isLower : ∀ id inoffset, o.isLower id inoffset ↔ ∃ x ∈ offers id calls.reverse, inoffset < x

/-- Every `AddIfBigger` offers at least what was offered before it. -/
def Ascending (calls : List OffsetCall) : Prop :=
  ∀ before omark, before ++ [.addIfBigger omark] <+: calls →
    ∀ x ∈ offers omark.id before.reverse, x ≤ omark.offset

theorem Maximal.of_stored {o : OffsetMap} {calls : List OffsetCall}
    (stored : ∀ id, OffsetMap.stored o id = (offers id calls.reverse).max?) : Maximal o calls := by
  refine ⟨stored, ?_⟩
  intro id inoffset
  rw [OffsetMap.isLower_iff, stored]
  constructor
  · rintro ⟨x, greatest, lower⟩
    exact ⟨x, List.max?_mem greatest, lower⟩
  · rintro ⟨x, mem, lower⟩
    obtain ⟨y, greatest⟩ := Option.isSome_iff_exists.mp (List.isSome_max?_of_mem mem)
    exact ⟨y, greatest, Int.lt_of_lt_of_le lower ((List.max?_eq_some_iff.mp greatest).2 x mem)⟩

/-- One call keeps the maxima when it is no `AddIfBigger` of less. -/
theorem stored_call {o : OffsetMap} {earlier : List OffsetCall}
    (maximal : ∀ id, OffsetMap.stored o id = (offers id earlier).max?) (c : OffsetCall)
    (least : ∀ omark, c = .addIfBigger omark → ∀ x ∈ offers omark.id earlier, x ≤ omark.offset)
    (id : String) : OffsetMap.stored (call o c) id = (offers id (c :: earlier)).max? := by
  cases c with
  | addIfBigger omark =>
    rw [call, OffsetMap.stored_addIfBigger, offers]
    split_ifs with same
    · subst same
      symm
      rw [List.max?_eq_some_iff]
      exact ⟨List.mem_cons_self, List.forall_mem_cons.mpr ⟨Int.le_refl _, least omark rfl⟩⟩
    · exact maximal id
  | updateOffsetIfBigger id' inoffset =>
    rw [call, OffsetMap.stored_updateOffsetIfBigger, offers]
    by_cases same : id = id'
    · subst same
      rw [if_pos rfl, maximal]
      by_cases none_ : offers id earlier = []
      · simp [none_]
      · rw [if_pos ⟨rfl, none_⟩, List.max?_cons]
        obtain ⟨y, greatest⟩ := Option.ne_none_iff_exists'.mp (mt List.max?_eq_none_iff.mp none_)
        rw [greatest, Option.map_some, Option.elim_some, Int.max_comm]
    · rw [if_neg same, if_neg fun both => same both.1, maximal]

theorem offers_subset {id : String} {earlier : List OffsetCall} (c : OffsetCall) {x : Int}
    (mem : x ∈ offers id earlier) : x ∈ offers id (c :: earlier) := by
  cases c with
  | addIfBigger omark | updateOffsetIfBigger id' inoffset =>
    rw [offers]
    split_ifs
    · exact List.mem_cons_of_mem _ mem
    · exact mem

theorem afterCalls_concat (calls : List OffsetCall) (c : OffsetCall) :
    afterCalls (calls ++ [c]) = call (afterCalls calls) c := by
  rw [afterCalls, List.foldl_append]
  rfl

theorem Ascending.of_part {calls before : List OffsetCall} (ascending : Ascending calls)
    (within : before <+: calls) : Ascending before :=
  fun earlier omark part => ascending earlier omark (part.trans within)

theorem maximal_of_ascending {calls : List OffsetCall} (ascending : Ascending calls) :
    Maximal (afterCalls calls) calls := by
  apply Maximal.of_stored
  induction calls using List.reverseRecOn with
  | nil => exact fun id => rfl
  | append_singleton calls c ih =>
    intro id
    rw [afterCalls_concat, List.reverse_append]
    refine stored_call (ih (ascending.of_part (List.prefix_append _ _))) c ?_ id
    rintro omark rfl
    exact ascending calls omark (List.prefix_refl _)

/-- The maxima after every part of some calls, and no offset that ever decreases, are exactly
what calls have that never add less than was offered before. -/
theorem offsets_maximal (calls : List OffsetCall) :
    ((∀ before, before <+: calls → Maximal (afterCalls before) before) ∧
      ∀ before c, before ++ [c] <+: calls → ∀ id x y,
        OffsetMap.stored (afterCalls before) id = some x →
        OffsetMap.stored (afterCalls (before ++ [c])) id = some y → x ≤ y) ↔
      Ascending calls := by
  constructor
  · rintro ⟨maximal, _⟩ before omark within x mem
    have stored := (maximal _ within).stored omark.id
    rw [afterCalls_concat, call, OffsetMap.stored_addIfBigger, if_pos rfl, List.reverse_append,
      List.reverse_singleton, List.singleton_append, offers, if_pos rfl] at stored
    exact (List.max?_eq_some_iff.mp stored.symm).2 x (List.mem_cons_of_mem _ mem)
  · intro ascending
    have maximal : ∀ before, before <+: calls → Maximal (afterCalls before) before :=
      fun before within => maximal_of_ascending (ascending.of_part within)
    refine ⟨maximal, ?_⟩
    intro before c within id x y old new
    rw [(maximal before ((List.prefix_append _ _).trans within)).stored] at old
    rw [(maximal _ within).stored, List.reverse_append] at new
    exact (List.max?_eq_some_iff.mp new).2 x (offers_subset c (List.max?_mem old))

def markOf (offset : Int) : OffsetMarker := ⟨"a", "t", 0, offset, 0⟩

/-- A lower offset takes the place of the stored one. -/
theorem offsets_not_maximal :
    ¬Maximal (afterCalls [.addIfBigger (markOf 5), .addIfBigger (markOf 3)])
      [.addIfBigger (markOf 5), .addIfBigger (markOf 3)] := by
  intro maximal
  have stored := maximal.stored "a"
  revert stored
  decide

end Injectors
