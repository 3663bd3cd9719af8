import Cadent.Indexer.MetricRam
import Cadent.Indexer.TagRam
import Cadent.Lib.Locks

/-!
# The locks of the tag index

The calls of the tag index with the locks they take. The searches by name and by tag defer a
second `RLock` where an `RUnlock` was meant: each of them leaves two readers behind for ever, and
the next call that writes under the same lock does not return. Expressions and the comparison
without case are given by the caller, and so is the order in which a map is iterated.
-/

namespace Indexer

open Locks Maps Repr

inductive TagLock where
  | nmLock
  | uidLock
  | uidInvLoc
  deriving DecidableEq

abbrev LockedTags := Guarded TagLock TagIndex

inductive TagOp where
  | add (uid : String) (tags : List Tag)
  | deleteByUid (uid : String)
  | findTagsByUid (uid : String)
  | getTagsByName (nm : String)
  | findTagValuesByName (nm : String)
  | findTagsByValue (nm value : String)
  | getTagsByNameValue (nm value : String)
  | findUidByTag (tag : Tag)
  | findUidByTags (tags : List Tag)

inductive TagAnswer where
  | done
  | tags (tags : Except String (List Tag))
  | texts (texts : Except String (List String))

/-! ### Searches by name -/

section Searches

variable (compile : String → Except String (String → Bool)) (equalFold : String → String → Bool)
  (range : List (String × List String) → List (String × List String)) (tv : TagIndex)

/-- The names that match an expression, with their values, in the order of iteration. -/
def matchingNames (nm : String) : Except String (List (String × List String)) :=
  (compile (fullRegString nm)).map fun reg =>
    (range (tv.nameIndex.entries.map fun e => (e.1, e.2))).filter fun e => reg e.1

def tagsByName (nm : String) : Except String (List Tag) :=
  match if needRegex nm then none else tv.nameIndex.lookup nm with
  | some g => .ok (g.map (⟨nm, ·⟩))
  | none => (matchingNames compile range tv nm).map fun es =>
      es.flatMap fun e => e.2.map (⟨e.1, ·⟩)

def tagValuesByName (nm : String) : Except String (List String) :=
  match if needRegex nm then none else tv.nameIndex.lookup nm with
  | some g => .ok g
  | none => (matchingNames compile range tv nm).map fun es => es.flatMap (·.2)

/-- What `FindTagsByValue` and `GetTagsByNameValue` both answer. -/
def tagsByValue (nm value : String) : Except String (List Tag) :=
  match tv.nameIndex.lookup nm with
  | none => .ok []
  | some gotNm =>
    if needRegex value then
      (compile (fullRegString value)).map fun reg => (gotNm.filter fun v => reg v).map (⟨nm, ·⟩)
    else .ok ((gotNm.filter fun v => equalFold v value).map (⟨nm, ·⟩))

end Searches

/-! ### The calls with their locks -/

namespace LockedTags

/-- The first section of the loop of `Add`: the first tag of a uid. -/
def addFirst (uid : String) (t : Tag) : LockedTags Bool :=
  exclusive .uidInvLoc do
    let isNew ← reading fun tv => (tv.uidInvertIndex.lookup uid).isNone
    if isNew then
      exclusive .uidLock (changing fun tv =>
        { tv with uidIndex := tv.uidIndex.insert (t.join "=") [uid] })
      changing fun tv => { tv with uidInvertIndex := tv.uidInvertIndex.insert uid [t] }
    return isNew

/-- The second section: the name and its value. -/
def addName (t : Tag) : LockedTags Unit :=
  exclusive .nmLock (changing fun tv => { tv with
    nameIndex := tv.nameIndex.insert t.name (appendNew (listAt tv.nameIndex t.name) t.value) })

/-- The last sections: one more tag of a uid. -/
def addMore (uid : String) (t : Tag) : LockedTags Unit := do
  exclusive .uidInvLoc (changing fun tv =>
    { tv with uidInvertIndex := push tv.uidInvertIndex uid t })
  exclusive .uidLock (changing fun tv => { tv with uidIndex := push tv.uidIndex (t.join "=") uid })

def addTag (uid : String) (t : Tag) : LockedTags Unit := do
  let isNew ← addFirst uid t
  addName t
  if !isNew then addMore uid t

def add (uid : String) : List Tag → LockedTags Unit
  | [] => return ()
  | t :: tags => do
    addTag uid t
    add uid tags

def deleteByUid (uid : String) : LockedTags Unit :=
  exclusive .uidInvLoc (exclusive .uidLock (changing (·.deleteByUid uid)))

variable (compile : String → Except String (String → Bool)) (equalFold : String → String → Bool)
  (range : List (String × List String) → List (String × List String))

def perform : TagOp → LockedTags TagAnswer
  | .add uid tags => do
    add uid tags
    return .done
  | .deleteByUid uid => do
    deleteByUid uid
    return .done
  | .findTagsByUid uid =>
    deferring .uidInvLoc RWMutex.rUnlock (reading fun tv => .tags (.ok (tv.findTagsByUid uid)))
  | .getTagsByName nm =>
    deferring .nmLock RWMutex.rLock (reading fun tv => .tags (tagsByName compile range tv nm))
  | .findTagValuesByName nm =>
    deferring .nmLock RWMutex.rLock (reading fun tv => .texts (tagValuesByName compile range tv nm))
  | .findTagsByValue nm value =>
    deferring .nmLock RWMutex.rLock
      (reading fun tv => .tags (tagsByValue compile equalFold tv nm value))
  | .getTagsByNameValue nm value =>
    deferring .nmLock RWMutex.rLock
      (reading fun tv => .tags (tagsByValue compile equalFold tv nm value))
  | .findUidByTag tag =>
    deferring .uidLock RWMutex.rLock (reading fun tv => .texts (.ok (tv.findUidByTag tag)))
  | .findUidByTags tags =>
    deferring .uidLock RWMutex.rLock (reading fun tv => .texts (.ok (tv.findUidByTags tags)))

/-! ### What one call does to the locks -/

section Calls

variable {tv : TagIndex} {ls : TagLock → RWMutex} {uid : String} {t : Tag}

theorem uidLock_inside (ls : TagLock → RWMutex) :
    Function.update ls .uidInvLoc .held .uidLock = ls .uidLock :=
  Function.update_of_ne (by decide) _ _

theorem addFirst_new (new : (tv.uidInvertIndex.lookup uid).isNone) (inv : ls .uidInvLoc = .free)
    (uids : ls .uidLock = .free) : addFirst uid t (tv, ls) = some (true, { tv with
      uidIndex := tv.uidIndex.insert (t.join "=") [uid]
      uidInvertIndex := tv.uidInvertIndex.insert uid [t] }, ls) := by
  have huids := (uidLock_inside ls).trans uids
  apply exclusive_returns inv
  rw [bind_returns (a := true) (congrArg (fun isNew => some (isNew, _)) new)]
  exact bind_returns (exclusive_changing huids _)

theorem addFirst_new_blocks (new : (tv.uidInvertIndex.lookup uid).isNone)
    (inv : ls .uidInvLoc = .free) (uids : ls .uidLock ≠ .free) :
    addFirst uid t (tv, ls) = none := by
  rw [← uidLock_inside ls] at uids
  apply exclusive_blocks_inside inv
  rw [bind_returns (a := true) (congrArg (fun isNew => some (isNew, _)) new)]
  exact bind_blocks (exclusive_blocks uids)

theorem addFirst_known (known : (tv.uidInvertIndex.lookup uid).isNone = false)
    (inv : ls .uidInvLoc = .free) : addFirst uid t (tv, ls) = some (false, tv, ls) := by
  apply exclusive_returns inv
  exact bind_returns (a := false) (congrArg (fun isNew => some (isNew, _)) known)

theorem addName_returns (names : ls .nmLock = .free) : addName t (tv, ls) = some ((), { tv with
    nameIndex := tv.nameIndex.insert t.name (appendNew (listAt tv.nameIndex t.name) t.value) },
    ls) :=
  exclusive_changing names _

theorem addMore_returns (inv : ls .uidInvLoc = .free) (uids : ls .uidLock = .free) :
    addMore uid t (tv, ls) = some ((), { tv with
      uidInvertIndex := push tv.uidInvertIndex uid t
      uidIndex := push tv.uidIndex (t.join "=") uid }, ls) := by
  rw [addMore, bind_returns (exclusive_changing inv _)]
  exact exclusive_changing uids _

theorem addMore_blocks (inv : ls .uidInvLoc = .free) (uids : ls .uidLock ≠ .free) :
    addMore uid t (tv, ls) = none := by
  rw [addMore, bind_returns (exclusive_changing inv _)]
  exact exclusive_blocks uids

/-- With all locks free a tag is added and all locks are free again. -/
theorem addTag_returns (free : ∀ l, ls l = .free) :
    addTag uid t (tv, ls) = some ((), tv.addTag uid t, ls) := by
  cases new : (tv.uidInvertIndex.lookup uid).isNone with
  | true =>
    rw [addTag, bind_returns (addFirst_new new (free _) (free _)),
      bind_returns (addName_returns (free _)), TagIndex.addTag]
    simp only [new]
    rfl
  | false =>
    rw [addTag, bind_returns (addFirst_known new (free _)),
      bind_returns (addName_returns (free _)), TagIndex.addTag]
    simp only [new]
    exact addMore_returns (free _) (free _)

/-- A tag needs both locks, whether its uid is known or not. -/
theorem addTag_blocks (inv : ls .uidInvLoc = .free)
    (taken : ls .nmLock ≠ .free ∨ ls .uidLock ≠ .free) : addTag uid t (tv, ls) = none := by
  by_cases names : ls .nmLock = .free
  · have uids := taken.resolve_left (not_not.mpr names)
    cases new : (tv.uidInvertIndex.lookup uid).isNone with
    | true => exact bind_blocks (addFirst_new_blocks new inv uids)
    | false =>
      rw [addTag, bind_returns (addFirst_known new inv), bind_returns (addName_returns names)]
      exact addMore_blocks inv uids
  · cases new : (tv.uidInvertIndex.lookup uid).isNone with
    | true =>
      by_cases uids : ls .uidLock = .free
      · rw [addTag, bind_returns (addFirst_new new inv uids)]
        exact bind_blocks (exclusive_blocks names)
      · exact bind_blocks (addFirst_new_blocks new inv uids)
    | false =>
      rw [addTag, bind_returns (addFirst_known new inv)]
      exact bind_blocks (exclusive_blocks names)

theorem add_returns (free : ∀ l, ls l = .free) (tags : List Tag) :
    add uid tags (tv, ls) = some ((), tv.add uid tags, ls) := by
  induction tags generalizing tv with
  | nil => rfl
  | cons t tags ih =>
    rw [add, bind_returns (addTag_returns free), ih]
    rfl

theorem add_blocks (inv : ls .uidInvLoc = .free) (taken : ls .nmLock ≠ .free ∨ ls .uidLock ≠ .free)
    {tags : List Tag} (some : tags ≠ []) : add uid tags (tv, ls) = none := by
  rcases tags with _ | ⟨t, tags⟩
  · exact absurd rfl some
  · exact bind_blocks (addTag_blocks inv taken)

theorem deleteByUid_returns (inv : ls .uidInvLoc = .free) (uids : ls .uidLock = .free) :
    deleteByUid uid (tv, ls) = some ((), tv.deleteByUid uid, ls) := by
  have huids := (uidLock_inside ls).trans uids
  exact exclusive_returns inv (exclusive_changing huids _)

theorem deleteByUid_blocks (inv : ls .uidInvLoc = .free) (uids : ls .uidLock ≠ .free) :
    deleteByUid uid (tv, ls) = none := by
  rw [← uidLock_inside ls] at uids
  exact exclusive_blocks_inside inv (exclusive_blocks uids)

end Calls

end LockedTags

/-! ### Calls one after another -/

namespace TagOp

/-- The lock under which a call searches by name or by tag. -/
def searched : TagOp → Option TagLock
  | .add _ _ | .deleteByUid _ | .findTagsByUid _ => none
  | .getTagsByName _ | .findTagValuesByName _ | .findTagsByValue _ _ | .getTagsByNameValue _ _ =>
    some .nmLock
  | .findUidByTag _ | .findUidByTags _ => some .uidLock

/-- The locks under which a call changes the index. -/
def written : TagOp → List TagLock
  | .add _ [] => []
  | .add _ (_ :: _) => [.uidInvLoc, .uidLock, .nmLock]
  | .deleteByUid _ => [.uidInvLoc, .uidLock]
  | _ => []

/-- The locks that a call leaves behind. -/
def leaves (op : TagOp) (ls : TagLock → RWMutex) : TagLock → RWMutex :=
  match op.searched with
  | none => ls
  | some l => Function.update ls l { ls l with readers := (ls l).readers + 2 }

end TagOp

/-- Locks between calls: nobody writes, and the tags of uids are not being read. -/
structure Settled (ls : TagLock → RWMutex) : Prop where
  quiet : ∀ l, (ls l).writer = false
  inv : ls .uidInvLoc = .free

theorem settled_free : Settled fun _ => .free := ⟨fun _ => rfl, rfl⟩

variable (compile : String → Except String (String → Bool)) (equalFold : String → String → Bool)
  (range : List (String × List String) → List (String × List String))

/-- The index after a call. -/
def TagOp.result (tv : TagIndex) : TagOp → TagIndex
  | .add uid tags => tv.add uid tags
  | .deleteByUid uid => tv.deleteByUid uid
  | _ => tv

theorem perform_returns (tv : TagIndex) {ls : TagLock → RWMutex} (settled : Settled ls) (op : TagOp)
    (free : ∀ l ∈ op.written, ls l = .free) : ∃ answer,
      LockedTags.perform compile equalFold range op (tv, ls) =
        some (answer, op.result tv, op.leaves ls) := by
  have hsearch : ∀ (l : TagLock) (f : TagIndex → TagAnswer), ∃ answer,
      deferring l RWMutex.rLock (reading f) (tv, ls) = some (answer, tv,
        Function.update ls l { ls l with readers := (ls l).readers + 2 }) := by
    intro l f
    refine ⟨f tv, deferring_returns f (settled.quiet l) ?_⟩
    simp only [RWMutex.rLock, settled.quiet l]
    rfl
  cases op with
  | add uid tags =>
    rcases tags with _ | ⟨t, tags⟩
    · exact ⟨.done, rfl⟩
    · refine ⟨.done, bind_returns (LockedTags.add_returns (fun l => ?_) _)⟩
      cases l <;> exact free _ (by simp [TagOp.written])
  | deleteByUid uid =>
    refine ⟨.done, bind_returns (LockedTags.deleteByUid_returns settled.inv ?_)⟩
    exact free _ (by simp [TagOp.written])
  | findTagsByUid uid =>
    refine ⟨.tags (.ok (tv.findTagsByUid uid)), ?_⟩
    have hlast : RWMutex.rUnlock { ls .uidInvLoc with readers := (ls .uidInvLoc).readers + 1 } =
        some (ls .uidInvLoc) := rfl
    refine (deferring_returns _ (settled.quiet _) hlast).trans ?_
    rw [Function.update_eq_self]
    rfl
  | getTagsByName nm | findTagValuesByName nm | findTagsByValue nm value
  | getTagsByNameValue nm value | findUidByTag tag | findUidByTags tags => exact hsearch _ _

theorem perform_blocks (tv : TagIndex) {ls : TagLock → RWMutex} (settled : Settled ls) {op : TagOp}
    (taken : ¬ ∀ l ∈ op.written, ls l = .free) :
    LockedTags.perform compile equalFold range op (tv, ls) = none := by
  cases op with
  | add uid tags =>
    rcases tags with _ | ⟨t, tags⟩
    · exact absurd (fun l mem => nomatch mem) taken
    · refine bind_blocks (LockedTags.add_blocks settled.inv ?_ (List.cons_ne_nil _ _))
      simp only [TagOp.written, List.forall_mem_cons, settled.inv, true_and, not_and_or] at taken
      rcases taken with uids | names | other
      · exact .inr uids
      · exact .inl names
      · exact absurd (fun l mem => nomatch mem) other
  | deleteByUid uid =>
    refine bind_blocks (LockedTags.deleteByUid_blocks settled.inv ?_)
    simp only [TagOp.written, List.forall_mem_cons, settled.inv, true_and, not_and_or] at taken
    exact taken.resolve_right (not_not.mpr fun l mem => nomatch mem)
  | findTagsByUid _ | getTagsByName _ | findTagValuesByName _ | findTagsByValue _ _
  | getTagsByNameValue _ _ | findUidByTag _ | findUidByTags _ =>
    exact absurd (fun l mem => nomatch mem) taken

theorem Settled.leaves {ls : TagLock → RWMutex} (settled : Settled ls) (op : TagOp) :
    Settled (op.leaves ls) := by
  have hadd : ∀ l, l ≠ .uidInvLoc →
      Settled (Function.update ls l { ls l with readers := (ls l).readers + 2 }) := by
    intro l other
    refine ⟨fun l' => ?_, (Function.update_of_ne (Ne.symm other) _ _).trans settled.inv⟩
    by_cases same : l' = l
    · subst same
      rw [Function.update_self]
      exact settled.quiet l'
    · rw [Function.update_of_ne same]
      exact settled.quiet l'
  rw [TagOp.leaves]
  cases op with
  | add _ _ | deleteByUid _ | findTagsByUid _ => exact settled
  | getTagsByName _ | findTagValuesByName _ | findTagsByValue _ _ | getTagsByNameValue _ _ =>
    exact hadd .nmLock (by decide)
  | findUidByTag _ | findUidByTags _ => exact hadd .uidLock (by decide)

/-- Each call returns and leaves all locks free. -/
def Releases (tv : TagIndex) : List TagOp → Prop
  | [] => True
  | op :: ops => ∃ answer tv', LockedTags.perform compile equalFold range op (tv, fun _ => .free) =
      some (answer, tv', fun _ => .free) ∧ Releases tv' ops

/-- The answers of calls that are made one after another, if all of them return. -/
def performAll : List TagOp → LockedTags (List TagAnswer)
  | [] => return []
  | op :: ops => do
    let answer ← LockedTags.perform compile equalFold range op
    let answers ← performAll ops
    return answer :: answers

theorem leaves_eq_free_iff (op : TagOp) (ls : TagLock → RWMutex) (l : TagLock) :
    op.leaves ls l = .free ↔ ls l = .free ∧ op.searched ≠ some l := by
  rcases search : op.searched with _ | l'
  · simp [TagOp.leaves, search]
  · simp only [TagOp.leaves, search]
    by_cases same : l = l'
    · subst same
      rw [Function.update_self]
      constructor
      · intro free
        cases free
      · rintro ⟨_, other⟩
        exact absurd rfl other
    · simp [Function.update_of_ne same, Ne.symm same]

theorem leaves_free_iff (op : TagOp) :
    (op.leaves fun _ => .free) = (fun _ => RWMutex.free) ↔ op.searched = none := by
  rw [funext_iff, Option.eq_none_iff_forall_ne_some]
  exact forall_congr' fun l => (leaves_eq_free_iff op _ l).trans (and_iff_right rfl)

theorem releases_iff (tv : TagIndex) (ops : List TagOp) :
    Releases compile equalFold range tv ops ↔ ∀ op ∈ ops, op.searched = none := by
  induction ops generalizing tv with
  | nil => simp [Releases]
  | cons op ops ih =>
    obtain ⟨answer, returned⟩ :=
      perform_returns compile equalFold range tv settled_free op fun _ _ => rfl
    rw [List.forall_mem_cons, ← leaves_free_iff, ← ih (op.result tv), Releases, returned]
    constructor
    · rintro ⟨answer', tv', same, rest⟩
      simp only [Option.some.injEq, Prod.mk.injEq] at same
      obtain ⟨_, rfl, free⟩ := same
      exact ⟨free, rest⟩
    · rintro ⟨free, rest⟩
      exact ⟨answer, op.result tv, by rw [free], rest⟩

/-- Calls return unless one of them writes under a lock that is read, now or by then. -/
theorem performAll_isSome_iff (tv : TagIndex) {ls : TagLock → RWMutex} (settled : Settled ls)
    (ops : List TagOp) : (performAll compile equalFold range ops (tv, ls)).isSome ↔
      (∀ op ∈ ops, ∀ l ∈ op.written, ls l = .free) ∧
        ops.Pairwise fun earlier later => ∀ l ∈ earlier.searched, l ∉ later.written := by
  induction ops generalizing tv ls with
  | nil =>
    have hdone : performAll compile equalFold range [] (tv, ls) = some ([], tv, ls) := rfl
    simp [hdone]
  | cons op ops ih =>
    rw [List.forall_mem_cons, List.pairwise_cons]
    by_cases free : ∀ l ∈ op.written, ls l = .free
    · obtain ⟨answer, returned⟩ := perform_returns compile equalFold range tv settled op free
      have hrest : (performAll compile equalFold range (op :: ops) (tv, ls)).isSome ↔
          (performAll compile equalFold range ops (op.result tv, op.leaves ls)).isSome := by
        rw [performAll, bind_returns returned]
        rcases later : performAll compile equalFold range ops (op.result tv, op.leaves ls) with
          _ | ⟨answers, s⟩
        · rw [bind_blocks later]
        · rw [bind_returns later]
          rfl
      rw [hrest, ih _ (settled.leaves op)]
      simp only [leaves_eq_free_iff, Option.mem_def]
      constructor
      · rintro ⟨free', apart⟩
        refine ⟨⟨free, fun op' mem l written => (free' op' mem l written).1⟩, ?_, apart⟩
        intro op' mem l searched written
        exact (free' op' mem l written).2 searched
      · rintro ⟨⟨_, free'⟩, apart, apart'⟩
        refine ⟨fun op' mem l written => ⟨free' op' mem l written, ?_⟩, apart'⟩
        intro searched
        exact apart op' mem l searched written
    · have hblocks : performAll compile equalFold range (op :: ops) (tv, ls) = none :=
        bind_blocks (perform_blocks compile equalFold range tv settled free)
      simp [hblocks, free]

/-- The locks are free after every call when none of them searches by name or by tag, and all
calls return when none of them writes under a lock that an earlier one has searched under. -/
theorem tag_locks_released_iff (tv : TagIndex) (ops : List TagOp) :
    (Releases compile equalFold range tv ops ↔ ∀ op ∈ ops, op.searched = none) ∧
      ((performAll compile equalFold range ops (tv, fun _ => .free)).isSome ↔
        ops.Pairwise fun earlier later => ∀ l ∈ earlier.searched, l ∉ later.written) := by
  refine ⟨releases_iff compile equalFold range tv ops, ?_⟩
  rw [performAll_isSome_iff compile equalFold range tv settled_free]
  simp

/-- A search by name leaves two readers, and the next `Add` does not return. -/
theorem search_blocks_add :
    let compile : String → Except String (String → Bool) := fun _ => .error "no expressions"
    let locks := ((LockedTags.perform compile (· == ·) id (.getTagsByName "host")
      (.new, fun _ => .free)).map fun r => r.2.2 .nmLock)
    locks = some ⟨2, false⟩ ∧
      (performAll compile (· == ·) id [.getTagsByName "host", .add "u" [⟨"host", "a"⟩]]
        (.new, fun _ => .free)).isNone := by
  decide

end Indexer
