import Cadent.Lib.Assoc
import Cadent.Lib.Maps
import Cadent.Lib.Text

/-!
# The trie

A tree of path segments with values at some of its nodes; `none` is Go's nil. A node belongs
to its parent alone, so the tree is a value here and the locks, which keep calls apart, are
left out. The loops over the segments of a key are recursions on the list of segments.
-/

namespace Utils

open Maps Text

inductive Tree (V : Type) where
  | node (value : Option V) (children : List (String × Tree V))

section Trees

variable {V : Type}

namespace Tree

def newTree : Tree V := .node none []

def value : Tree V → Option V
  | .node value _ => value

def children : Tree V → List (String × Tree V)
  | .node _ children => children

def child (t : Tree V) (part : String) : Option (Tree V) := Assoc.get part t.children

def setChild (t : Tree V) (part : String) (child : Tree V) : Tree V :=
  .node t.value (Assoc.set part child t.children)

def deleteChild (t : Tree V) (part : String) : Tree V :=
  .node t.value (Assoc.erase part t.children)

def setValue (t : Tree V) (value : Option V) : Tree V := .node value t.children

/-- The loop of `Put`: the tree with the value, and whether there was none. -/
def put (v : V) : List String → Tree V → Tree V × Bool
  | [], t => (t, false)
  | [part], t =>
    let child := (t.child part).getD newTree
    (t.setChild part (child.setValue (some v)), child.value.isNone)
  | part :: parts, t =>
    let (child, new) := put v parts ((t.child part).getD newTree)
    (t.setChild part child, new)

/-- The loop of `Get`. -/
def get : List String → Tree V → Option V
  | [], _ => none
  | [part], t => (t.child part).bind value
  | part :: parts, t => (t.child part).bind (get parts)

/-- The loop of `Pop`: the tree without the value, and the value. -/
def pop : List String → Tree V → Tree V × Option V
  | [], t => (t, none)
  | [part], t =>
    match t.child part with
    | none => (t, none)
    | some child =>
      if child.children.isEmpty then (t.deleteChild part, child.value)
      else (t.setChild part (child.setValue none), child.value)
  | part :: parts, t =>
    match t.child part with
    | none => (t, none)
    | some child =>
      let (child, value) := pop parts child
      (t.setChild part child, value)

mutual

/-- The assignments that `_map` makes to its result, those to the results of the children
included. -/
def assignments (delim : String) (keys : List String) : Tree V → List (String × V)
  | .node value children =>
    (value.map fun v => (String.intercalate delim keys, v)).toList ++
      assignmentsOf delim keys children

def assignmentsOf (delim : String) (keys : List String) : List (String × Tree V) →
    List (String × V)
  | [] => []
  | (segment, child) :: rest =>
    child.assignments delim (keys ++ [segment]) ++ assignmentsOf delim keys rest

end

end Tree

/-- What a search ends at: the map of the children of a node that has some, or its value. -/
inductive Found (V : Type) where
  | children (children : List (String × Tree V))
  | value (value : Option V)

namespace Tree

def found (t : Tree V) : Found V :=
  if t.children.isEmpty then .value t.value else .children t.children

/-- The assignments that `_children` makes to its result. The part after the last one is the
case of a call without parts. -/
def childrenOf (delim : String) (keys : List String) : List String → Tree V →
    List (String × Found V)
  | [], t => [(String.intercalate delim keys, t.found)]
  | part :: parts, t =>
    if part = "*" then
      t.children.flatMap fun e => childrenOf delim (keys ++ [e.1]) parts e.2
    else
      match t.child part with
      | none => []
      | some child => childrenOf delim (keys ++ [part]) parts child

end Tree

end Trees

structure Trie (V : Type) where
  root : Tree V
  delim : String
  length : Int

def new {V : Type} (delim : String) : Trie V :=
  ⟨.newTree, if delim = "" then "." else delim, 0⟩

namespace Trie

variable {V : Type} (tr : Trie V)

def len : Int := tr.length

def put (key : String) (value : V) : Trie V :=
  let (root, new) := tr.root.put value (split key tr.delim)
  { tr with root := root, length := if new then tr.length + 1 else tr.length }

def get (key : String) : Option V := tr.root.get (split key tr.delim)

def has (key : String) : Bool := (tr.get key).isSome

def pop (key : String) : Trie V × Option V :=
  let (root, value) := tr.root.pop (split key tr.delim)
  ({ tr with root := root, length := if value.isSome then tr.length - 1 else tr.length }, value)

def clear : Trie V := { tr with root := .node tr.root.value [], length := 0 }

def map : Map String V := assign (tr.root.assignments tr.delim [])

def children (pattern : String) : Map String (Found V) :=
  assign (tr.root.childrenOf tr.delim [] (split pattern tr.delim))

/-- Neither the children of a node nor a value is a map of values, so `_childrenFlat` copies
every entry. -/
def childrenFlat (pattern : String) : Map String (Found V) :=
  assign ((tr.children pattern).entries.map fun e => (e.1, e.2))

end Trie

/-! ### The values of a tree -/

namespace Tree

variable {V : Type}

/-- The value at the end of a path. -/
def at? : List String → Tree V → Option V
  | [], t => t.value
  | part :: parts, t => (t.child part).bind (at? parts)

theorem at?_setChild (t c : Tree V) (part p : String) (path : List String) :
    (t.setChild part c).at? (p :: path) =
      if p = part then c.at? path else t.at? (p :: path) := by
  have found := Assoc.get_set part p c t.children
  rw [at?, child, setChild, children, found]
  split_ifs <;> rfl

theorem at?_deleteChild (t : Tree V) (part p : String) (path : List String) :
    (t.deleteChild part).at? (p :: path) = if p = part then none else t.at? (p :: path) := by
  have found := Assoc.get_erase part p t.children
  rw [at?, child, deleteChild, children, found]
  split_ifs <;> rfl

theorem at?_newTree (path : List String) : (newTree : Tree V).at? path = none := by
  cases path <;> rfl

theorem at?_getD (t : Option (Tree V)) (path : List String) :
    (t.getD newTree).at? path = t.bind (at? path) := by
  cases t with
  | none => exact at?_newTree path
  | some t => rfl

theorem at?_of_leaf {t : Tree V} (leaf : t.children.isEmpty) (part : String)
    (path : List String) : t.at? (part :: path) = none := by
  rw [at?, child, List.isEmpty_iff.mp leaf]
  rfl

theorem get_eq_at? {parts : List String} (some : parts ≠ []) (t : Tree V) :
    t.get parts = t.at? parts := by
  induction parts generalizing t with
  | nil => exact absurd rfl some
  | cons part parts ih =>
    rcases parts with _ | ⟨next, parts⟩
    · rfl
    · rw [get, at?]
      · exact Option.bind_congr fun child _ => ih (List.cons_ne_nil _ _) child
      · simp

theorem put_cons (v : V) (part next : String) (parts : List String) (t : Tree V) :
    t.put v (part :: next :: parts) =
      (t.setChild part (((t.child part).getD newTree).put v (next :: parts)).1,
        (((t.child part).getD newTree).put v (next :: parts)).2) := by
  rw [put]
  simp

theorem at?_put (v : V) {parts : List String} (nonempty : parts ≠ []) (path : List String)
    (t : Tree V) : (t.put v parts).1.at? path = if path = parts then some v else t.at? path := by
  induction parts generalizing path t with
  | nil => exact absurd rfl nonempty
  | cons part parts ih =>
    rcases path with _ | ⟨p, path⟩ <;> rcases parts with _ | ⟨next, parts⟩
    · rfl
    · rw [put_cons]
      rfl
    · rw [put, at?_setChild]
      by_cases same : p = part
      · subst same
        rcases path with _ | ⟨q, path⟩
        · simp only [if_true]
          rfl
        · rw [if_pos rfl, if_neg (by simp)]
          exact at?_getD (t.child p) (q :: path)
      · rw [if_neg same, if_neg (by simp [same])]
    · rw [put_cons, at?_setChild]
      by_cases same : p = part
      · subst same
        rw [if_pos rfl, ih (List.cons_ne_nil _ _), at?_getD, at?]
        simp only [List.cons.injEq, true_and]
      · rw [if_neg same, if_neg (by simp [same])]

/-- `Put` counts the keys that had no value. -/
theorem put_new (v : V) {parts : List String} (nonempty : parts ≠ []) (t : Tree V) :
    (t.put v parts).2 = (t.at? parts).isNone := by
  induction parts generalizing t with
  | nil => exact absurd rfl nonempty
  | cons part parts ih =>
    rcases parts with _ | ⟨next, parts⟩
    · rw [at?, ← at?_getD]
      rfl
    · rw [put_cons, at?, ← at?_getD]
      exact ih (List.cons_ne_nil _ _) _

theorem pop_cons {part : String} {t c : Tree V} (found : t.child part = some c) (next : String)
    (parts : List String) :
    t.pop (part :: next :: parts) =
      (t.setChild part (c.pop (next :: parts)).1, (c.pop (next :: parts)).2) := by
  rw [pop, found]
  simp

theorem pop_value {parts : List String} (nonempty : parts ≠ []) (t : Tree V) :
    (t.pop parts).2 = t.at? parts := by
  induction parts generalizing t with
  | nil => exact absurd rfl nonempty
  | cons part parts ih =>
    rcases found : t.child part with _ | c
    · rcases parts with _ | ⟨next, parts⟩
      · rw [pop, at?, found]
        rfl
      · rw [pop, at?, found]
        · rfl
        · simp
    · rcases parts with _ | ⟨next, parts⟩
      · rw [pop, at?, found]
        dsimp only
        split_ifs <;> rfl
      · rw [pop_cons found, at?, found]
        exact ih (List.cons_ne_nil _ _) c

theorem at?_pop_last {part : String} {t c : Tree V} (found : t.child part = some c) (p : String)
    (path : List String) :
    (t.pop [part]).1.at? (p :: path) =
      if p = part then (if path = [] then none else c.at? path) else t.at? (p :: path) := by
  rw [pop, found]
  dsimp only
  split_ifs with leaf same last same <;> first | rw [at?_deleteChild] | rw [at?_setChild]
  · rw [if_pos same]
  · rcases path with _ | ⟨q, path⟩
    · exact absurd rfl last
    · rw [if_pos same, at?_of_leaf leaf]
  · rw [if_neg same]
  · rw [if_pos ‹_›, ‹path = []›]
    rfl
  · rcases path with _ | ⟨q, path⟩
    · exact absurd rfl ‹_›
    · rw [if_pos ‹_›]
      rfl
  · rw [if_neg ‹_›]

theorem value_pop (parts : List String) (t : Tree V) : (t.pop parts).1.value = t.value := by
  rcases parts with _ | ⟨part, parts⟩
  · rfl
  rcases found : t.child part with _ | c <;> rcases parts with _ | ⟨next, parts⟩
  · simp only [pop, found]
  · simp only [pop, found]
  · rw [pop, found]
    dsimp only
    split_ifs <;> rfl
  · rw [pop_cons found]
    rfl

theorem pop_missing {part : String} {t : Tree V} (missing : t.child part = none)
    (parts : List String) : t.pop (part :: parts) = (t, none) := by
  rcases parts with _ | ⟨next, parts⟩ <;> simp [pop, missing]

theorem at?_pop {parts : List String} (nonempty : parts ≠ []) (path : List String) (t : Tree V) :
    (t.pop parts).1.at? path = if path = parts then none else t.at? path := by
  induction parts generalizing path t with
  | nil => exact absurd rfl nonempty
  | cons part parts ih =>
    rcases path with _ | ⟨p, path⟩
    · exact value_pop _ t
    rcases found : t.child part with _ | c
    · have absent : t.at? (part :: parts) = none := by rw [at?, found, Option.bind_none]
      rw [pop_missing found]
      split_ifs with same
      · rw [same, absent]
      · rfl
    by_cases same : p = part
    · subst same
      rcases parts with _ | ⟨next, parts⟩
      · rw [at?_pop_last found, if_pos rfl, at?, found, Option.bind_some]
        simp only [List.cons.injEq, true_and]
      · rw [pop_cons found, at?_setChild, if_pos rfl, ih (List.cons_ne_nil _ _), at?, found,
          Option.bind_some]
        simp only [List.cons.injEq, true_and]
    · rw [if_neg (by simp [same])]
      rcases parts with _ | ⟨next, parts⟩
      · rw [at?_pop_last found, if_neg same]
      · rw [pop_cons found, at?_setChild, if_neg same]

/-! ### The paths of a tree -/

mutual

/-- The paths to the values of a tree. -/
def paths : Tree V → List (List String × V)
  | .node value children => (value.map fun v => ([], v)).toList ++ pathsOf children

def pathsOf : List (String × Tree V) → List (List String × V)
  | [] => []
  | (segment, child) :: rest =>
    child.paths.map (fun e => (segment :: e.1, e.2)) ++ pathsOf rest

end

mutual

/-- `_map` joins the paths. -/
theorem assignments_eq (delim : String) (keys : List String) : (t : Tree V) →
    t.assignments delim keys =
      t.paths.map fun e => (String.intercalate delim (keys ++ e.1), e.2)
  | .node value children => by
    rw [assignments, paths, List.map_append, assignmentsOf_eq delim keys children]
    cases value <;> simp

theorem assignmentsOf_eq (delim : String) (keys : List String) : (l : List (String × Tree V)) →
    assignmentsOf delim keys l =
      (pathsOf l).map fun e => (String.intercalate delim (keys ++ e.1), e.2)
  | [] => rfl
  | (segment, child) :: rest => by
    rw [assignmentsOf, pathsOf, List.map_append, assignmentsOf_eq delim keys rest,
      assignments_eq delim (keys ++ [segment]) child]
    simp

end

theorem mem_pathsOf {l : List (String × Tree V)} {path : List String} {v : V} :
    (path, v) ∈ pathsOf l ↔ ∃ e ∈ l, ∃ rest, path = e.1 :: rest ∧ (rest, v) ∈ e.2.paths := by
  induction l with
  | nil => simp [pathsOf]
  | cons e l ih =>
    rw [pathsOf, List.mem_append, ih, List.exists_mem_cons_iff]
    refine or_congr ?_ Iff.rfl
    simp only [List.mem_map, Prod.mk.injEq, Prod.exists]
    constructor
    · rintro ⟨rest, _, mem, rfl, rfl⟩
      exact ⟨rest, rfl, mem⟩
    · rintro ⟨rest, rfl, mem⟩
      exact ⟨rest, v, mem, rfl, rfl⟩

/-- A node has one child of a name, and every name is as `P` says. -/
inductive Named (P : String → Prop) : Tree V → Prop
  | node {value : Option V} {children : List (String × Tree V)}
    (nodup : (children.map Prod.fst).Nodup) (names : ∀ e ∈ children, P e.1)
    (named : ∀ e ∈ children, Named P e.2) : Named P (.node value children)

namespace Named

variable {P : String → Prop} {t c : Tree V} {part : String} {parts : List String}

theorem newTree : (newTree : Tree V).Named P := .node List.nodup_nil nofun nofun

theorem setValue (named : t.Named P) (value : Option V) : (t.setValue value).Named P := by
  cases named with
  | node nodup names named => exact .node nodup names named

theorem child (named : t.Named P) (found : t.child part = some c) : P part ∧ c.Named P := by
  cases named with
  | node nodup names named =>
    have mem := Assoc.mem_of_get found
    exact ⟨names _ mem, named _ mem⟩

theorem child_of_mem {e : String × Tree V} (named : t.Named P) (mem : e ∈ t.children) :
    t.child e.1 = some e.2 := by
  cases named with
  | node nodup names named => exact Assoc.get_of_mem nodup mem

theorem getD (named : t.Named P) : ((t.child part).getD Tree.newTree).Named P := by
  rcases found : t.child part with _ | c
  · exact newTree
  · exact (named.child found).2

theorem setChild (named : t.Named P) (name : P part) (child : c.Named P) :
    (t.setChild part c).Named P := by
  cases named with
  | node nodup names named =>
    refine .node (Assoc.nodup_set nodup) ?_ ?_
    · intro e mem
      rcases Assoc.mem_set mem with rfl | old
      · exact name
      · exact names e old
    · intro e mem
      rcases Assoc.mem_set mem with rfl | old
      · exact child
      · exact named e old

theorem deleteChild (named : t.Named P) : (t.deleteChild part).Named P := by
  cases named with
  | @node _ children nodup names named =>
    have kept : ∀ e ∈ Assoc.erase part children, e ∈ children := fun e mem =>
      (Assoc.erase_sublist part children).mem mem
    exact .node (Assoc.nodup_erase nodup) (fun e mem => names e (kept e mem))
      fun e mem => named e (kept e mem)

theorem put (v : V) (names : ∀ part ∈ parts, P part) (named : t.Named P) :
    (t.put v parts).1.Named P := by
  induction parts generalizing t with
  | nil => exact named
  | cons part parts ih =>
    obtain ⟨here, later⟩ := List.forall_mem_cons.mp names
    rcases parts with _ | ⟨next, parts⟩
    · exact named.setChild here (named.getD.setValue _)
    · rw [put_cons]
      exact named.setChild here (ih later named.getD)

theorem pop (names : ∀ part ∈ parts, P part) (named : t.Named P) : (t.pop parts).1.Named P := by
  induction parts generalizing t with
  | nil => exact named
  | cons part parts ih =>
    obtain ⟨here, later⟩ := List.forall_mem_cons.mp names
    rcases found : t.child part with _ | c
    · rw [pop_missing found]
      exact named
    rcases parts with _ | ⟨next, parts⟩
    · rw [Tree.pop, found]
      dsimp only
      split_ifs
      · exact named.deleteChild
      · exact named.setChild here ((named.child found).2.setValue none)
    · rw [pop_cons found]
      exact named.setChild here (ih later (named.child found).2)

/-- The names on the way to a value. -/
theorem of_at? {v : V} (named : t.Named P) (found : t.at? parts = some v) :
    ∀ part ∈ parts, P part := by
  induction parts generalizing t with
  | nil => exact nofun
  | cons part parts ih =>
    obtain ⟨c, here, deeper⟩ := Option.bind_eq_some_iff.mp found
    exact List.forall_mem_cons.mpr ⟨(named.child here).1, ih (named.child here).2 deeper⟩

end Named

theorem mem_paths {P : String → Prop} {t : Tree V} (named : t.Named P) {path : List String}
    {v : V} : (path, v) ∈ t.paths ↔ t.at? path = some v := by
  induction named generalizing path with
  | @node value children nodup _ _ ih =>
    rw [paths, List.mem_append, mem_pathsOf]
    rcases path with _ | ⟨part, path⟩
    · cases value <;> simp [at?, Tree.value, eq_comm]
    · rw [at?, Option.bind_eq_some_iff]
      constructor
      · rintro (here | ⟨e, mem, rest, same, deeper⟩)
        · cases value <;> simp at here
        · obtain ⟨rfl, rfl⟩ := List.cons.inj same
          exact ⟨e.2, Assoc.get_of_mem nodup mem, (ih e mem).mp deeper⟩
      · rintro ⟨c, found, deeper⟩
        have mem := Assoc.mem_of_get found
        exact .inr ⟨(part, c), mem, path, rfl, (ih _ mem).mpr deeper⟩

end Tree

/-! ### The trie as a finite map -/

section FiniteMap

variable {V : Type}

/-- The trie and the map that it stands for. -/
structure Trie.Refines (tr : Trie V) (m : Map String V) : Prop where
  dot : tr.delim = "."
  named : tr.root.Named fun name => '.' ∉ name.toList
  unnamed : tr.root.value = none
  value : ∀ k, tr.root.at? (split k ".") = m.lookup k
  length : tr.length = m.keys.length

theorem dot : ".".toList = ['.'] := rfl

namespace Trie.Refines

variable {tr : Trie V} {m : Map String V}

theorem new : (new "." : Trie V).Refines ∅ where
  dot := rfl
  named := .newTree
  unnamed := rfl
  value _ := Tree.at?_newTree _
  length := rfl

theorem get (refines : tr.Refines m) (k : String) : tr.get k = m.lookup k := by
  rw [Trie.get, refines.dot, Tree.get_eq_at? (split_ne_nil Utils.dot k), refines.value]

theorem put (refines : tr.Refines m) (k : String) (v : V) :
    (tr.put k v).Refines (m.insert k v) := by
  have parts := split_ne_nil Utils.dot k
  have at? := fun path => Tree.at?_put v parts path tr.root
  constructor
  · exact refines.dot
  · rw [Trie.put, refines.dot]
    exact refines.named.put v fun part mem => notMem_of_mem_split Utils.dot mem
  · rw [Trie.put, refines.dot]
    exact (at? []).trans ((if_neg parts.symm).trans refines.unnamed)
  · intro k'
    rw [Trie.put, refines.dot, at?, refines.value, lookup_insert]
    simp only [split_inj Utils.dot]
  · rw [Trie.put, refines.dot, length_keys_insert, ← refines.value, ← Tree.put_new v parts,
      ← refines.length]

theorem pop_value (refines : tr.Refines m) (k : String) : (tr.pop k).2 = m.lookup k := by
  rw [Trie.pop, refines.dot, ← refines.value]
  exact Tree.pop_value (split_ne_nil Utils.dot k) tr.root

theorem pop (refines : tr.Refines m) (k : String) : (tr.pop k).1.Refines (m.erase k) := by
  have parts := split_ne_nil Utils.dot k
  constructor
  · exact refines.dot
  · rw [Trie.pop, refines.dot]
    exact refines.named.pop fun part mem => notMem_of_mem_split Utils.dot mem
  · rw [Trie.pop, refines.dot]
    exact (Tree.value_pop _ tr.root).trans refines.unnamed
  · intro k'
    rw [Trie.pop, refines.dot, Tree.at?_pop parts, refines.value, lookup_erase]
    simp only [split_inj Utils.dot]
  · rw [length_keys_erase, ← refines.pop_value k, ← refines.length]
    rfl

theorem clear (refines : tr.Refines m) : tr.clear.Refines ∅ := by
  constructor
  · exact refines.dot
  · exact .node List.nodup_nil nofun nofun
  · exact refines.unnamed
  · intro k
    obtain ⟨part, parts, same⟩ := List.exists_cons_of_ne_nil (split_ne_nil Utils.dot k)
    rw [same]
    exact Tree.at?_of_leaf rfl part parts
  · rfl

theorem map (refines : tr.Refines m) (k : String) : tr.map.lookup k = m.lookup k := by
  -- an assignment is the join of a path, which has a part because the root has no value
  have entry : ∀ k v, (k, v) ∈ tr.root.assignments "." [] ↔ m.lookup k = some v := by
    intro k v
    rw [Tree.assignments_eq, ← refines.value]
    simp only [List.nil_append, List.mem_map, Prod.mk.injEq, Prod.exists]
    constructor
    · rintro ⟨path, _, mem, rfl, rfl⟩
      have found := (Tree.mem_paths refines.named).mp mem
      rw [split_intercalate Utils.dot]
      · exact found
      · rintro rfl
        cases refines.unnamed.symm.trans found
      · exact refines.named.of_at? found
    · intro found
      exact ⟨split k ".", v, (Tree.mem_paths refines.named).mpr found,
        intercalate_split Utils.dot k, rfl⟩
  apply Option.ext
  intro v
  rw [Trie.map, refines.dot, lookup_assign, entry]
  intro v w held held'
  exact Option.some.inj (((entry k v).mp held).symm.trans ((entry k w).mp held'))

end Trie.Refines

/-- The tries that stand for a map. -/
def Trie.Sound (tr : Trie V) : Prop := ∃ m, tr.Refines m

namespace Trie.Sound

variable {tr : Trie V}

theorem new : (new "." : Trie V).Sound := ⟨∅, .new⟩

theorem put (sound : tr.Sound) (k : String) (v : V) : (tr.put k v).Sound := by
  obtain ⟨m, refines⟩ := sound
  exact ⟨_, refines.put k v⟩

theorem pop (sound : tr.Sound) (k : String) : (tr.pop k).1.Sound := by
  obtain ⟨m, refines⟩ := sound
  exact ⟨_, refines.pop k⟩

theorem get_put (sound : tr.Sound) (k k' : String) (v : V) :
    (tr.put k v).get k' = if k' = k then some v else tr.get k' := by
  obtain ⟨m, refines⟩ := sound
  rw [(refines.put k v).get, refines.get, lookup_insert]

theorem get_pop (sound : tr.Sound) (k k' : String) :
    (tr.pop k).1.get k' = if k' = k then none else tr.get k' := by
  obtain ⟨m, refines⟩ := sound
  rw [(refines.pop k).get, refines.get, lookup_erase]

theorem pops (sound : tr.Sound) (l : List String) :
    (l.foldl (fun tr k => (tr.pop k).1) tr).Sound := by
  induction l generalizing tr with
  | nil => exact sound
  | cons k l ih => exact ih (sound.pop k)

theorem get_pops (sound : tr.Sound) {l : List String} {k : String} {v : V} :
    (l.foldl (fun tr k => (tr.pop k).1) tr).get k = some v ↔ k ∉ l ∧ tr.get k = some v := by
  induction l generalizing tr with
  | nil => simp
  | cons a l ih =>
    rw [List.foldl_cons, ih (sound.pop a), sound.get_pop]
    by_cases same : k = a <;> simp [same]

end Trie.Sound

/-! ### Runs -/

inductive Call (V : Type) where
  | put (key : String) (value : V)
  | get (key : String)
  | has (key : String)
  | pop (key : String)
  | clear
  | len
  | map

/-- The trie after a call. -/
def Trie.call (tr : Trie V) : Call V → Trie V
  | .put key value => tr.put key value
  | .pop key => (tr.pop key).1
  | .clear => tr.clear
  | .get _ | .has _ | .len | .map => tr

/-- A finite map after a call. -/
def change (m : Map String V) : Call V → Map String V
  | .put key value => m.insert key value
  | .pop key => m.erase key
  | .clear => ∅
  | .get _ | .has _ | .len | .map => m

/-- The value of the last `Put` of a key that no `Pop` of it and no `Clear` follows; the calls
are given last to first. -/
def latest (k : String) : List (Call V) → Option V
  | [] => none
  | .put key value :: earlier => if k = key then some value else latest k earlier
  | .pop key :: earlier => if k = key then none else latest k earlier
  | .clear :: _ => none
  | .get _ :: earlier | .has _ :: earlier | .len :: earlier | .map :: earlier => latest k earlier

theorem Trie.Refines.call {tr : Trie V} {m : Map String V} (refines : tr.Refines m)
    (c : Call V) : (tr.call c).Refines (change m c) := by
  cases c with
  | put k v => exact refines.put k v
  | pop k => exact refines.pop k
  | clear => exact refines.clear
  | get k | has k | len | map => exact refines

theorem refines_calls (calls : List (Call V)) :
    (calls.foldl Trie.call (new ".")).Refines (calls.foldl change ∅) := by
  induction calls using List.reverseRecOn with
  | nil => exact .new
  | append_singleton calls c ih =>
    rw [List.foldl_append, List.foldl_append]
    exact ih.call c

theorem lookup_changes (calls : List (Call V)) (k : String) :
    (calls.foldl change ∅).lookup k = latest k calls.reverse := by
  induction calls using List.reverseRecOn with
  | nil => rfl
  | append_singleton calls c ih =>
    rw [List.foldl_append, List.reverse_append, List.foldl_cons, List.foldl_nil]
    cases c with
    | put key v =>
      rw [change, lookup_insert, ih]
      rfl
    | pop key =>
      rw [change, lookup_erase, ih]
      rfl
    | clear => rfl
    | get key => exact ih
    | has key => exact ih
    | len => exact ih
    | map => exact ih

/-- After every sequence of calls the trie is the finite map of the latest values: `Get`, `Has`
and `Pop` answer from it, `Pop` removes its own key and no other, `Len` counts the keys of the
map, and `Map` is the map. -/
theorem trie_finite_map (calls : List (Call V)) :
    let tr := calls.foldl Trie.call (new ".")
    (∀ k, tr.get k = latest k calls.reverse) ∧
    (∀ k, tr.has k = (latest k calls.reverse).isSome) ∧
    (∀ k, (tr.pop k).2 = tr.get k) ∧
    (∀ k k', (tr.pop k).1.get k' = if k' = k then none else tr.get k') ∧
    (∀ k, tr.map.lookup k = latest k calls.reverse) ∧
    tr.len = tr.map.keys.length := by
  intro tr
  have refines : tr.Refines (calls.foldl change ∅) := refines_calls calls
  have held := lookup_changes calls
  refine ⟨?_, ?_, ?_, ?_, ?_, ?_⟩
  · intro k
    rw [refines.get, held]
  · intro k
    rw [Trie.has, refines.get, held]
  · intro k
    rw [refines.pop_value, refines.get]
  · exact Trie.Sound.get_pop ⟨_, refines⟩
  · intro k
    rw [refines.map, held]
  · rw [Trie.len, refines.length, length_keys_congr refines.map]

end FiniteMap

end Utils
