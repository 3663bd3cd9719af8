import Cadent.Utils.Trie

/-!
# Searches in the trie

A query is a path in which a star stands for any one segment. A search ends at the nodes whose
paths fit the query, each under its own path, with the children of the node where it has some
and its value otherwise.
-/

namespace Utils

open Maps Text

variable {V : Type}

namespace Tree

/-- The node at the end of a path. -/
def sub : List String → Tree V → Option (Tree V)
  | [], t => some t
  | part :: parts, t => (t.child part).bind (sub parts)

theorem at?_eq_sub (parts : List String) (t : Tree V) : t.at? parts = (t.sub parts).bind value := by
  induction parts generalizing t with
  | nil => rfl
  | cons part parts ih =>
    rw [at?, sub, Option.bind_assoc]
    exact Option.bind_congr fun child _ => ih child

theorem Named.of_sub {P : String → Prop} {parts : List String} {t c : Tree V} (named : t.Named P)
    (found : t.sub parts = some c) : ∀ part ∈ parts, P part := by
  induction parts generalizing t with
  | nil => exact nofun
  | cons part parts ih =>
    obtain ⟨child, here, deeper⟩ := Option.bind_eq_some_iff.mp found
    exact List.forall_mem_cons.mpr ⟨(named.child here).1, ih (named.child here).2 deeper⟩

theorem sub_setChild (t c : Tree V) (part p : String) (path : List String) :
    (t.setChild part c).sub (p :: path) = if p = part then c.sub path else t.sub (p :: path) := by
  have found := Assoc.get_set part p c t.children
  rw [sub, child, setChild, children, found]
  split_ifs <;> rfl

theorem sub_setValue_isSome (t : Tree V) (value : Option V) (path : List String) :
    ((t.setValue value).sub path).isSome ↔ (t.sub path).isSome := by
  cases path <;> rfl

theorem sub_getD_isSome (t : Tree V) (part : String) (path : List String) :
    (((t.child part).getD newTree).sub path).isSome ↔
      path = [] ∨ (t.sub (part :: path)).isSome := by
  rw [sub]
  rcases t.child part with _ | c
  · cases path with
    | nil => simp [sub]
    | cons p path => simp [sub, newTree, child, children, Assoc.get]
  · cases path with
    | nil => simp [sub]
    | cons p path => simp

/-- A value that is put makes the nodes on its path. -/
theorem sub_put_isSome (v : V) {parts : List String} (nonempty : parts ≠ []) (path : List String)
    (t : Tree V) : ((t.put v parts).1.sub path).isSome ↔ path <+: parts ∨ (t.sub path).isSome := by
  induction parts generalizing t path with
  | nil => exact absurd rfl nonempty
  | cons part parts ih =>
    rcases path with _ | ⟨p, path⟩
    · simp [sub]
    · rw [List.cons_prefix_cons]
      rcases parts with _ | ⟨next, parts⟩
      · rw [put, sub_setChild]
        split_ifs with same
        · rw [sub_setValue_isSome, sub_getD_isSome, same, List.prefix_nil]
          simp
        · simp [same]
      · rw [put_cons, sub_setChild]
        split_ifs with same
        · rw [ih (List.cons_ne_nil _ _), sub_getD_isSome, same]
          constructor
          · rintro (inside | rfl | found)
            · exact .inl ⟨rfl, inside⟩
            · exact .inl ⟨rfl, List.nil_prefix⟩
            · exact .inr found
          · rintro (⟨_, inside⟩ | found)
            · exact .inl inside
            · exact .inr (.inr found)
        · simp [same]

/-- A node has children just when there is a longer path. -/
theorem children_ne_nil_iff {parts : List String} {t c : Tree V} (found : t.sub parts = some c) :
    c.children ≠ [] ↔ ∃ part, (t.sub (parts ++ [part])).isSome := by
  have hdeeper : ∀ part, t.sub (parts ++ [part]) = c.child part := by
    intro part
    induction parts generalizing t with
    | nil =>
      obtain rfl := Option.some.inj found
      rw [List.nil_append, sub]
      cases t.child part <;> rfl
    | cons p parts ih =>
      obtain ⟨child, here, deeper⟩ := Option.bind_eq_some_iff.mp found
      rw [List.cons_append, sub, here, Option.bind_some, ih deeper]
  simp only [hdeeper]
  rcases c with ⟨value, _ | ⟨e, children⟩⟩
  · simp [Tree.children, Tree.child, Assoc.get]
  · simp only [Tree.children, ne_eq, reduceCtorEq, not_false_eq_true, true_iff]
    exact ⟨e.1, by simp [Tree.child, Tree.children, Assoc.get]⟩

/-- A part of a query and a segment that it stands for. -/
def Fits (part segment : String) : Prop := part = "*" ∨ part = segment

theorem exists_fits {parts segments : List String} (fits : List.Forall₂ Fits parts segments)
    {part : String} (listed : part ∈ parts) : ∃ segment ∈ segments, Fits part segment := by
  induction fits with
  | nil => cases listed
  | @cons p segment _ _ fit _ ih =>
    rcases List.mem_cons.mp listed with rfl | later
    · exact ⟨segment, List.mem_cons_self, fit⟩
    · obtain ⟨found, mem, fit⟩ := ih later
      exact ⟨found, List.mem_cons_of_mem _ mem, fit⟩

/-- A search ends at the nodes whose paths fit. -/
theorem mem_childrenOf {P : String → Prop} {delim key : String} {keys parts : List String}
    {t : Tree V} {f : Found V} (named : t.Named P) : (key, f) ∈ t.childrenOf delim keys parts ↔
      ∃ segments c, List.Forall₂ Fits parts segments ∧ t.sub segments = some c ∧
        key = String.intercalate delim (keys ++ segments) ∧ f = c.found := by
  induction parts generalizing t keys with
  | nil =>
    rw [childrenOf, List.mem_singleton, Prod.mk.injEq]
    constructor
    · rintro ⟨rfl, rfl⟩
      exact ⟨[], t, .nil, rfl, by rw [List.append_nil], rfl⟩
    · rintro ⟨segments, c, fits, found, rfl, rfl⟩
      cases fits
      obtain rfl := Option.some.inj found
      exact ⟨by rw [List.append_nil], rfl⟩
  | cons part parts ih =>
    have hsub : ∀ {segment segments} {c : Tree V}, t.sub (segment :: segments) = some c ↔
        ∃ child, t.child segment = some child ∧ child.sub segments = some c :=
      Option.bind_eq_some_iff
    rw [childrenOf]
    split_ifs with star
    · rw [List.mem_flatMap]
      constructor
      · rintro ⟨⟨segment, child⟩, mem, deeper⟩
        have hchild : t.child segment = some child := named.child_of_mem mem
        obtain ⟨segments, c, fits, found, rfl, rfl⟩ := (ih (named.child hchild).2).mp deeper
        refine ⟨segment :: segments, c, .cons (.inl star) fits,
          hsub.mpr ⟨child, hchild, found⟩, ?_, rfl⟩
        rw [List.append_assoc, List.singleton_append]
      · rintro ⟨_, c, fits, found, rfl, rfl⟩
        obtain ⟨segment, segments, _, fits', rfl⟩ := List.forall₂_cons_left_iff.mp fits
        obtain ⟨child, hchild, found⟩ := hsub.mp found
        refine ⟨(segment, child), Assoc.mem_of_get hchild, (ih (named.child hchild).2).mpr ?_⟩
        refine ⟨segments, c, fits', found, ?_, rfl⟩
        rw [List.append_assoc, List.singleton_append]
    · rcases hchild : t.child part with _ | child
      · refine ⟨nofun, ?_⟩
        rintro ⟨_, c, fits, found, _, _⟩
        obtain ⟨segment, segments, fit, _, rfl⟩ := List.forall₂_cons_left_iff.mp fits
        obtain ⟨child, hchild', _⟩ := hsub.mp found
        rw [← fit.resolve_left star, hchild] at hchild'
        cases hchild'
      · refine (ih (named.child hchild).2).trans ?_
        constructor
        · rintro ⟨segments, c, fits, found, rfl, rfl⟩
          refine ⟨part :: segments, c, .cons (.inr rfl) fits,
            hsub.mpr ⟨child, hchild, found⟩, ?_, rfl⟩
          rw [List.append_assoc, List.singleton_append]
        · rintro ⟨_, c, fits, found, rfl, rfl⟩
          obtain ⟨segment, segments, fit, fits', rfl⟩ := List.forall₂_cons_left_iff.mp fits
          obtain rfl := fit.resolve_left star
          obtain ⟨child', hchild', found⟩ := hsub.mp found
          obtain rfl := Option.some.inj (hchild.symm.trans hchild')
          refine ⟨segments, c, fits', found, ?_, rfl⟩
          rw [List.append_assoc, List.singleton_append]

end Tree

open Utils.Tree

/-- The node of a path. -/
def Trie.node? (tr : Trie V) (key : String) : Option (Tree V) := tr.root.sub (split key ".")

theorem Trie.Sound.get_eq {tr : Trie V} (sound : tr.Sound) (key : String) :
    tr.get key = (tr.node? key).bind value := by
  obtain ⟨m, refines⟩ := sound
  rw [refines.get, ← refines.value, at?_eq_sub]
  rfl

/-- A search by a query finds the nodes whose paths fit it. -/
theorem Trie.Sound.lookup_childrenFlat {tr : Trie V} (sound : tr.Sound) (pattern key : String)
    (f : Found V) : (tr.childrenFlat pattern).lookup key = some f ↔
      List.Forall₂ Fits (split pattern ".") (split key ".") ∧
        ∃ c, tr.node? key = some c ∧ f = c.found := by
  obtain ⟨m, refines⟩ := sound
  have hmem : ∀ key f, (key, f) ∈ tr.root.childrenOf "." [] (split pattern ".") ↔
      List.Forall₂ Fits (split pattern ".") (split key ".") ∧
        ∃ c, tr.node? key = some c ∧ f = c.found := by
    intro key f
    rw [mem_childrenOf refines.named]
    constructor
    · rintro ⟨segments, c, fits, found, rfl, rfl⟩
      have hsome : segments ≠ [] := by
        rintro rfl
        exact split_ne_nil Utils.dot pattern (List.forall₂_nil_right_iff.mp fits)
      have hsplit : split (String.intercalate "." ([] ++ segments)) "." = segments :=
        split_intercalate Utils.dot hsome (refines.named.of_sub found)
      rw [Trie.node?, hsplit]
      exact ⟨fits, c, found, rfl⟩
    · rintro ⟨fits, c, found, rfl⟩
      exact ⟨split key ".", c, fits, found, (intercalate_split Utils.dot key).symm, rfl⟩
  have hagree : ∀ f f', (key, f) ∈ tr.root.childrenOf "." [] (split pattern ".") →
      (key, f') ∈ tr.root.childrenOf "." [] (split pattern ".") → f = f' := by
    intro f f' mem mem'
    obtain ⟨_, c, found, rfl⟩ := (hmem key f).mp mem
    obtain ⟨_, c', found', rfl⟩ := (hmem key f').mp mem'
    rw [Option.some.inj (found.symm.trans found')]
  rw [Trie.childrenFlat, lookup_assign_entries, Trie.children, refines.dot,
    lookup_assign hagree, hmem]

end Utils
