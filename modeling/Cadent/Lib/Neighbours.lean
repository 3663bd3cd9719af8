import Mathlib.Algebra.BigOperators.Group.List.Basic

/-!
# Neighbours with equal keys

A list falls into its maximal runs of neighbours that share a key. `groups` lists the
runs, each by its first element and those that follow it. `collapse` is the loop that
walks a list and folds every later element of a run into the first one; it is the fold
of each group by itself.
-/

namespace Neighbours

universe u v w

variable {α : Type u} {κ : Type v} [DecidableEq κ] (key : α → κ)

/-- The maximal runs of neighbours with one key. -/
def groups : List α → List (α × List α)
  | [] => []
  | a :: l =>
    match groups l with
    | [] => [(a, [])]
    | (b, later) :: more =>
      if key a = key b then (a, b :: later) :: more else (a, []) :: (b, later) :: more

/-- Fold every element into the one before it as long as the key stays the same. -/
def collapse (absorb : α → α → α) : α → List α → List α
  | a, [] => [a]
  | a, b :: l => if key a = key b then collapse absorb (absorb a b) l else a :: collapse absorb b l

section Cons

variable {key} {a b : α} {l later : List α} {more : List (α × List α)}

theorem groups_cons_nil (rest : groups key l = []) : groups key (a :: l) = [(a, [])] := by
  rw [groups, rest]

theorem groups_cons_same (rest : groups key l = (b, later) :: more) (same : key a = key b) :
    groups key (a :: l) = (a, b :: later) :: more := by
  rw [groups, rest]
  exact if_pos same

theorem groups_cons_new (rest : groups key l = (b, later) :: more) (new : key a ≠ key b) :
    groups key (a :: l) = (a, []) :: (b, later) :: more := by
  rw [groups, rest]
  exact if_neg new

end Cons

/-- The runs depend on an element in front only through its key. -/
theorem exists_groups_cons (k : κ) (l : List α) :
    ∃ later more, ∀ a, key a = k → groups key (a :: l) = (a, later) :: more := by
  cases hrest : groups key l with
  | nil => exact ⟨[], [], fun a _ => groups_cons_nil hrest⟩
  | cons g more =>
    obtain ⟨b, later⟩ := g
    by_cases hsame : k = key b
    · exact ⟨b :: later, more, fun a ha => groups_cons_same hrest (ha.trans hsame)⟩
    · refine ⟨[], (b, later) :: more, fun a ha => groups_cons_new hrest ?_⟩
      rw [ha]
      exact hsame

theorem flatMap_groups (l : List α) : (groups key l).flatMap (fun g => g.1 :: g.2) = l := by
  induction l with
  | nil => rfl
  | cons a l ih =>
    cases hrest : groups key l with
    | nil =>
      rw [hrest] at ih
      rw [groups_cons_nil hrest, ← ih]
      rfl
    | cons g more =>
      obtain ⟨b, later⟩ := g
      rw [hrest] at ih
      by_cases hsame : key a = key b
      · rw [groups_cons_same hrest hsame, ← ih]
        rfl
      · rw [groups_cons_new hrest hsame, ← ih]
        rfl

theorem key_of_mem_groups {l : List α} {g : α × List α} (mem : g ∈ groups key l) :
    ∀ b ∈ g.2, key b = key g.1 := by
  induction l generalizing g with
  | nil => cases mem
  | cons a l ih =>
    cases hrest : groups key l with
    | nil =>
      rw [groups_cons_nil hrest] at mem
      obtain rfl := List.mem_singleton.mp mem
      intro b hb
      cases hb
    | cons h more =>
      obtain ⟨c, later⟩ := h
      rw [hrest] at ih
      by_cases hsame : key a = key c
      · rw [groups_cons_same hrest hsame] at mem
        rcases List.mem_cons.mp mem with rfl | mem
        · intro b hb
          rcases List.mem_cons.mp hb with rfl | hb
          · exact hsame.symm
          · exact (ih List.mem_cons_self b hb).trans hsame.symm
        · exact ih (List.mem_cons_of_mem _ mem)
      · rw [groups_cons_new hrest hsame] at mem
        rcases List.mem_cons.mp mem with rfl | mem
        · intro b hb
          cases hb
        · exact ih mem

/-- A run ends only where the key changes. -/
theorem isChain_groups (l : List α) : (groups key l).IsChain fun g h => key g.1 ≠ key h.1 := by
  induction l with
  | nil => exact List.IsChain.nil
  | cons a l ih =>
    cases hrest : groups key l with
    | nil =>
      rw [groups_cons_nil hrest]
      exact List.IsChain.singleton _
    | cons g more =>
      obtain ⟨b, later⟩ := g
      rw [hrest] at ih
      by_cases hsame : key a = key b
      · rw [groups_cons_same hrest hsame]
        cases more with
        | nil => exact List.IsChain.singleton _
        | cons h more =>
          obtain ⟨hne, hchain⟩ := List.isChain_cons_cons.mp ih
          refine List.isChain_cons_cons.mpr ⟨?_, hchain⟩
          rwa [hsame]
      · rw [groups_cons_new hrest hsame]
        exact List.isChain_cons_cons.mpr ⟨hsame, ih⟩

/-- Changing the elements but not their keys keeps the runs. -/
theorem groups_map {f : α → α} (keeps : ∀ a, key (f a) = key a) (l : List α) :
    groups key (l.map f) = (groups key l).map fun g => (f g.1, g.2.map f) := by
  induction l with
  | nil => rfl
  | cons a l ih =>
    rw [List.map_cons]
    cases hrest : groups key l with
    | nil =>
      rw [hrest] at ih
      rw [groups_cons_nil ih, groups_cons_nil hrest]
      rfl
    | cons g more =>
      obtain ⟨b, later⟩ := g
      rw [hrest] at ih
      by_cases hsame : key a = key b
      · have hsame' : key (f a) = key (f b) := by rw [keeps, keeps, hsame]
        rw [groups_cons_same ih hsame', groups_cons_same hrest hsame]
        rfl
      · have hnew : key (f a) ≠ key (f b) := by rwa [keeps, keeps]
        rw [groups_cons_new ih hnew, groups_cons_new hrest hsame]
        rfl

variable {key} {absorb : α → α → α}

/-- The loop folds each run by itself. -/
theorem collapse_eq (keeps : ∀ a b, key (absorb a b) = key a) (a : α) (l : List α) :
    collapse key absorb a l = (groups key (a :: l)).map fun g => g.2.foldl absorb g.1 := by
  induction l generalizing a with
  | nil => rfl
  | cons b l ih =>
    obtain ⟨later, more, hgroups⟩ := exists_groups_cons key (key b) l
    have hb := hgroups b rfl
    rw [collapse]
    by_cases hsame : key a = key b
    · rw [if_pos hsame, ih, hgroups (absorb a b) ((keeps a b).trans hsame),
        groups_cons_same hb hsame]
      rfl
    · rw [if_neg hsame, ih, hb, groups_cons_new hb hsame]
      rfl

variable (key) in
/-- A measure that absorbing adds up has the same total after the loop. -/
theorem sum_map_foldl {M : Type w} [AddMonoid M] {f : α → M}
    (adds : ∀ a b, f (absorb a b) = f a + f b) (l : List α) :
    ((groups key l).map fun g => f (g.2.foldl absorb g.1)).sum = (l.map f).sum := by
  have hrun : ∀ (later : List α) (a : α), f (later.foldl absorb a) = ((a :: later).map f).sum := by
    intro later
    induction later with
    | nil => intro a; simp
    | cons b later ih =>
      intro a
      rw [List.foldl_cons, ih]
      simp only [List.map_cons, List.sum_cons, adds, add_assoc]
  nth_rewrite 2 [← flatMap_groups key l]
  rw [List.map_flatMap, List.flatMap_def, List.sum_flatten, List.map_map]
  exact congrArg List.sum (List.map_congr_left fun g _ => hrun g.2 g.1)

end Neighbours
