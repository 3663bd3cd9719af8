import Mathlib.Data.List.Basic
import Mathlib.Data.List.Forall2
import Mathlib.Data.List.Perm.Basic

/-!
# Groups

A list is put into groups by a key that stands for what identifies its elements. When no two
elements with the same key differ in what identifies them, the groups under the keys are
those of the identities.
-/

namespace Groups

universe u v w

variable {α : Type u} {κ : Type v} {π : Type w}

theorem forall₂_filterMap {β : Type*} {R : β → α → Prop} {f : α → Option β} {l : List α}
    (related : ∀ a ∈ l, ∃ b, f a = some b ∧ R b a) : List.Forall₂ R (l.filterMap f) l := by
  induction l with
  | nil => exact .nil
  | cons a l ih =>
    obtain ⟨b, found, rel⟩ := related a List.mem_cons_self
    rw [List.filterMap_cons_some found]
    exact .cons rel (ih fun a' mem => related a' (List.mem_cons_of_mem _ mem))

/-- Nothing is dropped on either side, so the results can be compared one by one. -/
theorem eq_of_filterMap_eq {β : Type*} {f g : α → Option β} {l : List α}
    (all : ∀ a ∈ l, (f a).isSome) (all' : ∀ a ∈ l, (g a).isSome)
    (same : l.filterMap f = l.filterMap g) : ∀ a ∈ l, f a = g a := by
  induction l with
  | nil => exact fun a mem => absurd mem List.not_mem_nil
  | cons first l ih =>
    obtain ⟨b, own⟩ := Option.isSome_iff_exists.mp (all first List.mem_cons_self)
    obtain ⟨c, own'⟩ := Option.isSome_iff_exists.mp (all' first List.mem_cons_self)
    rw [List.filterMap_cons_some own, List.filterMap_cons_some own'] at same
    obtain ⟨rfl, rest⟩ := List.cons.inj same
    intro a mem
    rcases List.mem_cons.mp mem with rfl | mem
    · exact own.trans own'.symm
    · exact ih (fun a mem => all a (List.mem_cons_of_mem _ mem))
        (fun a mem => all' a (List.mem_cons_of_mem _ mem)) rest a mem

theorem forall₂_trans {β : Type*} {R : α → β → Prop} {S : β → κ → Prop} {T : α → κ → Prop}
    (composed : ∀ a b c, R a b → S b c → T a c) {as : List α} {bs : List β} {cs : List κ}
    (first : List.Forall₂ R as bs) (second : List.Forall₂ S bs cs) : List.Forall₂ T as cs := by
  induction first generalizing cs with
  | nil =>
    cases second
    exact .nil
  | cons rel _ ih =>
    cases second with
    | cons rel' rest => exact .cons (composed _ _ _ rel rel') (ih rest)

variable [DecidableEq κ] [DecidableEq π]

def group (f : α → κ) (l : List α) (k : κ) : List α := l.filter fun a => f a = k

theorem mem_group {f : α → κ} {l : List α} {k : κ} {a : α} : a ∈ group f l k ↔ a ∈ l ∧ f a = k := by
  simp [group]

theorem group_concat (f : α → κ) (l : List α) (a : α) (k : κ) :
    group f (l ++ [a]) k = if k = f a then group f l k ++ [a] else group f l k := by
  by_cases same : k = f a
  · simp [group, same]
  · simp [group, same, Ne.symm same]

/-- Elements that share their key share what identifies them. -/
def Separates (key : α → κ) (identity : α → π) (l : List α) : Prop :=
  ∀ a ∈ l, ∀ b ∈ l, key a = key b ↔ identity a = identity b

theorem group_eq {key : α → κ} {identity : α → π} {l : List α}
    (separates : Separates key identity l) {a : α} (mem : a ∈ l) :
    group key l (key a) = group identity l (identity a) := by
  apply List.filter_congr
  intro b mem'
  rw [decide_eq_decide]
  exact separates b mem' a mem

/-- To list the keys of some elements is to list their identities. -/
theorem exists_identities {key : α → κ} {identity : α → π} {l : List α}
    (separates : Separates key identity l) {keys : List κ} (nodup : keys.Nodup)
    (used : ∀ k ∈ keys, ∃ a ∈ l, key a = k) :
    ∃ ids : List π, ids.Nodup ∧ (∀ p, p ∈ ids ↔ ∃ a ∈ l, key a ∈ keys ∧ identity a = p) ∧
      List.Forall₂ (fun k p => group key l k = group identity l p ∧
        ∃ a ∈ l, key a = k ∧ identity a = p) keys ids := by
  induction keys with
  | nil => exact ⟨[], List.nodup_nil, by simp, .nil⟩
  | cons k keys ih =>
    obtain ⟨fresh, rest⟩ := List.nodup_cons.mp nodup
    obtain ⟨a, mem, rfl⟩ := used k List.mem_cons_self
    obtain ⟨ids, nodup', listed, related⟩ :=
      ih rest fun k' mem' => used k' (List.mem_cons_of_mem _ mem')
    refine ⟨identity a :: ids, List.nodup_cons.mpr ⟨?_, nodup'⟩, ?_,
      .cons ⟨group_eq separates mem, a, mem, rfl, rfl⟩ related⟩
    · intro again
      obtain ⟨b, mem', keyed, same⟩ := (listed _).mp again
      rw [(separates b mem' a mem).mpr same] at keyed
      exact fresh keyed
    · intro p
      constructor
      · intro mem'
        rcases List.mem_cons.mp mem' with rfl | mem'
        · exact ⟨a, mem, List.mem_cons_self, rfl⟩
        · obtain ⟨b, inList, keyed, same⟩ := (listed p).mp mem'
          exact ⟨b, inList, List.mem_cons_of_mem _ keyed, same⟩
      · rintro ⟨b, inList, keyed, rfl⟩
        rcases List.mem_cons.mp keyed with same | keyed
        · rw [(separates b inList a mem).mp same]
          exact List.mem_cons_self
        · exact List.mem_cons_of_mem _ ((listed _).mpr ⟨b, inList, keyed, rfl⟩)

end Groups
