import Mathlib.Data.List.Perm.Basic
import Mathlib.Data.List.Perm.Subperm

/-!
# Lists as bags

`l.Subperm l'` says that everything in `l` is in `l'`, as often as it is in `l` and in
any order. The maps that build one bag from others respect it.
-/

namespace Bags

universe u v

variable {α : Type u} {β : Type v}

/-- The groups of a list under a key make it up, when the keys are listed once each. -/
theorem flatMap_group_perm [DecidableEq β] (f : α → β) {keys : List β} {l : List α}
    (nodup : keys.Nodup) (covers : ∀ a ∈ l, f a ∈ keys) :
    (keys.flatMap fun k => l.filter fun a => f a = k).Perm l := by
  induction keys generalizing l with
  | nil =>
    rcases l with _ | ⟨a, l⟩
    · exact .refl _
    · cases covers a List.mem_cons_self
  | cons k keys ih =>
    obtain ⟨fresh, nodup⟩ := List.nodup_cons.mp nodup
    have others := ih (l := l.filter fun a => f a ≠ k) nodup (by
      intro a mem
      obtain ⟨mem, ne⟩ := List.mem_filter.mp mem
      exact (List.mem_cons.mp (covers a mem)).resolve_left (by simpa using ne))
    have same : ∀ k' ∈ keys, ((l.filter fun a => f a ≠ k).filter fun a => f a = k') =
        l.filter fun a => f a = k' := by
      intro k' mem
      rw [List.filter_filter]
      refine List.filter_congr ?_
      intro a _
      by_cases eq : f a = k'
      · have ne : k' ≠ k := fun h => fresh (h ▸ mem)
        simp [eq, ne]
      · simp [eq]
    rw [List.flatMap_congr same] at others
    rw [List.flatMap_cons]
    refine (others.append_left _).trans ?_
    simpa using List.filter_append_perm (fun a => f a = k) l

end Bags
