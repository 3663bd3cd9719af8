import Mathlib.Data.List.Basic
import Mathlib.Data.List.Induction

/-!
# Runs of a system of atomic steps

A system is a partial step function: an action taken in a state gives the next state
and what the caller sees, or nothing when the action cannot be taken there. A run keeps
its whole history, so that a property may speak of what was accepted or emitted along
the way. Steps are executable; a concrete run is evaluated by `exec`.
-/

namespace Runs

universe u v w

variable {σ : Type u} {α : Type v} {β : Type w}

/-- One step of a history: the state it was taken in, the action and its outcome. -/
structure Taken (σ : Type u) (α : Type v) (β : Type w) where
  pre : σ
  act : α
  out : β

/-- Runs from `init` in which every action was taken where it is `allowed`. -/
inductive Run (step : σ → α → Option (σ × β)) (allowed : σ → α → Prop) (init : σ) :
    List (Taken σ α β) → σ → Prop
  | start : Run step allowed init [] init
  | step {h : List (Taken σ α β)} {s s' : σ} {a : α} {b : β} (before : Run step allowed init h s)
      (ok : allowed s a) (taken : step s a = some (s', b)) :
      Run step allowed init (h ++ [⟨s, a, b⟩]) s'

/-- What an observer that may skip steps sees of one more step. -/
theorem filterMap_snoc {γ : Type*} (f : Taken σ α β → Option γ) (h : List (Taken σ α β))
    (e : Taken σ α β) : (h ++ [e]).filterMap f = h.filterMap f ++ (f e).toList := by
  cases seen : f e <;> simp [seen]

/-- The step function itself is the only restriction. -/
def anyStep (_ : σ) (_ : α) : Prop := True

instance (s : σ) (a : α) : Decidable (anyStep s a) := inferInstanceAs (Decidable True)

section Invariant

variable {step : σ → α → Option (σ × β)} {allowed : σ → α → Prop} {init : σ}

/-- What holds at the start and is kept by every allowed step holds after every run. -/
theorem run_invariant (Inv : List (Taken σ α β) → σ → Prop) (base : Inv [] init)
    (kept : ∀ h s a s' b, Inv h s → allowed s a → step s a = some (s', b) →
      Inv (h ++ [⟨s, a, b⟩]) s')
    {h : List (Taken σ α β)} {s : σ} (run : Run step allowed init h s) : Inv h s := by
  induction run with
  | start => exact base
  | step _ ok taken ih => exact kept _ _ _ _ _ ih ok taken

theorem run_snoc {h : List (Taken σ α β)} {s s' : σ} {a : α} {b : β}
    (run : Run step allowed init (h ++ [⟨s, a, b⟩]) s') :
    Run step allowed init h s ∧ allowed s a ∧ step s a = some (s', b) := by
  generalize long : h ++ [⟨s, a, b⟩] = h' at run
  cases run with
  | start => simp at long
  | step before ok taken =>
    obtain ⟨rfl, same⟩ := List.append_inj' long rfl
    cases same
    exact ⟨before, ok, taken⟩

theorem run_of_append {h h' : List (Taken σ α β)} {s : σ}
    (run : Run step allowed init (h ++ h') s) :
    ∃ s', Run step allowed init h s' := by
  induction h' using List.reverseRecOn generalizing s with
  | nil => exact ⟨s, by simpa using run⟩
  | append_singleton h' e ih =>
    rw [← List.append_assoc] at run
    exact ih (run_snoc run).1

end Invariant

section Exec

variable (step : σ → α → Option (σ × β)) (allowed : σ → α → Prop)
  [∀ s a, Decidable (allowed s a)]

/-- The run that takes the given actions one after another. -/
def execFrom (h : List (Taken σ α β)) (s : σ) : List α → Option (List (Taken σ α β) × σ)
  | [] => some (h, s)
  | a :: as =>
    if allowed s a then
      match step s a with
      | none => none
      | some (s', b) => execFrom (h ++ [⟨s, a, b⟩]) s' as
    else none

def exec (s : σ) (as : List α) : Option (List (Taken σ α β) × σ) := execFrom step allowed [] s as

variable {step allowed}

theorem run_of_execFrom {init : σ} {as : List α} {h : List (Taken σ α β)} {s : σ}
    {r : List (Taken σ α β) × σ} (before : Run step allowed init h s)
    (ran : execFrom step allowed h s as = some r) : Run step allowed init r.1 r.2 := by
  induction as generalizing h s with
  | nil =>
    cases ran
    exact before
  | cons a as ih =>
    rw [execFrom] at ran
    by_cases ok : allowed s a
    · rw [if_pos ok] at ran
      cases taken : step s a with
      | none => simp [taken] at ran
      | some p =>
        rw [taken] at ran
        exact ih (.step before ok taken) ran
    · rw [if_neg ok] at ran
      cases ran

variable (step allowed) in
theorem run_of_exec (init : σ) (as : List α) (ran : (exec step allowed init as).isSome) :
    Run step allowed init ((exec step allowed init as).get ran).1
      ((exec step allowed init as).get ran).2 :=
  run_of_execFrom .start (Option.some_get ran).symm

end Exec

end Runs
