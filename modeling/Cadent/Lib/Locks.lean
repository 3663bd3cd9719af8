import Mathlib.Data.Prod.Basic
import Mathlib.Logic.Function.Basic

/-!
# Code under read-write locks

A lock counts its readers and says whether it has a writer. Code that takes locks is run one
call at a time: a call that waits for a lock which nobody will release does not return, and
neither does one that releases what is not held.
-/

namespace Locks

structure RWMutex where
  readers : Nat
  writer : Bool
  deriving DecidableEq

namespace RWMutex

def free : RWMutex := ⟨0, false⟩

def held : RWMutex := ⟨0, true⟩

def lock (m : RWMutex) : Option RWMutex := if m = free then some held else none

def unlock (m : RWMutex) : Option RWMutex :=
  if m.writer then some { m with writer := false } else none

def rLock (m : RWMutex) : Option RWMutex :=
  if m.writer then none else some { m with readers := m.readers + 1 }

def rUnlock (m : RWMutex) : Option RWMutex :=
  if m.readers = 0 then none else some { m with readers := m.readers - 1 }

end RWMutex

open RWMutex

/-- Code over some data and the locks of it. -/
abbrev Guarded (L σ : Type) := StateT (σ × (L → RWMutex)) Option

section Code

variable {L σ α β : Type}

theorem bind_returns {s s' : σ} {ls ls' : L → RWMutex} {a : α} {p : Guarded L σ α}
    {q : α → Guarded L σ β} (first : p (s, ls) = some (a, s', ls')) :
    (p >>= q) (s, ls) = q a (s', ls') := by
  change (p (s, ls)).bind _ = _
  rw [first]
  rfl

theorem bind_blocks {s : σ} {ls : L → RWMutex} {p : Guarded L σ α} {q : α → Guarded L σ β}
    (first : p (s, ls) = none) : (p >>= q) (s, ls) = none := by
  change (p (s, ls)).bind _ = _
  rw [first]
  rfl

variable [DecidableEq L]

/-- One operation of a lock. -/
def on (op : RWMutex → Option RWMutex) (l : L) : Guarded L σ Unit :=
  fun s => (op (s.2 l)).map fun m => ((), s.1, Function.update s.2 l m)

def reading (f : σ → α) : Guarded L σ α := fun s => some (f s.1, s)

def changing (f : σ → σ) : Guarded L σ Unit := fun s => some ((), f s.1, s.2)

/-- `Lock`, the code and `Unlock`. -/
def exclusive (l : L) (body : Guarded L σ α) : Guarded L σ α := do
  on RWMutex.lock l
  let a ← body
  on RWMutex.unlock l
  return a

/-- `RLock`, the code and what was deferred. -/
def deferring (l : L) (deferred : RWMutex → Option RWMutex) (body : Guarded L σ α) :
    Guarded L σ α := do
  on RWMutex.rLock l
  let a ← body
  on deferred l
  return a

/-! ### What returns and what does not -/

variable {s s' : σ} {ls : L → RWMutex} {l : L} {a : α} {p : Guarded L σ α}

theorem lock_returns (free : ls l = free) :
    on RWMutex.lock l (s, ls) = some ((), s, Function.update ls l held) := by
  simp only [on, free]
  rfl

theorem exclusive_returns (free : ls l = free)
    (body : p (s, Function.update ls l held) = some (a, s', Function.update ls l held)) :
    exclusive l p (s, ls) = some (a, s', ls) := by
  have hunlock : on RWMutex.unlock l (s', Function.update ls l held) = some ((), s', ls) := by
    simp only [on, Function.update_self, Function.update_idem]
    have hback : Function.update ls l RWMutex.free = ls := by rw [← free, Function.update_eq_self]
    exact congrArg (fun ls => some ((), s', ls)) hback
  rw [exclusive, bind_returns (lock_returns free), bind_returns body, bind_returns hunlock]
  rfl

theorem exclusive_changing (free : ls l = free) (f : σ → σ) :
    exclusive l (changing f) (s, ls) = some ((), f s, ls) :=
  exclusive_returns free rfl

theorem exclusive_blocks (taken : ls l ≠ free) : exclusive l p (s, ls) = none := by
  apply bind_blocks
  simp only [on, RWMutex.lock, if_neg taken]
  rfl

theorem exclusive_blocks_inside (free : ls l = free)
    (body : p (s, Function.update ls l held) = none) : exclusive l p (s, ls) = none := by
  rw [exclusive, bind_returns (lock_returns free)]
  exact bind_blocks body

/-- What is deferred is done with one more reader than before. -/
theorem deferring_returns {deferred : RWMutex → Option RWMutex} {m : RWMutex} (f : σ → α)
    (quiet : (ls l).writer = false)
    (last : deferred { ls l with readers := (ls l).readers + 1 } = some m) :
    deferring l deferred (reading f) (s, ls) = some (f s, s, Function.update ls l m) := by
  have hlock : on RWMutex.rLock l (s, ls) =
      some ((), s, Function.update ls l { ls l with readers := (ls l).readers + 1 }) := by
    simp only [on, RWMutex.rLock, quiet]
    rfl
  rw [deferring, bind_returns hlock]
  change (on deferred l (s, _)).bind _ = _
  simp only [on, Function.update_self, last, Function.update_idem]
  rfl

end Code

end Locks
