import Cadent.Netpool.Buffered

/-!
# Bleeding a pool

`DestroyAll` takes connections out of the channel of the free ones as long as a counter is below
the length of the channel. The counter goes up while the length goes down, so the loop ends half
way. The buffered pool flushes the connections of its own loop and does not close them; the plain
pool then closes half of the others without a flush. Writes succeed here. A connection that was
lost has none to close, and `Conn().Close()` panics.
-/

namespace Netpool

/-- The loop from round `i` on: what `body` makes of the connections that are taken out, and the
connections that stay in the channel. -/
def drainFrom {C D : Type} (body : C → Option D) (i : Nat) : List C → Option (List D × List C)
  | [] => some ([], [])
  | c :: free =>
    if i < (c :: free).length then do
      let d ← body c
      let r ← drainFrom body (i + 1) free
      return (d :: r.1, r.2)
    else some ([], c :: free)

/-- A connection that was taken out. -/
structure Bled where
  conn : BufferedNetpoolConn
  closed : Bool
  deriving DecidableEq

/-- The connections taken out, and those in the channel when it is closed. -/
structure Remains where
  taken : List Bled
  free : List BufferedNetpoolConn
  deriving DecidableEq

def closeConn (con : BufferedNetpoolConn) : Option Bled := con.conn.map fun _ => ⟨con, true⟩

def flushConn (con : BufferedNetpoolConn) : Option Bled :=
  some ⟨(con.flush con.conn ⟨con.writebuffer.length, none⟩).conn, false⟩

/-- `Netpool.DestroyAll`. -/
def destroyAll (free : List BufferedNetpoolConn) : Option Remains :=
  (drainFrom closeConn 0 free).map fun r => ⟨r.1, r.2⟩

/-- `BufferedNetpool.DestroyAll`. -/
def bufferedDestroyAll (free : List BufferedNetpoolConn) : Option Remains := do
  let flushed ← drainFrom flushConn 0 free
  let closed ← destroyAll flushed.2
  return ⟨flushed.1 ++ closed.taken, closed.free⟩

/-- All of `n` connections are out of the channel and closed. -/
structure Drained (n : Nat) (r : Remains) : Prop where
  taken : r.taken.length = n
  free : r.free = []
  closed : ∀ b ∈ r.taken, b.closed = true

/-- Nothing is left in a buffer. -/
def Flushed (r : Remains) : Prop := ∀ b ∈ r.taken, b.conn.writebuffer = []

/-! ### How far the loop comes -/

section Loop

variable {C D : Type} {body : C → Option D}

/-- From round `i` on, the loop reaches half of what the length has ahead of the counter. -/
theorem drainFrom_left {i : Nat} {free : List C} {r : List D × List C}
    (ended : drainFrom body i free = some r) : r.2 = free.drop ((free.length - i + 1) / 2) := by
  induction free generalizing i r with
  | nil =>
    cases ended
    exact List.drop_nil.symm
  | cons c free ih =>
    rw [drainFrom] at ended
    split_ifs at ended with more
    · simp only [Option.bind_eq_bind, Option.bind_eq_some_iff] at ended
      obtain ⟨d, _, r', rest, same⟩ := ended
      obtain rfl := Option.some.inj same
      have half : ((c :: free).length - i + 1) / 2 = (free.length - (i + 1) + 1) / 2 + 1 := by
        rw [List.length_cons] at more ⊢
        omega
      rw [half, List.drop_succ_cons, ← ih rest]
    · cases ended
      have none : ((c :: free).length - i + 1) / 2 = 0 := by omega
      rw [none, List.drop_zero]

/-- The first connection is always reached. -/
theorem drainFrom_cons {c : C} {free : List C} {r : List D × List C}
    (ended : drainFrom body 0 (c :: free) = some r) : ∃ d ds, body c = some d ∧ r.1 = d :: ds := by
  rw [drainFrom, if_pos (List.length_pos_of_ne_nil (List.cons_ne_nil c free))] at ended
  simp only [Option.bind_eq_bind, Option.bind_eq_some_iff] at ended
  obtain ⟨d, made, r', _, same⟩ := ended
  obtain rfl := Option.some.inj same
  exact ⟨d, r'.1, made, rfl⟩

end Loop

theorem destroyAll_drained_iff (free : List BufferedNetpoolConn) :
    (∃ r, destroyAll free = some r ∧ Drained free.length r) ↔
      free.length ≤ 1 ∧ ∀ con ∈ free, con.conn ≠ none := by
  constructor
  · rintro ⟨r, ended, drained⟩
    obtain ⟨ds, looped, rfl⟩ := Option.map_eq_some_iff.mp ended
    have short : free.length ≤ 1 := by
      have left := drained.free
      rw [drainFrom_left looped, List.drop_eq_nil_iff] at left
      omega
    refine ⟨short, ?_⟩
    rcases free with _ | ⟨con, _ | ⟨other, rest⟩⟩
    · exact nofun
    · obtain ⟨d, _, made, _⟩ := drainFrom_cons looped
      intro c mem lost
      obtain rfl := List.mem_singleton.mp mem
      rw [closeConn, lost] at made
      cases made
    · simp at short
  · rintro ⟨short, alive⟩
    rcases free with _ | ⟨con, _ | ⟨other, rest⟩⟩
    · exact ⟨⟨[], []⟩, rfl, rfl, rfl, nofun⟩
    · obtain ⟨id, here⟩ := Option.ne_none_iff_exists'.mp (alive con List.mem_cons_self)
      refine ⟨⟨[⟨con, true⟩], []⟩, ?_, rfl, rfl, by simp⟩
      simp [destroyAll, drainFrom, closeConn, here]
    · simp at short

theorem bufferedDestroyAll_drained_iff (free : List BufferedNetpoolConn) :
    (∃ r, bufferedDestroyAll free = some r ∧ Drained free.length r ∧ Flushed r) ↔ free = [] := by
  constructor
  · rintro ⟨r, ended, drained, _⟩
    rcases free with _ | ⟨con, free⟩
    · rfl
    -- the first connection is flushed, and not closed after that
    · simp only [bufferedDestroyAll, Option.bind_eq_bind, Option.bind_eq_some_iff] at ended
      obtain ⟨flushed, looped, closed, _, same⟩ := ended
      obtain rfl := Option.some.inj same
      obtain ⟨d, ds, made, first⟩ := drainFrom_cons looped
      cases made
      have open_ := drained.closed _ (List.mem_append_left _ (first ▸ List.mem_cons_self))
      cases open_
  · rintro rfl
    exact ⟨⟨[], []⟩, rfl, ⟨rfl, rfl, nofun⟩, nofun⟩

/-- The plain pool is drained just when it has at most one free connection, which is not lost, and
the buffered pool just when it has none. -/
theorem pools_drained_iff (free : List BufferedNetpoolConn) :
    ((∃ r, destroyAll free = some r ∧ Drained free.length r) ↔
      free.length ≤ 1 ∧ ∀ con ∈ free, con.conn ≠ none) ∧
    ((∃ r, bufferedDestroyAll free = some r ∧ Drained free.length r ∧ Flushed r) ↔ free = []) :=
  ⟨destroyAll_drained_iff free, bufferedDestroyAll_drained_iff free⟩

/-- Four connections with a byte each. -/
def four : List BufferedNetpoolConn := (List.range 4).map fun i => ⟨some i, [1], 512⟩

/-- Of four connections the plain pool leaves two open. The buffered pool flushes two that stay
open, closes one with its byte unsent and leaves one in the channel. -/
theorem pools_not_drained :
    (¬ ∃ r, destroyAll four = some r ∧ Drained 4 r) ∧
    (¬ ∃ r, bufferedDestroyAll four = some r ∧ Drained 4 r ∧ Flushed r) ∧
    destroyAll four = some ⟨[⟨⟨some 0, [1], 512⟩, true⟩, ⟨⟨some 1, [1], 512⟩, true⟩],
      [⟨some 2, [1], 512⟩, ⟨some 3, [1], 512⟩]⟩ ∧
    bufferedDestroyAll four = some ⟨[⟨⟨some 0, [], 512⟩, false⟩, ⟨⟨some 1, [], 512⟩, false⟩,
      ⟨⟨some 2, [1], 512⟩, true⟩], [⟨some 3, [1], 512⟩]⟩ := by
  refine ⟨fun all => ?_, fun all => ?_, by decide, by decide⟩
  · exact absurd ((destroyAll_drained_iff four).mp all).1 (by decide)
  · exact absurd ((bufferedDestroyAll_drained_iff four).mp all) (by decide)

end Netpool
