import Cadent.Lib.Runs
import Mathlib.Algebra.Order.BigOperators.Group.List
import Mathlib.Algebra.Order.Group.Nat
import Mathlib.Algebra.Ring.Nat

/-!
# Buffered connections

A connection of the pool collects what it is given and writes it when it has too much, or once a
second in a goroutine of its own. The goroutine that has taken the connection from the pool writes
to it, resets it after an error, and reconnects it when `Open` finds it without a connection or too
old. The buffer is read and written under a lock; `SetConn` is not, and may come between the two
steps of a flush. A network connection delivers the beginning of what it is given, and returns no
error only if that is all of it. When a connection is too old is left open.
-/

namespace Netpool

open Runs

abbrev Bytes := List UInt8

inductive WriteError where
  | timeout
  | other
  deriving DecidableEq

/-- How many bytes a connection has delivered, and the error it returned. -/
structure WriteResult where
  n : Nat
  err : Option WriteError
  deriving DecidableEq

/-- What can be returned for some bytes. -/
structure WriteResult.Possible (r : WriteResult) (b : Bytes) : Prop where
  part : r.n ≤ b.length
  whole : r.err = none → r.n = b.length

instance (r : WriteResult) (b : Bytes) : Decidable (r.Possible b) :=
  decidable_of_iff (r.n ≤ b.length ∧ (r.err = none → r.n = b.length))
    ⟨fun both => ⟨both.1, both.2⟩, fun possible => ⟨possible.part, possible.whole⟩⟩

structure BufferedNetpoolConn where
  conn : Option Nat
  writebuffer : Bytes
  buffersize : Nat
  deriving DecidableEq

/-- What a call leaves behind: the connection, what was delivered, and its error. -/
structure Sent where
  conn : BufferedNetpoolConn
  delivered : Bytes
  err : Option WriteError
  deriving DecidableEq

namespace BufferedNetpoolConn

variable (n : BufferedNetpoolConn)

def setConn (conn : Option Nat) : BufferedNetpoolConn := { n with conn := conn }

/-- `Write` has to empty the buffer first. -/
def Overflows (b : Bytes) : Prop :=
  n.buffersize < n.writebuffer.length + b.length ∧ n.conn ≠ none

instance (b : Bytes) : Decidable (n.Overflows b) := inferInstanceAs (Decidable (_ ∧ _))

def write (b : Bytes) (r : WriteResult) : Sent :=
  if n.Overflows b then
    match r.err with
    | some err => ⟨n.setConn none, n.writebuffer.take r.n, some err⟩
    | none => ⟨{ n with writebuffer := [] ++ b }, n.writebuffer.take r.n, none⟩
  else ⟨{ n with writebuffer := n.writebuffer ++ b }, [], none⟩

/-- `Flush` when it has found a connection `c`. -/
def Flushes (c : Option Nat) : Prop := n.writebuffer ≠ [] ∧ c ≠ none

instance (c : Option Nat) : Decidable (n.Flushes c) := inferInstanceAs (Decidable (_ ∧ _))

def flush (c : Option Nat) (r : WriteResult) : Sent :=
  if n.Flushes c then
    match r.err with
    | some .timeout => ⟨n, n.writebuffer.take r.n, some .timeout⟩
    | some .other => ⟨n.setConn none, n.writebuffer.take r.n, some .other⟩
    | none => ⟨{ n with writebuffer := [] }, n.writebuffer.take r.n, none⟩
  else ⟨n, [], none⟩

end BufferedNetpoolConn

/-- What the goroutine that has the connection does next: call something, or one of the steps of
`ResetConn` and of the reconnect in `Open`. -/
inductive Owner where
  | ready
  | resetFlush
  | resetClose
  | resetDial
  | openFlush
  | openClear
  | openDial
  | panicked
  deriving DecidableEq

/-- `flusher` is the connection that the periodic flush has found; it holds the lock then. -/
structure System where
  netConn : BufferedNetpoolConn
  next : Nat
  owner : Owner
  flusher : Option Nat
  deriving DecidableEq

def start (buffersize : Nat) : System := ⟨⟨some 0, [], buffersize⟩, 1, .ready, none⟩

inductive Action where
  | write (b : Bytes) (r : WriteResult)
  | resetConn
  | reconnect
  | go (r : WriteResult) (dialed : Bool)
  | flusherTake
  | flusherWrite (r : WriteResult)

/-- What was delivered, and what `Write` has accepted. -/
structure Out where
  delivered : Bytes
  accepted : Bytes
  deriving DecidableEq

def Out.none : Out := ⟨[], []⟩

namespace System

variable (s : System)

/-- The connection that a flush of the owner's finds. -/
def flushOwner (r : WriteResult) (owner : Owner) : System × Out :=
  let sent := s.netConn.flush s.netConn.conn r
  ({ s with netConn := sent.conn, owner := owner }, ⟨sent.delivered, []⟩)

/-- A new connection, when there is one. -/
def dial (dialed : Bool) : System :=
  if dialed then { s with netConn := s.netConn.setConn (some s.next), next := s.next + 1 } else s

/-- The next step of `ResetConn` or `Open`. A flush has to wait for the lock. -/
def goOwner (r : WriteResult) (dialed : Bool) : Option (System × Out) :=
  match s.owner with
  | .ready | .panicked => none
  | .resetFlush =>
    if s.flusher = none ∧ r.Possible s.netConn.writebuffer then some (s.flushOwner r .resetClose)
    else none
  -- the connection is asked for again, and may be gone
  | .resetClose =>
    if s.netConn.conn = none then some ({ s with owner := .panicked }, .none)
    else some ({ s with netConn := s.netConn.setConn none, owner := .resetDial }, .none)
  | .resetDial => some ({ s.dial dialed with owner := .ready }, .none)
  | .openFlush =>
    if s.flusher = none ∧ r.Possible s.netConn.writebuffer then some (s.flushOwner r .openClear)
    else none
  | .openClear => some ({ s with netConn := s.netConn.setConn none, owner := .openDial }, .none)
  | .openDial =>
    some ({ s with netConn := s.netConn.setConn none }.dial dialed |> ({ · with owner := .ready }),
      .none)

def step : Action → Option (System × Out)
  | .write b r =>
    if s.owner = .ready ∧ s.flusher = none ∧ r.Possible s.netConn.writebuffer then
      let sent := s.netConn.write b r
      some ({ s with netConn := sent.conn },
        ⟨sent.delivered, if sent.err = none then b else []⟩)
    else none
  | .resetConn =>
    if s.owner = .ready then
      some ({ s with owner := if s.netConn.conn = none then .resetDial else .resetFlush }, .none)
    else none
  | .reconnect => if s.owner = .ready then some ({ s with owner := .openFlush }, .none) else none
  | .go r dialed => s.goOwner r dialed
  | .flusherTake =>
    if s.owner ≠ .panicked ∧ s.flusher = none ∧ s.netConn.writebuffer ≠ [] then
      some ({ s with flusher := s.netConn.conn }, .none)
    else none
  | .flusherWrite r =>
    match s.flusher with
    | none => none
    | some c =>
      if s.owner ≠ .panicked ∧ r.Possible s.netConn.writebuffer then
        let sent := s.netConn.flush (some c) r
        some ({ s with netConn := sent.conn, flusher := none }, ⟨sent.delivered, []⟩)
      else none

/-- What a connection returns to a step, when it is asked to write. -/
def returned : Action → Option WriteResult
  | .write b r => if s.netConn.Overflows b then some r else none
  | .go r _ =>
    if (s.owner = .resetFlush ∨ s.owner = .openFlush) ∧ s.netConn.Flushes s.netConn.conn then some r
    else none
  | .flusherWrite r => if s.netConn.Flushes s.flusher then some r else none
  | _ => none

/-- How much a connection has delivered of what it returns an error for. -/
def torn (a : Action) : Nat :=
  match s.returned a with
  | some ⟨n, some _⟩ => n
  | _ => 0

end System

abbrev History := List (Taken System Action Out)

def deliveredIn (h : History) : Bytes := h.flatMap (·.out.delivered)

def acceptedIn (h : History) : Bytes := h.flatMap (·.out.accepted)

/-- What was delivered and what is in the buffer is what was accepted. -/
def DeliversOnce (h : History) (s : System) : Prop :=
  deliveredIn h ++ s.netConn.writebuffer = acceptedIn h

/-- No connection delivers a part of what it returns an error for. -/
def NothingTorn (h : History) : Prop := ∀ e ∈ h, e.pre.torn e.act = 0

instance (h : History) (s : System) : Decidable (DeliversOnce h s) :=
  inferInstanceAs (Decidable (_ = _))

instance (h : History) : Decidable (NothingTorn h) :=
  inferInstanceAs (Decidable (∀ e ∈ h, e.pre.torn e.act = 0))

/-! ### What a step does to the buffer -/

/-- What becomes of a buffer, with what was delivered and accepted, and the part that was delivered
in vain. -/
inductive Effect (buffer : Bytes) : Bytes → Out → Nat → Prop
  | quiet : Effect buffer buffer .none 0
  | kept (b : Bytes) : Effect buffer (buffer ++ b) ⟨[], b⟩ 0
  | sent (b : Bytes) : Effect buffer b ⟨buffer, b⟩ 0
  | failed (n : Nat) (part : n ≤ buffer.length) : Effect buffer buffer ⟨buffer.take n, []⟩ n

variable {s s' : System} {a : Action} {out : Out} {r : WriteResult}

theorem take_whole {b : Bytes} (possible : r.Possible b) (none : r.err = none) :
    b.take r.n = b := by
  rw [possible.whole none, List.take_length]

/-- Where a flush has a connection, it empties the buffer or fails. -/
theorem effect_flush {n : BufferedNetpoolConn} (c : Option Nat)
    (possible : r.Possible n.writebuffer) :
    Effect n.writebuffer (n.flush c r).conn.writebuffer ⟨(n.flush c r).delivered, []⟩
      (match (if n.Flushes c then some r else none) with
        | some ⟨n, some _⟩ => n
        | _ => 0) := by
  obtain ⟨count, err⟩ := r
  rw [BufferedNetpoolConn.flush]
  by_cases flushes : n.Flushes c
  · rw [if_pos flushes, if_pos flushes]
    cases err with
    | none =>
      dsimp only
      rw [take_whole possible rfl]
      exact .sent []
    | some err => cases err <;> exact .failed _ possible.part
  · rw [if_neg flushes, if_neg flushes]
    exact .quiet

theorem effect_write {n : BufferedNetpoolConn} (b : Bytes) (possible : r.Possible n.writebuffer) :
    Effect n.writebuffer (n.write b r).conn.writebuffer
      ⟨(n.write b r).delivered, if (n.write b r).err = none then b else []⟩
      (match (if n.Overflows b then some r else none) with
        | some ⟨n, some _⟩ => n
        | _ => 0) := by
  obtain ⟨count, err⟩ := r
  rw [BufferedNetpoolConn.write]
  by_cases overflows : n.Overflows b
  · rw [if_pos overflows, if_pos overflows]
    cases err with
    | none =>
      dsimp only
      rw [take_whole possible rfl]
      exact .sent b
    | some err => exact .failed _ possible.part
  · rw [if_neg overflows, if_neg overflows]
    exact .kept b

@[simp] theorem writebuffer_setConn (n : BufferedNetpoolConn) (conn : Option Nat) :
    (n.setConn conn).writebuffer = n.writebuffer := rfl

@[simp] theorem writebuffer_dial (s : System) (dialed : Bool) :
    (s.dial dialed).netConn.writebuffer = s.netConn.writebuffer := by
  cases dialed <;> rfl

theorem effect_goOwner {dialed : Bool} (taken : s.goOwner r dialed = some (s', out)) :
    Effect s.netConn.writebuffer s'.netConn.writebuffer out (s.torn (.go r dialed)) := by
  rw [System.torn, System.returned]
  rw [System.goOwner] at taken
  cases owner : s.owner with
  | ready | panicked =>
    simp only [owner] at taken
    cases taken
  | resetFlush | openFlush =>
    simp only [owner] at taken
    split_ifs at taken with ok
    obtain ⟨rfl, rfl⟩ := Prod.mk.inj (Option.some.inj taken)
    simpa using effect_flush s.netConn.conn ok.2
  | resetClose =>
    simp only [owner] at taken
    split_ifs at taken <;> obtain ⟨rfl, rfl⟩ := Prod.mk.inj (Option.some.inj taken) <;>
      simpa using Effect.quiet
  | resetDial | openClear | openDial =>
    simp only [owner] at taken
    obtain ⟨rfl, rfl⟩ := Prod.mk.inj (Option.some.inj taken)
    simpa using Effect.quiet

theorem effect_of_step (taken : s.step a = some (s', out)) :
    Effect s.netConn.writebuffer s'.netConn.writebuffer out (s.torn a) := by
  cases a with
  | write b r =>
    rw [System.step] at taken
    split_ifs at taken with ok
    obtain ⟨rfl, rfl⟩ := Prod.mk.inj (Option.some.inj taken)
    exact effect_write b ok.2.2
  | resetConn =>
    rw [System.step] at taken
    split_ifs at taken
    all_goals
      obtain ⟨rfl, rfl⟩ := Prod.mk.inj (Option.some.inj taken)
      exact .quiet
  | reconnect | flusherTake =>
    rw [System.step] at taken
    split_ifs at taken
    obtain ⟨rfl, rfl⟩ := Prod.mk.inj (Option.some.inj taken)
    exact .quiet
  | go r dialed => exact effect_goOwner taken
  | flusherWrite r =>
    rw [System.step] at taken
    rw [System.torn, System.returned]
    cases flusher : s.flusher with
    | none =>
      simp only [flusher] at taken
      cases taken
    | some c =>
      simp only [flusher] at taken
      split_ifs at taken with ok
      obtain ⟨rfl, rfl⟩ := Prod.mk.inj (Option.some.inj taken)
      exact effect_flush (some c) ok.2

/-- The lengths differ by what was delivered in vain. -/
theorem Effect.length {buffer buffer' : Bytes} {torn : Nat}
    (effect : Effect buffer buffer' out torn) :
    out.delivered.length + buffer'.length = buffer.length + out.accepted.length + torn := by
  cases effect with
  | quiet => simp [Out.none]
  | kept b => simp
  | sent b => simp
  | failed n part =>
    simp only [List.length_take, List.length_nil, Nat.min_eq_left part]
    omega

/-- Where nothing was, the bytes go on from the buffer. -/
theorem Effect.bytes {buffer buffer' : Bytes} (effect : Effect buffer buffer' out 0) :
    out.delivered ++ buffer' = buffer ++ out.accepted := by
  cases effect with
  | quiet => simp [Out.none]
  | kept b => rfl
  | sent b => rfl
  | failed => simp

/-! ### Runs -/

variable {buffersize : Nat} {h : History}

/-- All that was delivered in vain. -/
def tornIn (h : History) : Nat := (h.map fun e => e.pre.torn e.act).sum

theorem length_of_run (run : Run System.step anyStep (start buffersize) h s) :
    (deliveredIn h).length + s.netConn.writebuffer.length = (acceptedIn h).length + tornIn h := by
  refine run_invariant (fun h s => (deliveredIn h).length + s.netConn.writebuffer.length =
    (acceptedIn h).length + tornIn h) rfl ?_ run
  intro h s a s' out before _ taken
  have step := (effect_of_step taken).length
  simp only [deliveredIn, acceptedIn, tornIn, List.flatMap_append, List.flatMap_singleton,
    List.length_append, List.map_append, List.map_singleton, List.sum_append,
    List.sum_singleton] at before ⊢
  omega

theorem delivers_of_run (run : Run System.step anyStep (start buffersize) h s)
    (nothing : NothingTorn h) : DeliversOnce h s := by
  revert nothing
  refine run_invariant (fun h s => NothingTorn h → DeliversOnce h s) ?_ ?_ run
  · exact fun _ => (rfl : ([] : Bytes) ++ [] = [])
  intro h s a s' out before _ taken nothing
  have effect := effect_of_step taken
  rw [nothing ⟨s, a, out⟩ (List.mem_append_right h List.mem_cons_self)] at effect
  have earlier : deliveredIn h ++ s.netConn.writebuffer = acceptedIn h :=
    before fun e mem => nothing e (List.mem_append_left _ mem)
  rw [DeliversOnce, deliveredIn, acceptedIn, List.flatMap_append, List.flatMap_append,
    List.flatMap_singleton, List.flatMap_singleton, List.append_assoc, effect.bytes,
    ← List.append_assoc]
  exact congrArg (· ++ out.accepted) earlier

/-- After every run, what was delivered and what is in the buffer is what was accepted just when no
connection has delivered a part of what it returned an error for. -/
theorem delivers_once_iff (run : Run System.step anyStep (start buffersize) h s) :
    DeliversOnce h s ↔ NothingTorn h := by
  constructor
  · intro once
    have lengths := length_of_run run
    have same := congrArg List.length once
    rw [List.length_append] at same
    have none : tornIn h = 0 := by omega
    intro e mem
    exact List.sum_eq_zero_iff.mp none _ (List.mem_map_of_mem mem)
  · exact delivers_of_run run

/-! ### Some runs -/

/-- A line that is kept, a write that fails without delivering anything, a reset with a new
connection, and a flush that delivers the line. -/
def resent : List Action :=
  [.write [1, 2] ⟨0, none⟩, .write [3] ⟨0, some .other⟩, .resetConn, .go ⟨0, none⟩ true,
    .write [3] ⟨2, none⟩, .flusherTake, .flusherWrite ⟨0, some .timeout⟩]

theorem delivers_once_iff_resent :
    ∃ h s, Run System.step anyStep (start 2) h s ∧ DeliversOnce h s ∧
      deliveredIn h = [1, 2] ∧ s.netConn.writebuffer = [3] := by
  have run := run_of_exec System.step anyStep (start 2) resent (by decide)
  exact ⟨_, _, run, (delivers_once_iff run).mpr (by decide), by decide, by decide⟩

/-- A line is delivered twice in part when a flush runs out of time after one of its bytes. -/
def torn : List Action :=
  [.write [1, 2] ⟨0, none⟩, .flusherTake, .flusherWrite ⟨1, some .timeout⟩, .flusherTake,
    .flusherWrite ⟨2, none⟩]

/-- After a flush that fails in `ResetConn` there is no connection to close. -/
def resetTwice : List Action :=
  [.write [1, 2] ⟨0, none⟩, .resetConn, .go ⟨0, some .other⟩ false, .go ⟨0, none⟩ false]

theorem delivers_twice :
    (∃ h s, Run System.step anyStep (start 2) h s ∧ ¬ DeliversOnce h s ∧
      deliveredIn h = [1, 1, 2] ∧ acceptedIn h = [1, 2]) ∧
    ∃ h s, Run System.step anyStep (start 2) h s ∧ s.owner = .panicked := by
  have run := run_of_exec System.step anyStep (start 2) torn (by decide)
  have run' := run_of_exec System.step anyStep (start 2) resetTwice (by decide)
  exact ⟨⟨_, _, run, by decide, by decide, by decide⟩, _, _, run', by decide⟩

end Netpool
