import Cadent.Lib.Runs
import Mathlib.Data.List.Count

/-!
# Health checks

`testUp` asks whether a server answers and takes it out of the pool when the counter of its
current failures, with this one, is above `DownOutCount`. `gotTestResponse` is to advance the
counters afterwards, but adds zero to them, so the counter of the current failures stays where it
was set. A server that was taken out is not checked until it is added again.
-/

namespace Health

open Runs

/-- The counters are `expvar` integers of 64 bits. -/
structure ServerPoolServer where
  serverPingCounts : BitVec 64
  serverUpCounts : BitVec 64
  serverDownCounts : BitVec 64
  serverCurrentDownCounts : BitVec 64
  deriving DecidableEq

structure System where
  server : ServerPoolServer
  dropped : Bool
  deriving DecidableEq

def start : System := ⟨⟨0#64, 0#64, 0#64, 0#64⟩, false⟩

inductive Action where
  | check (up : Bool)
  | reAdd
  deriving DecidableEq

/-- Whether a failure is one too many. -/
def Exhausted (downOutCount : BitVec 64) (server : ServerPoolServer) : Prop :=
  0 < downOutCount.toInt ∧
    downOutCount.toInt < (server.serverCurrentDownCounts + 1#64).toInt

instance (downOutCount : BitVec 64) (server : ServerPoolServer) :
    Decidable (Exhausted downOutCount server) := inferInstanceAs (Decidable (_ ∧ _))

/-- The server with its pings counted, and whether it is dropped. -/
def testUp (downOutCount : BitVec 64) (server : ServerPoolServer) (up : Bool) :
    ServerPoolServer × Bool :=
  ({ server with serverPingCounts := server.serverPingCounts + 1#64 },
    !up && decide (Exhausted downOutCount server))

def gotTestResponse (server : ServerPoolServer) (message : Bool) : ServerPoolServer :=
  if message then
    { server with
      serverCurrentDownCounts := 0#64
      serverUpCounts := server.serverUpCounts + 0#64 }
  else
    { server with
      serverDownCounts := server.serverDownCounts + 0#64
      serverCurrentDownCounts := server.serverCurrentDownCounts + 0#64 }

/-- The outcome says whether the server was dropped. -/
def step (downOutCount : BitVec 64) (s : System) : Action → Option (System × Bool)
  | .check up =>
    if s.dropped then none
    else
      let r := testUp downOutCount s.server up
      some (⟨gotTestResponse r.1 up, r.2⟩, r.2)
  | .reAdd =>
    if s.dropped then some (⟨{ s.server with serverCurrentDownCounts := 0#64 }, false⟩, false)
    else none

abbrev History := List (Taken System Action Bool)

/-- The failures in a row after one more step. -/
def failures (n : Nat) : Action → Nat
  | .check false => n + 1
  | _ => 0

/-- After `n` failures in a row: the server is dropped by the failure that finds `d` before it, and
by nothing else. -/
def DroppedAt (d : Nat) : Nat → History → Prop
  | _, [] => True
  | n, e :: h =>
    (e.out = true ↔ e.act = .check false ∧ n = d) ∧ DroppedAt d (failures n e.act) h

/-- After `n` failures in a row: no failure finds `d` before it. -/
def Spared (d : Nat) : Nat → List Action → Prop
  | _, [] => True
  | n, a :: as => ¬ (a = .check false ∧ n = d) ∧ Spared d (failures n a) as

instance decidableSpared (d : Nat) : (n : Nat) → (as : List Action) → Decidable (Spared d n as)
  | _, [] => inferInstanceAs (Decidable True)
  | n, a :: as =>
    have := decidableSpared d (failures n a) as
    inferInstanceAs (Decidable (¬ (a = .check false ∧ n = d) ∧ Spared d (failures n a) as))

def checksIn (up : Bool) (h : History) : Nat := (h.map (·.act)).count (.check up)

/-- The counters are the numbers of checks. -/
structure Counted (h : History) (s : System) : Prop where
  up : s.server.serverUpCounts.toInt = checksIn true h
  down : s.server.serverDownCounts.toInt = checksIn false h

/-! ### Nothing is counted and nothing dropped -/

/-- What a run leaves as it was at the start. -/
structure Unmoved (h : History) (s : System) : Prop where
  up : s.server.serverUpCounts = 0#64
  down : s.server.serverDownCounts = 0#64
  current : s.server.serverCurrentDownCounts = 0#64
  dropped : s.dropped = false
  checks : ∀ e ∈ h, e.out = false ∧ ∃ up, e.act = .check up

variable {downOutCount : BitVec 64} {h : History} {s : System}

theorem not_exhausted (least : 1 ≤ downOutCount.toInt) {server : ServerPoolServer}
    (current : server.serverCurrentDownCounts = 0#64) : ¬ Exhausted downOutCount server := by
  rintro ⟨_, more⟩
  rw [current] at more
  have one : (0#64 + 1#64).toInt = 1 := by decide
  omega

theorem unmoved_of_run (least : 1 ≤ downOutCount.toInt)
    (run : Run (step downOutCount) anyStep start h s) : Unmoved h s := by
  refine run_invariant Unmoved ⟨rfl, rfl, rfl, rfl, nofun⟩ ?_ run
  intro h s a s' out before _ taken
  cases a with
  | reAdd =>
    rw [step, before.dropped] at taken
    cases taken
  | check up =>
    have kept : (testUp downOutCount s.server up).2 = false := by
      rw [testUp, decide_eq_false (not_exhausted least before.current), Bool.and_false]
    simp only [step, before.dropped, kept, Bool.false_eq_true, if_false, Option.some.injEq,
      Prod.mk.injEq] at taken
    obtain ⟨rfl, rfl⟩ := taken
    have checks : ∀ e ∈ h ++ [⟨s, .check up, false⟩], e.out = false ∧ ∃ up, e.act = .check up := by
      intro e mem
      rcases List.mem_append.mp mem with old | new
      · exact before.checks e old
      · obtain rfl := List.mem_singleton.mp new
        exact ⟨rfl, up, rfl⟩
    cases up with
    | true => exact ⟨by simp [gotTestResponse, testUp, before.up], before.down, rfl, rfl, checks⟩
    | false =>
      exact ⟨before.up, by simp [gotTestResponse, testUp, before.down],
        by simp [gotTestResponse, testUp, before.current], rfl, checks⟩

/-- Where nothing is dropped, nothing should have been. -/
theorem droppedAt_iff_spared {d : Nat} (kept : ∀ e ∈ h, e.out = false) (n : Nat) :
    DroppedAt d n h ↔ Spared d n (h.map (·.act)) := by
  induction h generalizing n with
  | nil => exact Iff.rfl
  | cons e h ih =>
    obtain ⟨first, rest⟩ := List.forall_mem_cons.mp kept
    rw [DroppedAt, List.map_cons, Spared, ih rest, first]
    simp

theorem checksIn_add (checks : ∀ e ∈ h, ∃ up, e.act = .check up) :
    checksIn true h + checksIn false h = h.length := by
  induction h with
  | nil => rfl
  | cons e h ih =>
    obtain ⟨⟨up, act⟩, rest⟩ := List.forall_mem_cons.mp checks
    have before := ih rest
    simp only [checksIn] at before
    cases up <;> simp [checksIn, act] <;> omega

theorem counted_iff_nil (unmoved : Unmoved h s) : Counted h s ↔ h = [] := by
  constructor
  · rintro ⟨up, down⟩
    rw [unmoved.up] at up
    rw [unmoved.down] at down
    have zero : (0#64).toInt = 0 := by decide
    have all := checksIn_add fun e mem => (unmoved.checks e mem).2
    exact List.eq_nil_of_length_eq_zero (by omega)
  · rintro rfl
    refine ⟨?_, ?_⟩
    · rw [unmoved.up]
      rfl
    · rw [unmoved.down]
      rfl

/-- A server is dropped in time just when it never fails often enough to be dropped, and its
counters are right just when it was never checked. -/
theorem dropped_in_time_iff (least : 1 ≤ downOutCount.toInt)
    (run : Run (step downOutCount) anyStep start h s) :
    (DroppedAt downOutCount.toNat 0 h ↔ Spared downOutCount.toNat 0 (h.map (·.act))) ∧
      (DroppedAt downOutCount.toNat 0 h ∧ Counted h s ↔ h = []) := by
  have unmoved := unmoved_of_run least run
  refine ⟨droppedAt_iff_spared (fun e mem => (unmoved.checks e mem).1) 0, ?_⟩
  rw [counted_iff_nil unmoved]
  constructor
  · exact fun both => both.2
  · rintro rfl
    exact ⟨trivial, rfl⟩

/-- With one failure allowed, a failure and a success are no reason to drop the server. -/
theorem dropped_in_time_iff_once :
    ∃ h s, Run (step 1#64) anyStep start h s ∧ h.length = 2 ∧ DroppedAt 1 0 h := by
  have run := run_of_exec (step 1#64) anyStep start [.check false, .check true] (by decide)
  exact ⟨_, _, run, by decide, (dropped_in_time_iff (by decide) run).1.mpr (by decide)⟩

/-- With one failure allowed, three failures leave the server in the pool and its counters at
zero. -/
theorem never_dropped :
    ∃ h s, Run (step 1#64) anyStep start h s ∧
      h.map (·.act) = [.check false, .check false, .check false] ∧ s.dropped = false ∧
      s.server.serverDownCounts = 0#64 ∧ ¬ DroppedAt 1 0 h ∧ ¬ Counted h s := by
  have run := run_of_exec (step 1#64) anyStep start
    [.check false, .check false, .check false] (by decide)
  have unmoved := unmoved_of_run (by decide) run
  refine ⟨_, _, run, by decide, by decide, by decide, ?_, ?_⟩
  · rw [droppedAt_iff_spared fun e mem => (unmoved.checks e mem).1]
    decide
  · rw [counted_iff_nil unmoved]
    exact List.ne_nil_of_length_pos (by decide)

end Health
