import Cadent.Accumulator.Flushing
import Cadent.Accumulator.Graphite
import Cadent.Accumulator.Statsd

/-!
# What is flushed

The counts of the flushed stats add up to the number of lines, and for graphite the sums to
the values, in runs in which the steps of flushes and lines keep apart. A set counts its
values and not its lines. A sum that happens to be the flag of an empty item is flushed as 0.
-/

namespace Accumulator

open Runs

section Graphite

variable (env : Repr.Naming) (parseFloat : String → Option Parsed) (a : GraphiteAccumulate)

def graphiteCount : Tally (a.kind env parseFloat) Int where
  measure item := item.count
  weight _ := 1
  counted line := line.value.isSome
  plain _ := True
  measure_fresh _ := rfl
  plain_fresh _ _ := trivial
  measure_accumulate item line _ counted := by
    obtain ⟨val, value⟩ := Option.isSome_iff_exists.mp counted
    simp [GraphiteAccumulate.kind, GraphiteBaseStatItem.accumulate, value]
  plain_accumulate _ _ _ := trivial
  measure_zeroOut _ _ := rfl
  plain_zeroOut _ _ := trivial

def graphiteSum : Tally (a.kind env parseFloat) ℚ where
  measure item := item.sum
  weight line := line.value.getD 0
  counted line := line.value.isSome
  plain _ := True
  measure_fresh _ := rfl
  plain_fresh _ _ := trivial
  measure_accumulate item line _ counted := by
    obtain ⟨val, value⟩ := Option.isSome_iff_exists.mp counted
    simp [GraphiteAccumulate.kind, GraphiteBaseStatItem.accumulate, value]
  plain_accumulate _ _ _ := trivial
  measure_zeroOut _ _ := rfl
  plain_zeroOut _ _ := trivial

/-- Lines have finite values, and no sum is the flag when it is flushed. -/
def GraphiteFine (s : System GraphiteLine GraphiteBaseStatItem) :
    Action (String × Int) → Prop
  | .lookup raw => ∀ line ∈ (a.parse env parseFloat raw).toOption, line.value.isSome
  | .read _ => ∀ ref ∈ s.store.refs, ∀ item ∈ s.store.items[ref]?, item.sum ≠ minFlag
  | _ => True

instance (s : System GraphiteLine GraphiteBaseStatItem) (act : Action (String × Int)) :
    Decidable (GraphiteFine env parseFloat a s act) := by
  cases act <;> unfold GraphiteFine <;> infer_instance

def GraphiteCareful (s : System GraphiteLine GraphiteBaseStatItem) (act : Action (String × Int)) :
    Prop := Careful (a.kind env parseFloat) s act ∧ GraphiteFine env parseFloat a s act

instance (s : System GraphiteLine GraphiteBaseStatItem) (act : Action (String × Int)) :
    Decidable (GraphiteCareful env parseFloat a s act) := instDecidableAnd

end Graphite

section Statsd

variable (env : Repr.Naming) (parseFloat : String → Option Parsed)
variable (hashed : String → BitVec 64) (a : StatsdAccumulate)

def StatsdItem.count : StatsdItem → Int
  | base s => s.count
  | timer s => s.count
  | set s => s.values.length

def StatsdItem.IsSet : StatsdItem → Prop
  | set _ => True
  | _ => False

def statsdCount : Tally (a.kind env parseFloat hashed) Int where
  measure := StatsdItem.count
  weight _ := 1
  counted line := line.value.isSome ∧ line.cType ≠ "s"
  plain item := ¬ item.IsSet
  measure_fresh line := by
    dsimp only [StatsdAccumulate.kind, StatsdAccumulate.fresh]
    split_ifs <;> rfl
  plain_fresh line counted := by
    dsimp only [StatsdAccumulate.kind, StatsdAccumulate.fresh]
    rw [if_neg counted.2]
    split_ifs <;> exact not_false
  measure_accumulate item line plain counted := by
    obtain ⟨val, value⟩ := Option.isSome_iff_exists.mp counted.1
    cases item with
    | base s =>
      simp [StatsdAccumulate.kind, StatsdItem.accumulate, StatsdBaseStatItem.accumulate, value,
        StatsdItem.count]
    | timer s =>
      simp [StatsdAccumulate.kind, StatsdItem.accumulate, StatsdTimerStatItem.accumulate, value,
        StatsdItem.count]
    | set s => exact absurd trivial plain
  plain_accumulate item line plain := by cases item <;> exact plain
  measure_zeroOut item _ := by cases item <;> rfl
  plain_zeroOut item plain := by cases item <;> exact plain

/-- Lines have finite values and are not those of sets. -/
def StatsdFine : Action String → Prop
  | .lookup raw => ∀ line ∈ (StatsdAccumulate.parse env parseFloat raw).toOption,
    line.value.isSome ∧ line.cType ≠ "s"
  | _ => True

def StatsdCareful (s : System StatsdLine StatsdItem) (act : Action String) : Prop :=
  Careful (a.kind env parseFloat hashed) s act ∧ StatsdFine env parseFloat act

end Statsd

/-! ### Runs -/

variable {env : Repr.Naming} {parseFloat : String → Option Parsed} {hashed : String → BitVec 64}
variable {inKeepKeys : Bool}

theorem item?_mem {Item : Type} {st : Store Item} {key : String} {item : Item}
    (here : st.item? key = some item) : ∃ ref ∈ st.refs, st.items[ref]? = some item := by
  obtain ⟨ref, found, object⟩ := Option.bind_eq_some_iff.mp here
  exact ⟨ref, mem_refs.mpr ⟨key, found⟩, object⟩

theorem graphite_count_shown (a : GraphiteAccumulate) (now : Int) (item : GraphiteBaseStatItem) :
    ((a.kind env parseFloat).repr now item).count =
      (graphiteCount env parseFloat a).measure item := rfl

theorem graphite_sum_shown (a : GraphiteAccumulate) (now : Int) {item : GraphiteBaseStatItem}
    (unflagged : item.sum ≠ minFlag) :
    ((a.kind env parseFloat).repr now item).sum = (graphiteSum env parseFloat a).measure item :=
  if_neg unflagged

theorem statsd_count_shown (a : StatsdAccumulate) (now : Int) (item : StatsdItem) :
    ((a.kind env parseFloat hashed).repr now item).count =
      (statsdCount env parseFloat hashed a).measure item := by
  cases item <;> rfl

theorem graphite_balanced {a : GraphiteAccumulate}
    {h : History (String × Int) GraphiteLine GraphiteBaseStatItem}
    {s : System GraphiteLine GraphiteBaseStatItem}
    (run : Run (step (a.kind env parseFloat) inKeepKeys) (GraphiteCareful env parseFloat a)
      start h s) :
    Balanced (graphiteCount env parseFloat a) Stat.count h s ∧
      Balanced (graphiteSum env parseFloat a) Stat.sum h s := by
  refine run_invariant (fun h s => Balanced (graphiteCount env parseFloat a) Stat.count h s ∧
    Balanced (graphiteSum env parseFloat a) Stat.sum h s) ⟨balanced_start, balanced_start⟩ ?_ run
  intro h s act s' out inv allowed taken
  obtain ⟨careful, fine⟩ := allowed
  have counted : ∀ line, lineOf (a.kind env parseFloat) act = some line → line.value.isSome := by
    intro line here
    cases act with
    | lookup raw => exact fine line here
    | _ => cases here
  refine ⟨inv.1.step careful counted (fun _ _ _ now item _ => graphite_count_shown a now item)
    taken, inv.2.step careful counted ?_ taken⟩
  rintro order rfl key now item here
  obtain ⟨ref, mem, object⟩ := item?_mem here
  exact graphite_sum_shown a now (fine ref mem item object)

theorem statsd_balanced {a : StatsdAccumulate} {h : History String StatsdLine StatsdItem}
    {s : System StatsdLine StatsdItem}
    (run : Run (step (a.kind env parseFloat hashed) inKeepKeys)
      (StatsdCareful env parseFloat hashed a) start h s) :
    Balanced (statsdCount env parseFloat hashed a) Stat.count h s := by
  refine run_invariant _ balanced_start ?_ run
  intro h s act s' out inv allowed taken
  obtain ⟨careful, fine⟩ := allowed
  refine inv.step careful ?_ (fun _ _ _ now item _ => statsd_count_shown a now item) taken
  intro line here
  cases act with
  | lookup raw =>
    dsimp only [lineOf, StatsdAccumulate.kind] at here
    exact fine line here
  | _ => cases here

/-- When a flush reads the items and no line is under way, the stats of all flushes add up to
the lines that were processed. -/
theorem flushed_eq_processed (env : Repr.Naming) (parseFloat : String → Option Parsed)
    (hashed : String → BitVec 64) (inKeepKeys : Bool) :
    (∀ (a : GraphiteAccumulate) (h : History (String × Int) GraphiteLine GraphiteBaseStatItem)
        (s s' : System GraphiteLine GraphiteBaseStatItem) (order : List (String × Int))
        (out : List Stat),
      Run (step (a.kind env parseFloat) inKeepKeys) (GraphiteCareful env parseFloat a) start
        (h ++ [⟨s, .read order, out⟩]) s' → s.worker = .idle →
      ((flushedIn (h ++ [⟨s, .read order, out⟩])).map Stat.count).sum =
          (linesOf (a.kind env parseFloat) (h ++ [⟨s, .read order, out⟩])).length ∧
        ((flushedIn (h ++ [⟨s, .read order, out⟩])).map Stat.sum).sum =
          ((linesOf (a.kind env parseFloat) (h ++ [⟨s, .read order, out⟩])).map
            fun line => line.value.getD 0).sum) ∧
    ∀ (a : StatsdAccumulate) (h : History String StatsdLine StatsdItem)
        (s s' : System StatsdLine StatsdItem) (order : List (String × Int)) (out : List Stat),
      Run (step (a.kind env parseFloat hashed) inKeepKeys) (StatsdCareful env parseFloat hashed a)
        start (h ++ [⟨s, .read order, out⟩]) s' → s.worker = .idle →
      ((flushedIn (h ++ [⟨s, .read order, out⟩])).map Stat.count).sum =
        (linesOf (a.kind env parseFloat hashed) (h ++ [⟨s, .read order, out⟩])).length := by
  constructor
  · intro a h s s' order out run idle
    obtain ⟨before, ⟨quiet, fine⟩, taken⟩ := run_snoc run
    obtain ⟨counts, sums⟩ := graphite_balanced before
    obtain ⟨keys, rfl⟩ := read_of_step taken
    have count := counts.flushed idle quiet keys fun _ now item _ =>
      graphite_count_shown a now item
    have sum := sums.flushed idle quiet keys (by
      intro key now item here
      obtain ⟨ref, mem, object⟩ := item?_mem here
      exact graphite_sum_shown a now (fine ref mem item object))
    refine ⟨count.trans ?_, sum⟩
    simp [graphiteCount]
  · intro a h s s' order out run idle
    obtain ⟨before, ⟨quiet, _⟩, taken⟩ := run_snoc run
    obtain ⟨keys, rfl⟩ := read_of_step taken
    refine ((statsd_balanced before).flushed idle quiet keys fun _ now item _ =>
      statsd_count_shown a now item).trans ?_
    simp [statsdCount]

/-! ### Some runs -/

def everyTen : GraphiteAccumulate := ⟨10000000000, .metrics2, .fnv⟩

def tenSeconds : Kind (String × Int) GraphiteLine GraphiteBaseStatItem :=
  everyTen.kind Repr.plainNaming wholeNumber

def counters : Kind String StatsdLine StatsdItem :=
  StatsdAccumulate.kind Repr.plainNaming wholeNumber (fun text => BitVec.ofNat 64 text.length)
    ⟨.metrics2, .fnv⟩

/-- The number of lines, and the totals of the counts and sums that were flushed. -/
def totalsOf {Raw Line Item : Type} (K : Kind Raw Line Item) (inKeepKeys : Bool)
    (acts : List (Action Raw)) : Option (Nat × Int × ℚ) :=
  (exec (step K inKeepKeys) anyStep start acts).map fun r =>
    ((linesOf K r.1).length, ((flushedIn r.1).map Stat.count).sum,
      ((flushedIn r.1).map Stat.sum).sum)

/-- One line from its lookup to its insertion, and then other steps. -/
def newLine {Raw : Type} (raw : Raw) (rest : List (Action Raw)) : List (Action Raw) :=
  .lookup raw :: .accumulate :: .insert :: rest

def itemA : List (String × Int) := [("a-10000000000", 0)]

/-- A flush while the first item is being made, another one between the lines, and a new item. -/
def interleaved : List (Action (String × Int)) :=
  [.lookup ("a 5 10", 0), .read [], .accumulate, .reset, .insert, .lookup ("a 7 12", 0),
    .accumulate, .read itemA, .reset] ++ newLine ("a 1 11", 0) []

theorem interleaved_run :
    (exec (step tenSeconds false) (GraphiteCareful Repr.plainNaming wholeNumber everyTen) start
      interleaved).isSome := by
  decide +kernel

/-- The history and the state after these steps. -/
def afterward : History (String × Int) GraphiteLine GraphiteBaseStatItem ×
    System GraphiteLine GraphiteBaseStatItem :=
  (exec (step tenSeconds false) (GraphiteCareful Repr.plainNaming wholeNumber everyTen) start
    interleaved).get interleaved_run

theorem flushed_eq_processed_interleaved : ∃ s' out,
    Run (step tenSeconds false) (GraphiteCareful Repr.plainNaming wholeNumber everyTen) start
      (afterward.1 ++ [⟨afterward.2, .read itemA, out⟩]) s' ∧ afterward.2.worker = .idle ∧
    ((flushedIn (afterward.1 ++ [⟨afterward.2, .read itemA, out⟩])).map Stat.count).sum = 3 := by
  have read : (step tenSeconds false afterward.2 (.read itemA)).isSome := by decide +kernel
  obtain ⟨⟨s', out⟩, taken⟩ := Option.isSome_iff_exists.mp read
  have before := run_of_exec (step tenSeconds false)
    (GraphiteCareful Repr.plainNaming wholeNumber everyTen) start interleaved interleaved_run
  have careful :
      GraphiteCareful Repr.plainNaming wholeNumber everyTen afterward.2 (.read itemA) := by
    decide +kernel
  have idle : afterward.2.worker = .idle := by decide +kernel
  have lines : (linesOf tenSeconds afterward.1).length = 3 := by decide +kernel
  have run := Run.step before careful taken
  obtain ⟨counts, _⟩ := (flushed_eq_processed Repr.plainNaming wholeNumber (fun _ => 0#64) false).1
    everyTen _ _ _ _ _ run idle
  refine ⟨s', out, run, idle, counts.trans ?_⟩
  rw [linesOf_silent rfl]
  exact congrArg Nat.cast lines

/-- Lines that come between the two steps of a flush are lost, whether their item is known or
new and whether the keys are kept or not; so is a line whose item is dropped after the lookup.
Two flushes that both read first count a line twice. A sum may look like no sum. -/
theorem flushed_ne_processed :
    totalsOf tenSeconds false (newLine ("a 5 10", 0) [.read itemA, .lookup ("a 7 12", 0),
      .accumulate, .reset, .read [], .reset]) = some (2, 1, 5) ∧
    totalsOf tenSeconds true (newLine ("a 5 10", 0) [.read itemA, .lookup ("a 7 12", 0),
      .accumulate, .reset, .read itemA, .reset]) = some (2, 1, 5) ∧
    totalsOf tenSeconds false [.lookup ("a 5 10", 0), .read [], .accumulate, .insert, .reset,
      .read [], .reset] = some (1, 0, 0) ∧
    totalsOf tenSeconds false (newLine ("a 5 10", 0) [.lookup ("a 7 12", 0), .read itemA,
      .reset, .accumulate, .read [], .reset]) = some (2, 1, 5) ∧
    totalsOf tenSeconds false (newLine ("a 5 10", 0) [.read itemA, .read itemA, .reset,
      .reset]) = some (1, 2, 10) ∧
    totalsOf tenSeconds false (newLine ("a -4611686018427387904 10", 0)
      [.lookup ("a -4611686018427387904 12", 0), .accumulate, .read itemA, .reset]) =
      some (2, 2, 0) ∧
    totalsOf counters false (newLine "a:5|c" [.read [("a|c|#", 0)], .lookup "a:7|c",
      .accumulate, .reset, .read [], .reset]) = some (2, 1, 5) := by
  decide +kernel

end Accumulator
