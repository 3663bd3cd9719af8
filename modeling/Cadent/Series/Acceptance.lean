import Cadent.Series.GorillaOrder
import Cadent.Series.Registry

/-!
# Which series take which points

`NewTimeSeries` knows eleven names. A series it made takes every point it is given: the
gorilla series is the only one whose `AddPoint` can fail, and it does so only without
columns.
-/

namespace Registry

open TimeSeries Gorilla Gorilla.GorillaTimeSeries

/-- The names that `NewTimeSeries` has a series for. -/
def seriesTypes : List String :=
  ["binary", "gob", "zipbinary", "zipgob", "json", "protobuf", "gorilla", "msgpack", "binc",
    "cbor", "repr"]

theorem newTimeSeries_ok_iff (name : String) (t0 : BitVec 64) (options : Option Options) :
    (∃ ts, newTimeSeries name t0 options = .ok ts) ↔ name ∈ seriesTypes := by
  constructor
  · rintro ⟨ts, ok⟩
    cases made_of_ok ok with
    | gob named | zipgob named | codec named => rcases named with rfl | rfl <;> decide
    | json => decide
    | protobuf => decide
    | gorilla => decide
    | msgpack => decide
    | repr => decide
  · intro known
    simp only [seriesTypes, List.mem_cons, List.not_mem_nil, or_false] at known
    rcases known with rfl | rfl | rfl | rfl | rfl | rfl | rfl | rfl | rfl | rfl | rfl <;>
      exact ⟨_, rfl⟩

/-- A series that takes any point. -/
def Series.Takes : Series → Prop
  | .gorilla s => ∃ n, n ≠ 0#8 ∧ Columned n s
  | _ => True

theorem takes_newTimeSeries {name : String} {t0 : BitVec 64} {options : Option Options}
    {ts : Series} (columns : BitVec.ofInt 8 (options.getD newDefaultOptions).numValues ≠ 0#8)
    (made : newTimeSeries name t0 options = .ok ts) : ts.Takes := by
  cases made_of_ok made with
  | gorilla => exact ⟨_, columns, columned_newGoriallaTimeSeries _ _⟩
  | _ => trivial

theorem Series.addPoint_ok {ts : Series} (takes : ts.Takes) (p : Point) :
    ∃ ts', ts.addPoint p = .ok ts' ∧ ts'.Takes := by
  cases ts with
  | gorilla s =>
    obtain ⟨n, some_column, shape⟩ := takes
    obtain ⟨s', hadd, hshape⟩ := GorillaTimeSeries.addPoint_ok some_column shape p
    refine ⟨.gorilla s', ?_, n, some_column, hshape⟩
    rw [Series.addPoint, hadd]
    rfl
  | _ => exact ⟨_, rfl, trivial⟩

theorem Series.addStat_ok {ts : Series} (takes : ts.Takes) (p : Point) :
    ∃ ts', ts.addStat p = .ok ts' ∧ ts'.Takes := by
  cases ts with
  | repr s => exact ⟨_, rfl, trivial⟩
  | _ => exact Series.addPoint_ok takes p

theorem Series.takes_addAll {ts ts' : Series} (takes : ts.Takes) (as : List Added)
    (all : ts.addAll as = .ok ts') : ts'.Takes := by
  induction as generalizing ts with
  | nil =>
    obtain rfl := Except.ok.inj all
    exact takes
  | cons a as ih =>
    obtain ⟨next, ok, rest⟩ := Consume.bind_ok all
    refine ih ?_ rest
    cases a with
    | point p =>
      obtain ⟨ts', ok', takes'⟩ := Series.addPoint_ok takes p
      obtain rfl := Except.ok.inj (ok'.symm.trans ok)
      exact takes'
    | stat p =>
      obtain ⟨ts', ok', takes'⟩ := Series.addStat_ok takes p
      obtain rfl := Except.ok.inj (ok'.symm.trans ok)
      exact takes'

end Registry
