import Cadent.Series.TimeSeries

/-!
# The series kept as lists of stats: json, repr, protobuf, msgpack, codec

These series hold a list of stats that a third-party encoder turns into bytes. An
encoder is modelled by the list it was given: decoding gives that list back. What is
modelled is what the source does around it: the floats `CheckFloat` replaces, the
fields `StatRepr` leaves out of its JSON, the small form, the cut to seconds, and the
writer of the msgpack series that holds its bytes back until it is flushed.

The name inside a stat is left out: no `Values` reads it.
-/

namespace Formats

open Binary64 Bitstream TimeSeries

/-- `float64(math.MinInt64)`. -/
def minInt64 : Float64 := 0xC3E0000000000000#64

def checkFloat (fl : Float64) : Float64 :=
  if isNaN fl || isInf fl || feq fl minInt64 then 0#64 else fl

def mapFloats (f : Float64 → Float64) (p : Point) : Point :=
  { p with min := f p.min, max := f p.max, last := f p.last, sum := f p.sum }

/-- The signed comparison `t < T0` and `t > curTime` of the list series. -/
def minTime (t0 t : BitVec 64) : BitVec 64 := if t.toInt < t0.toInt then t else t0

def maxTime (curTime t : BitVec 64) : BitVec 64 := if curTime.toInt < t.toInt then t else curTime

/-! ### Iterators -/

/-- `Stats`, `curIdx` and `curStat`, as json, repr and protobuf keep them. -/
structure IndexIter (α : Type) where
  stats : List α
  curIdx : Nat
  curStat : Option α
  deriving DecidableEq, Repr

namespace IndexIter

variable {α : Type}

def new (stats : List α) : IndexIter α := ⟨stats, 0, none⟩

def next (it : IndexIter α) : Bool × IndexIter α :=
  match it.stats[it.curIdx]? with
  | none => (false, it)
  | some s => (true, { it with curIdx := it.curIdx + 1, curStat := some s })

end IndexIter

/-- The decoder of msgpack and codec: what is left to decode and the last stat decoded. -/
structure StreamIter (α : Type) where
  reader : List α
  curStat : Option α
  fullResolution : Bool
  finished : Bool
  deriving DecidableEq, Repr

namespace StreamIter

variable {α : Type}

def next (it : StreamIter α) : Bool × StreamIter α :=
  if it.finished then (false, it)
  else match it.reader with
    | [] => (false, { it with finished := true })
    | s :: rest => (true, { it with reader := rest, curStat := some s })

end StreamIter

/-! ### Json and repr -/

/-- Both series keep the points with their floats replaced where JSON has no number. -/
structure PointSeries where
  t0 : BitVec 64
  curTime : BitVec 64
  stats : List Point
  deriving DecidableEq, Repr

namespace PointSeries

def new (t0 : BitVec 64) : PointSeries := ⟨t0, 0#64, []⟩

def append (s : PointSeries) (p : Point) : PointSeries :=
  ⟨minTime s.t0 p.t, maxTime s.curTime p.t, s.stats ++ [p]⟩

def addPoint (s : PointSeries) (p : Point) : PointSeries := s.append (mapFloats checkFloat p)

end PointSeries

abbrev JsonTimeSeries := PointSeries
abbrev ReprTimeSeries := PointSeries

/-- `encoding/json` has no number for these. -/
def unsupported (p : Point) : Bool :=
  [p.min, p.max, p.last, p.sum].any fun x => isNaN x || isInf x

/-- `json.Marshal(s.Stats)` of the json series, by the stats it encodes. -/
def jsonMarshal (stats : List Point) : Except SeriesError (List Point) :=
  if stats.any unsupported then .error (.message "json: unsupported value") else .ok stats

/-- `StatRepr` writes a float through `CheckFloat`, and leaves it out when it is zero,
so that reading it back gives the positive zero. -/
def reprFloat (x : Float64) : Float64 := if feq x 0#64 then 0#64 else checkFloat x

/-- `json.Marshal(s.Stats)` of the repr series, by the stats it encodes. -/
def reprMarshal (stats : List Point) : List Point := stats.map (mapFloats reprFloat)

namespace PointSeries

/-- `ReprTimeSeries.AddStat` appends a copy, floats as they are. -/
def addStat (s : PointSeries) (p : Point) : PointSeries := s.append p

end PointSeries

/-! ### Protobuf, msgpack and codec -/

/-- `Stat` with its `StatType`. -/
inductive Stat where
  | full (p : Point)
  | small (t : BitVec 64) (val : Float64)
  deriving DecidableEq, Repr

/-- The stat for a point: low resolution keeps the seconds. -/
def newStat (fullRes : Bool) (small : Point → Bool) (p : Point) : Stat :=
  let useT := if fullRes then p.t else (splitNano p.t).1.setWidth 64
  if small p then .small useT p.sum else .full { p with t := useT }

def Stat.values (fullRes : Bool) (s : Stat) : Point :=
  let time := fun t : BitVec 64 => if fullRes then t else combineSecNano (t.setWidth 32) 0#32
  match s with
  | .full p => { p with t := time p.t }
  | .small t v => ⟨time t, v, v, v, v, 1#64⟩

def Stat.reprValue : Stat → Point
  | .full p => mapFloats checkFloat p
  | .small t val =>
    let v := checkFloat val
    ⟨t, v, v, v, v, 1#64⟩

structure ProtobufTimeSeries where
  t0 : BitVec 64
  curTime : BitVec 64
  fullTimeResolution : Bool
  stats : List Stat
  curCount : Nat
  deriving DecidableEq, Repr

namespace ProtobufTimeSeries

def newProtobufTimeSeries (t0 : BitVec 64) (options : Options) : ProtobufTimeSeries :=
  ⟨t0, 0#64, options.highTimeResolution, [], 0⟩

def addPoint (s : ProtobufTimeSeries) (p : Point) : ProtobufTimeSeries :=
  { s with
    t0 := minTime s.t0 p.t
    curTime := maxTime s.curTime p.t
    stats := s.stats ++ [newStat s.fullTimeResolution Point.isSmall p]
    curCount := s.curCount + 1 }

end ProtobufTimeSeries

/-- Here only a count of one makes a stat small. -/
def countOne (p : Point) : Bool := p.count == 1#64

/-- `buf` has what reached the buffer behind the header, `writer` what is held back. -/
structure MsgpackTimeSeries where
  t0 : BitVec 64
  curTime : BitVec 64
  fullRes : Bool
  ct : Nat
  buf : List Stat
  writer : List Stat
  deriving DecidableEq, Repr

namespace MsgpackTimeSeries

def newMsgpackTimeSeries (t0 : BitVec 64) (options : Options) : MsgpackTimeSeries :=
  ⟨t0, 0#64, options.highTimeResolution, 0, [], []⟩

def addPoint (s : MsgpackTimeSeries) (p : Point) : MsgpackTimeSeries :=
  { s with
    t0 := minTime s.t0 p.t
    curTime := maxTime s.curTime p.t
    ct := s.ct + 1
    writer := s.writer ++ [newStat s.fullRes countOne p] }

/-- `s.writer.Flush()`. -/
def flush (s : MsgpackTimeSeries) : MsgpackTimeSeries :=
  { s with buf := s.buf ++ s.writer, writer := [] }

/-- Unlike `Bytes`, `MarshalBinary` does not flush. -/
def marshalBinary (s : MsgpackTimeSeries) : List Stat := s.buf

def bytes (s : MsgpackTimeSeries) : List Stat := s.flush.buf

end MsgpackTimeSeries

inductive Handle where
  | binc
  | cbor
  | json
  | msgpack
  deriving DecidableEq, Repr

structure CodecTimeSeries where
  t0 : BitVec 64
  curTime : BitVec 64
  fullRes : Bool
  handle : Handle
  ct : Nat
  buf : List Stat
  deriving DecidableEq, Repr

namespace CodecTimeSeries

def newCodecTimeSeries (t0 : BitVec 64) (options : Options) : CodecTimeSeries where
  t0 := t0
  curTime := 0#64
  fullRes := options.highTimeResolution
  handle :=
    if options.handler = "binc" then .binc
    else if options.handler = "cbor" then .cbor
    else if options.handler = "json" then .json
    else .msgpack
  ct := 0
  buf := []

def addPoint (s : CodecTimeSeries) (p : Point) : CodecTimeSeries :=
  { s with
    t0 := minTime s.t0 p.t
    curTime := maxTime s.curTime p.t
    ct := s.ct + 1
    buf := s.buf ++ [newStat s.fullRes countOne p] }

end CodecTimeSeries

/-! ### What the floats of the list series can be -/

theorem checkFloat_supported (x : Float64) :
    isNaN (checkFloat x) = false ∧ isInf (checkFloat x) = false := by
  unfold checkFloat
  split
  case isTrue h => decide
  case isFalse h =>
    simp only [Bool.or_eq_true, not_or, Bool.not_eq_true] at h
    exact h.1

theorem mapFloats_checkFloat_supported (p : Point) :
    unsupported (mapFloats checkFloat p) = false := by
  simp [unsupported, mapFloats, checkFloat_supported]

/-- The bits of the negative zero. -/
def negZero : Float64 := 0x8000000000000000#64

theorem checkFloat_idem (x : Float64) : checkFloat (checkFloat x) = checkFloat x := by
  by_cases h : isNaN x || isInf x || feq x minInt64
  · have hx : checkFloat x = 0#64 := if_pos h
    rw [hx]
    decide
  · have hx : checkFloat x = x := if_neg h
    rw [hx, hx]

theorem feq_zero_iff (x : Float64) : feq x 0#64 = true ↔ x = 0#64 ∨ x = negZero := by
  constructor
  · intro h
    have hz : isZero x = true := by
      simp only [feq, Bool.and_eq_true, Bool.or_eq_true] at h
      rcases h.2 with heq | hzero
      · rw [beq_iff_eq] at heq
        rw [heq]
        decide
      · exact hzero.1
    have hmod : x.toNat % 2 ^ 63 = 0 := by simpa [isZero] using hz
    have hlt := x.isLt
    have hcases : x.toNat = 0 ∨ x.toNat = 2 ^ 63 := by omega
    exact hcases.imp (fun h => BitVec.eq_of_toNat_eq h) (fun h => BitVec.eq_of_toNat_eq h)
  · rintro (rfl | rfl) <;> decide

/-- A float of a repr stat survives its JSON exactly when it is no negative zero and
`CheckFloat` leaves it alone. -/
theorem reprFloat_eq_iff (x : Float64) : reprFloat x = x ↔ x ≠ negZero ∧ checkFloat x = x := by
  unfold reprFloat
  by_cases h : feq x 0#64 = true
  · rw [if_pos h]
    rcases (feq_zero_iff x).mp h with rfl | rfl <;> decide
  · have hne : x ≠ negZero := fun hneg => h ((feq_zero_iff x).mpr (Or.inr hneg))
    rw [if_neg h]
    exact (and_iff_right hne).symm

theorem reprFloat_checkFloat_eq_iff (x : Float64) :
    reprFloat (checkFloat x) = checkFloat x ↔ x ≠ negZero := by
  rw [reprFloat_eq_iff, checkFloat_idem, and_iff_left rfl]
  by_cases h : isNaN x || isInf x || feq x minInt64
  · have hx : checkFloat x = 0#64 := if_pos h
    have hne : x ≠ negZero := by
      rintro rfl
      exact absurd h (by decide)
    rw [hx]
    exact iff_of_true (by decide) hne
  · have hx : checkFloat x = x := if_neg h
    rw [hx]

theorem mapFloats_eq_iff (f : Float64 → Float64) (p : Point) :
    mapFloats f p = p ↔ ∀ x ∈ [p.min, p.max, p.last, p.sum], f x = x := by
  obtain ⟨t, min, max, last, sum, count⟩ := p
  simp [mapFloats]

end Formats
