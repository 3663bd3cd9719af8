import Cadent.Lib.Consume
import Cadent.Series.TimeSeries

/-!
# The gob series, plain and compressed

Both series encode a point as the difference to the point added before it: the time
delta, a bit for the small form, then the sum alone or all five values, the floats
xored with the previous ones. The first record carries the values themselves.

`encoding/gob` is modelled by the sequence of typed values it carries, one value for
each `Encode`, and `compress/flate` by what has been flushed. The deltas that the
source keeps in fields are never read before they are set again and are local here;
the mutex, `Copy`, `Len` and `ReprValue` are left out. A decode that fails leaves the
other fields of the iterator alone: `finished` keeps `Next` from reading them.
-/

namespace Gob

open Binary64 Bitstream Consume TimeSeries

/-- One encoded value. -/
inductive GobVal where
  | string (s : String)
  | int (n : BitVec 64)
  | bool (b : Bool)
  | float (f : Float64)
  | uint (n : BitVec 64)
  deriving DecidableEq, Repr

def simpleBinSeriesTag : String := "gobn"
def simpleBinSeriesTagLowres : String := "gobl"
def zipSimpleBinSeriesTag : String := "zbts"
def zipSimpleBinSeriesLowresTag : String := "zbtl"

/-! ### The encoders -/

/-- The fields both series share; `curVals` is `min`, `max`, `last`, `sum`. -/
structure Encoder where
  t0 : BitVec 64
  fullResolution : Bool
  curTime : BitVec 64
  min : Float64
  max : Float64
  last : Float64
  sum : Float64
  curValCount : BitVec 64
  curCount : Nat
  deriving DecidableEq, Repr

/-- The time a series of the given resolution works with. -/
def useTime (fullResolution : Bool) (t : BitVec 64) : BitVec 64 :=
  if fullResolution then t else (splitNano t).1.setWidth 64

namespace Encoder

def new (t0 : BitVec 64) (options : Options) : Encoder where
  t0 := useTime options.highTimeResolution t0
  fullResolution := options.highTimeResolution
  curTime := 0#64
  min := 0#64
  max := 0#64
  last := 0#64
  sum := 0#64
  curValCount := 0#64
  curCount := 0

/-- What one `AddPoint` encodes. -/
def record (s : Encoder) (p : Point) : List GobVal :=
  let useT := useTime s.fullResolution p.t
  if s.curTime = 0#64 then
    .int (useT - s.t0) ::
      if p.isSmall then [.bool false, .float p.sum]
      else [.bool true, .float p.min, .float p.max, .float p.last, .float p.sum, .int p.count]
  else
    .int (useT - s.curTime) ::
      if p.isSmall then [.bool false, .uint (s.sum ^^^ p.sum)]
      else [.bool true, .uint (s.min ^^^ p.min), .uint (s.max ^^^ p.max), .uint (s.last ^^^ p.last),
        .uint (s.sum ^^^ p.sum), .int (p.count - s.curValCount)]

/-- The state after `AddPoint`: always the point itself, also after a small record. -/
def addPoint (s : Encoder) (p : Point) : Encoder :=
  { s with
    curTime := useTime s.fullResolution p.t
    min := p.min
    max := p.max
    last := p.last
    sum := p.sum
    curValCount := p.count
    curCount := s.curCount + 1 }

end Encoder

structure GobTimeSeries extends Encoder where
  sTag : String
  buf : List GobVal
  deriving DecidableEq, Repr

namespace GobTimeSeries

def newGobTimeSeries (t0 : BitVec 64) (options : Options) : GobTimeSeries :=
  let enc := Encoder.new t0 options
  let sTag := if options.highTimeResolution then simpleBinSeriesTag else simpleBinSeriesTagLowres
  ⟨enc, sTag, [.string sTag, .int enc.t0]⟩

def bytes (s : GobTimeSeries) : List GobVal := s.buf

def addPoint (s : GobTimeSeries) (p : Point) : GobTimeSeries :=
  { s with toEncoder := s.toEncoder.addPoint p, buf := s.buf ++ s.record p }

def addPoints (s : GobTimeSeries) (ps : List Point) : GobTimeSeries := ps.foldl addPoint s

end GobTimeSeries

/-- `buf` holds what `zip` has flushed, `pending` what the compressor still holds. -/
structure ZipGobTimeSeries extends Encoder where
  sTag : String
  buf : List GobVal
  pending : List GobVal
  deriving DecidableEq, Repr

namespace ZipGobTimeSeries

def newZipGobTimeSeries (t0 : BitVec 64) (options : Options) : ZipGobTimeSeries :=
  let enc := Encoder.new t0 options
  let sTag :=
    if options.highTimeResolution then zipSimpleBinSeriesTag else zipSimpleBinSeriesLowresTag
  ⟨enc, sTag, [], [.string sTag, .int enc.t0]⟩

/-- `zip.Flush()`. -/
def flush (s : ZipGobTimeSeries) : ZipGobTimeSeries :=
  { s with buf := s.buf ++ s.pending, pending := [] }

def bytes (s : ZipGobTimeSeries) : List GobVal := s.flush.buf

def addPoint (s : ZipGobTimeSeries) (p : Point) : ZipGobTimeSeries :=
  { s with toEncoder := s.toEncoder.addPoint p, pending := s.pending ++ s.record p }

def addPoints (s : ZipGobTimeSeries) (ps : List Point) : ZipGobTimeSeries := ps.foldl addPoint s

end ZipGobTimeSeries

/-! ### The decoder -/

structure GobIter where
  t0 : BitVec 64
  curTime : BitVec 64
  tDelta : BitVec 64
  fullResolution : Bool
  min : Float64
  max : Float64
  last : Float64
  sum : Float64
  count : BitVec 64
  decoder : List GobVal
  finished : Bool
  err : Option SeriesError
  deriving DecidableEq, Repr

/-- `Decode` hands out the next value when it has the type asked for. -/
def decode {α : Type} (pick : GobVal → Option α) : Reader (List GobVal) SeriesError α := fun vs =>
  match vs with
  | [] => .error (.io .eof)
  | v :: rest =>
    match pick v with
    | some a => .ok (a, rest)
    | none => .error (.message "gob: decoding into local type, received remote type")

def decodeString := decode fun | .string s => some s | _ => none
def decodeInt := decode fun | .int n => some n | _ => none
def decodeBool := decode fun | .bool b => some b | _ => none
def decodeFloat := decode fun | .float f => some f | _ => none
def decodeUint := decode fun | .uint n => some n | _ => none

namespace GobIter

def newGobIter (buf : List GobVal) : Except SeriesError GobIter := do
  let st ← decodeString.run buf
  let t0 ← decodeInt.run st.2
  return {
    t0 := t0.1
    curTime := 0#64
    tDelta := 0#64
    fullResolution := st.1 ≠ simpleBinSeriesTagLowres ∧ st.1 ≠ zipSimpleBinSeriesLowresTag
    min := 0#64
    max := 0#64
    last := 0#64
    sum := 0#64
    count := 0#64
    decoder := t0.2
    finished := false
    err := none }

def readSmall (it : GobIter) (isStart : Bool) : Reader (List GobVal) SeriesError GobIter :=
  if isStart then do
    let sum ← decodeFloat
    return { it with min := sum, max := sum, last := sum, sum := sum, count := 1#64 }
  else do
    let sumDelta ← decodeUint
    let sum := it.sum ^^^ sumDelta
    return { it with min := sum, max := sum, last := sum, sum := sum, count := 1#64 }

def readFull (it : GobIter) (isStart : Bool) : Reader (List GobVal) SeriesError GobIter :=
  if isStart then do
    let min ← decodeFloat
    let max ← decodeFloat
    let last ← decodeFloat
    let sum ← decodeFloat
    let count ← decodeInt
    return { it with min := min, max := max, last := last, sum := sum, count := count }
  else do
    let minDelta ← decodeUint
    let maxDelta ← decodeUint
    let lastDelta ← decodeUint
    let sumDelta ← decodeUint
    let countDelta ← decodeInt
    return { it with
      min := it.min ^^^ minDelta
      max := it.max ^^^ maxDelta
      last := it.last ^^^ lastDelta
      sum := it.sum ^^^ sumDelta
      count := it.count + countDelta }

/-- The deltas are summed up from the start time. -/
def advance (it : GobIter) (tDelta : BitVec 64) : GobIter :=
  { it with tDelta := it.tDelta + tDelta, curTime := it.t0 + (it.tDelta + tDelta) }

def nextPoint (it : GobIter) : Reader (List GobVal) SeriesError GobIter := do
  let tDelta ← decodeInt
  let isStart := it.curTime == 0#64
  let fBit ← decodeBool
  if fBit then (it.advance tDelta).readFull isStart else (it.advance tDelta).readSmall isStart

def next (it : GobIter) : Bool × GobIter :=
  if it.finished then (false, it)
  else match it.nextPoint.run it.decoder with
    | .ok (it', rest) => (true, { it' with decoder := rest })
    | .error e => (false, { it with finished := true, err := some e })

def values (it : GobIter) : Point :=
  let t := if it.fullResolution then it.curTime else combineSecNano (it.curTime.setWidth 32) 0#32
  ⟨t, it.min, it.max, it.last, it.sum, it.count⟩

/-- The end of the buffer is not an error. -/
def error (it : GobIter) : Option SeriesError :=
  if it.err = some (.io .eof) then none else it.err

end GobIter

instance : TimeSeriesIter GobIter where
  next := GobIter.next
  values it := some it.values
  error := GobIter.error

namespace GobTimeSeries

def iter (s : GobTimeSeries) : Except SeriesError GobIter := GobIter.newGobIter s.bytes

end GobTimeSeries

/-- Inflating gives back what was flushed. -/
def newZipGobIter (buf : List GobVal) : Except SeriesError GobIter := GobIter.newGobIter buf

namespace ZipGobTimeSeries

def iter (s : ZipGobTimeSeries) : Except SeriesError GobIter := newZipGobIter s.bytes

end ZipGobTimeSeries

end Gob
