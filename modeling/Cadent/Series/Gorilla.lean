import Cadent.Series.TimeSeries

/-!
# The gorilla series

A header, then one record per point: the change of the time delta in one of five
widths, in high resolution the nanosecond part, one bit for the small form, and the
values, each as the xor with the previous value of its column. Encoder and decoder
each keep the last value and the last bit window of every column.

The mutex, `Copy`, `Len` and `ReprValue` are left out. The decoder threads the bit
stream beside the iterator and puts it back at the end of `Next`; a read that fails
leaves the other fields of the iterator alone, and `Next` never reads them again.
-/

namespace Gorilla

open Binary64 Binary64.IntConversion Bitstream BitStream Consume TimeSeries

/-- The bytes of an ASCII string. -/
def tagBytes (tag : String) : List (BitVec 8) := tag.toList.map fun c => BitVec.ofNat 8 c.toNat

def tagNanosecond : List (BitVec 8) := tagBytes "gorn"
def tagSecond : List (BitVec 8) := tagBytes "gors"
def tagNanoSmart : List (BitVec 8) := tagBytes "gort"

def errNegativeTimeDelta : SeriesError :=
  .message "Gorilla format cannot have out-of-order time points"

/-- One entry of `curVals`, `leading` and `trailing`. -/
structure Column where
  val : Float64
  leading : BitVec 8
  trailing : BitVec 8
  deriving DecidableEq, Repr

/-! ### The encoder -/

/-- The nanosecond part (`curTimeMs`, `leadingMs`, `trailingMs`) is one more column. -/
structure GorillaTimeSeries where
  curCount : Nat
  fullResolution : Bool
  smartEncoding : Bool
  ts : BitVec 32
  tms : BitVec 32
  curTime : BitVec 32
  curDelta : BitVec 32
  ms : Column
  numValues : BitVec 8
  columns : List Column
  bw : BitStream
  deriving DecidableEq, Repr

/-- Leading and trailing zeros, the first clamped to the five bits it is written in. -/
def newWindow (vDelta : BitVec 64) : BitVec 8 × BitVec 8 :=
  let nLeading := vDelta.clz.setWidth 8
  (if 32#8 ≤ nLeading then 31#8 else nLeading, vDelta.ctz.setWidth 8)

/-- Write `newV` against the column and return what the column becomes. -/
def compressValue (bw : BitStream) (c : Column) (newV : Float64) : BitStream × Column :=
  let vDelta := newV ^^^ c.val
  if vDelta = 0#64 then (bw.writeBit false, { c with val := newV })
  else
    let bw := bw.writeBit true
    let w := newWindow vDelta
    if c.leading ≠ 255#8 ∧ c.leading ≤ w.1 ∧ c.trailing ≤ w.2 then
      ((bw.writeBit false).writeBits (vDelta >>> c.trailing)
        (64 - c.leading.toNat - c.trailing.toNat), { c with val := newV })
    else
      let sigbits := 64#8 - w.1 - w.2
      let bw := ((bw.writeBit true).writeBits (w.1.setWidth 64) 5).writeBits
        (sigbits.setWidth 64) 6
      (bw.writeBits (vDelta >>> w.2) sigbits.toNat, ⟨newV, w.1, w.2⟩)

/-- The change of the delta, as `AddTime` writes it. -/
def writeDod (bw : BitStream) (dod : BitVec 32) : BitStream :=
  if dod = 0#32 then bw.writeBit false
  else if -63 ≤ dod.toInt ∧ dod.toInt ≤ 64 then
    (bw.writeBits 0x02#64 2).writeBits (dod.signExtend 64) 7
  else if -255 ≤ dod.toInt ∧ dod.toInt ≤ 256 then
    (bw.writeBits 0x06#64 3).writeBits (dod.signExtend 64) 9
  else if -2047 ≤ dod.toInt ∧ dod.toInt ≤ 2048 then
    (bw.writeBits 0x0e#64 4).writeBits (dod.signExtend 64) 12
  else
    (bw.writeBits 0x0f#64 4).writeBits (dod.signExtend 64) 32

def setFinished (bw : BitStream) : BitStream :=
  ((bw.writeBits 0x0f#64 4).writeBits 0xffffffff#64 32).writeBit false

namespace GorillaTimeSeries

def writeHeader (s : GorillaTimeSeries) : GorillaTimeSeries :=
  let bw := s.bw.writeBytes (if s.fullResolution then tagNanoSmart else tagSecond)
  let bw := (bw.writeBits (s.numValues.setWidth 64) 8).writeBits (s.ts.setWidth 64) 32
  { s with
    columns := List.replicate s.numValues.toNat ⟨0#64, 255#8, 0#8⟩
    ms := ⟨if s.fullResolution then ofInt s.tms.toNat else 0#64, 255#8, 0#8⟩
    bw := if s.fullResolution then bw.writeBits (s.tms.setWidth 64) 32 else bw }

def newGoriallaTimeSeries (t0 : BitVec 64) (options : Options) : GorillaTimeSeries :=
  writeHeader {
    curCount := 0
    fullResolution := options.highTimeResolution
    smartEncoding := true
    ts := (splitNano t0).1
    tms := (splitNano t0).2
    curTime := 0#32
    curDelta := 0#32
    ms := ⟨0#64, 0#8, 0#8⟩
    numValues := BitVec.ofInt 8 options.numValues
    columns := []
    bw := empty }

def bytes (s : GorillaTimeSeries) : List (BitVec 8) := (setFinished s.bw.clone).bytes

def addValue (s : GorillaTimeSeries) (idx : Nat) (v : Float64) (isfirst : Bool) :
    Except SeriesError GorillaTimeSeries :=
  match s.columns[idx]? with
  | none => .error .panic
  | some c =>
    if isfirst then
      .ok { s with columns := s.columns.set idx { c with val := v }, bw := s.bw.writeBits v 64 }
    else
      let r := compressValue s.bw c v
      .ok { s with columns := s.columns.set idx r.2, bw := r.1 }

def addNano (s : GorillaTimeSeries) (utms : BitVec 32) : GorillaTimeSeries :=
  if s.fullResolution then
    let r := compressValue s.bw s.ms (ofInt utms.toNat)
    { s with ms := r.2, bw := r.1 }
  else s

def addTime (s : GorillaTimeSeries) (t : BitVec 64) : Except SeriesError GorillaTimeSeries :=
  let ut := (splitNano t).1
  let utms := (splitNano t).2
  if s.curTime = 0#32 then
    .ok (addNano { s with
      curTime := ut
      curDelta := ut - s.ts
      bw := s.bw.writeBits ((ut - s.ts).setWidth 64) 14 } utms)
  else
    let tDelta := ut - s.curTime
    -- the difference is unsigned, so this never fails
    if tDelta < 0#32 then .error errNegativeTimeDelta
    else
      .ok (addNano { s with
        curTime := ut
        curDelta := tDelta
        bw := writeDod s.bw (tDelta - s.curDelta) } utms)

/-- The calls of `addValue` for the columns `idx`, `idx + 1`, … in turn. -/
def addValues : GorillaTimeSeries → Nat → List Float64 → Bool →
    Except SeriesError GorillaTimeSeries
  | s, _, [], _ => .ok s
  | s, idx, v :: vs, isfirst => do
    let s ← s.addValue idx v isfirst
    addValues s (idx + 1) vs isfirst

/-- What the switch on `numValues` writes. -/
def columnValues (numValues : BitVec 8) (p : Point) : List Float64 :=
  match numValues.toNat with
  | 5 => [p.min, p.max, p.last, p.sum, ofInt p.count.toInt]
  | 4 => [p.min, p.max, p.last, p.sum]
  | 3 => [p.min, p.max, p.last]
  | 2 => [p.min, p.max]
  | _ => [p.min]

def addPoint (s : GorillaTimeSeries) (p : Point) : Except SeriesError GorillaTimeSeries := do
  let start := s.curTime == 0#32
  let s ← s.addTime p.t
  let smart := s.smartEncoding && 3#8 < s.numValues
  if smart && p.isSmall then
    let s ← { s with bw := s.bw.writeBit false }.addValue 3 p.sum start
    return { s with curCount := s.curCount + 1 }
  else
    let s := if smart then { s with bw := s.bw.writeBit true } else s
    let s ← s.addValues 0 (columnValues s.numValues p) start
    return { s with curCount := s.curCount + 1 }

def addPoints : GorillaTimeSeries → List Point → Except SeriesError GorillaTimeSeries
  | s, [] => .ok s
  | s, p :: ps => do
    let s ← s.addPoint p
    addPoints s ps

end GorillaTimeSeries

/-! ### The decoder -/

/-- The fields of the iterator that a record is decoded against. -/
structure Decoder where
  ts : BitVec 32
  fullResolution : Bool
  smartEncoding : Bool
  curSmartEnc : Bool
  curTime : BitVec 32
  numValues : BitVec 8
  ms : Column
  columns : List Column
  start : Bool
  tDelta : BitVec 32
  deriving DecidableEq, Repr

structure GorillaIter extends Decoder where
  br : BitStream
  finished : Bool
  err : Option SeriesError
  deriving DecidableEq, Repr

/-- Why `Next` answers false: an error, or the end-of-stream record. -/
inductive Stop where
  | error (e : SeriesError)
  | finished
  deriving DecidableEq, Repr

def io {α : Type} (p : Reader BitStream IoError α) : Reader BitStream Stop α :=
  mapErr (fun e => .error (.io e)) p

def readWindow (c : Column) : Reader BitStream IoError (BitVec 8 × BitVec 8) := do
  let bit ← readBit
  if bit then
    let leading ← readBits 5
    let bits ← readBits 6
    -- zero significant bits stand for 64, which six bits cannot say
    let mbits := if bits.setWidth 8 = 0#8 then 64#8 else bits.setWidth 8
    return (leading.setWidth 8, 64#8 - leading.setWidth 8 - mbits)
  else return (c.leading, c.trailing)

def uncompressValue (start : Bool) (c : Column) : Reader BitStream IoError Column := do
  if start then
    let tbits ← readBits 64
    return { c with val := tbits }
  else
    let bit ← readBit
    if bit then
      let w ← readWindow c
      let bits ← readBits (64#8 - w.1 - w.2).toNat
      return ⟨c.val ^^^ bits <<< w.2, w.1, w.2⟩
    else return c

/-- Up to `n` bits, stopping after the first zero. -/
def readTag : Nat → BitVec 8 → Reader BitStream IoError (BitVec 8)
  | 0, d => pure d
  | n + 1, d => do
    let bit ← readBit
    if bit then readTag n (d <<< 1 ||| 1#8) else return d <<< 1

/-- A change of the delta in `sz` bits, values above the middle being negative. -/
def readShortDod (sz : Nat) : Reader BitStream IoError (BitVec 32) := do
  let bits ← readBits sz
  let bits := if 1#64 <<< (sz - 1) < bits then bits - 1#64 <<< sz else bits
  return bits.setWidth 32

def readLongDod : Reader BitStream Stop (BitVec 32) := do
  let bits ← io (readBits 32)
  if bits = 0xffffffff#64 then throw .finished else return bits.setWidth 32

def readDod : Reader BitStream Stop (BitVec 32) := do
  let d ← io (readTag 4 0#8)
  if d = 0x02#8 then io (readShortDod 7)
  else if d = 0x06#8 then io (readShortDod 9)
  else if d = 0x0e#8 then io (readShortDod 12)
  else if d = 0x0f#8 then readLongDod
  else return 0#32

namespace Decoder

def readNano (it : Decoder) : Reader BitStream Stop Decoder := do
  if it.fullResolution then
    let ms ← io (uncompressValue false it.ms)
    return { it with ms := ms }
  else return it

def readTimeDelta (it : Decoder) : Reader BitStream Stop Decoder := do
  if it.start then
    let tDelta ← io (readBits 14)
    readNano { it with tDelta := tDelta.setWidth 32, curTime := it.ts + tDelta.setWidth 32 }
  else
    let dod ← readDod
    let tDelta := it.tDelta + dod
    readNano { it with tDelta := tDelta, curTime := it.curTime + tDelta }

def readValue (it : Decoder) (idx : Nat) : Reader BitStream Stop Decoder := do
  match it.columns[idx]? with
  | none => throw (.error .panic)
  | some c =>
    let c ← io (uncompressValue it.start c)
    return { it with columns := it.columns.set idx c }

/-- `n` rounds of the loop over the columns, from column `idx` on. -/
def readValues : Decoder → Nat → Nat → Reader BitStream Stop Decoder
  | it, _, 0 => pure it
  | it, idx, n + 1 => do
    let it ← it.readValue idx
    readValues it (idx + 1) n

def readSmartBit (it : Decoder) : Reader BitStream Stop Bool :=
  if it.smartEncoding then io readBit else pure true

def readColumns (it : Decoder) : Reader BitStream Stop Decoder :=
  if it.curSmartEnc then it.readValues 0 it.numValues.toNat else it.readValue 3

def nextPoint (it : Decoder) : Reader BitStream Stop Decoder := do
  let it ← it.readTimeDelta
  let bit ← it.readSmartBit
  let it ← { it with curSmartEnc := bit }.readColumns
  return { it with start := false }

def values [IntConversion] (it : Decoder) : Option Point := do
  let t := combineSecNano it.curTime (toUInt32 it.ms.val)
  if it.curSmartEnc then
    let c0 ← it.columns[0]?
    let c1 ← it.columns[1]?
    let c2 ← it.columns[2]?
    let c3 ← it.columns[3]?
    let c4 ← it.columns[4]?
    return ⟨t, c0.val, c1.val, c2.val, c3.val, toInt64 c4.val⟩
  else
    let c ← it.columns[3]?
    return ⟨t, c.val, c.val, c.val, c.val, 1#64⟩

end Decoder

namespace GorillaIter

def readHead : Reader BitStream SeriesError (List (BitVec 8)) := do
  let head ← mapErr .io (readBytes 4)
  if head ≠ tagNanosecond ∧ head ≠ tagSecond ∧ head ≠ tagNanoSmart then
    throw (.message "Not a valid Gorilla Series")
  else return head

/-- The first nanosecond part is stored as a plain number. -/
def readTms (fullrez : Bool) : Reader BitStream SeriesError Float64 :=
  if fullrez then mapErr .io (readBits 32) >>= fun v => pure (ofInt v.toNat) else pure 0#64

def newGorillaIterFromBStream : Reader BitStream SeriesError Decoder := do
  let head ← readHead
  let numvals ← mapErr .io (readBits 8)
  let t0 ← mapErr .io (readBits 32)
  let curTimeMs ← readTms (head ≠ tagSecond)
  return {
    ts := t0.setWidth 32
    fullResolution := head ≠ tagSecond
    smartEncoding := true
    curSmartEnc := false
    curTime := 0#32
    numValues := numvals.setWidth 8
    ms := ⟨curTimeMs, 0#8, 0#8⟩
    columns := List.replicate (numvals.setWidth 8).toNat ⟨0#64, 0#8, 0#8⟩
    start := true
    tDelta := 0#32 }

def newGorillaIterFromBytes (b : List (BitVec 8)) : Except SeriesError GorillaIter := do
  let r ← newGorillaIterFromBStream.run (newBReader b)
  return { r.1 with br := r.2, finished := false, err := none }

def next (it : GorillaIter) : Bool × GorillaIter :=
  if it.err.isSome || it.finished then (false, it)
  else match it.nextPoint.run it.br with
    | .ok (d, br) => (true, { it with toDecoder := d, br := br })
    | .error .finished => (false, { it with finished := true })
    | .error (.error e) => (false, { it with err := some e })

def values [IntConversion] (it : GorillaIter) : Option Point := it.toDecoder.values

end GorillaIter

instance [IntConversion] : TimeSeriesIter GorillaIter where
  next := GorillaIter.next
  values := GorillaIter.values
  error := GorillaIter.err

end Gorilla
