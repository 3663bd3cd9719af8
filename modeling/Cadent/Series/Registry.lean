import Cadent.Series.Formats
import Cadent.Series.Gob
import Cadent.Series.Gorilla

/-!
# Series by name and by id, and the rows they are stored in

`NewTimeSeries` picks a series by its configured name, a stored row carries the id of
the series' own `Name()`, and reading the row goes from the id back to a name and from
the name to an iterator. The blob of a row is tagged with the encoder that wrote it.
The columns for the metric and its resolution are left out of the row, and so is the
snappy layer, which no writer uses.
-/

namespace Registry

open TimeSeries Formats Gob Gorilla
open Binary64 (IntConversion)

inductive Series where
  | gob (s : GobTimeSeries)
  | zipgob (s : ZipGobTimeSeries)
  | json (s : JsonTimeSeries)
  | protobuf (s : ProtobufTimeSeries)
  | gorilla (s : GorillaTimeSeries)
  | msgpack (s : MsgpackTimeSeries)
  | codec (s : CodecTimeSeries)
  | repr (s : ReprTimeSeries)

/-- The bytes of a series, by the encoder that wrote them. -/
inductive Blob where
  | gob (vs : List GobVal)
  | zipgob (vs : List GobVal)
  | json (stats : List Point)
  | protobuf (fullTimeResolution : Bool) (stats : List Stat)
  | gorilla (bytes : List (BitVec 8))
  | msgpack (fullRes : Bool) (stats : List Stat)
  | codec (handle : Handle) (fullRes : Bool) (stats : List Stat)
  | repr (stats : List Point)
  deriving DecidableEq, Repr

/-- `len(blob) == 0`: a protobuf of nothing but defaults has no bytes. -/
def Blob.isEmpty : Blob → Bool
  | .protobuf full stats => !full && stats.isEmpty
  | .gorilla bytes => bytes.isEmpty
  | _ => false

inductive Iter where
  | gob (it : GobIter)
  | json (it : IndexIter Point)
  | protobuf (fullResolution : Bool) (it : IndexIter Stat)
  | gorilla (it : GorillaIter)
  | msgpack (it : StreamIter Stat)
  | codec (handle : Handle) (it : StreamIter Stat)
  | repr (it : IndexIter Point)

namespace Iter

def next : Iter → Bool × Iter
  | .gob it => (it.next.1, .gob it.next.2)
  | .json it => (it.next.1, .json it.next.2)
  | .protobuf full it => (it.next.1, .protobuf full it.next.2)
  | .gorilla it => (it.next.1, .gorilla it.next.2)
  | .msgpack it => (it.next.1, .msgpack it.next.2)
  | .codec h it => (it.next.1, .codec h it.next.2)
  | .repr it => (it.next.1, .repr it.next.2)

def values [IntConversion] : Iter → Option Point
  | .gob it => some it.values
  | .json it => it.curStat
  | .protobuf full it => it.curStat.map (Stat.values full)
  | .gorilla it => it.values
  | .msgpack it => it.curStat.map (Stat.values it.fullResolution)
  | .codec _ it => it.curStat.map (Stat.values it.fullResolution)
  | .repr it => it.curStat

def error : Iter → Option SeriesError
  | .gob it => it.error
  | .gorilla it => it.err
  | _ => none

end Iter

instance [IntConversion] : TimeSeriesIter Iter where
  next := Iter.next
  values := Iter.values
  error := Iter.error

/-! ### Names and ids -/

def nameFromId (id : BitVec 8) : String :=
  let useId := if 20 ≤ id.toNat then id.toNat - 20 else id.toNat
  match useId with
  | 1 => "gob"
  | 2 => "zipbob"
  | 3 => "json"
  | 4 => "protobuf"
  | 5 => "gorilla"
  | 6 => "msgpack"
  | 7 => "binc"
  | 8 => "cbor"
  | 9 => "repr"
  | _ => ""

def idFromName (nm : String) : BitVec 8 :=
  if nm = "gob" then 1#8
  else if nm = "zipgob" then 2#8
  else if nm = "json" then 3#8
  else if nm = "protobuf" then 4#8
  else if nm = "gorilla" then 5#8
  else if nm = "msgpack" then 6#8
  else if nm = "binc" then 7#8
  else if nm = "cbor" then 8#8
  else if nm = "repr" then 9#8
  else 0#8

def invalidType (name : String) : SeriesError :=
  .message ("Invalid time series type " ++ "\x60" ++ name ++ "\x60")

/-- `nil` options stand for the defaults. -/
def newTimeSeries (name : String) (t0 : BitVec 64) (options : Option Options) :
    Except SeriesError Series :=
  let options := options.getD newDefaultOptions
  if name = "binary" ∨ name = "gob" then .ok (.gob (.newGobTimeSeries t0 options))
  else if name = "zipbinary" ∨ name = "zipgob" then
    .ok (.zipgob (.newZipGobTimeSeries t0 options))
  else if name = "json" then .ok (.json (.new t0))
  else if name = "protobuf" then .ok (.protobuf (.newProtobufTimeSeries t0 options))
  else if name = "gorilla" then .ok (.gorilla (.newGoriallaTimeSeries t0 options))
  else if name = "msgpack" then .ok (.msgpack (.newMsgpackTimeSeries t0 options))
  else if name = "binc" then
    .ok (.codec (.newCodecTimeSeries t0 { options with handler := "binc" }))
  else if name = "cbor" then
    .ok (.codec (.newCodecTimeSeries t0 { options with handler := "cbor" }))
  else if name = "repr" then .ok (.repr (.new t0))
  else .error (invalidType name)

/-- The series that `NewTimeSeries` makes for each name it knows. -/
inductive Made (t0 : BitVec 64) (o : Options) : String → Series → Prop
  | gob {name : String} (named : name = "binary" ∨ name = "gob") :
      Made t0 o name (.gob (.newGobTimeSeries t0 o))
  | zipgob {name : String} (named : name = "zipbinary" ∨ name = "zipgob") :
      Made t0 o name (.zipgob (.newZipGobTimeSeries t0 o))
  | json : Made t0 o "json" (.json (.new t0))
  | protobuf : Made t0 o "protobuf" (.protobuf (.newProtobufTimeSeries t0 o))
  | gorilla : Made t0 o "gorilla" (.gorilla (.newGoriallaTimeSeries t0 o))
  | msgpack : Made t0 o "msgpack" (.msgpack (.newMsgpackTimeSeries t0 o))
  | codec {name : String} (named : name = "binc" ∨ name = "cbor") :
      Made t0 o name (.codec (.newCodecTimeSeries t0 { o with handler := name }))
  | repr : Made t0 o "repr" (.repr (.new t0))

theorem made_of_ok {name : String} {t0 : BitVec 64} {options : Option Options} {ts : Series}
    (ok : newTimeSeries name t0 options = .ok ts) :
    Made t0 (options.getD newDefaultOptions) name ts := by
  unfold newTimeSeries at ok
  dsimp only at ok
  by_cases gob : name = "binary" ∨ name = "gob"
  · rw [if_pos gob] at ok
    cases ok
    exact .gob gob
  rw [if_neg gob] at ok
  by_cases zipgob : name = "zipbinary" ∨ name = "zipgob"
  · rw [if_pos zipgob] at ok
    cases ok
    exact .zipgob zipgob
  rw [if_neg zipgob] at ok
  by_cases json : name = "json"
  · rw [if_pos json] at ok
    cases ok
    cases json
    exact .json
  rw [if_neg json] at ok
  by_cases protobuf : name = "protobuf"
  · rw [if_pos protobuf] at ok
    cases ok
    cases protobuf
    exact .protobuf
  rw [if_neg protobuf] at ok
  by_cases gorilla : name = "gorilla"
  · rw [if_pos gorilla] at ok
    cases ok
    cases gorilla
    exact .gorilla
  rw [if_neg gorilla] at ok
  by_cases msgpack : name = "msgpack"
  · rw [if_pos msgpack] at ok
    cases ok
    cases msgpack
    exact .msgpack
  rw [if_neg msgpack] at ok
  by_cases binc : name = "binc"
  · rw [if_pos binc] at ok
    cases ok
    cases binc
    exact .codec (.inl rfl)
  rw [if_neg binc] at ok
  by_cases cbor : name = "cbor"
  · rw [if_pos cbor] at ok
    cases ok
    cases cbor
    exact .codec (.inr rfl)
  rw [if_neg cbor] at ok
  by_cases repr : name = "repr"
  · rw [if_pos repr] at ok
    cases ok
    cases repr
    exact .repr
  rw [if_neg repr] at ok
  cases ok

/-- Only the encoder's own decoder is modelled; nothing is said about another one. -/
def foreignBlob : SeriesError := .message "not decodable"

def newIter (name : String) (data : Blob) : Except SeriesError Iter :=
  if name = "binary" ∨ name = "gob" then
    match data with
    | .gob vs => (GobIter.newGobIter vs).map .gob
    | _ => .error foreignBlob
  else if name = "zipbinary" ∨ name = "zipgob" then
    match data with
    | .zipgob vs => (newZipGobIter vs).map .gob
    | _ => .error foreignBlob
  else if name = "json" then
    match data with
    | .json stats => .ok (.json (.new stats))
    | _ => .error foreignBlob
  else if name = "protobuf" then
    match data with
    | .protobuf full stats => .ok (.protobuf full (.new stats))
    | _ => .error foreignBlob
  else if name = "gorilla" then
    match data with
    | .gorilla bytes => (GorillaIter.newGorillaIterFromBytes bytes).map .gorilla
    | _ => .error foreignBlob
  else if name = "msgpack" then
    match data with
    | .msgpack full stats => .ok (.msgpack ⟨stats, none, full, false⟩)
    | _ => .error foreignBlob
  else if name = "binc" ∨ name = "cbor" then
    match data with
    | .codec h full stats => .ok (.codec h ⟨stats, none, full, false⟩)
    | _ => .error foreignBlob
  else if name = "repr" then
    match data with
    | .repr stats => .ok (.repr (.new stats))
    | _ => .error foreignBlob
  else .error (invalidType name)

/-! ### The methods of a series -/

namespace Series

def name : Series → String
  | .gob _ => "gob"
  | .zipgob _ => "zipgob"
  | .json _ => "json"
  | .protobuf _ => "protbuf"
  | .gorilla _ => "gorilla"
  | .msgpack _ => "msgpack"
  | .codec _ => "codec"
  | .repr _ => "repr"

def addPoint (ts : Series) (p : Point) : Except SeriesError Series :=
  match ts with
  | .gob s => .ok (.gob (s.addPoint p))
  | .zipgob s => .ok (.zipgob (s.addPoint p))
  | .json s => .ok (.json (s.addPoint p))
  | .protobuf s => .ok (.protobuf (s.addPoint p))
  | .gorilla s => (s.addPoint p).map .gorilla
  | .msgpack s => .ok (.msgpack (s.addPoint p))
  | .codec s => .ok (.codec (s.addPoint p))
  | .repr s => .ok (.repr (s.addPoint p))

/-- `AddStat` passes the stat's fields to `AddPoint`, but for the repr series. -/
def addStat (ts : Series) (p : Point) : Except SeriesError Series :=
  match ts with
  | .repr s => .ok (.repr (s.addStat p))
  | _ => ts.addPoint p

def marshalBinary (ts : Series) : Except SeriesError Blob :=
  match ts with
  | .gob s => .ok (.gob s.bytes)
  | .zipgob s => .ok (.zipgob s.bytes)
  | .json s => (jsonMarshal s.stats).map .json
  | .protobuf s => .ok (.protobuf s.fullTimeResolution s.stats)
  | .gorilla s => .ok (.gorilla s.bytes)
  | .msgpack s => .ok (.msgpack s.fullRes s.marshalBinary)
  | .codec s => .ok (.codec s.handle s.fullRes s.buf)
  | .repr s => .ok (.repr (reprMarshal s.stats))

def iter (ts : Series) : Except SeriesError Iter :=
  match ts with
  | .gob s => s.iter.map .gob
  | .zipgob s => s.iter.map .gob
  | .json s => .ok (.json (.new s.stats))
  | .protobuf s => .ok (.protobuf s.fullTimeResolution (.new s.stats))
  | .gorilla s => (GorillaIter.newGorillaIterFromBytes s.bytes).map .gorilla
  | .msgpack s => .ok (.msgpack ⟨s.bytes, none, s.fullRes, false⟩)
  | .codec s => .ok (.codec s.handle ⟨s.buf, none, s.fullRes, false⟩)
  | .repr s => .ok (.repr (.new s.stats))

end Series

namespace Series

def count : Series → Nat
  | .gob s => s.curCount
  | .zipgob s => s.curCount
  | .json s => s.stats.length
  | .protobuf s => s.curCount
  | .gorilla s => s.curCount
  | .msgpack s => s.ct
  | .codec s => s.ct
  | .repr s => s.stats.length

def highResolution : Series → Bool
  | .gob s => s.fullResolution
  | .zipgob s => s.fullResolution
  | .json _ => true
  | .protobuf s => s.fullTimeResolution
  | .gorilla s => s.fullResolution
  | .msgpack s => s.fullRes
  | .codec s => s.fullRes
  | .repr _ => true

end Series

/-- A point handed to a series, by `AddPoint` or inside a stat by `AddStat`. -/
inductive Added where
  | point (p : Point)
  | stat (p : Point)
  deriving DecidableEq, Repr

namespace Series

def add (ts : Series) : Added → Except SeriesError Series
  | .point p => ts.addPoint p
  | .stat p => ts.addStat p

def addAll : Series → List Added → Except SeriesError Series
  | ts, [] => .ok ts
  | ts, a :: as => do
    let ts ← ts.add a
    ts.addAll as

end Series

theorem addAll_snoc {ts opened : Series} {as : List Added} {a : Added}
    (built : opened.addAll as = .ok ts) : opened.addAll (as ++ [a]) = ts.add a := by
  induction as generalizing opened with
  | nil =>
    cases built
    rw [List.nil_append, Series.addAll]
    cases ts.add a <;> rfl
  | cons first as ih =>
    obtain ⟨next, ok, rest⟩ := Consume.bind_ok built
    rw [List.cons_append, Series.addAll, ok]
    exact ih rest

/-! ### Rows -/

structure DBSeries where
  ptype : BitVec 8
  pbytes : Blob
  deriving DecidableEq, Repr

/-- The row of `onePerTableInsert` and `oneTableInsert`; an empty blob writes none. -/
def insertRow (ts : Series) : Except SeriesError (Option DBSeries) := do
  let blob ← ts.marshalBinary
  if blob.isEmpty then return none
  else return some ⟨idFromName ts.name, blob⟩

def DBSeries.iter (d : DBSeries) : Except SeriesError Iter := newIter (nameFromId d.ptype) d.pbytes

/-- What a caller of `Next` sees in `n` rounds, with `Values` after each true answer. -/
def observe [IntConversion] : Nat → Iter → List (Bool × Option Point)
  | 0, _ => []
  | n + 1, it => (it.next.1, if it.next.1 then it.next.2.values else none) :: observe n it.next.2

/-- The row is written, read back, and yields what the series itself yields. -/
def StoredExactly [IntConversion] (ts : Series) : Prop :=
  ∃ row stored own, insertRow ts = .ok (some row) ∧ row.iter = .ok stored ∧ ts.iter = .ok own ∧
    ∀ n, observe n stored = observe n own

end Registry
