import Cadent.Series.Decoding
import Cadent.Series.Storage

/-!
# Copies of a series

`Copy` starts from a copy of the struct, so everything behind a pointer or a slice is
shared unless it is replaced: the value columns of gorilla, gob and zipgob, the buffer of
gob and msgpack, the writer of msgpack, the compressor of zipgob and the encoder of codec,
which both go on writing to the buffer of the original. `io.Copy` from a `bytes.Buffer`
leaves that buffer empty, its tag included. Each `Flush` of a compressor ends what it has
written with a sync marker, also when nothing was pending. A handle is what one of the two
series sees of the memory.
-/

namespace Copies

open Binary64 Bitstream BitStream Consume Formats Gob Gorilla Registry TimeSeries

/-- The bytes of a series, as far as `Copy` can make a difference to them. -/
inductive Bytes where
  | blob (b : Blob)
  /-- Compressed values and the number of sync markers between them. -/
  | flushed (vs : List GobVal) (syncs : Nat)
  /-- Encoded stats without the tag in front. -/
  | untagged (stats : List Stat)
  /-- `nil`, when `json.Marshal` fails. -/
  | absent
  deriving DecidableEq

structure Handle where
  series : Series
  /-- The buffer of a msgpack or codec series still starts with its tag. -/
  tagged : Bool
  /-- The sync markers in the buffer of a zipgob series. -/
  syncs : Nat
  /-- The encoder writes to the buffer of this handle. -/
  bound : Bool

/-- How long third-party encodings are. -/
structure Sizes where
  bytes : Bytes → Nat
  stat : Stat → Nat

namespace Handle

/-- A series that has never been copied. -/
def alone (ts : Series) (syncs : Nat) : Handle := ⟨ts, true, syncs, true⟩

/-- `Bytes`, which flushes a msgpack writer and a compressor first. -/
def bytes (h : Handle) : Bytes :=
  match h.series with
  | .zipgob s => .flushed s.bytes (if h.bound then h.syncs + 1 else h.syncs)
  | .msgpack s => if h.tagged then .blob (.msgpack s.fullRes s.bytes) else .untagged s.bytes
  | .codec s => if h.tagged then .blob (.codec s.handle s.fullRes s.buf) else .untagged s.buf
  | ts =>
    match ts.marshalBinary with
    | .ok b => .blob b
    | .error _ => .absent

/-- `Len`; the one of msgpack does not flush. -/
def len (sizes : Sizes) (h : Handle) : Nat :=
  match h.series with
  | .gorilla s => s.bw.len
  | .protobuf s => (s.stats.map sizes.stat).sum
  | .msgpack s =>
    sizes.bytes (if h.tagged then .blob (.msgpack s.fullRes s.buf) else .untagged s.buf)
  | _ => sizes.bytes h.bytes

/-- The tag is the first thing an iterator reads. -/
def iterUntagged : List Stat → Except SeriesError Iter
  | [] => .error (.io .eof)
  | _ :: _ => .error (.message "Invalid Header")

def iter (h : Handle) : Except SeriesError Iter :=
  match h.series with
  | .msgpack s => if h.tagged then h.series.iter else iterUntagged s.bytes
  | .codec s => if h.tagged then h.series.iter else iterUntagged s.buf
  | ts => ts.iter

/-- What a caller sees of the iterator in any number of rounds. -/
def values [IntConversion] (h : Handle) : Except SeriesError (Nat → List (Bool × Option Point)) :=
  h.iter.map fun it n => observe n it

end Handle

/-- What remains comparable when points are added. -/
structure View where
  bytes : Bytes
  values : Except SeriesError (Nat → List (Bool × Option Point))

/-- All that a copy should have in common with its original. -/
structure Face extends View where
  len : Nat
  count : Nat
  highResolution : Bool

namespace Handle

def view [IntConversion] (h : Handle) : View := ⟨h.bytes, h.values⟩

def face [IntConversion] (sizes : Sizes) (h : Handle) : Face :=
  ⟨h.view, h.len sizes, h.series.count, h.series.highResolution⟩

end Handle

/-! ### Copying, and adding to either of the two -/

structure Twins where
  original : Handle
  copy : Handle

def Handle.copy (h : Handle) : Twins :=
  match h.series with
  | .zipgob s =>
    let flushed := { h with series := .zipgob s.flush, syncs := h.syncs + 1 }
    ⟨flushed, { flushed with bound := false }⟩
  | .protobuf s =>
    -- only the stats go into the new `ProtStats`
    ⟨h, { h with series := .protobuf { s with fullTimeResolution := false } }⟩
  | .gorilla s => ⟨h, { h with series := .gorilla { s with bw := s.bw.clone } }⟩
  | .msgpack s =>
    -- the buffer is copied to itself
    let drained := { h with series := .msgpack { s with buf := [] }, tagged := false }
    ⟨drained, drained⟩
  | .codec s =>
    ⟨{ h with series := .codec { s with buf := [] }, tagged := false }, { h with bound := false }⟩
  | .gob _ | .json _ | .repr _ => ⟨h, h⟩

/-- A series after `theirs`, with which it shares memory, was given a point. -/
def sees (mine theirs : Series) : Series :=
  match mine, theirs with
  | .gob s, .gob o =>
    .gob { s with min := o.min, max := o.max, last := o.last, sum := o.sum, buf := o.buf }
  | .zipgob s, .zipgob o =>
    .zipgob { s with min := o.min, max := o.max, last := o.last, sum := o.sum }
  | .gorilla s, .gorilla o => .gorilla { s with columns := o.columns }
  | .msgpack s, .msgpack o => .msgpack { s with buf := o.buf, writer := o.writer }
  | ts, _ => ts

/-- An addition through one handle, beside the other one. -/
def Handle.addBeside (mine theirs : Handle) (a : Added) : Except SeriesError (Handle × Handle) :=
  if mine.bound then do
    let ts ← mine.series.add a
    return ({ mine with series := ts }, { theirs with series := sees theirs.series ts })
  else
    let p := a.given
    match mine.series, theirs.series with
    | .zipgob c, .zipgob s =>
      .ok ({ mine with series := .zipgob { c with toEncoder := c.toEncoder.addPoint p } },
        { theirs with
          series := .zipgob { s with
            min := p.min, max := p.max, last := p.last, sum := p.sum
            pending := s.pending ++ c.record p } })
    | .codec c, .codec s =>
      .ok ({ mine with series := .codec { c.addPoint p with buf := c.buf } },
        { theirs with series := .codec { s with buf := s.buf ++ [newStat c.fullRes countOne p] } })
    | _, _ => .error .panic

inductive Who where
  | original
  | copy
  deriving DecidableEq

def Twins.add (w : Twins) : Who × Added → Except SeriesError Twins
  | (.original, a) => (w.original.addBeside w.copy a).map fun r => ⟨r.1, r.2⟩
  | (.copy, a) => (w.copy.addBeside w.original a).map fun r => ⟨r.2, r.1⟩

def Twins.addAll : Twins → List (Who × Added) → Except SeriesError Twins
  | w, [] => .ok w
  | w, x :: later => do
    let w ← w.add x
    w.addAll later

/-! ### What a copy is for -/

def ownPoints (who : Who) (later : List (Who × Added)) : List Added :=
  later.filterMap fun x => if x.1 = who then some x.2 else none

/-- The handle after additions that nothing else interferes with. -/
def Handle.addAlone (h : Handle) (as : List Added) : Except SeriesError Handle :=
  (h.series.addAll as).map fun ts => { h with series := ts }

/-- The copy is the same as the original, which it leaves alone, and after any additions
each of the two is what its own points alone make of it. -/
structure CopiesWell [IntConversion] (sizes : Sizes) (h : Handle) (later : List (Who × Added)) :
    Prop where
  original : h.copy.original.face sizes = h.face sizes
  copy : h.copy.copy.face sizes = h.face sizes
  apart : ∃ w s c, h.copy.addAll later = .ok w ∧
    h.addAlone (ownPoints .original later) = .ok s ∧ h.addAlone (ownPoints .copy later) = .ok c ∧
    w.original.view = s.view ∧ w.copy.view = c.view

/-- The series that can be copied: those that keep their stats in a slice of their own, if
there is no resolution to lose, and the gob series as long as nothing more is added. -/
def Copyable [IntConversion] (later : List (Who × Added)) : Series → Prop
  | .json _ | .repr _ => True
  | .protobuf s => s.fullTimeResolution = false
  | .gob _ => later = []
  | .zipgob _ | .gorilla _ | .msgpack _ | .codec _ => False

/-! ### Series that share nothing -/

def Private : Series → Prop
  | .json _ | .repr _ | .protobuf _ => True
  | _ => False

theorem add_private {ts : Series} (own : Private ts) (a : Added) :
    ∃ ts', ts.add a = .ok ts' ∧ Private ts' := by
  cases ts with
  | json s | repr s | protobuf s => cases a <;> exact ⟨_, rfl, trivial⟩
  | gob s | zipgob s | gorilla s | msgpack s | codec s => exact own.elim

theorem sees_private {mine : Series} (own : Private mine) (theirs : Series) :
    sees mine theirs = mine := by
  cases mine with
  | json s => rfl
  | repr s => rfl
  | protobuf s => rfl
  | gob s | zipgob s | gorilla s | msgpack s | codec s => exact own.elim

theorem addBeside_private {mine theirs : Handle} (bound : mine.bound = true)
    (own : Private theirs.series) {a : Added} {ts : Series} (added : mine.series.add a = .ok ts) :
    mine.addBeside theirs a = .ok ({ mine with series := ts }, theirs) := by
  rw [Handle.addBeside, if_pos bound, added]
  change Except.ok _ = _
  rw [sees_private own]

/-- Two handles on series that share nothing go their own ways. -/
theorem addAll_private (later : List (Who × Added)) {w : Twins}
    (bound : w.original.bound = true ∧ w.copy.bound = true)
    (own : Private w.original.series ∧ Private w.copy.series) :
    ∃ s c, w.addAll later = .ok ⟨s, c⟩ ∧ w.original.addAlone (ownPoints .original later) = .ok s ∧
      w.copy.addAlone (ownPoints .copy later) = .ok c := by
  induction later generalizing w with
  | nil => exact ⟨w.original, w.copy, rfl, rfl, rfl⟩
  | cons x later ih =>
    obtain ⟨who, a⟩ := x
    cases who with
    | original =>
      obtain ⟨ts, hadd, hown⟩ := add_private own.1 a
      obtain ⟨s, c, hrest, hs, hc⟩ :=
        ih (w := ⟨{ w.original with series := ts }, w.copy⟩) bound ⟨hown, own.2⟩
      refine ⟨s, c, ?_, ?_, hc⟩
      · rw [Twins.addAll, Twins.add, addBeside_private bound.1 own.2 hadd]
        exact hrest
      · rw [Handle.addAlone] at hs ⊢
        change Except.map _ (w.original.series.add a >>= _) = _
        rw [hadd]
        exact hs
    | copy =>
      obtain ⟨ts, hadd, hown⟩ := add_private own.2 a
      obtain ⟨s, c, hrest, hs, hc⟩ :=
        ih (w := ⟨w.original, { w.copy with series := ts }⟩) bound ⟨own.1, hown⟩
      refine ⟨s, c, ?_, hs, ?_⟩
      · rw [Twins.addAll, Twins.add, addBeside_private bound.2 own.1 hadd]
        exact hrest
      · rw [Handle.addAlone] at hc ⊢
        change Except.map _ (w.copy.series.add a >>= _) = _
        rw [hadd]
        exact hc

theorem copiesWell_private [IntConversion] (sizes : Sizes) (ts : Series) {syncs : Nat}
    (own : Private ts) (same : (Handle.alone ts syncs).copy = ⟨.alone ts syncs, .alone ts syncs⟩)
    (later : List (Who × Added)) : CopiesWell sizes (.alone ts syncs) later := by
  obtain ⟨s, c, hall, hs, hc⟩ := addAll_private later
    (w := ⟨.alone ts syncs, .alone ts syncs⟩) ⟨rfl, rfl⟩ ⟨own, own⟩
  constructor
  · rw [same]
  · rw [same]
  · rw [same]
    exact ⟨_, s, c, hall, hs, hc, rfl, rfl⟩

/-! ### The shared buffer of the gob series -/

/-- A point is three values or seven, wherever it comes. -/
def recordLength (a : Added) : Nat := if a.given.isSmall then 3 else 7

theorem record_length (s : Encoder) (p : Point) :
    (s.record p).length = if p.isSmall then 3 else 7 := by
  unfold Encoder.record
  split <;> split <;> rfl

theorem gob_add {s : GobTimeSeries} {a : Added} {ts : Series}
    (added : (Series.gob s).add a = .ok ts) :
    ∃ s' : GobTimeSeries, ts = .gob s' ∧ s'.buf.length = s.buf.length + recordLength a := by
  have hbuf : ∀ p, (s.addPoint p).buf.length = s.buf.length + if p.isSmall then 3 else 7 := by
    intro p
    rw [← record_length s.toEncoder p]
    exact List.length_append
  cases a with
  | point p | stat p =>
    obtain rfl := Except.ok.inj added
    exact ⟨_, rfl, hbuf p⟩

theorem gob_addAll (as : List Added) {s : GobTimeSeries} {ts : Series}
    (added : (Series.gob s).addAll as = .ok ts) :
    ∃ s' : GobTimeSeries, ts = .gob s' ∧
      s'.buf.length = s.buf.length + (as.map recordLength).sum := by
  induction as generalizing s with
  | nil =>
    obtain rfl := Except.ok.inj added
    exact ⟨s, rfl, rfl⟩
  | cons a as ih =>
    obtain ⟨ts1, first, rest⟩ := bind_ok added
    obtain ⟨s1, rfl, hone⟩ := gob_add first
    obtain ⟨s', rfl, hmore⟩ := ih rest
    refine ⟨s', rfl, ?_⟩
    rw [List.map_cons, List.sum_cons]
    omega

/-- Both handles see one buffer, and every point goes there. -/
structure OneBuffer (w : Twins) (length : Nat) : Prop where
  bound : w.original.bound = true ∧ w.copy.bound = true
  buffer : ∃ s c : GobTimeSeries, w.original.series = .gob s ∧ w.copy.series = .gob c ∧
    s.buf = c.buf ∧ s.buf.length = length

theorem oneBuffer_add {w w' : Twins} {length : Nat} {x : Who × Added} (one : OneBuffer w length)
    (added : w.add x = .ok w') : OneBuffer w' (length + recordLength x.2) := by
  obtain ⟨who, a⟩ := x
  obtain ⟨⟨hbound, hbound'⟩, s, c, hs, hc, hsame, rfl⟩ := one
  cases who with
  | original =>
    rw [Twins.add, Handle.addBeside, if_pos hbound, hs, hc] at added
    cases first : (Series.gob s).add a with
    | error e =>
      rw [first] at added
      cases added
    | ok ts =>
      rw [first] at added
      obtain ⟨s', rfl, hlength⟩ := gob_add first
      obtain rfl := Except.ok.inj added
      exact ⟨⟨hbound, hbound'⟩, _, _, rfl, rfl, rfl, hlength⟩
  | copy =>
    rw [Twins.add, Handle.addBeside, if_pos hbound', hs, hc] at added
    cases first : (Series.gob c).add a with
    | error e =>
      rw [first] at added
      cases added
    | ok ts =>
      rw [first] at added
      obtain ⟨c', rfl, hlength⟩ := gob_add first
      obtain rfl := Except.ok.inj added
      rw [← hsame] at hlength
      exact ⟨⟨hbound, hbound'⟩, _, _, rfl, rfl, rfl, hlength⟩

theorem oneBuffer_addAll (later : List (Who × Added)) {w w' : Twins} {length : Nat}
    (one : OneBuffer w length) (added : w.addAll later = .ok w') :
    OneBuffer w' (length + (later.map fun x => recordLength x.2).sum) := by
  induction later generalizing w length with
  | nil =>
    obtain rfl := Except.ok.inj added
    exact one
  | cons x later ih =>
    obtain ⟨w1, first, rest⟩ := bind_ok added
    rw [List.map_cons, List.sum_cons, ← Nat.add_assoc]
    exact ih (oneBuffer_add one first) rest

theorem ownPoints_total (later : List (Who × Added)) :
    ((ownPoints .original later).map recordLength).sum +
      ((ownPoints .copy later).map recordLength).sum =
        (later.map fun x => recordLength x.2).sum := by
  induction later with
  | nil => rfl
  | cons x later ih =>
    obtain ⟨who, a⟩ := x
    rw [List.map_cons, List.sum_cons, ← ih]
    cases who with
    | original =>
      change (recordLength a + _) + _ = _
      exact Nat.add_assoc _ _ _
    | copy =>
      change _ + (recordLength a + _) = _
      exact Nat.add_left_comm _ _ _

theorem recordLength_pos (a : Added) : 0 < recordLength a := by
  unfold recordLength
  split <;> decide

theorem gob_bytes {h : Handle} {s : GobTimeSeries} (gob : h.series = .gob s) :
    h.bytes = .blob (.gob s.buf) := by
  rw [Handle.bytes, gob]
  rfl

theorem gob_alone {s : GobTimeSeries} {syncs : Nat} {as : List Added} {k : Handle}
    (added : (Handle.alone (.gob s) syncs).addAlone as = .ok k) :
    ∃ s' : GobTimeSeries, k.bytes = .blob (.gob s'.buf) ∧
      s'.buf.length = s.buf.length + (as.map recordLength).sum := by
  cases all : (Series.gob s).addAll as with
  | error e =>
    rw [Handle.addAlone, Handle.alone, all] at added
    cases added
  | ok ts =>
    rw [Handle.addAlone, Handle.alone, all] at added
    obtain rfl := Except.ok.inj added
    obtain ⟨s', rfl, hlength⟩ := gob_addAll as all
    exact ⟨s', gob_bytes rfl, hlength⟩

theorem copiesWell_gob_iff [IntConversion] (sizes : Sizes) (s : GobTimeSeries) (syncs : Nat)
    (later : List (Who × Added)) : CopiesWell sizes (.alone (.gob s) syncs) later ↔ later = [] := by
  constructor
  · rintro ⟨-, -, w, k, l, hall, hk, hl, horiginal, hcopy⟩
    obtain ⟨-, t, d, ht, hd, hsame, hlength⟩ := oneBuffer_addAll later
      (w := ⟨.alone (.gob s) syncs, .alone (.gob s) syncs⟩) ⟨⟨rfl, rfl⟩, s, s, rfl, rfl, rfl, rfl⟩
      hall
    obtain ⟨k', hkbytes, hklength⟩ := gob_alone hk
    obtain ⟨l', hlbytes, hllength⟩ := gob_alone hl
    have hleft : Bytes.blob (.gob t.buf) = .blob (.gob k'.buf) := by
      rw [← gob_bytes ht, ← hkbytes]
      exact congrArg View.bytes horiginal
    have hright : Bytes.blob (.gob d.buf) = .blob (.gob l'.buf) := by
      rw [← gob_bytes hd, ← hlbytes]
      exact congrArg View.bytes hcopy
    injection hleft with hleft
    injection hleft with hleft
    injection hright with hright
    injection hright with hright
    rw [← hleft] at hklength
    rw [← hright, ← hsame] at hllength
    have htotal := ownPoints_total later
    cases later with
    | nil => rfl
    | cons x later =>
      have hpos := recordLength_pos x.2
      rw [List.map_cons, List.sum_cons] at hlength htotal
      omega
  · rintro rfl
    exact ⟨rfl, rfl, _, _, _, rfl, rfl, rfl, rfl, rfl⟩

/-! ### The length of a gorilla series -/

/-- A writer that has counted its bits, with a header among them. -/
def Metered (bw : BitStream) : Prop :=
  ∃ bits, Written bw bits ∧ bw.bitsWritten = bits.length ∧ 72 ≤ bits.length

theorem metered_grows {b b' : BitStream} (metered : Metered b) (grows : Grows b b') :
    Metered b' := by
  obtain ⟨bits, hwritten, hcount, hlong⟩ := metered
  obtain ⟨enc, hemit, hmore⟩ := grows
  refine ⟨bits ++ enc, hemit bits hwritten, ?_, ?_⟩
  · rw [hmore, hcount, List.length_append]
  · rw [List.length_append]
    omega

theorem metered_of_grows {b : BitStream} (grows : Grows empty b) (long : 72 ≤ b.bitsWritten) :
    Metered b := by
  obtain ⟨enc, hemit, hcount⟩ := grows
  have hlength : b.bitsWritten = enc.length := hcount.trans (Nat.zero_add _)
  exact ⟨enc, hemit [] written_empty, hlength, hlength ▸ long⟩

theorem grows_new (t0 : BitVec 64) (o : Options) :
    Grows empty (GorillaTimeSeries.newGoriallaTimeSeries t0 o).bw := by
  obtain ⟨nv, high, handler⟩ := o
  have hhead : ∀ (tag : List (BitVec 8)) (n ts : BitVec 64),
      Grows empty (((empty.writeBytes tag).writeBits n 8).writeBits ts 32) := fun tag n ts =>
    grows_trans (grows_trans (writeBytes_grows _ _) (writeBits_grows _ _ (by decide)))
      (writeBits_grows _ _ (by decide))
  cases high with
  | false => exact hhead tagSecond _ _
  | true =>
    exact grows_trans (hhead tagNanoSmart ((BitVec.ofInt 8 nv).setWidth 64)
      ((splitNano t0).1.setWidth 64)) (writeBits_grows _ ((splitNano t0).2.setWidth 64) (by decide))

theorem metered_new (t0 : BitVec 64) (o : Options) :
    Metered (GorillaTimeSeries.newGoriallaTimeSeries t0 o).bw :=
  metered_of_grows (grows_new t0 o) (bitsWritten_new t0 o)

/-- The clone takes its bytes for bits. -/
theorem len_clone_ne {bw : BitStream} (metered : Metered bw) : bw.clone.len ≠ bw.len := by
  obtain ⟨bits, ⟨hroom, hbits⟩, hcount, hlong⟩ := metered
  have hlength := congrArg List.length hbits
  rw [Bits.length_bytesBits, List.length_append, List.length_replicate] at hlength
  change bw.stream.length / 8 ≠ bw.bitsWritten / 8
  omega

/-- A series as its constructor returns it. -/
inductive Opened : Series → Prop
  | gob (t0 : BitVec 64) (o : Options) : Opened (.gob (.newGobTimeSeries t0 o))
  | zipgob (t0 : BitVec 64) (o : Options) : Opened (.zipgob (.newZipGobTimeSeries t0 o))
  | json (t0 : BitVec 64) : Opened (.json (.new t0))
  | protobuf (t0 : BitVec 64) (o : Options) : Opened (.protobuf (.newProtobufTimeSeries t0 o))
  | gorilla (t0 : BitVec 64) (o : Options) : Opened (.gorilla (.newGoriallaTimeSeries t0 o))
  | msgpack (t0 : BitVec 64) (o : Options) : Opened (.msgpack (.newMsgpackTimeSeries t0 o))
  | codec (t0 : BitVec 64) (o : Options) : Opened (.codec (.newCodecTimeSeries t0 o))
  | repr (t0 : BitVec 64) : Opened (.repr (.new t0))

def MeteredSeries : Series → Prop
  | .gorilla s => Metered s.bw
  | _ => True

theorem metered_add {ts ts' : Series} {a : Added} (metered : MeteredSeries ts)
    (added : ts.add a = .ok ts') : MeteredSeries ts' := by
  have hpoint : ∀ {s : GorillaTimeSeries} {p : Point} {ts' : Series},
      MeteredSeries (.gorilla s) → (s.addPoint p).map Series.gorilla = .ok ts' →
      MeteredSeries ts' := by
    intro s p ts' metered ok
    cases hadd : s.addPoint p with
    | error e =>
      rw [hadd] at ok
      cases ok
    | ok s' =>
      rw [hadd] at ok
      obtain rfl := Except.ok.inj ok
      exact metered_grows metered (addPoint_grows hadd)
  cases ts with
  | gorilla s => cases a <;> exact hpoint metered added
  | _ => cases a <;> obtain rfl := Except.ok.inj added <;> trivial

theorem metered_addAll (as : List Added) {ts ts' : Series} (metered : MeteredSeries ts)
    (added : ts.addAll as = .ok ts') : MeteredSeries ts' := by
  induction as generalizing ts with
  | nil =>
    obtain rfl := Except.ok.inj added
    exact metered
  | cons a as ih =>
    obtain ⟨ts1, first, rest⟩ := bind_ok added
    exact ih (metered_add metered first) rest

theorem metered_opened {ts : Series} (opened : Opened ts) : MeteredSeries ts := by
  cases opened with
  | gorilla t0 o => exact metered_new t0 o
  | _ => trivial

/-! ### Which copies are good -/

section Kinds

variable (sizes : Sizes) (syncs : Nat) (later : List (Who × Added))

theorem copiesWell_protobuf_iff [IntConversion] (s : ProtobufTimeSeries) :
    CopiesWell sizes (.alone (.protobuf s) syncs) later ↔ s.fullTimeResolution = false := by
  constructor
  · rintro ⟨-, hcopy, -⟩
    exact (congrArg Face.highResolution hcopy).symm
  · intro low
    obtain ⟨t0, curTime, full, stats, curCount⟩ := s
    obtain rfl : full = false := low
    exact copiesWell_private sizes (.protobuf ⟨t0, curTime, false, stats, curCount⟩) trivial rfl
      later

/-- The copy is shorter than its original. -/
theorem not_copiesWell_gorilla [IntConversion] {s : GorillaTimeSeries} (metered : Metered s.bw) :
    ¬ CopiesWell sizes (.alone (.gorilla s) syncs) later := by
  rintro ⟨-, hcopy, -⟩
  exact len_clone_ne metered (congrArg Face.len hcopy)

/-- The flush leaves a marker in the original. -/
theorem not_copiesWell_zipgob [IntConversion] (s : ZipGobTimeSeries) :
    ¬ CopiesWell sizes (.alone (.zipgob s) syncs) later := by
  rintro ⟨horiginal, -, -⟩
  have hbytes := congrArg (fun f : Face => f.bytes) horiginal
  injection hbytes with _ hsyncs
  exact absurd hsyncs (Nat.succ_ne_self _)

/-- The original is drained. -/
theorem not_copiesWell_msgpack [IntConversion] (s : MsgpackTimeSeries) :
    ¬ CopiesWell sizes (.alone (.msgpack s) syncs) later := by
  rintro ⟨horiginal, -, -⟩
  have hbytes := congrArg (fun f : Face => f.bytes) horiginal
  cases hbytes

theorem not_copiesWell_codec [IntConversion] (s : CodecTimeSeries) :
    ¬ CopiesWell sizes (.alone (.codec s) syncs) later := by
  rintro ⟨horiginal, -, -⟩
  have hbytes := congrArg (fun f : Face => f.bytes) horiginal
  cases hbytes

end Kinds

/-- `Copy` makes a series that equals its original and is independent of it exactly when
the series is of a kind that can be copied. -/
theorem copiesWell_iff [IntConversion] (sizes : Sizes) {new ts : Series} (opened : Opened new)
    (as : List Added) (added : new.addAll as = .ok ts) (syncs : Nat) (later : List (Who × Added)) :
    CopiesWell sizes (.alone ts syncs) later ↔ Copyable later ts := by
  have metered := metered_addAll as (metered_opened opened) added
  cases ts with
  | json s => exact iff_of_true (copiesWell_private sizes (.json s) trivial rfl later) trivial
  | repr s => exact iff_of_true (copiesWell_private sizes (.repr s) trivial rfl later) trivial
  | protobuf s => exact copiesWell_protobuf_iff sizes syncs later s
  | gob s => exact copiesWell_gob_iff sizes s syncs later
  | gorilla s => exact iff_of_false (not_copiesWell_gorilla sizes syncs later metered) id
  | zipgob s => exact iff_of_false (not_copiesWell_zipgob sizes syncs later s) id
  | msgpack s => exact iff_of_false (not_copiesWell_msgpack sizes syncs later s) id
  | codec s => exact iff_of_false (not_copiesWell_codec sizes syncs later s) id

/-- A point of one value at a time. -/
def pointAt (t : BitVec 64) : Added := .point ⟨t, 1#64, 2#64, 3#64, 4#64, 9#64⟩

/-- A protobuf series of low resolution, copied after one point and then continued twice. -/
theorem copiesWell_iff_protobuf :
    ∃ ts, (Series.protobuf (.newProtobufTimeSeries 5#64 newDefaultOptions)).addAll
        [pointAt 6#64] = .ok ts ∧
      CopiesWell ⟨fun _ => 0, fun _ => 0⟩ (.alone ts 0)
        [(.original, pointAt 7#64), (.copy, pointAt 8#64)] :=
  ⟨_, rfl, (copiesWell_iff _ (.protobuf 5#64 newDefaultOptions) [pointAt 6#64] rfl 0 _).mpr rfl⟩

/-- A point added to a gob series shows up in its copy, and the copy of a gorilla series
is shorter than the series from the start. -/
theorem copies_interfere :
    ¬ CopiesWell ⟨fun _ => 0, fun _ => 0⟩
        (.alone (.gob (.newGobTimeSeries 5#64 newDefaultOptions)) 0) [(.original, pointAt 7#64)] ∧
      ¬ CopiesWell ⟨fun _ => 0, fun _ => 0⟩
        (.alone (.gorilla (.newGoriallaTimeSeries 5#64 newDefaultOptions)) 0) [] := by
  constructor
  · intro well
    cases (copiesWell_gob_iff _ _ _ _).mp well
  · exact not_copiesWell_gorilla _ _ _ (metered_new _ _)

end Copies
