import Cadent.Series.Gob
import Mathlib.Data.List.Chain

/-!
# When the gob series decodes to what was added

The encoder takes differences to the point added last, the decoder adds them to the
point it handed out last. These are not the same after a small record, so the two drift
apart. `rereads` is what the decoder makes of any sequence of points; it is the sequence
that was added exactly when no full point follows a small one that lost something.
-/

namespace Gob

open Binary64 Bitstream Consume TimeSeries

/-- The time handed out for `t`: all of it, or its whole seconds. -/
def gobTime (high : Bool) (t : BitVec 64) : BitVec 64 := if high then t else secondTime t

/-- `p`, written against `q`, read by a decoder that holds `held`. -/
def reread (high : Bool) (held q p : Point) : Point :=
  if p.isSmall then
    let sum := held.sum ^^^ (q.sum ^^^ p.sum)
    ⟨gobTime high p.t, sum, sum, sum, sum, 1#64⟩
  else
    ⟨gobTime high p.t, held.min ^^^ (q.min ^^^ p.min), held.max ^^^ (q.max ^^^ p.max),
      held.last ^^^ (q.last ^^^ p.last), held.sum ^^^ (q.sum ^^^ p.sum),
      held.count + (p.count - q.count)⟩

def rereads (high : Bool) : Point → Point → List Point → List Point
  | _, _, [] => []
  | held, q, p :: ps => reread high held q p :: rereads high (reread high held q p) p ps

/-- A small point that its record does not distort, or one that a small point follows. -/
def Keeps (q p : Point) : Prop :=
  q.isSmall = true → p.isSmall = false →
    q.min = q.sum ∧ q.max = q.sum ∧ q.last = q.sum ∧ q.count = 1#64

instance (q p : Point) : Decidable (Keeps q p) :=
  inferInstanceAs (Decidable (_ → _ → _))

theorem xor_cancel_iff (a b c : BitVec 64) : a ^^^ (b ^^^ c) = c ↔ b = a := by
  constructor
  · intro h
    have h1 : a ^^^ b ^^^ (c ^^^ c) = 0#64 := by
      rw [← BitVec.xor_assoc, BitVec.xor_assoc a b c, h, BitVec.xor_self]
    rw [BitVec.xor_self, BitVec.xor_zero] at h1
    exact (BitVec.xor_eq_zero_iff.mp h1).symm
  · rintro rfl
    rw [← BitVec.xor_assoc, BitVec.xor_self, BitVec.zero_xor]

theorem add_sub_cancel_iff (a b c : BitVec 64) : a + (c - b) = c ↔ b = a := by
  constructor
  · intro h
    bv_omega
  · rintro rfl
    rw [BitVec.add_comm, BitVec.sub_add_cancel]

/-- After a correct decode, the next one is correct exactly when the pair is kept. -/
theorem reread_eq_iff (high : Bool) (t : BitVec 64) (q p : Point) :
    reread high (q.decodedAt t) q p = p.decodedAt (gobTime high p.t) ↔ Keeps q p := by
  unfold reread Point.decodedAt Keeps
  cases hp : p.isSmall <;> cases hq : q.isSmall <;>
    simp [xor_cancel_iff, add_sub_cancel_iff]

/-- A run is read as `form` says when each record is, against the one before. -/
theorem rereads_eq_map_iff (high : Bool) (form : Point → Point) (ps : List Point) (q : Point) :
    rereads high (form q) q ps = ps.map form ↔
      (q :: ps).IsChain fun q p => reread high (form q) q p = form p := by
  induction ps generalizing q with
  | nil => simp [rereads]
  | cons p ps ih =>
    rw [rereads, List.map_cons, List.cons.injEq, List.isChain_cons_cons]
    refine and_congr_right fun same => ?_
    rw [same]
    exact ih p

/-! ### Decoding one record -/

/-- The iterator has read everything the encoder wrote so far and holds `held`. -/
structure Follows (high : Bool) (s : Encoder) (it : GobIter) (held : Point) : Prop where
  full : s.fullResolution = high ∧ it.fullResolution = high
  started : s.curTime ≠ 0#64
  time : it.curTime = s.curTime ∧ it.t0 + it.tDelta = s.curTime
  floats : it.min = held.min ∧ it.max = held.max ∧ it.last = held.last ∧ it.sum = held.sum
  count : it.count = held.count
  running : it.finished = false

/-- The point the encoder's differences are taken to. -/
def Encoder.Holds (s : Encoder) (q : Point) : Prop :=
  s.min = q.min ∧ s.max = q.max ∧ s.last = q.last ∧ s.sum = q.sum ∧ s.curValCount = q.count

theorem addPoint_holds (s : Encoder) (p : Point) : (s.addPoint p).Holds p :=
  ⟨rfl, rfl, rfl, rfl, rfl⟩

/-- The time handed out, once the iterator's time is the encoder's. -/
theorem values_eq {high : Bool} {it : GobIter} {t : BitVec 64} (full : it.fullResolution = high)
    (time : it.curTime = useTime high t) (fits : high = true ∨ 0 ≤ seconds t ∧ seconds t < 2 ^ 32) :
    it.values = ⟨gobTime high t, it.min, it.max, it.last, it.sum, it.count⟩ := by
  have hback : ((splitNano t).1.setWidth 64).setWidth 32 = (splitNano t).1 := by simp
  unfold GobIter.values
  rw [time, full]
  cases high with
  | true => simp only [useTime, gobTime, if_true]
  | false =>
    have hsecond := combineSecNano_second (fits.resolve_left Bool.false_ne_true)
    simp only [useTime, gobTime, Bool.false_eq_true, if_false, hback, hsecond]

theorem next_ok {it it' : GobIter} {vs rest : List GobVal} (running : it.finished = false)
    (left : it.decoder = vs) (read : it.nextPoint.run vs = .ok (it', rest)) :
    GobIter.next it = (true, { it' with decoder := rest }) := by
  unfold GobIter.next
  rw [running, left, read]
  rfl

theorem nextPoint_small {it : GobIter} (started : it.curTime ≠ 0#64) (d x : BitVec 64)
    (rest : List GobVal) :
    it.nextPoint.run (.int d :: .bool false :: .uint x :: rest) =
      .ok ({ it.advance d with
        min := it.sum ^^^ x, max := it.sum ^^^ x, last := it.sum ^^^ x, sum := it.sum ^^^ x,
        count := 1#64 }, rest) := by
  have hstart : (it.curTime == 0#64) = false := by simpa using started
  unfold GobIter.nextPoint
  rw [hstart]
  rfl

theorem nextPoint_full {it : GobIter} (started : it.curTime ≠ 0#64) (d a b c e n : BitVec 64)
    (rest : List GobVal) :
    it.nextPoint.run (.int d :: .bool true :: .uint a :: .uint b :: .uint c :: .uint e ::
        .int n :: rest) =
      .ok ({ it.advance d with
        min := it.min ^^^ a, max := it.max ^^^ b, last := it.last ^^^ c, sum := it.sum ^^^ e,
        count := it.count + n }, rest) := by
  have hstart : (it.curTime == 0#64) = false := by simpa using started
  unfold GobIter.nextPoint
  rw [hstart]
  rfl

/-- A later record, whatever the decoder holds. -/
theorem next_reread {high : Bool} {s : Encoder} {it : GobIter} {held q p : Point}
    (follows : Follows high s it held) (holds : s.Holds q) {rest : List GobVal}
    (left : it.decoder = s.record p ++ rest)
    (fits : high = true ∨ 0 ≤ seconds p.t ∧ seconds p.t < 2 ^ 32)
    (later : useTime high p.t ≠ 0#64) :
    ∃ it', GobIter.next it = (true, it') ∧ it'.decoder = rest ∧
      it'.values = reread high held q p ∧
      Follows high (s.addPoint p) it' (reread high held q p) := by
  obtain ⟨hmin, hmax, hlast, hsum, hcount⟩ := holds
  obtain ⟨hfull, ifull⟩ := follows.full
  obtain ⟨htime, htotal⟩ := follows.time
  obtain ⟨imin, imax, ilast, isum⟩ := follows.floats
  have hstarted : it.curTime ≠ 0#64 := htime.trans_ne follows.started
  have hcur : it.t0 + (it.tDelta + (useTime high p.t - s.curTime)) = useTime high p.t := by
    rw [← BitVec.add_assoc, htotal, BitVec.add_comm, BitVec.sub_add_cancel]
  have hadd : (s.addPoint p).curTime = useTime high p.t := by rw [← hfull]; rfl
  rw [Encoder.record, if_neg follows.started, hfull] at left
  by_cases hsmall : p.isSmall = true
  · rw [if_pos hsmall] at left
    have hnext := next_ok follows.running left (nextPoint_small hstarted _ _ _)
    refine ⟨_, hnext, rfl, Eq.trans (values_eq ?_ ?_ fits) ?_, ⟨hfull, ifull⟩,
      hadd.trans_ne later, ⟨hcur.trans hadd.symm, hcur.trans hadd.symm⟩, ?_, ?_, follows.running⟩
    · exact ifull
    · exact hcur
    · simp only [reread, hsmall, if_true, ← isum, ← hsum]
    · simp only [reread, hsmall, if_true, ← isum, ← hsum, and_self]
    · simp only [reread, hsmall, if_true]
  · rw [if_neg hsmall] at left
    have hwhole : p.isSmall = false := by simpa using hsmall
    have hnext := next_ok follows.running left (nextPoint_full hstarted _ _ _ _ _ _ _)
    refine ⟨_, hnext, rfl, Eq.trans (values_eq ?_ ?_ fits) ?_, ⟨hfull, ifull⟩,
      hadd.trans_ne later, ⟨hcur.trans hadd.symm, hcur.trans hadd.symm⟩, ?_, ?_, follows.running⟩
    · exact ifull
    · exact hcur
    · simp only [reread, hwhole, Bool.false_eq_true, if_false, ← isum, ← hsum, ← imin, ← hmin,
        ← imax, ← hmax, ← ilast, ← hlast, ← hcount, ← follows.count]
    · simp only [reread, hwhole, Bool.false_eq_true, if_false, ← isum, ← hsum, ← imin, ← hmin,
        ← imax, ← hmax, ← ilast, ← hlast, and_self]
    · simp only [reread, hwhole, Bool.false_eq_true, if_false, ← hcount, ← follows.count]

/-! ### A whole run -/

def Encoder.records : Encoder → List Point → List GobVal
  | _, [] => []
  | s, p :: ps => s.record p ++ (s.addPoint p).records ps

theorem gob_buf_addPoints (s : GobTimeSeries) (ps : List Point) :
    (s.addPoints ps).bytes = s.buf ++ s.records ps := by
  induction ps generalizing s with
  | nil => simp [GobTimeSeries.addPoints, GobTimeSeries.bytes, Encoder.records]
  | cons p ps ih =>
    have hstep := ih (s.addPoint p)
    rw [Encoder.records, ← List.append_assoc]
    exact hstep

theorem zip_bytes_addPoints (s : ZipGobTimeSeries) (ps : List Point) :
    (s.addPoints ps).bytes = s.bytes ++ s.records ps := by
  induction ps generalizing s with
  | nil => simp [ZipGobTimeSeries.addPoints, Encoder.records]
  | cons p ps ih =>
    have hstep := ih (s.addPoint p)
    have hbytes : (s.addPoint p).bytes = s.bytes ++ s.record p :=
      (List.append_assoc s.buf s.pending (s.record p)).symm
    rw [hbytes] at hstep
    rw [Encoder.records, ← List.append_assoc]
    exact hstep

theorem next_end {it : GobIter} (running : it.finished = false) (left : it.decoder = []) :
    GobIter.next it = (false, { it with finished := true, err := some (.io .eof) }) := by
  unfold GobIter.next
  rw [running, left]
  rfl

/-- The times a series can take at its resolution. -/
structure Usable (high : Bool) (p : Point) : Prop where
  fits : high = true ∨ 0 ≤ seconds p.t ∧ seconds p.t < 2 ^ 32
  later : useTime high p.t ≠ 0#64

theorem rereads_yields {high : Bool} (ps : List Point) {s : Encoder} {it : GobIter}
    {held q : Point} (follows : Follows high s it held) (holds : s.Holds q)
    (left : it.decoder = s.records ps) (usable : ∀ p ∈ ps, Usable high p) :
    ∃ it' : GobIter, Yields it (rereads high held q ps) it' ∧ TimeSeriesIter.error it' = none := by
  induction ps generalizing s it held q with
  | nil => exact ⟨_, next_end follows.running left, rfl⟩
  | cons p ps ih =>
    have hp := usable p List.mem_cons_self
    obtain ⟨it1, hnext, hleft, hvals, hfollows⟩ := next_reread follows holds left hp.fits hp.later
    obtain ⟨it', hyields, herr⟩ := ih hfollows (addPoint_holds s p) hleft
      (fun r hr => usable r (List.mem_cons_of_mem _ hr))
    exact ⟨it', ⟨it1, hnext, congrArg some hvals, hyields⟩, herr⟩

/-- What the decoder makes of the whole sequence: the first record is exact. -/
def decodes (high : Bool) : List Point → List Point
  | [] => []
  | p :: ps =>
    p.decodedAt (gobTime high p.t) :: rereads high (p.decodedAt (gobTime high p.t)) p ps

theorem decodes_eq_map_iff (high : Bool) (form : Point → Point) (ps : List Point) :
    decodes high ps = ps.map form ↔
      (∀ p ∈ ps.head?, p.decodedAt (gobTime high p.t) = form p) ∧
      ps.IsChain fun q p => reread high (form q) q p = form p := by
  cases ps with
  | nil => simp [decodes]
  | cons p ps =>
    rw [decodes, List.map_cons, List.cons.injEq, List.head?_cons]
    simp only [Option.mem_some_iff, forall_eq']
    refine and_congr_right fun same => ?_
    rw [same]
    exact rereads_eq_map_iff high form ps p

theorem decodes_eq_iff (high : Bool) (ps : List Point) :
    decodes high ps = ps.map (fun p => p.decodedAt (gobTime high p.t)) ↔ ps.IsChain Keeps := by
  have hkeeps : (fun q p : Point => reread high (q.decodedAt (gobTime high q.t)) q p =
      p.decodedAt (gobTime high p.t)) = Keeps :=
    funext₂ fun q p => propext (reread_eq_iff high _ q p)
  rw [decodes_eq_map_iff, hkeeps]
  exact and_iff_right fun _ _ => rfl

/-! ### The first record -/

/-- Neither side has a time, or it is zero, which both take for none: the next record is
written and read as a first one. -/
structure Idle (high : Bool) (s : Encoder) (it : GobIter) : Prop where
  full : s.fullResolution = high ∧ it.fullResolution = high
  time : s.curTime = 0#64 ∧ it.curTime = 0#64
  base : it.t0 + it.tDelta = s.t0
  running : it.finished = false

theorem nextPoint_first {it : GobIter} (none_yet : it.curTime = 0#64) (d : BitVec 64) (p : Point)
    (t : BitVec 64) (rest : List GobVal) :
    it.nextPoint.run ((.int d ::
        if p.isSmall then [.bool false, .float p.sum]
        else [.bool true, .float p.min, .float p.max, .float p.last, .float p.sum,
          .int p.count]) ++ rest) =
      .ok ({ it.advance d with
        min := (p.decodedAt t).min, max := (p.decodedAt t).max, last := (p.decodedAt t).last,
        sum := (p.decodedAt t).sum, count := (p.decodedAt t).count }, rest) := by
  have hstart : (it.curTime == 0#64) = true := by simpa using none_yet
  unfold GobIter.nextPoint Point.decodedAt
  rw [hstart]
  cases p.isSmall <;> rfl

theorem next_first {high : Bool} {s : Encoder} {it : GobIter} (idle : Idle high s it) {p : Point}
    {rest : List GobVal} (left : it.decoder = s.record p ++ rest)
    (fits : high = true ∨ 0 ≤ seconds p.t ∧ seconds p.t < 2 ^ 32) :
    ∃ it', GobIter.next it = (true, it') ∧ it'.decoder = rest ∧
      it'.values = p.decodedAt (gobTime high p.t) ∧
      (useTime high p.t ≠ 0#64 →
        Follows high (s.addPoint p) it' (p.decodedAt (gobTime high p.t))) ∧
      (useTime high p.t = 0#64 → s.t0 = 0#64 → Idle high (s.addPoint p) it') := by
  obtain ⟨hfull, ifull⟩ := idle.full
  obtain ⟨htime, itime⟩ := idle.time
  have hcur : it.t0 + (it.tDelta + (useTime high p.t - s.t0)) = useTime high p.t := by
    rw [← BitVec.add_assoc, idle.base, BitVec.add_comm, BitVec.sub_add_cancel]
  have hadd : (s.addPoint p).curTime = useTime high p.t := by rw [← hfull]; rfl
  rw [Encoder.record, if_pos htime, hfull] at left
  have hnext := next_ok idle.running left (nextPoint_first itime _ p (gobTime high p.t) rest)
  refine ⟨_, hnext, rfl, ?_, ?_, ?_⟩
  · refine Eq.trans (values_eq ifull hcur fits) ?_
    exact congrArg (fun t => Point.mk t _ _ _ _ _) (decodedAt_t p (gobTime high p.t)).symm
  · intro later
    exact ⟨⟨hfull, ifull⟩, hadd.trans_ne later, ⟨hcur.trans hadd.symm, hcur.trans hadd.symm⟩,
      ⟨rfl, rfl, rfl, rfl⟩, rfl, idle.running⟩
  · intro zero base
    exact ⟨⟨hfull, ifull⟩, ⟨hadd.trans zero, hcur.trans zero⟩,
      hcur.trans (zero.trans base.symm), idle.running⟩

theorem idle_yields {high : Bool} {s : Encoder} {it : GobIter} (idle : Idle high s it)
    {ps : List Point} (left : it.decoder = s.records ps) (usable : ∀ p ∈ ps, Usable high p) :
    ∃ it' : GobIter, Yields it (decodes high ps) it' ∧ TimeSeriesIter.error it' = none := by
  cases ps with
  | nil => exact ⟨_, next_end idle.running left, rfl⟩
  | cons p ps =>
    have hp := usable p List.mem_cons_self
    obtain ⟨it1, hnext, hleft, hvals, hfollows, -⟩ := next_first idle left hp.fits
    obtain ⟨it', hyields, herr⟩ := rereads_yields ps (hfollows hp.later) (addPoint_holds _ p) hleft
      (fun r hr => usable r (List.mem_cons_of_mem _ hr))
    exact ⟨it', ⟨it1, hnext, congrArg some hvals, hyields⟩, herr⟩

/-- The iterator over the records of a new encoder. -/
theorem newGobIter_idle {high : Bool} (t0 : BitVec 64) {o : Options}
    (res : o.highTimeResolution = high) {tag : String}
    (tagged : decide (tag ≠ simpleBinSeriesTagLowres ∧ tag ≠ zipSimpleBinSeriesLowresTag) = high)
    (vs : List GobVal) :
    ∃ it, GobIter.newGobIter ([.string tag, .int (Encoder.new t0 o).t0] ++ vs) = .ok it ∧
      it.decoder = vs ∧ Idle high (Encoder.new t0 o) it :=
  ⟨_, rfl, rfl, ⟨res, tagged⟩, ⟨rfl, rfl⟩, BitVec.add_zero _, rfl⟩

theorem drains_decodes {high : Bool} {t0 : BitVec 64} {o : Options}
    (res : o.highTimeResolution = high) {tag : String}
    (tagged : decide (tag ≠ simpleBinSeriesTagLowres ∧ tag ≠ zipSimpleBinSeriesLowresTag) = high)
    {ps : List Point} (usable : ∀ p ∈ ps, Usable high p) :
    Drains (GobIter.newGobIter
      ([.string tag, .int (Encoder.new t0 o).t0] ++ (Encoder.new t0 o).records ps))
      (decodes high ps) := by
  obtain ⟨it, hopen, hleft, hidle⟩ := newGobIter_idle t0 res tagged ((Encoder.new t0 o).records ps)
  obtain ⟨it', hyields, herr⟩ := idle_yields hidle hleft usable
  exact ⟨it, it', hopen, hyields, herr⟩

/-! ### A first point at time zero -/

/-- The tag of a series says its resolution. -/
theorem tag_resolution (high : Bool) {full low : String}
    (full_tag : full ≠ simpleBinSeriesTagLowres ∧ full ≠ zipSimpleBinSeriesLowresTag)
    (low_tag : low = simpleBinSeriesTagLowres ∨ low = zipSimpleBinSeriesLowresTag) :
    decide ((if high then full else low) ≠ simpleBinSeriesTagLowres ∧
      (if high then full else low) ≠ zipSimpleBinSeriesLowresTag) = high := by
  cases high with
  | true => simpa using full_tag
  | false => simpa [imp_iff_not_or] using low_tag

theorem usable_of_seconds {p : Point} (fits : 0 < seconds p.t ∧ seconds p.t < 2 ^ 32) :
    Usable false p := by
  refine ⟨.inr ⟨fits.1.le, fits.2⟩, fun zero => ?_⟩
  have hsec := splitNano_sec_toNat ⟨fits.1.le, fits.2⟩
  have hnat : ((splitNano p.t).1.setWidth 64).toNat = 0 := congrArg BitVec.toNat zero
  rw [BitVec.toNat_setWidth_of_le (by decide)] at hnat
  omega

theorem usable_of_positive {high : Bool} {p : Point} (positive : 0 < p.t.toInt)
    (fits : high = true ∨ seconds p.t < 2 ^ 32) : Usable high p := by
  cases high with
  | true =>
    refine ⟨Or.inl rfl, fun hzero => ?_⟩
    have htime : p.t = 0#64 := hzero
    rw [htime] at positive
    exact absurd positive (by decide)
  | false =>
    have hseconds : 0 < seconds p.t := by
      unfold seconds
      split
      · exact positive
      · omega
    exact usable_of_seconds ⟨hseconds, fits.resolve_left Bool.false_ne_true⟩

/-! ### What a low resolution iterator can hand out -/

theorem readSmall_fullResolution {it it' : GobIter} {isStart : Bool} {vs rest : List GobVal}
    (read : (it.readSmall isStart).run vs = .ok (it', rest)) :
    it'.fullResolution = it.fullResolution := by
  unfold GobIter.readSmall at read
  split at read <;>
  · obtain ⟨_, _, -, read⟩ := run_bind_ok read
    obtain ⟨rfl, -⟩ := run_pure_ok read
    rfl

theorem readFull_fullResolution {it it' : GobIter} {isStart : Bool} {vs rest : List GobVal}
    (read : (it.readFull isStart).run vs = .ok (it', rest)) :
    it'.fullResolution = it.fullResolution := by
  unfold GobIter.readFull at read
  split at read <;>
  · obtain ⟨_, _, -, read⟩ := run_bind_ok read
    obtain ⟨_, _, -, read⟩ := run_bind_ok read
    obtain ⟨_, _, -, read⟩ := run_bind_ok read
    obtain ⟨_, _, -, read⟩ := run_bind_ok read
    obtain ⟨_, _, -, read⟩ := run_bind_ok read
    obtain ⟨rfl, -⟩ := run_pure_ok read
    rfl

theorem nextPoint_fullResolution {it it' : GobIter} {vs rest : List GobVal}
    (read : it.nextPoint.run vs = .ok (it', rest)) : it'.fullResolution = it.fullResolution := by
  obtain ⟨d, vs1, -, read⟩ := run_bind_ok read
  obtain ⟨b, vs2, -, read⟩ := run_bind_ok read
  cases b with
  | true =>
    have hread : ((it.advance d).readFull (it.curTime == 0#64)).run vs2 = .ok (it', rest) := read
    have hsame := readFull_fullResolution hread
    exact hsame
  | false =>
    have hread : ((it.advance d).readSmall (it.curTime == 0#64)).run vs2 = .ok (it', rest) := read
    have hsame := readSmall_fullResolution hread
    exact hsame

theorem next_fullResolution {it it' : GobIter} {more : Bool} (step : it.next = (more, it')) :
    it'.fullResolution = it.fullResolution := by
  unfold GobIter.next at step
  split at step
  · obtain ⟨-, rfl⟩ := Prod.mk.inj step
    rfl
  · split at step
    next it1 rest hread =>
      obtain ⟨-, rfl⟩ := Prod.mk.inj step
      have hsame := nextPoint_fullResolution hread
      exact hsame
    next e hread =>
      obtain ⟨-, rfl⟩ := Prod.mk.inj step
      rfl

/-- Every time handed out at low resolution has its seconds in a `uint32`. -/
theorem yields_low {vs : List Point} {it it' : GobIter} (low : it.fullResolution = false)
    (yields : Yields it vs it') : ∀ v ∈ vs, v.t.toNat < 2 ^ 32 * 1000000000 := by
  induction vs generalizing it with
  | nil => simp
  | cons v vs ih =>
    obtain ⟨it1, hnext, hvals, hrest⟩ := yields
    have hlow : it1.fullResolution = false := (next_fullResolution hnext).trans low
    intro w hw
    rcases List.mem_cons.mp hw with rfl | hw
    · have htime : w.t = combineSecNano (it1.curTime.setWidth 32) 0#32 := by
        have hval : it1.values = w := Option.some.inj hvals
        rw [← hval]
        simp only [GobIter.values, hlow, Bool.false_eq_true, if_false]
      have hlt := (it1.curTime.setWidth 32).isLt
      have hzero : (0#32).toNat = 0 := by decide
      rw [htime, combineSecNano_toNat, hzero]
      omega
    · exact ih hlow hrest w hw

/-! ### The exact condition -/

theorem seconds_lt_of_time {t : BitVec 64} (positive : 0 < t.toInt)
    (small : (secondTime t).toNat < 2 ^ 32 * 1000000000) : seconds t < 2 ^ 32 := by
  have hlt := t.isLt
  have hbounds : 0 ≤ seconds t ∧ seconds t * 1000000000 < 2 ^ 64 := by
    have hint : t.toInt = t.toNat := by
      rw [BitVec.toInt_eq_toNat_cond] at positive ⊢
      split at positive <;> omega
    unfold seconds
    split <;> omega
  have htime := ofInt_toNat_of_fits (i := seconds t * 1000000000) (by omega) hbounds.2
  unfold secondTime at small
  omega

theorem drains_iff {high : Bool} {t0 : BitVec 64} {o : Options}
    (res : o.highTimeResolution = high) {tag : String}
    (tagged : decide (tag ≠ simpleBinSeriesTagLowres ∧ tag ≠ zipSimpleBinSeriesLowresTag) = high)
    {ps : List Point} (positive : ∀ p ∈ ps, 0 < p.t.toInt) :
    Drains (GobIter.newGobIter
        ([.string tag, .int (Encoder.new t0 o).t0] ++ (Encoder.new t0 o).records ps))
        (ps.map fun p => p.decodedAt (gobTime high p.t)) ↔
      (high = true ∨ ∀ p ∈ ps, seconds p.t < 2 ^ 32) ∧ ps.IsChain Keeps := by
  have husable : (high = true ∨ ∀ p ∈ ps, seconds p.t < 2 ^ 32) → ∀ p ∈ ps, Usable high p :=
    fun hfits p hp => usable_of_positive (positive p hp) (hfits.imp_right fun h => h p hp)
  constructor
  · intro h
    have hfits : high = true ∨ ∀ p ∈ ps, seconds p.t < 2 ^ 32 := by
      cases high with
      | true => exact Or.inl rfl
      | false =>
        obtain ⟨it, it', hopen, hyields, -⟩ := h
        have hlow : it.fullResolution = false := by
          rw [← Except.ok.inj hopen]
          exact tagged
        refine Or.inr fun p hp => seconds_lt_of_time (positive p hp) ?_
        have hv := yields_low hlow hyields _ (List.mem_map_of_mem hp)
        have ht : (p.decodedAt (gobTime false p.t)).t = secondTime p.t := by
          unfold Point.decodedAt gobTime
          split <;> rfl
        rwa [ht] at hv
    exact ⟨hfits, (decodes_eq_iff high ps).mp
      (drains_unique (drains_decodes res tagged (husable hfits)) h)⟩
  · rintro ⟨hfits, hchain⟩
    rw [← (decodes_eq_iff high ps).mpr hchain]
    exact drains_decodes res tagged (husable hfits)

/-- Draining what was encoded gives back the points exactly when, at low resolution, the
seconds fit in a `uint32`, and every small point that a full one follows is made of one
value and counts one. -/
theorem iter_drains_addPoints_iff (t0 : BitVec 64) (o : Options) (ps : List Point)
    (positive : ∀ p ∈ ps, 0 < p.t.toInt) :
    (Drains ((GobTimeSeries.newGobTimeSeries t0 o).addPoints ps).iter
        (ps.map fun p => p.decodedAt (gobTime o.highTimeResolution p.t)) ↔
      (o.highTimeResolution = true ∨ ∀ p ∈ ps, seconds p.t < 2 ^ 32) ∧ ps.IsChain Keeps) ∧
    (Drains ((ZipGobTimeSeries.newZipGobTimeSeries t0 o).addPoints ps).iter
        (ps.map fun p => p.decodedAt (gobTime o.highTimeResolution p.t)) ↔
      (o.highTimeResolution = true ∨ ∀ p ∈ ps, seconds p.t < 2 ^ 32) ∧ ps.IsChain Keeps) := by
  constructor
  · rw [GobTimeSeries.iter, gob_buf_addPoints]
    exact drains_iff rfl (tag_resolution _ (by decide) (by decide)) positive
  · rw [ZipGobTimeSeries.iter, newZipGobIter, zip_bytes_addPoints]
    exact drains_iff rfl (tag_resolution _ (by decide) (by decide)) positive

/-- A small point counting five, then a full one counting three. -/
def driftingPoints : List Point :=
  [⟨1500000010000000000#64, 2#64, 2#64, 2#64, 2#64, 5#64⟩,
    ⟨1500000020000000000#64, 1#64, 3#64, 2#64, 6#64, 3#64⟩]

/-- The decoder restarts the count at one after the small point, so `-1` comes back for `3`. -/
theorem iter_drains_drifting_fails :
    Drains ((GobTimeSeries.newGobTimeSeries 1500000000000000000#64
        ⟨5, true, "n/a"⟩).addPoints driftingPoints).iter
      [⟨1500000010000000000#64, 2#64, 2#64, 2#64, 2#64, 1#64⟩,
        ⟨1500000020000000000#64, 1#64, 3#64, 2#64, 6#64, BitVec.ofInt 64 (-1)⟩] ∧
    ¬ Drains ((GobTimeSeries.newGobTimeSeries 1500000000000000000#64
        ⟨5, true, "n/a"⟩).addPoints driftingPoints).iter
      (driftingPoints.map fun p => p.decodedAt (gobTime true p.t)) := by
  have hdrains : Drains ((GobTimeSeries.newGobTimeSeries 1500000000000000000#64
      ⟨5, true, "n/a"⟩).addPoints driftingPoints).iter
      [⟨1500000010000000000#64, 2#64, 2#64, 2#64, 2#64, 1#64⟩,
        ⟨1500000020000000000#64, 1#64, 3#64, 2#64, 6#64, BitVec.ofInt 64 (-1)⟩] := by
    rw [GobTimeSeries.iter, gob_buf_addPoints]
    exact drains_decodes rfl rfl (by
      simp only [driftingPoints, List.forall_mem_cons]
      exact ⟨usable_of_positive (by decide) (Or.inl rfl),
        usable_of_positive (by decide) (Or.inl rfl), by simp⟩)
  exact ⟨hdrains, fun h => absurd (drains_unique hdrains h) (by decide)⟩

theorem iter_drains_addPoints_iff_kept :
    (∀ p ∈ driftingPoints, 0 < p.t.toInt) ∧
    (Drains ((GobTimeSeries.newGobTimeSeries 1500000000000000000#64
        ⟨5, true, "n/a"⟩).addPoints driftingPoints.reverse).iter
      (driftingPoints.reverse.map fun p => p.decodedAt (gobTime true p.t))) :=
  ⟨by decide, (iter_drains_addPoints_iff 1500000000000000000#64 ⟨5, true, "n/a"⟩
    driftingPoints.reverse (by decide)).1.mpr ⟨Or.inl rfl, by decide⟩⟩

end Gob
