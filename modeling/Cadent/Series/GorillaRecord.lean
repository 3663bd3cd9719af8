import Cadent.Series.Gorilla
import Mathlib.Data.List.Forall2

/-!
# One gorilla record, written and read back

`Agree` says when the encoder's column and the decoder's column are in step, `InStep`
says it of the whole series. One record appends some bits to the stream, the decoder
consumes exactly those bits, and the two are in step again.
-/

namespace Gorilla

open Binary64 Binary64.IntConversion Bits Bitstream BitStream Consume TimeSeries

/-! ### One value -/

/-- The encoder marks a column without a window by `leading = 255`, which the decoder
never sees: it is told a window before it is asked to reuse one. -/
structure Agree (c d : Column) : Prop where
  val : d.val = c.val
  window : c.leading = 255#8 ∨
    d.leading = c.leading ∧ d.trailing = c.trailing ∧
      c.leading.toNat ≤ 31 ∧ c.leading.toNat + c.trailing.toNat ≤ 63

theorem readWindow_reuse (d : Column) :
    Consumes Remains (readWindow d) [false] (d.leading, d.trailing) :=
  consumes_bind_nil (readBit_consumes false) (consumes_pure _)

/-- The window as the encoder writes it: 64 significant bits are written as zero. -/
theorem readWindow_new (d : Column) {l t : BitVec 8} (small : l.toNat ≤ 31)
    (room : l.toNat + t.toNat ≤ 63) :
    Consumes Remains (readWindow d)
      ([true] ++ (bitsOf (l.setWidth 64) 5 ++ bitsOf ((64#8 - l - t).setWidth 64) 6)) (l, t) := by
  have hl : (pushBits 0#64 (bitsOf (l.setWidth 64) 5)).setWidth 8 = l := by
    apply BitVec.eq_of_toNat_eq
    rw [BitVec.toNat_setWidth, toNat_pushBits_bitsOf, BitVec.toNat_setWidth]
    omega
  have hsig : (64#8 - l - t).toNat = 64 - l.toNat - t.toNat := by bv_omega
  have hm : ((pushBits 0#64 (bitsOf ((64#8 - l - t).setWidth 64) 6)).setWidth 8).toNat =
      (64 - l.toNat - t.toNat) % 64 := by
    rw [BitVec.toNat_setWidth, toNat_pushBits_bitsOf, BitVec.toNat_setWidth, hsig]
    omega
  have hfirst := readBits_consumes (l.setWidth 64) 5
  have hsecond := readBits_consumes ((64#8 - l - t).setWidth 64) 6
  refine consumes_bind (readBit_consumes true)
    (consumes_bind hfirst (consumes_bind_nil hsecond (consumes_pure_of_eq ?_)))
  rw [hl]
  refine Prod.ext rfl (BitVec.eq_of_toNat_eq ?_)
  dsimp only
  by_cases hfull : (pushBits 0#64 (bitsOf ((64#8 - l - t).setWidth 64) 6)).setWidth 8 = 0#8
  · rw [hfull] at hm
    rw [if_pos hfull]
    bv_omega
  · rw [if_neg hfull]
    have hne : (64 - l.toNat - t.toNat) % 64 ≠ 0 := by
      intro hzero
      exact hfull (BitVec.eq_of_toNat_eq (hm.trans hzero))
    bv_omega

/-- The bits inside the window, read back and shifted into place. -/
theorem readBits_window {x : BitVec 64} {l t : BitVec 8} (fits : Fits x l.toNat t.toNat)
    (v : Float64) :
    Consumes Remains
      (readBits (64#8 - l - t).toNat >>= fun bits =>
        (pure ⟨v ^^^ bits <<< t, l, t⟩ : Reader BitStream IoError Column))
      (bitsOf (x >>> t) (64 - l.toNat - t.toNat)) ⟨v ^^^ x, l, t⟩ := by
  have hroom := fits.room
  have hsig : (64#8 - l - t).toNat = 64 - l.toNat - t.toNat := by bv_omega
  rw [hsig]
  refine consumes_bind_nil (readBits_consumes _ _) (consumes_pure_of_eq ?_)
  have hback := pushBits_window fits
  rw [← BitVec.shiftLeft_eq', ← BitVec.ushiftRight_eq'] at hback
  rw [hback]

theorem newWindow_fits {x : BitVec 64} (hx : x ≠ 0#64) :
    Fits x (newWindow x).1.toNat (newWindow x).2.toNat ∧ (newWindow x).1.toNat ≤ 31 ∧
      (newWindow x).1.toNat + (newWindow x).2.toNat ≤ 63 := by
  obtain ⟨hfits, hroom⟩ := fits_clz_ctz hx
  have hclz : (x.clz.setWidth 8).toNat = x.clz.toNat := by
    rw [BitVec.toNat_setWidth]
    omega
  have hctz : (newWindow x).2.toNat = x.ctz.toNat := by
    change (x.ctz.setWidth 8).toNat = _
    rw [BitVec.toNat_setWidth]
    omega
  have hlead : (newWindow x).1.toNat ≤ x.clz.toNat ∧ (newWindow x).1.toNat ≤ 31 := by
    rw [← hclz]
    dsimp only [newWindow]
    split <;> bv_omega
  exact ⟨fits_mono hfits hlead.1 hctz.le, hlead.2, by omega⟩

/-- One compressed value: the decoder consumes the bits the encoder appended, and the
columns agree again on the new value. -/
theorem compressValue_reads {c d : Column} (agree : Agree c d) (v : Float64) (bw : BitStream) :
    ∃ enc d', Emits bw (compressValue bw c v).1 enc ∧
      Consumes Remains (uncompressValue false d) enc d' ∧
      Agree (compressValue bw c v).2 d' ∧ (compressValue bw c v).2.val = v := by
  obtain ⟨hval, hwindow⟩ := agree
  have hxor : d.val ^^^ (v ^^^ c.val) = v := by
    rw [hval, BitVec.xor_comm v, ← BitVec.xor_assoc, BitVec.xor_self, BitVec.zero_xor]
  by_cases hzero : v ^^^ c.val = 0#64
  · refine ⟨[false], d, ?_, ?_, ?_, ?_⟩
    · simpa [compressValue, hzero] using writeBit_emits bw false
    · exact consumes_bind_nil (readBit_consumes false) (consumes_pure d)
    · rw [hzero, BitVec.xor_zero] at hxor
      simpa [compressValue, hzero] using (⟨hxor, hwindow⟩ : Agree { c with val := v } d)
    · simp [compressValue, hzero]
  obtain ⟨hfits, hsmall, hroom⟩ := newWindow_fits hzero
  by_cases hreuse : c.leading ≠ 255#8 ∧ c.leading ≤ (newWindow (v ^^^ c.val)).1 ∧
      c.trailing ≤ (newWindow (v ^^^ c.val)).2
  · -- the old window still covers every changed bit
    obtain ⟨hl, ht, hlsmall, hlroom⟩ := hwindow.resolve_left hreuse.1
    have hold : Fits (v ^^^ c.val) c.leading.toNat c.trailing.toNat :=
      fits_mono hfits (BitVec.le_def.mp hreuse.2.1) (BitVec.le_def.mp hreuse.2.2)
    have hread := readBits_window hold d.val
    rw [hxor] at hread
    unfold compressValue
    rw [if_neg hzero, if_pos hreuse]
    refine ⟨_, ⟨v, c.leading, c.trailing⟩,
      emits_trans (emits_trans (writeBit_emits _ _) (writeBit_emits _ _))
        (writeBits_emits _ _ (by omega)), ?_, ⟨rfl, Or.inr ⟨rfl, rfl, hlsmall, hlroom⟩⟩, rfl⟩
    rw [List.append_assoc]
    refine consumes_bind (readBit_consumes true) (consumes_bind (readWindow_reuse d) ?_)
    rw [hl, ht]
    exact hread
  · have hread := readBits_window hfits d.val
    rw [hxor] at hread
    have hsig : (64#8 - (newWindow (v ^^^ c.val)).1 - (newWindow (v ^^^ c.val)).2).toNat =
        64 - (newWindow (v ^^^ c.val)).1.toNat - (newWindow (v ^^^ c.val)).2.toNat := by
      bv_omega
    unfold compressValue
    rw [if_neg hzero, if_neg hreuse]
    refine ⟨_, ⟨v, (newWindow (v ^^^ c.val)).1, (newWindow (v ^^^ c.val)).2⟩,
      emits_trans (emits_trans (emits_trans (emits_trans (writeBit_emits _ _)
        (writeBit_emits _ _)) (writeBits_emits _ _ (by decide)))
        (writeBits_emits _ _ (by decide))) (writeBits_emits _ _ (by omega)), ?_,
      ⟨rfl, Or.inr ⟨rfl, rfl, hsmall, hroom⟩⟩, rfl⟩
    rw [hsig, List.append_assoc, List.append_assoc, List.append_assoc]
    refine consumes_bind (readBit_consumes true) ?_
    rw [← List.append_assoc, ← List.append_assoc]
    have hw := readWindow_new d hsmall hroom
    rw [← List.append_assoc] at hw
    exact consumes_bind hw hread

/-! ### The change of the time delta -/

theorem signExtend_toNat (dod : BitVec 32) :
    (dod.signExtend 64).toNat = (dod.toInt % 2 ^ 64).toNat := by
  have h : (dod.signExtend 64).toInt = dod.toInt := BitVec.toInt_signExtend_of_le (by omega)
  have hlt := (dod.signExtend 64).isLt
  rw [BitVec.toInt_eq_toNat_cond] at h
  split at h <;> omega

/-- The short widths hold the change when it lies around zero. -/
theorem readShortDod_consumes {dod : BitVec 32} {sz : Nat} (width : sz = 7 ∨ sz = 9 ∨ sz = 12)
    (low : -2 ^ (sz - 1) < dod.toInt) (high : dod.toInt ≤ 2 ^ (sz - 1)) :
    Consumes Remains (readShortDod sz) (bitsOf (dod.signExtend 64) sz) dod := by
  refine consumes_bind_nil (readBits_consumes _ _) (consumes_pure_of_eq ?_)
  have hbits := toNat_pushBits_bitsOf (dod.signExtend 64) sz
  rw [signExtend_toNat] at hbits
  generalize pushBits 0#64 (bitsOf (dod.signExtend 64) sz) = bits at hbits ⊢
  have hint : dod.toInt =
      if 2 * dod.toNat < 2 ^ 32 then (dod.toNat : Int) else dod.toNat - 2 ^ 32 :=
    BitVec.toInt_eq_toNat_cond dod
  apply BitVec.eq_of_toNat_eq
  rcases width with rfl | rfl | rfl <;> split at hint <;> split <;>
    simp only [BitVec.lt_def, BitVec.toNat_setWidth, BitVec.toNat_sub] at * <;> 
    norm_num at * <;> omega

theorem readTag_zero (n : Nat) (d : BitVec 8) :
    Consumes Remains (readTag (n + 1) d) [false] (d <<< 1) :=
  consumes_bind_nil (readBit_consumes false) (consumes_pure _)

theorem readTag_one {n : Nat} {d a : BitVec 8} {bits : List Bool}
    (more : Consumes Remains (readTag n (d <<< 1 ||| 1#8)) bits a) :
    Consumes Remains (readTag (n + 1) d) (true :: bits) a :=
  consumes_bind (readBit_consumes true) more

theorem readTag_four : Consumes Remains (readTag 4 0#8) (bitsOf 0x0f#64 4) 0x0f#8 :=
  readTag_one (readTag_one (readTag_one (readTag_one (consumes_pure _))))

/-- The four bits of the long form, then 32 bits that are not all ones. -/
theorem readLongDod_consumes {dod : BitVec 32} (marker : dod.toInt ≠ -1) :
    Consumes Remains readLongDod (bitsOf (dod.signExtend 64) 32) dod := by
  have hbits := toNat_pushBits_bitsOf (dod.signExtend 64) 32
  rw [signExtend_toNat] at hbits
  have hval : (pushBits 0#64 (bitsOf (dod.signExtend 64) 32)).toNat = dod.toNat := by
    rw [hbits, BitVec.toInt_eq_toNat_cond]
    split <;> omega
  refine consumes_bind_nil (consumes_mapErr (readBits_consumes _ _)) ?_
  have hne : pushBits 0#64 (bitsOf (dod.signExtend 64) 32) ≠ 0xffffffff#64 := by
    intro hall
    rw [hall] at hval
    apply marker
    rw [BitVec.toInt_eq_toNat_cond, ← hval]
    decide
  rw [if_neg hne]
  refine consumes_pure_of_eq (BitVec.eq_of_toNat_eq ?_)
  rw [BitVec.toNat_setWidth, hval, Nat.mod_eq_of_lt dod.isLt]

theorem readDod_zero : Consumes Remains readDod [false] 0#32 :=
  consumes_bind_nil (consumes_mapErr (readTag_zero _ _)) (consumes_pure _)

/-- Every change of the delta comes back, and none reads as the end of the stream. -/
theorem writeDod_reads (bw : BitStream) (dod : BitVec 32) :
    ∃ enc, Emits bw (writeDod bw dod) enc ∧ Consumes Remains readDod enc dod := by
  unfold writeDod
  split
  case isTrue hzero =>
    subst hzero
    exact ⟨[false], writeBit_emits bw false, readDod_zero⟩
  split
  case isTrue h7 =>
    refine ⟨_, emits_trans (writeBits_emits _ _ (by decide)) (writeBits_emits _ _ (by decide)), ?_⟩
    refine consumes_bind (consumes_mapErr (a := 0x02#8) ?_)
      (consumes_mapErr (readShortDod_consumes (by decide) (by omega) (by omega)))
    exact readTag_one (readTag_zero _ _)
  split
  case isTrue h9 =>
    refine ⟨_, emits_trans (writeBits_emits _ _ (by decide)) (writeBits_emits _ _ (by decide)), ?_⟩
    refine consumes_bind (consumes_mapErr (a := 0x06#8) ?_)
      (consumes_mapErr (readShortDod_consumes (by decide) (by omega) (by omega)))
    exact readTag_one (readTag_one (readTag_zero _ _))
  split
  case isTrue h12 =>
    refine ⟨_, emits_trans (writeBits_emits _ _ (by decide)) (writeBits_emits _ _ (by decide)), ?_⟩
    refine consumes_bind (consumes_mapErr (a := 0x0e#8) ?_)
      (consumes_mapErr (readShortDod_consumes (by decide) (by omega) (by omega)))
    exact readTag_one (readTag_one (readTag_one (readTag_zero _ _)))
  case isFalse h12 =>
    refine ⟨_, emits_trans (writeBits_emits _ _ (by decide)) (writeBits_emits _ _ (by decide)), ?_⟩
    exact consumes_bind (consumes_mapErr readTag_four) (readLongDod_consumes (by omega))

/-- The end-of-stream record: the long form with all ones. -/
theorem readDod_finished :
    Stops Remains readDod (bitsOf 0x0f#64 4 ++ bitsOf 0xffffffff#64 32) .finished := by
  have hread : Consumes Remains (readBits 32) (bitsOf 0xffffffff#64 32) 0xffffffff#64 :=
    readBits_consumes_word (by decide)
  refine stops_bind (consumes_mapErr readTag_four) ?_
  exact stops_bind_nil (consumes_mapErr hread) (stops_throw _)

/-! ### One record -/

theorem addNano_reads (s : GorillaTimeSeries) (it : Decoder) (utms : BitVec 32)
    (full : it.fullResolution = s.fullResolution) (agree : Agree s.ms it.ms)
    (low : s.fullResolution = false → s.ms.val = 0#64) :
    ∃ m m' bw enc, s.addNano utms = { s with ms := m, bw := bw } ∧ Emits s.bw bw enc ∧
      Consumes Remains it.readNano enc { it with ms := m' } ∧ Agree m m' ∧
      m.val = if s.fullResolution then ofInt utms.toNat else 0#64 := by
  unfold GorillaTimeSeries.addNano Decoder.readNano
  rw [full]
  by_cases hfull : s.fullResolution = true
  · obtain ⟨enc, m', hemit, hread, hagree, hval⟩ :=
      compressValue_reads agree (ofInt utms.toNat) s.bw
    rw [if_pos hfull, if_pos hfull, if_pos hfull]
    exact ⟨_, m', _, enc, rfl, hemit,
      consumes_bind_nil (consumes_mapErr hread) (consumes_pure _), hagree, hval⟩
  · rw [if_neg hfull, if_neg hfull, if_neg hfull]
    exact ⟨s.ms, it.ms, s.bw, [], rfl, emits_refl _, consumes_pure_of_eq (by rw [← full]), agree,
      low (by simpa using hfull)⟩

/-- The time part of a record. Only the first delta has to fit its fourteen bits. -/
theorem addTime_reads {s : GorillaTimeSeries} {it : Decoder} (t : BitVec 64) (ts : it.ts = s.ts)
    (full : it.fullResolution = s.fullResolution) (start : it.start = (s.curTime == 0#32))
    (time : s.curTime ≠ 0#32 → it.curTime = s.curTime ∧ it.tDelta = s.curDelta)
    (agree : Agree s.ms it.ms) (low : s.fullResolution = false → s.ms.val = 0#64)
    (first : s.curTime = 0#32 → ((splitNano t).1 - s.ts).toNat < 2 ^ 14) :
    ∃ delta m m' bw enc,
      s.addTime t =
        .ok { s with curTime := (splitNano t).1, curDelta := delta, ms := m, bw := bw } ∧
      Emits s.bw bw enc ∧
      Consumes Remains it.readTimeDelta enc
        { it with curTime := (splitNano t).1, tDelta := delta, ms := m' } ∧
      Agree m m' ∧ (m.val = if s.fullResolution then ofInt (splitNano t).2.toNat else 0#64) ∧
      (s.curTime = 0#32 → delta = (splitNano t).1 - s.ts) := by
  unfold GorillaTimeSeries.addTime Decoder.readTimeDelta
  generalize (splitNano t).1 = ut at first ⊢
  generalize (splitNano t).2 = utms
  by_cases hstart : s.curTime = 0#32
  · have hfit : ((ut - s.ts).setWidth 64).toNat < 2 ^ 14 := by
      have hdelta := first hstart
      rw [BitVec.toNat_setWidth]
      omega
    have hread : Consumes Remains (readBits 14) (bitsOf ((ut - s.ts).setWidth 64) 14)
        ((ut - s.ts).setWidth 64) := readBits_consumes_word hfit
    have hback : ((ut - s.ts).setWidth 64).setWidth 32 = ut - s.ts := by simp
    have hnano := addNano_reads
      { s with
        curTime := ut, curDelta := ut - s.ts, bw := s.bw.writeBits ((ut - s.ts).setWidth 64) 14 }
      { it with tDelta := ut - s.ts, curTime := ut } utms full agree low
    obtain ⟨m, m', bw, enc, hadd, hemit, hcons, hagree, hval⟩ := hnano
    have hfirst : it.start = true := by simp [start, hstart]
    rw [if_pos hstart, if_pos hfirst]
    refine ⟨ut - s.ts, m, m', bw, _, by rw [hadd],
      emits_trans (writeBits_emits _ _ (by decide)) hemit,
      consumes_bind (consumes_mapErr hread) ?_, hagree, hval, fun _ => rfl⟩
    have hcur : it.ts + (ut - s.ts) = ut := by
      rw [ts, BitVec.add_comm, BitVec.sub_add_cancel]
    rw [hback, hcur]
    exact hcons
  · obtain ⟨htime, hdelta⟩ := time hstart
    obtain ⟨enc, hemit, hread⟩ := writeDod_reads s.bw (ut - s.curTime - s.curDelta)
    have hnano := addNano_reads
      { s with
        curTime := ut
        curDelta := ut - s.curTime
        bw := writeDod s.bw (ut - s.curTime - s.curDelta) }
      { it with tDelta := ut - s.curTime, curTime := ut } utms full agree low
    obtain ⟨m, m', bw, enc', hadd, hemit', hcons, hagree, hval⟩ := hnano
    have hsum : it.tDelta + (ut - s.curTime - s.curDelta) = ut - s.curTime := by
      rw [hdelta, BitVec.add_comm, BitVec.sub_add_cancel]
    have hcur : it.curTime + (ut - s.curTime) = ut := by
      rw [htime, BitVec.add_comm, BitVec.sub_add_cancel]
    have hlater : ¬ it.start = true := by simp [start, hstart]
    rw [if_neg hstart, if_neg hlater]
    refine ⟨ut - s.curTime, m, m', bw, _, ?_, emits_trans hemit hemit',
      consumes_bind hread ?_, hagree, hval, fun hzero => absurd hzero hstart⟩
    · rw [if_neg BitVec.not_lt_zero, hadd]
    · rw [hsum]
      dsimp only
      rw [hcur]
      exact hcons

theorem agree_set {cs ds : List Column} (agree : List.Forall₂ Agree cs ds) (idx : Nat)
    {c d : Column} (new : Agree c d) : List.Forall₂ Agree (cs.set idx c) (ds.set idx d) := by
  obtain ⟨hlen, hget⟩ := List.forall₂_iff_get.mp agree
  refine List.forall₂_iff_get.mpr ⟨by simpa using hlen, fun i hi hj => ?_⟩
  have hold := hget i (by simpa using hi) (by simpa using hj)
  simp only [List.get_eq_getElem, List.getElem_set] at hold ⊢
  split
  · exact new
  · exact hold

theorem addValue_reads (s : GorillaTimeSeries) (it : Decoder)
    (agree : List.Forall₂ Agree s.columns it.columns) (idx : Nat) (inside : idx < s.columns.length)
    (v : Float64) :
    ∃ cs ds bw enc, s.addValue idx v it.start = .ok { s with columns := cs, bw := bw } ∧
      Emits s.bw bw enc ∧ Consumes Remains (it.readValue idx) enc { it with columns := ds } ∧
      List.Forall₂ Agree cs ds ∧
      cs.map (·.val) = (s.columns.map (·.val)).set idx v := by
  have hlen := agree.length_eq
  have hin : idx < it.columns.length := by omega
  have hag : Agree s.columns[idx] it.columns[idx] := agree.get inside hin
  unfold GorillaTimeSeries.addValue Decoder.readValue
  rw [List.getElem?_eq_getElem inside, List.getElem?_eq_getElem hin]
  by_cases hstart : it.start = true
  · have hread : Consumes Remains (uncompressValue it.start it.columns[idx]) (bitsOf v 64)
        { it.columns[idx] with val := v } := by
      rw [hstart]
      exact consumes_bind_nil (readBits_consumes_word v.isLt) (consumes_pure _)
    refine ⟨s.columns.set idx { s.columns[idx] with val := v },
      it.columns.set idx { it.columns[idx] with val := v }, s.bw.writeBits v 64, bitsOf v 64,
      by simp [hstart], writeBits_emits _ _ (by decide),
      consumes_bind_nil (consumes_mapErr hread) (consumes_pure _),
      agree_set agree _ ⟨rfl, hag.window⟩, by simp⟩
  · obtain ⟨enc, d, hemit, hread, hagree, hval⟩ := compressValue_reads hag v s.bw
    refine ⟨s.columns.set idx (compressValue s.bw s.columns[idx] v).2, it.columns.set idx d,
      (compressValue s.bw s.columns[idx] v).1, enc, by simp [hstart], hemit, ?_,
        agree_set agree _ hagree,
      by simp [hval]⟩
    have hlater : it.start = false := by simpa using hstart
    rw [hlater]
    exact consumes_bind_nil (consumes_mapErr hread) (consumes_pure _)

theorem addValues_reads (vs : List Float64) (s : GorillaTimeSeries) (it : Decoder)
    (agree : List.Forall₂ Agree s.columns it.columns) (idx : Nat)
    (exact_fit : idx + vs.length = s.columns.length) :
    ∃ cs ds bw enc, s.addValues idx vs it.start = .ok { s with columns := cs, bw := bw } ∧
      Emits s.bw bw enc ∧
      Consumes Remains (it.readValues idx vs.length) enc { it with columns := ds } ∧
      List.Forall₂ Agree cs ds ∧ cs.map (·.val) = (s.columns.map (·.val)).take idx ++ vs := by
  induction vs generalizing s it idx with
  | nil =>
    refine ⟨s.columns, it.columns, s.bw, [], rfl, emits_refl _, consumes_pure it, agree, ?_⟩
    rw [List.take_of_length_le (by simpa using exact_fit.ge), List.append_nil]
  | cons v vs ih =>
    rw [List.length_cons] at exact_fit
    obtain ⟨cs, ds, bw, enc, hadd, hemit, hread, hagree, hvals⟩ :=
      addValue_reads s it agree idx (by omega) v
    have hlen : cs.length = s.columns.length := by simpa using congrArg List.length hvals
    obtain ⟨cs', ds', bw', enc', hadd', hemit', hread', hagree', hvals'⟩ :=
      ih { s with columns := cs, bw := bw } { it with columns := ds } hagree (idx + 1)
        (by change _ = cs.length; omega)
    refine ⟨cs', ds', bw', enc ++ enc', ?_, emits_trans hemit hemit',
      consumes_bind hread hread', hagree', ?_⟩
    · rw [GorillaTimeSeries.addValues, hadd]
      exact hadd'
    · change _ = (cs.map (·.val)).take (idx + 1) ++ vs at hvals'
      have hidx : idx < ((s.columns.map (·.val)).set idx v).length := by simp; omega
      rw [hvals', hvals, ← List.take_append_getElem hidx, List.getElem_set_self,
        List.take_set_of_le (Nat.le_refl idx), List.append_assoc, List.singleton_append]

/-- Encoder and decoder between two records of a series with `n` columns. -/
structure InStep (n : BitVec 8) (s : GorillaTimeSeries) (it : Decoder) : Prop where
  ts : it.ts = s.ts
  full : it.fullResolution = s.fullResolution
  smart : s.smartEncoding = true ∧ it.smartEncoding = true
  width : s.numValues = n ∧ it.numValues = n ∧ s.columns.length = n.toNat
  start : it.start = (s.curTime == 0#32)
  time : s.curTime ≠ 0#32 → it.curTime = s.curTime ∧ it.tDelta = s.curDelta
  ms : Agree s.ms it.ms
  low : s.fullResolution = false → s.ms.val = 0#64
  columns : List.Forall₂ Agree s.columns it.columns

theorem vals_eq_of_agree {cs ds : List Column} (agree : List.Forall₂ Agree cs ds) :
    ds.map (·.val) = cs.map (·.val) := by
  induction agree with
  | nil => rfl
  | cons hag _ ih => rw [List.map_cons, List.map_cons, hag.val, ih]

theorem values_full [IntConversion] {it : Decoder} {a b c d e : Float64}
    (full : it.curSmartEnc = true) (vals : it.columns.map (·.val) = [a, b, c, d, e]) :
    it.values = some ⟨combineSecNano it.curTime (toUInt32 it.ms.val),
      a, b, c, d, toInt64 e⟩ := by
  obtain ⟨ca, cb, cc, cd, ce, hcols, rfl, rfl, rfl, rfl, rfl⟩ :
      ∃ ca cb cc cd ce, it.columns = [ca, cb, cc, cd, ce] ∧ ca.val = a ∧ cb.val = b ∧
        cc.val = c ∧ cd.val = d ∧ ce.val = e := by
    simpa [List.map_eq_cons_iff] using vals
  simp [Decoder.values, full, hcols]

theorem values_small [IntConversion] {it : Decoder} {v : Float64} (small : it.curSmartEnc = false)
    (vals : (it.columns.map (·.val))[3]? = some v) :
    it.values = some ⟨combineSecNano it.curTime (toUInt32 it.ms.val),
      v, v, v, v, 1#64⟩ := by
  obtain ⟨c, hc, rfl⟩ : ∃ c, it.columns[3]? = some c ∧ c.val = v := by simpa using vals
  simp [Decoder.values, small, hc]

theorem combine_ms [IntConversion] {high : Bool} {t : BitVec 64} {v : Float64}
    (fits : 0 ≤ seconds t ∧ seconds t < 2 ^ 32)
    (nano : v = if high then ofInt (splitNano t).2.toNat else 0#64) :
    combineSecNano (splitNano t).1 (toUInt32 v) = pointTime high t := by
  subst nano
  cases high with
  | true =>
    have hlt := (splitNano t).2.isLt
    rw [if_pos rfl, toUInt32_ofInt hlt, BitVec.ofNat_toNat, BitVec.setWidth_eq]
    exact combineSecNano_whole fits
  | false =>
    have hzero : toUInt32 0#64 = 0#32 := toUInt32_ofInt (n := 0) (by omega)
    rw [if_neg Bool.false_ne_true, hzero]
    exact combineSecNano_second fits

theorem addPoint_small {s s1 s2 : GorillaTimeSeries} {p : Point} (time : s.addTime p.t = .ok s1)
    (smart : s1.smartEncoding = true) (wide : 3#8 < s1.numValues) (small : p.isSmall = true)
    (value : { s1 with bw := s1.bw.writeBit false }.addValue 3 p.sum (s.curTime == 0#32) = .ok s2) :
    s.addPoint p = .ok { s2 with curCount := s2.curCount + 1 } := by
  unfold GorillaTimeSeries.addPoint
  rw [time]
  change (if (s1.smartEncoding && decide (3#8 < s1.numValues)) && p.isSmall then _ else _) = _
  rw [if_pos (by simp [smart, wide, small]), value]
  rfl

theorem addPoint_full {s s1 s2 : GorillaTimeSeries} {p : Point}
    (time : s.addTime p.t = .ok s1) (smart : s1.smartEncoding = true) (wide : 3#8 < s1.numValues)
    (full : ¬ p.isSmall = true)
    (values : { s1 with bw := s1.bw.writeBit true }.addValues 0
      (GorillaTimeSeries.columnValues s1.numValues p) (s.curTime == 0#32) = .ok s2) :
    s.addPoint p = .ok { s2 with curCount := s2.curCount + 1 } := by
  have hsmart : (s1.smartEncoding && decide (3#8 < s1.numValues)) = true := by simp [smart, wide]
  unfold GorillaTimeSeries.addPoint
  rw [time]
  change (if (s1.smartEncoding && decide (3#8 < s1.numValues)) && p.isSmall then _ else
    (GorillaTimeSeries.addValues (if s1.smartEncoding && decide (3#8 < s1.numValues) then
      { s1 with bw := s1.bw.writeBit true } else s1) 0 _ (s.curTime == 0#32) >>= _)) = _
  rw [hsmart, if_neg (by simpa using full), if_pos rfl, values]
  rfl

/-- What the decoder holds after the record of `p` in a series of `n` columns. -/
structure Recorded [IntConversion] (n : BitVec 8) (high : Bool) (p : Point) (it : Decoder) :
    Prop where
  time : combineSecNano it.curTime (toUInt32 it.ms.val) = pointTime high p.t
  form : it.curSmartEnc = !p.isSmall
  small : p.isSmall = true → (it.columns.map (·.val))[3]? = some p.sum
  full : ¬ p.isSmall = true → it.columns.map (·.val) = GorillaTimeSeries.columnValues n p

theorem length_columnValues_wide {n : BitVec 8} (wide : 3#8 < n) (five : n ≤ 5#8) (p : Point) :
    (GorillaTimeSeries.columnValues n p).length = n.toNat := by
  have hcases : n = 4#8 ∨ n = 5#8 := by
    rcases Nat.lt_or_ge n.toNat 5 with hlt | hge
    · exact Or.inl (by bv_omega)
    · exact Or.inr (by bv_omega)
  rcases hcases with rfl | rfl
  · rfl
  · rfl

/-- What the columns hold after the record of `p`: the small form writes the fourth alone. -/
structure Carries (n : BitVec 8) (p : Point) (vals : List Float64) : Prop where
  small : p.isSmall = true → vals[3]? = some p.sum
  full : ¬ p.isSmall = true → vals = GorillaTimeSeries.columnValues n p

/-- The bit for the form and the columns after it, as `nextPoint` reads them. -/
def Decoder.readForm (it : Decoder) : Reader BitStream Stop Decoder := do
  let bit ← it.readSmartBit
  { it with curSmartEnc := bit }.readColumns

theorem nextPoint_eq (it : Decoder) : it.nextPoint = it.readTimeDelta >>= fun it =>
    it.readForm >>= fun it => pure { it with start := false } := by
  simp only [Decoder.nextPoint, Decoder.readForm, bind_assoc]

theorem readSmartBit_consumes {it : Decoder} (smart : it.smartEncoding = true) (b : Bool) :
    Consumes Remains it.readSmartBit [b] b := by
  unfold Decoder.readSmartBit
  rw [if_pos smart]
  exact consumes_mapErr (readBit_consumes b)

/-- From `s`, which has written the time of `p`, `addPoint` completes the record, and the
decoder `it` reads what it wrote. -/
def FormReads (n : BitVec 8) (p : Point) (s₀ s : GorillaTimeSeries) (it : Decoder) : Prop :=
  ∃ cs ds bw enc,
    s₀.addPoint p = .ok { s with columns := cs, bw := bw, curCount := s.curCount + 1 } ∧
    Emits s.bw bw enc ∧
    Consumes Remains it.readForm enc { it with curSmartEnc := !p.isSmall, columns := ds } ∧
    List.Forall₂ Agree cs ds ∧ cs.length = n.toNat ∧ Carries n p (cs.map (·.val))

section Forms

variable {n : BitVec 8} {s₀ s : GorillaTimeSeries} {it : Decoder} {p : Point}
  (time : s₀.addTime p.t = .ok s) (start : it.start = (s₀.curTime == 0#32))
  (smart : s.smartEncoding = true ∧ it.smartEncoding = true)
  (width : s.numValues = n ∧ it.numValues = n ∧ s.columns.length = n.toNat)
  (agree : List.Forall₂ Agree s.columns it.columns) (wide : 3#8 < n)

include time start smart width agree wide

theorem small_form_reads (small : p.isSmall = true) : FormReads n p s₀ s it := by
  have hwide : 3#8 < s.numValues := by rwa [width.1]
  have hthree : 3 < s.columns.length := by
    rw [width.2.2]
    exact BitVec.lt_def.mp wide
  obtain ⟨cs, ds, bw, enc, hval, hemit, hread, hcols, hvals⟩ := addValue_reads
    { s with bw := s.bw.writeBit false } { it with curSmartEnc := false } agree 3 hthree p.sum
  rw [show ({ it with curSmartEnc := false } : Decoder).start = _ from start] at hval
  refine ⟨cs, ds, bw, [false] ++ enc, addPoint_small time smart.1 hwide small hval,
    emits_trans (writeBit_emits _ _) hemit, ?_, hcols, ?_, ?_⟩
  · rw [small]
    exact consumes_bind (readSmartBit_consumes smart.2 false) hread
  · simpa [width.2.2] using congrArg List.length hvals
  · refine ⟨fun _ => ?_, fun hfull => absurd small hfull⟩
    rw [hvals, List.getElem?_set_self (by simpa using hthree)]

theorem full_form_reads (five : n ≤ 5#8) (full : ¬ p.isSmall = true) : FormReads n p s₀ s it := by
  have hwide : 3#8 < s.numValues := by rwa [width.1]
  have hcount := length_columnValues_wide wide five p
  obtain ⟨cs, ds, bw, enc, hadds, hemit, hread, hcols, hvals⟩ := addValues_reads
    (GorillaTimeSeries.columnValues n p)
    { s with bw := s.bw.writeBit true } { it with curSmartEnc := true } agree 0
    (by rw [hcount, Nat.zero_add]; exact width.2.2.symm)
  rw [show ({ it with curSmartEnc := true } : Decoder).start = _ from start] at hadds
  -- the decoder counts its columns by the width in the header
  have hcolumns : Consumes Remains { it with curSmartEnc := true }.readColumns enc
      { it with curSmartEnc := true, columns := ds } := by
    rw [hcount, ← width.2.1] at hread
    exact hread
  rw [← width.1] at hadds
  refine ⟨cs, ds, bw, [true] ++ enc, addPoint_full time smart.1 hwide full hadds,
    emits_trans (writeBit_emits _ _) hemit, ?_, hcols, ?_, ?_⟩
  · rw [Bool.eq_false_iff.mpr full]
    exact consumes_bind (readSmartBit_consumes smart.2 true) hcolumns
  · simpa [hcount] using congrArg List.length hvals
  · exact ⟨fun hsmall => absurd hsmall full, fun _ => hvals⟩

end Forms

/-- What a record leaves behind of its time. -/
structure Stamped (s s' : GorillaTimeSeries) (t : BitVec 64) (it : Decoder) : Prop where
  later : it.start = false
  encoder : s'.curTime = (splitNano t).1 ∧ s'.ts = s.ts
  first : s.curTime = 0#32 → it.tDelta = (splitNano t).1 - s.ts

/-- One record of a series that writes the bit for the small form, as wide as `Values`
can read at most. -/
theorem addPoint_records [IntConversion] {n : BitVec 8} (wide : 3#8 < n) (five : n ≤ 5#8)
    {s : GorillaTimeSeries} {it : Decoder} (step : InStep n s it) {p : Point}
    (fits : 0 ≤ seconds p.t ∧ seconds p.t < 2 ^ 32)
    (first : s.curTime = 0#32 → ((splitNano p.t).1 - s.ts).toNat < 2 ^ 14) :
    ∃ s' it' enc, s.addPoint p = .ok s' ∧ Emits s.bw s'.bw enc ∧
      Consumes Remains it.nextPoint enc it' ∧ Stamped s s' p.t it' ∧
      (0 < seconds p.t → InStep n s' it' ∧ s'.curTime ≠ 0#32) ∧
      s'.fullResolution = s.fullResolution ∧ Recorded n s.fullResolution p it' := by
  obtain ⟨delta, m, m', bw, enc, hadd, hemit, hread, hagree, hms, hdelta⟩ :=
    addTime_reads p.t step.ts step.full step.start step.time step.ms step.low first
  obtain ⟨cs, ds, bw', enc', hpoint, hemit', hread', hcols, hlen, hcarries⟩ :
      FormReads n p s
        { s with curTime := (splitNano p.t).1, curDelta := delta, ms := m, bw := bw }
        { it with curTime := (splitNano p.t).1, tDelta := delta, ms := m' } := by
    by_cases small : p.isSmall = true
    · exact small_form_reads hadd step.start step.smart step.width step.columns wide small
    · exact full_form_reads hadd step.start step.smart step.width step.columns wide five small
  -- a point at second zero leaves the encoder as if it had none
  have hne : 0 < seconds p.t → (splitNano p.t).1 ≠ 0#32 := by
    have hsec := splitNano_sec_toNat (t := p.t) fits
    intro hpos hzero
    rw [hzero] at hsec
    simp at hsec
    omega
  have hlow : s.fullResolution = false → m.val = 0#64 := by
    intro hlow
    rw [hms, hlow]
    rfl
  have hvals : ds.map (·.val) = cs.map (·.val) := vals_eq_of_agree hcols
  refine ⟨_, { it with
      curTime := (splitNano p.t).1, tDelta := delta, ms := m', curSmartEnc := !p.isSmall,
      columns := ds, start := false }, enc ++ enc', hpoint, emits_trans hemit hemit',
    ?_, ⟨rfl, ⟨rfl, rfl⟩, hdelta⟩, fun hpos => ⟨?_, hne hpos⟩, rfl, ?_⟩
  · rw [nextPoint_eq]
    exact consumes_bind hread (consumes_bind_nil hread' (consumes_pure _))
  · exact ⟨step.ts, step.full, step.smart, ⟨step.width.1, step.width.2.1, hlen⟩,
      by simp [hne hpos], fun _ => ⟨rfl, rfl⟩, hagree, hlow, hcols⟩
  · exact ⟨combine_ms fits (hagree.val.trans hms), rfl,
      fun small => by rw [hvals, hcarries.small small],
      fun full => hvals.trans (hcarries.full full)⟩

/-- Which points `Values` reads back in a series of `n` columns: it looks at five columns,
or at the fourth alone for the small form. -/
def Readable (n : BitVec 8) (p : Point) : Prop := n = 5#8 ∨ n = 4#8 ∧ p.isSmall = true

/-- A point as its columns give it back: the count has been a float. -/
def columned [IntConversion] (high : Bool) (p : Point) : Point :=
  if p.isSmall then p.decoded high
  else { p.decoded high with count := toInt64 (ofInt p.count.toInt) }

theorem columned_eq [IntConversion] {p : Point} (count : p.count.toInt.natAbs ≤ 2 ^ 53)
    (high : Bool) : columned high p = p.decoded high := by
  unfold columned Point.decoded Point.decodedAt
  split
  · rfl
  · rw [toInt64_ofInt count, BitVec.ofInt_toInt]

theorem values_recorded [IntConversion] {n : BitVec 8} {high : Bool} {p : Point} {it : Decoder}
    (readable : Readable n p) (recorded : Recorded n high p it) :
    it.values = some (columned high p) := by
  obtain ⟨htime, hform, hsmall, hfull⟩ := recorded
  by_cases hp : p.isSmall = true
  · rw [hp] at hform
    rw [values_small hform (hsmall hp), htime, columned, if_pos hp, Point.decoded,
      Point.decodedAt, if_pos hp]
  · have hn : n = 5#8 := readable.resolve_right fun h => hp h.2
    have hvals := hfull hp
    rw [hn] at hvals
    rw [Bool.eq_false_iff.mpr hp] at hform
    rw [values_full hform hvals, htime, columned, if_neg hp, Point.decoded, Point.decodedAt,
      if_neg hp]

theorem addPoint_reads [IntConversion] {n : BitVec 8} {s : GorillaTimeSeries} {it : Decoder}
    (step : InStep n s it) {p : Point} (readable : Readable n p)
    (fits : 0 < seconds p.t ∧ seconds p.t < 2 ^ 32)
    (first : s.curTime = 0#32 → ((splitNano p.t).1 - s.ts).toNat < 2 ^ 14) :
    ∃ s' it' enc, s.addPoint p = .ok s' ∧ Emits s.bw s'.bw enc ∧
      Consumes Remains it.nextPoint enc it' ∧ InStep n s' it' ∧ s'.curTime ≠ 0#32 ∧
      s'.fullResolution = s.fullResolution ∧
      it'.values = some (columned s.fullResolution p) := by
  have hwidth : 3#8 < n ∧ n ≤ 5#8 := by
    rcases readable with rfl | ⟨rfl, -⟩
    · decide
    · decide
  obtain ⟨s', it', enc, hadd, hemit, hread, -, hstep, hfull, hrecorded⟩ :=
    addPoint_records hwidth.1 hwidth.2 step ⟨fits.1.le, fits.2⟩ first
  exact ⟨s', it', enc, hadd, hemit, hread, (hstep fits.1).1, (hstep fits.1).2, hfull,
    values_recorded readable hrecorded⟩

end Gorilla
