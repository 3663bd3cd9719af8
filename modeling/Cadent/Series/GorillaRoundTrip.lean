import Cadent.Series.GorillaRecord

/-!
# What the gorilla encoder writes, the decoder reads back

The header, then record after record up to the end-of-stream marker: by induction over
the points, draining the bytes gives the points back. The last section says what holds
of any options, also of those whose points do not come back.
-/

namespace Gorilla

open Binary64 Bits Bitstream BitStream Consume TimeSeries

/-! ### A whole run -/

/-- The end-of-stream record, up to its closing zero. -/
def marker : List Bool := bitsOf 0x0f#64 4 ++ bitsOf 0xffffffff#64 32

theorem next_marker {d : Decoder} (started : d.start = false) {br : BitStream}
    {rest : List Bool} (left : Remains br (marker ++ rest)) :
    GorillaIter.next ⟨d, br, false, none⟩ = (false, ⟨d, br, true, none⟩) := by
  have hlater : ¬ d.start = true := Bool.eq_false_iff.mp started
  have hstop : Stops Remains d.nextPoint marker .finished := by
    refine stops_bind_left ?_
    unfold Decoder.readTimeDelta
    rw [if_neg hlater]
    exact stops_bind_left readDod_finished
  unfold GorillaIter.next
  rw [if_neg (by simp)]
  dsimp only
  rw [hstop br rest left]

theorem next_record {d d' : Decoder} {enc rest : List Bool}
    (read : Consumes Remains d.nextPoint enc d') {br : BitStream}
    (left : Remains br (enc ++ rest)) :
    ∃ br', GorillaIter.next ⟨d, br, false, none⟩ = (true, ⟨d', br', false, none⟩) ∧
      Remains br' rest := by
  obtain ⟨br', hrun, hleft⟩ := read br rest left
  refine ⟨br', ?_, hleft⟩
  unfold GorillaIter.next
  rw [if_neg (by simp)]
  dsimp only
  rw [hrun]

theorem nextPoint_of_next {it it' : GorillaIter} (next : it.next = (true, it')) :
    it.nextPoint.run it.br = .ok (it'.toDecoder, it'.br) := by
  unfold GorillaIter.next at next
  split at next
  · cases next
  · split at next
    · rename_i d br hrun
      obtain ⟨-, rfl⟩ := Prod.mk.inj next
      exact hrun
    · cases next
    · cases next

/-- Any further points: their records and the marker drain to exactly their values. -/
theorem addPoints_yields [IntConversion] {n : BitVec 8} (ps : List Point) {s : GorillaTimeSeries}
    {d : Decoder} (step : InStep n s d) (started : s.curTime ≠ 0#32)
    (readable : ∀ p ∈ ps, Readable n p) (fits : ∀ p ∈ ps, 0 < seconds p.t ∧ seconds p.t < 2 ^ 32) :
    ∃ s' enc, s.addPoints ps = .ok s' ∧ Emits s.bw s'.bw enc ∧
      ∀ br rest, Remains br (enc ++ (marker ++ rest)) →
        ∃ it : GorillaIter, Yields (⟨d, br, false, none⟩ : GorillaIter)
          (ps.map (columned s.fullResolution)) it ∧ it.err = none := by
  induction ps generalizing s d with
  | nil =>
    refine ⟨s, [], rfl, emits_refl _, fun br rest left => ?_⟩
    have hlater : d.start = false := by simp [step.start, started]
    exact ⟨_, next_marker hlater left, rfl⟩
  | cons p ps ih =>
    obtain ⟨s1, d1, enc1, hadd, hemit, hread, hstep, hstarted, hfull, hvals⟩ :=
      addPoint_reads step (readable p List.mem_cons_self) (fits p List.mem_cons_self)
        (fun hzero => absurd hzero started)
    obtain ⟨s2, enc2, hadds, hemits, hyields⟩ := ih hstep hstarted
      (fun q hq => readable q (List.mem_cons_of_mem _ hq))
      (fun q hq => fits q (List.mem_cons_of_mem _ hq))
    refine ⟨s2, enc1 ++ enc2, ?_, emits_trans hemit hemits, fun br rest left => ?_⟩
    · rw [GorillaTimeSeries.addPoints, hadd]
      exact hadds
    · rw [List.append_assoc] at left
      obtain ⟨br', hnext, hleft⟩ := next_record hread left
      obtain ⟨it, hit, herr⟩ := hyields br' rest hleft
      rw [hfull] at hit
      exact ⟨it, ⟨_, hnext, hvals, hit⟩, herr⟩

/-! ### The header -/

theorem readHead_consumes (high : Bool) :
    Consumes Remains GorillaIter.readHead (bytesBits (if high then tagNanoSmart else tagSecond))
      (if high then tagNanoSmart else tagSecond) := by
  have hlen : (if high then tagNanoSmart else tagSecond).length = 4 := by cases high <;> decide
  have hread := readBytes_consumes (if high then tagNanoSmart else tagSecond)
    (by cases high <;> decide)
  rw [hlen] at hread
  refine consumes_bind_nil (consumes_mapErr hread) ?_
  rw [if_neg (by cases high <;> decide)]
  exact consumes_pure _

theorem word_fits (x : BitVec 32) : (x.setWidth 64).toNat < 2 ^ 32 := by
  rw [BitVec.toNat_setWidth]
  omega

theorem readTms_consumes (high : Bool) (tms : BitVec 32) :
    Consumes Remains (GorillaIter.readTms high) (if high then bitsOf (tms.setWidth 64) 32 else [])
      (if high then ofInt tms.toNat else 0#64) := by
  cases high with
  | false => exact consumes_pure _
  | true =>
    refine consumes_bind_nil (consumes_mapErr (readBits_consumes_word (word_fits tms)))
      (consumes_pure_of_eq ?_)
    rw [if_pos rfl, BitVec.toNat_setWidth, Nat.mod_eq_of_lt (by omega)]

def header (t0 : BitVec 64) (o : Options) : List Bool :=
  bytesBits (if o.highTimeResolution then tagNanoSmart else tagSecond) ++
    (bitsOf ((BitVec.ofInt 8 o.numValues).setWidth 64) 8 ++
      (bitsOf ((splitNano t0).1.setWidth 64) 32 ++
        if o.highTimeResolution then bitsOf ((splitNano t0).2.setWidth 64) 32 else []))

/-- The decoder that the header makes. -/
def freshDecoder (t0 : BitVec 64) (o : Options) : Decoder where
  ts := (splitNano t0).1
  fullResolution := o.highTimeResolution
  smartEncoding := true
  curSmartEnc := false
  curTime := 0#32
  numValues := BitVec.ofInt 8 o.numValues
  ms := ⟨if o.highTimeResolution then ofInt (splitNano t0).2.toNat else 0#64, 0#8, 0#8⟩
  columns := List.replicate (BitVec.ofInt 8 o.numValues).toNat ⟨0#64, 0#8, 0#8⟩
  start := true
  tDelta := 0#32

theorem header_written (t0 : BitVec 64) (o : Options) :
    Written (GorillaTimeSeries.newGoriallaTimeSeries t0 o).bw (header t0 o) := by
  obtain ⟨nv, high, handler⟩ := o
  have hhead := emits_trans (writeBytes_emits empty (if high then tagNanoSmart else tagSecond))
    (emits_trans (writeBits_emits _ ((BitVec.ofInt 8 nv).setWidth 64) (n := 8) (by decide))
      (writeBits_emits _ ((splitNano t0).1.setWidth 64) (n := 32) (by decide)))
  have hwhole := emits_trans hhead
    (writeBits_emits _ ((splitNano t0).2.setWidth 64) (n := 32) (by decide))
  cases high with
  | false =>
    have hbits : header t0 ⟨nv, false, handler⟩ = bytesBits tagSecond ++
        (bitsOf ((BitVec.ofInt 8 nv).setWidth 64) 8 ++
          bitsOf ((splitNano t0).1.setWidth 64) 32) := by simp [header]
    rw [hbits]
    exact hhead [] written_empty
  | true =>
    have hbits : header t0 ⟨nv, true, handler⟩ = bytesBits tagNanoSmart ++
        (bitsOf ((BitVec.ofInt 8 nv).setWidth 64) 8 ++
          bitsOf ((splitNano t0).1.setWidth 64) 32) ++
            bitsOf ((splitNano t0).2.setWidth 64) 32 := by simp [header]
    rw [hbits]
    exact hwhole [] written_empty

theorem header_consumes (t0 : BitVec 64) (o : Options) :
    Consumes Remains GorillaIter.newGorillaIterFromBStream (header t0 o) (freshDecoder t0 o) := by
  obtain ⟨nv, high, handler⟩ := o
  have htag : decide ((if high then tagNanoSmart else tagSecond) ≠ tagSecond) = high := by
    cases high <;> decide
  have hts : ((splitNano t0).1.setWidth 64).setWidth 32 = (splitNano t0).1 := by simp
  have hnv : ((BitVec.ofInt 8 nv).setWidth 64).setWidth 8 = BitVec.ofInt 8 nv := by simp
  have hbyte : ((BitVec.ofInt 8 nv).setWidth 64).toNat < 2 ^ 8 := by
    rw [BitVec.toNat_setWidth]
    omega
  refine consumes_bind (readHead_consumes high) (consumes_bind
    (consumes_mapErr (readBits_consumes_word hbyte))
    (consumes_bind (consumes_mapErr (readBits_consumes_word (word_fits _))) ?_))
  rw [htag]
  refine consumes_bind_nil (readTms_consumes high _) (consumes_pure_of_eq ?_)
  rw [hts, hnv]
  rfl

theorem inStep_fresh (t0 : BitVec 64) (o : Options) :
    InStep (BitVec.ofInt 8 o.numValues) (GorillaTimeSeries.newGoriallaTimeSeries t0 o)
      (freshDecoder t0 o) where
  ts := rfl
  full := rfl
  smart := ⟨rfl, rfl⟩
  width := ⟨rfl, rfl, by simp [GorillaTimeSeries.newGoriallaTimeSeries,
    GorillaTimeSeries.writeHeader]⟩
  start := rfl
  time := fun hzero => absurd rfl hzero
  ms := ⟨rfl, Or.inl rfl⟩
  low := fun hlow => if_neg (Bool.eq_false_iff.mp hlow)
  columns := by
    have hfresh : Agree ⟨0#64, 255#8, 0#8⟩ ⟨0#64, 0#8, 0#8⟩ := ⟨rfl, Or.inl rfl⟩
    refine List.forall₂_iff_get.mpr ⟨?_, ?_⟩
    · simp [GorillaTimeSeries.newGoriallaTimeSeries, GorillaTimeSeries.writeHeader, freshDecoder]
    · intro i hi hj
      simpa [GorillaTimeSeries.newGoriallaTimeSeries, GorillaTimeSeries.writeHeader, freshDecoder]
        using hfresh

/-- Whatever follows it, the header opens, and the iterator stands before what follows. -/
theorem newGorillaIterFromBytes_opens {s : GorillaTimeSeries} {t0 : BitVec 64} {o : Options}
    {bits : List Bool} (written : Written s.bw (header t0 o ++ bits)) :
    ∃ br rest, GorillaIter.newGorillaIterFromBytes s.bytes =
        .ok ⟨freshDecoder t0 o, br, false, none⟩ ∧ Remains br (bits ++ (marker ++ rest)) := by
  have hdone : Emits s.bw.clone (setFinished s.bw.clone) (marker ++ [false]) :=
    emits_trans (emits_trans (writeBits_emits _ _ (by decide)) (writeBits_emits _ _ (by decide)))
      (writeBit_emits _ _)
  obtain ⟨-, hbits⟩ := hdone _ (written_clone written)
  have hleft := remains_newBReader s.bytes
  -- what the reader finds: header, records, marker, and the padding of the last byte
  rw [GorillaTimeSeries.bytes, BitStream.bytes, hbits] at hleft
  simp only [List.append_assoc] at hleft
  obtain ⟨br, hrun, hrest⟩ := header_consumes t0 o _ _ hleft
  refine ⟨br, _, ?_, hrest⟩
  change (GorillaIter.newGorillaIterFromBStream.run
    (newBReader (setFinished s.bw.clone).stream) >>= _) = _
  rw [hrun]
  rfl

/-- Points that `Values` can read back in a series of this width come back. -/
theorem newGorillaIterFromBytes_yields [IntConversion] (t0 : BitVec 64) (o : Options)
    (ps : List Point) (nonempty : ps ≠ [])
    (readable : ∀ p ∈ ps, Readable (BitVec.ofInt 8 o.numValues) p)
    (fits : ∀ p ∈ ps, 0 < seconds p.t ∧ seconds p.t < 2 ^ 32)
    (first : ∀ p ∈ ps.head?, ((splitNano p.t).1 - (splitNano t0).1).toNat < 2 ^ 14) :
    ∃ s it it', (GorillaTimeSeries.newGoriallaTimeSeries t0 o).addPoints ps = .ok s ∧
      GorillaIter.newGorillaIterFromBytes s.bytes = .ok it ∧
      Yields it (ps.map (columned o.highTimeResolution)) it' ∧
      TimeSeriesIter.error it' = none := by
  obtain ⟨p, ps, rfl⟩ := List.exists_cons_of_ne_nil nonempty
  obtain ⟨s1, d1, enc1, hadd, hemit1, hread1, hstep1, hstarted, hfull, hvals⟩ :=
    addPoint_reads (inStep_fresh t0 o) (readable p List.mem_cons_self)
      (fits p List.mem_cons_self) (fun _ => first p rfl)
  obtain ⟨s2, enc2, hadds, hemit2, hyields⟩ := addPoints_yields ps hstep1 hstarted
    (fun q hq => readable q (List.mem_cons_of_mem _ hq))
    (fun q hq => fits q (List.mem_cons_of_mem _ hq))
  have hwritten := hemit2 _ (hemit1 _ (header_written t0 o))
  rw [List.append_assoc] at hwritten
  obtain ⟨br0, rest, hopen, hleft0⟩ := newGorillaIterFromBytes_opens hwritten
  rw [List.append_assoc] at hleft0
  obtain ⟨br1, hnext1, hleft1⟩ := next_record hread1 hleft0
  obtain ⟨it', hit', herr⟩ := hyields br1 _ hleft1
  refine ⟨s2, ⟨freshDecoder t0 o, br0, false, none⟩, it', ?_, hopen, ⟨_, hnext1, hvals, ?_⟩, herr⟩
  · rw [GorillaTimeSeries.addPoints, hadd]
    exact hadds
  · rw [hfull] at hit'
    exact hit'

/-- Decoding what `Bytes` returns hands out every point in order and then ends without
an error, whatever the later time deltas are. The first delta is a `uint32` difference. -/
theorem newGorillaIterFromBytes_yields_addPoints [IntConversion] (high : Bool) (handler : String)
    (t0 : BitVec 64) (ps : List Point) (nonempty : ps ≠ [])
    (count : ∀ p ∈ ps, p.count.toInt.natAbs ≤ 2 ^ 53)
    (fits : ∀ p ∈ ps, 0 < seconds p.t ∧ seconds p.t < 2 ^ 32)
    (first : ∀ p ∈ ps.head?, ((splitNano p.t).1 - (splitNano t0).1).toNat < 2 ^ 14) :
    ∃ s it it',
      (GorillaTimeSeries.newGoriallaTimeSeries t0 ⟨5, high, handler⟩).addPoints ps = .ok s ∧
      GorillaIter.newGorillaIterFromBytes s.bytes = .ok it ∧
      Yields it (ps.map (·.decoded high)) it' ∧ TimeSeriesIter.error it' = none := by
  rw [← List.map_congr_left fun p hp => columned_eq (count p hp) high]
  exact newGorillaIterFromBytes_yields t0 ⟨5, high, handler⟩ ps nonempty (fun _ _ => Or.inl rfl)
    fits first

/-- A full point, an earlier small one and a later full one, in nanoseconds. -/
theorem newGorillaIterFromBytes_yields_three :
    ∃ s it it', (GorillaTimeSeries.newGoriallaTimeSeries 1500000000000000000#64
        ⟨5, true, "n/a"⟩).addPoints
        [⟨1500000010000000007#64, 1#64, 2#64, 3#64, 4#64, 9#64⟩,
          ⟨1500000005000000000#64, 5#64, 6#64, 7#64, 8#64, 1#64⟩,
          ⟨1600000000000000000#64, 1#64, 2#64, 3#64, 4#64, 7#64⟩] = .ok s ∧
      GorillaIter.newGorillaIterFromBytes s.bytes = .ok it ∧
      Yields it ([⟨1500000010000000007#64, 1#64, 2#64, 3#64, 4#64, 9#64⟩,
          ⟨1500000005000000000#64, 5#64, 6#64, 7#64, 8#64, 1#64⟩,
          ⟨1600000000000000000#64, 1#64, 2#64, 3#64, 4#64, 7#64⟩].map (Point.decoded true)) it' ∧
      TimeSeriesIter.error it' = none :=
  newGorillaIterFromBytes_yields_addPoints true "n/a" 1500000000000000000#64 _ (by simp)
    (by decide) (by decide) (by decide)

/-! ### A first delta of more than fourteen bits -/

namespace GorillaTimeSeries

/-- What `AddPoint` does after the time. -/
def addForm (s : GorillaTimeSeries) (start : Bool) (p : Point) :
    Except SeriesError GorillaTimeSeries := do
  let smart := s.smartEncoding && 3#8 < s.numValues
  if smart && p.isSmall then
    let s ← { s with bw := s.bw.writeBit false }.addValue 3 p.sum start
    return { s with curCount := s.curCount + 1 }
  else
    let s := if smart then { s with bw := s.bw.writeBit true } else s
    let s ← s.addValues 0 (columnValues s.numValues p) start
    return { s with curCount := s.curCount + 1 }

theorem addPoint_eq (s : GorillaTimeSeries) (p : Point) :
    s.addPoint p = s.addTime p.t >>= fun s' => s'.addForm (s.curTime == 0#32) p := rfl

end GorillaTimeSeries

/-! ### Any options -/

theorem compressValue_grows (bw : BitStream) (c : Column) (v : Float64) :
    Grows bw (compressValue bw c v).1 := by
  unfold compressValue
  by_cases hzero : v ^^^ c.val = 0#64
  · rw [if_pos hzero]
    exact writeBit_grows bw false
  · obtain ⟨-, -, hroom⟩ := newWindow_fits hzero
    rw [if_neg hzero]
    dsimp only
    split
    · exact grows_trans (grows_trans (writeBit_grows _ _) (writeBit_grows _ _))
        (writeBits_grows _ _ (by omega))
    · have hsig : (64#8 - (newWindow (v ^^^ c.val)).1 - (newWindow (v ^^^ c.val)).2).toNat ≤ 64 := by
        bv_omega
      exact grows_trans (grows_trans (grows_trans (grows_trans (writeBit_grows _ _)
        (writeBit_grows _ _)) (writeBits_grows _ _ (by decide)))
        (writeBits_grows _ _ (by decide))) (writeBits_grows _ _ hsig)

theorem writeDod_grows (bw : BitStream) (dod : BitVec 32) : Grows bw (writeDod bw dod) := by
  unfold writeDod
  split
  · exact writeBit_grows bw false
  · split_ifs <;>
      exact grows_trans (writeBits_grows _ _ (by decide)) (writeBits_grows _ _ (by decide))

theorem addNano_grows (s : GorillaTimeSeries) (utms : BitVec 32) :
    Grows s.bw (s.addNano utms).bw := by
  unfold GorillaTimeSeries.addNano
  split
  · exact compressValue_grows _ _ _
  · exact grows_refl _

theorem addTime_grows {s s' : GorillaTimeSeries} {t : BitVec 64} (add : s.addTime t = .ok s') :
    Grows s.bw s'.bw := by
  unfold GorillaTimeSeries.addTime at add
  dsimp only at add
  split at add
  · obtain rfl := Except.ok.inj add
    refine grows_trans ?_ (addNano_grows _ _)
    exact writeBits_grows _ _ (by decide)
  · split at add
    · cases add
    · obtain rfl := Except.ok.inj add
      refine grows_trans ?_ (addNano_grows _ _)
      exact writeDod_grows _ _

theorem addValue_grows {s s' : GorillaTimeSeries} {idx : Nat} {v : Float64} {isfirst : Bool}
    (add : s.addValue idx v isfirst = .ok s') : Grows s.bw s'.bw := by
  unfold GorillaTimeSeries.addValue at add
  split at add
  · cases add
  · split at add <;> obtain rfl := Except.ok.inj add
    · exact writeBits_grows _ _ (by decide)
    · exact compressValue_grows _ _ _

theorem addValues_grows (vs : List Float64) {s s' : GorillaTimeSeries} {idx : Nat}
    {isfirst : Bool} (add : s.addValues idx vs isfirst = .ok s') : Grows s.bw s'.bw := by
  induction vs generalizing s idx with
  | nil =>
    obtain rfl := Except.ok.inj add
    exact grows_refl _
  | cons v vs ih =>
    obtain ⟨s1, hfirst, hrest⟩ := bind_ok add
    exact grows_trans (addValue_grows hfirst) (ih hrest)

theorem addForm_grows {s s' : GorillaTimeSeries} {start : Bool} {p : Point}
    (add : s.addForm start p = .ok s') : Grows s.bw s'.bw := by
  unfold GorillaTimeSeries.addForm at add
  dsimp only at add
  split at add
  · obtain ⟨s1, hvalue, add⟩ := bind_ok add
    obtain rfl := Except.ok.inj add
    exact grows_trans (writeBit_grows _ _) (addValue_grows hvalue)
  · obtain ⟨s1, hvalues, add⟩ := bind_ok add
    obtain rfl := Except.ok.inj add
    have hrest := addValues_grows _ hvalues
    split at hrest
    · exact grows_trans (writeBit_grows _ _) hrest
    · exact hrest

theorem addPoint_grows {s s' : GorillaTimeSeries} {p : Point} (add : s.addPoint p = .ok s') :
    Grows s.bw s'.bw := by
  rw [GorillaTimeSeries.addPoint_eq] at add
  obtain ⟨s1, htime, hform⟩ := bind_ok add
  exact grows_trans (addTime_grows htime) (addForm_grows hform)

theorem addPoints_grows (ps : List Point) {s s' : GorillaTimeSeries}
    (add : s.addPoints ps = .ok s') : Grows s.bw s'.bw := by
  induction ps generalizing s with
  | nil =>
    obtain rfl := Except.ok.inj add
    exact grows_refl _
  | cons p ps ih =>
    obtain ⟨s1, hadd, hrest⟩ := bind_ok add
    exact grows_trans (addPoint_grows hadd) (ih hrest)

theorem bitsWritten_new (t0 : BitVec 64) (o : Options) :
    72 ≤ (GorillaTimeSeries.newGoriallaTimeSeries t0 o).bw.bitsWritten := by
  obtain ⟨nv, high, handler⟩ := o
  have hhead : ∀ tag : List (BitVec 8), tag.length = 4 → ∀ n ts : BitVec 64,
      (((empty.writeBytes tag).writeBits n 8).writeBits ts 32).bitsWritten = 72 := by
    intro tag four n ts
    rw [bitsWritten_writeBits, bitsWritten_writeBits, bitsWritten_writeBytes, four]
    rfl
  cases high with
  | false => exact (hhead tagSecond rfl _ _).ge
  | true =>
    refine (hhead tagNanoSmart rfl ((BitVec.ofInt 8 nv).setWidth 64)
      ((splitNano t0).1.setWidth 64)).ge.trans ?_
    exact (Nat.le_add_right _ 32).trans
      (bitsWritten_writeBits _ ((splitNano t0).2.setWidth 64) 32).ge

/-- Whatever follows it, the header opens: an iterator is made and the bytes are some. -/
theorem newGorillaIterFromBytes_ok {s : GorillaTimeSeries} {t0 : BitVec 64} {o : Options}
    {bits : List Bool} (written : Written s.bw (header t0 o ++ bits)) :
    s.bytes ≠ [] ∧ ∃ it, GorillaIter.newGorillaIterFromBytes s.bytes = .ok it := by
  obtain ⟨br, rest, hopen, -⟩ := newGorillaIterFromBytes_opens written
  refine ⟨?_, _, hopen⟩
  intro hnil
  rw [hnil] at hopen
  cases hopen

end Gorilla
