import Cadent.Series.Gorilla
import Mathlib.Logic.Function.Iterate

/-!
# Decoding bytes that nobody vouches for

The decoder reads leading, trailing and significant-bit counts from the data and
subtracts them in `uint8`. Here the bytes are arbitrary, but for a header that declares
the five columns `Values` looks at. Every read takes bits off the stream, the columns
keep their number, and the window of a column always leaves between 1 and 64
significant bits. From one call of `Next` this carries over to any number of them.
-/

namespace Gorilla

open Binary64 Bits Bitstream BitStream Consume TimeSeries

/-! ### Reading takes bits off the stream -/

/-- The bits that a reader has not handed out yet. -/
def unread (b : BitStream) : Nat := b.count + 8 * (b.stream.length - 1)

/-- A reader stands inside a byte, so `8 - count` is a shift within it. -/
def InByte (b : BitStream) : Prop := b.count ≤ 8

theorem nextByte_spends {b b' : BitStream} (inside : InByte b) (next : b.nextByte = .ok b') :
    InByte b' ∧ 0 < b'.count ∧ unread b' ≤ unread b := by
  unfold nextByte at next
  split at next
  · cases next
  case h_2 c rest hstream =>
    by_cases hzero : b.count = 0
    · rw [if_pos hzero] at next
      cases rest with
      | nil => cases next
      | cons d ds =>
        obtain rfl := Except.ok.inj next
        refine ⟨le_rfl, Nat.zero_lt_succ 7, ?_⟩
        simp only [unread, hstream, List.length_cons, hzero]
        omega
    · rw [if_neg hzero] at next
      obtain rfl := Except.ok.inj next
      exact ⟨inside, by omega, le_rfl⟩

theorem readBit_spends : Spends InByte unread 1 readBit := by
  intro b x b' inside hrun
  change readBit b = _ at hrun
  unfold readBit at hrun
  cases hnext : b.nextByte with
  | error e => rw [hnext] at hrun; cases hrun
  | ok b1 =>
    obtain ⟨hinside, hpos, hless⟩ := nextByte_spends inside hnext
    rw [hnext] at hrun
    dsimp only at hrun
    split at hrun
    · cases hrun
    case h_2 c cs hstream =>
      obtain ⟨-, rfl⟩ := Prod.mk.inj (Except.ok.inj hrun)
      unfold InByte at *
      simp only [unread, hstream, List.length_cons] at hless ⊢
      omega

theorem readByte_spends : Spends InByte unread 8 readByte := by
  intro b x b' inside hrun
  change readByte b = _ at hrun
  unfold readByte at hrun
  cases hnext : b.nextByte with
  | error e => rw [hnext] at hrun; cases hrun
  | ok b1 =>
    obtain ⟨hinside, hpos, hless⟩ := nextByte_spends inside hnext
    rw [hnext] at hrun
    dsimp only at hrun
    unfold InByte at *
    split at hrun
    · cases hrun
    case h_2 c cs hstream =>
      by_cases hwhole : b1.count = 8
      · rw [if_pos hwhole] at hrun
        obtain ⟨-, rfl⟩ := Prod.mk.inj (Except.ok.inj hrun)
        simp only [unread, hwhole] at hless ⊢
        omega
      · rw [if_neg hwhole] at hrun
        cases cs with
        | nil => cases hrun
        | cons d ds =>
          obtain ⟨-, rfl⟩ := Prod.mk.inj (Except.ok.inj hrun)
          simp only [unread, hstream, List.length_cons] at hless ⊢
          omega

theorem readByteLoop_spends (k : Nat) (u : BitVec 64) :
    Spends InByte unread (8 * k) (readByteLoop k u) := by
  induction k generalizing u with
  | zero => exact spends_pure u
  | succ k ih =>
    have h := spends_bind readByte_spends fun byt => ih (u <<< 8 ||| byt.setWidth 64)
    exact spends_weaken h (by omega)

theorem readBitLoop_spends (k : Nat) (u : BitVec 64) :
    Spends InByte unread k (readBitLoop k u) := by
  induction k generalizing u with
  | zero => exact spends_pure u
  | succ k ih =>
    have h := spends_bind readBit_spends fun bit => ih (pushBit u bit)
    exact spends_weaken h (by omega)

theorem readBits_spends (n : Nat) : Spends InByte unread n (readBits n) := by
  have h := spends_bind (readByteLoop_spends (n / 8) 0#64) fun u => readBitLoop_spends (n % 8) u
  exact spends_weaken h (by omega)

theorem readByteList_spends (n : Nat) : Spends InByte unread (8 * n) (readByteList n) := by
  induction n with
  | zero => exact spends_pure []
  | succ n ih =>
    have h := spends_bind readByte_spends fun byt =>
      spends_bind ih fun rest => spends_pure (byt :: rest)
    exact spends_weaken h (by omega)

theorem readBytes_spends (n : Nat) : Spends InByte unread (8 * n) (readBytes n) := by
  intro b bs b' inside hrun
  change readBytes n b = _ at hrun
  unfold readBytes at hrun
  split at hrun
  · cases hrun
  · exact readByteList_spends n b bs b' inside hrun

theorem readWindow_spends (c : Column) : Spends InByte unread 1 (readWindow c) := by
  refine spends_bind (m := 0) readBit_spends fun bit => ?_
  split
  · refine spends_weaken (spends_bind (readBits_spends 5) fun leading =>
      spends_bind (readBits_spends 6) fun bits => spends_pure _) (Nat.zero_le _)
  · exact spends_pure _

theorem uncompressValue_spends (start : Bool) (c : Column) :
    Spends InByte unread 1 (uncompressValue start c) := by
  unfold uncompressValue
  split
  · exact spends_weaken (spends_bind (readBits_spends 64) fun _ => spends_pure _) (by decide)
  · refine spends_bind (m := 0) readBit_spends fun bit => ?_
    split
    · refine spends_weaken (spends_bind (m := 0) (readWindow_spends c) fun w => ?_) (Nat.zero_le _)
      exact spends_weaken (spends_bind (readBits_spends _) fun bits => spends_pure _)
        (Nat.zero_le _)
    · exact spends_pure _

theorem readTag_spends (n : Nat) (d : BitVec 8) : Spends InByte unread 0 (readTag n d) := by
  induction n generalizing d with
  | zero => exact spends_pure d
  | succ n ih =>
    refine spends_weaken (spends_bind (m := 0) readBit_spends fun bit => ?_) (Nat.zero_le 1)
    split
    · exact ih _
    · exact spends_pure _

/-- Even the shortest form of a time delta takes a bit. -/
theorem readTag_spends_one (n : Nat) (d : BitVec 8) :
    Spends InByte unread 1 (readTag (n + 1) d) := by
  refine spends_bind (m := 0) readBit_spends fun bit => ?_
  split
  · exact readTag_spends n _
  · exact spends_pure _

theorem readShortDod_spends (sz : Nat) : Spends InByte unread 0 (readShortDod sz) :=
  spends_weaken (spends_bind (readBits_spends sz) fun _ => spends_pure _) (Nat.zero_le _)

theorem readLongDod_spends : Spends InByte unread 0 readLongDod := by
  refine spends_weaken (spends_bind (m := 0) (spends_mapErr (readBits_spends 32)) fun bits => ?_)
    (Nat.zero_le _)
  split
  · exact spends_throw _
  · exact spends_pure _

theorem readDod_spends : Spends InByte unread 1 readDod := by
  refine spends_bind (m := 0) (spends_mapErr (readTag_spends_one 3 0#8)) fun d => ?_
  split
  · exact spends_mapErr (readShortDod_spends 7)
  split
  · exact spends_mapErr (readShortDod_spends 9)
  split
  · exact spends_mapErr (readShortDod_spends 12)
  split
  · exact readLongDod_spends
  · exact spends_pure _

namespace Decoder

theorem readNano_spends (it : Decoder) : Spends InByte unread 0 it.readNano := by
  unfold readNano
  split
  · exact spends_weaken (spends_bind (spends_mapErr (uncompressValue_spends false it.ms))
      fun _ => spends_pure _) (Nat.zero_le _)
  · exact spends_pure it

theorem readTimeDelta_spends (it : Decoder) : Spends InByte unread 1 it.readTimeDelta := by
  unfold readTimeDelta
  split
  · exact spends_weaken (spends_bind (spends_mapErr (readBits_spends 14))
      fun _ => readNano_spends _) (by decide)
  · exact spends_bind readDod_spends fun _ => readNano_spends _

theorem readValue_spends (it : Decoder) (idx : Nat) :
    Spends InByte unread 0 (it.readValue idx) := by
  unfold readValue
  split
  · exact spends_throw _
  · exact spends_weaken (spends_bind (spends_mapErr (uncompressValue_spends _ _))
      fun _ => spends_pure _) (Nat.zero_le _)

theorem readValues_spends (n : Nat) (it : Decoder) (idx : Nat) :
    Spends InByte unread 0 (it.readValues idx n) := by
  induction n generalizing it idx with
  | zero => exact spends_pure it
  | succ n ih => exact spends_bind (readValue_spends it idx) fun it' => ih it' (idx + 1)

theorem readSmartBit_spends (it : Decoder) : Spends InByte unread 0 it.readSmartBit := by
  unfold readSmartBit
  split
  · exact spends_weaken (spends_mapErr readBit_spends) (Nat.zero_le _)
  · exact spends_pure _

theorem readColumns_spends (it : Decoder) : Spends InByte unread 0 it.readColumns := by
  unfold readColumns
  split
  · exact readValues_spends _ it 0
  · exact readValue_spends it 3

theorem nextPoint_spends (it : Decoder) : Spends InByte unread 1 it.nextPoint :=
  spends_bind (readTimeDelta_spends it) fun it1 => spends_bind (readSmartBit_spends it1)
    fun _ => spends_bind (readColumns_spends _) fun _ => spends_pure _

end Decoder

/-! ### Windows read from the data -/

/-- The number of bits that a value with this window is read from. -/
def significantBits (w : BitVec 8 × BitVec 8) : Nat := (64#8 - w.1 - w.2).toNat

/-- The window leaves at least one significant bit and no more than a word has. -/
def Sound (w : BitVec 8 × BitVec 8) : Prop := 1 ≤ significantBits w ∧ significantBits w ≤ 64

/-- A decoder starts its columns with the whole word as their window. -/
theorem sound_zero : Sound (0#8, 0#8) := ⟨by decide, by decide⟩

def Column.window (c : Column) : BitVec 8 × BitVec 8 := (c.leading, c.trailing)

theorem pushBit_lt {u : BitVec 64} {m : Nat} (fits : u.toNat < 2 ^ m) (bit : Bool) :
    (pushBit u bit).toNat < 2 ^ (m + 1) := by
  have hpow : 2 ^ (m + 1) = 2 * 2 ^ m := by rw [Nat.pow_succ, Nat.mul_comm]
  have hshift : (u <<< 1).toNat < 2 ^ (m + 1) := by
    rw [BitVec.toNat_shiftLeft, Nat.shiftLeft_eq]
    omega
  cases bit with
  | false => exact hshift
  | true =>
    have hone : (1#64).toNat < 2 ^ (m + 1) := Nat.one_lt_two_pow (by omega)
    change (u <<< 1 ||| 1#64).toNat < _
    rw [BitVec.toNat_or]
    exact Nat.or_lt_two_pow hshift hone

theorem readBitLoop_meets (k : Nat) {u : BitVec 64} {m : Nat} (fits : u.toNat < 2 ^ m) :
    Meets (readBitLoop k u) (fun r => r.toNat < 2 ^ (m + k)) fun _ => True := by
  induction k generalizing u m with
  | zero => exact meets_pure fits
  | succ k ih =>
    refine meets_bind (meets_any readBit) fun bit _ => ?_
    refine meets_weaken (ih (pushBit_lt fits bit)) fun r hr => ?_
    rwa [Nat.add_right_comm] at hr

theorem readBits_six_meets : Meets (readBits 6) (fun r => r.toNat < 64) fun _ => True := by
  refine meets_bind (Q := (· = 0#64)) (meets_pure rfl) fun u hu => ?_
  subst hu
  exact readBitLoop_meets 6 (m := 0) (by decide)

/-- A new window has the number of significant bits that was written with it. -/
theorem readWindow_meets {c : Column} (sound : Sound c.window) :
    Meets (readWindow c) Sound fun _ => True := by
  refine meets_bind (meets_any _) fun bit _ => ?_
  split
  · refine meets_bind (meets_any _) fun leading _ =>
      meets_bind readBits_six_meets fun bits hbits => meets_pure ?_
    have hback : ∀ l m : BitVec 8, 64#8 - l - (64#8 - l - m) = m := by
      intro l m
      bv_omega
    unfold Sound significantBits
    rw [hback]
    by_cases hzero : bits.setWidth 8 = 0#8
    · rw [if_pos hzero]
      decide
    · rw [if_neg hzero]
      have hne : (bits.setWidth 8).toNat ≠ 0 := fun h => hzero (BitVec.eq_of_toNat_eq h)
      rw [BitVec.toNat_setWidth] at hne ⊢
      omega
  · exact meets_pure sound

theorem uncompressValue_meets {c : Column} (sound : Sound c.window) (start : Bool) :
    Meets (uncompressValue start c) (fun d => Sound d.window) fun _ => True := by
  unfold uncompressValue
  split
  · exact meets_bind (meets_any _) fun _ _ => meets_pure sound
  · refine meets_bind (meets_any _) fun bit _ => ?_
    split
    · refine meets_bind (readWindow_meets sound) fun w hw => ?_
      exact meets_bind (meets_any _) fun bits _ => meets_pure hw
    · exact meets_pure sound

/-! ### One record -/

/-- An error that a read may end with: not an index out of range. -/
def Orderly : Stop → Prop
  | .error .panic => False
  | _ => True

theorem meets_io {α : Type} {p : Reader BitStream IoError α} {Q : α → Prop}
    (h : Meets p Q fun _ => True) : Meets (io p) Q Orderly :=
  meets_mapErr h fun _ _ => trivial

namespace Decoder

/-- The decoder has the columns it declares, at least five, with sound windows. -/
structure Wide (it : Decoder) : Prop where
  columns : it.columns.length = it.numValues.toNat
  five : 5 ≤ it.numValues.toNat
  windows : ∀ c ∈ it.ms :: it.columns, Sound c.window

theorem readNano_meets {it : Decoder} (wide : Wide it) : Meets it.readNano Wide Orderly := by
  unfold readNano
  split
  · have hms := wide.windows it.ms List.mem_cons_self
    refine meets_bind (meets_io (uncompressValue_meets hms false)) fun ms hnew => meets_pure ?_
    refine ⟨wide.columns, wide.five, ?_⟩
    intro c hc
    rcases List.mem_cons.mp hc with rfl | hc
    · exact hnew
    · exact wide.windows c (List.mem_cons_of_mem _ hc)
  · exact meets_pure wide

theorem readDod_meets : Meets readDod (fun _ => True) Orderly := by
  refine meets_bind (meets_io (meets_any _)) fun d _ => ?_
  split
  · exact meets_io (meets_any _)
  split
  · exact meets_io (meets_any _)
  split
  · exact meets_io (meets_any _)
  split
  · refine meets_bind (meets_io (meets_any _)) fun bits _ => ?_
    split
    · exact meets_throw trivial
    · exact meets_pure trivial
  · exact meets_pure trivial

theorem readTimeDelta_meets {it : Decoder} (wide : Wide it) :
    Meets it.readTimeDelta Wide Orderly := by
  unfold readTimeDelta
  split
  · refine meets_bind (meets_io (meets_any _)) fun tDelta _ => readNano_meets ?_
    exact ⟨wide.columns, wide.five, wide.windows⟩
  · refine meets_bind readDod_meets fun dod _ => readNano_meets ?_
    exact ⟨wide.columns, wide.five, wide.windows⟩

theorem readValue_meets {it : Decoder} (wide : Wide it) {idx : Nat}
    (inside : idx < it.numValues.toNat) :
    Meets (it.readValue idx) (fun d => Wide d ∧ d.numValues = it.numValues) Orderly := by
  have hin : idx < it.columns.length := by rw [wide.columns]; exact inside
  have hold : Sound it.columns[idx].window :=
    wide.windows _ (List.mem_cons_of_mem _ (List.getElem_mem hin))
  unfold readValue
  rw [List.getElem?_eq_getElem hin]
  refine meets_bind (meets_io (uncompressValue_meets hold it.start)) fun c hnew => meets_pure ?_
  refine ⟨⟨by simpa using wide.columns, wide.five, ?_⟩, rfl⟩
  intro d hd
  rcases List.mem_cons.mp hd with rfl | hd
  · exact wide.windows it.ms List.mem_cons_self
  · rcases List.mem_or_eq_of_mem_set hd with hd | rfl
    · exact wide.windows d (List.mem_cons_of_mem _ hd)
    · exact hnew

theorem readValues_meets (n : Nat) {it : Decoder} (wide : Wide it) {idx : Nat}
    (inside : idx + n ≤ it.numValues.toNat) : Meets (it.readValues idx n) Wide Orderly := by
  induction n generalizing it idx with
  | zero => exact meets_pure wide
  | succ n ih =>
    refine meets_bind (readValue_meets wide (by omega)) fun it' h => ih h.1 ?_
    rw [h.2]
    omega

theorem readColumns_meets {it : Decoder} (wide : Wide it) : Meets it.readColumns Wide Orderly := by
  unfold readColumns
  split
  · exact readValues_meets _ wide (by omega)
  · have hfive := wide.five
    exact meets_weaken (readValue_meets wide (by omega)) fun _ h => h.1

/-- One record, on any bytes: no index is out of range, and the decoder stays wide. -/
theorem nextPoint_meets {it : Decoder} (wide : Wide it) : Meets it.nextPoint Wide Orderly := by
  refine meets_bind (readTimeDelta_meets wide) fun it1 h1 => ?_
  have hbit : Meets it1.readSmartBit (fun _ => True) Orderly := by
    unfold readSmartBit
    split
    · exact meets_io (meets_any _)
    · exact meets_pure trivial
  refine meets_bind hbit fun bit _ => ?_
  have hcolumns : Wide { it1 with curSmartEnc := bit } := ⟨h1.columns, h1.five, h1.windows⟩
  refine meets_bind (readColumns_meets hcolumns) fun it2 h2 => meets_pure ?_
  exact ⟨h2.columns, h2.five, h2.windows⟩

theorem values_isSome [IntConversion] {it : Decoder} (wide : Wide it) : it.values.isSome := by
  obtain ⟨hlen, hfive, -⟩ := wide
  unfold values
  rw [List.getElem?_eq_getElem (i := 0) (by omega), List.getElem?_eq_getElem (i := 1) (by omega),
    List.getElem?_eq_getElem (i := 2) (by omega), List.getElem?_eq_getElem (i := 3) (by omega),
    List.getElem?_eq_getElem (i := 4) (by omega)]
  split
  · rfl
  · rfl

end Decoder

/-! ### Any number of calls -/

namespace GorillaIter

/-- The iterator after `k` calls of `Next`. -/
def after (it : GorillaIter) (k : Nat) : GorillaIter := (fun it => it.next.2)^[k] it

/-- Has `Next` answered false for good? -/
def ended (it : GorillaIter) : Bool := it.err.isSome || it.finished

/-- What a call of `Next` or `Values` needs so as not to panic, and what one keeps. -/
structure Safe (it : GorillaIter) : Prop where
  wide : it.toDecoder.Wide
  inside : InByte it.br
  orderly : it.err ≠ some .panic

/-- One call of `Next`: the answer is false exactly when the iterator has ended, and an
answer of true takes at least one bit off the stream. -/
theorem next_safe {it : GorillaIter} (safe : Safe it) :
    Safe it.next.2 ∧ it.next.2.ended = !it.next.1 ∧
      unread it.next.2.br + (if it.next.1 then 1 else 0) ≤ unread it.br := by
  unfold next
  by_cases hended : (it.err.isSome || it.finished) = true
  · rw [if_pos hended]
    exact ⟨safe, hended, le_rfl⟩
  rw [if_neg hended]
  obtain ⟨hok, herr⟩ := Decoder.nextPoint_meets safe.wide it.br
  cases hrun : it.nextPoint.run it.br with
  | ok r =>
    obtain ⟨hinside, hspent⟩ := Decoder.nextPoint_spends _ it.br r.1 r.2 safe.inside hrun
    exact ⟨⟨hok r.1 r.2 hrun, hinside, safe.orderly⟩, Bool.eq_false_iff.mpr hended, hspent⟩
  | error stop =>
    have horderly := herr stop hrun
    cases stop with
    | finished => exact ⟨⟨safe.wide, safe.inside, safe.orderly⟩, by simp [ended], le_rfl⟩
    | error e =>
      refine ⟨⟨safe.wide, safe.inside, ?_⟩, by simp [ended], le_rfl⟩
      intro hpanic
      rw [Option.some.inj hpanic] at horderly
      exact horderly

theorem after_succ (it : GorillaIter) (k : Nat) : it.after (k + 1) = (it.after k).next.2 :=
  Function.iterate_succ_apply' _ k it

theorem after_safe {it : GorillaIter} (safe : Safe it) (k : Nat) : Safe (it.after k) := by
  induction k with
  | zero => exact safe
  | succ k ih =>
    rw [after_succ]
    exact (next_safe ih).1

theorem next_of_ended {it : GorillaIter} (h : it.ended = true) : it.next = (false, it) := by
  unfold next
  exact if_pos h

theorem next_after_false {it : GorillaIter} (safe : Safe it) {k m : Nat}
    (answered : (it.after k).next.1 = false) (later : k ≤ m) : (it.after m).next.1 = false := by
  induction m, later using Nat.le_induction with
  | base => exact answered
  | succ m _ ih =>
    have hended := (next_safe (after_safe safe m)).2.1
    rw [ih] at hended
    rw [after_succ, next_of_ended hended]

/-- The answers of true among the first `k` calls are paid for in bits. -/
theorem countP_next_le {it : GorillaIter} (safe : Safe it) (k : Nat) :
    (List.range k).countP (fun i => (it.after i).next.1) + unread (it.after k).br ≤
      unread it.br := by
  induction k with
  | zero => simp [after]
  | succ k ih =>
    have hstep := (next_safe (after_safe safe k)).2.2
    rw [List.range_succ, List.countP_append, List.countP_singleton, after_succ]
    omega

/-! ### From the header on -/

theorem readHead_spends : Spends InByte unread 32 readHead := by
  refine spends_bind (m := 0) (spends_mapErr (readBytes_spends 4)) fun head => ?_
  split
  · exact spends_throw _
  · exact spends_pure _

theorem readTms_spends (fullrez : Bool) : Spends InByte unread 0 (readTms fullrez) := by
  unfold readTms
  split
  · exact spends_weaken (spends_bind (spends_mapErr (readBits_spends 32)) fun _ => spends_pure _)
      (Nat.zero_le _)
  · exact spends_pure _

theorem newGorillaIterFromBStream_spends : Spends InByte unread 72 newGorillaIterFromBStream :=
  spends_bind readHead_spends fun _ => spends_bind (spends_mapErr (readBits_spends 8)) fun _ =>
    spends_bind (spends_mapErr (readBits_spends 32)) fun _ =>
      spends_bind (readTms_spends _) fun _ => spends_pure _

theorem newGorillaIterFromBStream_meets :
    Meets newGorillaIterFromBStream
      (fun d => d.columns.length = d.numValues.toNat ∧ ∀ c ∈ d.ms :: d.columns, Sound c.window)
      (· ≠ .panic) := by
  have hio : ∀ {α : Type} (p : Reader BitStream IoError α),
      Meets (mapErr .io p) (fun _ => True) (· ≠ SeriesError.panic) := by
    intro α p
    refine meets_mapErr (meets_any p) ?_
    intro e _ hpanic
    cases hpanic
  have hhead : Meets readHead (fun _ => True) (· ≠ SeriesError.panic) := by
    refine meets_bind (hio _) fun head _ => ?_
    split
    · exact meets_throw fun hpanic => by cases hpanic
    · exact meets_pure trivial
  have htms : ∀ fullrez, Meets (readTms fullrez) (fun _ => True) (· ≠ SeriesError.panic) := by
    intro fullrez
    unfold readTms
    split
    · exact meets_bind (hio _) fun _ _ => meets_pure trivial
    · exact meets_pure trivial
  refine meets_bind hhead fun head _ => meets_bind (hio _) fun numvals _ =>
    meets_bind (hio _) fun t0 _ => meets_bind (htms _) fun ms _ => meets_pure ⟨by simp, ?_⟩
  intro c hc
  rcases List.mem_cons.mp hc with rfl | hc
  · exact sound_zero
  · rw [List.eq_of_mem_replicate hc]
    exact sound_zero

theorem numValues_eq {n : BitVec 8} {tag : List (BitVec 8)} (four : tag.length = 4)
    {rest : List (BitVec 8)} {d : Decoder} {br : BitStream}
    (run : newGorillaIterFromBStream.run (newBReader (tag ++ n :: rest)) = .ok (d, br)) :
    d.numValues = n := by
  obtain ⟨head, br1, hhead, run⟩ := run_bind_ok run
  obtain ⟨numvals, br2, hnum, run⟩ := run_bind_ok run
  obtain ⟨t0, br3, -, run⟩ := run_bind_ok run
  obtain ⟨ms, br4, -, run⟩ := run_bind_ok run
  obtain ⟨rfl, -⟩ := run_pure_ok run
  obtain ⟨head', br1', hbytes, hcheck⟩ := run_bind_ok hhead
  obtain rfl : br1' = br1 := by
    split at hcheck
    · cases hcheck
    · exact (run_pure_ok hcheck).2
  -- the four bytes of the tag are read, and the count is what comes next
  have hleft := remains_newBReader (tag ++ n :: rest)
  rw [bytesBits_append] at hleft
  have htag := readBytes_consumes tag (by intro hnil; rw [hnil] at four; cases four)
  rw [four] at htag
  obtain ⟨br1'', hread, hleft1⟩ := htag _ _ hleft
  obtain rfl : br1'' = br1' := (Prod.mk.inj (Except.ok.inj (hread.symm.trans (mapErr_ok hbytes)))).2
  rw [bytesBits_cons] at hleft1
  obtain ⟨_, hread, -⟩ := readBits_consumes n 8 _ _ hleft1
  obtain rfl := (Prod.mk.inj (Except.ok.inj (hread.symm.trans (mapErr_ok hnum)))).1
  change (pushBits 0#64 (byteBits n)).setWidth 8 = n
  rw [pushBits_byteBits]
  simp

/-- An iterator made from any bytes that declare five columns or more. -/
theorem safe_newGorillaIterFromBytes {b : List (BitVec 8)} {it : GorillaIter}
    (declared : ∀ n ∈ b[4]?, 5 ≤ n.toNat) (opened : newGorillaIterFromBytes b = .ok it) :
    Safe it ∧ unread it.br ≤ 8 * b.length := by
  obtain ⟨r, hrun, hit⟩ := bind_ok opened
  obtain rfl := Except.ok.inj hit
  have hstart : InByte (newBReader b) := Nat.le_refl 8
  obtain ⟨hinside, hspent⟩ := newGorillaIterFromBStream_spends _ r.1 r.2 hstart hrun
  have hbits : unread (newBReader b) = 8 + 8 * (b.length - 1) := rfl
  have hfour : 4 < b.length := by omega
  have hsplit : b = b.take 4 ++ b[4] :: b.drop 5 := by
    rw [← List.drop_eq_getElem_cons hfour, List.take_append_drop]
  have hnum : r.1.numValues = b[4] := by
    rw [hsplit] at hrun
    exact numValues_eq (by rw [List.length_take]; omega) hrun
  have hfive : 5 ≤ r.1.numValues.toNat := by
    rw [hnum]
    exact declared _ (List.getElem?_eq_getElem hfour)
  obtain ⟨hcolumns, hwindows⟩ := (newGorillaIterFromBStream_meets _).1 r.1 r.2 hrun
  refine ⟨⟨⟨hcolumns, hfive, hwindows⟩, hinside, fun hpanic => by cases hpanic⟩, ?_⟩
  change unread r.2 ≤ _
  omega

/-- What holds of an iterator over untrusted bytes `b`, however often it is called. The
windows are those that the next record can be read with. -/
structure Terminates [IntConversion] (b : List (BitVec 8)) (it : GorillaIter) : Prop where
  no_panic : ∀ k, (it.after k).err ≠ some .panic ∧ (it.after k).values.isSome
  bounded : ∀ k, (List.range k).countP (fun i => (it.after i).next.1) ≤ 8 * b.length
  settled : ∀ k m, k ≤ m → (it.after k).next.1 = false → (it.after m).next.1 = false
  shifts : ∀ k, (it.after k).br.count ≤ 8
  windows : ∀ k, ∀ c ∈ (it.after k).ms :: (it.after k).columns, ∀ br w br',
    (readWindow c).run br = .ok (w, br') → 1 ≤ significantBits w ∧ significantBits w ≤ 64

/-- Any bytes whose header, if they have one, declares at least five columns. -/
theorem newGorillaIterFromBytes_terminates [IntConversion] (b : List (BitVec 8))
    (declared : ∀ n ∈ b[4]?, 5 ≤ n.toNat) :
    newGorillaIterFromBytes b ≠ .error .panic ∧
      ∀ it, newGorillaIterFromBytes b = .ok it → Terminates b it := by
  constructor
  · intro hpanic
    unfold newGorillaIterFromBytes at hpanic
    cases hrun : newGorillaIterFromBStream.run (newBReader b) with
    | error e =>
      rw [hrun] at hpanic
      obtain rfl : e = .panic := Except.error.inj hpanic
      exact (newGorillaIterFromBStream_meets _).2 _ hrun rfl
    | ok r => rw [hrun] at hpanic; cases hpanic
  · intro it opened
    obtain ⟨hsafe, hunread⟩ := safe_newGorillaIterFromBytes declared opened
    constructor
    · intro k
      have h := after_safe hsafe k
      exact ⟨h.orderly, Decoder.values_isSome h.wide⟩
    · intro k
      have h := countP_next_le hsafe k
      omega
    · intro k m later answered
      exact next_after_false hsafe answered later
    · intro k
      exact (after_safe hsafe k).inside
    · intro k c hc br w br' hread
      have hsound := (after_safe hsafe k).wide.windows c hc
      exact (readWindow_meets hsound br).1 w br' hread

/-- A header of five columns in seconds, a first record in the small form with two more that
repeat it, and then ones. -/
def straySuffix : List (BitVec 8) :=
  tagSecond ++ [5#8, 0#8, 0#8, 0#8, 9#8] ++ List.replicate 10 0#8 ++ [1#8, 255#8, 255#8]

theorem newGorillaIterFromBytes_terminates_stray :
    ((newGorillaIterFromBytes straySuffix).toOption.map fun it =>
      (List.range 5).map fun k => (it.after k).next.1) = some [true, true, true, false, false] ∧
    ∀ it, newGorillaIterFromBytes straySuffix = .ok it → Terminates straySuffix it :=
  ⟨by decide +kernel, (newGorillaIterFromBytes_terminates _ (by decide)).2⟩

end GorillaIter

end Gorilla
