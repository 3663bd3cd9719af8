import Cadent.Lib.Bits
import Cadent.Lib.Consume
import Mathlib.Tactic.IntervalCases

/-!
# The bit stream of the binary series formats

One type serves as writer and as reader. A writer keeps in `count` the number of
free low bits of its last byte; a reader keeps in `count` the number of unread
high bits of its first byte and shifts what it has read out of that byte. A full
byte is read without leaving the stream, which `count = 0` records until the next
read moves on. `bitsRead` feeds nothing but log lines and is left out.
-/

namespace Bitstream

open Bits Consume

inductive IoError where
  | eof
  deriving DecidableEq, Repr

structure BitStream where
  stream : List (BitVec 8)
  count : Nat
  bitsWritten : Nat
  deriving DecidableEq, Repr

namespace BitStream

/-- The zero value, which is how a series embeds its writer. -/
def empty : BitStream := ⟨[], 0, 0⟩

def newBReader (b : List (BitVec 8)) : BitStream := ⟨b, 8, 0⟩

def len (b : BitStream) : Nat := b.bitsWritten / 8

/-- The copy counts its bytes where the original counts its bits. -/
def clone (b : BitStream) : BitStream := ⟨b.stream, b.count, b.stream.length⟩

def bytes (b : BitStream) : List (BitVec 8) := b.stream

/-! ### Writing -/

/-- Open a fresh byte when the last one is full. -/
def openByte (b : BitStream) : BitStream :=
  if b.count = 0 then { b with stream := b.stream ++ [0#8], count := 8 } else b

/-- `stream[len(stream)-1] |= x`. -/
def orLast (stream : List (BitVec 8)) (x : BitVec 8) : List (BitVec 8) :=
  stream.modify (stream.length - 1) (· ||| x)

def writeBit (b : BitStream) (bit : Bool) : BitStream :=
  let b := b.openByte
  { stream := if bit then orLast b.stream (1#8 <<< (b.count - 1)) else b.stream
    count := b.count - 1
    bitsWritten := b.bitsWritten + 1 }

def writeByte (b : BitStream) (byt : BitVec 8) : BitStream :=
  let b := b.openByte
  { b with
    stream := orLast b.stream (byt >>> (8 - b.count)) ++ [byt <<< b.count]
    bitsWritten := b.bitsWritten + 8 }

def writeBytes (b : BitStream) (bs : List (BitVec 8)) : BitStream := bs.foldl writeByte b

/-- The loop `for nbits >= 8`, `k` rounds of it. -/
def writeByteLoop : Nat → BitVec 64 → BitStream → BitVec 64 × BitStream
  | 0, u, b => (u, b)
  | k + 1, u, b => writeByteLoop k (u <<< 8) (b.writeByte ((u >>> 56).setWidth 8))

/-- The loop `for nbits > 0`, `k` rounds of it. -/
def writeBitLoop : Nat → BitVec 64 → BitStream → BitStream
  | 0, _, b => b
  | k + 1, u, b => writeBitLoop k (u <<< 1) (b.writeBit u.msb)

def writeBits (b : BitStream) (u : BitVec 64) (nbits : Nat) : BitStream :=
  let r := writeByteLoop (nbits / 8) (u <<< (64 - nbits)) b
  writeBitLoop (nbits % 8) r.1 r.2

/-! ### Reading -/

/-- Both reads start by leaving a byte that has been used up. -/
def nextByte (b : BitStream) : Except IoError BitStream :=
  match b.stream with
  | [] => .error .eof
  | _ :: rest =>
    if b.count = 0 then
      if rest.isEmpty then .error .eof else .ok { b with stream := rest, count := 8 }
    else .ok b

def readBit : Reader BitStream IoError Bool := fun b =>
  match b.nextByte with
  | .error e => .error e
  | .ok b =>
    match b.stream with
    | [] => .error .eof
    | c :: cs => .ok (c.msb, { b with stream := c <<< 1 :: cs, count := b.count - 1 })

def readByte : Reader BitStream IoError (BitVec 8) := fun b =>
  match b.nextByte with
  | .error e => .error e
  | .ok b =>
    match b.stream with
    | [] => .error .eof
    | c :: cs =>
      if b.count = 8 then .ok (c, { b with count := 0 })
      else match cs with
        | [] => .error .eof
        | d :: ds => .ok (c ||| d >>> b.count, { b with stream := d <<< (8 - b.count) :: ds })

def readByteLoop : Nat → BitVec 64 → Reader BitStream IoError (BitVec 64)
  | 0, u => pure u
  | k + 1, u => do
    let byt ← readByte
    readByteLoop k (u <<< 8 ||| byt.setWidth 64)

def readBitLoop : Nat → BitVec 64 → Reader BitStream IoError (BitVec 64)
  | 0, u => pure u
  | k + 1, u => do
    let bit ← readBit
    readBitLoop k (pushBit u bit)

def readBits (nbits : Nat) : Reader BitStream IoError (BitVec 64) := do
  let u ← readByteLoop (nbits / 8) 0#64
  readBitLoop (nbits % 8) u

def readByteList : Nat → Reader BitStream IoError (List (BitVec 8))
  | 0 => pure []
  | k + 1 => do
    let byt ← readByte
    let rest ← readByteList k
    pure (byt :: rest)

def readBytes (n : Nat) : Reader BitStream IoError (List (BitVec 8)) := fun b =>
  if b.stream.isEmpty || b.stream.length < n then .error .eof else readByteList n b

/-! ### What a writer holds -/

/-- The bytes of a writer spell the bits written so far, padded with `count` zeros. -/
def Written (b : BitStream) (bits : List Bool) : Prop :=
  b.count ≤ 8 ∧ bytesBits b.stream = bits ++ List.replicate b.count false

theorem written_empty : Written empty [] := by
  exact ⟨by decide, rfl⟩

theorem written_clone {b : BitStream} {bits : List Bool} (h : Written b bits) :
    Written b.clone bits := h

/-- A writer with room in its last byte, taken apart at that byte. -/
theorem written_last {b : BitStream} {bits : List Bool} (h : Written b bits) (room : 0 < b.count) :
    ∃ front last p, b.stream = front ++ [last] ∧ p.length = 8 - b.count ∧
      byteBits last = p ++ List.replicate b.count false ∧ bits = bytesBits front ++ p := by
  obtain ⟨hc, hb⟩ := h
  have hne : b.stream ≠ [] := by
    intro hnil
    have hlen := congrArg List.length hb
    simp [hnil] at hlen
    omega
  obtain ⟨front, last, hs⟩ := List.eq_nil_or_concat b.stream |>.resolve_left hne
  rw [List.concat_eq_append] at hs
  rw [hs, bytesBits_append] at hb
  have hlen := congrArg List.length hb
  simp at hlen
  have hsplit : byteBits last =
      (bits.drop (bytesBits front).length) ++ List.replicate b.count false := by
    have hd := congrArg (List.drop (bytesBits front).length) hb
    rw [List.drop_left, List.drop_append_of_le_length (by simp; omega)] at hd
    simpa using hd
  have hfront : bits.take (bytesBits front).length = bytesBits front := by
    have ht := congrArg (List.take (bytesBits front).length) hb
    rw [List.take_left, List.take_append_of_le_length (by simp; omega)] at ht
    exact ht.symm
  refine ⟨front, last, bits.drop (bytesBits front).length, hs, ?_, hsplit, ?_⟩
  · simp; omega
  · conv_lhs => rw [← List.take_append_drop (bytesBits front).length bits, hfront]

theorem openByte_written {b : BitStream} {bits : List Bool} (h : Written b bits) :
    Written b.openByte bits ∧ 0 < b.openByte.count := by
  obtain ⟨hc, hb⟩ := h
  by_cases h0 : b.count = 0
  · simp only [openByte, h0, if_true]
    refine ⟨⟨le_rfl, ?_⟩, by decide⟩
    simp [hb, h0]
  · simp only [openByte, h0, if_false]
    exact ⟨⟨hc, hb⟩, by omega⟩

theorem orLast_append (front : List (BitVec 8)) (last x : BitVec 8) :
    orLast (front ++ [last]) x = front ++ [last ||| x] := by
  simp [orLast, List.modify_eq_take_cons_drop]

/-- The mask of `WriteBit` is the top bit of a byte moved to the free position. -/
theorem bitMask_eq (c : Nat) (hpos : 0 < c) (hc : c ≤ 8) : 1#8 <<< (c - 1) = 128#8 >>> (8 - c) := by
  interval_cases c <;> decide

theorem writeBit_written {b : BitStream} {bits : List Bool} (h : Written b bits) (bit : Bool) :
    Written (b.writeBit bit) (bits ++ [bit]) := by
  obtain ⟨hw, hroom⟩ := openByte_written h
  have hc := hw.1
  refine ⟨by simp only [writeBit]; omega, ?_⟩
  obtain ⟨front, last, p, hs, hp, hl, hbits⟩ := written_last hw hroom
  have hfill : List.replicate b.openByte.count false =
      false :: List.replicate (b.openByte.count - 1) false := by
    rw [← List.replicate_succ]
    congr 1
    omega
  cases bit with
  | false =>
    simp only [writeBit, Bool.false_eq_true, if_false, hw.2, hfill]
    simp
  | true =>
    have hback : 8 - p.length = b.openByte.count := by omega
    have hor := byteBits_or_shiftRight last 128#8 p (by rw [hback]; exact hl)
    have htop : (byteBits 128#8).take (8 - p.length) =
        true :: List.replicate (b.openByte.count - 1) false := by
      have h128 : byteBits 128#8 = true :: List.replicate 7 false := by decide
      have hsucc : b.openByte.count = (b.openByte.count - 1) + 1 := by omega
      rw [hback, h128, hsucc, List.take_succ_cons, List.take_replicate]
      simp
      omega
    have hshift : p.length = 8 - b.openByte.count := hp
    simp only [writeBit, if_true, hs, orLast_append, bytesBits_append, bytesBits_cons,
      bytesBits_nil, List.append_nil, bitMask_eq _ hroom hc, ← hshift, hor, htop, hbits]
    simp

theorem writeByte_written {b : BitStream} {bits : List Bool} (h : Written b bits)
    (byt : BitVec 8) : Written (b.writeByte byt) (bits ++ byteBits byt) := by
  obtain ⟨hw, hroom⟩ := openByte_written h
  have hc := hw.1
  refine ⟨hc, ?_⟩
  obtain ⟨front, last, p, hs, hp, hl, hbits⟩ := written_last hw hroom
  have hback : 8 - p.length = b.openByte.count := by omega
  have hor := byteBits_or_shiftRight last byt p (by rw [hback]; exact hl)
  have hshl := byteBits_shiftLeft byt b.openByte.count hc
  simp only [writeByte, hs, orLast_append, bytesBits_append, bytesBits_cons, bytesBits_nil,
    List.append_nil, ← hp, hor, hshl, hback, hbits, List.append_assoc]
  rw [← List.append_assoc (List.take _ _), List.take_append_drop]

theorem writeBytes_written {b : BitStream} {bits : List Bool} (h : Written b bits)
    (bs : List (BitVec 8)) : Written (b.writeBytes bs) (bits ++ bytesBits bs) := by
  induction bs generalizing b bits with
  | nil => simpa [writeBytes] using h
  | cons x xs ih =>
    have hx := ih (writeByte_written h x)
    rw [List.append_assoc] at hx
    exact hx

theorem byteBits_top (u : BitVec 64) : byteBits ((u >>> 56).setWidth 8) = (bitsOf u 64).take 8 := by
  have hsplit := bitsOf_add u 8 56
  rw [show 8 + 56 = 64 from rfl] at hsplit
  rw [hsplit, List.take_left' (length_bitsOf _ _), byteBits_setWidth]

theorem msb_eq_top (u : BitVec 64) : [u.msb] = (bitsOf u 64).take 1 := by
  simp [bitsOf, BitVec.msb_eq_getLsbD_last]

/-- Writing leading bits one block after another writes them all. -/
theorem take_block (u : BitVec 64) (k n : Nat) (h : n + k ≤ 64) :
    (bitsOf u 64).take k ++ (bitsOf (u <<< k) 64).take n = (bitsOf u 64).take (n + k) := by
  rw [bitsOf_shiftLeft u k (by omega), List.take_append_of_le_length (by simp; omega),
    Nat.add_comm n k, List.take_add]

theorem writeByteLoop_written (k : Nat) (hk : 8 * k ≤ 64) (u : BitVec 64)
    {b : BitStream} {bits : List Bool} (h : Written b bits) :
    (writeByteLoop k u b).1 = u <<< (8 * k) ∧
      Written (writeByteLoop k u b).2 (bits ++ (bitsOf u 64).take (8 * k)) := by
  induction k generalizing u b bits with
  | zero => simpa [writeByteLoop] using h
  | succ k ih =>
    have hbyte := writeByte_written h ((u >>> 56).setWidth 8)
    rw [byteBits_top] at hbyte
    obtain ⟨hu, hw⟩ := ih (by omega) (u <<< 8) hbyte
    rw [List.append_assoc, take_block u 8 (8 * k) (by omega)] at hw
    refine ⟨?_, hw⟩
    rw [writeByteLoop, hu, ← BitVec.shiftLeft_add]
    congr 1
    omega

theorem writeBitLoop_written (k : Nat) (hk : k ≤ 64) (u : BitVec 64)
    {b : BitStream} {bits : List Bool} (h : Written b bits) :
    Written (writeBitLoop k u b) (bits ++ (bitsOf u 64).take k) := by
  induction k generalizing u b bits with
  | zero => simpa [writeBitLoop] using h
  | succ k ih =>
    have hbit := writeBit_written h u.msb
    rw [msb_eq_top] at hbit
    have hw := ih (by omega) (u <<< 1) hbit
    rwa [List.append_assoc, take_block u 1 k (by omega)] at hw

/-- `WriteBits` appends the low `nbits` bits of its word, highest first. -/
theorem writeBits_written {b : BitStream} {bits : List Bool} (h : Written b bits) (u : BitVec 64)
    (nbits : Nat) (hn : nbits ≤ 64) : Written (b.writeBits u nbits) (bits ++ bitsOf u nbits) := by
  obtain ⟨hu, hw⟩ := writeByteLoop_written (nbits / 8) (by omega) (u <<< (64 - nbits)) h
  have hrest := writeBitLoop_written (nbits % 8) (by omega)
    (writeByteLoop (nbits / 8) (u <<< (64 - nbits)) b).1 hw
  rw [congrArg (bitsOf · 64) hu, List.append_assoc, take_block _ _ _ (by omega), Nat.mod_add_div,
    bitsOf_shiftLeft u (64 - nbits) (by omega), drop_bitsOf u nbits 64 hn,
    List.take_left' (length_bitsOf u nbits)] at hrest
  exact hrest

/-- Going from `b` to `b'` appends `enc`, whatever was written before. -/
def Emits (b b' : BitStream) (enc : List Bool) : Prop :=
  ∀ bits, Written b bits → Written b' (bits ++ enc)

theorem emits_refl (b : BitStream) : Emits b b [] := by
  intro bits h
  rwa [List.append_nil]

theorem emits_trans {b b' b'' : BitStream} {enc enc' : List Bool}
    (first : Emits b b' enc) (second : Emits b' b'' enc') : Emits b b'' (enc ++ enc') := by
  intro bits h
  rw [← List.append_assoc]
  exact second _ (first _ h)

theorem writeBit_emits (b : BitStream) (bit : Bool) : Emits b (b.writeBit bit) [bit] :=
  fun _ h => writeBit_written h bit

theorem writeBits_emits (b : BitStream) (u : BitVec 64) {n : Nat} (hn : n ≤ 64) :
    Emits b (b.writeBits u n) (bitsOf u n) :=
  fun _ h => writeBits_written h u n hn

theorem writeBytes_emits (b : BitStream) (bs : List (BitVec 8)) :
    Emits b (b.writeBytes bs) (bytesBits bs) :=
  fun _ h => writeBytes_written h bs

/-! ### How much is written -/

theorem bitsWritten_writeBit (b : BitStream) (bit : Bool) :
    (b.writeBit bit).bitsWritten = b.bitsWritten + 1 := by
  unfold writeBit openByte
  split <;> rfl

theorem bitsWritten_writeByte (b : BitStream) (byt : BitVec 8) :
    (b.writeByte byt).bitsWritten = b.bitsWritten + 8 := by
  unfold writeByte openByte
  split <;> rfl

theorem bitsWritten_writeBytes (b : BitStream) (bs : List (BitVec 8)) :
    (b.writeBytes bs).bitsWritten = b.bitsWritten + 8 * bs.length := by
  induction bs generalizing b with
  | nil => rfl
  | cons byt bs ih =>
    have hrest := ih (b.writeByte byt)
    rw [bitsWritten_writeByte] at hrest
    rw [List.length_cons, Nat.mul_succ]
    exact hrest.trans (by omega)

theorem bitsWritten_writeByteLoop (k : Nat) (u : BitVec 64) (b : BitStream) :
    (writeByteLoop k u b).2.bitsWritten = b.bitsWritten + 8 * k := by
  induction k generalizing u b with
  | zero => rfl
  | succ k ih =>
    rw [writeByteLoop, ih, bitsWritten_writeByte]
    omega

theorem bitsWritten_writeBitLoop (k : Nat) (u : BitVec 64) (b : BitStream) :
    (writeBitLoop k u b).bitsWritten = b.bitsWritten + k := by
  induction k generalizing u b with
  | zero => rfl
  | succ k ih =>
    rw [writeBitLoop, ih, bitsWritten_writeBit]
    omega

theorem bitsWritten_writeBits (b : BitStream) (u : BitVec 64) (nbits : Nat) :
    (b.writeBits u nbits).bitsWritten = b.bitsWritten + nbits := by
  rw [writeBits, bitsWritten_writeBitLoop, bitsWritten_writeByteLoop]
  omega

/-- Going from `b` to `b'` appends some bits and counts them. -/
def Grows (b b' : BitStream) : Prop :=
  ∃ enc, Emits b b' enc ∧ b'.bitsWritten = b.bitsWritten + enc.length

theorem grows_refl (b : BitStream) : Grows b b := ⟨[], emits_refl b, rfl⟩

theorem grows_trans {b b' b'' : BitStream} (first : Grows b b') (second : Grows b' b'') :
    Grows b b'' := by
  obtain ⟨enc, hemit, hcount⟩ := first
  obtain ⟨enc', hemit', hcount'⟩ := second
  refine ⟨_, emits_trans hemit hemit', ?_⟩
  rw [hcount', hcount, List.length_append, Nat.add_assoc]

theorem writeBit_grows (b : BitStream) (bit : Bool) : Grows b (b.writeBit bit) :=
  ⟨_, writeBit_emits b bit, bitsWritten_writeBit b bit⟩

theorem writeBits_grows (b : BitStream) (u : BitVec 64) {n : Nat} (hn : n ≤ 64) :
    Grows b (b.writeBits u n) := by
  refine ⟨_, writeBits_emits b u hn, ?_⟩
  rw [bitsWritten_writeBits, length_bitsOf]

theorem writeBytes_grows (b : BitStream) (bs : List (BitVec 8)) : Grows b (b.writeBytes bs) := by
  refine ⟨_, writeBytes_emits b bs, ?_⟩
  rw [bitsWritten_writeBytes, length_bytesBits]

/-! ### What a reader has left -/

/-- The unread bits: the leading `count` bits of the first byte, whose other bits
have been shifted to zero, and every later byte. A first byte with `count = 0`
has been read already. -/
def Remains (b : BitStream) (bits : List Bool) : Prop :=
  match b.stream with
  | [] => bits = []
  | c :: cs =>
    if b.count = 0 then bits = bytesBits cs
    else ∃ p, p.length = b.count ∧ byteBits c = p ++ List.replicate (8 - b.count) false ∧
      bits = p ++ bytesBits cs

theorem remains_newBReader (bs : List (BitVec 8)) : Remains (newBReader bs) (bytesBits bs) := by
  cases bs with
  | nil => rfl
  | cons c cs =>
    simp only [Remains, newBReader]
    exact ⟨byteBits c, by simp, by simp, rfl⟩

/-- While bits are left, a reader can stand at a byte with unread bits. -/
theorem nextByte_remains {b : BitStream} {x : Bool} {xs : List Bool} (h : Remains b (x :: xs)) :
    ∃ b' c cs p, b.nextByte = .ok b' ∧ b'.stream = c :: cs ∧ 0 < b'.count ∧ b'.count ≤ 8 ∧
      p.length = b'.count ∧ byteBits c = p ++ List.replicate (8 - b'.count) false ∧
      x :: xs = p ++ bytesBits cs := by
  cases hs : b.stream with
  | nil => simp [Remains, hs] at h
  | cons c cs =>
    by_cases h0 : b.count = 0
    · simp only [Remains, hs, h0, if_true] at h
      cases cs with
      | nil => simp at h
      | cons d ds =>
        refine ⟨{ b with stream := d :: ds, count := 8 }, d, ds, byteBits d, ?_, rfl, by simp,
          by simp, by simp, by simp, h⟩
        simp [nextByte, hs, h0]
    · simp only [Remains, hs, h0, if_false] at h
      obtain ⟨p, hp, hc, hx⟩ := h
      have hle : b.count ≤ 8 := by
        have hlen := congrArg List.length hc
        simp at hlen
        omega
      refine ⟨b, c, cs, p, ?_, hs, by omega, hle, hp, hc, hx⟩
      simp [nextByte, hs, h0]

theorem readBit_consumes (x : Bool) : Consumes Remains readBit [x] x := by
  intro b rest h
  rw [List.singleton_append] at h
  obtain ⟨b', c, cs, p, hnext, hs, hpos, hle, hp, hc, hx⟩ := nextByte_remains h
  cases p with
  | nil => simp at hp; omega
  | cons y p =>
    rw [List.cons_append, List.cons.injEq] at hx
    obtain ⟨rfl, hrest⟩ := hx
    have hmsb : c.msb = x := by
      have hhead := congrArg List.head? hc
      simpa [byteBits, bitsOf, BitVec.msb_eq_getLsbD_last] using hhead
    refine ⟨{ b' with stream := c <<< 1 :: cs, count := b'.count - 1 }, ?_, ?_⟩
    · change readBit b = _
      simp only [readBit, hnext, hs, hmsb]
    · have hlen : p.length = b'.count - 1 := by simp at hp; omega
      by_cases hone : b'.count - 1 = 0
      · have hnil : p = [] := List.eq_nil_of_length_eq_zero (by omega)
        simp only [Remains, hone, if_true]
        simpa [hnil] using hrest
      · simp only [Remains, hone, if_false]
        refine ⟨p, hlen, ?_, by simpa using hrest⟩
        rw [byteBits_shiftLeft c 1 (by decide), hc, List.cons_append, List.drop_succ_cons,
          List.drop_zero, List.append_assoc, List.replicate_append_replicate]
        congr 2
        omega

theorem readByte_consumes (x : BitVec 8) : Consumes Remains readByte (byteBits x) x := by
  intro b rest h
  have hcons : byteBits x ++ rest = x.getLsbD 7 :: (bitsOf x 7 ++ rest) := rfl
  rw [hcons] at h
  obtain ⟨b', c, cs, p, hnext, hs, hpos, hle, hp, hc, hx⟩ := nextByte_remains h
  rw [← hcons] at hx
  have hlen := congrArg List.length hx
  simp at hlen
  by_cases h8 : b'.count = 8
  · obtain ⟨hbyte, hrest⟩ := List.append_inj hx (by rw [length_byteBits, hp, h8])
    have hcx : c = x := by
      apply byteBits_injective
      rw [hc, h8, hbyte]
      simp
    refine ⟨{ b' with count := 0 }, ?_, ?_⟩
    · change readByte b = _
      simp only [readByte, hnext, hs, h8, if_true, hcx]
    · simp only [Remains, hs, if_true]
      exact hrest
  · cases cs with
    | nil => simp at hlen; omega
    | cons d ds =>
      have hsplit : p ++ bytesBits (d :: ds) =
          (p ++ (byteBits d).take (8 - b'.count)) ++
            ((byteBits d).drop (8 - b'.count) ++ bytesBits ds) := by
        rw [bytesBits_cons, List.append_assoc, ← List.append_assoc (List.take _ _),
          List.take_append_drop]
      rw [hsplit] at hx
      obtain ⟨hbyte, hrest⟩ := List.append_inj hx (by simp; omega)
      have hval : c ||| d >>> b'.count = x := by
        apply byteBits_injective
        have hor := byteBits_or_shiftRight c d p (by rw [hp]; exact hc)
        rw [hp] at hor
        rw [hor, hbyte]
      refine ⟨{ b' with stream := d <<< (8 - b'.count) :: ds }, ?_, ?_⟩
      · change readByte b = _
        simp only [readByte, hnext, hs, h8, if_false, hval]
      · simp only [Remains, show ¬ b'.count = 0 by omega, if_false]
        refine ⟨(byteBits d).drop (8 - b'.count), by simp; omega, ?_, hrest⟩
        exact byteBits_shiftLeft d (8 - b'.count) (by omega)

theorem readByteLoop_consumes {w : Nat} (x : BitVec w) (k : Nat) (u : BitVec 64) :
    Consumes Remains (readByteLoop k u) (bitsOf x (8 * k)) (pushBits u (bitsOf x (8 * k))) := by
  induction k generalizing u with
  | zero => exact consumes_pure u
  | succ k ih =>
    have hlen : 8 * (k + 1) = 8 + 8 * k := by omega
    rw [hlen, bitsOf_add, pushBits_append, ← byteBits_setWidth, pushBits_byteBits]
    exact consumes_bind (readByte_consumes _) (ih _)

theorem readBitLoop_consumes {w : Nat} (x : BitVec w) (k : Nat) (u : BitVec 64) :
    Consumes Remains (readBitLoop k u) (bitsOf x k) (pushBits u (bitsOf x k)) := by
  induction k generalizing u with
  | zero => exact consumes_pure u
  | succ k ih =>
    rw [bitsOf, pushBits_cons, ← List.singleton_append]
    exact consumes_bind (readBit_consumes _) (ih _)

/-- `ReadBits` rebuilds the low `n` bits that `WriteBits` laid down. -/
theorem readBits_consumes {w : Nat} (x : BitVec w) (n : Nat) :
    Consumes Remains (readBits n) (bitsOf x n) (pushBits 0#64 (bitsOf x n)) := by
  have hn : n = 8 * (n / 8) + n % 8 := by omega
  have hsplit : bitsOf x n = bitsOf (x >>> (n % 8)) (8 * (n / 8)) ++ bitsOf x (n % 8) := by
    conv_lhs => rw [hn, bitsOf_add]
  rw [hsplit, pushBits_append]
  exact consumes_bind (readByteLoop_consumes _ _ _) (readBitLoop_consumes _ _ _)

/-- A word whose set bits all lie below `n` is read back whole. -/
theorem readBits_consumes_word {x : BitVec 64} {n : Nat} (fits : x.toNat < 2 ^ n) :
    Consumes Remains (readBits n) (bitsOf x n) x := by
  have h := readBits_consumes x n
  rwa [pushBits_bitsOf fits] at h

theorem readByteList_consumes (bs : List (BitVec 8)) :
    Consumes Remains (readByteList bs.length) (bytesBits bs) bs := by
  induction bs with
  | nil => exact consumes_pure []
  | cons c cs ih =>
    exact consumes_bind (readByte_consumes c)
      (consumes_bind_nil ih (consumes_pure (c :: cs)))

/-- Enough unread bits mean enough bytes for the length check of `ReadBytes`. -/
theorem remains_length {b : BitStream} {bits : List Bool} (h : Remains b bits) :
    bits.length ≤ 8 * b.stream.length := by
  cases hs : b.stream with
  | nil => simp [Remains, hs] at h; simp [h]
  | cons c cs =>
    by_cases h0 : b.count = 0
    · simp only [Remains, hs, h0, if_true] at h
      simp [h]
    · simp only [Remains, hs, h0, if_false] at h
      obtain ⟨p, _, hc, hx⟩ := h
      have hlen := congrArg List.length hc
      simp at hlen
      simp [hx]
      omega

theorem readBytes_consumes (bs : List (BitVec 8)) (some : bs ≠ []) :
    Consumes Remains (readBytes bs.length) (bytesBits bs) bs := by
  intro b rest h
  have hlen := remains_length h
  rw [List.length_append, length_bytesBits] at hlen
  have hpos : 0 < bs.length := List.length_pos_of_ne_nil some
  have hne : b.stream ≠ [] := by
    intro hnil
    rw [hnil, List.length_nil] at hlen
    omega
  obtain ⟨b', hrun, hrem⟩ := readByteList_consumes bs b rest h
  refine ⟨b', ?_, hrem⟩
  change readBytes bs.length b = _
  have hlong : ¬ b.stream.length < bs.length := by omega
  change readByteList bs.length b = _ at hrun
  simpa [readBytes, hne, hlong] using hrun

end BitStream

end Bitstream
