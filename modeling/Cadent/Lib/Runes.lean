import Mathlib.Data.String.Basic

/-!
# The runes of a byte string

A string in Go is any list of bytes. A loop over it reads one UTF-8 sequence after another, and
where there is none it reads the replacement character and moves on by one byte. So what is put
together again from the runes is the string only if that is UTF-8.
-/

namespace Runes

/-- `utf8.RuneError`. -/
def runeError : Char := '\uFFFD'

/-- The rune at the start of some bytes. -/
def firstRune (bytes : List UInt8) : Option Char := bytes.toByteArray.utf8DecodeChar? 0

/-- The runes of what is left after `skip` more bytes. -/
def runesFrom (skip : Nat) : List UInt8 → List Char
  | [] => []
  | b :: bs =>
    match skip with
    | skip + 1 => runesFrom skip bs
    | 0 =>
      match firstRune (b :: bs) with
      | some c => c :: runesFrom (c.utf8Size - 1) bs
      | none => runeError :: runesFrom 0 bs

/-- What `range` goes over. -/
def runes (bytes : List UInt8) : List Char := runesFrom 0 bytes

/-- The bytes of a text that is put together from runes. -/
def bytesOf (cs : List Char) : List UInt8 := cs.flatMap String.utf8EncodeChar

theorem bytesOf_append (cs cs' : List Char) : bytesOf (cs ++ cs') = bytesOf cs ++ bytesOf cs' :=
  List.flatMap_append

theorem bytesOf_cons (c : Char) (cs : List Char) :
    bytesOf (c :: cs) = String.utf8EncodeChar c ++ bytesOf cs :=
  List.flatMap_cons

theorem bytesOf_intercalate (sep : List Char) (parts : List (List Char)) :
    bytesOf (sep.intercalate parts) = (bytesOf sep).intercalate (parts.map bytesOf) := by
  induction parts with
  | nil => rfl
  | cons part parts ih =>
    cases parts with
    | nil => simp
    | cons next parts =>
      rw [List.intercalate_cons_cons, bytesOf_append, bytesOf_append, ih]
      simp only [List.map_cons, List.intercalate_cons_cons]

theorem runesFrom_append {skip : Nat} {passed : List UInt8} (length : passed.length = skip)
    (rest : List UInt8) : runesFrom skip (passed ++ rest) = runes rest := by
  induction passed generalizing skip with
  | nil => rw [← length]; rfl
  | cons b bs ih =>
    rw [← length]
    exact ih rfl

theorem firstRune_append (c : Char) (rest : List UInt8) :
    firstRune (String.utf8EncodeChar c ++ rest) = some c := by
  rw [firstRune, List.toByteArray_append]
  exact ByteArray.utf8DecodeChar?_utf8EncodeChar_append

theorem runes_cons (c : Char) (rest : List UInt8) :
    runes (String.utf8EncodeChar c ++ rest) = c :: runes rest := by
  have first := firstRune_append c rest
  have length := String.length_utf8EncodeChar c
  have pos := c.utf8Size_pos
  generalize String.utf8EncodeChar c = encoded at first length ⊢
  cases encoded with
  | nil =>
    rw [List.length_nil] at length
    omega
  | cons b bs =>
    rw [List.length_cons] at length
    rw [List.cons_append] at first ⊢
    rw [runes, runesFrom, first]
    exact congrArg (c :: ·) (runesFrom_append (by omega) rest)

theorem runes_bytesOf (cs : List Char) : runes (bytesOf cs) = cs := by
  induction cs with
  | nil => rfl
  | cons c cs ih => rw [bytesOf_cons, runes_cons, ih]

/-- The string is UTF-8. -/
def Valid (bytes : List UInt8) : Prop := bytesOf (runes bytes) = bytes

instance (bytes : List UInt8) : Decidable (Valid bytes) :=
  inferInstanceAs (Decidable (_ = _))

theorem valid_bytesOf (cs : List Char) : Valid (bytesOf cs) := by
  rw [Valid, runes_bytesOf]

theorem valid_of_bytesOf_eq {cs : List Char} {bytes : List UInt8} (same : bytesOf cs = bytes) :
    Valid bytes :=
  same ▸ valid_bytesOf cs

end Runes
