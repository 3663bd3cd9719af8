import Cadent.Lib.Binary64
import Cadent.Utils.Bitstream

/-!
# Points, times and iterators shared by the series formats

A point is what `AddPoint` takes and what `Values` returns. Times are `int64`:
up to `2147483647` they count seconds, beyond it nanoseconds. Floats are bit
patterns. An iterator is drained by calling `Next` until it answers false;
`Yields` says which values it hands out on the way.
-/

namespace TimeSeries

open Binary64 Bitstream

/-- `(t, min, max, last, sum, count)`, the floats by their bits. -/
structure Point where
  t : BitVec 64
  min : Float64
  max : Float64
  last : Float64
  sum : Float64
  count : BitVec 64
  deriving DecidableEq, Repr

structure Options where
  numValues : Int
  highTimeResolution : Bool
  handler : String
  deriving DecidableEq, Repr

def newDefaultOptions : Options := ⟨5, false, "n/a"⟩

inductive SeriesError where
  | io (e : IoError)
  | message (text : String)
  /-- An index out of range, on which the source panics. -/
  | panic
  deriving DecidableEq, Repr

/-! ### Splitting and joining times -/

/-- The second part of a time as an integer, before it is cut to `uint32`. -/
def seconds (t : BitVec 64) : Int :=
  if t.toInt ≤ 2147483647 then t.toInt else t.toInt / 1000000000

def nanos (t : BitVec 64) : Int :=
  if t.toInt ≤ 2147483647 then 0 else t.toInt % 1000000000

def splitNano (t : BitVec 64) : BitVec 32 × BitVec 32 :=
  if t.toInt ≤ 2147483647 then (t.setWidth 32, 0#32)
  else (BitVec.ofInt 32 (t.toInt / 1000000000), BitVec.ofInt 32 (t.toInt % 1000000000))

def combineSecNano (ts tns : BitVec 32) : BitVec 64 :=
  ts.setWidth 64 * 1000000000#64 + tns.setWidth 64

def sameFloatVals (min max last sum : Float64) : Bool :=
  feq min max && feq min last && feq min sum

/-- The small form keeps one value: the count is one or the floats compare equal. -/
def Point.isSmall (p : Point) : Bool :=
  p.count == 1#64 || sameFloatVals p.min p.max p.last p.sum

theorem splitNano_sec (t : BitVec 64) : (splitNano t).1 = BitVec.ofInt 32 (seconds t) := by
  by_cases h : t.toInt ≤ 2147483647
  · simp only [splitNano, seconds, h, if_true]
    apply BitVec.eq_of_toNat_eq
    have ht := t.isLt
    rw [BitVec.toNat_setWidth, BitVec.toNat_ofInt, BitVec.toInt_eq_toNat_cond]
    split <;> omega
  · simp [splitNano, seconds, h]

theorem splitNano_nano (t : BitVec 64) : (splitNano t).2 = BitVec.ofInt 32 (nanos t) := by
  by_cases h : t.toInt ≤ 2147483647
  · simp [splitNano, nanos, h]
  · simp [splitNano, nanos, h]

theorem nanos_bounds (t : BitVec 64) : 0 ≤ nanos t ∧ nanos t < 1000000000 := by
  by_cases h : t.toInt ≤ 2147483647
  · simp [nanos, h]
  · simp only [nanos, h, if_false]
    omega

theorem splitNano_sec_toNat {t : BitVec 64} (fits : 0 ≤ seconds t ∧ seconds t < 2 ^ 32) :
    ((splitNano t).1.toNat : Int) = seconds t := by
  rw [splitNano_sec, BitVec.toNat_ofInt]
  omega

theorem splitNano_nano_toNat (t : BitVec 64) : ((splitNano t).2.toNat : Int) = nanos t := by
  have h := nanos_bounds t
  rw [splitNano_nano, BitVec.toNat_ofInt]
  omega

/-! ### The time a decoded point carries -/

/-- The nanosecond time of `t`, exactly `t` unless it was given in seconds. -/
def wholeTime (t : BitVec 64) : BitVec 64 :=
  if t.toInt ≤ 2147483647 then BitVec.ofInt 64 (t.toInt * 1000000000) else t

/-- The time of `t` cut to whole seconds, in nanoseconds. -/
def secondTime (t : BitVec 64) : BitVec 64 := BitVec.ofInt 64 (seconds t * 1000000000)

def pointTime (high : Bool) (t : BitVec 64) : BitVec 64 :=
  if high then wholeTime t else secondTime t

/-- What a decoder should hand out for a point at time `t`: all of it, or the small form. -/
def Point.decodedAt (p : Point) (t : BitVec 64) : Point :=
  if p.isSmall then ⟨t, p.sum, p.sum, p.sum, p.sum, 1#64⟩ else { p with t := t }

def Point.decoded (high : Bool) (p : Point) : Point := p.decodedAt (pointTime high p.t)

theorem decodedAt_t (p : Point) (t : BitVec 64) : (p.decodedAt t).t = t := by
  unfold Point.decodedAt
  split <;> rfl

theorem combineSecNano_toNat (ts tns : BitVec 32) :
    (combineSecNano ts tns).toNat = ts.toNat * 1000000000 + tns.toNat := by
  have h1 : ts.toNat < 2 ^ 32 := ts.isLt
  have h2 : tns.toNat < 2 ^ 32 := tns.isLt
  have hts : (ts.setWidth 64).toNat = ts.toNat := BitVec.toNat_setWidth_of_le (by omega)
  have htns : (tns.setWidth 64).toNat = tns.toNat := BitVec.toNat_setWidth_of_le (by omega)
  have hnano : (1000000000#64).toNat = 1000000000 := by decide
  rw [combineSecNano, BitVec.toNat_add, BitVec.toNat_mul, hts, htns, hnano]
  omega

theorem ofInt_toNat_of_fits {i : Int} (low : 0 ≤ i) (high : i < 2 ^ 64) :
    ((BitVec.ofInt 64 i).toNat : Int) = i := by
  rw [BitVec.toNat_ofInt, Int.emod_eq_of_lt low (by exact_mod_cast high), Int.toNat_of_nonneg low]

theorem combineSecNano_second {t : BitVec 64} (fits : 0 ≤ seconds t ∧ seconds t < 2 ^ 32) :
    combineSecNano (splitNano t).1 0#32 = secondTime t := by
  apply BitVec.eq_of_toNat_eq
  have hs := splitNano_sec_toNat fits
  have hzero : (0#32).toNat = 0 := by decide
  have htime := ofInt_toNat_of_fits (i := seconds t * 1000000000) (by omega) (by omega)
  rw [combineSecNano_toNat, secondTime, hzero]
  omega

theorem combineSecNano_whole {t : BitVec 64} (fits : 0 ≤ seconds t ∧ seconds t < 2 ^ 32) :
    combineSecNano (splitNano t).1 (splitNano t).2 = wholeTime t := by
  apply BitVec.eq_of_toNat_eq
  have hs := splitNano_sec_toNat fits
  have hn := splitNano_nano_toNat t
  have ht := t.isLt
  rw [combineSecNano_toNat]
  unfold seconds at hs fits
  unfold nanos at hn
  unfold wholeTime
  split at hs
  case isTrue h =>
    rw [if_pos h] at hn fits ⊢
    have htime := ofInt_toNat_of_fits (i := t.toInt * 1000000000) (by omega) (by omega)
    omega
  case isFalse h =>
    rw [if_neg h] at hn fits ⊢
    have hint : t.toInt = t.toNat := by
      rw [BitVec.toInt_eq_toNat_cond] at h ⊢
      split at h <;> omega
    omega

/-! ### Draining an iterator -/

class TimeSeriesIter (σ : Type) where
  next : σ → Bool × σ
  values : σ → Option Point
  error : σ → Option SeriesError

open TimeSeriesIter

/-- `Next` is true once for each listed value, which `Values` then returns, and
false after the last one, leaving the iterator in the final state. -/
def Yields {σ : Type} [TimeSeriesIter σ] : σ → List Point → σ → Prop
  | it, [], it' => next it = (false, it')
  | it, v :: vs, it' => ∃ it1, next it = (true, it1) ∧ values it1 = some v ∧ Yields it1 vs it'

theorem yields_unique {σ : Type} [TimeSeriesIter σ] {it it1 it2 : σ} {vs ws : List Point}
    (left : Yields it vs it1) (right : Yields it ws it2) : vs = ws ∧ it1 = it2 := by
  induction vs generalizing it ws with
  | nil =>
    cases ws with
    | nil => exact ⟨rfl, (Prod.mk.inj (left.symm.trans right)).2⟩
    | cons w ws =>
      obtain ⟨it3, hnext, -⟩ := right
      exact absurd (Prod.mk.inj (left.symm.trans hnext)).1 Bool.false_ne_true
  | cons v vs ih =>
    obtain ⟨it3, hnext, hval, hrest⟩ := left
    cases ws with
    | nil => exact absurd (Prod.mk.inj (right.symm.trans hnext)).1 Bool.false_ne_true
    | cons w ws =>
      obtain ⟨it4, hnext', hval', hrest'⟩ := right
      obtain rfl : it3 = it4 := (Prod.mk.inj (hnext.symm.trans hnext')).2
      obtain ⟨rfl, hit⟩ := ih hrest hrest'
      exact ⟨by rw [Option.some.inj (hval.symm.trans hval')], hit⟩

/-- Opening the iterator succeeds, and draining it gives `vs` and no error. -/
def Drains {σ : Type} [TimeSeriesIter σ] (opened : Except SeriesError σ) (vs : List Point) : Prop :=
  ∃ it it', opened = .ok it ∧ Yields it vs it' ∧ error it' = none

theorem drains_unique {σ : Type} [TimeSeriesIter σ] {opened : Except SeriesError σ}
    {vs ws : List Point} (left : Drains opened vs) (right : Drains opened ws) : vs = ws := by
  obtain ⟨it, _, hopen, hyields, -⟩ := left
  obtain ⟨it', _, hopen', hyields', -⟩ := right
  obtain rfl : it = it' := Except.ok.inj (hopen.symm.trans hopen')
  exact (yields_unique hyields hyields').1

end TimeSeries
