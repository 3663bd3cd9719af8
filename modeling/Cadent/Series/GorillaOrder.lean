import Cadent.Series.Gorilla

/-!
# The order in which the gorilla encoder takes points

`AddTime` means to refuse a point that goes back in time, but it compares a `uint32`
difference with zero. The calls of a series with at least one column therefore all
succeed, whatever their times are. A series without columns panics on its first value.
-/

namespace Gorilla

open Binary64 Bitstream BitStream Consume TimeSeries

namespace GorillaTimeSeries

/-! ### When a call succeeds -/

/-- The header makes one column for each declared value, and no call changes their number. -/
def Columned (n : BitVec 8) (s : GorillaTimeSeries) : Prop :=
  s.numValues = n ∧ s.columns.length = n.toNat

theorem columned_newGoriallaTimeSeries (t0 : BitVec 64) (o : Options) :
    Columned (BitVec.ofInt 8 o.numValues) (newGoriallaTimeSeries t0 o) := by
  refine ⟨rfl, ?_⟩
  simp [newGoriallaTimeSeries, writeHeader]

theorem columned_addNano {n : BitVec 8} {s : GorillaTimeSeries} (shape : Columned n s)
    (utms : BitVec 32) : Columned n (s.addNano utms) := by
  unfold addNano
  split
  · exact shape
  · exact shape

theorem addTime_ok {n : BitVec 8} {s : GorillaTimeSeries} (shape : Columned n s)
    (t : BitVec 64) : ∃ s', s.addTime t = .ok s' ∧ Columned n s' := by
  unfold addTime
  dsimp only
  split
  · refine ⟨_, rfl, columned_addNano ?_ _⟩
    exact shape
  · rw [if_neg BitVec.not_lt_zero]
    refine ⟨_, rfl, columned_addNano ?_ _⟩
    exact shape

theorem addValue_ok {n : BitVec 8} {s : GorillaTimeSeries} (shape : Columned n s) {idx : Nat}
    (inside : idx < n.toNat) (v : Float64) (isfirst : Bool) :
    ∃ s', s.addValue idx v isfirst = .ok s' ∧ Columned n s' := by
  obtain ⟨hnum, hlen⟩ := shape
  unfold addValue
  rw [List.getElem?_eq_getElem (by omega)]
  dsimp only
  split
  · exact ⟨_, rfl, hnum, by simpa using hlen⟩
  · exact ⟨_, rfl, hnum, by simpa using hlen⟩

theorem addValues_ok {n : BitVec 8} (vs : List Float64) {s : GorillaTimeSeries}
    (shape : Columned n s) {idx : Nat} (inside : idx + vs.length ≤ n.toNat) (isfirst : Bool) :
    ∃ s', s.addValues idx vs isfirst = .ok s' ∧ Columned n s' := by
  induction vs generalizing s idx with
  | nil => exact ⟨s, rfl, shape⟩
  | cons v vs ih =>
    rw [List.length_cons] at inside
    obtain ⟨s1, hvalue, hshape⟩ := addValue_ok shape (by omega : idx < n.toNat) v isfirst
    obtain ⟨s2, hvalues, hshape2⟩ := ih hshape (by omega : idx + 1 + vs.length ≤ n.toNat)
    refine ⟨s2, ?_, hshape2⟩
    rw [addValues, hvalue]
    exact hvalues

theorem length_columnValues {n : BitVec 8} (some_column : n ≠ 0#8) (p : Point) :
    (columnValues n p).length ≤ n.toNat := by
  have hpos : n.toNat ≠ 0 := fun hzero => some_column (BitVec.eq_of_toNat_eq hzero)
  unfold columnValues
  split <;> simp <;> omega

theorem addPoint_ok {n : BitVec 8} (some_column : n ≠ 0#8) {s : GorillaTimeSeries}
    (shape : Columned n s) (p : Point) : ∃ s', s.addPoint p = .ok s' ∧ Columned n s' := by
  obtain ⟨s1, htime, hshape⟩ := addTime_ok shape p.t
  unfold addPoint
  rw [htime]
  change ∃ s', (if (s1.smartEncoding && decide (3#8 < s1.numValues)) && p.isSmall then _ else _) =
    Except.ok s' ∧ _
  split
  case isTrue hsmall =>
    rw [Bool.and_eq_true, Bool.and_eq_true, decide_eq_true_eq, hshape.1] at hsmall
    have hinside : 3 < n.toNat := BitVec.lt_def.mp hsmall.1.2
    have hbit : Columned n { s1 with bw := s1.bw.writeBit false } := hshape
    obtain ⟨s2, hvalue, hshape2⟩ := addValue_ok hbit hinside p.sum (s.curTime == 0#32)
    rw [hvalue]
    exact ⟨_, rfl, hshape2⟩
  case isFalse =>
    have hbit : ∀ smart, Columned n (if smart = true then
        { s1 with bw := s1.bw.writeBit true } else s1) := by
      intro smart
      split
      · exact hshape
      · exact hshape
    specialize hbit (s1.smartEncoding && decide (3#8 < s1.numValues))
    have hlen := length_columnValues some_column p
    obtain ⟨s2, hvalues, hshape2⟩ := addValues_ok (columnValues n p) hbit
      (by omega : 0 + (columnValues n p).length ≤ n.toNat) (s.curTime == 0#32)
    rw [← hbit.1] at hvalues
    change ∃ s', (addValues _ 0 _ (s.curTime == 0#32) >>= _) = Except.ok s' ∧ _
    rw [hvalues]
    exact ⟨_, rfl, hshape2⟩

/-- Without columns the first value of a point is out of range. -/
theorem addPoint_panic {s : GorillaTimeSeries} (shape : Columned 0#8 s) (p : Point) :
    s.addPoint p = .error .panic := by
  obtain ⟨s1, htime, hnum, hlen⟩ := addTime_ok shape p.t
  have hnil : s1.columns = [] := List.eq_nil_of_length_eq_zero hlen
  unfold addPoint
  rw [htime]
  simp [hnum, addValues, addValue, columnValues, hnil, bind, Except.bind]

/-! ### A sequence of calls -/

/-- One call: what it answers, and the series it leaves. `AddPoint` returns an error
before it has written anything. -/
def call (s : GorillaTimeSeries) (p : Point) : Option SeriesError × GorillaTimeSeries :=
  match s.addPoint p with
  | .ok s' => (none, s')
  | .error e => (some e, s)

def afterCalls : GorillaTimeSeries → List Point → GorillaTimeSeries
  | s, [] => s
  | s, p :: ps => afterCalls (s.call p).2 ps

/-- The points for which `AddPoint` answered nil. -/
def accepted : GorillaTimeSeries → List Point → List Point
  | _, [] => []
  | s, p :: ps =>
    let rest := accepted (s.call p).2 ps
    if (s.call p).1.isNone then p :: rest else rest

/-- Over the calls `ps` on `s` no accepted point goes back in time, and a call that would
is refused and changes nothing. -/
structure NeverBack (s : GorillaTimeSeries) (ps : List Point) : Prop where
  ordered : ((s.accepted ps).map (seconds ·.t)).Pairwise (· ≤ ·)
  refused : ∀ before p after, ps = before ++ p :: after →
    ∀ q ∈ (s.accepted before).getLast?, seconds p.t < seconds q.t →
      (s.afterCalls before).call p = (some errNegativeTimeDelta, s.afterCalls before)

theorem accepted_all {n : BitVec 8} (some_column : n ≠ 0#8) (ps : List Point)
    {s : GorillaTimeSeries} (shape : Columned n s) : s.accepted ps = ps := by
  induction ps generalizing s with
  | nil => rfl
  | cons p ps ih =>
    obtain ⟨s', hadd, hshape⟩ := addPoint_ok some_column shape p
    have hcall : s.call p = (none, s') := by rw [call, hadd]
    rw [accepted, hcall]
    exact congrArg (p :: ·) (ih hshape)

theorem accepted_none (ps : List Point) {s : GorillaTimeSeries} (shape : Columned 0#8 s) :
    s.accepted ps = [] := by
  induction ps with
  | nil => rfl
  | cons p ps ih =>
    have hcall : s.call p = (some .panic, s) := by rw [call, addPoint_panic shape p]
    rw [accepted, hcall]
    exact ih

/-- No call is refused as going back in time, so the accepted points are in order only
when the calls are. -/
theorem neverBack_iff (t0 : BitVec 64) (o : Options) (ps : List Point) :
    NeverBack (newGoriallaTimeSeries t0 o) ps ↔
      BitVec.ofInt 8 o.numValues = 0#8 ∨ (ps.map (seconds ·.t)).Pairwise (· ≤ ·) := by
  have hshape := columned_newGoriallaTimeSeries t0 o
  by_cases hzero : BitVec.ofInt 8 o.numValues = 0#8
  · rw [hzero] at hshape
    refine ⟨fun _ => Or.inl hzero, fun _ => ⟨?_, ?_⟩⟩
    · rw [accepted_none ps hshape]
      exact List.Pairwise.nil
    · intro before p after _ q hq
      rw [accepted_none before hshape] at hq
      cases hq
  · constructor
    · intro kept
      have hordered := kept.ordered
      rw [accepted_all hzero ps hshape] at hordered
      exact Or.inr hordered
    · intro condition
      have hsorted := condition.resolve_left hzero
      refine ⟨?_, ?_⟩
      · rw [accepted_all hzero ps hshape]
        exact hsorted
      · intro before p after hsplit q hq hback
        rw [accepted_all hzero before hshape] at hq
        have hmem : q ∈ before := List.mem_of_getLast? hq
        rw [hsplit, List.map_append, List.map_cons, List.pairwise_append] at hsorted
        have hle := hsorted.2.2 _ (List.mem_map_of_mem hmem) _ List.mem_cons_self
        omega

/-- One second back: the later call is accepted. -/
theorem neverBack_fails :
    ¬ NeverBack (newGoriallaTimeSeries 1500000000000000000#64 newDefaultOptions)
      [⟨1500000010000000000#64, 1#64, 2#64, 3#64, 4#64, 9#64⟩,
        ⟨1500000009000000000#64, 1#64, 2#64, 3#64, 4#64, 9#64⟩] := by
  intro kept
  have hordered := kept.ordered
  have hshape := columned_newGoriallaTimeSeries 1500000000000000000#64 newDefaultOptions
  rw [accepted_all (by decide) _ hshape] at hordered
  revert hordered
  decide

end GorillaTimeSeries

end Gorilla
