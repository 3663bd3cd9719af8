import Cadent.Series.GorillaRoundTrip
import Cadent.Series.GorillaSafety

/-!
# Series with fewer than five columns

The encoder writes the bit for the small form only in a series of more than three
columns, the decoder always reads it. `Values` returns five columns, or the fourth one
alone for the small form, whether the series has them or not. So of the widths that
`AddPoint` knows, five is read back, four only for points of the small form, and one to
three never: the first record ends in an index out of range.
-/

namespace Gorilla

open Binary64 Bits Bitstream BitStream Consume TimeSeries

/-- `Values` returned `v` for the stored point `p`: the small form if that was written,
otherwise the first `n` columns. What stands in the other columns is left open. -/
def Shows (n : Nat) (high : Bool) (p v : Point) : Prop :=
  v.t = pointTime high p.t ∧
    if 3 < n ∧ p.isSmall = true then v = p.decoded high
    else v.min = p.min ∧ (1 < n → v.max = p.max) ∧ (2 < n → v.last = p.last) ∧
      (3 < n → v.sum = p.sum) ∧ (4 < n → v.count = p.count)

/-- The series takes the points, and its bytes decode without a panic to as many points,
each with its time and its stored columns. -/
def ColumnsAgree [IntConversion] (n : Nat) (high : Bool) (handler : String) (t0 : BitVec 64)
    (ps : List Point) : Prop :=
  ∃ s it vs it', (GorillaTimeSeries.newGoriallaTimeSeries t0 ⟨n, high, handler⟩).addPoints ps =
      .ok s ∧
    GorillaIter.newGorillaIterFromBytes s.bytes = .ok it ∧ Yields it vs it' ∧
    it'.err ≠ some .panic ∧ List.Forall₂ (Shows n high) ps vs

/-! ### Columns that are not there -/

theorem values_none [IntConversion] {d : Decoder} (full : d.curSmartEnc = true)
    (narrow : d.columns.length ≤ 4) : d.values = none := by
  have hmissing : d.columns[4]? = none := List.getElem?_eq_none narrow
  unfold Decoder.values
  rw [full, hmissing]
  cases d.columns[0]? <;> cases d.columns[1]? <;> cases d.columns[2]? <;>
    cases d.columns[3]? <;> rfl

theorem readTimeDelta_columns (d : Decoder) :
    Meets d.readTimeDelta (fun d' => d'.columns = d.columns) fun _ => True := by
  have hnano : ∀ e : Decoder, e.columns = d.columns →
      Meets e.readNano (fun d' => d'.columns = d.columns) fun _ => True := by
    intro e same
    unfold Decoder.readNano
    split
    · exact meets_bind (meets_any _) fun _ _ => meets_pure same
    · exact meets_pure same
  unfold Decoder.readTimeDelta
  split
  · refine meets_bind (meets_any _) fun _ _ => ?_
    exact hnano _ rfl
  · refine meets_bind (meets_any _) fun _ _ => ?_
    exact hnano _ rfl

/-- Reading a column leaves their number and the form alone, and the column exists. -/
theorem readValue_columns (d : Decoder) (idx : Nat) :
    Meets (d.readValue idx) (fun d' => d'.columns.length = d.columns.length ∧
      d'.curSmartEnc = d.curSmartEnc ∧ idx < d.columns.length) fun _ => True := by
  unfold Decoder.readValue
  cases hcolumn : d.columns[idx]? with
  | none => exact meets_throw trivial
  | some c =>
    obtain ⟨hinside, -⟩ := List.getElem?_eq_some_iff.mp hcolumn
    exact meets_bind (meets_any _) fun c' _ => meets_pure ⟨by simp, rfl, hinside⟩

theorem readValues_columns (n : Nat) (d : Decoder) (idx : Nat) :
    Meets (d.readValues idx n) (fun d' => d'.columns.length = d.columns.length ∧
      d'.curSmartEnc = d.curSmartEnc) fun _ => True := by
  induction n generalizing d idx with
  | zero => exact meets_pure ⟨rfl, rfl⟩
  | succ n ih =>
    refine meets_bind (readValue_columns d idx) fun d1 h1 => ?_
    refine meets_weaken (ih d1 (idx + 1)) fun d2 h2 => ?_
    exact ⟨h2.1.trans h1.1, h2.2.trans h1.2.1⟩

/-- With three columns or fewer, whatever bit the decoder takes for the form, `Values`
or the record itself runs out of columns. -/
theorem nextPoint_narrow [IntConversion] {d : Decoder} (narrow : d.columns.length ≤ 3) :
    Meets d.nextPoint (fun d' => d'.values = none) fun _ => True := by
  refine meets_bind (readTimeDelta_columns d) fun d1 h1 => meets_bind (meets_any _) fun bit _ => ?_
  rw [← h1] at narrow
  cases bit with
  | true =>
    refine meets_bind (readValues_columns d1.numValues.toNat { d1 with curSmartEnc := true } 0)
      fun d2 h2 => meets_pure ?_
    refine values_none h2.2 ?_
    change d2.columns.length ≤ 4
    rw [h2.1]
    exact Nat.le_succ_of_le narrow
  | false =>
    refine meets_bind (readValue_columns { d1 with curSmartEnc := false } 3) fun d2 h2 => ?_
    have hthere : 3 < d1.columns.length := h2.2.2
    omega

theorem yields_narrow [IntConversion] {it it' : GorillaIter} {vs : List Point}
    (narrow : it.columns.length ≤ 3) (yields : Yields it vs it') : vs = [] := by
  cases vs with
  | nil => rfl
  | cons v vs =>
    obtain ⟨it1, hnext, hvalue, -⟩ := yields
    have hnone := (nextPoint_narrow narrow it.br).1 _ _ (nextPoint_of_next hnext)
    exact absurd (hvalue.symm.trans hnone) (Option.some_ne_none v)

theorem not_columnsAgree_narrow [IntConversion] {n : Nat} (narrow : n ≤ 3) (high : Bool)
    (handler : String) (t0 : BitVec 64) {ps : List Point} (nonempty : ps ≠ []) :
    ¬ ColumnsAgree n high handler t0 ps := by
  rintro ⟨s, it, vs, it', hadd, hopen, hyields, -, hshows⟩
  obtain ⟨enc, hemit, -⟩ := addPoints_grows ps hadd
  obtain ⟨br, rest, hopen', -⟩ :=
    newGorillaIterFromBytes_opens (hemit _ (header_written t0 ⟨n, high, handler⟩))
  obtain rfl := Except.ok.inj (hopen.symm.trans hopen')
  have hcolumns : (freshDecoder t0 ⟨n, high, handler⟩).columns.length ≤ 3 := by
    simp only [freshDecoder, List.length_replicate, BitVec.ofInt_natCast, BitVec.toNat_ofNat]
    omega
  have hnil := yields_narrow hcolumns hyields
  rw [hnil] at hshows
  exact nonempty (List.forall₂_nil_right_iff.mp hshows)

/-! ### Four columns -/

/-- In a series of four columns, a drained iterator has met only points of the small form. -/
theorem isSmall_of_yields [IntConversion] (ps : List Point) {s s' : GorillaTimeSeries} {d : Decoder}
    (step : InStep 4#8 s d) (fits : ∀ p ∈ ps, 0 < seconds p.t ∧ seconds p.t < 2 ^ 32)
    (first : ∀ p ∈ ps.head?, s.curTime = 0#32 → ((splitNano p.t).1 - s.ts).toNat < 2 ^ 14)
    (add : s.addPoints ps = .ok s') :
    ∃ enc, Emits s.bw s'.bw enc ∧ ∀ br rest vs it', Remains br (enc ++ rest) →
      Yields (⟨d, br, false, none⟩ : GorillaIter) vs it' → vs.length = ps.length →
        ∀ p ∈ ps, p.isSmall = true := by
  induction ps generalizing s d with
  | nil =>
    obtain rfl := Except.ok.inj add
    refine ⟨[], emits_refl _, ?_⟩
    intro br rest vs it' _ _ _ p hp
    cases hp
  | cons p ps ih =>
    have hfits := fits p List.mem_cons_self
    obtain ⟨s1, d1, enc1, hadd, hemit, hread, -, hnext, hfull, hrecorded⟩ :=
      addPoint_records (by decide) (by decide) step ⟨hfits.1.le, hfits.2⟩ (first p rfl)
    obtain ⟨hstep, hstarted⟩ := hnext hfits.1
    rw [GorillaTimeSeries.addPoints, hadd] at add
    obtain ⟨enc2, hemits, hrest⟩ := ih hstep (fun q hq => fits q (List.mem_cons_of_mem _ hq))
      (fun q _ hzero => absurd hzero hstarted) add
    refine ⟨enc1 ++ enc2, emits_trans hemit hemits, ?_⟩
    intro br rest vs it' hleft hyields hlen
    rw [List.append_assoc] at hleft
    obtain ⟨br1, hnext, hleft1⟩ := next_record hread hleft
    cases vs with
    | nil => cases hlen
    | cons v vs =>
      obtain ⟨it1, hnext', hvalue, hyields1⟩ := hyields
      obtain rfl := (Prod.mk.inj (hnext.symm.trans hnext')).2
      have hsmall : p.isSmall = true := by
        by_contra hbig
        have hform := hrecorded.form
        rw [Bool.eq_false_iff.mpr hbig] at hform
        have hcolumns := congrArg List.length (hrecorded.full hbig)
        rw [List.length_map] at hcolumns
        have hnone := values_none hform (le_of_eq hcolumns)
        exact absurd (hvalue.symm.trans hnone) (Option.some_ne_none v)
      intro q hq
      rcases List.mem_cons.mp hq with rfl | hq
      · exact hsmall
      · exact hrest br1 rest vs it' hleft1 hyields1 (Nat.succ.inj hlen) q hq

/-! ### All widths -/

theorem shows_decoded {n : Nat} (wide : 3 < n) (high : Bool) (p : Point) :
    Shows n high p (p.decoded high) := by
  refine ⟨?_, ?_⟩
  · unfold Point.decoded Point.decodedAt
    split
    · rfl
    · rfl
  · split
    · rfl
    case isFalse hform =>
      have hbig : ¬ p.isSmall = true := fun hsmall => hform ⟨wide, hsmall⟩
      have hvalue : p.decoded high = { p with t := pointTime high p.t } := if_neg hbig
      rw [hvalue]
      exact ⟨rfl, fun _ => rfl, fun _ => rfl, fun _ => rfl, fun _ => rfl⟩

theorem columnsAgree_of_readable [IntConversion] {n : Nat} (wide : 3 < n) (high : Bool)
    (handler : String) (t0 : BitVec 64) (ps : List Point) (nonempty : ps ≠ [])
    (readable : ∀ p ∈ ps, Readable (BitVec.ofInt 8 n) p)
    (count : ∀ p ∈ ps, p.count.toInt.natAbs ≤ 2 ^ 53)
    (fits : ∀ p ∈ ps, 0 < seconds p.t ∧ seconds p.t < 2 ^ 32)
    (first : ∀ p ∈ ps.head?, ((splitNano p.t).1 - (splitNano t0).1).toNat < 2 ^ 14) :
    ColumnsAgree n high handler t0 ps := by
  obtain ⟨s, it, it', hadd, hopen, hyields, herr⟩ := newGorillaIterFromBytes_yields t0
    ⟨n, high, handler⟩ ps nonempty readable fits first
  rw [List.map_congr_left fun p hp => columned_eq (count p hp) _] at hyields
  refine ⟨s, it, _, it', hadd, hopen, hyields, ?_, ?_⟩
  · intro hpanic
    exact absurd (herr.symm.trans hpanic) (Option.some_ne_none _).symm
  · rw [List.forall₂_map_right_iff, List.forall₂_same]
    intro p _
    exact shows_decoded wide high p

/-- Writer and reader agree in a series of five columns, and in one of four columns as
long as every point is of the small form. -/
theorem columnsAgree_iff [IntConversion] (n : Nat) (range : 1 ≤ n ∧ n ≤ 5) (high : Bool)
    (handler : String) (t0 : BitVec 64) (ps : List Point) (nonempty : ps ≠ [])
    (count : ∀ p ∈ ps, p.count.toInt.natAbs ≤ 2 ^ 53)
    (fits : ∀ p ∈ ps, 0 < seconds p.t ∧ seconds p.t < 2 ^ 32)
    (first : ∀ p ∈ ps.head?, ((splitNano p.t).1 - (splitNano t0).1).toNat < 2 ^ 14) :
    ColumnsAgree n high handler t0 ps ↔ n = 5 ∨ n = 4 ∧ ∀ p ∈ ps, p.isSmall = true := by
  constructor
  · intro agree
    rcases Nat.lt_or_ge 3 n with hwide | hnarrow
    · rcases (by omega : n = 5 ∨ n = 4) with rfl | rfl
      · exact Or.inl rfl
      · obtain ⟨s, it, vs, it', hadd, hopen, hyields, -, hshows⟩ := agree
        have hstep := inStep_fresh t0 ⟨4, high, handler⟩
        obtain ⟨enc, hemit, hsmall⟩ := isSmall_of_yields ps hstep fits
          (fun p hp _ => first p hp) hadd
        obtain ⟨br, rest, hopen', hleft⟩ :=
          newGorillaIterFromBytes_opens (hemit _ (header_written t0 ⟨4, high, handler⟩))
        obtain rfl := Except.ok.inj (hopen.symm.trans hopen')
        exact Or.inr ⟨rfl, hsmall br _ vs it' hleft hyields hshows.length_eq.symm⟩
    · exact absurd agree (not_columnsAgree_narrow hnarrow high handler t0 nonempty)
  · rintro (rfl | ⟨rfl, hsmall⟩)
    · exact columnsAgree_of_readable (by decide) high handler t0 ps nonempty
        (fun _ _ => Or.inl rfl) count fits first
    · exact columnsAgree_of_readable (by decide) high handler t0 ps nonempty
        (fun p hp => Or.inr ⟨rfl, hsmall p hp⟩) count fits first

/-- Four columns, one point of count one. -/
theorem columnsAgree_four :
    ColumnsAgree 4 true "n/a" 1500000000000000000#64
      [⟨1500000010000000007#64, 1#64, 2#64, 3#64, 4#64, 1#64⟩] :=
  (columnsAgree_iff 4 (by decide) true "n/a" 1500000000000000000#64 _ (by simp) (by decide)
    (by decide) (by decide)).mpr (Or.inr ⟨rfl, by decide⟩)

/-- One column, as in the benchmarks of the source. -/
theorem columnsAgree_one_fails :
    ¬ ColumnsAgree 1 false "n/a" 1500000000000000000#64
      [⟨1500000010000000007#64, 1#64, 2#64, 3#64, 4#64, 1#64⟩] :=
  not_columnsAgree_narrow (by decide) false "n/a" _ (by simp)

end Gorilla
