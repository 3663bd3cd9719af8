import Cadent.Series.GorillaRoundTrip
import Cadent.Series.Registry

/-!
# Which series survive being stored

A row is written with `MarshalBinary` and the id of the series' own name, and read
through the name of that id. `Holds` is what every kind of series keeps true while
points are added; from it follows, kind by kind, whether the row gives back what the
series' own iterator gives.
-/

namespace Registry

open Binary64 Bitstream BitStream Consume TimeSeries Formats Gob Gorilla

/-- The stat a repr series keeps for what it was given. -/
def Added.heldByRepr : Added → Point
  | .point p => mapFloats checkFloat p
  | .stat p => p

/-- The floats that its JSON does not change: no negative zero, and inside a stat none
that `CheckFloat` replaces. -/
def Added.KeptByRepr : Added → Prop
  | .point p => ∀ x ∈ [p.min, p.max, p.last, p.sum], x ≠ negZero
  | .stat p => ∀ x ∈ [p.min, p.max, p.last, p.sum], x ≠ negZero ∧ checkFloat x = x

theorem heldByRepr_stored_iff (a : Added) :
    mapFloats reprFloat a.heldByRepr = a.heldByRepr ↔ a.KeptByRepr := by
  rw [mapFloats_eq_iff]
  cases a with
  | point p =>
    simp only [Added.heldByRepr, Added.KeptByRepr, mapFloats, List.forall_mem_cons,
      List.not_mem_nil, false_imp_iff, implies_true, and_true, reprFloat_checkFloat_eq_iff]
  | stat p =>
    simp only [Added.heldByRepr, Added.KeptByRepr, reprFloat_eq_iff]

/-- What a series that has been given `as` keeps true. -/
def Holds (as : List Added) : Series → Prop
  | .gob s => ∃ tag t vs, s.buf = .string tag :: .int t :: vs
  | .json s => ∀ p ∈ s.stats, unsupported p = false
  | .gorilla s => ∃ t0 o bits, Written s.bw (header t0 o ++ bits)
  | .msgpack s => s.buf = [] ∧ s.writer.length = as.length
  | .repr s => s.stats = as.map Added.heldByRepr
  | _ => True

/-- `AddPoint` on behalf of `a`, which a repr series is only asked with a point. -/
theorem addPoint_holds {as : List Added} {a : Added} {ts ts' : Series} {p : Point}
    (holds : Holds as ts) (add : ts.addPoint p = .ok ts')
    (given : ∀ s, ts = .repr s → a = .point p) : Holds (as ++ [a]) ts' ∧ ts'.name = ts.name := by
  cases ts with
  | gob s =>
    obtain rfl := Except.ok.inj add
    obtain ⟨tag, t, vs, hbuf⟩ := holds
    exact ⟨⟨tag, t, vs ++ s.record p, by simp [GobTimeSeries.addPoint, hbuf]⟩, rfl⟩
  | zipgob s | protobuf s | codec s => obtain rfl := Except.ok.inj add; exact ⟨trivial, rfl⟩
  | json s =>
    obtain rfl := Except.ok.inj add
    refine ⟨fun q hq => ?_, rfl⟩
    rcases List.mem_append.mp hq with hold | hnew
    · exact holds q hold
    · rw [List.mem_singleton.mp hnew]
      exact mapFloats_checkFloat_supported p
  | gorilla s =>
    obtain ⟨t0, o, bits, hwritten⟩ := holds
    cases hadd : s.addPoint p with
    | error e => rw [Series.addPoint, hadd] at add; cases add
    | ok s' =>
      rw [Series.addPoint, hadd] at add
      obtain rfl := Except.ok.inj add
      obtain ⟨enc, hemit, -⟩ := addPoint_grows hadd
      refine ⟨⟨t0, o, bits ++ enc, ?_⟩, rfl⟩
      rw [← List.append_assoc]
      exact hemit _ hwritten
  | msgpack s =>
    obtain rfl := Except.ok.inj add
    exact ⟨⟨holds.1, by simp [MsgpackTimeSeries.addPoint, holds.2]⟩, rfl⟩
  | repr s =>
    obtain rfl := Except.ok.inj add
    refine ⟨?_, rfl⟩
    change s.stats ++ [mapFloats checkFloat p] = _
    rw [List.map_append, holds, given s rfl]
    rfl

theorem add_holds {as : List Added} {a : Added} {ts ts' : Series} (holds : Holds as ts)
    (add : ts.add a = .ok ts') : Holds (as ++ [a]) ts' ∧ ts'.name = ts.name := by
  cases a with
  | point p => exact addPoint_holds holds add fun _ _ => rfl
  | stat p =>
    cases ts with
    | repr s =>
      obtain rfl := Except.ok.inj add
      refine ⟨?_, rfl⟩
      change s.stats ++ [p] = _
      rw [List.map_append, holds]
      rfl
    | _ => exact addPoint_holds holds add fun _ hrepr => by cases hrepr

theorem addAll_holds (as : List Added) {before : List Added} {ts ts' : Series}
    (holds : Holds before ts) (add : ts.addAll as = .ok ts') :
    Holds (before ++ as) ts' ∧ ts'.name = ts.name := by
  induction as generalizing before ts with
  | nil =>
    obtain rfl := Except.ok.inj add
    rw [List.append_nil]
    exact ⟨holds, rfl⟩
  | cons a as ih =>
    obtain ⟨ts1, hfirst, hrest⟩ := bind_ok add
    obtain ⟨hholds, hname⟩ := add_holds holds hfirst
    have hdone := ih hholds hrest
    rw [List.append_assoc, hname] at hdone
    exact hdone

/-! ### Kind by kind -/

theorem storedExactly_of_same [IntConversion] {ts : Series} {blob : Blob} {it : Iter}
    (marshal : ts.marshalBinary = .ok blob) (some_bytes : blob.isEmpty = false)
    (stored : newIter (nameFromId (idFromName ts.name)) blob = .ok it) (own : ts.iter = .ok it) :
    StoredExactly ts := by
  refine ⟨⟨idFromName ts.name, blob⟩, it, it, ?_, stored, own, fun _ => rfl⟩
  unfold insertRow
  rw [marshal]
  change (if blob.isEmpty then _ else _) = _
  rw [some_bytes]
  rfl

theorem insertRow_some {ts : Series} {row : DBSeries} (insert : insertRow ts = .ok (some row)) :
    ts.marshalBinary = .ok row.pbytes ∧ row.ptype = idFromName ts.name := by
  obtain ⟨blob, hmarshal, hrow⟩ := bind_ok insert
  split at hrow
  · cases hrow
  · obtain rfl := Option.some.inj (Except.ok.inj hrow)
    exact ⟨hmarshal, rfl⟩

/-- No row of a series can be read when its name leads to no known series. -/
theorem not_storedExactly_of_name [IntConversion] (ts : Series)
    (lost : ∀ blob it, newIter (nameFromId (idFromName ts.name)) blob ≠ .ok it) :
    ¬ StoredExactly ts := by
  rintro ⟨row, stored, own, hinsert, hiter, -, -⟩
  obtain ⟨-, hptype⟩ := insertRow_some hinsert
  rw [DBSeries.iter, hptype] at hiter
  exact lost _ _ hiter

theorem newIter_unknown {name : String} (unknown : name = "zipbob" ∨ name = "") (blob : Blob)
    (it : Iter) : newIter name blob ≠ .ok it := by
  rcases unknown with rfl | rfl <;> simp [newIter]

theorem storedExactly_gob [IntConversion] {as : List Added} {s : GobTimeSeries}
    (holds : Holds as (.gob s)) : StoredExactly (.gob s) := by
  obtain ⟨tag, t, vs, hbuf⟩ := holds
  have hopen : ∃ it, GobIter.newGobIter s.bytes = .ok it := by
    rw [GobTimeSeries.bytes, hbuf]
    exact ⟨_, rfl⟩
  obtain ⟨it, hit⟩ := hopen
  have hiter : Series.iter (.gob s) = .ok (.gob it) := by
    change (GobIter.newGobIter s.bytes).map Iter.gob = _
    rw [hit]
    rfl
  exact storedExactly_of_same rfl rfl hiter hiter

theorem storedExactly_json [IntConversion] {as : List Added} {s : JsonTimeSeries}
    (holds : Holds as (.json s)) : StoredExactly (.json s) := by
  have hmarshal : jsonMarshal s.stats = .ok s.stats := by
    unfold jsonMarshal
    rw [if_neg]
    intro hany
    obtain ⟨p, hp, hbad⟩ := List.any_eq_true.mp hany
    rw [holds p hp] at hbad
    cases hbad
  have hblob : Series.marshalBinary (.json s) = .ok (.json s.stats) := by
    rw [Series.marshalBinary, hmarshal]
    rfl
  exact storedExactly_of_same hblob rfl rfl rfl

theorem storedExactly_gorilla [IntConversion] {as : List Added} {s : GorillaTimeSeries}
    (holds : Holds as (.gorilla s)) : StoredExactly (.gorilla s) := by
  obtain ⟨t0, o, bits, hwritten⟩ := holds
  obtain ⟨hbytes, it, hit⟩ := newGorillaIterFromBytes_ok hwritten
  have hiter : Series.iter (.gorilla s) = .ok (.gorilla it) := by
    rw [Series.iter, hit]
    rfl
  exact storedExactly_of_same rfl (by simpa [Blob.isEmpty] using hbytes) hiter hiter

/-- The writer still holds every point when the row is made. -/
theorem storedExactly_msgpack_iff [IntConversion] (as : List Added) {s : MsgpackTimeSeries}
    (holds : Holds as (.msgpack s)) : StoredExactly (.msgpack s) ↔ as = [] := by
  obtain ⟨hbuf, hlen⟩ := holds
  have hiter : Series.iter (.msgpack s) = .ok (.msgpack ⟨s.writer, none, s.fullRes, false⟩) := by
    rw [Series.iter, MsgpackTimeSeries.bytes, MsgpackTimeSeries.flush, hbuf]
    rfl
  have hmarshal : Series.marshalBinary (.msgpack s) = .ok (.msgpack s.fullRes []) := by
    rw [Series.marshalBinary, MsgpackTimeSeries.marshalBinary, hbuf]
  constructor
  · rintro ⟨row, stored, own, hinsert, hstored, hown, hsame⟩
    obtain ⟨hblob, hptype⟩ := insertRow_some hinsert
    rw [DBSeries.iter, hptype, ← Except.ok.inj (hmarshal.symm.trans hblob)] at hstored
    obtain rfl : stored = .msgpack ⟨[], none, s.fullRes, false⟩ := (Except.ok.inj hstored).symm
    obtain rfl : own = .msgpack ⟨s.writer, none, s.fullRes, false⟩ :=
      (Except.ok.inj (hiter.symm.trans hown)).symm
    have hone := hsame 1
    cases hwriter : s.writer with
    | nil =>
      rw [hwriter] at hlen
      exact List.length_eq_zero_iff.mp hlen.symm
    | cons x xs =>
      rw [hwriter] at hone
      simp [observe, Iter.next, StreamIter.next] at hone
  · rintro rfl
    have hwriter : s.writer = [] := List.length_eq_zero_iff.mp hlen
    rw [hwriter] at hiter
    exact storedExactly_of_same hmarshal rfl rfl hiter

theorem observe_repr [IntConversion] (l done : List Point) (cur : Option Point) :
    observe l.length (.repr ⟨done ++ l, done.length, cur⟩) = l.map fun p => (true, some p) := by
  induction l generalizing done cur with
  | nil => rfl
  | cons p l ih =>
    have hnext : (IndexIter.next ⟨done ++ p :: l, done.length, cur⟩) =
        (true, ⟨done ++ p :: l, done.length + 1, some p⟩) := by
      simp [IndexIter.next]
    have hrest := ih (done ++ [p]) (some p)
    rw [List.append_assoc, List.singleton_append, List.length_append, List.length_singleton]
      at hrest
    rw [List.length_cons, observe, List.map_cons]
    simp only [Iter.next, hnext, hrest, Iter.values, if_true]

theorem storedExactly_repr_iff [IntConversion] {as : List Added} {s : ReprTimeSeries}
    (holds : Holds as (.repr s)) : StoredExactly (.repr s) ↔ ∀ a ∈ as, a.KeptByRepr := by
  have hkept : reprMarshal s.stats = s.stats ↔ ∀ a ∈ as, a.KeptByRepr := by
    have hstats : s.stats = as.map Added.heldByRepr := holds
    rw [hstats, reprMarshal, List.map_map, List.map_inj_left]
    exact forall₂_congr fun a _ => heldByRepr_stored_iff a
  rw [← hkept]
  constructor
  · rintro ⟨row, stored, own, hinsert, hstored, hown, hsame⟩
    obtain ⟨hblob, hptype⟩ := insertRow_some hinsert
    rw [DBSeries.iter, hptype, ← Except.ok.inj hblob] at hstored
    obtain rfl : stored = .repr ⟨reprMarshal s.stats, 0, none⟩ := (Except.ok.inj hstored).symm
    obtain rfl : own = .repr ⟨s.stats, 0, none⟩ := (Except.ok.inj hown).symm
    have hlen : (reprMarshal s.stats).length = s.stats.length := by simp [reprMarshal]
    have hall := hsame s.stats.length
    have hleft := observe_repr (reprMarshal s.stats) [] none
    have hright := observe_repr s.stats [] none
    rw [hlen] at hleft
    have hmaps := hleft.symm.trans (hall.trans hright)
    refine List.map_injective_iff.mpr ?_ hmaps
    intro p q hpq
    exact Option.some.inj (Prod.mk.inj hpq).2
  · intro hsame
    have hmarshal : Series.marshalBinary (.repr s) = .ok (.repr s.stats) := by
      rw [Series.marshalBinary, hsame]
    exact storedExactly_of_same hmarshal rfl rfl rfl

/-- Whether a row comes back, by the name the series gives itself. -/
theorem storedExactly_iff_of_holds [IntConversion] {as : List Added} {ts : Series}
    (holds : Holds as ts) :
    StoredExactly ts ↔ ts.name = "gob" ∨ ts.name = "json" ∨ ts.name = "gorilla" ∨
      (ts.name = "repr" ∧ ∀ a ∈ as, a.KeptByRepr) ∨ (ts.name = "msgpack" ∧ as = []) := by
  cases ts with
  | gob s => simpa [Series.name] using storedExactly_gob holds
  | zipgob s =>
    have hlost := not_storedExactly_of_name (.zipgob s) (newIter_unknown (Or.inl rfl))
    simpa [Series.name] using hlost
  | json s => simpa [Series.name] using storedExactly_json holds
  | protobuf s =>
    have hlost := not_storedExactly_of_name (.protobuf s) (newIter_unknown (Or.inr rfl))
    simpa [Series.name] using hlost
  | gorilla s => simpa [Series.name] using storedExactly_gorilla holds
  | msgpack s => simpa [Series.name] using storedExactly_msgpack_iff as holds
  | codec s =>
    have hlost := not_storedExactly_of_name (.codec s) (newIter_unknown (Or.inr rfl))
    simpa [Series.name] using hlost
  | repr s => simpa [Series.name] using storedExactly_repr_iff holds

theorem newTimeSeries_holds {name : String} {t0 : BitVec 64} {o : Option Options} {ts : Series}
    (made : newTimeSeries name t0 o = .ok ts) :
    Holds [] ts ∧ (ts.name = "gob" ↔ name = "binary" ∨ name = "gob") ∧
      (ts.name = "json" ↔ name = "json") ∧ (ts.name = "gorilla" ↔ name = "gorilla") ∧
      (ts.name = "repr" ↔ name = "repr") ∧ (ts.name = "msgpack" ↔ name = "msgpack") := by
  cases made_of_ok made with
  | gob named =>
    refine ⟨⟨_, _, _, rfl⟩, ?_⟩
    rcases named with rfl | rfl <;> simp [Series.name]
  | zipgob named | codec named =>
    refine ⟨trivial, ?_⟩
    rcases named with rfl | rfl <;> simp [Series.name]
  | json => exact ⟨by simp [Holds, PointSeries.new], by simp [Series.name]⟩
  | protobuf => exact ⟨trivial, by simp [Series.name]⟩
  | gorilla =>
    have hwritten := header_written t0 (o.getD newDefaultOptions)
    rw [← List.append_nil (header t0 (o.getD newDefaultOptions))] at hwritten
    exact ⟨⟨_, _, _, hwritten⟩, by simp [Series.name]⟩
  | msgpack => exact ⟨⟨rfl, rfl⟩, by simp [Series.name]⟩
  | repr => exact ⟨rfl, by simp [Series.name]⟩

/-- A row gives back what the series yields exactly for the gob, json and gorilla series,
for a repr series whose floats its JSON keeps, and for a msgpack series without points. -/
theorem storedExactly_iff [IntConversion] {name : String} {t0 : BitVec 64} {o : Option Options}
    {as : List Added} {ts ts' : Series} (made : newTimeSeries name t0 o = .ok ts)
    (added : ts.addAll as = .ok ts') :
    StoredExactly ts' ↔ name = "binary" ∨ name = "gob" ∨ name = "json" ∨ name = "gorilla" ∨
      (name = "repr" ∧ ∀ a ∈ as, a.KeptByRepr) ∨ (name = "msgpack" ∧ as = []) := by
  obtain ⟨hnew, hgob, hjson, hgorilla, hrepr, hmsgpack⟩ := newTimeSeries_holds made
  obtain ⟨hholds, hname⟩ := addAll_holds as hnew added
  rw [List.nil_append] at hholds
  rw [storedExactly_iff_of_holds hholds, hname, hgob, hjson, hgorilla, hrepr, hmsgpack, or_assoc]

def twoPoints : List Added :=
  [.point ⟨1500000010000000000#64, 1#64, 2#64, 3#64, 4#64, 9#64⟩,
    .stat ⟨1500000020000000000#64, 5#64, 6#64, 7#64, 8#64, 1#64⟩]

/-- The zipgob row is read as `zipbob`, the protobuf and codec rows as nothing, and the
msgpack row has lost its points. -/
theorem storedExactly_fails :
    (∃ ts ts', newTimeSeries "zipgob" 1500000000000000000#64 none = .ok ts ∧
      ts.addAll twoPoints = .ok ts' ∧ ¬ StoredExactly ts') ∧
    (∃ ts ts', newTimeSeries "protobuf" 1500000000000000000#64 none = .ok ts ∧
      ts.addAll twoPoints = .ok ts' ∧ ¬ StoredExactly ts') ∧
    (∃ ts ts', newTimeSeries "cbor" 1500000000000000000#64 none = .ok ts ∧
      ts.addAll twoPoints = .ok ts' ∧ ¬ StoredExactly ts') ∧
    (∃ ts ts', newTimeSeries "msgpack" 1500000000000000000#64 none = .ok ts ∧
      ts.addAll twoPoints = .ok ts' ∧ ¬ StoredExactly ts') := by
  refine ⟨⟨_, _, rfl, rfl, ?_⟩, ⟨_, _, rfl, rfl, ?_⟩, ⟨_, _, rfl, rfl, ?_⟩, ⟨_, _, rfl, rfl, ?_⟩⟩
  · exact not_storedExactly_of_name _ (newIter_unknown (Or.inl rfl))
  · exact not_storedExactly_of_name _ (newIter_unknown (Or.inr rfl))
  · exact not_storedExactly_of_name _ (newIter_unknown (Or.inr rfl))
  · intro hstored
    exact absurd ((storedExactly_msgpack_iff twoPoints ⟨rfl, rfl⟩).mp hstored) (by decide)

theorem storedExactly_iff_gorilla :
    ∃ ts ts', newTimeSeries "gorilla" 1500000000000000000#64 none = .ok ts ∧
      ts.addAll twoPoints = .ok ts' ∧ StoredExactly ts' := by
  have hmade : newTimeSeries "gorilla" 1500000000000000000#64 none =
      .ok (.gorilla (.newGoriallaTimeSeries 1500000000000000000#64 newDefaultOptions)) := rfl
  have hadded : ∃ ts', Series.addAll
      (.gorilla (.newGoriallaTimeSeries 1500000000000000000#64 newDefaultOptions)) twoPoints =
        .ok ts' := ⟨_, rfl⟩
  obtain ⟨ts', hadded⟩ := hadded
  exact ⟨_, ts', hmade, hadded, (storedExactly_iff hmade hadded).mpr (by simp)⟩

end Registry
