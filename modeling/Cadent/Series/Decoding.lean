import Cadent.Series.Registry

/-!
# What the list series yield

The json, repr, protobuf, msgpack and codec series keep a stat for each point. Their
iterators hand the stats out in order and end without an error, so such a series yields
what it keeps of each point, whatever the points are. The gob and gorilla series keep
differences and are treated on their own.
-/

namespace Registry

open Consume Formats Gob Gorilla TimeSeries
open Binary64 (IntConversion)

/-- The point of an addition. -/
def Added.given : Added → Point
  | .point p => p
  | .stat p => p

/-! ### Iterators over a list -/

/-- An iterator that walks a list by index, whatever else is around it. -/
theorem yields_index [IntConversion] {β : Type} (wrap : IndexIter β → Iter) (value : β → Point)
    (next : ∀ it, (wrap it).next = (it.next.1, wrap it.next.2))
    (values : ∀ it, (wrap it).values = it.curStat.map value) (l done : List β) (cur : Option β) :
    ∃ it', Yields (wrap ⟨done ++ l, done.length, cur⟩) (l.map value) (wrap it') := by
  induction l generalizing done cur with
  | nil =>
    refine ⟨⟨done ++ [], done.length, cur⟩, (next _).trans ?_⟩
    simp [IndexIter.next]
  | cons st l ih =>
    obtain ⟨it', rest⟩ := ih (done ++ [st]) (some st)
    rw [List.append_assoc, List.singleton_append, List.length_append, List.length_singleton]
      at rest
    refine ⟨it', _, (next _).trans ?_, values _, rest⟩
    simp [IndexIter.next]

/-- An iterator that decodes a stream to its end. -/
theorem yields_stream [IntConversion] {β : Type} (wrap : StreamIter β → Iter)
    (value : Bool → β → Point) (next : ∀ it, (wrap it).next = (it.next.1, wrap it.next.2))
    (values : ∀ it, (wrap it).values = it.curStat.map (value it.fullResolution)) (full : Bool)
    (l : List β) (cur : Option β) :
    ∃ it', Yields (wrap ⟨l, cur, full, false⟩) (l.map (value full)) (wrap it') := by
  induction l generalizing cur with
  | nil => exact ⟨_, next _⟩
  | cons st l ih =>
    obtain ⟨it', rest⟩ := ih (some st)
    exact ⟨it', _, next _, values _, rest⟩

/-! ### The series -/

namespace Series

/-- What a series that keeps stats has kept. -/
def listed : Series → Option (List Point)
  | .json s => some s.stats
  | .repr s => some s.stats
  | .protobuf s => some (s.stats.map (Stat.values s.fullTimeResolution))
  | .msgpack s => some (s.bytes.map (Stat.values s.fullRes))
  | .codec s => some (s.buf.map (Stat.values s.fullRes))
  | .gob _ | .zipgob _ | .gorilla _ => none

/-- What such a series keeps of one addition. -/
def keeps : Series → Added → Point
  | .json _, a => mapFloats checkFloat a.given
  | .repr _, .point p => mapFloats checkFloat p
  | .repr _, .stat p => p
  | .protobuf s, a =>
    (newStat s.fullTimeResolution Point.isSmall a.given).values s.fullTimeResolution
  | .msgpack s, a => (newStat s.fullRes countOne a.given).values s.fullRes
  | .codec s, a => (newStat s.fullRes countOne a.given).values s.fullRes
  | .gob _, a | .zipgob _, a | .gorilla _, a => a.given

theorem drains_listed [IntConversion] {ts : Series} {vs : List Point} (kept : ts.listed = some vs) :
    Drains ts.iter vs := by
  cases ts with
  | json s =>
    obtain rfl := Option.some.inj kept
    obtain ⟨it', yields⟩ := yields_index .json id (fun _ => rfl)
      (fun it => (Option.map_id_apply).symm) s.stats [] none
    rw [List.map_id] at yields
    exact ⟨_, _, rfl, yields, rfl⟩
  | repr s =>
    obtain rfl := Option.some.inj kept
    obtain ⟨it', yields⟩ := yields_index .repr id (fun _ => rfl)
      (fun it => (Option.map_id_apply).symm) s.stats [] none
    rw [List.map_id] at yields
    exact ⟨_, _, rfl, yields, rfl⟩
  | protobuf s =>
    obtain rfl := Option.some.inj kept
    obtain ⟨it', yields⟩ := yields_index (.protobuf s.fullTimeResolution)
      (Stat.values s.fullTimeResolution) (fun _ => rfl) (fun _ => rfl) s.stats [] none
    exact ⟨_, _, rfl, yields, rfl⟩
  | msgpack s =>
    obtain rfl := Option.some.inj kept
    obtain ⟨it', yields⟩ := yields_stream .msgpack Stat.values
      (fun _ => rfl) (fun _ => rfl) s.fullRes s.bytes none
    exact ⟨_, _, rfl, yields, rfl⟩
  | codec s =>
    obtain rfl := Option.some.inj kept
    obtain ⟨it', yields⟩ := yields_stream (.codec s.handle) Stat.values
      (fun _ => rfl) (fun _ => rfl) s.fullRes s.buf none
    exact ⟨_, _, rfl, yields, rfl⟩
  | gob s => cases kept
  | zipgob s => cases kept
  | gorilla s => cases kept

/-- An addition appends what is kept of it, and the series keeps the next one alike. -/
theorem listed_add {ts ts' : Series} {vs : List Point} {a : Added} (kept : ts.listed = some vs)
    (added : ts.add a = .ok ts') :
    ts'.listed = some (vs ++ [ts.keeps a]) ∧ ts'.keeps = ts.keeps := by
  cases ts with
  | json s =>
    obtain rfl := Option.some.inj kept
    cases a <;> obtain rfl := Except.ok.inj added <;> exact ⟨rfl, rfl⟩
  | repr s =>
    obtain rfl := Option.some.inj kept
    have hkeeps : ∀ s', (Series.repr s').keeps = (Series.repr s).keeps := by
      intro s'
      funext b
      cases b <;> rfl
    cases a <;> obtain rfl := Except.ok.inj added <;> exact ⟨rfl, hkeeps _⟩
  | protobuf s | codec s =>
    obtain rfl := Option.some.inj kept
    cases a <;> obtain rfl := Except.ok.inj added <;>
      exact ⟨congrArg some List.map_append, rfl⟩
  | msgpack s =>
    obtain rfl := Option.some.inj kept
    have hbytes : ∀ p, (s.addPoint p).bytes = s.bytes ++ [newStat s.fullRes countOne p] :=
      fun p => (List.append_assoc _ _ _).symm
    cases a <;> obtain rfl := Except.ok.inj added <;>
      exact ⟨congrArg some ((congrArg _ (hbytes _)).trans List.map_append), rfl⟩
  | gob s => cases kept
  | zipgob s => cases kept
  | gorilla s => cases kept

theorem listed_addAll (as : List Added) {ts ts' : Series} {vs : List Point}
    (kept : ts.listed = some vs) (added : ts.addAll as = .ok ts') :
    ts'.listed = some (vs ++ as.map ts.keeps) := by
  induction as generalizing ts vs with
  | nil =>
    obtain rfl := Except.ok.inj added
    rw [List.map_nil, List.append_nil]
    exact kept
  | cons a as ih =>
    obtain ⟨ts1, first, rest⟩ := bind_ok added
    obtain ⟨hone, hkeeps⟩ := listed_add kept first
    rw [ih hone rest, hkeeps, List.append_assoc]
    rfl

end Series

end Registry
