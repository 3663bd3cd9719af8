import Cadent.Writers.CacheSingle
import Mathlib.Data.List.Chain

/-!
# What the single cache owes

Every point that the cache accepted is in the entry of its metric or has left with one
series, and the bytes it counts are those of its entries. A pop looks a metric up and
deletes it, when it is missing, under two locks: an entry that was made in between is lost,
and its bytes are not. `GetAnyStat` loses points in another way, since `getStatsStream`
keeps one of the neighbours that have the same time.
-/

namespace SingleConservation

open Cache CacheSingle Maps Runs TimeSeries

section Owed

variable {S : Type} (ty : SeriesType S)

/-- What leaves the cache: a series, or the stats of one. -/
inductive Handed (S : Type) where
  | series (s : S)
  | stats (slice : List Point)

/-- What was handed out has these points in it, a series in their order. -/
def Handed.Brings : Handed S → List Point → Prop
  | .series s, piece => piece = ty.points s
  | .stats slice, piece => slice.Perm piece

def sentAs (t : TotalTimeSeries S) : StatId × Handed S := (t.name.uniqueId, .series t.series)

/-- What a step hands out; `GetAnyStat` gives no name with its stats. -/
def departures : Action → Outcome S → List (StatId × Handed S)
  | _, .added sent _ => sent.map sentAs
  | _, .popped (some (name, series)) => [(name.uniqueId, .series series)]
  | .getAnyStat uid, .stats slice => [(uid, .stats slice)]
  | _, .sent sent => sent.map sentAs
  | _, _ => []

def arrivals : Action → Outcome S → List (StatId × Point)
  | .addWithOffset name stat _ _, .added _ none => [(name.uniqueId, stat)]
  | _, _ => []

/-- What a list of pairs has for one id. -/
def ofId {β : Type} (uid : StatId) (l : List (StatId × β)) : List β :=
  l.filterMap fun d => if d.1 = uid then some d.2 else none

abbrev History (S : Type) := List (Taken (System S) Action (Outcome S))

def gone (h : History S) (uid : StatId) : List (Handed S) :=
  ofId uid (h.flatMap fun e => departures e.act e.out)

def accepted (h : History S) (uid : StatId) : List Point :=
  ofId uid (h.flatMap fun e => arrivals e.act e.out)

def held (cache : Map StatId (CacheItem S)) (uid : StatId) : List Point :=
  ((cache.lookup uid).map fun item => ty.points item.series).getD []

/-- The points that came are cut into one piece for each thing that left, in the order in
which they came and left, and the entry holds the rest. -/
structure Accounted (wc : CacherSingle S) (came : StatId → List Point)
    (left : StatId → List (Handed S)) : Prop where
  bytes : wc.curSize = total (fun item => ty.len item.series) wc.cache
  points : ∀ uid, ∃ pieces, List.Forall₂ (Handed.Brings ty) (left uid) pieces ∧
    came uid = pieces.flatten ++ held ty wc.cache uid
  named : ∀ uid item, wc.cache.lookup uid = some item → item.name.uniqueId = uid

/-- Points are added while the cache accepts them; an entry that is deleted as missing is
still missing; and in the series that `GetAnyStat` takes no two neighbours share a time. -/
def Careful (s : System S) : Action → Prop
  | .addWithOffset _ _ _ _ => s.wc.accept = true
  | .delete i => ∀ ref ∈ s.missing[i]?, ∀ item ∈ s.items[ref]?,
    s.wc.cache.lookup item.metric = none
  | .getAnyStat uid => ∀ item ∈ s.wc.cache.lookup uid,
    (ty.points item.series).IsChain fun p q => p.t ≠ q.t
  | _ => True

/-- Points are added while the cache accepts them. -/
def Accepting (s : System S) : Action → Prop
  | .addWithOffset _ _ _ _ => s.wc.accept = true
  | _ => True

instance (s : System S) (a : Action) : Decidable (Accepting s a) := by
  cases a <;> unfold Accepting <;> infer_instance

instance (s : System S) (a : Action) : Decidable (Careful ty s a) := by
  cases a <;> unfold Careful <;> infer_instance

theorem ofId_append {β : Type} (uid : StatId) (l l' : List (StatId × β)) :
    ofId uid (l ++ l') = ofId uid l ++ ofId uid l' := List.filterMap_append ..

theorem gone_snoc (h : History S) (e : Taken (System S) Action (Outcome S)) (uid : StatId) :
    gone (h ++ [e]) uid = gone h uid ++ ofId uid (departures e.act e.out) := by
  simp [gone, ofId_append]

theorem accepted_snoc (h : History S) (e : Taken (System S) Action (Outcome S)) (uid : StatId) :
    accepted (h ++ [e]) uid = accepted h uid ++ ofId uid (arrivals e.act e.out) := by
  simp [accepted, ofId_append]

/-! ### What the changes of the cache keep -/

variable {ty} {wc : CacherSingle S} {came : StatId → List Point} {left : StatId → List (Handed S)}
variable {uid : StatId} {item : CacheItem S}

theorem held_of_lookup {cache : Map StatId (CacheItem S)} (found : cache.lookup uid = some item) :
    held ty cache uid = ty.points item.series := by
  simp [held, found]

theorem held_of_missing {cache : Map StatId (CacheItem S)} (missing : cache.lookup uid = none) :
    held ty cache uid = [] := by
  simp [held, missing]

theorem held_insert (cache : Map StatId (CacheItem S)) (u : StatId) :
    held ty (cache.insert uid item) u =
      if u = uid then ty.points item.series else held ty cache u := by
  by_cases same : u = uid
  · subst same
    simp [held]
  · simp [held, same, AList.lookup_insert_ne same]

theorem held_erase (cache : Map StatId (CacheItem S)) (u : StatId) :
    held ty (cache.erase uid) u = if u = uid then [] else held ty cache u := by
  by_cases same : u = uid
  · subst same
    simp [held]
  · simp [held, same, AList.lookup_erase_ne same]

theorem named_insert {name : StatName} (named : item.name.uniqueId = name.uniqueId)
    (acc : Accounted ty wc came left) (u : StatId) (other : CacheItem S)
    (found : (wc.cache.insert name.uniqueId item).lookup u = some other) :
    other.name.uniqueId = u := by
  by_cases same : u = name.uniqueId
  · subst same
    rw [AList.lookup_insert, Option.some.injEq] at found
    rw [← found, named]
  · rw [AList.lookup_insert_ne same] at found
    exact acc.named u other found

theorem accounted_drop (acc : Accounted ty wc came left) (found : wc.cache.lookup uid = some item)
    {d : Handed S} (brings : d.Brings ty (ty.points item.series)) :
    Accounted ty (wc.drop ty uid item) came fun u => left u ++ ofId u [(uid, d)] where
  bytes := by
    rw [CacherSingle.drop, total_erase found, acc.bytes]
  points := by
    intro u
    obtain ⟨pieces, matched, split⟩ := acc.points u
    simp only [CacherSingle.drop, held_erase]
    by_cases same : u = uid
    · subst same
      refine ⟨pieces ++ [ty.points item.series], ?_, ?_⟩
      · have last : ofId u [(u, d)] = [d] := by simp [ofId]
        rw [last]
        exact List.rel_append matched (.cons brings .nil)
      · rw [split, held_of_lookup found]
        simp
    · have none : ofId u [(uid, d)] = [] := by simp [ofId, Ne.symm same]
      refine ⟨pieces, ?_, ?_⟩
      · rw [none, List.append_nil]
        exact matched
      · rw [split, if_neg same]
  named := by
    intro u other lookup
    by_cases same : u = uid
    · subst same
      simp [CacherSingle.drop] at lookup
    · rw [CacherSingle.drop, AList.lookup_erase_ne same] at lookup
      exact acc.named u other lookup

variable (item) in
/-- An entry may take its item's place with the points it held and those that came. -/
theorem accounted_insert {name : StatName} {more : List Point} {size : Int}
    (acc : Accounted ty wc came left) (named : item.name.uniqueId = name.uniqueId)
    (points : ty.points item.series = held ty wc.cache name.uniqueId ++ more)
    (bytes : size = total (fun item => ty.len item.series)
      (wc.cache.insert name.uniqueId item)) :
    Accounted ty { wc with cache := wc.cache.insert name.uniqueId item, curSize := size }
      (fun u => came u ++ ofId u (more.map fun stat => (name.uniqueId, stat))) left where
  bytes := bytes
  points := by
    intro u
    obtain ⟨pieces, matched, split⟩ := acc.points u
    refine ⟨pieces, matched, ?_⟩
    simp only [held_insert, split]
    by_cases same : u = name.uniqueId
    · subst same
      have all : ofId name.uniqueId (more.map fun stat => (name.uniqueId, stat)) = more := by
        simp [ofId, List.filterMap_map]
      rw [all, if_pos rfl, points, List.append_assoc]
    · have none : ofId u (more.map fun stat => (name.uniqueId, stat)) = [] := by
        simp [ofId, List.filterMap_map, Ne.symm same]
      rw [none, if_neg same, List.append_nil]
  named := fun u other found => named_insert named acc u other found

/-! ### What the operations keep -/

variable {cfg : Config} {name : StatName} {stat : Point} {offset : Option OffsetInSeries}
variable {tNow : BitVec 32}

variable (cfg stat offset tNow) in
theorem accounted_newStat (acc : Accounted ty wc came left)
    (missing : wc.cache.lookup name.uniqueId = none) :
    Accounted ty (wc.newStat ty cfg name stat offset tNow).1
      (fun u => came u ++ ofId u (arrivals (S := S) (.addWithOffset name stat offset tNow)
        (.added [] (wc.newStat ty cfg name stat offset tNow).2))) left := by
  rw [CacherSingle.newStat]
  rcases opened : ty.new cfg.seriesType stat.t with e | tp
  · simpa [arrivals, ofId] using acc
  · dsimp only
    rcases added : ty.addStat tp stat with ⟨series, _ | e⟩
    · have points : ty.points series = held ty wc.cache name.uniqueId ++ [stat] := by
        rw [ty.addStat_points added, ty.new_points opened, held_of_missing missing]
      exact accounted_insert ⟨name, series, offset, tNow⟩ acc rfl points
        (by rw [total_insert_new missing, acc.bytes])
    · simpa [arrivals, ofId] using acc

/-- A cache that accepts points accounts for one more, and for what it sends to make room. -/
theorem accounted_addWithOffset (acc : Accounted ty wc came left) (accepting : wc.accept = true)
    (opened : cfg.overFlowBroadcast ≠ .closed) {sent : List (TotalTimeSeries S)}
    {err : Option SeriesError} {wc' : CacherSingle S}
    (added : wc.addWithOffset ty cfg name stat offset tNow = (wc', sent, err)) :
    Accounted ty wc'
      (fun u => came u ++ ofId u (arrivals (.addWithOffset name stat offset tNow)
        (.added sent err)))
      (fun u => left u ++ ofId u (sent.map sentAs)) := by
  have arrival : ∀ sent', arrivals (S := S) (.addWithOffset name stat offset tNow)
      (.added sent' err) = arrivals (.addWithOffset name stat offset tNow) (.added sent err) := by
    intro sent'
    cases err <;> rfl
  rcases CacherSingle.addWithOffset_cases ty cfg name stat offset tNow accepting with
    ⟨e, eq⟩ | ⟨missing, eq⟩ | ⟨gots, found, eq | ⟨series, e, more, eq⟩ | ⟨series, more, eq⟩⟩
  · cases eq.symm.trans added
    simpa [arrivals, ofId] using acc
  · cases eq.symm.trans added
    simpa [ofId] using accounted_newStat cfg stat offset tNow acc missing
  · -- the old series is sent, and the point opens a new one
    rw [if_neg opened] at eq
    cases eq.symm.trans added
    have named := acc.named _ _ found
    have dropped := accounted_drop acc found (d := .series gots.series) rfl
    have missing : (wc.drop ty name.uniqueId gots).cache.lookup name.uniqueId = none :=
      AList.lookup_erase _ _
    have again := accounted_newStat cfg stat offset tNow dropped missing
    rw [arrival []] at again
    simpa [sentAs, named] using again
  · cases eq.symm.trans added
    obtain ⟨same, len⟩ := ty.addStat_refused more
    have named := acc.named _ _ found
    have points : ty.points series = held ty wc.cache name.uniqueId ++ [] := by
      rw [same, held_of_lookup found, List.append_nil]
    have bytes : wc.curSize = total (fun item => ty.len item.series)
        (wc.cache.insert name.uniqueId { gots with series := series }) := by
      rw [total_insert found, acc.bytes]
      dsimp only
      omega
    have kept := accounted_insert { gots with series := series } acc named points bytes
    simpa [arrivals, ofId] using kept
  · cases eq.symm.trans added
    have named := acc.named _ _ found
    have points : ty.points series = held ty wc.cache name.uniqueId ++ [stat] := by
      rw [ty.addStat_points more, held_of_lookup found]
    have bytes : wc.curSize + (ty.len series - ty.len gots.series) =
        total (fun item => ty.len item.series) (wc.cache.insert name.uniqueId
          { gots with series := series, offset := laterOffset gots.offset offset }) := by
      rw [total_insert found, acc.bytes]
      dsimp only
      omega
    have kept := accounted_insert
      { gots with series := series, offset := laterOffset gots.offset offset }
      acc named points bytes
    simpa [arrivals, ofId] using kept

theorem accounted_popSeries (acc : Accounted ty wc came left) (i : Nat) (metric : StatName) :
    Accounted ty (wc.popSeries ty metric).1 came fun u =>
      left u ++ ofId u (departures (.popSeries i) (.popped (wc.popSeries ty metric).2)) := by
  rw [CacherSingle.popSeries]
  rcases found : wc.cache.lookup metric.uniqueId with _ | stats
  · simpa [departures, ofId] using acc
  · have named := acc.named _ _ found
    simpa [departures, named] using accounted_drop acc found (d := .series stats.series) rfl

/-- What `pushExpired` sends has left, one series after the other. -/
theorem accounted_pushExpired (order : List StatId) (did : Nat) (acc : Accounted ty wc came left) :
    Accounted ty (CacherSingle.pushExpired ty cfg tNow order did wc).1 came fun u =>
      left u ++ ofId u ((CacherSingle.pushExpired ty cfg tNow order did wc).2.map sentAs) := by
  induction order generalizing did wc left with
  | nil => simpa [CacherSingle.pushExpired, ofId] using acc
  | cons uid order ih =>
    rw [CacherSingle.pushExpired]
    rcases found : wc.cache.lookup uid with _ | item
    · exact ih did acc
    · dsimp only
      have named := acc.named _ _ found
      have dropped := accounted_drop acc found (d := .series item.series) rfl
      split_ifs
      · simpa [sentAs, named] using dropped
      · have rest := ih (did + 1) dropped
        simpa [sentAs, named, ← ofId_append] using rest
      · exact ih did acc

/-- Without neighbours at one time nothing is left out of the stats of a series. -/
theorem streamLoop_eq {lastT : BitVec 64} {ou pts : List Point}
    (apart : pts.IsChain fun p q => p.t ≠ q.t)
    (fresh : ou ≠ [] → ∀ p ∈ pts.head?, lastT ≠ p.t) : streamLoop lastT ou pts = ou ++ pts := by
  induction pts generalizing lastT ou with
  | nil => simp [streamLoop]
  | cons st rest ih =>
    have kept : ¬ (lastT = st.t ∧ ou ≠ []) := by
      rintro ⟨same, some⟩
      exact fresh some st rfl same
    rw [streamLoop, if_neg kept, ih (List.isChain_cons.mp apart).2]
    · simp
    · intro _ q first
      exact (List.isChain_cons.mp apart).1 q first

theorem getStatsStream_perm (sorts : Sorts) {pts : List Point}
    (apart : pts.IsChain fun p q => p.t ≠ q.t) : (getStatsStream sorts.stats pts).Perm pts := by
  have whole : streamLoop (-1) [] pts = pts := streamLoop_eq apart fun some => absurd rfl some
  have perm := sorts.stats_perm (streamLoop (-1) [] pts)
  rw [whole] at perm
  rw [getStatsStream, whole]
  exact perm

/-! ### What a step does to the cache -/

variable (ty cfg) in
/-- The cache after a step, for each kind of step that changes it. -/
inductive Effect (sorts : Sorts) (s : System S) : Action → CacherSingle S → Outcome S → Prop
  | quiet {a : Action} {accept : Bool} {out : Outcome S} (nothing : departures a out = [])
      (nobody : arrivals a out = []) : Effect sorts s a { s.wc with accept := accept } out
  | added (name : StatName) (stat : Point) (offset : Option OffsetInSeries) (tNow : BitVec 32) :
      Effect sorts s (.addWithOffset name stat offset tNow)
        (s.wc.addWithOffset ty cfg name stat offset tNow).1
        (.added (s.wc.addWithOffset ty cfg name stat offset tNow).2.1
          (s.wc.addWithOffset ty cfg name stat offset tNow).2.2)
  | deleted {i ref : Nat} {item : CacheQueueItem} (waiting : s.missing[i]? = some ref)
      (here : s.items[ref]? = some item) :
      Effect sorts s (.delete i) { s.wc with cache := s.wc.cache.erase item.metric } .done
  | popped (i : Nat) (metric : StatName) :
      Effect sorts s (.popSeries i) (s.wc.popSeries ty metric).1
        (.popped (s.wc.popSeries ty metric).2)
  | none (uid : StatId) (empty : s.wc.cache.keys = []) :
      Effect sorts s (.getAnyStat uid) s.wc (.stats [])
  | any {uid : StatId} {item : CacheItem S} (found : s.wc.cache.lookup uid = some item) :
      Effect sorts s (.getAnyStat uid) (s.wc.drop ty uid item)
        (.stats (getStatsStream sorts.stats (ty.points item.series)))
  | expired (tNow : BitVec 32) (order : List StatId) :
      Effect sorts s (.pushExpired tNow order)
        (CacherSingle.pushExpired ty cfg tNow order 0 s.wc).1
        (.sent (CacherSingle.pushExpired ty cfg tNow order 0 s.wc).2)

theorem effect_of_step {sorts : Sorts} {s s' : System S} {a : Action} {out : Outcome S}
    (taken : step ty cfg sorts s a = some (s', out)) : Effect ty cfg sorts s a s'.wc out := by
  cases a with
  | addWithOffset name stat offset tNow =>
    cases taken
    exact .added name stat offset tNow
  | dequeue =>
    rw [step] at taken
    split at taken
    · cases taken
      exact .quiet rfl rfl
    · cases taken
      exact .quiet rfl rfl
  | lookup i =>
    simp only [step, Option.bind_eq_bind, Option.bind_eq_some_iff] at taken
    obtain ⟨ref, _, item, _, taken⟩ := taken
    split at taken
    · cases taken
      exact .quiet rfl rfl
    · cases taken
      exact .quiet rfl rfl
  | delete i =>
    simp only [step, Option.bind_eq_bind, Option.bind_eq_some_iff] at taken
    obtain ⟨ref, waiting, item, here, taken⟩ := taken
    cases taken
    exact .deleted waiting here
  | popSeries i =>
    simp only [step, Option.bind_eq_bind, Option.bind_eq_some_iff] at taken
    obtain ⟨metric, _, taken⟩ := taken
    cases taken
    exact .popped i metric
  | getAnyStat uid =>
    rw [step] at taken
    by_cases empty : s.wc.cache.keys = []
    · rw [if_pos empty] at taken
      cases taken
      exact .none uid empty
    · rw [if_neg empty] at taken
      simp only [Option.bind_eq_bind, Option.bind_eq_some_iff] at taken
      obtain ⟨item, found, taken⟩ := taken
      cases taken
      exact .any found
  | readCache order =>
    rw [step] at taken
    split_ifs at taken
    · cases taken
      exact .quiet rfl rfl
    · simp only [Option.bind_eq_bind, Option.bind_eq_some_iff] at taken
      obtain ⟨queue, _, taken⟩ := taken
      cases taken
      exact .quiet rfl rfl
  | setQueue i reversed =>
    simp only [step, Option.bind_eq_bind, Option.bind_eq_some_iff] at taken
    obtain ⟨refs, _, taken⟩ := taken
    cases taken
    exact .quiet rfl rfl
  | pushExpired tNow order =>
    rw [step] at taken
    split_ifs at taken
    cases taken
    exact .expired tNow order
  | stopAccepting =>
    cases taken
    exact .quiet rfl rfl

theorem accounted_nobody (acc : Accounted ty wc came left) :
    Accounted ty wc (fun u => came u ++ []) left := by
  simpa using acc

theorem accounted_nothing (acc : Accounted ty wc came left) :
    Accounted ty wc came fun u => left u ++ [] := by
  simpa using acc

/-- Empty stats bring nothing, whichever id they are for. -/
theorem accounted_empty (acc : Accounted ty wc came left) (uid : StatId) :
    Accounted ty wc came fun u => left u ++ ofId u [(uid, .stats [])] where
  bytes := acc.bytes
  points := by
    intro u
    obtain ⟨pieces, matched, split⟩ := acc.points u
    by_cases same : uid = u
    · refine ⟨pieces ++ [[]], ?_, by simpa using split⟩
      have last : ofId u [(uid, (.stats [] : Handed S))] = [.stats []] := by simp [ofId, same]
      rw [last]
      exact List.rel_append matched (.cons (List.Perm.refl _) .nil)
    · have none : ofId u [(uid, (.stats [] : Handed S))] = [] := by simp [ofId, same]
      rw [none, List.append_nil]
      exact ⟨pieces, matched, split⟩
  named := acc.named

theorem accounted_delete (acc : Accounted ty wc came left) (missing : wc.cache.lookup uid = none) :
    Accounted ty { wc with cache := wc.cache.erase uid } came left := by
  have same : wc.cache.erase uid = wc.cache :=
    AList.ext (List.kerase_of_notMem_keys (AList.lookup_eq_none.mp missing))
  rw [same]
  exact acc

theorem accounted_effect {sorts : Sorts} {s : System S} {a : Action} {wc' : CacherSingle S}
    {out : Outcome S} (opened : cfg.overFlowBroadcast ≠ .closed) (acc : Accounted ty s.wc came left)
    (careful : Careful ty s a) (effect : Effect ty cfg sorts s a wc' out) :
    Accounted ty wc' (fun u => came u ++ ofId u (arrivals a out))
      (fun u => left u ++ ofId u (departures a out)) := by
  cases effect with
  | quiet nothing nobody =>
    rw [nothing, nobody]
    exact accounted_nobody (accounted_nothing ⟨acc.bytes, acc.points, acc.named⟩)
  | added name stat offset tNow => exact accounted_addWithOffset acc careful opened rfl
  | deleted waiting here =>
    exact accounted_nobody (accounted_nothing (accounted_delete acc (careful _ waiting _ here)))
  | popped i metric => exact accounted_nobody (accounted_popSeries acc i metric)
  | none uid _ => exact accounted_nobody (accounted_empty acc uid)
  | any found =>
    have brings := getStatsStream_perm sorts (careful _ found)
    exact accounted_nobody (accounted_drop acc found brings)
  | expired tNow order => exact accounted_nobody (accounted_pushExpired order 0 acc)

/-- In every careful run the bytes that are counted are those of the entries, and every
accepted point is in its entry or has left, once and in order. -/
theorem accounted_of_run {sorts : Sorts} {h : History S} {s : System S}
    (opened : cfg.overFlowBroadcast ≠ .closed)
    (run : Run (step ty cfg sorts) (Careful ty) start h s) :
    Accounted ty s.wc (accepted h) (gone h) := by
  refine run_invariant (fun h s => Accounted ty s.wc (accepted h) (gone h)) ?_ ?_ run
  · exact ⟨rfl, fun uid => ⟨[], .nil, rfl⟩, by simp [start]⟩
  · intro h s a s' out acc careful taken
    have next := accounted_effect opened acc careful (effect_of_step taken)
    simpa only [← accepted_snoc h ⟨s, a, out⟩, ← gone_snoc h ⟨s, a, out⟩] using next

end Owed

/-! ### A lost entry and a lost point -/

/-- A series that is a list of its points, eight bytes each. -/
def plain : SeriesType (List Point) where
  new _ _ := .ok []
  addStat s p := (s ++ [p], none)
  len s := 8 * s.length
  count s := s.length
  points s := s
  new_points := by
    rintro name t s ⟨rfl⟩
    rfl
  addStat_points := by
    rintro s p s' ⟨rfl⟩
    rfl
  addStat_refused := by
    rintro s p s' e ⟨⟩

def defaults : Config := ⟨1024000, 8192, "protobuf", "drop", .opened, 3600⟩

/-- Any order will do. -/
def unsorted : Sorts where
  stats l := l
  queue _ refs := refs
  stats_perm _ := .refl _

/-- The entry of a metric is popped twice; between the second lookup and its deletion a point
opens the entry again. -/
def reopened : List Action :=
  [.addWithOffset load (sample 1) none 1, .readCache [(7, none)], .setQueue 0 false, .dequeue,
   .readCache [(7, none)], .setQueue 0 false, .lookup 0, .popSeries 0, .dequeue, .lookup 0,
   .addWithOffset load (sample 2) none 2, .delete 0]

/-- Two points at one time, in one entry. -/
def twins : List Action :=
  [.addWithOffset load (sample 1) none 1, .addWithOffset load (sample 1) none 1,
   .getAnyStat load.uniqueId]

/-- The entry that was opened again is gone with its bytes still counted, and of two points
at one time `GetAnyStat` returns one. -/
theorem accounted_fails :
    (∃ h s, Run (step plain defaults unsorted) Accepting start h s ∧ s.wc.cache.keys = [] ∧
      s.wc.curSize = 8 ∧ ¬ Accounted plain s.wc (accepted h) (gone h)) ∧
    ∃ h s, Run (step plain defaults unsorted) Accepting start h s ∧ s.wc.cache.keys = [] ∧
      (accepted h load.uniqueId).length = 2 ∧ ¬ Accounted plain s.wc (accepted h) (gone h) := by
  constructor
  · have run := run_of_exec (step plain defaults unsorted) Accepting start reopened (by decide)
    refine ⟨_, _, run, by decide, by decide, ?_⟩
    intro acc
    exact absurd acc.bytes (by decide)
  · have run := run_of_exec (step plain defaults unsorted) Accepting start twins (by decide)
    refine ⟨_, _, run, by decide, by decide, ?_⟩
    intro acc
    obtain ⟨pieces, matched, split⟩ := acc.points load.uniqueId
    -- one thing left, and one point in it
    have left : List.Forall₂ (Handed.Brings plain) [.stats [sample 1]] pieces := matched
    obtain ⟨piece, rest, brings, others, rfl⟩ := List.forall₂_cons_left_iff.mp left
    rw [List.forall₂_nil_left_iff] at others
    subst others
    have one : [sample 1].length = piece.length := List.Perm.length_eq brings
    have both : [sample 1, sample 1] = [piece].flatten ++ [] := split
    have two := congrArg List.length both
    simp [← one] at two

/-- A careful run in which a series is popped and another one is opened. -/
theorem accounted_of_run_popped :
    ∃ h s, Run (step plain defaults unsorted) (Careful plain) start h s ∧
      (accepted h load.uniqueId).length = 3 ∧ (gone h load.uniqueId).length = 1 ∧
      s.wc.curSize = 16 ∧ Accounted plain s.wc (accepted h) (gone h) := by
  have run := run_of_exec (step plain defaults unsorted) (Careful plain) start
    [.addWithOffset load (sample 1) none 1, .readCache [(7, none)], .setQueue 0 false, .dequeue,
     .lookup 0, .popSeries 0, .addWithOffset load (sample 2) none 2,
     .addWithOffset load (sample 3) none 3] (by decide)
  exact ⟨_, _, run, by decide, by decide, by decide, accounted_of_run (by decide) run⟩

end SingleConservation
