import Cadent.Accumulator.Bypass
import Cadent.Accumulator.Identity
import Cadent.Accumulator.Json

/-!
# The tags of JSON lines

`Metric2FromMap` goes over the map of tags in any order and sets them in lists that start out
as nil pointers, at which `Set` panics; without tags it is the caller that reads through the
pointers. So no line gets through where the tags are told apart, and where all tags count they
are not looked at. Only a line without tags, kept with all of them, keeps its tags.
-/

namespace Accumulator

open Repr

/-- `Set` through a pointer. -/
def setThrough (s : Option (List Tag)) (name val : String) : Except Failure (Option (List Tag)) :=
  match s with
  | none => .error .panic
  | some tags => .ok (some (setTag tags name val))

def readThrough : Option (List Tag) → Except Failure (List Tag)
  | none => .error .panic
  | some tags => .ok tags

def placeThrough (lists : Option (List Tag) × Option (List Tag)) (entry : String × String) :
    Except Failure (Option (List Tag) × Option (List Tag)) :=
  if isMetric2Tag entry.1 then (setThrough lists.1 entry.1 entry.2).map (·, lists.2)
  else (setThrough lists.2 entry.1 entry.2).map (lists.1, ·)

/-- The entries of the map come in the order of iteration. -/
def metric2FromMap (intag : List (String × String)) :
    Except Failure (Option (List Tag) × Option (List Tag)) :=
  intag.foldlM placeThrough (none, none)

namespace JsonAccumulate

variable (unmarshal : String → Except String JsonStructSplitItem) (a : JsonAccumulate)

def tagLists (order : List (String × String)) :
    Except Failure (Option (List Tag) × Option (List Tag)) :=
  match a.tagMode with
  | .all => .ok (some [], some [])
  | .metrics2 => metric2FromMap order

def nameOf (metric : String) (tags metaTags : List Tag) : StatName :=
  ⟨metric, 0#64, "", 0#32, 0#32, a.tagMode, a.hashMode, tags, metaTags⟩

/-- `ProcessLine`, with the map of tags in the order of iteration. The meta tags are read only for
a new item. -/
def processLine (st : Store JsonBaseStatItem) (raw : String × Int)
    (order : List (String × String)) : Except Failure (Store JsonBaseStatItem) :=
  match unmarshal raw.1 with
  | .error text => .error (.error text)
  | .ok spl => do
    let t := readTime spl.time raw.2
    let lists ← a.tagLists order
    let tags ← readThrough lists.1
    let key := a.mapKey (spl.metric ++ toStringSep tags "." ".") t
    match st.stats.lookup key with
    | some ref => return st.update ref (·.accumulate (some spl.value))
    | none => do
      let metaTags ← readThrough lists.2
      let item := a.fresh ⟨spl.metric, tags, metaTags, t, some spl.value⟩
      let made := (st.make item).update st.items.length (·.accumulate (some spl.value))
      return made.insert key st.items.length

def processLineToRepr (raw : String × Int) (order : List (String × String)) :
    Except Failure LineStat :=
  match unmarshal raw.1 with
  | .error text => .error (.error text)
  | .ok spl => do
    let lists ← a.tagLists order
    let metaTags ← readThrough lists.2
    let tags ← readThrough lists.1
    return .one (a.nameOf spl.metric tags metaTags) (some spl.value)
      (unixNano (readTime spl.time raw.2))

/-! ### Nothing is set through nil -/

/-- The first tag is set in a list that is not there. -/
theorem metric2FromMap_cons (entry : String × String) (rest : List (String × String)) :
    metric2FromMap (entry :: rest) = .error .panic := by
  have hplace : placeThrough (none, none) entry = .error .panic := by
    unfold placeThrough setThrough
    split_ifs <;> rfl
  rw [metric2FromMap, List.foldlM_cons, hplace]
  rfl

/-- Where the tags are told apart, no line has tags that can be read. -/
theorem readThrough_metrics2 (order : List (String × String)) {β : Type}
    (next : Option (List Tag) × Option (List Tag) → List Tag → Except Failure β) :
    (metric2FromMap order >>= fun lists => readThrough lists.1 >>= next lists) = .error .panic ∧
      (metric2FromMap order >>= fun lists => readThrough lists.2 >>= next lists) =
        .error .panic := by
  cases order with
  | nil => exact ⟨rfl, rfl⟩
  | cons entry rest =>
    rw [metric2FromMap_cons]
    exact ⟨rfl, rfl⟩

variable {unmarshal a}

theorem processLine_metrics2 (mode : a.tagMode = .metrics2) (st : Store JsonBaseStatItem)
    {raw : String × Int} {spl : JsonStructSplitItem} (decoded : unmarshal raw.1 = .ok spl)
    (order : List (String × String)) : a.processLine unmarshal st raw order = .error .panic := by
  simp only [processLine, decoded, tagLists, mode]
  exact (readThrough_metrics2 order _).1

theorem processLineToRepr_metrics2 (mode : a.tagMode = .metrics2) {raw : String × Int}
    {spl : JsonStructSplitItem} (decoded : unmarshal raw.1 = .ok spl)
    (order : List (String × String)) : a.processLineToRepr unmarshal raw order = .error .panic := by
  simp only [processLineToRepr, decoded, tagLists, mode]
  exact (readThrough_metrics2 order _).2

variable (unmarshal a) in
/-- With its map in any order, a line is taken in as by the accumulator that reads whole lines. -/
theorem processLine_kind (st : Store JsonBaseStatItem) (raw : String × Int)
    (order : List (String × String)) :
    (a.processLine unmarshal st raw order).toOption =
      (st.processLine (a.kind unmarshal) raw).toOption := by
  rcases decoded : unmarshal raw.1 with text | spl
  · simp only [processLine, Store.processLine, kind, parse, decoded]
    rfl
  · cases mode : a.tagMode with
    | metrics2 =>
      rw [processLine_metrics2 mode st decoded order]
      simp only [Store.processLine, kind, parse, decoded, mode]
      rfl
    | all =>
      simp only [processLine, Store.processLine, kind, parse, statKey, decoded, mode, tagLists,
        readThrough, Except.mapError, bind, Except.bind]
      rcases st.stats.lookup (a.mapKey (spl.metric ++ toStringSep [] "." ".")
        (readTime spl.time raw.2)) with _ | ref <;> rfl

/-! ### Which lines keep their tags -/

/-- Every tag of a line is in the name once, and where tags are told apart it is in the list that
is for it. -/
structure Carries (tags : List (String × String)) (name : StatName) : Prop where
  once : ∀ e ∈ tags, (name.tags ++ name.metaTags).count ⟨e.1, e.2⟩ = 1
  apart : name.tagMode = .metrics2 → ∀ e ∈ tags,
    if isMetric2Tag e.1 then ⟨e.1, e.2⟩ ∈ name.tags else ⟨e.1, e.2⟩ ∈ name.metaTags

/-- The item under a key takes a value in. Where there is none it is opened. -/
def TakenUnder (key : String) (opened : JsonBaseStatItem) (value : ℚ)
    (st st' : Store JsonBaseStatItem) : Prop :=
  ∀ k, st'.item? k =
    if k = key then some (((st.item? k).getD opened).accumulate (some value)) else st.item? k

variable (a) in
/-- A line is taken in with its tags by items and made into a stat with its tags, and lines of one
metric, with the same tags and in one bucket, go to one item. -/
structure KeepsTags (spl : JsonStructSplitItem) : Prop where
  processed : ∀ unmarshal raw order (st : Store JsonBaseStatItem), unmarshal raw.1 = .ok spl →
    order.Perm spl.tags → st.Sound → ∃ st' key opened,
      a.processLine unmarshal st raw order = .ok st' ∧ TakenUnder key opened spl.value st st' ∧
        Carries spl.tags opened.inKey
  toRepr : ∀ unmarshal raw order, unmarshal raw.1 = .ok spl → order.Perm spl.tags →
    ∃ stat, a.processLineToRepr unmarshal raw order = .ok stat ∧ Carries spl.tags stat.name
  together : ∀ unmarshal raw raw' order order' (spl' : JsonStructSplitItem)
    (st : Store JsonBaseStatItem), unmarshal raw.1 = .ok spl → unmarshal raw'.1 = .ok spl' →
    order.Perm spl.tags → order'.Perm spl.tags → spl'.metric = spl.metric →
    spl'.tags.Perm spl.tags → st.Sound →
    truncate (readTime spl'.time raw'.2) a.resolution =
      truncate (readTime spl.time raw.2) a.resolution →
    ∃ st₁ st₂ key opened, a.processLine unmarshal st raw order = .ok st₁ ∧
      a.processLine unmarshal st₁ raw' order' = .ok st₂ ∧
      TakenUnder key opened spl.value st st₁ ∧ TakenUnder key opened spl'.value st₁ st₂

/-- With all tags kept, every line is taken in under its metric and its bucket, without tags. -/
theorem processLine_all (mode : a.tagMode = .all) {st : Store JsonBaseStatItem} (sound : st.Sound)
    {raw : String × Int} {spl : JsonStructSplitItem} (decoded : unmarshal raw.1 = .ok spl)
    (order : List (String × String)) : ∃ st', a.processLine unmarshal st raw order = .ok st' ∧
      st'.Sound ∧ TakenUnder (a.mapKey spl.metric (readTime spl.time raw.2))
        (a.fresh ⟨spl.metric, [], [], readTime spl.time raw.2, some spl.value⟩) spl.value st st' := by
  have hparse : (a.kind unmarshal).parse raw =
      .ok ⟨spl.metric, [], [], readTime spl.time raw.2, some spl.value⟩ := by
    simp only [kind, parse, decoded, mode]
    rfl
  have hkey : spl.metric ++ toStringSep [] "." "." = spl.metric := String.append_empty
  obtain ⟨st', processed, sound', items⟩ := processLine_spec sound hparse
  refine ⟨st', ?_, sound', fun k => ?_⟩
  · have hsame := processLine_kind unmarshal a st raw order
    rw [processed] at hsame
    rcases hline : a.processLine unmarshal st raw order with failure | st''
    · rw [hline] at hsame
      cases hsame
    · rw [hline] at hsame
      rw [Option.some.inj hsame]
  · rw [items k]
    simp only [kind, statKey, hkey]

theorem processLineToRepr_all (mode : a.tagMode = .all) {raw : String × Int}
    {spl : JsonStructSplitItem} (decoded : unmarshal raw.1 = .ok spl)
    (order : List (String × String)) : a.processLineToRepr unmarshal raw order =
      .ok (.one (a.nameOf spl.metric [] []) (some spl.value)
        (unixNano (readTime spl.time raw.2))) := by
  simp only [processLineToRepr, decoded, tagLists, mode]
  rfl

theorem carries_nil (name : StatName) : Carries [] name :=
  ⟨fun _ mem => (List.not_mem_nil mem).elim, fun _ _ mem => (List.not_mem_nil mem).elim⟩

/-- A line without tags keeps them where all tags are kept. -/
theorem keepsTags_of_none (mode : a.tagMode = .all) {spl : JsonStructSplitItem}
    (none : spl.tags = []) : a.KeepsTags spl where
  processed unmarshal raw order st decoded _ sound := by
    obtain ⟨st', processed, _, taken⟩ := processLine_all mode sound decoded order
    refine ⟨st', _, _, processed, taken, ?_⟩
    rw [none]
    exact carries_nil _
  toRepr unmarshal raw order decoded _ := by
    refine ⟨_, processLineToRepr_all mode decoded order, ?_⟩
    rw [none]
    exact carries_nil _
  together unmarshal raw raw' order order' spl' st decoded decoded' _ _ metric _ sound bucket := by
    obtain ⟨st₁, processed, sound₁, taken⟩ := processLine_all mode sound decoded order
    obtain ⟨st₂, processed', _, taken'⟩ := processLine_all mode sound₁ decoded' order'
    have hkey : a.mapKey spl'.metric (readTime spl'.time raw'.2) =
        a.mapKey spl.metric (readTime spl.time raw.2) := by
      rw [mapKey, mapKey, metric, bucket]
    have hopened : a.fresh ⟨spl'.metric, [], [], readTime spl'.time raw'.2, some spl'.value⟩ =
        a.fresh ⟨spl.metric, [], [], readTime spl.time raw.2, some spl.value⟩ := by
      simp only [fresh, metric, bucket]
    rw [hkey, hopened] at taken'
    exact ⟨st₁, st₂, _, _, processed, processed', taken, taken'⟩

/-- Only lines without tags, where all tags are kept, keep their tags: where tags are told apart
the process panics, and elsewhere they are dropped. -/
theorem keepsTags_iff (spl : JsonStructSplitItem) :
    a.KeepsTags spl ↔ a.tagMode = .all ∧ spl.tags = [] := by
  constructor
  · intro keeps
    obtain ⟨stat, made, carries⟩ :=
      keeps.toRepr (fun _ => .ok spl) ("", 0) spl.tags rfl (.refl _)
    cases mode : a.tagMode with
    | metrics2 =>
      rw [processLineToRepr_metrics2 mode rfl] at made
      cases made
    | all =>
      rw [processLineToRepr_all mode rfl] at made
      obtain rfl := Except.ok.inj made
      refine ⟨rfl, List.eq_nil_iff_forall_not_mem.mpr fun e mem => ?_⟩
      cases carries.once e mem
  · rintro ⟨mode, none⟩
    exact keepsTags_of_none mode none

/-- A line with a host tag makes the process panic, one without tags too, and where all tags are
kept the host is lost. -/
theorem host_tag_lost :
    let spl : JsonStructSplitItem := ⟨"cpu", 1, 10, [("host", "a")]⟩
    let bare : JsonStructSplitItem := ⟨"cpu", 1, 10, []⟩
    ¬ (⟨1000000000, .metrics2, .fnv⟩ : JsonAccumulate).KeepsTags spl ∧
      ¬ (⟨1000000000, .metrics2, .fnv⟩ : JsonAccumulate).KeepsTags bare ∧
      ¬ (⟨1000000000, .all, .fnv⟩ : JsonAccumulate).KeepsTags spl := by
  intro spl bare
  refine ⟨fun keeps => ?_, fun keeps => ?_, fun keeps => ?_⟩
  · obtain ⟨stat, made, _⟩ := keeps.toRepr (fun _ => .ok spl) ("", 0) spl.tags rfl (.refl _)
    cases made
  · obtain ⟨stat, made, _⟩ := keeps.toRepr (fun _ => .ok bare) ("", 0) bare.tags rfl (.refl _)
    cases made
  · obtain ⟨stat, made, carries⟩ := keeps.toRepr (fun _ => .ok spl) ("", 0) spl.tags rfl (.refl _)
    obtain rfl := Except.ok.inj made
    cases carries.once ("host", "a") (by decide)

end JsonAccumulate

end Accumulator
