import Cadent.Accumulator.Graphite
import Cadent.Accumulator.Sequential
import Cadent.Accumulator.Statsd

/-!
# Which lines share an item

Lines share an item when they have the same key in the map, which is composed of the parts of
the line's identity. For graphite nothing separates the metric's key from its tags, and for
statsd the tags are taken as they are written. So lines of different metrics may share an
item, and lines of one metric may have several.
-/

namespace Accumulator

open Keys Maps Repr Text

section Taken

variable {Raw Line Item : Type} (K : Kind Raw Line Item)

/-- The item that takes a line in. -/
def Store.taker (st : Store Item) (line : Line) : Nat :=
  (st.stats.lookup (K.key line)).getD st.items.length

/-- Lines that are processed one after another, each with its item. -/
def takenIn : Store Item → List Raw → Except String (List (Line × Nat))
  | _, [] => .ok []
  | st, raw :: raws => do
    let line ← K.parse raw
    let st' ← st.processLine K raw
    let rest ← takenIn st' raws
    return (line, st.taker K line) :: rest

/-- What well-formed lines say. -/
def parsedLines (raws : List Raw) : List Line := raws.filterMap fun raw => (K.parse raw).toOption

/-- Two lines were taken in by one item just when they are the same in some way. -/
def GroupsBy (same : Line → Line → Prop) (raws : List Raw) : Prop :=
  ∃ taken, takenIn K Store.empty raws = .ok taken ∧
    ∀ e ∈ taken, ∀ e' ∈ taken, e.2 = e'.2 ↔ same e.1 e'.1

variable {K} {st : Store Item}

/-- A line leaves its item in the map, with all that was there. -/
theorem processLine_lookup (sound : st.Sound) {raw : Raw} {line : Line}
    (parsed : K.parse raw = .ok line) : ∃ st', st.processLine K raw = .ok st' ∧ st'.Sound ∧
      st'.stats.lookup (K.key line) = some (st.taker K line) ∧
      ∀ {key ref}, st.stats.lookup key = some ref → st'.stats.lookup key = some ref := by
  obtain ⟨st', processed, sound', _⟩ := processLine_spec sound parsed
  refine ⟨st', processed, sound', ?_⟩
  rw [Store.processLine, parsed] at processed
  rcases found : st.stats.lookup (K.key line) with _ | ref
  · have opened : st' = ((st.make (K.fresh line)).update st.items.length
        (K.accumulate · line)).insert (K.key line) st.items.length := by
      have := processed
      simp only [bind, Except.bind, found] at this
      exact (Except.ok.inj this).symm
    subst opened
    refine ⟨?_, ?_⟩
    · rw [Store.taker, found]
      exact AList.lookup_insert _
    · intro key ref here
      have ne : key ≠ K.key line := by
        rintro rfl
        rw [found] at here
        cases here
      exact (AList.lookup_insert_ne ne).trans here
  · have opened : st' = st.update ref (K.accumulate · line) := by
      have := processed
      simp only [bind, Except.bind, found] at this
      exact (Except.ok.inj this).symm
    subst opened
    refine ⟨?_, fun here => here⟩
    rw [Store.taker, found]
    exact found

theorem takenIn_spec {raws : List Raw} (sound : st.Sound)
    (wellFormed : ∀ raw ∈ raws, ∃ line, K.parse raw = .ok line) :
    ∃ taken, ∃ st' : Store Item, takenIn K st raws = .ok taken ∧
      taken.map (·.1) = parsedLines K raws ∧
      st'.Sound ∧ (∀ {key ref}, st.stats.lookup key = some ref →
        st'.stats.lookup key = some ref) ∧
      ∀ e ∈ taken, st'.stats.lookup (K.key e.1) = some e.2 := by
  induction raws generalizing st with
  | nil => exact ⟨[], st, rfl, rfl, sound, fun here => here, nofun⟩
  | cons raw raws ih =>
    obtain ⟨line, parsed⟩ := wellFormed raw List.mem_cons_self
    obtain ⟨st₁, processed, sound₁, own, kept⟩ := processLine_lookup sound parsed
    obtain ⟨taken, st₂, all, lines, sound₂, kept', listed⟩ :=
      ih sound₁ fun raw mem => wellFormed raw (List.mem_cons_of_mem _ mem)
    refine ⟨(line, st.taker K line) :: taken, st₂, ?_, ?_, sound₂,
      fun here => kept' (kept here), ?_⟩
    · rw [takenIn, parsed, processed]
      change (takenIn K st₁ raws).bind _ = _
      rw [all]
      rfl
    · rw [List.map_cons, lines, parsedLines, parsedLines, List.filterMap_cons_some (b := line)]
      rw [parsed]
      rfl
    · intro e mem
      rcases List.mem_cons.mp mem with rfl | mem
      · exact kept' own
      · exact listed e mem

theorem groupsBy_iff {raws : List Raw} {same : Line → Line → Prop}
    (wellFormed : ∀ raw ∈ raws, ∃ line, K.parse raw = .ok line) :
    GroupsBy K same raws ↔ ∀ l ∈ parsedLines K raws, ∀ l' ∈ parsedLines K raws,
      K.key l = K.key l' ↔ same l l' := by
  obtain ⟨taken, st, all, lines, sound, _, listed⟩ := takenIn_spec sound_empty wellFormed
  have keys : ∀ e ∈ taken, ∀ e' ∈ taken, e.2 = e'.2 ↔ K.key e.1 = K.key e'.1 := by
    intro e mem e' mem'
    constructor
    · intro shared
      exact sound.apart (listed e mem) (shared ▸ listed e' mem')
    · intro key
      have here := listed e mem
      rw [key, listed e' mem'] at here
      exact (Option.some.inj here).symm
  rw [← lines]
  constructor
  · rintro ⟨taken', all', grouped⟩ l mem l' mem'
    obtain rfl := Except.ok.inj (all.symm.trans all')
    obtain ⟨e, listed, rfl⟩ := List.mem_map.mp mem
    obtain ⟨e', listed', rfl⟩ := List.mem_map.mp mem'
    rw [← keys e listed e' listed']
    exact grouped e listed e' listed'
  · intro agree
    refine ⟨taken, all, ?_⟩
    intro e mem e' mem'
    rw [keys e mem e' mem']
    exact agree e.1 (List.mem_map_of_mem mem) e'.1 (List.mem_map_of_mem mem')

end Taken

/-! ### Graphite -/

namespace GraphiteAccumulate

variable (a : GraphiteAccumulate)

def bucket (line : GraphiteLine) : Int := truncate line.time a.resolution

/-- The key of a metric with the tags that are part of its identity. -/
def fullKey (line : GraphiteLine) : String := line.key ++ toStringSep line.tags "." "."

/-- The same key, the same set of tags and the same time bucket. -/
structure SameIdentity (l l' : GraphiteLine) : Prop where
  key : l.key = l'.key
  tags : ∀ t, t ∈ l.tags ↔ t ∈ l'.tags
  bucket : a.bucket l = a.bucket l'

/-- What keeps the items of two lines apart or together as they should be: a key does not run
into the tags and come out as another one; buckets are not a multiple of `2^64` nanoseconds
apart; the sign of a bucket before 1970 is not taken for a part of the key; and a tag is not
written twice where all tags count, or it is written twice alike. -/
structure Distinct (l l' : GraphiteLine) : Prop where
  joined : fullKey l = fullKey l' → a.bucket l = a.bucket l' → l.key = l'.key
  wrapped : fullKey l = fullKey l' → unixNano (a.bucket l) = unixNano (a.bucket l') →
    a.bucket l = a.bucket l'
  signed : ¬ ((unixNano (a.bucket l')).toInt < 0 ∧
    (unixNano (a.bucket l)).toInt = -(unixNano (a.bucket l')).toInt ∧
    fullKey l = fullKey l' ++ "-")
  repeated : a.tagMode = .all → a.SameIdentity l l' →
    ((l.tags.map (·.name)).Nodup ∧ (l'.tags.map (·.name)).Nodup) ∨ l.tags = l'.tags

/-- Names and values without the dot that they are joined by. -/
def Clean (line : GraphiteLine) : Prop :=
  ∀ t ∈ line.tags, '.' ∉ t.name.toList ∧ '.' ∉ t.value.toList

variable {a} {env : Naming} {parseFloat : String → Option Parsed} {l l' : GraphiteLine}

theorem tags_of_parse {raw : String × Int} (parsed : a.parse env parseFloat raw = .ok l) :
    ∃ tags, l.tags = env.sortTags tags ∧
      (a.tagMode = .metrics2 → (tags.map (·.name)).Nodup) := by
  rw [parse] at parsed
  split at parsed
  next key val intime rest _ =>
    rcases value : parseFloat val with _ | v
    · simp only [value] at parsed
      cases parsed
    · simp only [value] at parsed
      obtain rfl := Except.ok.inj parsed
      refine ⟨_, rfl, ?_⟩
      intro mode
      rw [mode]
      exact nodup_splitIntoMetric2Tags _
  next => cases parsed

theorem tags_eq (sorts : SortsTags env) {raw raw' : String × Int}
    (parsed : a.parse env parseFloat raw = .ok l) (parsed' : a.parse env parseFloat raw' = .ok l')
    (distinct : a.Distinct l l') (same : a.SameIdentity l l') : l.tags = l'.tags := by
  obtain ⟨tags, sorted, nodup⟩ := tags_of_parse parsed
  obtain ⟨tags', sorted', nodup'⟩ := tags_of_parse parsed'
  have names : ((l.tags.map (·.name)).Nodup ∧ (l'.tags.map (·.name)).Nodup) ∨ l.tags = l'.tags := by
    rcases mode : a.tagMode with _ | _
    · rw [sorted, sorted']
      exact .inl ⟨((env.sortTags_perm _).map _).nodup_iff.mpr (nodup mode),
        ((env.sortTags_perm _).map _).nodup_iff.mpr (nodup' mode)⟩
    · exact distinct.repeated mode same
  rcases names with ⟨own, own'⟩ | eq
  · exact eq_of_same_tags (sorted ▸ sorts tags) (sorted' ▸ sorts tags') own own' same.tags
  · exact eq

theorem statKey_eq_iff : a.statKey l = a.statKey l' ↔
    (fullKey l = fullKey l' ∧ unixNano (a.bucket l) = unixNano (a.bucket l')) ∨
      ((unixNano (a.bucket l')).toInt < 0 ∧
        (unixNano (a.bucket l)).toInt = -(unixNano (a.bucket l')).toInt ∧
        fullKey l = fullKey l' ++ "-") ∨
      ((unixNano (a.bucket l)).toInt < 0 ∧
        (unixNano (a.bucket l')).toInt = -(unixNano (a.bucket l)).toInt ∧
        fullKey l' = fullKey l ++ "-") := by
  rw [statKey, statKey, mapKey, mapKey, dashed_eq_iff, BitVec.toInt_inj]
  rfl

/-- Tags without separators are found again after the key. -/
theorem tags_of_fullKey (clean : Clean l) (clean' : Clean l') (key : l.key = l'.key)
    (same : fullKey l = fullKey l') : l.tags = l'.tags := by
  rw [fullKey, fullKey, key, String.append_right_inj] at same
  exact toStringSep_inj (by decide) clean clean' same

theorem sameIdentity_of_tags (key : l.key = l'.key) (tags : l.tags = l'.tags)
    (bucket : a.bucket l = a.bucket l') : a.SameIdentity l l' :=
  ⟨key, fun _ => by rw [tags], bucket⟩

theorem distinct_of_iff (clean : Clean l) (clean' : Clean l')
    (agree : a.statKey l = a.statKey l' ↔ a.SameIdentity l l') : a.Distinct l l' := by
  refine ⟨?_, ?_, ?_, ?_⟩
  · intro full bucket
    exact (agree.mp (statKey_eq_iff.mpr (.inl ⟨full, by rw [bucket]⟩))).key
  · intro full wrapped
    exact (agree.mp (statKey_eq_iff.mpr (.inl ⟨full, wrapped⟩))).bucket
  · rintro ⟨before, sign, full⟩
    have bucket := (agree.mp (statKey_eq_iff.mpr (.inr (.inl ⟨before, sign, full⟩)))).bucket
    rw [bucket] at sign
    omega
  · intro _ same
    refine .inr ?_
    rcases statKey_eq_iff.mp (agree.mpr same) with ⟨full, _⟩ | ⟨before, sign, _⟩ | ⟨before, sign, _⟩
    · exact tags_of_fullKey clean clean' same.key full
    · rw [same.bucket] at sign
      omega
    · rw [same.bucket] at sign before
      omega

theorem iff_of_distinct (sorts : SortsTags env) {raw raw' : String × Int}
    (parsed : a.parse env parseFloat raw = .ok l) (parsed' : a.parse env parseFloat raw' = .ok l')
    (clean : Clean l) (clean' : Clean l') (distinct : a.Distinct l l')
    (distinct' : a.Distinct l' l) : a.statKey l = a.statKey l' ↔ a.SameIdentity l l' := by
  rw [statKey_eq_iff]
  constructor
  · rintro (⟨full, wrapped⟩ | clash | clash)
    · have bucket := distinct.wrapped full wrapped
      have key := distinct.joined full bucket
      exact sameIdentity_of_tags key (tags_of_fullKey clean clean' key full) bucket
    · exact absurd clash distinct.signed
    · exact absurd clash distinct'.signed
  · intro same
    refine .inl ⟨?_, by rw [same.bucket]⟩
    rw [fullKey, fullKey, same.key, tags_eq sorts parsed parsed' distinct same]

end GraphiteAccumulate

/-! ### Statsd -/

inductive StatsdType where
  | counter
  | gauge
  | timer
  | set
  | other (cType : String)
  deriving DecidableEq

/-- The type that the letters of a line stand for. -/
def statsdType (cType : String) : StatsdType :=
  if cType = "c" then .counter
  else if cType = "g" ∨ cType = "-g" ∨ cType = "+g" then .gauge
  else if cType = "ms" ∨ cType = "h" then .timer
  else if cType = "s" then .set
  else .other cType

namespace StatsdAccumulate

variable {env : Naming} {parseFloat : String → Option Parsed} {l l' : StatsdLine} {raw : String}

/-- The same key, the same type and the same set of tags. -/
structure SameIdentity (l l' : StatsdLine) : Prop where
  key : l.key = l'.key
  type : statsdType l.cType = statsdType l'.cType
  tags : ∀ t, t ∈ l.tags ↔ t ∈ l'.tags

/-- Lines of one metric have the same letters for their type and the same text of tags. -/
def WrittenAlike (l l' : StatsdLine) : Prop :=
  SameIdentity l l' → l.cType = l'.cType ∧ l.tagstr = l'.tagstr

/-- Where the separators of a line cannot be. -/
structure Separated (l : StatsdLine) : Prop where
  key : ¬ ['|', '#'] <:+: l.key.toList
  cType : '|' ∉ l.cType.toList
  letters : l.cType.toList.head? ≠ some '#'

theorem separated_of_split {head key second val : String} {rest : List String}
    (clean : ¬ ['|', '#'] <:+: head.toList) (pieces : split head ":" = key :: second :: rest)
    (ofKey : l.key = key) (ofType : l.cType = gaugeType ((split second "|").getD 1 "c") val) :
    Separated l := by
  obtain ⟨before, after⟩ := infix_of_split (c := ':') (by decide) pieces
  have plain : '|' ∉ ((split second "|").getD 1 "c").toList ∧
      ((split second "|").getD 1 "c").toList.head? ≠ some '#' := by
    rcases types : split second "|" with _ | ⟨v, _ | ⟨t, more⟩⟩
    · exact ⟨by decide, by decide⟩
    · change '|' ∉ "c".toList ∧ "c".toList.head? ≠ some '#'
      exact ⟨by decide, by decide⟩
    · have bar : t ∈ split second "|" := by
        rw [types]
        exact List.mem_cons_of_mem _ List.mem_cons_self
      refine ⟨notMem_of_mem_split (by decide) bar, ?_⟩
      intro hash
      obtain ⟨_, inside⟩ := infix_of_split (c := '|') (by decide) types
      obtain ⟨letters, eq⟩ := List.head?_eq_some_iff.mp hash
      have sep : ['|', '#'] <:+: '|' :: t.toList := by
        rw [show t.toList = '#' :: letters from eq]
        exact ⟨[], letters, rfl⟩
      exact clean (sep.trans (inside.trans ((List.suffix_cons _ _).isInfix.trans after)))
  refine ⟨?_, ?_, ?_⟩
  · rw [ofKey]
    exact fun sep => clean (sep.trans before.isInfix)
  · rw [ofType, gaugeType]
    split_ifs
    · decide
    · decide
    · exact plain.1
    · exact plain.1
  · rw [ofType, gaugeType]
    split_ifs
    · decide
    · decide
    · exact plain.2
    · exact plain.2

theorem cut_of_parse (parsed : parse env parseFloat raw = .ok l) :
    (∃ second rest val, split ((split raw "|#").headD "") ":" = l.key :: second :: rest ∧
      l.cType = gaugeType ((split second "|").getD 1 "c") val) ∧
    (l.tags = env.sortTags (sortingTagsFromString l.tagstr) ∨ (l.tags = [] ∧ l.tagstr = "")) := by
  rw [parse] at parsed
  dsimp only at parsed
  split at parsed
  next key second rest pieces =>
    simp only [bind, Except.bind] at parsed
    split at parsed
    · cases parsed
    · split at parsed
      · cases parsed
      · split at parsed
        · obtain rfl := Except.ok.inj parsed
          exact ⟨⟨second, rest, _, pieces, rfl⟩, .inl rfl⟩
        · obtain rfl := Except.ok.inj parsed
          exact ⟨⟨second, rest, _, pieces, rfl⟩, .inr ⟨rfl, rfl⟩⟩
  next => cases parsed

theorem separated_of_parse (parsed : parse env parseFloat raw = .ok l) : Separated l := by
  obtain ⟨⟨second, rest, val, pieces, type⟩, _⟩ := cut_of_parse parsed
  refine separated_of_split ?_ pieces rfl type
  rcases first : split raw "|#" with _ | ⟨head, tail⟩
  · decide
  · have sep : "|#".toList = ['|', '#'] := by decide
    exact sep ▸ not_infix_of_split (by decide) first

/-- The key of a line can be taken apart again. -/
theorem statKey_inj (sep : Separated l) (sep' : Separated l') (same : statKey l = statKey l') :
    l.key = l'.key ∧ l.cType = l'.cType ∧ l.tagstr = l'.tagstr := by
  have front : ∀ {l : StatsdLine}, Separated l →
      ¬ ['|', '#'] <:+: l.key.toList ++ '|' :: l.cType.toList := by
    rintro l sep ⟨before, after, inside⟩
    rw [List.append_assoc] at inside
    rcases List.append_eq_append_iff.mp inside with ⟨m, left, right⟩ | ⟨m, left, right⟩
    · -- the separator begins in the key
      rcases m with _ | ⟨x, _ | ⟨y, m⟩⟩
      · exact sep.letters (by rw [← (List.cons.inj right).2]; rfl)
      · exact absurd (List.cons.inj (List.cons.inj right).2).1 (by decide)
      · obtain ⟨rfl, later⟩ := List.cons.inj right
        obtain ⟨rfl, _⟩ := List.cons.inj later
        exact sep.key ⟨before, m, by rw [left]; simp⟩
    · -- it begins after the key
      rcases m with _ | ⟨x, m⟩
      · exact sep.letters (by rw [(List.cons.inj right).2]; rfl)
      · refine sep.cType ?_
        rw [(List.cons.inj right).2]
        simp
  have text : ∀ l : StatsdLine, (statKey l).toList =
      (l.key.toList ++ '|' :: l.cType.toList) ++ '|' :: '#' :: l.tagstr.toList := by
    intro l
    have bar : "|".toList = ['|'] := by decide
    have hash : "|#".toList = ['|', '#'] := by decide
    simp [statKey, bar, hash]
  have chars := congrArg String.toList same
  rw [text, text] at chars
  obtain ⟨first, tags⟩ := cut_at_first (by decide) (front sep) (front sep') chars
  obtain ⟨key, type⟩ := cut_at_last sep.cType sep'.cType first
  exact ⟨String.toList_inj.mp key, String.toList_inj.mp type, String.toList_inj.mp tags⟩

/-- The text of the tags has the tags in it. -/
theorem mem_tags_iff (parsed : parse env parseFloat raw = .ok l) (t : Tag) :
    t ∈ l.tags ↔ t ∈ sortingTagsFromString l.tagstr := by
  rcases (cut_of_parse parsed).2 with sorted | ⟨none, empty⟩
  · rw [sorted, (env.sortTags_perm _).mem_iff]
  · have nothing : sortingTagsFromString "" = [] := by decide
    rw [none, empty, nothing]

theorem statKey_eq_iff {raw' : String} (parsed : parse env parseFloat raw = .ok l)
    (parsed' : parse env parseFloat raw' = .ok l') :
    (statKey l = statKey l' ↔ SameIdentity l l') ↔ WrittenAlike l l' := by
  constructor
  · intro agree same
    exact (statKey_inj (separated_of_parse parsed) (separated_of_parse parsed')
      (agree.mpr same)).2
  · intro alike
    constructor
    · intro same
      obtain ⟨key, type, tags⟩ :=
        statKey_inj (separated_of_parse parsed) (separated_of_parse parsed') same
      refine ⟨key, by rw [type], ?_⟩
      intro t
      rw [mem_tags_iff parsed, mem_tags_iff parsed', tags]
    · intro same
      obtain ⟨type, tags⟩ := alike same
      rw [statKey, statKey, same.key, type, tags]

end StatsdAccumulate

/-! ### Both -/

section Main

variable {Raw Line Item : Type} {K : Kind Raw Line Item}

theorem mem_parsedLines {raws : List Raw} {l : Line} (mem : l ∈ parsedLines K raws) :
    ∃ raw, K.parse raw = .ok l := by
  obtain ⟨raw, _, parsed⟩ := List.mem_filterMap.mp mem
  refine ⟨raw, ?_⟩
  rcases result : K.parse raw with error | line
  · rw [result] at parsed
    cases parsed
  · rw [result] at parsed
    rw [Option.some.inj parsed]

/-- Lines share an item just when they are of one metric, for graphite when keys and tags do
not run into each other, and for statsd when a metric is always written alike. -/
theorem groupsBy_identity_iff {env : Naming} (sorts : SortsTags env)
    (parseFloat : String → Option Parsed) (hashed : String → BitVec 64) :
    (∀ (a : GraphiteAccumulate) (raws : List (String × Int)),
      (∀ raw ∈ raws, ∃ line, a.parse env parseFloat raw = .ok line) →
      (∀ l ∈ parsedLines (a.kind env parseFloat) raws, GraphiteAccumulate.Clean l) →
      (GroupsBy (a.kind env parseFloat) a.SameIdentity raws ↔
        ∀ l ∈ parsedLines (a.kind env parseFloat) raws,
          ∀ l' ∈ parsedLines (a.kind env parseFloat) raws, a.Distinct l l')) ∧
    ∀ (a : StatsdAccumulate) (raws : List String),
      (∀ raw ∈ raws, ∃ line, StatsdAccumulate.parse env parseFloat raw = .ok line) →
      (GroupsBy (a.kind env parseFloat hashed) StatsdAccumulate.SameIdentity raws ↔
        ∀ l ∈ parsedLines (a.kind env parseFloat hashed) raws,
          ∀ l' ∈ parsedLines (a.kind env parseFloat hashed) raws,
            StatsdAccumulate.WrittenAlike l l') := by
  constructor
  · intro a raws wellFormed clean
    rw [← a.kind_parse env parseFloat] at wellFormed
    rw [groupsBy_iff wellFormed, a.kind_key]
    constructor
    · intro agree l mem l' mem'
      exact GraphiteAccumulate.distinct_of_iff (clean l mem) (clean l' mem') (agree l mem l' mem')
    · intro distinct l mem l' mem'
      obtain ⟨raw, parsed⟩ := mem_parsedLines mem
      obtain ⟨raw', parsed'⟩ := mem_parsedLines mem'
      rw [a.kind_parse] at parsed parsed'
      exact GraphiteAccumulate.iff_of_distinct sorts parsed parsed' (clean l mem) (clean l' mem')
        (distinct l mem l' mem') (distinct l' mem' l mem)
  · intro a raws wellFormed
    rw [← a.kind_parse env parseFloat hashed] at wellFormed
    rw [groupsBy_iff wellFormed, a.kind_key]
    refine forall₂_congr fun l mem => forall₂_congr fun l' mem' => ?_
    obtain ⟨raw, parsed⟩ := mem_parsedLines mem
    obtain ⟨raw', parsed'⟩ := mem_parsedLines mem'
    rw [a.kind_parse] at parsed parsed'
    exact StatsdAccumulate.statKey_eq_iff parsed parsed'

end Main

/-! ### Lines that are grouped well, and lines that are not -/

def tenSecondBuckets : GraphiteAccumulate := ⟨10000000000, .metrics2, .fnv⟩

/-- One metric twice, with its tags in another order. -/
def reordered : List (String × Int) := [("a 5 10 host=x unit=B", 0), ("a 7 12 unit=B host=x", 0)]

theorem groupsBy_identity_reordered :
    (parsedLines (tenSecondBuckets.kind sortedNaming wholeNumber) reordered).length = 2 ∧
      GroupsBy (tenSecondBuckets.kind sortedNaming wholeNumber) tenSecondBuckets.SameIdentity
        reordered := by
  have lines : parsedLines (tenSecondBuckets.kind sortedNaming wholeNumber) reordered =
      [⟨"a", [⟨"host", "x"⟩, ⟨"unit", "B"⟩], [], 10000000000, some 5⟩,
        ⟨"a", [⟨"host", "x"⟩, ⟨"unit", "B"⟩], [], 12000000000, some 7⟩] := by decide +kernel
  refine ⟨by rw [lines]; rfl, ?_⟩
  refine ((groupsBy_identity_iff sortsTags_sortedNaming wholeNumber fun _ => 0#64).1
    tenSecondBuckets reordered ?_ ?_).mpr ?_
  · intro raw mem
    rcases List.mem_pair.mp mem with rfl | rfl
    · exact ⟨⟨"a", [⟨"host", "x"⟩, ⟨"unit", "B"⟩], [], 10000000000, some 5⟩, by decide +kernel⟩
    · exact ⟨⟨"a", [⟨"host", "x"⟩, ⟨"unit", "B"⟩], [], 12000000000, some 7⟩, by decide +kernel⟩
  · rw [lines]
    unfold GraphiteAccumulate.Clean
    decide +kernel
  · rw [lines]
    intro l mem l' mem'
    rcases List.mem_pair.mp mem with rfl | rfl <;> rcases List.mem_pair.mp mem' with rfl | rfl <;>
      exact ⟨fun _ _ => rfl, fun _ _ => by decide +kernel, by decide +kernel, nofun⟩

/-- A key that runs into its tag is another key, and tags in another order are other tags. -/
theorem not_grouped :
    ¬ GroupsBy (tenSecondBuckets.kind sortedNaming wholeNumber) tenSecondBuckets.SameIdentity
      [("a 5 10 host=b", 0), ("ahost.b 7 10", 0)] ∧
    ¬ GroupsBy ((⟨.metrics2, .fnv⟩ : StatsdAccumulate).kind sortedNaming wholeNumber fun _ => 0#64)
      StatsdAccumulate.SameIdentity ["a:5|c|#x=1,y=2", "a:7|c|#y=2,x=1"] := by
  constructor
  · have lines : parsedLines (tenSecondBuckets.kind sortedNaming wholeNumber)
        [("a 5 10 host=b", 0), ("ahost.b 7 10", 0)] =
        [⟨"a", [⟨"host", "b"⟩], [], 10000000000, some 5⟩,
          ⟨"ahost.b", [], [], 10000000000, some 7⟩] := by decide +kernel
    rw [groupsBy_iff, lines]
    · intro agree
      have same := (agree _ List.mem_cons_self _ (List.mem_cons_of_mem _ List.mem_cons_self)).mp
        (by decide +kernel)
      exact absurd same.key (by decide)
    · intro raw mem
      rcases List.mem_pair.mp mem with rfl | rfl
      · exact ⟨⟨"a", [⟨"host", "b"⟩], [], 10000000000, some 5⟩, by decide +kernel⟩
      · exact ⟨⟨"ahost.b", [], [], 10000000000, some 7⟩, by decide +kernel⟩
  · have lines : parsedLines
        ((⟨.metrics2, .fnv⟩ : StatsdAccumulate).kind sortedNaming wholeNumber fun _ => 0#64)
        ["a:5|c|#x=1,y=2", "a:7|c|#y=2,x=1"] =
        [⟨"a", "c", "5", some 5, some 1, [⟨"x", "1"⟩, ⟨"y", "2"⟩], "x=1,y=2"⟩,
          ⟨"a", "c", "7", some 7, some 1, [⟨"x", "1"⟩, ⟨"y", "2"⟩], "y=2,x=1"⟩] := by
      decide +kernel
    rw [groupsBy_iff, lines]
    · intro agree
      have key := (agree _ List.mem_cons_self _ (List.mem_cons_of_mem _ List.mem_cons_self)).mpr
        ⟨rfl, rfl, fun _ => Iff.rfl⟩
      exact absurd key (by decide +kernel)
    · intro raw mem
      rcases List.mem_pair.mp mem with rfl | rfl
      · exact ⟨⟨"a", "c", "5", some 5, some 1, [⟨"x", "1"⟩, ⟨"y", "2"⟩], "x=1,y=2"⟩,
          by decide +kernel⟩
      · exact ⟨⟨"a", "c", "7", some 7, some 1, [⟨"x", "1"⟩, ⟨"y", "2"⟩], "y=2,x=1"⟩,
          by decide +kernel⟩

end Accumulator
