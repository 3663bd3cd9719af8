import Cadent.Lib.Words
import Cadent.Schemas.TagMerge

/-!
# The text that a metric's id is the hash of

A name is hashed as its key, its tags in order and, where all tags count and there are some,
its meta tags in order, with colons between them. The id is written and read in base 36.
-/

namespace Repr

open Text

/-! ### Base 36 -/

def digitValue36 (c : Char) : Option Nat :=
  if '0' ≤ c ∧ c ≤ '9' then some (c.toNat - 48)
  else if 'a' ≤ c ∧ c ≤ 'z' then some (c.toNat - 87)
  else if 'A' ≤ c ∧ c ≤ 'Z' then some (c.toNat - 55)
  else none

/-- `strconv.ParseUint(text, 36, 64)`. -/
def parseUint36 (text : String) : Option (BitVec 64) := do
  let digits ← text.toList.mapM digitValue36
  let n := digits.foldl (fun n d => 36 * n + d) 0
  if digits = [] ∨ 2 ^ 64 ≤ n then none else some (BitVec.ofNat 64 n)

def stringToUniqueId (inid : String) : BitVec 64 := (parseUint36 inid).getD 0#64

theorem foldl_reverse_digits (l : List Nat) :
    l.reverse.foldl (fun n d => 36 * n + d) 0 = Nat.ofDigits 36 l := by
  rw [List.foldl_reverse, Nat.ofDigits_eq_foldr]
  congr 1
  funext d n
  exact Nat.add_comm _ _

theorem mapM_digitValue36 {l : List Nat} (small : ∀ d ∈ l, d < 36) :
    (l.map digit36).mapM digitValue36 = some l := by
  have digits : ∀ d < 36, digitValue36 (digit36 d) = some d := by decide
  induction l with
  | nil => rfl
  | cons d l ih =>
    obtain ⟨first, rest⟩ := List.forall_mem_cons.mp small
    rw [List.map_cons, List.mapM_cons, digits d first, ih rest]
    rfl

theorem stringToUniqueId_formatUint36 (id : BitVec 64) :
    stringToUniqueId (formatUint36 id) = id := by
  by_cases zero : id = 0#64
  · rw [zero]
    decide
  · have hpos : id.toNat ≠ 0 := fun h => zero (BitVec.eq_of_toNat_eq h)
    have hsmall : ∀ d ∈ (Nat.digits 36 id.toNat).reverse, d < 36 := fun d mem =>
      Nat.digits_lt_base (by decide) (List.mem_reverse.mp mem)
    have hsome : (Nat.digits 36 id.toNat).reverse ≠ [] := by
      simpa [Nat.digits_eq_nil_iff_eq_zero] using hpos
    have hvalue : (Nat.digits 36 id.toNat).reverse.foldl (fun n d => 36 * n + d) 0 = id.toNat := by
      rw [foldl_reverse_digits, Nat.ofDigits_digits]
    have hparsed : parseUint36 (formatUint36 id) = some id := by
      unfold parseUint36
      rw [formatUint36, if_neg zero, String.toList_ofList, mapM_digitValue36 hsmall]
      simp only [Option.bind_eq_bind, Option.bind_some, hvalue]
      rw [if_neg (not_or.mpr ⟨hsome, not_le.mpr id.isLt⟩), BitVec.ofNat_toNat, BitVec.setWidth_eq]
    rw [stringToUniqueId, hparsed]
    rfl

/-! ### The text of tags -/

/-- A text without the separators of a name. -/
def Plain (text : String) : Prop := ∀ c ∈ [':', '=', ' '], c ∉ text.toList
  deriving Decidable

/-- Tags with plain names and values, and no name twice. -/
structure PlainTags (tags : List Tag) : Prop where
  names : ∀ t ∈ tags, Plain t.name
  values : ∀ t ∈ tags, Plain t.value
  distinct : (tagNames tags).Nodup

theorem PlainTags.of_perm {tags tags' : List Tag} (plain : PlainTags tags)
    (perm : tags'.Perm tags) :
    PlainTags tags' where
  names t mem := plain.names t (perm.mem_iff.mp mem)
  values t mem := plain.values t (perm.mem_iff.mp mem)
  distinct := (perm.map _).nodup_iff.mpr plain.distinct

theorem notMem_tag {t : Tag} {c : Char} (name : c ∉ t.name.toList) (eq : c ≠ '=')
    (value : c ∉ t.value.toList) : c ∉ (t.name ++ "=" ++ t.value).toList := by
  simp [name, eq, value]

theorem split_baseString {tags : List Tag} (plain : PlainTags tags) (some : tags ≠ []) :
    split (baseString tags) " " = tags.map fun t => t.name ++ "=" ++ t.value := by
  apply split_intercalate rfl
  · simpa using some
  · intro part mem
    obtain ⟨t, listed, rfl⟩ := List.mem_map.mp mem
    exact notMem_tag (plain.names t listed ' ' (by decide)) (by decide)
      (plain.values t listed ' ' (by decide))

theorem baseString_ne_empty {tags : List Tag} (plain : PlainTags tags) (some : tags ≠ []) :
    baseString tags ≠ "" := by
  intro empty
  have hsplit := split_baseString plain some
  rw [empty] at hsplit
  -- the one part of an empty text is empty, and a tag has its sign
  have hpart : split "" " " = [""] := by decide
  rw [hpart] at hsplit
  rcases tags with _ | ⟨t, tags⟩
  · exact some rfl
  · have htext := congrArg String.toList (List.cons.inj hsplit).1
    simp at htext

theorem map_text_inj {tags tags' : List Tag} (plain : PlainTags tags)
    (same : (tags.map fun t => t.name ++ "=" ++ t.value) =
      tags'.map fun t => t.name ++ "=" ++ t.value) :
    tags = tags' := by
  induction tags generalizing tags' with
  | nil => exact (List.map_eq_nil_iff.mp same.symm).symm
  | cons t tags ih =>
    rcases tags' with _ | ⟨t', tags'⟩
    · cases same
    · obtain ⟨first, rest⟩ := List.cons.inj same
      obtain ⟨name, value⟩ := (append_sep_inj rfl (plain.names t (by simp) '=' (by decide))
        (plain.values t (by simp) '=' (by decide))).mp first
      have plain' : PlainTags tags :=
        ⟨fun s mem => plain.names s (List.mem_cons_of_mem _ mem),
          fun s mem => plain.values s (List.mem_cons_of_mem _ mem),
            (List.nodup_cons.mp plain.distinct).2⟩
      obtain rfl : t = t' := by
        cases t
        cases t'
        exact congrArg₂ Tag.mk name value
      rw [ih plain' rest]

theorem baseString_inj {tags tags' : List Tag} (plain : PlainTags tags) (plain' : PlainTags tags')
    (same : baseString tags = baseString tags') : tags = tags' := by
  by_cases none : tags = []
  · by_contra other
    apply baseString_ne_empty plain' (fun none' => other (none.trans none'.symm))
    rw [← same, none]
    rfl
  · have some' : tags' ≠ [] := by
      intro none'
      apply baseString_ne_empty plain none
      rw [same, none']
      rfl
    apply map_text_inj plain
    rw [← split_baseString plain none, ← split_baseString plain' some', same]

theorem colon_notMem_baseString {tags : List Tag} (plain : PlainTags tags) :
    ':' ∉ (baseString tags).toList := by
  intro mem
  rcases mem_intercalate mem with between | ⟨part, listed, inside⟩
  · revert between
    decide
  · obtain ⟨t, tagged, rfl⟩ := List.mem_map.mp listed
    exact notMem_tag (plain.names t tagged ':' (by decide)) (by decide)
      (plain.values t tagged ':' (by decide)) inside

namespace StatName

variable {env : Naming}

/-! ### The text of a name -/

variable (env) in
/-- What stands between the colons of the text that is hashed. -/
def idParts (s : StatName) : List String :=
  s.key :: baseString (env.sortTags s.tags) ::
    if s.tagMode = .all ∧ s.metaTags ≠ [] then [baseString (env.sortTags s.metaTags)] else []

variable (env) in
/-- The text that `UniqueId` hashes. -/
def idSource (s : StatName) : String := String.intercalate ":" (s.idParts env)

/-- A name as the text of its id can be read back from. -/
structure Clean (s : StatName) : Prop where
  key : ':' ∉ s.key.toList
  tags : PlainTags s.tags
  metaTags : PlainTags s.metaTags

theorem sortTags_eq_iff (sorts : SortsTags env) {tags tags' : List Tag} (plain : PlainTags tags)
    (plain' : PlainTags tags') :
    env.sortTags tags = env.sortTags tags' ↔ ∀ t, t ∈ tags ↔ t ∈ tags' := by
  have hsorted := env.sortTags_perm tags
  have hsorted' := env.sortTags_perm tags'
  constructor
  · intro same t
    rw [← hsorted.mem_iff, same, hsorted'.mem_iff]
  · intro same
    refine eq_of_same_tags (sorts _) (sorts _) (plain.of_perm hsorted).distinct
      (plain'.of_perm hsorted').distinct fun t => ?_
    rw [hsorted.mem_iff, same, hsorted'.mem_iff]

theorem baseString_sortTags_eq_iff (sorts : SortsTags env) {tags tags' : List Tag}
    (plain : PlainTags tags) (plain' : PlainTags tags') :
    baseString (env.sortTags tags) = baseString (env.sortTags tags') ↔
      ∀ t, t ∈ tags ↔ t ∈ tags' := by
  rw [← sortTags_eq_iff sorts plain plain']
  constructor
  · exact baseString_inj (plain.of_perm (env.sortTags_perm _))
      (plain'.of_perm (env.sortTags_perm _))
  · exact congrArg _

theorem Clean.colon_notMem {s : StatName} (clean : s.Clean) :
    ∀ part ∈ s.idParts env, ':' ∉ part.toList := by
  have htags := colon_notMem_baseString (clean.tags.of_perm (env.sortTags_perm _))
  have hmetas := colon_notMem_baseString (clean.metaTags.of_perm (env.sortTags_perm _))
  intro part mem
  rcases List.mem_cons.mp mem with rfl | mem
  · exact clean.key
  · rcases List.mem_cons.mp mem with rfl | mem
    · exact htags
    · split_ifs at mem
      · rw [List.mem_singleton.mp mem]
        exact hmetas
      · cases mem

theorem Clean.split_idSource {s : StatName} (clean : s.Clean) :
    split (s.idSource env) ":" = s.idParts env :=
  split_intercalate rfl (List.cons_ne_nil _ _) clean.colon_notMem

/-- Clean names are hashed as one text when they have the same key and the same tags. -/
theorem idSource_eq_iff (sorts : SortsTags env) {s s' : StatName} (mode : s.tagMode = s'.tagMode)
    (clean : s.Clean) (clean' : s'.Clean) :
    s.idSource env = s'.idSource env ↔ s.key = s'.key ∧ (∀ t, t ∈ s.tags ↔ t ∈ s'.tags) ∧
      (s.tagMode = .all → ∀ t, t ∈ s.metaTags ↔ t ∈ s'.metaTags) := by
  have hparts : s.idSource env = s'.idSource env ↔ s.idParts env = s'.idParts env := by
    constructor
    · intro same
      rw [← clean.split_idSource, ← clean'.split_idSource, same]
    · exact congrArg _
  have htags := baseString_sortTags_eq_iff sorts clean.tags clean'.tags
  have hmetas := baseString_sortTags_eq_iff sorts clean.metaTags clean'.metaTags
  rw [hparts, idParts, idParts, List.cons.injEq, List.cons.injEq, htags, ← mode]
  refine and_congr_right fun _ => and_congr_right fun _ => ?_
  by_cases all : s.tagMode = .all
  · -- that there are no meta tags shows in the number of parts
    by_cases none : s.metaTags = [] <;> by_cases none' : s'.metaTags = []
    · simp [none, none']
    · simpa [all, none, none'] using List.exists_mem_of_ne_nil _ none'
    · simpa [all, none, none'] using List.exists_mem_of_ne_nil _ none
    · simp [all, none, none', hmetas]
  · simp [all]

/-! ### The id, however often it is asked for -/

inductive Ask where
  | uniqueId
  | uniqueIdString
  deriving DecidableEq, Repr

variable (env) in
/-- The name as one call leaves it behind. -/
def ask (s : StatName) : Ask → StatName
  | .uniqueId => (s.uniqueId env).1
  | .uniqueIdString => s.asked env

variable (env) in
def askAll (s : StatName) (asks : List Ask) : StatName := asks.foldl (ask env) s

variable (env) in
/-- The id that a name was given, or the hash of its text. -/
def ownId (s : StatName) : BitVec 64 :=
  if s.xxxUniqueId = 0#64 then env.hashIt s.hashMode (s.idSource env) else s.xxxUniqueId

variable (env) in
/-- A name that has the key and the tags it began with, and no id but its own. -/
structure Answering (s₀ s : StatName) : Prop where
  key : s.key = s₀.key
  tagMode : s.tagMode = s₀.tagMode
  hashMode : s.hashMode = s₀.hashMode
  tags : s.tags.Perm s₀.tags
  metaTags : s.metaTags.Perm s₀.metaTags
  id : s.xxxUniqueId = s₀.xxxUniqueId ∨ s.xxxUniqueId = s₀.ownId env
  text : s.xxxUniqueIdstr = "" ∨ s.xxxUniqueIdstr = formatUint36 (s₀.ownId env)

theorem answering_refl {s : StatName} (noText : s.xxxUniqueIdstr = "") : Answering env s s :=
  ⟨rfl, rfl, rfl, .refl _, .refl _, .inl rfl, .inl noText⟩

/-- The text is that of the name before it was asked, whose tags may stand in another order. -/
theorem Answering.idSource {s₀ s : StatName} (sorts : SortsTags env) (clean : s₀.Clean)
    (answering : Answering env s₀ s) : s.idSource env = s₀.idSource env := by
  have hkey : ':' ∉ s.key.toList := by
    rw [answering.key]
    exact clean.key
  have hclean : s.Clean :=
    ⟨hkey, clean.tags.of_perm answering.tags, clean.metaTags.of_perm answering.metaTags⟩
  exact (idSource_eq_iff sorts answering.tagMode hclean clean).mpr
    ⟨answering.key, fun _ => answering.tags.mem_iff, fun _ _ => answering.metaTags.mem_iff⟩

theorem Answering.ownId {s₀ s : StatName} (sorts : SortsTags env) (clean : s₀.Clean)
    (answering : Answering env s₀ s) : s.ownId env = s₀.ownId env := by
  have hhash : env.hashIt s.hashMode (s.idSource env) =
      env.hashIt s₀.hashMode (s₀.idSource env) := by
    rw [answering.idSource sorts clean, answering.hashMode]
  have hid := answering.id
  simp only [StatName.ownId, hhash] at hid ⊢
  grind

variable (env) in
/-- What is hashed is the text, and nothing else of the name goes into its id. -/
theorem uniqueId_ownId (s : StatName) :
    (s.uniqueId env).2 = s.ownId env ∧ (s.uniqueId env).1.xxxUniqueId = s.ownId env := by
  rw [uniqueId, ownId, idSource, idParts]
  by_cases unknown : s.xxxUniqueId = 0#64
  · rw [if_neg (not_not.mpr unknown), if_pos unknown]
    by_cases metas : s.tagMode = .all ∧ s.metaTags ≠ []
    · rw [if_pos metas, if_pos metas]
      simp [sortedTags, sortedMetaTags, String.intercalate_cons_cons, String.append_assoc]
    · rw [if_neg metas, if_neg metas]
      simp [sortedTags, String.intercalate_cons_cons, String.append_assoc]
  · rw [if_pos unknown, if_neg unknown]
    exact ⟨rfl, rfl⟩

/-- The id is the name's own, and a name that has been asked for it answers as before. -/
theorem Answering.uniqueId {s₀ s : StatName} (sorts : SortsTags env) (clean : s₀.Clean)
    (answering : Answering env s₀ s) :
    (s.uniqueId env).2 = s₀.ownId env ∧ Answering env s₀ (s.uniqueId env).1 := by
  obtain ⟨hid, hknown⟩ := uniqueId_ownId env s
  rw [answering.ownId sorts clean] at hid hknown
  refine ⟨hid, ?_⟩
  obtain ⟨id, tags, metaTags, eq, perm, perm', _⟩ := uniqueId_cases env s
  rw [eq] at hknown ⊢
  exact ⟨answering.key, answering.tagMode, answering.hashMode, perm.trans answering.tags,
    perm'.trans answering.metaTags, .inr hknown, answering.text⟩

theorem Answering.uniqueIdString {s₀ s : StatName} (sorts : SortsTags env) (clean : s₀.Clean)
    (answering : Answering env s₀ s) :
    s.idText env = formatUint36 (s₀.ownId env) ∧ Answering env s₀ (s.asked env) := by
  rw [idText, asked, StatName.uniqueIdString]
  split_ifs with unknown
  · obtain ⟨hid, hafter⟩ := answering.uniqueId sorts clean
    dsimp only
    rw [hid]
    exact ⟨rfl, { hafter with text := .inr rfl }⟩
  · exact ⟨answering.text.resolve_left unknown, answering⟩

theorem Answering.askAll {s₀ s : StatName} (sorts : SortsTags env) (clean : s₀.Clean)
    (answering : Answering env s₀ s) (asks : List Ask) : Answering env s₀ (s.askAll env asks) := by
  induction asks generalizing s with
  | nil => exact answering
  | cons ask asks ih =>
    apply ih
    cases ask with
    | uniqueId => exact (answering.uniqueId sorts clean).2
    | uniqueIdString => exact (answering.uniqueIdString sorts clean).2

variable (env) in
/-- The id is the one given or the hash of the text, its own text is read back as the id, and the
tags are those there were. -/
structure Identified (s₀ s : StatName) : Prop where
  uniqueId : (s.uniqueId env).2 =
    if s₀.xxxUniqueId = 0#64 then env.hashIt s₀.hashMode (s₀.idSource env) else s₀.xxxUniqueId
  uniqueIdString : stringToUniqueId (s.uniqueIdString env).2 = (s.uniqueId env).2
  tags : ∀ t, t ∈ s.tags ↔ t ∈ s₀.tags
  metaTags : ∀ t, t ∈ s.metaTags ↔ t ∈ s₀.metaTags

/-- The text that is hashed tells the key and the set of tags, and a name answers with the hash of
it and with a text for that hash, in whatever order and however often it is asked. -/
theorem uniqueId_identifies (sorts : SortsTags env) {s s' : StatName}
    (mode : s.tagMode = s'.tagMode) (clean : s.Clean) (clean' : s'.Clean) :
    (s.idSource env = s'.idSource env ↔ s.key = s'.key ∧ (∀ t, t ∈ s.tags ↔ t ∈ s'.tags) ∧
      (s.tagMode = .all → ∀ t, t ∈ s.metaTags ↔ t ∈ s'.metaTags)) ∧
    (s.xxxUniqueIdstr = "" → ∀ asks, Identified env s (s.askAll env asks)) := by
  refine ⟨idSource_eq_iff sorts mode clean clean', fun noText asks => ?_⟩
  have hanswering := (answering_refl noText).askAll sorts clean asks
  obtain ⟨hid, _⟩ := hanswering.uniqueId sorts clean
  obtain ⟨htext, _⟩ := hanswering.uniqueIdString sorts clean
  have hread : stringToUniqueId ((s.askAll env asks).uniqueIdString env).2 = s.ownId env := by
    rw [← idText, htext, stringToUniqueId_formatUint36]
  exact ⟨hid, hread.trans hid.symm, fun _ => hanswering.tags.mem_iff,
    fun _ => hanswering.metaTags.mem_iff⟩

/-- A name with two tags and a meta tag, and the name with its tags the other way round. -/
theorem uniqueId_identifies_swapped :
    let host : Tag := ⟨"host", "a"⟩
    let zone : Tag := ⟨"zone", "b"⟩
    let s : StatName := ⟨"cpu", 0#64, "", 0#32, 0#32, .all, .fnv, [zone, host], [⟨"x", "y"⟩]⟩
    let s' : StatName := ⟨"cpu", 0#64, "", 0#32, 0#32, .all, .farm, [host, zone], [⟨"x", "y"⟩]⟩
    s.idSource sortedNaming = s'.idSource sortedNaming ∧
      Identified sortedNaming s (s.askAll sortedNaming [.uniqueIdString, .uniqueId]) := by
  intro host zone s s'
  have plain : ∀ tags : List Tag, (∀ t ∈ tags, Plain t.name ∧ Plain t.value) →
      (tagNames tags).Nodup → PlainTags tags := fun tags plain distinct =>
    ⟨fun t mem => (plain t mem).1, fun t mem => (plain t mem).2, distinct⟩
  have clean : s.Clean := ⟨by decide, plain _ (by simp [s, host, zone, Plain]) (by decide),
    plain _ (by simp [s, Plain]) (by decide)⟩
  have clean' : s'.Clean := ⟨by decide, plain _ (by simp [s', host, zone, Plain]) (by decide),
    plain _ (by simp [s', Plain]) (by decide)⟩
  have mode : s.tagMode = s'.tagMode := rfl
  obtain ⟨same, identified⟩ := uniqueId_identifies sortsTags_sortedNaming mode clean clean'
  refine ⟨same.mpr ⟨rfl, fun t => ?_, fun _ _ => Iff.rfl⟩, identified rfl _⟩
  rw [List.mem_pair, List.mem_pair, or_comm]

end StatName

end Repr
