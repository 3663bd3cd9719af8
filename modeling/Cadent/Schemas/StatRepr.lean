import Cadent.Lib.Keys

/-!
# Names and stats

A `StatRepr` and the `StatName` it points to are objects of a heap, since stats share names
and a name remembers its unique id once it has been asked for it. The tags are part of their
name. The hash of a name is a parameter, and so is `sort.Sort` over tags, which is only known
to permute them. Values are of any type; times are `int64`.
-/

namespace Repr

open Keys

structure Tag where
  name : String
  value : String
  deriving DecidableEq, Repr

inductive TagMode where
  | metrics2
  | all
  deriving DecidableEq, Repr

inductive HashMode where
  | fnv
  | farm
  deriving DecidableEq, Repr

structure StatName where
  key : String
  xxxUniqueId : BitVec 64
  xxxUniqueIdstr : String
  resolution : BitVec 32
  ttl : BitVec 32
  tagMode : TagMode
  hashMode : HashMode
  tags : List Tag
  metaTags : List Tag
  deriving DecidableEq, Repr

/-- The code outside of the repository that names depend on. -/
structure Naming where
  hashIt : HashMode → String → BitVec 64
  sortTags : List Tag → List Tag
  sortTags_perm : ∀ l, (sortTags l).Perm l

/-- A naming to evaluate definitions with. -/
def plainNaming : Naming := ⟨fun _ text => BitVec.ofNat 64 text.length, id, fun _ => .refl _⟩

def baseString (tags : List Tag) : String :=
  String.intercalate " " (tags.map fun t => t.name ++ "=" ++ t.value)

def digit36 (d : Nat) : Char := if d < 10 then Char.ofNat (48 + d) else Char.ofNat (87 + d)

/-- `strconv.FormatUint` in base 36. -/
def formatUint36 (id : BitVec 64) : String :=
  if id = 0#64 then "0" else String.ofList ((Nat.digits 36 id.toNat).reverse.map digit36)

namespace StatName

variable (env : Naming)

def sortedTags (s : StatName) : StatName := { s with tags := env.sortTags s.tags }

def sortedMetaTags (s : StatName) : StatName := { s with metaTags := env.sortTags s.metaTags }

/-- The id, and the name with the id in it and its tags in order. -/
def uniqueId (s : StatName) : StatName × BitVec 64 :=
  if s.xxxUniqueId ≠ 0#64 then (s, s.xxxUniqueId)
  else if s.tagMode = .all ∧ s.metaTags ≠ [] then
    let s := (s.sortedTags env).sortedMetaTags env
    let id := env.hashIt s.hashMode
      (s.key ++ ":" ++ baseString s.tags ++ ":" ++ baseString s.metaTags)
    ({ s with xxxUniqueId := id }, id)
  else
    let s := s.sortedTags env
    let id := env.hashIt s.hashMode (s.key ++ ":" ++ baseString s.tags)
    ({ s with xxxUniqueId := id }, id)

/-- The text of the id, and the name with both in it. -/
def uniqueIdString (s : StatName) : StatName × String :=
  if s.xxxUniqueIdstr = "" then
    let asked := s.uniqueId env
    ({ asked.1 with xxxUniqueIdstr := formatUint36 asked.2 }, formatUint36 asked.2)
  else (s, s.xxxUniqueIdstr)

/-- The id that a name is filed under. -/
def idText (s : StatName) : String := (s.uniqueIdString env).2

/-- The name as `UniqueIdString` leaves it behind. -/
def asked (s : StatName) : StatName := (s.uniqueIdString env).1

/-- Nothing of a name has changed but that it remembers its id and has its tags in order. -/
structure Kept (s s' : StatName) : Prop where
  key : s'.key = s.key
  resolution : s'.resolution = s.resolution
  ttl : s'.ttl = s.ttl
  tagMode : s'.tagMode = s.tagMode
  hashMode : s'.hashMode = s.hashMode
  tags : s'.tags.Perm s.tags
  metaTags : s'.metaTags.Perm s.metaTags
  xxxUniqueId : s.xxxUniqueId ≠ 0#64 → s'.xxxUniqueId = s.xxxUniqueId
  xxxUniqueIdstr : s.xxxUniqueIdstr ≠ "" → s'.xxxUniqueIdstr = s.xxxUniqueIdstr
  idText : s'.idText env = s.idText env

end StatName

/-! ### What a name remembers -/

theorem formatUint36_chars (id : BitVec 64) :
    ∃ c cs, (formatUint36 id).toList = c :: cs ∧ '-' ∉ c :: cs := by
  by_cases zero : id = 0#64
  · subst zero
    exact ⟨'0', [], by decide, by decide⟩
  · have small : ∀ d < 36, digit36 d ≠ '-' := by decide
    have pos : id.toNat ≠ 0 := fun h => zero (BitVec.eq_of_toNat_eq h)
    have chars : (formatUint36 id).toList = (Nat.digits 36 id.toNat).reverse.map digit36 := by
      rw [formatUint36, if_neg zero, String.toList_ofList]
    have clean : '-' ∉ (Nat.digits 36 id.toNat).reverse.map digit36 := by
      intro mem
      obtain ⟨d, digit, eq⟩ := List.mem_map.mp mem
      exact small d (Nat.digits_lt_base (by decide) (List.mem_reverse.mp digit)) eq
    rcases digits : (Nat.digits 36 id.toNat).reverse.map digit36 with _ | ⟨c, cs⟩
    · simp [Nat.digits_eq_nil_iff_eq_zero, pos] at digits
    · rw [digits] at chars clean
      exact ⟨c, cs, chars, clean⟩

theorem formatUint36_ne_empty (id : BitVec 64) : formatUint36 id ≠ "" := by
  obtain ⟨c, cs, chars, _⟩ := formatUint36_chars id
  intro empty
  rw [empty] at chars
  cases chars

theorem not_endsInDash_formatUint36 (id : BitVec 64) : ¬ EndsInDash (formatUint36 id) := by
  obtain ⟨c, cs, chars, clean⟩ := formatUint36_chars id
  intro dash
  rw [EndsInDash, chars] at dash
  exact clean (List.mem_of_getLast? dash)

namespace StatName

variable {env : Naming} {s : StatName}

theorem uniqueIdString_of_ne (known : s.xxxUniqueIdstr ≠ "") :
    s.uniqueIdString env = (s, s.xxxUniqueIdstr) := by
  rw [uniqueIdString, if_neg known]

theorem idText_eq (s : StatName) : s.idText env = (s.asked env).xxxUniqueIdstr := by
  rw [idText, asked, uniqueIdString]
  split_ifs <;> rfl

theorem idText_ne_empty (s : StatName) : s.idText env ≠ "" := by
  rw [idText, uniqueIdString]
  split_ifs with unknown
  · exact formatUint36_ne_empty _
  · exact unknown

theorem asked_asked (s : StatName) : (s.asked env).asked env = s.asked env := by
  have known : (s.asked env).xxxUniqueIdstr ≠ "" := by
    rw [← idText_eq]
    exact idText_ne_empty s
  rw [asked, uniqueIdString_of_ne known]

variable (env) in
theorem idText_asked (s : StatName) : (s.asked env).idText env = s.idText env := by
  rw [idText_eq, asked_asked, idText_eq]

/-- An id is a dash at its end only when it was forced to be. -/
theorem not_endsInDash_idText (clean : ¬ EndsInDash s.xxxUniqueIdstr) :
    ¬ EndsInDash (s.idText env) := by
  rw [idText, uniqueIdString]
  split_ifs
  · exact not_endsInDash_formatUint36 _
  · exact clean

theorem kept_refl (s : StatName) : Kept env s s :=
  ⟨rfl, rfl, rfl, rfl, rfl, .refl _, .refl _, fun _ => rfl, fun _ => rfl, rfl⟩

variable (env) in
/-- To ask for the id changes the tags' order and the id alone. -/
theorem uniqueId_cases (s : StatName) : ∃ id tags metaTags,
    (s.uniqueId env).1 = { s with xxxUniqueId := id, tags := tags, metaTags := metaTags } ∧
      tags.Perm s.tags ∧ metaTags.Perm s.metaTags ∧
        (s.xxxUniqueId ≠ 0#64 → id = s.xxxUniqueId) := by
  rw [uniqueId]
  split_ifs with known meta'
  · exact ⟨_, _, _, rfl, .refl _, .refl _, fun _ => rfl⟩
  · exact ⟨_, _, _, rfl, env.sortTags_perm _, env.sortTags_perm _, fun h => absurd h known⟩
  · exact ⟨_, _, _, rfl, env.sortTags_perm _, .refl _, fun h => absurd h known⟩

theorem kept_asked (s : StatName) : Kept env s (s.asked env) := by
  have remembered := idText_asked env s
  by_cases unknown : s.xxxUniqueIdstr = ""
  · obtain ⟨id, tags, metaTags, eq, perm, perm', same⟩ := uniqueId_cases env s
    have value : s.asked env = { s with
        xxxUniqueId := id, tags := tags, metaTags := metaTags
        xxxUniqueIdstr := formatUint36 (s.uniqueId env).2 } := by
      rw [asked, uniqueIdString, if_pos unknown]
      dsimp only
      rw [eq]
    rw [value] at remembered ⊢
    exact ⟨rfl, rfl, rfl, rfl, rfl, perm, perm', same, fun h => absurd unknown h, remembered⟩
  · rw [asked, uniqueIdString_of_ne unknown]
    exact kept_refl s

end StatName

structure StatRepr (α : Type) where
  /-- A reference to the name. -/
  name : Nat
  time : BitVec 64
  min : α
  max : α
  last : α
  sum : α
  count : Int
  deriving DecidableEq, Repr

structure Heap (α : Type) where
  stats : List (StatRepr α)
  names : List StatName
  deriving DecidableEq, Repr

/-- Nano or second timestamps, in nanoseconds since 1970. -/
def StatRepr.toTime {α : Type} (s : StatRepr α) : Int :=
  if 2147483647 < s.time.toInt then s.time.toInt else s.time.toInt * 1000000000

/-- A new object for the stat and one for its name. -/
def Heap.copy {α : Type} (h : Heap α) (stat : StatRepr α) (name : StatName) : Heap α :=
  ⟨h.stats ++ [{ stat with name := h.names.length }], h.names ++ [name]⟩

end Repr
