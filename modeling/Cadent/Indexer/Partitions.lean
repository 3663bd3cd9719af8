import Cadent.Indexer.MetricRam

/-!
# The partition of a path

The partition is chosen by the number of segments of a path, modulo the number of partitions and
less one. A path whose segments fill the partitions a whole number of times is given the index -1
and the process panics, after the metric has been taken out of the maps and the trie.
-/

namespace Indexer

open Maps Text Utils

def segments (path : String) : Nat := (split path ".").length

/-! ### The lowest part of a query -/

/-- The loop of `FindLowestPrefix` over the segments: what comes before the first pattern. -/
def longestChunk (longChunk : String) : List String → Option String
  | [] => none
  | pth :: segs =>
    if needRegex pth then some longChunk
    else longestChunk ((if longChunk = "" then "" else longChunk ++ ".") ++ pth) segs

/-- An iterator over a partition, from a key on, and the expression to match with. -/
structure Lowest where
  useDB : Nat
  reg : Option (String → Bool)
  key : String

inductive LowestOutcome where
  | found (lowest : Lowest)
  | failed (err : String)
  | panicked

/-- A pattern is compiled before the partition is chosen. -/
def findLowestPrefix (compile : String → Except String (String → Bool)) (path : String) :
    LowestOutcome :=
  let segs := split path "."
  let useKey :=
    if needRegex path then (longestChunk "" segs).getD path else path
  let reg := if needRegex path then (compile (fullRegString path)).map some else .ok none
  match reg, whichPartition path with
  | .error err, _ => .failed err
  | .ok _, none => .panicked
  | .ok reg, some useDB => .found ⟨useDB, reg, (segs.length - 1).repr ++ ":" ++ useKey⟩

/-! ### When there is a partition -/

theorem whichPartition_isSome_iff (path : String) :
    (whichPartition path).isSome ↔ ¬ numPartitions ∣ segments path := by
  rw [whichPartition, segments, length_split Utils.dot, Nat.dvd_iff_mod_eq_zero]
  split_ifs with full
  · simp [full]
  · simp [full]

/-- A path can be deleted unless its segments fill the partitions. -/
theorem delete_panicked_iff (mi : MetricIndex) (pth : String) :
    (mi.delete pth).2 = .panicked ↔ needRegex pth = false ∧ numPartitions ∣ segments pth := by
  have hpart := whichPartition_isSome_iff pth
  rw [MetricIndex.delete]
  split_ifs with pattern some
  · simp [pattern]
  · simp [pattern, hpart.mp some]
  · simp [pattern, not_not.mp (mt hpart.mpr some)]

theorem deleteByUid_panicked_iff (mi : MetricIndex) (uid : String) :
    (mi.deleteByUid uid).2 = .panicked ↔ ∃ pth, mi.uidIndex.lookup uid = some pth ∧
      needRegex pth = false ∧ numPartitions ∣ segments pth := by
  rcases found : mi.uidIndex.lookup uid with _ | pth
  · simp [MetricIndex.deleteByUid, found]
  · simp [MetricIndex.deleteByUid, found, delete_panicked_iff]

theorem findLowestPrefix_panicked_iff (compile : String → Except String (String → Bool))
    (path : String) : findLowestPrefix compile path = .panicked ↔
      (needRegex path = true → ∃ reg, compile (fullRegString path) = .ok reg) ∧
        numPartitions ∣ segments path := by
  have hpart := whichPartition_isSome_iff path
  rcases part : whichPartition path with _ | useDB
  · have hfull : numPartitions ∣ segments path := by
      rw [part] at hpart
      exact not_not.mp (mt hpart.mpr nofun)
    cases pattern : needRegex path with
    | false => simp [ findLowestPrefix, pattern, part, hfull]
    | true =>
      rcases compiled : compile (fullRegString path) with err | reg <;>
        simp [ findLowestPrefix, pattern, part, hfull, compiled, Except.map]
  · have hroom : ¬ numPartitions ∣ segments path := by
      rw [part] at hpart
      exact hpart.mp rfl
    cases pattern : needRegex path with
    | false => simp [ findLowestPrefix, pattern, part, hroom]
    | true =>
      rcases compiled : compile (fullRegString path) with err | reg <;>
        simp [ findLowestPrefix, pattern, part, hroom, compiled, Except.map]

/-- The calls that choose a partition panic just when the number of segments is a multiple of the
number of partitions, unless they end before that. -/
theorem partitions_not_panicked_iff (mi : MetricIndex) :
    (∀ pth, (mi.delete pth).2 ≠ .panicked ↔
      (needRegex pth = false → ¬ numPartitions ∣ segments pth)) ∧
    (∀ uid, (mi.deleteByUid uid).2 ≠ .panicked ↔
      ∀ pth, mi.uidIndex.lookup uid = some pth → needRegex pth = false →
        ¬ numPartitions ∣ segments pth) ∧
    ∀ compile query, findLowestPrefix compile query ≠ .panicked ↔
      ((needRegex query = true → ∃ reg, compile (fullRegString query) = .ok reg) →
        ¬ numPartitions ∣ segments query) := by
  refine ⟨fun pth => ?_, fun uid => ?_, fun compile query => ?_⟩
  · rw [Ne, delete_panicked_iff, not_and]
  · rw [Ne, deleteByUid_panicked_iff]
    push Not
    rfl
  · rw [Ne, findLowestPrefix_panicked_iff, not_and]

/-- A path of sixteen segments: it is out of the map by the time of the panic. -/
theorem sixteen_segments_panic :
    let pth := "a.a.a.a.a.a.a.a.a.a.a.a.a.a.a.a"
    let mi := MetricIndex.new.add "u" pth 0
    needRegex pth = false ∧ (mi.delete pth).2 = .panicked ∧ (mi.deleteByUid "u").2 = .panicked ∧
      (mi.delete pth).1.nameIndex.lookup pth = none ∧
      findLowestPrefix (fun _ => .ok fun _ => true) pth = .panicked := by
  intro pth mi
  have plain : needRegex pth = false := by decide
  have full : numPartitions ∣ segments pth := by decide
  have known : mi.uidIndex.lookup "u" = some pth := by decide
  refine ⟨plain, ?_, ?_, ?_, ?_⟩
  · exact (delete_panicked_iff _ _).mpr ⟨plain, full⟩
  · exact (deleteByUid_panicked_iff _ _).mpr ⟨pth, known, plain, full⟩
  · decide
  · exact (findLowestPrefix_panicked_iff _ _).mpr
      ⟨fun pattern => absurd pattern (by rw [plain]; decide), full⟩

end Indexer
