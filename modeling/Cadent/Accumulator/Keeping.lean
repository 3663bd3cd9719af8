import Cadent.Accumulator.Flushing
import Cadent.Accumulator.Sequential

/-!
# Keys that are kept

A flush drops the map, or it keeps the map and zeroes the items in it. A kept item goes on under
its name, which is that of the first line it was made for; of the lines before the flush nothing
else is left.
-/

namespace Accumulator

open Groups Maps

section Keeping

variable {Raw Line Item : Type} {K : Kind Raw Line Item} {keep : Bool} {st : Store Item}

/-- The state after some events, with the keys kept or not. -/
def serveWith (K : Kind Raw Line Item) (keep : Bool) (st : Store Item) :
    List (Event Raw) → Except String (Store Item)
  | [] => .ok st
  | .line raw :: events => do
    let st ← st.processLine K raw
    serveWith K keep st events
  | .flushList :: events => serveWith K keep (st.flushList K keep []).2 events

/-- The lines before the last flush, when some lines have come since the one before. -/
def beforeFlush (K : Kind Raw Line Item) (earlier lines : List Line) :
    List (Event Raw) → List Line
  | [] => earlier
  | .line raw :: events => beforeFlush K earlier (lines ++ (K.parse raw).toOption.toList) events
  | .flushList :: events => beforeFlush K (earlier ++ lines) [] events

/-- Zeroing leaves nothing of the lines that were taken in. -/
structure Clears (K : Kind Raw Line Item) : Prop where
  accumulate : ∀ item line, K.zeroOut (K.accumulate item line) = K.zeroOut item
  twice : ∀ item, K.zeroOut (K.zeroOut item) = K.zeroOut item

theorem Clears.foldl (clears : Clears K) (lines : List Line) (item : Item) :
    K.zeroOut (lines.foldl K.accumulate item) = K.zeroOut item := by
  induction lines generalizing item with
  | nil => rfl
  | cons line lines ih => rw [List.foldl_cons, ih, clears.accumulate]

/-- The item of some lines, of which the earlier ones were flushed. -/
def keptItem (K : Kind Raw Line Item) : List Line → List Line → Option Item
  | [], lines => gather K lines
  | first :: _, lines => some (lines.foldl K.accumulate (K.zeroOut (K.fresh first)))

theorem keptItem_concat (earlier lines : List Line) (line : Line) :
    keptItem K earlier (lines ++ [line]) =
      some (K.accumulate ((keptItem K earlier lines).getD (K.fresh line)) line) := by
  cases earlier with
  | nil => exact gather_concat lines line
  | cons first earlier => simp [keptItem]

theorem keptItem_isSome_iff {earlier lines : List Line} :
    (keptItem K earlier lines).isSome ↔ ∃ line, line ∈ earlier ++ lines := by
  cases earlier with
  | nil => exact gather_isSome_iff
  | cons first earlier => exact ⟨fun _ => ⟨first, List.mem_cons_self⟩, fun _ => rfl⟩

/-- A flush makes all lines earlier ones. -/
theorem keptItem_zeroOut (clears : Clears K) (earlier lines : List Line) :
    (keptItem K earlier lines).map K.zeroOut = keptItem K (earlier ++ lines) [] := by
  cases earlier with
  | nil =>
    cases lines with
    | nil => rfl
    | cons first lines =>
      simp only [keptItem, gather, List.head?_cons, Option.map_some, clears.foldl, List.nil_append,
        List.foldl_nil]
  | cons first earlier =>
    simp only [keptItem, List.cons_append, Option.map_some, clears.foldl, clears.twice,
      List.foldl_nil]

/-- The items are those of the lines since the last flush, on top of what was kept. -/
structure Held (K : Kind Raw Line Item) (keep : Bool) (earlier lines : List Line)
    (st : Store Item) : Prop where
  sound : st.Sound
  items : ∀ key, st.item? key =
    keptItem K (if keep then group K.key earlier key else []) (group K.key lines key)

theorem held_empty : Held K keep [] [] (Store.empty : Store Item) := by
  refine ⟨sound_empty, fun key => ?_⟩
  cases keep <;> rfl

theorem Held.processLine {earlier lines : List Line} (held : Held K keep earlier lines st)
    {raw : Raw} {line : Line} (parsed : K.parse raw = .ok line) :
    ∃ st', st.processLine K raw = .ok st' ∧ Held K keep earlier (lines ++ [line]) st' := by
  obtain ⟨st', processed, sound, items⟩ := processLine_spec held.sound parsed
  refine ⟨st', processed, sound, ?_⟩
  intro key
  rw [items key, group_concat, held.items key]
  by_cases same : key = K.key line
  · rw [if_pos same, if_pos same, keptItem_concat]
  · rw [if_neg same, if_neg same]

theorem item?_reset_kept (st : Store Item) (key : String) :
    (st.reset K true).item? key = (st.item? key).map K.zeroOut := by
  rw [Store.item?, Store.item?, Store.reset, if_pos rfl]
  cases here : st.stats.lookup key with
  | none => rfl
  | some ref =>
    have listed : ref ∈ st.refs := mem_refs.mpr ⟨key, here⟩
    simp only [Option.bind_some, List.getElem?_mapIdx, if_pos listed]

theorem Held.flushList (clears : Clears K) {earlier lines : List Line}
    (held : Held K keep earlier lines st) (order : List (String × Int)) :
    Held K keep (earlier ++ lines) [] (st.flushList K keep order).2 := by
  refine ⟨held.sound.reset, ?_⟩
  intro key
  have none : group K.key ([] : List Line) key = [] := rfl
  cases keep with
  | false => rfl
  | true =>
    have here := held.items key
    rw [if_pos rfl] at here ⊢
    rw [Store.flushList, item?_reset_kept, here, keptItem_zeroOut clears, none, group, group, group,
      List.filter_append]

theorem serveWith_held (clears : Clears K) {events : List (Event Raw)} {earlier lines : List Line}
    (held : Held K keep earlier lines st)
    (wellFormed : ∀ raw, .line raw ∈ events → (K.parse raw).toOption.isSome) :
    ∃ st', serveWith K keep st events = .ok st' ∧
      Held K keep (beforeFlush K earlier lines events) (sinceFlush K lines events) st' := by
  induction events generalizing earlier lines st with
  | nil => exact ⟨st, rfl, held⟩
  | cons event events ih =>
    have later : ∀ raw, .line raw ∈ events → (K.parse raw).toOption.isSome :=
      fun raw mem => wellFormed raw (List.mem_cons_of_mem _ mem)
    cases event with
    | line raw =>
      have some := wellFormed raw List.mem_cons_self
      rcases parsed : K.parse raw with error | line
      · rw [parsed] at some
        cases some
      · obtain ⟨st', processed, held'⟩ := held.processLine parsed
        rw [serveWith, processed, sinceFlush, beforeFlush, parsed]
        exact ih held' later
    | flushList => exact ih (held.flushList clears []) later

end Keeping

end Accumulator
