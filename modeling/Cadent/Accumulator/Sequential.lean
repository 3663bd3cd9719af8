import Cadent.Accumulator.StatItem
import Cadent.Lib.Groups

/-!
# Lines one after another

When nothing comes between the steps of `ProcessLine` and `FlushList` and the keys are not
kept, the item of a key has taken in the lines with that key since the last flush, in their
order, and there is no other item.
-/

namespace Accumulator

open Groups Maps

section Sequential

variable {Raw Line Item : Type}

variable {K : Kind Raw Line Item} {st : Store Item}

/-- A line is taken in by the item of its key, which is made if there is none. -/
theorem processLine_spec (sound : st.Sound) {raw : Raw} {line : Line}
    (parsed : K.parse raw = .ok line) :
    ∃ st', st.processLine K raw = .ok st' ∧ st'.Sound ∧ ∀ key, st'.item? key =
      if key = K.key line then
        some (K.accumulate ((st.item? key).getD (K.fresh line)) line)
      else st.item? key := by
  rcases found : st.stats.lookup (K.key line) with _ | ref
  · have made : (st.make (K.fresh line)).update st.items.length (K.accumulate · line) =
        st.make (K.accumulate (K.fresh line) line) := by
      rw [Store.update, Store.make, Store.make, modify_concat]
    have opened : st.processLine K raw = .ok ((st.make (K.accumulate (K.fresh line) line)).insert
        (K.key line) st.items.length) := by
      simp only [Store.processLine, parsed, bind, Except.bind, found, made]
      rfl
    obtain ⟨sound', items⟩ := insert_spec sound (K.key line) (K.accumulate (K.fresh line) line)
    refine ⟨_, opened, sound', ?_⟩
    intro key
    rw [items key]
    by_cases same : key = K.key line
    · subst same
      have missing : st.item? (K.key line) = none := by rw [Store.item?, found]; rfl
      rw [missing]
      rfl
    · rw [if_neg same, if_neg same]
  · have opened : st.processLine K raw = .ok (st.update ref (K.accumulate · line)) := by
      simp only [Store.processLine, parsed, bind, Except.bind, found]
      rfl
    refine ⟨_, opened, sound.update ref _, ?_⟩
    intro key
    rw [item?_update sound found]
    by_cases same : key = K.key line
    · subst same
      obtain ⟨item, here⟩ := Option.isSome_iff_exists.mp ((item?_isSome_iff sound).mpr
        (AList.mem_keys.mp (AList.lookup_isSome.mp (by rw [found]; rfl))))
      rw [if_pos rfl, if_pos rfl, here]
      rfl
    · rw [if_neg same, if_neg same]

/-! ### What lines and flushes leave behind -/

inductive Event (Raw : Type) where
  | line (raw : Raw)
  | flushList

/-- The state after some events; what a flush returns is seen in the state before it. -/
def serve (K : Kind Raw Line Item) (st : Store Item) : List (Event Raw) →
    Except String (Store Item)
  | [] => .ok st
  | .line raw :: events => do
    let st ← st.processLine K raw
    serve K st events
  | .flushList :: events => serve K (st.flushList K false []).2 events

/-- The lines since the last flush. -/
def sinceFlush (K : Kind Raw Line Item) (lines : List Line) : List (Event Raw) → List Line
  | [] => lines
  | .line raw :: events => sinceFlush K (lines ++ (K.parse raw).toOption.toList) events
  | .flushList :: events => sinceFlush K [] events

/-- An event whose line is given in other terms. -/
def Event.map {α β : Type} (f : α → β) : Event α → Event β
  | .line a => .line (f a)
  | .flushList => .flushList

/-- What was given since the last flush. -/
def givenSince {α : Type} (given : List α) : List (Event α) → List α
  | [] => given
  | .line a :: events => givenSince (given ++ [a]) events
  | .flushList :: events => givenSince [] events

theorem mem_givenSince {α : Type} {events : List (Event α)} {given : List α} {a : α}
    (mem : a ∈ givenSince given events) : a ∈ given ∨ .line a ∈ events := by
  induction events generalizing given with
  | nil => exact .inl mem
  | cons event events ih =>
    cases event with
    | line first =>
      rcases ih mem with old | later
      · rcases List.mem_append.mp old with old | own
        · exact .inl old
        · rw [List.mem_singleton.mp own]
          exact .inr List.mem_cons_self
      · exact .inr (List.mem_cons_of_mem _ later)
    | flushList =>
      rcases ih mem with none | later
      · cases none
      · exact .inr (List.mem_cons_of_mem _ later)

/-- The lines since the last flush are what is read of what was given since then. -/
theorem sinceFlush_map {α : Type} {text : α → Raw} {parsed : α → Line} {events : List (Event α)}
    (reads : ∀ a, .line a ∈ events → K.parse (text a) = .ok (parsed a)) (given : List α) :
    sinceFlush K (given.map parsed) (events.map (.map text)) =
      (givenSince given events).map parsed := by
  induction events generalizing given with
  | nil => rfl
  | cons event events ih =>
    have later : ∀ a, .line a ∈ events → K.parse (text a) = .ok (parsed a) :=
      fun a mem => reads a (List.mem_cons_of_mem _ mem)
    cases event with
    | line a =>
      rw [givenSince, ← ih later, List.map_append, List.map_cons, Event.map, sinceFlush,
        reads a List.mem_cons_self]
      rfl
    | flushList => exact ih later []

theorem mem_sinceFlush {events : List (Event Raw)} {lines : List Line} {line : Line}
    (mem : line ∈ sinceFlush K lines events) :
    line ∈ lines ∨ ∃ raw, .line raw ∈ events ∧ K.parse raw = .ok line := by
  induction events generalizing lines with
  | nil => exact .inl mem
  | cons event events ih =>
    cases event with
    | line raw =>
      rcases ih mem with old | ⟨raw', mem', parsed⟩
      · rcases parsed : K.parse raw with error | line'
        · rw [parsed] at old
          exact .inl (by simpa [Except.toOption] using old)
        · rw [parsed] at old
          rcases List.mem_append.mp old with old | own
          · exact .inl old
          · obtain rfl : line = line' := by simpa [Except.toOption] using own
            exact .inr ⟨raw, List.mem_cons_self, parsed⟩
      · exact .inr ⟨raw', List.mem_cons_of_mem _ mem', parsed⟩
    | flushList =>
      rcases ih mem with old | ⟨raw', mem', parsed⟩
      · cases old
      · exact .inr ⟨raw', List.mem_cons_of_mem _ mem', parsed⟩

/-- The item that has taken in some lines. -/
def gather (K : Kind Raw Line Item) (lines : List Line) : Option Item :=
  lines.head?.map fun line => lines.foldl K.accumulate (K.fresh line)

theorem gather_concat (lines : List Line) (line : Line) :
    gather K (lines ++ [line]) =
      some (K.accumulate ((gather K lines).getD (K.fresh line)) line) := by
  rcases lines with _ | ⟨first, lines⟩
  · rfl
  · simp [gather]

theorem gather_isSome_iff {lines : List Line} : (gather K lines).isSome ↔ ∃ line, line ∈ lines := by
  rcases lines with _ | ⟨first, lines⟩
  · simp [gather]
  · simp [gather]

/-- The items are those of the lines since the last flush. -/
structure Holds (K : Kind Raw Line Item) (lines : List Line) (st : Store Item) : Prop where
  sound : st.Sound
  items : ∀ key, st.item? key = gather K (group K.key lines key)

theorem holds_empty : Holds K [] (Store.empty : Store Item) := ⟨sound_empty, fun _ => rfl⟩

theorem Holds.processLine {lines : List Line} (holds : Holds K lines st) {raw : Raw} {line : Line}
    (parsed : K.parse raw = .ok line) :
    ∃ st', st.processLine K raw = .ok st' ∧ Holds K (lines ++ [line]) st' := by
  obtain ⟨st', processed, sound, items⟩ := processLine_spec holds.sound parsed
  refine ⟨st', processed, sound, ?_⟩
  intro key
  rw [items key, group_concat, holds.items key]
  by_cases same : key = K.key line
  · rw [if_pos same, if_pos same, gather_concat]
  · rw [if_neg same, if_neg same]

theorem holds_flushed (order : List (String × Int)) : Holds K [] (st.flushList K false order).2 :=
  ⟨⟨nofun, nofun⟩, fun _ => rfl⟩

theorem serve_holds {events : List (Event Raw)} {lines : List Line} (holds : Holds K lines st)
    (wellFormed : ∀ raw, .line raw ∈ events → (K.parse raw).toOption.isSome) :
    ∃ st', serve K st events = .ok st' ∧ Holds K (sinceFlush K lines events) st' := by
  induction events generalizing lines st with
  | nil => exact ⟨st, rfl, holds⟩
  | cons event events ih =>
    have later : ∀ raw, .line raw ∈ events → (K.parse raw).toOption.isSome :=
      fun raw mem => wellFormed raw (List.mem_cons_of_mem _ mem)
    cases event with
    | line raw =>
      have some := wellFormed raw List.mem_cons_self
      rcases parsed : K.parse raw with error | line
      · rw [parsed] at some
        cases some
      · obtain ⟨st', processed, holds'⟩ := holds.processLine parsed
        rw [serve, processed, sinceFlush, parsed]
        exact ih holds' later
    | flushList => exact ih (holds_flushed []) later

theorem Holds.serve_lines {α : Type} {text : α → Raw} {parsed : α → Line} {inputs : List α}
    {lines : List Line} (holds : Holds K lines st)
    (reads : ∀ i ∈ inputs, K.parse (text i) = .ok (parsed i)) :
    ∃ st', serve K st ((inputs.map text).map .line) = .ok st' ∧
      Holds K (lines ++ inputs.map parsed) st' := by
  induction inputs generalizing lines st with
  | nil => exact ⟨st, rfl, by simpa using holds⟩
  | cons i inputs ih =>
    obtain ⟨st', processed, holds'⟩ := holds.processLine (reads i List.mem_cons_self)
    obtain ⟨st'', served, holds''⟩ := ih holds' fun i' mem => reads i' (List.mem_cons_of_mem _ mem)
    refine ⟨st'', ?_, by simpa using holds''⟩
    rw [List.map_cons, List.map_cons, serve, processed]
    exact served

theorem Holds.keys_eq {lines : List Line} (holds : Holds K lines st) (nonempty : lines ≠ [])
    (key : String) (same : ∀ line ∈ lines, K.key line = key) :
    st.stats.keys = [key] ∧ st.item? key = gather K lines := by
  have all : group K.key lines key = lines := by
    rw [group, List.filter_eq_self]
    intro line mem
    exact decide_eq_true (same line mem)
  refine ⟨?_, (holds.items key).trans (by rw [all])⟩
  apply List.perm_singleton.mp
  rw [List.perm_ext_iff_of_nodup st.stats.keys_nodup (List.nodup_singleton key)]
  intro key'
  rw [← item?_isSome_iff holds.sound, holds.items key', gather_isSome_iff, List.mem_singleton]
  constructor
  · rintro ⟨line, mem⟩
    obtain ⟨listed, own⟩ := mem_group.mp mem
    exact own.symm.trans (same line listed)
  · rintro rfl
    obtain ⟨line, rest, rfl⟩ := List.exists_cons_of_ne_nil nonempty
    exact ⟨line, mem_group.mpr ⟨List.mem_cons_self, same line List.mem_cons_self⟩⟩

theorem Holds.flushList {lines : List Line} (holds : Holds K lines st)
    {order : List (String × Int)} (keys : (order.map Prod.fst).Perm st.stats.keys) :
    (order.map Prod.fst).Nodup ∧
    (∀ key, key ∈ order.map Prod.fst ↔ ∃ line ∈ lines, K.key line = key) ∧
    List.Forall₂ (fun stat entry => ∃ item, gather K (group K.key lines entry.1) = some item ∧
      stat = K.repr entry.2 item) (st.flushList K false order).1 order := by
  have used : ∀ key, key ∈ order.map Prod.fst ↔ ∃ line ∈ lines, K.key line = key := by
    intro key
    rw [keys.mem_iff, ← item?_isSome_iff holds.sound, holds.items key, gather_isSome_iff]
    simp only [mem_group]
  refine ⟨keys.nodup_iff.mpr st.stats.keys_nodup, used, forall₂_filterMap ?_⟩
  rintro ⟨key, now⟩ mem
  have listed : key ∈ st.stats.keys := keys.mem_iff.mp (List.mem_map_of_mem mem)
  obtain ⟨item, here⟩ := Option.isSome_iff_exists.mp ((item?_isSome_iff holds.sound).mpr listed)
  exact ⟨K.repr now item, by simp [here], item, (holds.items key).symm.trans here, rfl⟩

end Sequential

end Accumulator
