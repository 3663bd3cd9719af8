import Mathlib.Algebra.Ring.Int.Defs
import Mathlib.Data.List.Induction

/-!
# The targets of a render query

`SplitNamesByComma` remembers whether the last bracket opened or closed. While brackets are not
nested that says whether it is inside of one. After a bracket that closes inside of another one it
takes itself to be outside.
-/

namespace SplitNames

/-- The loop over the query. -/
def splitFrom (inBrackets : Bool) (curString : List Char) : List Char → List String
  | [] => if curString = [] then [] else [String.ofList curString]
  | c :: cs =>
    if c = '\x7b' ∨ c = '(' then splitFrom true (curString ++ [c]) cs
    else if c = '\x7d' ∨ c = ')' then splitFrom false (curString ++ [c]) cs
    else if c = ',' then
      if inBrackets then splitFrom inBrackets (curString ++ [c]) cs
      else if curString = [] then splitFrom inBrackets [] cs
      else String.ofList curString :: splitFrom inBrackets [] cs
    else splitFrom inBrackets (curString ++ [c]) cs

def splitNamesByComma (query : String) : List String := splitFrom false [] query.toList

/-! ### Brackets -/

def opens (c : Char) : Bool := c = '\x7b' || c = '('

def closes (c : Char) : Bool := c = '\x7d' || c = ')'

/-- How many brackets are open after a text. -/
def depth (cs : List Char) : Int := cs.countP opens - cs.countP closes

/-- Whether the last bracket of a text opens. -/
def lastOpens (cs : List Char) : Bool :=
  (cs.filter fun c => opens c || closes c).getLast?.any opens

/-- The brackets that are open after one more character, the innermost first. -/
def nest (stack : List Char) (c : Char) : Option (List Char) :=
  if opens c then some (c :: stack)
  else if closes c then
    match stack with
    | [] => none
    | top :: stack => if (top, c) ∈ [('\x7b', '\x7d'), ('(', ')')] then some stack else none
  else some stack

/-- Every bracket that closes is of the kind of the last open one, and none is left open. -/
def Nested (query : String) : Prop := query.toList.foldlM nest [] = some []

instance (query : String) : Decidable (Nested query) := inferInstanceAs (Decidable (_ = _))

theorem closes_of_opens {c : Char} (h : opens c = true) : closes c = false := by
  simp only [opens, Bool.or_eq_true, decide_eq_true_eq] at h
  rcases h with rfl | rfl <;> decide

theorem depth_concat (cs : List Char) (c : Char) :
    depth (cs ++ [c]) = depth cs + (if opens c then 1 else if closes c then -1 else 0) := by
  simp only [depth, List.countP_append, List.countP_singleton]
  by_cases h : opens c
  · simp [h, closes_of_opens h]
    omega
  · by_cases h' : closes c
    · simp [h, h']
      omega
    · simp [h, h']

theorem lastOpens_concat (cs : List Char) (c : Char) :
    lastOpens (cs ++ [c]) = if opens c then true else if closes c then false else lastOpens cs := by
  by_cases h : opens c
  · simp [lastOpens, List.filter_append, h]
  · by_cases h' : closes c <;> simp [lastOpens, List.filter_append, h, h']

/-- The depth is the number of open brackets, and where none is open the last one closed. -/
theorem depth_of_nest {cs stack : List Char} (here : cs.foldlM nest [] = some stack) :
    depth cs = stack.length ∧ (stack = [] → lastOpens cs = false) := by
  induction cs using List.reverseRecOn generalizing stack with
  | nil =>
    cases here
    exact ⟨rfl, fun _ => rfl⟩
  | append_singleton cs c ih =>
    rw [List.foldlM_append, Option.bind_eq_bind, Option.bind_eq_some_iff] at here
    obtain ⟨before, reached, here⟩ := here
    obtain ⟨same, outside⟩ := ih reached
    rw [List.foldlM_cons, Option.bind_eq_bind, Option.bind_eq_some_iff] at here
    obtain ⟨after, stepped, same'⟩ := here
    obtain rfl := Option.some.inj same'
    rw [depth_concat, lastOpens_concat, same]
    unfold nest at stepped
    split_ifs at stepped ⊢ with h h'
    · cases stepped
      exact ⟨by simp, nofun⟩
    · cases before with
      | nil => cases stepped
      | cons top before =>
        simp only at stepped
        split_ifs at stepped
        cases stepped
        exact ⟨by simp, fun _ => rfl⟩
    · cases stepped
      exact ⟨by simp, outside⟩

/-! ### Cutting at commas -/

/-- What comes before each comma of a text. -/
def commas (before : List Char) : List Char → List (List Char)
  | [] => []
  | c :: cs => if c = ',' then before :: commas (before ++ [c]) cs else commas (before ++ [c]) cs

/-- The pieces of a text that is cut at the commas before which `cuts` holds. -/
def cutAt (cuts : List Char → Bool) (before piece : List Char) : List Char → List (List Char)
  | [] => [piece]
  | c :: cs =>
    if c = ',' ∧ cuts before then piece :: cutAt cuts (before ++ [c]) [] cs
    else cutAt cuts (before ++ [c]) (piece ++ [c]) cs

/-- The pieces with something in them. -/
def names (pieces : List (List Char)) : List String :=
  (pieces.filter (· ≠ [])).map String.ofList

theorem names_cons (piece : List Char) (pieces : List (List Char)) :
    names (piece :: pieces) =
      if piece = [] then names pieces else String.ofList piece :: names pieces := by
  by_cases empty : piece = [] <;> simp [names, empty]

/-- The non-empty pieces between the commas outside of all brackets. -/
def topLevel (query : String) : List String :=
  names (cutAt (fun before => depth before = 0) [] [] query.toList)

theorem prefix_of_mem_commas {before x cs : List Char} (mem : x ∈ commas before cs) :
    x <+: before ++ cs := by
  induction cs generalizing before with
  | nil => cases mem
  | cons c cs ih =>
    have rest (mem : x ∈ commas (before ++ [c]) cs) : x <+: before ++ c :: cs := by
      simpa using ih mem
    rw [commas] at mem
    split_ifs at mem
    · rcases List.mem_cons.mp mem with rfl | mem
      · exact List.prefix_append _ _
      · exact rest mem
    · exact rest mem

theorem cutAt_congr {p q : List Char → Bool} {before cs : List Char}
    (same : ∀ x ∈ commas before cs, p x = q x) (piece : List Char) :
    cutAt p before piece cs = cutAt q before piece cs := by
  induction cs generalizing before piece with
  | nil => rfl
  | cons c cs ih =>
    rw [commas] at same
    by_cases comma : c = ','
    · rw [if_pos comma, List.forall_mem_cons] at same
      rw [cutAt, cutAt, same.1, ih same.2, ih same.2]
    · rw [if_neg comma] at same
      rw [cutAt, cutAt, if_neg fun h => comma h.1, if_neg fun h => comma h.1, ih same]

/-- The commas that are left in the pieces are those that were not cut at. -/
theorem count_cutAt (p : List Char → Bool) (before piece cs : List Char) :
    (cutAt p before piece cs).flatten.count ',' =
      piece.count ',' + (commas before cs).countP (fun x => !p x) := by
  induction cs generalizing before piece with
  | nil => simp [cutAt, commas]
  | cons c cs ih =>
    rw [cutAt, commas]
    by_cases comma : c = ','
    · by_cases cut : p before = true
      · simp [comma, cut, ih]
      · have kept : ¬ (c = ',' ∧ p before = true) := fun h => cut h.2
        rw [if_neg kept, if_pos comma, ih, List.countP_cons, comma]
        simp [cut]
        omega
    · simp [comma, ih]

theorem eq_of_countP_eq {p q : List Char → Bool} {xs : List (List Char)}
    (more : ∀ x ∈ xs, q x = true → p x = true)
    (count : xs.countP (fun x => !p x) = xs.countP (fun x => !q x)) : ∀ x ∈ xs, p x = q x := by
  induction xs with
  | nil => simp
  | cons x xs ih =>
    rw [List.forall_mem_cons] at more ⊢
    obtain ⟨first, more⟩ := more
    have le : xs.countP (fun x => !p x) ≤ xs.countP (fun x => !q x) := by
      refine List.countP_mono_left fun y mem left => ?_
      have := mt (more y mem)
      simpa using this (by simpa using left)
    rw [List.countP_cons, List.countP_cons] at count
    cases hp : p x with
    | true =>
      cases hq : q x with
      | true => exact ⟨rfl, ih more (by simpa [hp, hq] using count)⟩
      | false =>
        simp only [hp, hq] at count
        simp at count
        omega
    | false =>
      cases hq : q x with
      | true => cases hp.symm.trans (first hq)
      | false => exact ⟨rfl, ih more (by simpa [hp, hq] using count)⟩

/-- Two ways to cut, of which one cuts wherever the other one does, leave the same names only if
they cut alike. -/
theorem cuts_of_names_eq {p q : List Char → Bool} {before piece cs : List Char}
    (more : ∀ x ∈ commas before cs, q x = true → p x = true)
    (same : names (cutAt p before piece cs) = names (cutAt q before piece cs)) :
    ∀ x ∈ commas before cs, p x = q x := by
  have texts : ∀ pieces, (names pieces).map String.toList = pieces.filter (· ≠ []) := by
    intro pieces
    rw [names, List.map_map]
    exact (List.map_congr_left fun piece _ => String.toList_ofList).trans (List.map_id _)
  have count := congrArg (fun texts => List.count ',' (texts.map String.toList).flatten) same
  simp only [texts, List.flatten_filter_ne_nil, count_cutAt, Nat.add_left_cancel_iff] at count
  exact eq_of_countP_eq more count

/-! ### What the loop does -/

theorem splitFrom_eq (before curString cs : List Char) :
    splitFrom (lastOpens before) curString cs =
      names (cutAt (fun before => !lastOpens before) before curString cs) := by
  induction cs generalizing before curString with
  | nil => by_cases empty : curString = [] <;> simp [splitFrom, cutAt, names, empty]
  | cons c cs ih =>
    have step := lastOpens_concat before c
    by_cases opening : c = '\x7b' ∨ c = '('
    · have open' : opens c = true := by simpa [opens] using opening
      have comma : c ≠ ',' := by
        rintro rfl
        revert opening
        decide
      rw [if_pos open'] at step
      rw [splitFrom, if_pos opening, cutAt, if_neg fun h => comma h.1, ← ih, step]
    · have open' : opens c = false := by simpa [opens] using opening
      rw [open'] at step
      by_cases closing : c = '\x7d' ∨ c = ')'
      · have close' : closes c = true := by simpa [closes] using closing
        have comma : c ≠ ',' := by
          rintro rfl
          revert closing
          decide
        rw [close'] at step
        rw [splitFrom, if_neg opening, if_pos closing, cutAt, if_neg fun h => comma h.1, ← ih, step]
        rfl
      · have close' : closes c = false := by simpa [closes] using closing
        rw [close'] at step
        replace step : lastOpens (before ++ [c]) = lastOpens before := step
        rw [splitFrom, if_neg opening, if_neg closing, cutAt]
        by_cases comma : c = ','
        · cases inside : lastOpens before with
          | true =>
            rw [if_pos comma, if_pos rfl, if_neg (by simp), ← ih, step, inside]
          | false =>
            have cut : c = ',' ∧ (!false) = true := ⟨comma, rfl⟩
            rw [if_pos comma, if_neg Bool.false_ne_true, if_pos cut, names_cons, ← ih, step, inside]
        · rw [if_neg comma, if_neg fun h => comma h.1, ← ih, step]

/-- Inside of brackets the last bracket before a comma opens. -/
def Flat (query : String) : Prop :=
  ∀ before ∈ commas [] query.toList, depth before ≠ 0 → lastOpens before = true

instance (query : String) : Decidable (Flat query) := inferInstanceAs (Decidable (∀ _ ∈ _, _))

theorem outside_of_nested {query : String} (nested : Nested query) {before : List Char}
    (mem : before ∈ commas [] query.toList) (top : depth before = 0) :
    lastOpens before = false := by
  obtain ⟨after, whole⟩ := prefix_of_mem_commas mem
  rw [Nested, ← List.nil_append query.toList, ← whole, List.foldlM_append, Option.bind_eq_bind,
    Option.bind_eq_some_iff] at nested
  obtain ⟨stack, reached, -⟩ := nested
  obtain ⟨same, outside⟩ := depth_of_nest reached
  exact outside (List.length_eq_zero_iff.mp (by omega))

/-- The targets of a query with nested brackets are the ones between the commas outside of all
brackets just when inside of brackets every comma comes before any bracket that closes there. -/
theorem splitNamesByComma_eq_topLevel_iff {query : String} (nested : Nested query) :
    splitNamesByComma query = topLevel query ↔ Flat query := by
  have loop : splitNamesByComma query =
      names (cutAt (fun before => !lastOpens before) [] [] query.toList) := splitFrom_eq [] [] _
  rw [loop, topLevel]
  constructor
  · intro same before mem inside
    have cuts := cuts_of_names_eq ?_ same before mem
    · simpa [inside] using cuts
    · intro x mem top
      simpa using outside_of_nested nested mem (by simpa using top)
  · intro flat
    rw [cutAt_congr]
    intro before mem
    by_cases top : depth before = 0
    · simp [top, outside_of_nested nested mem top]
    · simp [top, flat before mem top]

theorem splitNamesByComma_eq_topLevel_iff_function :
    splitNamesByComma "sum(a.\x7bb,c\x7d),,d" = topLevel "sum(a.\x7bb,c\x7d),,d" :=
  (splitNamesByComma_eq_topLevel_iff (by decide)).mpr (by decide)

/-- Braces inside of braces: the comma after the inner ones separates. -/
theorem splitNamesByComma_nested :
    Nested "\x7ba,\x7bb,c\x7d,d\x7d" ∧
    splitNamesByComma "\x7ba,\x7bb,c\x7d,d\x7d" = ["\x7ba,\x7bb,c\x7d", "d\x7d"] ∧
    topLevel "\x7ba,\x7bb,c\x7d,d\x7d" = ["\x7ba,\x7bb,c\x7d,d\x7d"] := by
  decide

end SplitNames
