import Cadent.Schemas.RawDataPoint
import Mathlib.Data.List.TakeWhile

/-!
# Cutting a render item to a range

`TruncateTo` promises the points from `start` to `end`, both inclusive. It scans for the
first and the last index in the range and then takes a half-open slice between them. On
sorted data the slice is the range without its last point, and an item with no point in
the range keeps all of its data.
-/

namespace Metrics

variable {α : Type}

/-- The test of the scan. -/
def RawDataPoint.within (start stop : BitVec 32) (d : RawDataPoint Int64 α) : Bool :=
  start ≤ d.time && d.time ≤ stop

/-- The scan from index `i` on, with `idxStart` and `idxEnd` as they stand. -/
def truncateLoop (start stop : BitVec 32) :
    Nat → Points α → Int × Nat → Int × Nat
  | _, [], idx => idx
  | i, d :: ds, idx =>
    truncateLoop start stop (i + 1) ds
      (if d.within start stop then (if idx.1 = -1 then (i : Int) else idx.1, i) else idx)

/-- `Data[i:j]`. -/
def slice (data : Points α) (i j : Nat) : Points α :=
  (data.take j).drop i

/-- The end of `TruncateTo`: the real times follow the data unless it is empty. -/
def RenderItem.fitTimes (r : RawRenderItem Int64 α) : RawRenderItem Int64 α :=
  match r.data.head?, r.data.getLast? with
  | some first, some last => { r with realStart := first.time, realEnd := last.time }
  | _, _ => r

def RenderItem.truncateTo (r : RawRenderItem Int64 α) (start stop : BitVec 32) :
    Nat × RawRenderItem Int64 α :=
  let idx := truncateLoop start stop 0 r.data (-1, r.data.length)
  let r := if idx.1 ≠ -1 then { r with data := slice r.data idx.1.toNat idx.2 } else r
  (r.data.length, r.fitTimes)

/-! ### What the scan finds -/

theorem truncateLoop_append {start stop : BitVec 32} (i : Nat) (xs ys : Points α)
    (idx : Int × Nat) :
    truncateLoop start stop i (xs ++ ys) idx =
      truncateLoop start stop (i + xs.length) ys (truncateLoop start stop i xs idx) := by
  induction xs generalizing i idx with
  | nil => rfl
  | cons x xs ih =>
    rw [List.cons_append, truncateLoop, ih, truncateLoop, List.length_cons]
    congr 1
    omega

theorem truncateLoop_outside {start stop : BitVec 32} (i : Nat) {xs : Points α}
    (outside : ∀ d ∈ xs, d.within start stop = false) (idx : Int × Nat) :
    truncateLoop start stop i xs idx = idx := by
  induction xs generalizing i with
  | nil => rfl
  | cons x xs ih =>
    rw [truncateLoop, outside x List.mem_cons_self, if_neg Bool.false_ne_true]
    exact ih (i + 1) fun d hd => outside d (List.mem_cons_of_mem _ hd)

/-- A stretch inside the range moves `idxEnd` to its last index; `idxStart` is set once. -/
theorem truncateLoop_inside {start stop : BitVec 32} (i : Nat) (xs : Points α)
    (x : RawDataPoint Int64 α) (inside : ∀ d ∈ x :: xs, d.within start stop = true)
    (idx : Int × Nat) :
    truncateLoop start stop i (x :: xs) idx =
      (if idx.1 = -1 then (i : Int) else idx.1, i + xs.length) := by
  induction xs generalizing i x idx with
  | nil =>
    rw [truncateLoop, truncateLoop, if_pos (inside x List.mem_cons_self)]
    rfl
  | cons y ys ih =>
    rw [truncateLoop, if_pos (inside x List.mem_cons_self),
      ih (i + 1) y (fun d hd => inside d (List.mem_cons_of_mem _ hd)), List.length_cons]
    refine Prod.ext ?_ (by dsimp only; omega)
    dsimp only
    split
    · rw [if_neg (by omega)]
    · rfl

/-! ### Sorted data -/

/-- On a list in order, what is left after a test that only fails for good fails it. -/
theorem forall_mem_dropWhile {β : Type} {rel : β → β → Prop} {test : β → Bool}
    (fails : ∀ a b, rel a b → test a = false → test b = false) {l : List β}
    (ordered : l.Pairwise rel) : ∀ x ∈ l.dropWhile test, test x = false := by
  induction l with
  | nil =>
    intro x hx
    cases hx
  | cons a l ih =>
    obtain ⟨hfirst, hrest⟩ := List.pairwise_cons.mp ordered
    cases htest : test a with
    | true =>
      rw [List.dropWhile_cons_of_pos htest]
      exact ih hrest
    | false =>
      rw [List.dropWhile_cons_of_neg (by rw [htest]; exact Bool.false_ne_true)]
      intro x hx
      rcases List.mem_cons.mp hx with rfl | hx
      · exact htest
      · exact fails a x (hfirst x hx) htest

/-- Sorted data is three stretches: before the range, inside it and after it. -/
theorem exists_stretches {data : Points α} (start stop : BitVec 32)
    (sorted : data.Pairwise fun p q => p.time.toNat ≤ q.time.toNat) :
    ∃ before inside after, data = before ++ (inside ++ after) ∧
      (∀ d ∈ before, d.within start stop = false) ∧ (∀ d ∈ inside, d.within start stop = true) ∧
      ∀ d ∈ after, d.within start stop = false := by
  obtain ⟨rest, hrest⟩ : ∃ rest, rest = data.dropWhile fun d => decide (d.time < start) := ⟨_, rfl⟩
  have hearly : ∀ d ∈ rest, decide (d.time < start) = false := by
    rw [hrest]
    refine forall_mem_dropWhile (fun a b hab ha => ?_) sorted
    rw [decide_eq_false_iff_not, BitVec.lt_def] at ha ⊢
    omega
  have hlate : ∀ d ∈ rest.dropWhile fun d => decide (d.time ≤ stop),
      decide (d.time ≤ stop) = false := by
    have hsorted : rest.Pairwise fun p q => p.time.toNat ≤ q.time.toNat := by
      rw [hrest]
      exact sorted.sublist (List.dropWhile_sublist _)
    refine forall_mem_dropWhile (fun a b hab ha => ?_) hsorted
    rw [decide_eq_false_iff_not, BitVec.le_def] at ha ⊢
    omega
  refine ⟨data.takeWhile fun d => decide (d.time < start),
    rest.takeWhile fun d => decide (d.time ≤ stop),
    rest.dropWhile fun d => decide (d.time ≤ stop), ?_, ?_, ?_, ?_⟩
  · rw [List.takeWhile_append_dropWhile, hrest, List.takeWhile_append_dropWhile]
  · intro d hd
    have htaken := List.mem_takeWhile_imp hd
    have hlow : d.time < start := of_decide_eq_true htaken
    rw [RawDataPoint.within, Bool.and_eq_false_iff, decide_eq_false_iff_not]
    exact Or.inl (BitVec.not_le.mpr hlow)
  · intro d hd
    have htaken := List.mem_takeWhile_imp hd
    have hstop : d.time ≤ stop := of_decide_eq_true htaken
    have hstart := of_decide_eq_false (hearly d ((List.takeWhile_sublist _).subset hd))
    rw [RawDataPoint.within, Bool.and_eq_true, decide_eq_true_eq, decide_eq_true_eq]
    exact ⟨BitVec.not_lt.mp hstart, hstop⟩
  · intro d hd
    rw [RawDataPoint.within, Bool.and_eq_false_iff]
    exact Or.inr (hlate d hd)

/-- The points that the range should keep. -/
def inRange (r : RawRenderItem Int64 α) (start stop : BitVec 32) : Points α :=
  r.data.filter (·.within start stop)

theorem fitTimes_data (r : RawRenderItem Int64 α) : r.fitTimes.data = r.data := by
  unfold RenderItem.fitTimes
  split
  · rfl
  · rfl

/-- On sorted data `TruncateTo` loses the last point of the range, and an empty range
leaves everything in place. -/
theorem truncateTo_data (r : RawRenderItem Int64 α) (start stop : BitVec 32)
    (sorted : r.data.Pairwise fun p q => p.time.toNat ≤ q.time.toNat) :
    (r.truncateTo start stop).2.data =
      if inRange r start stop = [] then r.data else (inRange r start stop).dropLast := by
  obtain ⟨before, inside, after, hdata, hbefore, hinside, hafter⟩ :=
    exists_stretches start stop sorted
  have hrange : inRange r start stop = inside := by
    rw [inRange, hdata, List.filter_append, List.filter_append, List.filter_eq_self.mpr hinside,
      List.filter_eq_nil_iff.mpr fun d hd => Bool.eq_false_iff.mp (hbefore d hd),
      List.filter_eq_nil_iff.mpr fun d hd => Bool.eq_false_iff.mp (hafter d hd), List.nil_append,
      List.append_nil]
  rw [hrange]
  unfold RenderItem.truncateTo
  rw [fitTimes_data]
  cases inside with
  | nil =>
    have hscan : truncateLoop start stop 0 r.data (-1, r.data.length) = (-1, r.data.length) := by
      refine truncateLoop_outside 0 ?_ _
      rw [hdata]
      exact List.forall_mem_append.mpr ⟨hbefore, hafter⟩
    rw [hscan]
    simp
  | cons x xs =>
    have hscan : truncateLoop start stop 0 r.data (-1, r.data.length) =
        ((before.length : Int), before.length + xs.length) := by
      generalize r.data.length = unset
      rw [hdata, truncateLoop_append, truncateLoop_append, truncateLoop_outside _ hbefore,
        truncateLoop_inside _ xs x hinside, truncateLoop_outside _ hafter, if_pos rfl,
        Nat.zero_add]
    obtain ⟨front, last, hends⟩ := (List.eq_nil_or_concat (x :: xs)).resolve_left (by simp)
    rw [List.concat_eq_append] at hends
    have hlast : before.length + xs.length = (before ++ front).length := by
      have hlen := congrArg List.length hends
      simp at hlen
      simp [hlen]
    have hset : ¬ (before.length : Int) = -1 := by omega
    rw [hscan, if_neg (List.cons_ne_nil x xs), if_pos hset, hends, List.dropLast_concat]
    change slice r.data before.length (before.length + xs.length) = _
    rw [slice, hdata, hends, hlast, List.append_assoc, ← List.append_assoc before, List.take_left,
      List.drop_left]

/-- What `TruncateTo` promises. -/
structure TruncatedTo (start stop : BitVec 32) (r : RawRenderItem Int64 α)
    (out : Nat × RawRenderItem Int64 α) : Prop where
  data : out.2.data = inRange r start stop
  count : out.1 = (inRange r start stop).length
  ends : ∀ first ∈ (inRange r start stop).head?, ∀ last ∈ (inRange r start stop).getLast?,
    out.2.realStart = first.time ∧ out.2.realEnd = last.time

/-- The promise is kept only for an item without points. -/
theorem truncatedTo_iff (r : RawRenderItem Int64 α) (start stop : BitVec 32)
    (sorted : r.data.Pairwise fun p q => p.time.toNat ≤ q.time.toNat) :
    TruncatedTo start stop r (r.truncateTo start stop) ↔ r.data = [] := by
  constructor
  · intro kept
    have hdata := kept.data
    rw [truncateTo_data r start stop sorted] at hdata
    split at hdata
    case isTrue hnone => rw [hdata, hnone]
    case isFalse hsome =>
      have hlen := congrArg List.length hdata
      have hpos := List.length_pos_of_ne_nil hsome
      rw [List.length_dropLast] at hlen
      omega
  · intro hnil
    have hrange : inRange r start stop = [] := by rw [inRange, hnil]; rfl
    have hout : (r.truncateTo start stop).2.data = [] := by
      rw [truncateTo_data r start stop sorted, if_pos hrange, hnil]
    refine ⟨by rw [hout, hrange], ?_, ?_⟩
    · rw [hrange]
      have hcount : (r.truncateTo start stop).1 = (r.truncateTo start stop).2.data.length := by
        rw [RenderItem.truncateTo, fitTimes_data]
      rw [hcount, hout]
    · intro first hfirst
      rw [hrange] at hfirst
      cases hfirst

/-- An item without points, as a source without data returns it. -/
theorem truncatedTo_iff_empty :
    TruncatedTo 10#32 30#32 (⟨10#32, 30#32, 0#32, 0#32, 10#32, []⟩ : RawRenderItem Int64 Int)
        ((⟨10#32, 30#32, 0#32, 0#32, 10#32, []⟩ :
          RawRenderItem Int64 Int).truncateTo 10#32 30#32) :=
  (truncatedTo_iff _ 10#32 30#32 List.Pairwise.nil).mpr rfl

/-- Three points from the start to the end of the range: the last one is lost. -/
theorem truncateTo_loses_last :
    ¬ TruncatedTo 10#32 30#32
      (⟨10#32, 30#32, 10#32, 30#32, 10#32, [.null 10#32, .null 20#32, .null 30#32]⟩ :
        RawRenderItem Int64 Int)
      ((⟨10#32, 30#32, 10#32, 30#32, 10#32, [.null 10#32, .null 20#32, .null 30#32]⟩ :
        RawRenderItem Int64 Int).truncateTo 10#32 30#32) := by
  intro kept
  exact absurd kept.count (by decide)

end Metrics
