import Cadent.Schemas.TimeGrid

/-!
# Quantizing a render item

`QuantizeToStep` walks the grid and the sorted data together and fills one slot of a fresh
array for each grid time. A slot is `none` until it is filled. Where the source takes a
step back in the grid to look at the same slot again, the model goes on with the same time
and slot; the loop is run with fuel. The values are of any type with an addition and an
order, and the data has fewer than `2 ^ 32` points.
-/

namespace Metrics

open Grid

section Model

variable {α : Type} [Add α] [LT α] [DecidableLT α]
variable (sort : Points α → Points α)

def maxQuantizePoints : Nat := 100000

abbrev Slots (α : Type) := List (Option (RawDataPoint Int64 α))

/-- `data[o]`, when it is neither nil nor at time zero. -/
def filled (data : Slots α) (o : Nat) : Option (RawDataPoint Int64 α) :=
  data[o]?.join.filter fun q => q.time ≠ 0#32

/-- The points up to `t - step`, which may wrap around, are passed over. -/
def skipOld (step t : BitVec 32) (rest : Points α) : Points α :=
  rest.dropWhile fun p => p.time ≤ t - step

/-- A point that fits in the slot is merged only when the slot and the first one are set. -/
def fitIn (data : Slots α) (o : Nat) (p : RawDataPoint Int64 α) : RawDataPoint Int64 α :=
  match filled data o with
  | some q => if data[0]?.join.any fun first => !first.isNull then q.merge p else p
  | none => p

def quantizeLoop (step endTime : BitVec 32) :
    Nat → BitVec 32 → Nat → Points α → Slots α → Option (Slots α)
  | 0, _, _, _, _ => none
  | fuel + 1, t, o, rest, data =>
    if t ≤ endTime then
      match rest with
      | [] =>
        quantizeLoop step endTime fuel (t + step) (o + 1) [] (data.set o (some (.null t)))
      | p :: later =>
        if p.time = t then
          quantizeLoop step endTime fuel (t + step) (o + 1) later (data.set o (some p))
        else if t < p.time then
          let slot := (filled data o).getD (.null t)
          quantizeLoop step endTime fuel (t + step) (o + 1) (p :: later)
            (data.set o (some (if endTime ≤ p.time then slot.merge p else slot)))
        else if t - step < p.time ∧ p.time < t then
          quantizeLoop step endTime fuel (t + step) (o + 1) later
            (data.set o (some (fitIn data o { p with time := t })))
        else
          -- `t -= step; o -= 1`, which the loop head takes back
          quantizeLoop step endTime fuel t o (skipOld step t (p :: later)) data
    else some data

/-- The outer result is `none` when the fuel does not suffice. -/
def quantizeToStep (fuel : Nat) (r : RawRenderItem Int64 α) (step : BitVec 32) :
    Option (Except MetricsError (RenderItem (Option (RawDataPoint Int64 α)))) :=
  if step = 0#32 then some (.error .quantizeStepTooSmall)
  else
    let start := gridStart r.start step
    let endTime := gridEnd r.end step
    let rData := sort r.data
    if endTime < start then
      some (.ok
        { start := start, «end» := start + step, realStart := start, realEnd := start + step
          step := step, data := [some (rData.foldl RawDataPoint.merge (.null start))] })
    else
      let numPts := (((endTime - start) / step) + 1).toNat
      if maxQuantizePoints ≤ numPts then some (.error .quantizeStepTooManyPoints)
      else
        (quantizeLoop step endTime fuel start 0 rData (List.replicate numPts none)).map
          fun data => .ok
            { start := start, «end» := endTime, realStart := start, realEnd := endTime
              step := step, data := data }

/-! ### One slot after the other

A slot is looked at once, or twice when old points come first, and is still empty then. -/

/-- What an empty slot is filled with, and the points that are left. -/
def place (endTime t : BitVec 32) :
    Points α → RawDataPoint Int64 α × Points α
  | [] => (.null t, [])
  | p :: later =>
    if t < p.time then
      (if endTime ≤ p.time then (RawDataPoint.null t).merge p else .null t, p :: later)
    else ({ p with time := t }, later)

def visit (step endTime t : BitVec 32) (rest : Points α) : RawDataPoint Int64 α × Points α :=
  if rest.head?.any fun p => p.time < t then place endTime t (skipOld step t rest)
  else place endTime t rest

def visits (step endTime : BitVec 32) :
    Nat → BitVec 32 → Points α → Points α
  | 0, _, _ => []
  | n + 1, t, rest =>
    (visit step endTime t rest).1 ::
      visits step endTime n (t + step) (visit step endTime t rest).2

variable {step endTime t : BitVec 32} {o fuel : Nat} {rest : Points α}
variable {data : Slots α}

/-- Points that are not old are placed at once. -/
theorem quantizeLoop_place (running : t ≤ endTime) (empty : data[o]?.join = none)
    (fresh : ∀ p ∈ rest.head?, p.time < t → t - step < p.time) :
    quantizeLoop step endTime (fuel + 1) t o rest data =
      quantizeLoop step endTime fuel (t + step) (o + 1) (place endTime t rest).2
        (data.set o (some (place endTime t rest).1)) := by
  have unfilled : filled data o = none := by simp [filled, empty]
  rw [quantizeLoop.eq_def]
  dsimp only
  rw [if_pos running]
  rcases rest with _ | ⟨p, later⟩
  · rfl
  · dsimp only
    by_cases same : p.time = t
    · have notAfter : ¬ t < t := BitVec.lt_irrefl t
      subst same
      rw [if_pos rfl, place, if_neg notAfter]
    · by_cases after : t < p.time
      · rw [if_neg same, if_pos after, place, if_pos after, unfilled]
        rfl
      · have before : p.time < t := by
          have ne : p.time.toNat ≠ t.toNat := fun h => same (BitVec.eq_of_toNat_eq h)
          rw [BitVec.lt_def] at after ⊢
          omega
        have inside := fresh p rfl before
        rw [if_neg same, if_neg after, if_pos ⟨inside, before⟩, place, if_neg after, fitIn,
          unfilled]

/-- A look at an old point only drops the old points. -/
theorem quantizeLoop_old {p : RawDataPoint Int64 α} {later : Points α}
    (running : t ≤ endTime) (before : p.time < t) (old : p.time ≤ t - step) :
    quantizeLoop step endTime (fuel + 1) t o (p :: later) data =
      quantizeLoop step endTime fuel t o (skipOld step t (p :: later)) data := by
  have same : p.time ≠ t := BitVec.ne_of_lt before
  have after : ¬ t < p.time := by
    rw [BitVec.not_lt]
    exact BitVec.le_of_lt before
  have inside : ¬ (t - step < p.time ∧ p.time < t) := by
    rintro ⟨lt, _⟩
    exact BitVec.not_lt.mpr old lt
  rw [quantizeLoop.eq_def]
  dsimp only
  rw [if_pos running, if_neg same, if_neg after, if_neg inside]

omit [Add α] [LT α] [DecidableLT α] in
theorem skipOld_fresh : ∀ p ∈ (skipOld step t rest).head?, p.time < t → t - step < p.time := by
  intro p first _
  have := List.head?_dropWhile_not (fun p : RawDataPoint Int64 α => decide (p.time ≤ t - step)) rest
  rw [skipOld] at first
  rw [Option.mem_def.mp first] at this
  simpa using this

variable (endTime t rest) in
theorem place_sublist : (place endTime t rest).2.Sublist rest := by
  rcases rest with _ | ⟨p, later⟩
  · exact .refl _
  · by_cases after : t < p.time
    · simp [place, after]
    · simp [place, after]

omit [Add α] [LT α] [DecidableLT α] in
theorem length_skipOld_le : (skipOld step t rest).length ≤ rest.length :=
  (List.dropWhile_sublist _).length_le

variable (step) in
/-- With fuel for the points that are left and for `m` more rounds, one slot is filled. -/
theorem quantizeLoop_visit {m : Nat} (running : t ≤ endTime) (empty : data[o]?.join = none)
    (enough : rest.length + m + 1 ≤ fuel) :
    ∃ fuel', (visit step endTime t rest).2.length + m ≤ fuel' ∧
      quantizeLoop step endTime fuel t o rest data =
        quantizeLoop step endTime fuel' (t + step) (o + 1) (visit step endTime t rest).2
          (data.set o (some (visit step endTime t rest).1)) := by
  obtain ⟨fuel, rfl⟩ := Nat.exists_eq_add_of_le' (Nat.le_of_add_left_le enough)
  by_cases before : rest.head?.any fun p => p.time < t
  · rw [visit, if_pos before]
    rcases rest with _ | ⟨p, later⟩
    · simp at before
    · replace before : p.time < t := by simpa using before
      have short := (place_sublist endTime t (skipOld step t (p :: later))).length_le
      by_cases old : p.time ≤ t - step
      · -- the second look at the slot has the old points' fuel
        have fewer : (skipOld step t (p :: later)).length ≤ later.length := by
          rw [skipOld, List.dropWhile_cons_of_pos (by simpa using old)]
          exact length_skipOld_le
        obtain ⟨fuel, rfl⟩ := Nat.exists_eq_add_of_le' (show 1 ≤ fuel by
          rw [List.length_cons] at enough
          omega)
        refine ⟨fuel, ?_, ?_⟩
        · rw [List.length_cons] at enough
          omega
        · rw [quantizeLoop_old running before old]
          exact quantizeLoop_place running empty skipOld_fresh
      · have kept : skipOld step t (p :: later) = p :: later := by
          rw [skipOld, List.dropWhile_cons_of_neg (by simpa using old)]
        rw [kept] at short ⊢
        refine ⟨fuel, by omega, quantizeLoop_place running empty ?_⟩
        rintro q ⟨rfl⟩ _
        exact BitVec.not_le.mp old
  · rw [visit, if_neg before]
    have short := (place_sublist endTime t rest).length_le
    refine ⟨fuel, by omega, quantizeLoop_place running empty ?_⟩
    intro p first lt
    rw [Option.mem_def.mp first] at before
    exact absurd lt (by simpa using before)

theorem quantizeLoop_eq {n : Nat} (pre : Slots α) (enough : rest.length + n + 1 ≤ fuel)
    (fits : endTime.toNat + step.toNat < 2 ^ 32)
    (inside : ∀ k < n, t.toNat + step.toNat * k ≤ endTime.toNat)
    (outside : endTime.toNat < t.toNat + step.toNat * n) :
    quantizeLoop step endTime fuel t pre.length rest (pre ++ List.replicate n none) =
      some (pre ++ (visits step endTime n t rest).map some) := by
  induction n generalizing fuel t rest pre with
  | zero =>
    obtain ⟨fuel, rfl⟩ := Nat.exists_eq_add_of_le' (Nat.le_of_add_left_le enough)
    have past : ¬ t ≤ endTime := by
      rw [BitVec.le_def]
      omega
    rw [quantizeLoop.eq_def]
    simp [past, visits]
  | succ n ih =>
    have running : t ≤ endTime := by
      have := inside 0 (Nat.succ_pos n)
      rw [BitVec.le_def]
      omega
    have next : (t + step).toNat = t.toNat + step.toNat := by
      rw [BitVec.le_def] at running
      rw [BitVec.toNat_add]
      omega
    have empty : (pre ++ List.replicate (n + 1) none)[pre.length]?.join = none := by simp
    obtain ⟨fuel', enough', visited⟩ := quantizeLoop_visit step (m := n + 1) running empty enough
    have filledNext : (pre ++ List.replicate (n + 1) none).set pre.length
        (some (visit step endTime t rest).1) =
        (pre ++ [some (visit step endTime t rest).1]) ++ List.replicate n none := by
      simp [List.replicate_succ]
    rw [visited, filledNext, show pre.length + 1 =
      (pre ++ [some (visit step endTime t rest).1]).length by simp, ih _ (by omega), visits]
    · simp
    · intro k lt
      have := inside (k + 1) (by omega)
      rw [Nat.mul_add] at this
      omega
    · rw [Nat.mul_add] at outside
      omega

/-! ### What a slot is filled with -/

/-- The points that are not old at a grid time. -/
def recent (step t : Nat) (l : Points α) : Points α :=
  l.filter fun p => t < p.time.toNat + step

def slotAt (step endTime : BitVec 32) (l : Points α) (t : Nat) : RawDataPoint Int64 α :=
  (place endTime (BitVec.ofNat 32 t) (recent step.toNat t l)).1

abbrev InTimeOrder (l : Points α) : Prop :=
  l.Pairwise fun p q => p.time.toNat ≤ q.time.toNat

theorem visit_eq (pos : 0 < step.toNat) (aligned : t.toNat = 0 ∨ step.toNat ≤ t.toNat)
    (sorted : InTimeOrder rest) :
    visit step endTime t rest = place endTime t (recent step.toNat t.toNat rest) := by
  by_cases before : rest.head?.any fun p => p.time < t
  · have le : step.toNat ≤ t.toNat := by
      rcases rest with _ | ⟨p, later⟩
      · simp at before
      · have lt : p.time.toNat < t.toNat := by simpa [BitVec.lt_def] using before
        omega
    have back : (t - step).toNat = t.toNat - step.toNat := BitVec.toNat_sub_of_le le
    have swept := Grid.dropWhile_eq_filter sorted (t.toNat - step.toNat)
    rw [visit, if_pos before, skipOld, recent]
    simp only [BitVec.le_def, back]
    rw [swept]
    refine congrArg _ (List.filter_congr ?_)
    intro q _
    simp only [decide_eq_decide]
    omega
  · have all : recent step.toNat t.toNat rest = rest := by
      refine List.filter_eq_self.mpr ?_
      intro q mem
      rcases rest with _ | ⟨p, later⟩
      · cases mem
      · have first : t.toNat ≤ p.time.toNat := by simpa [BitVec.lt_def] using before
        have le : p.time.toNat ≤ q.time.toNat := by
          rcases List.mem_cons.mp mem with rfl | mem
          · exact Nat.le_refl _
          · exact (List.pairwise_cons.mp sorted).1 q mem
        simp only [decide_eq_true_eq]
        omega
    rw [visit, if_neg before, all]

/-- What a slot takes away is old for the next one. -/
theorem recent_place {t' : Nat} (next : t.toNat + step.toNat ≤ t') :
    recent step.toNat t' (place endTime t (recent step.toNat t.toNat rest)).2 =
      recent step.toNat t' rest := by
  have again : recent step.toNat t' (recent step.toNat t.toNat rest) =
      recent step.toNat t' rest := by
    rw [recent, recent, recent, List.filter_filter]
    refine List.filter_congr ?_
    intro p _
    rw [← Bool.decide_and, decide_eq_decide]
    omega
  rw [← again]
  rcases recent step.toNat t.toNat rest with _ | ⟨p, later⟩
  · rfl
  · by_cases after : t < p.time
    · simp [place, after]
    · have old : ¬ t' < p.time.toNat + step.toNat := by
        rw [BitVec.lt_def] at after
        omega
      simp [place, after, recent, old]

/-- On an aligned grid each slot depends on the points that are not old for it. -/
theorem visits_eq {n : Nat} (pos : 0 < step.toNat) (aligned : t.toNat = 0 ∨ step.toNat ≤ t.toNat)
    (sorted : InTimeOrder rest) (fits : t.toNat + step.toNat * n < 2 ^ 32) :
    visits step endTime n t rest =
      (List.range n).map fun k => slotAt step endTime rest (t.toNat + step.toNat * k) := by
  induction n generalizing t rest with
  | zero => rfl
  | succ n ih =>
    rw [Nat.mul_add] at fits
    have next : (t + step).toNat = t.toNat + step.toNat := by
      rw [BitVec.toNat_add]
      omega
    have left : InTimeOrder (place endTime t (recent step.toNat t.toNat rest)).2 :=
      (sorted.filter _).sublist (place_sublist _ _ _)
    rw [visits, visit_eq pos aligned sorted, ih (by omega) left (by omega),
      List.range_succ_eq_map, List.map_cons, List.map_map]
    refine congrArg₂ _ ?_ (List.map_congr_left ?_)
    · simp [slotAt]
    · intro k _
      have time : (t + step).toNat + step.toNat * k = t.toNat + step.toNat * (k + 1) := by
        rw [next, Nat.mul_add]
        omega
      have le : step.toNat ≤ step.toNat * (k + 1) := Nat.le_mul_of_pos_right _ (Nat.succ_pos k)
      simp only [Function.comp_apply, slotAt, time, Nat.succ_eq_add_one]
      rw [recent_place (by omega)]

/-! ### The exact gridding -/

variable (step t : Nat) (l : Points α)

/-- The points of the bin `(t - step, t]`. -/
def binAt : Points α := l.filter fun p => p.time.toNat ≤ t ∧ t < p.time.toNat + step

def valuedAt : Points α := (binAt step t l).filter fun p => !p.isNull

def laterThan : Points α := l.filter fun p => t < p.time.toNat

def RawDataPoint.values (p : RawDataPoint Int64 α) : Option α × Option α × Option α × Int64 :=
  (p.min, p.max, p.sum, p.count)

/-- What the entry of a grid time is for: null, or the merge of the points of its bin. -/
def Carries : Option (RawDataPoint Int64 α) → Prop
  | none => False
  | some p => p.time.toNat = t ∧
    match valuedAt step t l with
    | [] => p.isNull = true
    | q :: qs => p.values = (qs.foldl RawDataPoint.merge q).values

/-- After an empty bin comes no value at the end or later, and the first point of a bin is
worth the merge of all its values. -/
structure FitsAt (stop : Nat) : Prop where
  apart : binAt step t l = [] →
    ∀ p ∈ (laterThan t l).head?, stop ≤ p.time.toNat → p.isNull = true
  alone : ∀ q qs, valuedAt step t l = q :: qs →
    ∀ p ∈ (binAt step t l).head?, p.values = (qs.foldl RawDataPoint.merge q).values

variable {step t l}

omit [Add α] [LT α] [DecidableLT α]

theorem binAt_eq : binAt step t l = (recent step t l).filter fun p => p.time.toNat ≤ t := by
  simp [binAt, recent, List.filter_filter]

theorem laterThan_eq (pos : 0 < step) :
    laterThan t l = (recent step t l).filter fun p => t < p.time.toNat := by
  rw [laterThan, recent, List.filter_filter]
  refine List.filter_congr ?_
  intro p _
  rw [← Bool.decide_and, decide_eq_decide]
  omega

/-- The first point that is not old is in the bin, or the bin is empty. -/
theorem binAt_of_recent (pos : 0 < step) (sorted : InTimeOrder l) {p : RawDataPoint Int64 α}
    {later : Points α} (first : recent step t l = p :: later) :
    (p.time.toNat ≤ t ∧ (binAt step t l).head? = some p) ∨
      (t < p.time.toNat ∧ binAt step t l = [] ∧ (laterThan t l).head? = some p) := by
  have ordered : InTimeOrder (p :: later) := by
    rw [← first]
    exact sorted.filter _
  rw [binAt_eq, laterThan_eq pos, first]
  by_cases le : p.time.toNat ≤ t
  · exact .inl ⟨le, by simp [le]⟩
  · refine .inr ⟨not_le.mp le, ?_, by simp [not_le.mp le]⟩
    have above : ∀ q ∈ later, t < q.time.toNat := by
      intro q mem
      have := (List.pairwise_cons.mp ordered).1 q mem
      omega
    simpa [le] using above

end Model

section Exact

variable {α : Type} [Add α] [LT α] [DecidableLT α]
variable {step endTime : BitVec 32} {t : Nat} {l : Points α}

theorem time_merge_of_lt {r d : RawDataPoint Int64 α} (valued : d.isNull = false)
    (lt : r.time < d.time) : (r.merge d).time = d.time := by
  simp [RawDataPoint.merge, valued, lt]

/-- A slot whose bin has a point is that of the bin's first point. -/
theorem carries_iff_of_head {p : RawDataPoint Int64 α} {time : BitVec 32} (at_t : time.toNat = t)
    (head : (binAt step.toNat t l).head? = some p) :
    Carries step.toNat t l (some { p with time := time }) ↔
      FitsAt step.toNat t l endTime.toNat := by
  have mem : p ∈ binAt step.toNat t l := List.mem_of_mem_head? head
  rw [Carries]
  constructor
  · rintro ⟨_, values⟩
    constructor
    · intro nobin
      rw [nobin] at mem
      cases mem
    · intro q qs valued p' head'
      obtain rfl : p = p' := Option.some.inj (head.symm.trans head')
      rw [valued] at values
      exact values
  · intro fits
    refine ⟨at_t, ?_⟩
    rcases valued : valuedAt step.toNat t l with _ | ⟨q, qs⟩
    · have null := List.filter_eq_nil_iff.mp valued p mem
      simpa [RawDataPoint.isNull] using null
    · exact fits.alone q qs valued p head

/-- A slot whose bin is empty is spoiled by a value at the end or later. -/
theorem carries_iff_of_nil {p : RawDataPoint Int64 α} {time : BitVec 32} (at_t : time.toNat = t)
    (after : time < p.time) (nobin : binAt step.toNat t l = [])
    (head : (laterThan t l).head? = some p) :
    Carries step.toNat t l (some (if endTime ≤ p.time then (RawDataPoint.null time).merge p
      else .null time)) ↔ FitsAt step.toNat t l endTime.toNat := by
  have novalue : valuedAt step.toNat t l = [] := by rw [valuedAt, nobin, List.filter_nil]
  rw [Carries, novalue]
  constructor
  · rintro ⟨same, _⟩
    refine ⟨?_, by simp [novalue]⟩
    intro _ q head' late
    obtain rfl : p = q := Option.some.inj (head.symm.trans head')
    by_contra valued
    rw [if_pos (show endTime ≤ p.time from late),
      time_merge_of_lt (by simpa using valued) after] at same
    rw [BitVec.lt_def] at after
    omega
  · intro fits
    have untouched : (if endTime ≤ p.time then (RawDataPoint.null time).merge p
        else .null time) = RawDataPoint.null time := by
      by_cases late : endTime ≤ p.time
      · have null := fits.apart nobin p head late
        rw [if_pos late, RawDataPoint.merge, if_pos null]
      · rw [if_neg late]
    rw [untouched]
    exact ⟨at_t, rfl⟩

/-- The loop fills a slot as it should exactly when the points around it fit. -/
theorem carries_slotAt_iff (pos : 0 < step.toNat) (small : t < 2 ^ 32) (sorted : InTimeOrder l) :
    Carries step.toNat t l (some (slotAt step endTime l t)) ↔
      FitsAt step.toNat t l endTime.toNat := by
  have time : (BitVec.ofNat 32 t).toNat = t := by
    rw [BitVec.toNat_ofNat, Nat.mod_eq_of_lt small]
  rw [slotAt]
  rcases first : recent step.toNat t l with _ | ⟨p, later⟩
  · have nobin : binAt step.toNat t l = [] := by rw [binAt_eq, first, List.filter_nil]
    have nolater : laterThan t l = [] := by rw [laterThan_eq pos, first, List.filter_nil]
    have novalue : valuedAt step.toNat t l = [] := by rw [valuedAt, nobin, List.filter_nil]
    constructor
    · intro _
      exact ⟨by simp [nolater], by simp [nobin]⟩
    · intro _
      rw [place, Carries, novalue]
      exact ⟨time, rfl⟩
  · rcases binAt_of_recent pos sorted first with ⟨le, head⟩ | ⟨lt, nobin, head⟩
    · have notAfter : ¬ BitVec.ofNat 32 t < p.time := by
        rw [BitVec.lt_def, time]
        omega
      rw [place, if_neg notAfter]
      exact carries_iff_of_head time head
    · have after : BitVec.ofNat 32 t < p.time := by
        rw [BitVec.lt_def, time]
        exact lt
      rw [place, if_pos after]
      exact carries_iff_of_nil time after nobin head

variable (sort : Points α → Points α) (r : RawRenderItem Int64 α)
variable (step) in
def quantizeTimes : List Nat :=
  times (roundUp step.toNat r.start.toNat) (roundUp step.toNat r.end.toNat) step.toNat

variable (step) in
/-- One entry for each grid time, with what its bin merges to; a point is in one bin. -/
structure OnGrid (out : RenderItem (Option (RawDataPoint Int64 α))) : Prop where
  entries : List.Forall₂ (fun t slot => Carries step.toNat t (sort r.data) slot)
    (quantizeTimes step r) out.data
  once : ∀ p ∈ r.data, roundUp step.toNat r.start.toNat < p.time.toNat + step.toNat →
    p.time.toNat ≤ roundUp step.toNat r.end.toNat →
    ∃! t, t ∈ quantizeTimes step r ∧ p ∈ binAt step.toNat t (sort r.data)

variable (step) in
/-- The interval is not turned around, and the data fits around each grid time. -/
structure Fitting : Prop where
  ordered : roundUp step.toNat r.start.toNat ≤ roundUp step.toNat r.end.toNat
  slots : ∀ t ∈ quantizeTimes step r,
    FitsAt step.toNat t (sort r.data) (roundUp step.toNat r.end.toNat)

variable {sort r} {fuel : Nat}

theorem length_visits {n : Nat} {t : BitVec 32} : (visits step endTime n t l).length = n := by
  induction n generalizing t l with
  | zero => rfl
  | succ n ih => rw [visits, List.length_cons, ih]

theorem quantizeLoop_whole {start : BitVec 32} (pos : 0 < step.toNat)
    (fits : endTime.toNat + step.toNat < 2 ^ 32) (le : start.toNat ≤ endTime.toNat)
    (enough : l.length + ((endTime.toNat - start.toNat) / step.toNat + 1) + 1 ≤ fuel) :
    quantizeLoop step endTime fuel start 0 l
        (List.replicate ((endTime.toNat - start.toNat) / step.toNat + 1) none) =
      some ((visits step endTime ((endTime.toNat - start.toNat) / step.toNat + 1) start l).map
        some) := by
  exact quantizeLoop_eq [] enough fits (fun k lt => slots_inside le lt)
    (slots_outside pos start.toNat endTime.toNat)

/-- Quantizing ends, with one slot or with as many as are visited. -/
theorem quantizeToStep_cases (sorts : SortsByTime sort) (pos : 0 < step.toNat)
    (fits : (gridEnd r.end step).toNat + step.toNat < 2 ^ 32)
    (enough : r.data.length + maxQuantizePoints ≤ fuel) :
    ∃ result, quantizeToStep sort fuel r step = some result ∧ ∀ out, result = .ok out →
      (gridEnd r.end step < gridStart r.start step ∧ out.data.length = 1) ∨
      (gridStart r.start step ≤ gridEnd r.end step ∧
        out.data = (visits step (gridEnd r.end step)
          (((gridEnd r.end step).toNat - (gridStart r.start step).toNat) / step.toNat + 1)
          (gridStart r.start step) (sort r.data)).map some) := by
  have nonzero := step_ne_zero pos
  rw [quantizeToStep, if_neg nonzero]
  dsimp only
  generalize gridStart r.start step = start
  generalize gridEnd r.end step = endTime at fits ⊢
  by_cases inverted : endTime < start
  · rw [if_pos inverted]
    exact ⟨_, rfl, by rintro out ⟨rfl⟩; exact .inl ⟨inverted, rfl⟩⟩
  · have le : start.toNat ≤ endTime.toNat := BitVec.not_lt.mp inverted
    rw [if_neg inverted, toNat_numPts pos fits le]
    by_cases many : maxQuantizePoints ≤ (endTime.toNat - start.toNat) / step.toNat + 1
    · rw [if_pos many]
      exact ⟨_, rfl, by rintro out ⟨⟩⟩
    · rw [if_neg many]
      have room : (sort r.data).length + ((endTime.toNat - start.toNat) / step.toNat + 1) + 1 ≤
          fuel := by
        rw [(sorts.perm r.data).length_eq]
        omega
      rw [quantizeLoop_whole pos fits le room]
      exact ⟨_, rfl, by rintro out ⟨rfl⟩; exact .inr ⟨BitVec.not_lt.mp inverted, rfl⟩⟩

omit [Add α] [LT α] [DecidableLT α] in
theorem once_of_ordered (sorts : SortsByTime sort) (pos : 0 < step.toNat)
    (ordered : roundUp step.toNat r.start.toNat ≤ roundUp step.toNat r.end.toNat) :
    ∀ p ∈ r.data, roundUp step.toNat r.start.toNat < p.time.toNat + step.toNat →
      p.time.toNat ≤ roundUp step.toNat r.end.toNat →
      ∃! t, t ∈ quantizeTimes step r ∧ p ∈ binAt step.toNat t (sort r.data) := by
  intro p mem above below
  obtain ⟨t, ⟨time, le, lt⟩, unique⟩ := existsUnique_mem_times pos ordered
    (dvd_roundUp _ _) (dvd_roundUp _ _) above below
  have mem' := (sorts.perm r.data).mem_iff.mpr mem
  refine ⟨t, ⟨time, List.mem_filter.mpr ⟨mem', by simpa using ⟨le, lt⟩⟩⟩, ?_⟩
  rintro t' ⟨time', inBin⟩
  have bounds := (List.mem_filter.mp inBin).2
  exact unique t' ⟨time', by simpa using bounds⟩

/-- On a grid that does not wrap around, the slots visited are those of the grid times. -/
theorem visits_whole (sorts : SortsByTime sort) (pos : 0 < step.toNat)
    (ordered : roundUp step.toNat r.start.toNat ≤ roundUp step.toNat r.end.toNat)
    (fits : roundUp step.toNat r.end.toNat + step.toNat < 2 ^ 32)
    (stop : endTime.toNat = roundUp step.toNat r.end.toNat) {start : BitVec 32}
    (first : start.toNat = roundUp step.toNat r.start.toNat) :
    visits step endTime ((endTime.toNat - start.toNat) / step.toNat + 1) start (sort r.data) =
      (quantizeTimes step r).map (slotAt step endTime (sort r.data)) := by
  have aligned : start.toNat = 0 ∨ step.toNat ≤ start.toNat := by
    have multiple : step.toNat ∣ start.toNat := first ▸ dvd_roundUp _ _
    rcases Nat.eq_zero_or_pos start.toNat with zero | some
    · exact .inl zero
    · exact .inr (Nat.le_of_dvd some multiple)
  have last := Nat.mul_div_le (endTime.toNat - start.toNat) step.toNat
  rw [visits_eq pos aligned (sorts.sorted r.data) (by rw [Nat.mul_add]; omega), quantizeTimes,
    times, if_pos ordered, List.map_map, stop, first]
  rfl

/-- Quantizing ends, and it is the exact gridding of the data if and only if the interval is
not turned around and the data fits around each grid time. -/
theorem quantizeToStep_onGrid_iff (sorts : SortsByTime sort) (pos : 1 ≤ step.toNat)
    (ends : 1 ≤ r.end.toNat) (fits : roundUp step.toNat r.end.toNat + step.toNat < 2 ^ 32)
    (enough : r.data.length + maxQuantizePoints ≤ fuel) :
    ∃ result, quantizeToStep sort fuel r step = some result ∧
      ∀ out, result = .ok out → (OnGrid step sort r out ↔ Fitting step sort r) := by
  have stop := gridEnd_toNat pos ends (by omega)
  obtain ⟨result, ran, shapes⟩ := quantizeToStep_cases sorts pos (by omega) enough
  refine ⟨result, ran, ?_⟩
  intro out ok
  by_cases ordered : roundUp step.toNat r.start.toNat ≤ roundUp step.toNat r.end.toNat
  · have first : (gridStart r.start step).toNat = roundUp step.toNat r.start.toNat :=
      gridStart_toNat pos (by omega)
    have filledSlots : out.data = (quantizeTimes step r).map fun t =>
        some (slotAt step (gridEnd r.end step) (sort r.data) t) := by
      rcases shapes out ok with ⟨inverted, _⟩ | ⟨_, visited⟩
      · rw [BitVec.lt_def] at inverted
        omega
      · rw [visited, visits_whole sorts pos ordered fits stop first, List.map_map]
        rfl
    have slot : ∀ t ∈ quantizeTimes step r,
        (Carries step.toNat t (sort r.data)
          (some (slotAt step (gridEnd r.end step) (sort r.data) t)) ↔
        FitsAt step.toNat t (sort r.data) (roundUp step.toNat r.end.toNat)) := by
      intro t mem
      have le := mem_times_le ordered mem
      rw [← stop]
      exact carries_slotAt_iff pos (by omega) (sorts.sorted r.data)
    constructor
    · rintro ⟨entries, _⟩
      rw [filledSlots, List.forall₂_map_right_iff, List.forall₂_same] at entries
      exact ⟨ordered, fun t mem => (slot t mem).mp (entries t mem)⟩
    · rintro ⟨_, slots⟩
      refine ⟨?_, once_of_ordered sorts pos ordered⟩
      rw [filledSlots, List.forall₂_map_right_iff, List.forall₂_same]
      exact fun t mem => (slot t mem).mpr (slots t mem)
  · -- the grid is empty, and some slot was filled all the same
    have nonempty : out.data ≠ [] := by
      intro nil
      rcases shapes out ok with ⟨_, one⟩ | ⟨_, visited⟩
      · rw [nil] at one
        cases one
      · have := congrArg List.length visited
        rw [nil, List.length_map, length_visits] at this
        cases this
    constructor
    · rintro ⟨entries, _⟩
      rw [quantizeTimes, times, if_neg ordered, List.forall₂_nil_left_iff] at entries
      exact absurd entries nonempty
    · rintro ⟨ordered', _⟩
      exact absurd ordered' ordered

end Exact

/-! ### Two points in one bin -/

/-- Points of one value each, from 10 to 20. -/
def sampled (data : Points Int) : RawRenderItem Int64 Int := ⟨10, 20, 10, 20, 10, data⟩

/-- Of two points in the bin of 20 the second is lost. -/
theorem quantizeToStep_loses : ∃ out,
    quantizeToStep byTime 100002 (sampled [single 12 1, single 15 2]) 10 = some (.ok out) ∧
      ¬ OnGrid 10 byTime (sampled [single 12 1, single 15 2]) out := by
  refine ⟨⟨10, 20, 10, 20, 10, [some (.null 10), some (single 20 1)]⟩, by decide, ?_⟩
  rintro ⟨entries, _⟩
  rw [show quantizeTimes 10 (sampled [single 12 1, single 15 2]) = [10, 20] by decide] at entries
  obtain ⟨_, second⟩ := List.forall₂_cons.mp entries
  obtain ⟨⟨_, values⟩, _⟩ := List.forall₂_cons.mp second
  have both : valuedAt (10 : BitVec 32).toNat 20
      (byTime (sampled [single 12 1, single 15 2]).data) = [single 12 1, single 15 2] := by decide
  rw [both] at values
  exact absurd values (by decide)

/-- A single point in the bin is kept, and the bin before it is null. -/
theorem quantizeToStep_onGrid_iff_single : ∃ out,
    quantizeToStep byTime 100002 (sampled [single 12 1]) 10 = some (.ok out) ∧
      OnGrid 10 byTime (sampled [single 12 1]) out := by
  obtain ⟨result, ran, gridded⟩ : ∃ result,
      quantizeToStep byTime 100002 (sampled [single 12 1]) 10 = some result ∧
        ∀ out, result = .ok out → (OnGrid 10 byTime (sampled [single 12 1]) out ↔
          Fitting 10 byTime (sampled [single 12 1])) :=
    quantizeToStep_onGrid_iff sortsByTime_byTime (by decide) (by decide) (by decide) (by decide)
  have value : quantizeToStep byTime 100002 (sampled [single 12 1]) 10 =
    some (.ok ⟨10, 20, 10, 20, 10, [some (.null 10), some (single 20 1)]⟩) := by decide
  refine ⟨_, value, (gridded _ (Option.some.inj (ran.symm.trans value))).mpr ?_⟩
  constructor
  · decide
  · rw [show quantizeTimes 10 (sampled [single 12 1]) = [10, 20] by decide]
    intro t mem
    have alone : valuedAt 10 20 (byTime (sampled [single 12 1]).data) = [single 12 1] := by decide
    rcases List.mem_pair.mp mem with rfl | rfl
    · constructor
      · intro _ p first late
        cases (show some (single 12 1) = some p from first)
        exact absurd late (by decide)
      · rintro q qs ⟨⟩
    · constructor
      · rintro ⟨⟩
      · intro q qs valued p first
        cases (show some (single 12 1) = some p from first)
        cases alone.symm.trans valued
        rfl

end Metrics
