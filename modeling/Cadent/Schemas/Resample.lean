import Cadent.Schemas.ItemMemory

/-!
# Merging two render items while resampling

`MergeWithResample` walks the grid of the coarser step with one cursor in each of the two
sorted lists, and merges what both cursors pass on the way to a grid time. It appends to the
backing array that it reads from at most as far as it has read, so as long as no point is
listed twice and the two slices do not overlap, nothing is overwritten that is still to be
read, and every point is merged into one point of its slot.
-/

namespace Metrics

open Grid

variable {α : Type} [AddCommSemigroup α] [LinearOrder α]

namespace Memory

/-! ### The cursors -/

section Cursors

variable (m : Memory α) (t : BitVec 32)

/-- Whether a cursor passes a point on its way to `t`. -/
def passed (p : Nat) : Bool := (m.points.cell p).time.toNat ≤ t.toNat

omit [AddCommSemigroup α] [LinearOrder α]

variable {m t} in
theorem passed_eq_false {p : Nat} (after : t < (m.points.cell p).time) : m.passed t p = false :=
  decide_eq_false (not_le.mpr after)

variable {m t} in
theorem passed_eq_true {p : Nat} (here : ¬ t < (m.points.cell p).time) : m.passed t p = true :=
  decide_eq_true (BitVec.not_lt.mp here)

theorem collectStored_eq {d : Nat} {ds : List Nat} {left o : Nat}
    (reads : ∀ j x, o ≤ j → ds[j]? = some x →
      (m.items.cell d).data.get m.arrays j = some (some x)) (rest : left = ds.length - o)
    (pts : List Nat) :
    m.collectStored d t left o pts =
      .ok (o + ((ds.drop o).takeWhile (m.passed t)).length,
        pts ++ (ds.drop o).takeWhile (m.passed t)) := by
  induction left generalizing o pts with
  | zero =>
    rw [collectStored, List.drop_eq_nil_of_le (by omega)]
    simp
  | succ left ih =>
    have lt : o < ds.length := by omega
    have read := reads o ds[o] (Nat.le_refl o) (List.getElem?_eq_getElem lt)
    rw [List.drop_eq_getElem_cons lt, collectStored, read]
    dsimp only
    split_ifs with after
    · simp [passed_eq_false after]
    · have next := ih (o := o + 1) (fun j x ge => reads j x (by omega)) (by omega)
      rw [next, List.takeWhile_cons_of_pos (passed_eq_true after), List.length_cons,
        List.append_assoc, List.singleton_append, Nat.add_right_comm, Nat.add_assoc]

theorem collectCopied_eq (pts rs : List Nat) :
    m.collectCopied t pts (rs.map some) =
      (pts ++ rs.takeWhile (m.passed t), (rs.dropWhile (m.passed t)).map some) := by
  induction rs generalizing pts with
  | nil => simp [collectCopied]
  | cons p rs ih =>
    rw [List.map_cons, collectCopied]
    split_ifs with after
    · simp [passed_eq_false after]
    · simp [passed_eq_true after, ih]

end Cursors

/-! ### Merging in place -/

section InPlace

variable {sort : PointerSort α}

/-- Only the first point changes, and it is the fold of all of them. -/
theorem foldl_mergeInto (h : Objects α) {p : Nat} {qs : List Nat}
    (apart : p ∉ qs) : qs.foldl (fun h q => mergeInto h p q) h =
      h.write p ((qs.map h.cell).foldl RawDataPoint.merge (h.cell p)) := by
  induction qs generalizing h with
  | nil => simp
  | cons q qs ih =>
    have others : p ∉ qs := fun mem => apart (List.mem_cons_of_mem _ mem)
    have same : qs.map (mergeInto h p q).cell = qs.map h.cell :=
      List.map_congr_left fun x mem => h.write_cell_of_ne (ne_of_mem_of_not_mem mem others) _
    rw [List.foldl_cons, ih _ others, same, mergeInto, Heap.write_cell, Heap.write_write]
    rfl

theorem mergePts_cases (sorts : SortsPointers sort) (h : Objects α)
    {pts : List Nat} (nodup : pts.Nodup) :
    (pts = [] ∧ mergePts sort h pts = none) ∨ ∃ p h', mergePts sort h pts = some (p, h') ∧
      p ∈ pts ∧ (∀ x, x ≠ p → h'.cell x = h.cell x) ∧
      MergedFrom (pts.map h.cell) (h'.cell p) := by
  rcases pts with _ | ⟨a, _ | ⟨b, _ | ⟨c, rest⟩⟩⟩
  · exact .inl ⟨rfl, rfl⟩
  · exact .inr ⟨a, h, rfl, List.mem_cons_self, fun _ _ => rfl, h.cell a, [], .refl _, rfl⟩
  · refine .inr ⟨a, mergeInto h a b, rfl, List.mem_cons_self,
      fun x ne => h.write_cell_of_ne ne _, h.cell a, [h.cell b], .refl _, ?_⟩
    rw [mergeInto, Heap.write_cell]
    rfl
  · have perm : (sort h ((a :: b :: c :: rest).map some)).reduceOption.Perm
        (a :: b :: c :: rest) := by
      have := (sorts.perm h ((a :: b :: c :: rest).map some)).filterMap id
      simpa [List.reduceOption, List.filterMap_map] using this
    cases result : (sort h ((a :: b :: c :: rest).map some)).reduceOption with
    | nil =>
      rw [result] at perm
      exact absurd perm.length_eq (by simp)
    | cons p ps =>
      rw [result] at perm
      have merged : mergePts sort h (a :: b :: c :: rest) =
          some (p, ps.foldl (fun h q => mergeInto h p q) h) := by
        rw [mergePts, result] <;> simp
      have apart : p ∉ ps := (List.nodup_cons.mp (perm.nodup_iff.mpr nodup)).1
      refine .inr ⟨p, _, merged, perm.subset List.mem_cons_self, ?_, ?_⟩
      · intro x ne
        rw [foldl_mergeInto h apart, h.write_cell_of_ne ne]
      · refine ⟨h.cell p, ps.map h.cell, ?_, ?_⟩
        · rw [← List.map_cons]
          exact perm.map _
        · rw [foldl_mergeInto h apart, Heap.write_cell]

end InPlace

/-! ### The sweep over the grid -/

section Sweep

variable {sort : PointerSort α}
  {grow : Nat → Nat} {base : Objects α} {start : Nat} {step endTime : BitVec 32}
  {ds rs : List Nat} {r d home : Nat} {window : Slice} {m : Memory α}

/-- Before slot `k`, with the cursors at `o` and `i`: what both have left is as it was and is not
listed by `r`, which lists the slots before. The next cell that `r` writes is not in the part of
the `window` of `d` that is still to be read: `r` has moved, or it has written no more than was
read. -/
structure Merging (base : Objects α) (start step : Nat) (ds rs : List Nat)
    (r d home : Nat) (window : Slice) (k : Nat) (m : Memory α) (o i : Nat) : Prop where
  leftD : (ds.drop o).map base.cell = (ds.map base.cell).filter fun p => k ≤ p.bin start step
  leftR : (rs.drop i).map base.cell = (rs.map base.cell).filter fun p => k ≤ p.bin start step
  kept : ∀ x ∈ ds.drop o ++ rs.drop i, m.points.cell x = base.cell x
  fresh : ∀ x ∈ ds.drop o ++ rs.drop i, some x ∉ m.pointers r
  gridded : Gridded start step (ds.map base.cell ++ rs.map base.cell) k (m.data r)
  header : ds ≠ [] → d ≠ r ∧ (m.items.cell d).data = window
  reads : ∀ j x, o ≤ j → ds[j]? = some x →
    m.arrays.cell window.array (window.offset + j) = some x
  room : ds ≠ [] → (m.items.cell r).data.array ≠ window.array ∨
    (m.items.cell r).data.offset = home ∧
      (home + rs.length ≤ window.offset ∨ window.offset + ds.length ≤ home)
  short : (m.items.cell r).data.length ≤ o + i
  within : i ≤ rs.length

/-- Where a cursor is when it has passed what is until `t`. -/
def cursorAfter (m : Memory α) (t : BitVec 32) (l : List Nat) (o : Nat) : Nat :=
  o + ((l.drop o).takeWhile (m.passed t)).length

/-- What is collected for a slot. -/
def slotPts (m : Memory α) (t : BitVec 32) (ds rs : List Nat) (o i : Nat) : List Nat :=
  (ds.drop o).takeWhile (m.passed t) ++ (rs.drop i).takeWhile (m.passed t)

section Cursor

omit [AddCommSemigroup α] [LinearOrder α]

theorem drop_cursorAfter (m : Memory α) (t : BitVec 32) (l : List Nat) (o : Nat) :
    l.drop (m.cursorAfter t l o) = (l.drop o).dropWhile (m.passed t) := by
  have := @List.drop_left _ ((l.drop o).takeWhile (m.passed t)) ((l.drop o).dropWhile (m.passed t))
  rw [List.takeWhile_append_dropWhile] at this
  rw [cursorAfter, ← List.drop_drop, this]

/-- Where a cursor has left what is from slot `k` on, it passes the slot and leaves the rest. -/
theorem passed_slot {l : List Nat} {k o : Nat} {t : BitVec 32} (pos : 0 < step.toNat)
    (sorted : (l.map base.cell).Pairwise fun p q => p.time.toNat ≤ q.time.toNat)
    (now : t.toNat = start + step.toNat * k)
    (left : (l.drop o).map base.cell =
      (l.map base.cell).filter fun p => k ≤ p.bin start step.toNat)
    (kept : ∀ x ∈ l.drop o, m.points.cell x = base.cell x) :
    ((l.drop o).takeWhile (m.passed t)).map base.cell =
        inBin start step.toNat (l.map base.cell) k ∧
      (l.drop (m.cursorAfter t l o)).map base.cell =
        (l.map base.cell).filter fun p => k + 1 ≤ p.bin start step.toNat := by
  obtain ⟨taken, dropped⟩ := sweep_bin pos sorted now
  have same {part : List Nat} (sub : part ⊆ l.drop o) :
      part.map base.cell = part.map m.points.cell :=
    List.map_congr_left fun x mem => (kept x (sub mem)).symm
  rw [← left, same (List.Subset.refl _)] at taken dropped
  rw [drop_cursorAfter, same (List.takeWhile_subset _), same (List.dropWhile_subset _), ← taken,
    ← dropped, List.takeWhile_map, List.dropWhile_map]
  exact ⟨rfl, rfl⟩

theorem mem_left_of_mem_slotPts {t : BitVec 32} {o i x : Nat} (mem : x ∈ m.slotPts t ds rs o i) :
    x ∈ ds.drop o ++ rs.drop i :=
  ((List.takeWhile_sublist _).append (List.takeWhile_sublist _)).subset mem

theorem mem_left_of_mem_after {t : BitVec 32} {o i x : Nat}
    (mem : x ∈ ds.drop (m.cursorAfter t ds o) ++ rs.drop (m.cursorAfter t rs i)) :
    x ∈ ds.drop o ++ rs.drop i := by
  rw [drop_cursorAfter, drop_cursorAfter] at mem
  exact ((List.dropWhile_sublist _).append (List.dropWhile_sublist _)).subset mem

/-- What is collected is no longer left, when no point is listed twice. -/
theorem not_mem_slotPts {t : BitVec 32} {o i : Nat} (nodup : (ds ++ rs).Nodup) {x : Nat}
    (left : x ∈ ds.drop (m.cursorAfter t ds o) ++ rs.drop (m.cursorAfter t rs i)) :
    x ∉ m.slotPts t ds rs o i := by
  have sub : (ds.drop o ++ rs.drop i).Nodup :=
    nodup.sublist ((List.drop_sublist o ds).append (List.drop_sublist i rs))
  rw [← List.takeWhile_append_dropWhile (p := m.passed t) (l := ds.drop o),
    ← List.takeWhile_append_dropWhile (p := m.passed t) (l := rs.drop i)] at sub
  rw [drop_cursorAfter, drop_cursorAfter] at left
  rw [slotPts]
  simp only [List.nodup_append, List.mem_append] at sub left ⊢
  grind

theorem nodup_slotPts {t : BitVec 32} {o i : Nat} (nodup : (ds ++ rs).Nodup) :
    (m.slotPts t ds rs o i).Nodup :=
  nodup.sublist (((List.takeWhile_sublist _).trans (List.drop_sublist o ds)).append
    ((List.takeWhile_sublist _).trans (List.drop_sublist i rs)))

theorem cursorAfter_le {t : BitVec 32} {i : Nat} (within : i ≤ rs.length) :
    m.cursorAfter t rs i ≤ rs.length := by
  have := (List.takeWhile_sublist (m.passed t) (l := rs.drop i)).length_le
  rw [List.length_drop] at this
  rw [cursorAfter]
  omega

end Cursor

/-- The cursors pass the slot at `t`, and leave the later ones. -/
structure Swept (base : Objects α) (start step : Nat) (ds rs : List Nat) (k : Nat)
    (m : Memory α) (t : BitVec 32) (o i : Nat) : Prop where
  slot : (m.slotPts t ds rs o i).map base.cell =
    inBin start step (ds.map base.cell ++ rs.map base.cell) k
  leftD : (ds.drop (m.cursorAfter t ds o)).map base.cell =
    (ds.map base.cell).filter fun p => k + 1 ≤ p.bin start step
  leftR : (rs.drop (m.cursorAfter t rs i)).map base.cell =
    (rs.map base.cell).filter fun p => k + 1 ≤ p.bin start step

theorem Merging.swept {k o i : Nat} {t : BitVec 32}
    (merging : Merging base start step.toNat ds rs r d home window k m o i)
    (pos : 0 < step.toNat) (now : t.toNat = start + step.toNat * k)
    (sortedD : (ds.map base.cell).Pairwise fun p q => p.time.toNat ≤ q.time.toNat)
    (sortedR : (rs.map base.cell).Pairwise fun p q => p.time.toNat ≤ q.time.toNat) :
    Swept base start step.toNat ds rs k m t o i := by
  obtain ⟨slotD, leftD⟩ := passed_slot pos sortedD now merging.leftD
    fun x mem => merging.kept x (List.mem_append_left _ mem)
  obtain ⟨slotR, leftR⟩ := passed_slot pos sortedR now merging.leftR
    fun x mem => merging.kept x (List.mem_append_right _ mem)
  refine ⟨?_, leftD, leftR⟩
  rw [slotPts, List.map_append, slotD, slotR, inBin_append]

theorem Merging.skip {k o i : Nat} {t : BitVec 32}
    (merging : Merging base start step.toNat ds rs r d home window k m o i)
    (none : m.slotPts t ds rs o i = []) (swept : Swept base start step.toNat ds rs k m t o i) :
    Merging base start step.toNat ds rs r d home window (k + 1) m (m.cursorAfter t ds o)
      (m.cursorAfter t rs i) := by
  obtain ⟨noneD, noneR⟩ := List.append_eq_nil_iff.mp none
  have sameO : m.cursorAfter t ds o = o := by rw [cursorAfter, noneD]; rfl
  have sameI : m.cursorAfter t rs i = i := by rw [cursorAfter, noneR]; rfl
  obtain ⟨slot, leftD, leftR⟩ := swept
  rw [none] at slot
  have gridded := merging.gridded.slot (e := .none) slot.symm
  rw [Option.toList_none, List.append_nil] at gridded
  rw [sameO] at leftD ⊢
  rw [sameI] at leftR ⊢
  exact { merging with leftD := leftD, leftR := leftR, gridded := gridded }

/-- The points that `r` listed before are not the one that is written, so they and what the slot is
merged to are on the grid. -/
theorem Merging.gridded_append {k o i p : Nat} {t : BitVec 32} {h : Objects α}
    (merging : Merging base start step.toNat ds rs r d home window k m o i)
    (mem : p ∈ m.slotPts t ds rs o i) (others : ∀ x, x ≠ p → h.cell x = m.points.cell x)
    (merged : MergedFrom ((m.slotPts t ds rs o i).map m.points.cell) (h.cell p))
    (swept : Swept base start step.toNat ds rs k m t o i) :
    Gridded start step.toNat (ds.map base.cell ++ rs.map base.cell) (k + 1)
      (({ m with points := h }.appendData r grow p).data r) := by
  have before : h.load (m.pointers r) = m.data r :=
    Heap.load_congr fun x listed => others x fun same =>
      merging.fresh p (mem_left_of_mem_slotPts mem) (same ▸ listed)
  have kept : (m.slotPts t ds rs o i).map m.points.cell =
      (m.slotPts t ds rs o i).map base.cell :=
    List.map_congr_left fun x mem => merging.kept x (mem_left_of_mem_slotPts mem)
  rw [kept, swept.slot] at merged
  have gridded := merging.gridded.slot (e := some (h.cell p)) merged
  rw [← before] at gridded
  rw [Memory.data, pointers_appendData { m with points := h } (i := r) grow p]
  exact (Heap.load_append ..).symm ▸ gridded

/-- When `r` has listed less than was read, the cell that it writes is not one that `d` is still to
be read from. -/
theorem Merging.reads_append {k o i p o' i' : Nat} {h : Objects α}
    (merging : Merging base start step.toNat ds rs r d home window k m o i)
    (later : o ≤ o') (less : (m.items.cell r).data.length < o' + i') (within : i' ≤ rs.length) :
    ∀ j x, o' ≤ j → ds[j]? = some x →
      ({ m with points := h }.appendData r grow p).arrays.cell window.array (window.offset + j) =
        some x := by
  intro j x ge listed
  have lt : j < ds.length := (List.getElem?_eq_some_iff.mp listed).1
  have stored : ds ≠ [] := List.ne_nil_of_length_pos (by omega)
  have placed := m.placed d
  rw [(merging.header stored).2] at placed
  refine (Slice.append_cell placed ?_).trans (merging.reads j x (later.trans ge) listed)
  rcases merging.room stored with moved | ⟨offset, before | after⟩
  · exact .inl moved.symm
  · exact .inr (by dsimp only; omega)
  · exact .inr (by dsimp only; omega)

theorem Merging.room_append {k o i p : Nat} {h : Objects α}
    (merging : Merging base start step.toNat ds rs r d home window k m o i) (stored : ds ≠ []) :
    (({ m with points := h }.appendData r grow p).items.cell r).data.array ≠ window.array ∨
      (({ m with points := h }.appendData r grow p).items.cell r).data.offset = home ∧
        (home + rs.length ≤ window.offset ∨ window.offset + ds.length ≤ home) := by
  rw [appendData_data { m with points := h } (i := r) grow p]
  rcases @Slice.append_array _ m.arrays (m.items.cell r).data _ grow (some p) with
    ⟨array, offset⟩ | moved
  · rw [array, offset]
    exact merging.room stored
  · have placed := m.placed d
    rw [(merging.header stored).2] at placed
    rw [moved]
    exact .inl (Nat.ne_of_gt placed)

/-- A slot with points has them merged in the first of them, which `r` lists from then on. -/
theorem Merging.append {k o i p : Nat} {t : BitVec 32} {h : Objects α}
    (merging : Merging base start step.toNat ds rs r d home window k m o i)
    (nodup : (ds ++ rs).Nodup) (mem : p ∈ m.slotPts t ds rs o i)
    (others : ∀ x, x ≠ p → h.cell x = m.points.cell x)
    (merged : MergedFrom ((m.slotPts t ds rs o i).map m.points.cell) (h.cell p))
    (swept : Swept base start step.toNat ds rs k m t o i) :
    Merging base start step.toNat ds rs r d home window (k + 1)
      ({ m with points := h }.appendData r grow p) (m.cursorAfter t ds o)
      (m.cursorAfter t rs i) := by
  have ne {x : Nat} (left : x ∈ ds.drop (m.cursorAfter t ds o) ++ rs.drop (m.cursorAfter t rs i)) :
      x ≠ p := fun same => not_mem_slotPts nodup left (same ▸ mem)
  have within := cursorAfter_le (m := m) (t := t) merging.within
  -- the slot has a point, so with it `r` lists no more than was read
  have less : (m.items.cell r).data.length < m.cursorAfter t ds o + m.cursorAfter t rs i := by
    have filled : 0 < (m.slotPts t ds rs o i).length := List.length_pos_of_mem mem
    have short := merging.short
    rw [slotPts, List.length_append] at filled
    rw [cursorAfter, cursorAfter]
    omega
  refine ⟨swept.leftD, swept.leftR, fun x left => ?_, fun x left => ?_,
    merging.gridded_append mem others merged swept, fun stored => ?_,
    merging.reads_append (Nat.le_add_right ..) less within, merging.room_append, ?_, within⟩
  · exact (others x (ne left)).trans (merging.kept x (mem_left_of_mem_after left))
  · rw [pointers_appendData { m with points := h } (i := r) grow p, List.mem_append,
      List.mem_singleton, Option.some.injEq]
    exact not_or.mpr ⟨merging.fresh x (mem_left_of_mem_after left), ne left⟩
  · obtain ⟨apart, same⟩ := merging.header stored
    refine ⟨apart, ?_⟩
    rw [appendData_of_ne _ apart]
    exact same
  · rw [appendData_data { m with points := h } (i := r) grow p, Slice.length_append]
    exact less

variable {dOn rOn : Bool} (sorts : SortsPointers sort) (pos : 0 < step.toNat)
  (nodup : (ds ++ rs).Nodup)
  (sortedD : (ds.map base.cell).Pairwise fun p q => p.time.toNat ≤ q.time.toNat)
  (sortedR : (rs.map base.cell).Pairwise fun p q => p.time.toNat ≤ q.time.toNat)
  (length : window.length = ds.length) (onD : dOn = false → ds = []) (onR : rOn = false → rs = [])

include sorts pos nodup sortedD sortedR length onD onR

theorem resampleLoop_pass (grow : Nat → Nat) {k o i : Nat} {t : BitVec 32}
    (now : t.toNat = start + step.toNat * k) (here : t ≤ endTime)
    (merging : Merging base start step.toNat ds rs r d home window k m o i) :
    ∃ m' o' i', (∀ fuel, resampleLoop sort grow step endTime dOn rOn r d ds.length (fuel + 1) t m o
        ((rs.drop i).map some) = resampleLoop sort grow step endTime dOn rOn r d ds.length fuel
          (t + step) m' o' ((rs.drop i').map some)) ∧
      Merging base start step.toNat ds rs r d home window (k + 1) m' o' i' := by
  have reads : ∀ j x, o ≤ j → ds[j]? = some x →
      (m.items.cell d).data.get m.arrays j = some (some x) := by
    intro j x ge listed
    have lt : j < ds.length := (List.getElem?_eq_some_iff.mp listed).1
    have stored : ds ≠ [] := List.ne_nil_of_length_pos (by omega)
    rw [(merging.header stored).2, Slice.get, if_pos (by omega), merging.reads j x ge listed]
  -- a list that is left out is empty, so it might as well be swept
  have fromD : (if dOn then m.collectStored d t (ds.length - o) o [] else .ok (o, [])) =
      .ok (m.cursorAfter t ds o, (ds.drop o).takeWhile (m.passed t)) := by
    cases on : dOn with
    | true => exact m.collectStored_eq t reads rfl []
    | false => simp [onD on, cursorAfter]
  have fromR : (if rOn then m.collectCopied t ((ds.drop o).takeWhile (m.passed t))
        ((rs.drop i).map some) else ((ds.drop o).takeWhile (m.passed t), (rs.drop i).map some)) =
      (m.slotPts t ds rs o i, (rs.drop (m.cursorAfter t rs i)).map some) := by
    cases on : rOn with
    | true =>
      rw [if_pos rfl, collectCopied_eq, drop_cursorAfter]
      rfl
    | false => simp [onR on, slotPts]
  have pass (fuel : Nat) : resampleLoop sort grow step endTime dOn rOn r d ds.length (fuel + 1) t m
      o ((rs.drop i).map some) = resampleLoop sort grow step endTime dOn rOn r d ds.length fuel
        (t + step) (m.emit r sort grow (m.slotPts t ds rs o i)) (m.cursorAfter t ds o)
        ((rs.drop (m.cursorAfter t rs i)).map some) := by
    rw [resampleLoop, if_pos here, fromD]
    dsimp only
    rw [fromR]
  have swept := merging.swept pos now sortedD sortedR
  refine ⟨_, _, _, pass, ?_⟩
  rcases mergePts_cases sorts m.points (nodup_slotPts (m := m) (t := t) nodup) with
    ⟨none, emitted⟩ | ⟨p, h, emitted, mem, others, merged⟩
  · rw [emit, emitted]
    exact merging.skip none swept
  · rw [emit, emitted]
    exact merging.append nodup mem others merged swept

theorem resampleLoop_run (grow : Nat → Nat) {n : Nat}
    (last : start + step.toNat * n ≤ endTime.toNat)
    (past : endTime.toNat < start + step.toNat * (n + 1))
    (fits : start + step.toNat * (n + 1) < 2 ^ 32) {slots k o i : Nat} {t : BitVec 32}
    (until_end : k + slots = n + 1) (now : t.toNat = start + step.toNat * k)
    (merging : Merging base start step.toNat ds rs r d home window k m o i) :
    ∃ m', (∀ fuel, slots < fuel → resampleLoop sort grow step endTime dOn rOn r d ds.length fuel t
        m o ((rs.drop i).map some) = some (.ok m')) ∧
      Gridded start step.toNat (ds.map base.cell ++ rs.map base.cell) (n + 1) (m'.data r) := by
  induction slots generalizing k o i t m with
  | zero =>
    obtain rfl : k = n + 1 := by omega
    have past : ¬ t ≤ endTime := BitVec.not_le.mpr (show endTime.toNat < t.toNat by omega)
    refine ⟨m, ?_, merging.gridded⟩
    rintro (_ | fuel) enough
    · omega
    · rw [resampleLoop, if_neg past]
  | succ slots ih =>
    have reached := Nat.mul_le_mul_left step.toNat (show k ≤ n by omega)
    have here : t ≤ endTime := show t.toNat ≤ endTime.toNat by omega
    have next := toNat_next now (show k ≤ n by omega) fits
    obtain ⟨_, _, _, pass, merging⟩ := resampleLoop_pass sorts pos nodup sortedD sortedR length onD
      onR grow now here merging
    obtain ⟨m', run, gridded⟩ := ih (by omega) next merging
    refine ⟨m', ?_, gridded⟩
    rintro (_ | fuel) enough
    · omega
    · rw [pass, run fuel (by omega)]

end Sweep

/-! ### What a merge comes to -/

/-- Proper points in their interval, and a step with which the end of the grid, as it is computed,
and one more step are below `2 ^ 32`. -/
structure Admitted (m : Memory α) (r d : Nat) (step : BitVec 32) : Prop where
  nonNil : ∀ p ∈ m.pointers r ++ m.pointers d, p ≠ none
  solid : ∀ p ∈ m.data r ++ m.data d, p.Solid
  timed : ∀ p ∈ m.data r ++ m.data d, 1 ≤ p.time.toNat ∧
    p.time.toNat ≤ max (m.items.cell r).realEnd.toNat (m.items.cell d).realEnd.toNat
  ordered : min (m.items.cell r).realStart.toNat (m.items.cell d).realStart.toNat ≤
    max (m.items.cell r).realEnd.toNat (m.items.cell d).realEnd.toNat
  step_pos : 1 ≤ step.toNat
  fits : (gridEnd (m.unionEnd r d) step).toNat + step.toNat < 2 ^ 32

/-- What the caller has to see to besides: no point is listed twice, the slices do not overlap and
the end of the grid does not wrap around. -/
structure Sweepable (m : Memory α) (r d : Nat) (step : BitVec 32) : Prop
    extends Admitted m r d step where
  distinct : (m.pointers r ++ m.pointers d).Nodup
  apart : (m.items.cell r).data.Apart (m.items.cell d).data
  unwrapped : roundUp step.toNat
    (max (m.items.cell r).realEnd.toNat (m.items.cell d).realEnd.toNat) < 2 ^ 32

/-- And, for the counts, that their total fits `int64`. -/
structure Mergeable (m : Memory α) (r d : Nat) (step : BitVec 32) : Prop
    extends Sweepable m r d step where
  counted : totalCount (m.data r ++ m.data d) < 2 ^ 63

section Start

variable {sort : PointerSort α}
  {m : Memory α} {r d : Nat}

omit [AddCommSemigroup α] [LinearOrder α]

/-- Two sorted items with their pointers as addresses. -/
theorem exists_sorted (sorts : SortsPointers sort)
    (nonNil : ∀ p ∈ m.pointers r ++ m.pointers d, p ≠ none)
    (apart : (m.items.cell r).data.Apart (m.items.cell d).data) :
    ∃ ds rs : List Nat, (m.inOrder sort r d).pointers d = ds.map some ∧
      (m.inOrder sort r d).pointers r = rs.map some ∧
      (ds.map some).Perm (m.pointers d) ∧ (rs.map some).Perm (m.pointers r) ∧
      ((ds.map m.points.cell).Pairwise fun p q => p.time.toNat ≤ q.time.toNat) ∧
      (rs.map m.points.cell).Pairwise fun p q => p.time.toNat ≤ q.time.toNat := by
  have nonNilR : ∀ p ∈ m.pointers r, p ≠ none := fun p mem => nonNil p (List.mem_append_left _ mem)
  have nonNilD : ∀ p ∈ m.pointers d, p ≠ none := fun p mem => nonNil p (List.mem_append_right _ mem)
  have listD : (m.inOrder sort r d).pointers d = sort m.points (m.pointers d) := by
    rw [inOrder, pointers_ordered sorts, pointers_ordered_of_apart sorts apart]
    rfl
  have listR : (m.inOrder sort r d).pointers r = sort m.points (m.pointers r) :=
    (pointers_ordered_of_apart (m := m.ordered r sort) sorts apart.symm).trans
      (pointers_ordered sorts)
  have permD := sorts.perm m.points (m.pointers d)
  have permR := sorts.perm m.points (m.pointers r)
  obtain ⟨ds, sameD⟩ := Heap.exists_map_some fun p mem => nonNilD p (permD.subset mem)
  obtain ⟨rs, sameR⟩ := Heap.exists_map_some fun p mem => nonNilR p (permR.subset mem)
  have sortedD := sorts.sorted m.points _ nonNilD
  have sortedR := sorts.sorted m.points _ nonNilR
  rw [sameD, Heap.load_map_some] at sortedD
  rw [sameR, Heap.load_map_some] at sortedR
  exact ⟨ds, rs, listD.trans sameD, listR.trans sameR, sameD ▸ permD, sameR ▸ permR, sortedD,
    sortedR⟩

end Start

section Merge

variable {sort : PointerSort α}
  {m : Memory α} {r d : Nat} {step : BitVec 32}

/-- When `r` is cut to nothing, the sweep can begin. -/
theorem merging_start {ds rs : List Nat} (start : Nat)
    (apart : (m.items.cell r).data.Apart (m.items.cell d).data)
    (listD : m.pointers d = ds.map some) (listR : m.pointers r = rs.map some) :
    Merging m.points start step.toNat ds rs r d (m.items.cell r).data.offset
      (m.items.cell d).data 0 (m.clearData r) 0 0 := by
  have lengthD : (m.items.cell d).data.length = ds.length := by
    simpa [pointers] using congrArg List.length listD
  have lengthR : (m.items.cell r).data.length = rs.length := by
    simpa [pointers] using congrArg List.length listR
  have empty := m.pointers_clearData (i := r)
  refine ⟨by simp, by simp, fun x _ => rfl, ?_, ?_, ?_, ?_, ?_, ?_, Nat.zero_le _⟩
  · intro x _
    rw [empty]
    exact List.not_mem_nil
  · rw [Memory.data, empty]
    exact .nil
  · intro stored
    have ne : d ≠ r := by
      rintro rfl
      have := List.length_pos_of_ne_nil stored
      obtain ne | before | after := apart
      · exact ne rfl
      · omega
      · omega
    exact ⟨ne, by rw [clearData, setData_of_ne _ _ _ ne]⟩
  · intro j x _ listed
    have read : (m.items.cell d).data.get m.arrays j = (m.pointers d)[j]? := Slice.get_eq ..
    have lt : j < ds.length := (List.getElem?_eq_some_iff.mp listed).1
    rw [listD, List.getElem?_map, listed, Slice.get, if_pos (by omega)] at read
    exact Option.some.inj read
  · intro _
    rw [clearData, setData_self]
    obtain ne | before | after := apart
    · exact .inl ne
    · exact .inr ⟨rfl, .inl (by omega)⟩
    · exact .inr ⟨rfl, .inr (by omega)⟩
  · rw [clearData, setData_self]
    exact Nat.zero_le _

/-- The number of steps from the start to the end of the grid. -/
def mergeSteps (m : Memory α) (r d : Nat) (step : BitVec 32) : Nat :=
  ((gridEnd (m.unionEnd r d) step).toNat - (gridStart (m.unionStart r d) step).toNat) / step.toNat

section Grid

omit [AddCommSemigroup α] [LinearOrder α]

theorem Sweepable.end_eq (ok : Sweepable m r d step) (some : 1 ≤ (m.unionEnd r d).toNat) :
    (gridEnd (m.unionEnd r d) step).toNat = roundUp step.toNat (m.unionEnd r d).toNat :=
  gridEnd_toNat ok.step_pos some (by rw [toNat_unionEnd]; exact ok.unwrapped)

theorem Sweepable.start_eq (ok : Sweepable m r d step) :
    (gridStart (m.unionStart r d) step).toNat = roundUp step.toNat (m.unionStart r d).toNat := by
  refine gridStart_toNat ok.step_pos (lt_of_le_of_lt ?_ ok.unwrapped)
  rw [toNat_unionStart]
  exact roundUp_mono ok.step_pos ok.ordered

theorem grid_facts (ok : Sweepable m r d step) :
    (gridStart (m.unionStart r d) step).toNat + step.toNat * m.mergeSteps r d step ≤
      (gridEnd (m.unionEnd r d) step).toNat ∧
    (gridEnd (m.unionEnd r d) step).toNat <
      (gridStart (m.unionStart r d) step).toNat + step.toNat * (m.mergeSteps r d step + 1) ∧
    (gridStart (m.unionStart r d) step).toNat + step.toNat * (m.mergeSteps r d step + 1) < 2 ^ 32 ∧
    ∀ p ∈ m.data r ++ m.data d,
      p.bin (gridStart (m.unionStart r d) step).toNat step.toNat ≤ m.mergeSteps r d step := by
  have pos := ok.step_pos
  have ordered := ok.ordered
  have fits := ok.fits
  have timed := ok.timed
  rw [← toNat_unionStart, ← toNat_unionEnd] at ordered
  rw [← toNat_unionEnd] at timed
  have start := ok.start_eq
  rcases Nat.eq_zero_or_pos (m.unionEnd r d).toNat with none | some
  · -- nothing can be timed, and the grid is the time zero
    rw [roundUp_eq pos (Nat.dvd_zero _) (by omega) (by omega)] at start
    have past : (gridEnd (m.unionEnd r d) step).toNat < step.toNat := by
      rw [show m.unionEnd r d = 0#32 from BitVec.eq_of_toNat_eq none]
      exact gridEnd_zero_lt pos
    have steps : m.mergeSteps r d step = 0 := by
      rw [mergeSteps, start]
      exact Nat.div_eq_of_lt (by omega)
    have := step.isLt
    refine ⟨by rw [start, steps]; omega, by rw [start, steps]; omega,
      by rw [start, steps]; omega, ?_⟩
    intro p mem
    have := timed p mem
    omega
  · have below := roundUp_mono pos ordered
    have last := ok.end_eq some
    have whole : (gridStart (m.unionStart r d) step).toNat + step.toNat * m.mergeSteps r d step =
        (gridEnd (m.unionEnd r d) step).toNat := by
      refine add_mul_div_of_dvd ?_ ?_ ?_
      · omega
      · exact start ▸ dvd_roundUp _ _
      · exact last ▸ dvd_roundUp _ _
    refine ⟨whole.le, by rw [Nat.mul_add]; omega, by rw [Nat.mul_add]; omega, ?_⟩
    intro p mem
    rw [RawDataPoint.bin, slot_le_iff pos, whole, last]
    exact (timed p mem).2.trans (le_roundUp pos _)

end Grid

/-- The times of an item after a merge. -/
structure Merged (m : Memory α) (r d : Nat) (step : BitVec 32) (m' : Memory α) : Prop where
  start : (m'.items.cell r).start = gridStart (m.unionStart r d) step
  «end» : (m'.items.cell r).end = gridEnd (m.unionEnd r d) step
  realStart : (m'.items.cell r).realStart = (m'.items.cell r).start
  realEnd : (m'.items.cell r).realEnd = (m'.items.cell r).end
  step : (m'.items.cell r).step = step

omit [AddCommSemigroup α] [LinearOrder α] in
theorem merged_finish (m out : Memory α) (r d : Nat) (step : BitVec 32) :
    Merged m r d step (out.finish r d (gridStart (m.unionStart r d) step)
      (gridEnd (m.unionEnd r d) step) step) := by
  constructor <;> simp [finish]

theorem mergeWithResample_gridded (sorts : SortsPointers sort) (grow : Nat → Nat)
    (ok : Sweepable m r d step) :
    ∃ m', (∀ fuel, 2 ^ 32 ≤ fuel → m.mergeWithResample sort grow fuel r d step = some (.ok m')) ∧
      Merged m r d step m' ∧
      Gridded (gridStart (m.unionStart r d) step).toNat step.toNat (m.data r ++ m.data d)
        (m.mergeSteps r d step + 1) (m'.data r) := by
  have pos := ok.step_pos
  obtain ⟨last, past, fits, -⟩ := grid_facts ok
  obtain ⟨ds, rs, listD, listR, permD, permR, sortedD, sortedR⟩ :=
    exists_sorted sorts ok.nonNil ok.apart
  obtain ⟨dEndTime, rEndTime, readD, readR, call⟩ := mergeWithResample_eq sorts pos ok.nonNil
  have length : (m.items.cell d).data.length = ds.length := by
    simpa [pointers, inOrder_items] using congrArg List.length listD
  have dataD : (ds.map m.points.cell).Perm (m.data d) := by
    rw [← Heap.load_map_some]
    exact m.points.load_perm permD
  have dataR : (rs.map m.points.cell).Perm (m.data r) := by
    rw [← Heap.load_map_some]
    exact m.points.load_perm permR
  have nodup : (ds ++ rs).Nodup := by
    refine List.Nodup.of_map some ?_
    rw [List.map_append]
    exact ((permD.append permR).trans List.perm_append_comm).nodup_iff.mpr ok.distinct
  have timedD : ∀ p ∈ (m.inOrder sort r d).data d, 1 ≤ p.time.toNat := by
    rw [data, listD, inOrder_points, Heap.load_map_some]
    exact fun p mem => (ok.timed p (List.mem_append_right _ (dataD.subset mem))).1
  have timedR : ∀ p ∈ (m.inOrder sort r d).data r, 1 ≤ p.time.toNat := by
    rw [data, listR, inOrder_points, Heap.load_map_some]
    exact fun p mem => (ok.timed p (List.mem_append_left _ (dataR.subset mem))).1
  obtain ⟨out, run, gridded⟩ := resampleLoop_run sorts pos nodup sortedD sortedR
    length (empty_of_off listD timedD readD) (empty_of_off listR timedR readR) grow last past fits
    (Nat.zero_add _) rfl (merging_start (m := m.inOrder sort r d) _ ok.apart listD listR)
  refine ⟨_, fun fuel enough => ?_, merged_finish m out r d step, ?_⟩
  · have steps : m.mergeSteps r d step + 1 < fuel := by
      have := Nat.mul_le_mul_right (m.mergeSteps r d step + 1) pos
      omega
    have done := run fuel steps
    rw [List.drop_zero, ← listR, ← length, inOrder_items] at done
    rw [call, done]
    rfl
  · rw [data_finish]
    exact gridded.perm ((dataD.append dataR).trans List.perm_append_comm)

variable (sort) in
/-- Without points the loop goes to the end of the grid, wherever it starts. -/
theorem resampleLoop_empty (grow : Nat → Nat) {endTime : BitVec 32} (pos : 0 < step.toNat)
    (fits : endTime.toNat + step.toNat < 2 ^ 32) {dOn rOn : Bool} {fuel : Nat} {t : BitVec 32}
    (enough : endTime.toNat + 1 - t.toNat < fuel) :
    resampleLoop sort grow step endTime dOn rOn r d 0 fuel t m 0 [] = some (.ok m) := by
  induction fuel generalizing t with
  | zero => omega
  | succ fuel ih =>
    by_cases here : t ≤ endTime
    · have le : t.toNat ≤ endTime.toNat := here
      have next := BitVec.toNat_add_of_lt (x := t) (y := step) (by omega)
      have nothing : (if dOn then m.collectStored d t (0 - 0) 0 [] else .ok (0, [])) =
          .ok (0, []) := by
        cases dOn <;> rfl
      rw [resampleLoop, if_pos here, nothing]
      simp only [collectCopied, ite_self, emit, mergePts]
      exact ih (by omega)
    · rw [resampleLoop, if_neg here]

/-- Without points there is nothing to merge, and the call still ends. -/
theorem mergeWithResample_empty (sorts : SortsPointers sort) (grow : Nat → Nat)
    (pos : 1 ≤ step.toNat) (fits : (gridEnd (m.unionEnd r d) step).toNat + step.toNat < 2 ^ 32)
    (emptyR : m.pointers r = []) (emptyD : m.pointers d = []) :
    ∃ m', (∀ fuel, 2 ^ 32 ≤ fuel → m.mergeWithResample sort grow fuel r d step = some (.ok m')) ∧
      m'.data r = [] := by
  have lengthR : (m.items.cell r).data.length = 0 := by
    simpa [pointers] using congrArg List.length emptyR
  have lengthD : (m.items.cell d).data.length = 0 := by
    simpa [pointers] using congrArg List.length emptyD
  obtain ⟨_, _, -, -, call⟩ := mergeWithResample_eq (m := m) (r := r) (d := d) sorts pos
    (by simp [emptyR, emptyD])
  have list : (m.inOrder sort r d).pointers r = [] := by
    rw [← List.length_eq_zero_iff, pointers, Slice.length_contents, inOrder_items, lengthR]
  refine ⟨((m.inOrder sort r d).clearData r).finish r d (gridStart (m.unionStart r d) step)
    (gridEnd (m.unionEnd r d) step) step, fun fuel enough => ?_, ?_⟩
  · rw [call, lengthD, list, resampleLoop_empty sort grow pos fits (by omega)]
    rfl
  · rw [data_finish, data, pointers_clearData]
    rfl

omit [AddCommSemigroup α] [LinearOrder α] in
theorem Mergeable.symm (ok : Mergeable m r d step) : Mergeable m d r step := by
  have timed := ok.timed
  have ordered := ok.ordered
  have fits := ok.fits
  have unwrapped := ok.unwrapped
  rw [max_comm] at timed ordered unwrapped
  rw [min_comm] at ordered
  rw [← unionEnd_comm] at fits
  have swap {β : Type} {a b : List β} {x : β} (mem : x ∈ b ++ a) : x ∈ a ++ b :=
    List.perm_append_comm.subset mem
  have counted : totalCount (m.data d ++ m.data r) < 2 ^ 63 := by
    rw [totalCount_perm List.perm_append_comm]
    exact ok.counted
  exact
    { nonNil := fun p mem => ok.nonNil p (swap mem)
      solid := fun p mem => ok.solid p (swap mem)
      timed := fun p mem => timed p (swap mem)
      ordered := ordered
      step_pos := ok.step_pos
      fits := fits
      distinct := List.perm_append_comm.nodup_iff.mp ok.distinct
      apart := ok.apart.symm
      counted := counted
      unwrapped := unwrapped }

omit [AddCommSemigroup α] [LinearOrder α] in
theorem Mergeable.inRange (ok : Mergeable m r d step) :
    Tally.InRange Int64 (totalCount (m.data r ++ m.data d)) := by
  have nonneg := totalCount_nonneg fun p mem => (ok.solid p mem).counted
  exact ⟨by omega, ok.counted⟩

/-- With a sort that sorts, the merge ends with the points of both items resampled to the grid
from the first start to the last end, and the other way round it gives the same but for
`Last`. -/
theorem mergeWithResample_resampled (sorts : SortsPointers sort) (grow : Nat → Nat)
    (ok : Mergeable m r d step) :
    ∃ out swapped,
      (∀ fuel, 2 ^ 32 ≤ fuel → m.mergeWithResample sort grow fuel r d step = some (.ok out) ∧
        m.mergeWithResample sort grow fuel d r step = some (.ok swapped)) ∧
      Resampled (out.items.cell r).start.toNat (out.items.cell r).end.toNat step.toNat
        (m.data r ++ m.data d) (out.data r) ∧
      (out.items.cell r).start.toNat = roundUp step.toNat
        (min (m.items.cell r).realStart.toNat (m.items.cell d).realStart.toNat) ∧
      (1 ≤ max (m.items.cell r).realEnd.toNat (m.items.cell d).realEnd.toNat →
        (out.items.cell r).end.toNat = roundUp step.toNat
          (max (m.items.cell r).realEnd.toNat (m.items.cell d).realEnd.toNat)) ∧
      (out.items.cell r).realStart = (out.items.cell r).start ∧
      (out.items.cell r).realEnd = (out.items.cell r).end ∧ (out.items.cell r).step = step ∧
      (swapped.data d).map RawDataPoint.totals = (out.data r).map RawDataPoint.totals := by
  have pos := ok.step_pos
  obtain ⟨last, -, -, below⟩ := grid_facts ok.toSweepable
  obtain ⟨out, run, merged, gridded⟩ := mergeWithResample_gridded sorts grow ok.toSweepable
  obtain ⟨swapped, run', -, gridded'⟩ := mergeWithResample_gridded sorts grow ok.symm.toSweepable
  rw [mergeSteps, unionStart_comm, unionEnd_comm] at gridded'
  refine ⟨out, swapped, fun fuel enough => ⟨run fuel enough, run' fuel enough⟩, ?_, ?_, ?_,
    merged.realStart, merged.realEnd, merged.step, ?_⟩
  · rw [merged.start, merged.end]
    exact gridded.resampled pos ok.solid ok.inRange below last
  · rw [merged.start, ok.start_eq, toNat_unionStart]
  · intro some
    rw [← toNat_unionEnd] at some
    rw [merged.end, ok.end_eq some, toNat_unionEnd]
  · exact (gridded.totals_perm gridded' List.perm_append_comm ok.solid ok.inRange).symm

end Merge

/-! ### Items in one memory -/

/-- Two items over one backing array: points from 20 to 40 that may grow into those from 5 on. -/
def adjacent : Memory Int where
  points :=
    { cell
        | 0 => single 31 4
        | 1 => single 25 2
        | 2 => single 33 8
        | 3 => single 5 1
        | 4 => single 22 16
        | _ => single 25 32
      next := 6 }
  arrays := ⟨fun _ j => some j, 1⟩
  items :=
    { cell
        | 0 => ⟨20, 40, 20, 40, 1, ⟨0, 0, 3, 6, by decide⟩, [], [], false⟩
        | _ => ⟨5, 30, 5, 30, 1, .full 0 3 3, [], [], false⟩
      next := 2 }
  placed i := by rcases i with _ | i <;> exact Nat.zero_lt_one

theorem mergeWithResample_resampled_adjacent :
    Mergeable adjacent 0 1 10 ∧ ∃ out swapped,
      (∀ fuel, 2 ^ 32 ≤ fuel →
        adjacent.mergeWithResample pointersByTime id fuel 0 1 10 = some (.ok out) ∧
        adjacent.mergeWithResample pointersByTime id fuel 1 0 10 = some (.ok swapped)) ∧
      Resampled (out.items.cell 0).start.toNat (out.items.cell 0).end.toNat 10
        (adjacent.data 0 ++ adjacent.data 1) (out.data 0) ∧
      (out.items.cell 0).start.toNat = 10 ∧ (out.items.cell 0).end.toNat = 40 ∧
      (swapped.data 1).map RawDataPoint.totals = (out.data 0).map RawDataPoint.totals := by
  have ok : Mergeable adjacent 0 1 10 :=
    { nonNil := by decide
      solid := by decide
      timed := by decide
      ordered := by decide
      step_pos := by decide
      fits := by decide
      distinct := by decide
      apart := by decide
      counted := by decide
      unwrapped := by decide }
  obtain ⟨out, swapped, runs, resampled, start, stop, -, -, -, same⟩ :=
    mergeWithResample_resampled sortsPointers_pointersByTime id ok
  exact ⟨ok, out, swapped, runs, resampled, start, stop (by decide), same⟩

example : ((adjacent.mergeWithResample pointersByTime id 5 0 1 10).map fun result =>
    result.toOption.map (·.data 0)) = some (some [single 5 1,
      ⟨25, some 50, some 2, some 32, some 32, 3⟩, ⟨33, some 12, some 4, some 8, some 8, 2⟩]) := by
  decide

/-- Items over one range, each with its list of points in an array of its own. -/
def listing (points : Points Int) (lists : List (List Nat))
    (first last : BitVec 32) : Memory Int where
  points := ⟨fun i => points.getD i (single 0 0), points.length⟩
  arrays := ⟨fun a j => (lists.getD a [])[j]?, lists.length + 1⟩
  items :=
    { cell := fun i => ⟨first, last, first, last, 1, ⟨min i lists.length, 0,
        (lists.getD i []).length, (lists.getD i []).length, Nat.le_refl _⟩, [], [], false⟩
      next := lists.length }
  placed _ := Nat.lt_succ_of_le (Nat.min_le_right ..)

/-- One count of `2 ^ 62`. -/
def heavy (time : BitVec 32) : RawDataPoint Int64 Int :=
  ⟨time, some 1, some 1, some 1, some 1, 4611686018427387904⟩

/-- An item merged with itself panics, a point that is listed by both is merged into itself and
what it has by then counts twice, counts overflow, and an end of the grid that wraps around leaves
points out. -/
theorem mergeWithResample_not_conserved :
    (Admitted adjacent 0 0 10 ∧
      ∀ fuel, adjacent.mergeWithResample pointersByTime id (fuel + 1) 0 0 10 =
        some (.error .panic)) ∧
    (∃ m : Memory Int, Admitted m 0 1 10 ∧ ∃ out,
      m.mergeWithResample pointersByTime id 5 0 1 10 = some (.ok out) ∧
        totalCount (m.data 0 ++ m.data 1) = 3 ∧ totalCount (out.data 0) = 4) ∧
    (∃ m : Memory Int, Admitted m 0 1 10 ∧ ∃ out,
      m.mergeWithResample pointersByTime id 5 0 1 10 = some (.ok out) ∧
        totalCount (m.data 0 ++ m.data 1) = 3 * 2 ^ 62 ∧ totalCount (out.data 0) = -2 ^ 63) ∧
    ∃ m : Memory Int, Admitted m 0 1 10 ∧ ∃ out,
      m.mergeWithResample pointersByTime id 5 0 1 10 = some (.ok out) ∧
        totalCount (m.data 0 ++ m.data 1) = 2 ∧ out.data 0 = [] := by
  refine ⟨⟨?_, ?_⟩, ⟨listing [single 11 1, single 11 2] [[1, 0], [0]] 11 13, ?_, _, rfl, ?_, ?_⟩,
    ⟨listing [heavy 11, heavy 12, heavy 13] [[0, 1], [2]] 11 13, ?_, _, rfl, ?_, ?_⟩,
    ⟨listing [single 21 1, single 22 2] [[0], [1]] 20 4294967295, ?_, _, rfl, ?_, ?_⟩⟩
  · exact ⟨by decide, by decide, by decide, by decide, by decide, by decide⟩
  · intro fuel
    rfl
  · exact ⟨by decide, by decide, by decide, by decide, by decide, by decide⟩
  · decide
  · decide
  · exact ⟨by decide, by decide, by decide, by decide, by decide, by decide⟩
  · decide
  · decide
  · exact ⟨by decide, by decide, by decide, by decide, by decide, by decide⟩
  · decide
  · decide

end Memory

end Metrics
