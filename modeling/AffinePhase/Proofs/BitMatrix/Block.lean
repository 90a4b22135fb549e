import AffinePhase.Proofs.BitMatrix.Linear

/-!
# Block sums

The block sum of two matrices has the rows of the first, with zeros after them, and below these the
rows of the second, with zeros before them. Under the reading over the field with two elements this
is the block-diagonal matrix, with the rows and the columns of the two blocks numbered one after the
other, and so it is invertible exactly if both blocks are.

The block sum of a list places the rows of every matrix once, at its own offset. Since placing a
vector twice adds the offsets, this is the block sum of the first matrix and that of the others, and
what holds of two matrices passes to lists by induction.

## Main results

* `BitMatrix.HasShape.exists_placed`: the rows of one block, placed in wider rows.
* `BitMatrix.exists_blockSum?`: the block sum exists, with its entries.
* `BitMatrix.toMatrix_blockSum?`: the block sum is the block-diagonal matrix.
* `BitMatrix.isUnit_blockSum?`: invertibility block by block.
* `BitMatrix.blockSum?_cons`: the block sum of a list, matrix by matrix.
* `BitMatrix.exists_blockSum?_list`: the block sum of a list exists, with its shape.
-/

namespace AffinePhase.BitMatrix

variable {a b s : BitMatrix} {r c r' c' m n offset total : ℕ}

/-- **The rows of a block** can be placed in wider rows, and their entries move along. -/
theorem HasShape.exists_placed (h : a.HasShape r c) (hfits : offset + c ≤ total) :
    ∃ rows, a.rows.mapM (fun row => row.place? offset total) = some rows ∧
      HasShape ⟨total, rows⟩ r total ∧
      ∀ i j, entry ⟨total, rows⟩ i j = (decide (offset ≤ j) && a.entry i (j - offset)) := by
  obtain ⟨rows, hrows, hplaced⟩ := Result.mapM_of_forall (m := Option) (l := a.rows)
    (f := fun row => row.place? offset total)
    (P := fun row placed => row.place? offset total = some placed) fun row hrow => by
      have hlength : row.length = c := (h.rectangular row hrow).trans h.columns
      obtain ⟨placed, hplaced⟩ := BitVector.exists_place? (hlength.symm ▸ hfits)
      exact ⟨placed, hplaced, hplaced⟩
  refine ⟨rows, hrows, ⟨?_, rfl, fun placed hmem => ?_⟩, fun i j => ?_⟩
  · rw [← h.rowCount]
    exact hplaced.length_eq.symm
  · obtain ⟨i, hi, rfl⟩ := List.getElem_of_mem hmem
    have hplace := hplaced.get (hplaced.length_eq.symm ▸ hi) hi
    exact BitVector.length_of_place? hplace
  · rcases Nat.lt_or_ge i rows.length with hi | hi
    · have hi' : i < a.rows.length := hplaced.length_eq.symm ▸ hi
      have hplace := hplaced.get hi' hi
      rw [entry_eq_bit (m := ⟨total, rows⟩) (List.getElem?_eq_getElem hi),
        entry_eq_bit (List.getElem?_eq_getElem hi')]
      exact BitVector.bit_of_place? hplace j
    · have hi' : a.rows.length ≤ i := hplaced.length_eq.symm ▸ hi
      rw [entry, entry, List.getElem?_eq_none hi, List.getElem?_eq_none hi']
      exact (Bool.and_false _).symm

/-- The entries of rows written one below the other. -/
theorem entry_append (xs ys : List BitVector) (i j : ℕ) :
    entry ⟨total, xs ++ ys⟩ i j =
      if i < xs.length then entry ⟨total, xs⟩ i j else entry ⟨total, ys⟩ (i - xs.length) j := by
  split
  · rename_i hi
    rw [entry, entry, List.getElem?_append_left hi]
  · rename_i hi
    rw [entry, entry, List.getElem?_append_right (Nat.not_lt.mp hi)]

/-- **The block sum of two matrices** exists. -/
theorem exists_blockSum? (ha : a.HasShape r c) (hb : b.HasShape r' c') :
    ∃ s, blockSum? [a, b] = some s ∧ s.HasShape (r + r') (c + c') ∧
      ∀ i j, s.entry i j =
        if i < r then a.entry i j else decide (c ≤ j) && b.entry (i - r) (j - c) := by
  have hfirst : 0 + c ≤ c + c' := by omega
  have hsecond : c + c' ≤ c + c' := le_rfl
  obtain ⟨upper, hupper, hushape, huentry⟩ := ha.exists_placed hfirst
  obtain ⟨lower, hlower, hlshape, hlentry⟩ := hb.exists_placed hsecond
  have hrows : blockRows? (c + c') 0 [a, b] = some (upper ++ lower) := by
    simp only [blockRows?, hupper, Nat.zero_add, ha.columns, hlower]
    exact congrArg some (congrArg (upper ++ ·) (List.append_nil lower))
  refine ⟨⟨c + c', upper ++ lower⟩, ?_, ⟨?_, rfl, ?_⟩, fun i j => ?_⟩
  · have htotal : ([a, b].map columns).foldr (· + ·) 0 = c + c' := by
      simp [ha.columns, hb.columns]
    rw [blockSum?, htotal, hrows]
    rfl
  · rw [List.length_append, hushape.rowCount, hlshape.rowCount]
  · intro row hrow
    rcases List.mem_append.mp hrow with hrow | hrow
    · exact hushape.rectangular row hrow
    · exact hlshape.rectangular row hrow
  · have hlen : upper.length = r := hushape.rowCount
    rw [entry_append, hlen, huentry, hlentry, Nat.sub_zero, decide_eq_true (Nat.zero_le j),
      Bool.true_and]

/-- **The block sum is block diagonal**, with the two groups of indices one after the other. -/
theorem toMatrix_blockSum? (ha : a.HasShape r c) (hb : b.HasShape r' c')
    (hs : blockSum? [a, b] = some s) :
    s.toMatrix (r + r') (c + c') = Matrix.reindex finSumFinEquiv finSumFinEquiv
      (Matrix.fromBlocks (a.toMatrix r c) 0 0 (b.toMatrix r' c')) := by
  obtain ⟨-, hentry⟩ := Result.of_exists_some (exists_blockSum? ha hb) hs
  -- the indices of both sides are split into those of the two blocks
  refine (Matrix.reindex finSumFinEquiv finSumFinEquiv).symm.injective ?_
  rw [Equiv.symm_apply_apply]
  funext i j
  show bitValue (s.entry (finSumFinEquiv i : Fin (r + r')) (finSumFinEquiv j : Fin (c + c'))) = _
  rw [hentry]
  rcases i with i | i
  · rcases j with j | j
    · simp [toMatrix]
    · have hzero : a.entry i (c + j) = false := ha.entry_eq_false (Nat.le_add_right c j)
      simp [hzero]
  · rcases j with j | j
    · have hlt : ¬ c ≤ (j : ℕ) := j.isLt.not_ge
      simp [hlt]
    · simp [toMatrix]

/-- **A block sum is invertible** exactly if both blocks are. -/
theorem isUnit_blockSum? (ha : a.HasShape n n) (hb : b.HasShape m m)
    (hs : blockSum? [a, b] = some s) :
    IsUnit (s.toMatrix (n + m) (n + m)) ↔
      IsUnit (a.toMatrix n n) ∧ IsUnit (b.toMatrix m m) := by
  rw [toMatrix_blockSum? ha hb hs, Matrix.isUnit_iff_isUnit_det, Matrix.isUnit_iff_isUnit_det,
    Matrix.isUnit_iff_isUnit_det, Matrix.det_reindex_self, Matrix.det_fromBlocks_zero₂₁,
    IsUnit.mul_iff]

/-! ### Block sums of lists -/

/-- Placing the rows of placed blocks once more adds the offsets. -/
theorem blockRows?_shift (k : ℕ) {ms : List BitMatrix} {rows : List BitVector}
    (h : blockRows? total offset ms = some rows) :
    blockRows? (k + total) (k + offset) ms = rows.mapM fun row => row.place? k (k + total) := by
  induction ms generalizing offset rows with
  | nil =>
      obtain rfl := Option.some.inj h
      rfl
  | cons m ms ih =>
      obtain ⟨placed, hplaced, h⟩ := Option.bind_eq_some_iff.mp h
      obtain ⟨rest, hrest, h⟩ := Option.bind_eq_some_iff.mp h
      obtain rfl := Option.some.inj h
      have hfirst := Result.mapM_eq_mapM hplaced fun row u hu => BitVector.place?_place? k hu
      rw [blockRows?, List.mapM_append, hfirst, Nat.add_assoc, ih hrest]
      rfl

/-- The rows of a single block are placed one by one. -/
theorem blockRows?_singleton (total offset : ℕ) (m : BitMatrix) :
    blockRows? total offset [m] = m.rows.mapM fun row => row.place? offset total := by
  rw [blockRows?]
  cases m.rows.mapM fun row => row.place? offset total with
  | none => rfl
  | some placed => exact congrArg some (List.append_nil placed)

/-- The rows of a block depend on the blocks after it only through their rows. -/
theorem blockRows?_cons_congr {ms ms' : List BitMatrix}
    (h : blockRows? total (offset + a.columns) ms = blockRows? total (offset + a.columns) ms') :
    blockRows? total offset (a :: ms) = blockRows? total offset (a :: ms') := by
  rw [blockRows?, blockRows?, h]

/-- **A block sum of a list** is that of its first matrix and the block sum of the others. -/
theorem blockSum?_cons {ms : List BitMatrix} (h : blockSum? ms = some s) :
    blockSum? (a :: ms) = blockSum? [a, s] := by
  obtain ⟨rows, hrows, rfl⟩ := Option.map_eq_some_iff.mp h
  set total := (ms.map columns).foldr (· + ·) 0 with htotal
  have hrest : blockRows? (a.columns + total) (0 + a.columns) ms =
      blockRows? (a.columns + total) (0 + a.columns) [⟨total, rows⟩] := by
    rw [blockRows?_singleton, Nat.zero_add, ← blockRows?_shift a.columns hrows, Nat.add_zero]
  rw [blockSum?, blockSum?, List.map_cons, List.map_cons, List.map_singleton, List.foldr_cons,
    List.foldr_cons, List.foldr_cons, List.foldr_nil, Nat.add_zero, ← htotal]
  exact congrArg (Option.map _) (blockRows?_cons_congr hrest)

/-- **The block sum of a list** exists, and it has all rows and all columns of its matrices. -/
theorem exists_blockSum?_list {ms : List BitMatrix} (h : ∀ m ∈ ms, m.IsRectangular) :
    ∃ s, blockSum? ms = some s ∧ s.HasShape (ms.map rowCount).sum (ms.map columns).sum := by
  induction ms with
  | nil => exact ⟨_, rfl, rfl, rfl, List.forall_mem_nil _⟩
  | cons a ms ih =>
      obtain ⟨ha, hms⟩ := List.forall_mem_cons.mp h
      obtain ⟨s, hs, hshape⟩ := ih hms
      obtain ⟨t, ht, htshape, -⟩ := exists_blockSum? ha.hasShape hshape
      exact ⟨t, (blockSum?_cons hs).trans ht, by simpa [rowCount] using htshape⟩

end AffinePhase.BitMatrix
