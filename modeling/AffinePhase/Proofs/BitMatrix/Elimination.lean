import AffinePhase.BitMatrix.Elimination
import AffinePhase.Proofs.BitMatrix.Linear

/-!
# What a sweep over the columns achieves

One column of a sweep either finds no unused row with its bit set and changes nothing, or moves
such a row up and adds it into every other row whose bit is set. `Sweep.step?_cases` says this
once, row by row and bit by bit; everything else about the elimination is derived from it.

The invariant `Sweep.Reached` describes the state after the columns below a bound: the rows span
what they spanned at the start, each column of the profile is a unit column, and the rows without
a pivot vanish below the bound. At the end the matrix is in reduced echelon form, and a square
matrix is invertible exactly if every column has a pivot.

## Main results

* `Sweep.step?_cases`: what one column of the sweep does.
* `Sweep.Reached.exists_run?`: a sweep over a rectangular matrix does not fail and keeps the
  invariant.
* `BitMatrix.exists_isInvertible?`: the test for invertibility decides invertibility.
-/

namespace AffinePhase

/-! ### The row space -/

/-- The space spanned by some rows with `n` bits. -/
def rowSpace (n : ℕ) (rows : List BitVector) : Submodule (ZMod 2) (Fin n → ZMod 2) :=
  Submodule.span (ZMod 2) {x | ∃ row ∈ rows, row.toVec n = x}

/-- A row is in the row space. -/
theorem toVec_mem_rowSpace {n : ℕ} {rows : List BitVector} {i : ℕ} {row : BitVector}
    (h : rows[i]? = some row) : row.toVec n ∈ rowSpace n rows :=
  Submodule.subset_span ⟨row, List.mem_of_getElem? h, rfl⟩

/-- A space with all rows contains the row space. -/
theorem rowSpace_le {n : ℕ} {rows : List BitVector} {p : Submodule (ZMod 2) (Fin n → ZMod 2)}
    (h : ∀ (i : ℕ) (row : BitVector), rows[i]? = some row → row.toVec n ∈ p) :
    rowSpace n rows ≤ p := by
  refine Submodule.span_le.mpr ?_
  rintro _ ⟨row, hrow, rfl⟩
  obtain ⟨i, hi⟩ := List.mem_iff_getElem?.mp hrow
  exact h i row hi

/-- Adding multiples of a row into other rows does not change the row space, if that row stays. -/
theorem rowSpace_eq_of_multiples {n p : ℕ} {pivot : BitVector} {rows rows' : List BitVector}
    (hlength : rows'.length = rows.length) (hp : rows[p]? = some pivot)
    (hp' : rows'[p]? = some pivot)
    (hrow : ∀ (i : ℕ) (row row' : BitVector), rows[i]? = some row → rows'[i]? = some row' →
      ∃ k : ZMod 2, row'.toVec n = row.toVec n + k • pivot.toVec n) :
    rowSpace n rows' = rowSpace n rows := by
  refine le_antisymm (rowSpace_le fun i row' hi' => ?_) (rowSpace_le fun i row hi => ?_)
  · obtain ⟨row, hi⟩ : ∃ row, rows[i]? = some row :=
      ⟨_, List.getElem?_eq_getElem (hlength ▸ (List.getElem?_eq_some_iff.mp hi').1)⟩
    obtain ⟨k, hk⟩ := hrow i row row' hi hi'
    rw [hk]
    exact add_mem (toVec_mem_rowSpace hi) (Submodule.smul_mem _ k (toVec_mem_rowSpace hp))
  · obtain ⟨row', hi'⟩ : ∃ row', rows'[i]? = some row' :=
      ⟨_, List.getElem?_eq_getElem (hlength.symm ▸ (List.getElem?_eq_some_iff.mp hi).1)⟩
    obtain ⟨k, hk⟩ := hrow i row row' hi hi'
    rw [eq_sub_of_add_eq hk.symm]
    exact sub_mem (toVec_mem_rowSpace hi') (Submodule.smul_mem _ k (toVec_mem_rowSpace hp'))

/-- A vector is in the kernel of a matrix exactly if it is orthogonal to the row space. -/
theorem mulVec_eq_zero_iff {m : BitMatrix} {r c : ℕ} (h : m.HasShape r c) (x : Fin c → ZMod 2) :
    (m.toMatrix r c).mulVec x = 0 ↔ ∀ y ∈ rowSpace c m.rows, y ⬝ᵥ x = 0 := by
  have hrow : ∀ (i : Fin r) (row : BitVector), m.rows[(i : ℕ)]? = some row →
      (m.toMatrix r c).mulVec x i = row.toVec c ⬝ᵥ x := by
    intro i row hi
    refine congrArg (· ⬝ᵥ x) (funext fun j => ?_)
    rw [BitMatrix.toMatrix, BitMatrix.entry_eq_bit hi, BitVector.toVec]
  constructor
  · intro hx y hy
    induction hy using Submodule.span_induction with
    | mem y hy =>
        obtain ⟨row, hmem, rfl⟩ := hy
        obtain ⟨i, hi⟩ := List.mem_iff_getElem?.mp hmem
        have hir : i < r := h.rowCount ▸ (List.getElem?_eq_some_iff.mp hi).1
        rw [← hrow ⟨i, hir⟩ row hi, hx, Pi.zero_apply]
    | zero => exact zero_dotProduct x
    | add y z _ _ hy hz => rw [add_dotProduct, hy, hz, add_zero]
    | smul k y _ hy => rw [smul_dotProduct, hy, smul_zero]
  · intro hx
    funext i
    obtain ⟨row, hi⟩ := h.exists_row i.isLt
    rw [hrow i row hi, hx _ (toVec_mem_rowSpace hi), Pi.zero_apply]

namespace Sweep

variable {n column : ℕ} {rows : List BitVector} {state : Sweep}

/-! ### The parts of one step -/

/-- The search for a set bit finds none, or a row that has it. -/
theorem firstSet?_cases (hcolumn : column < n) (hwidth : ∀ row ∈ rows, row.length = n)
    (start : ℕ) :
    (firstSet? column rows start = some none ∧ ∀ row ∈ rows, row.bit column = false) ∨
      ∃ k row, firstSet? column rows start = some (some (start + k)) ∧ rows[k]? = some row ∧
        row.bit column = true := by
  induction rows generalizing start with
  | nil => exact .inl ⟨rfl, List.forall_mem_nil _⟩
  | cons row rows ih =>
      have hget : row.get? column = some (row.bit column) :=
        row.get?_eq_some (hwidth row List.mem_cons_self ▸ hcolumn)
      have htail : ∀ row' ∈ rows, row'.length = n :=
        fun row' h => hwidth row' (List.mem_cons_of_mem row h)
      cases hbit : row.bit column with
      | true => exact .inr ⟨0, row, by simp [firstSet?, hget, hbit], rfl, hbit⟩
      | false =>
          have hnext :
              firstSet? column (row :: rows) start = firstSet? column rows (start + 1) := by
            simp [firstSet?, hget, hbit]
          rw [hnext]
          rcases ih htail (start + 1) with ⟨hnone, hall⟩ | ⟨k, found, hsome, hk, hfound⟩
          · refine .inl ⟨hnone, fun row' h => ?_⟩
            rcases List.mem_cons.mp h with rfl | h
            · exact hbit
            · exact hall row' h
          · refine .inr ⟨k + 1, found, ?_, hk, hfound⟩
            rw [hsome, Nat.add_assoc, Nat.add_comm 1 k]

/-- Exchanging two rows that exist permutes the row indices. -/
theorem exists_exchange? {i j : ℕ} (hi : i < rows.length) (hj : j < rows.length) :
    ∃ swapped, BitMatrix.exchange? rows i j = some swapped ∧ swapped.length = rows.length ∧
      ∀ t : ℕ, swapped[t]? = rows[Equiv.swap i j t]? := by
  refine ⟨(rows.set i rows[j]).set j rows[i], ?_, by simp, fun t => ?_⟩
  · simp [BitMatrix.exchange?, List.getElem?_eq_getElem hi, List.getElem?_eq_getElem hj]
  · rw [List.getElem?_set, List.getElem?_set, List.length_set, Equiv.swap_apply_def]
    by_cases htj : j = t
    · subst htj
      by_cases hij : j = i
      · subst hij
        simp [hj]
      · simp [hj, hij, List.getElem?_eq_getElem hi]
    · by_cases hti : i = t
      · subst hti
        simp [htj, hi, List.getElem?_eq_getElem hj]
      · rw [if_neg htj, if_neg hti, if_neg (Ne.symm hti), if_neg (Ne.symm htj)]

/-- Exchanging rows does not change the row space. -/
theorem rowSpace_exchange {i j : ℕ} {swapped : List BitVector}
    (h : ∀ t : ℕ, swapped[t]? = rows[Equiv.swap i j t]?) :
    rowSpace n swapped = rowSpace n rows := by
  refine le_antisymm (rowSpace_le fun t row ht => ?_) (rowSpace_le fun t row ht => ?_)
  · rw [h] at ht
    exact toVec_mem_rowSpace ht
  · refine toVec_mem_rowSpace (i := Equiv.swap i j t) ?_
    rw [h, Equiv.swap_apply_self, ht]

/-- Some rows after the pivot row at index `p` has been added into every other row whose bit of the
column is set. -/
structure IsCleared (rows : List BitVector) (n p column : ℕ) (pivot : BitVector)
    (cleared : List BitVector) : Prop where
  /-- No row is lost. -/
  count : cleared.length = rows.length
  /-- All rows have `n` bits. -/
  width : ∀ row ∈ cleared, row.length = n
  /-- The rows, bit by bit. -/
  bits : ∀ (i : ℕ) (row row' : BitVector), rows[i]? = some row → cleared[i]? = some row' →
    ∀ j, row'.bit j = (row.bit j ^^ (decide (i ≠ p) && row.bit column && pivot.bit j))

/-- One row while a column is cleared: the pivot row stays, and another row is added to if its bit
is set. -/
theorem exists_clearedRow {p i : ℕ} {pivot row : BitVector} (hcolumn : column < n)
    (hrow : row.length = n) (hpivot : pivot.length = n) :
    ∃ row', (if i = p then some row else clearBit? pivot column row) = some row' ∧
      row'.length = n ∧
      ∀ j, row'.bit j = (row.bit j ^^ (decide (i ≠ p) && row.bit column && pivot.bit j)) := by
  by_cases hip : i = p
  · exact ⟨row, if_pos hip, hrow, fun j => by simp [hip]⟩
  · have hget : row.get? column = some (row.bit column) := row.get?_eq_some (hrow ▸ hcolumn)
    rw [if_neg hip, clearBit?, hget]
    cases hbit : row.bit column with
    | false => exact ⟨row, rfl, hrow, fun j => by simp⟩
    | true =>
        obtain ⟨sum, hsum⟩ := BitVector.exists_xor? (hrow.trans hpivot.symm)
        refine ⟨sum, hsum, (BitVector.length_of_xor? hsum).trans hrow, fun j => ?_⟩
        rw [BitVector.bit_of_xor? hsum]
        simp [hip]

/-- A column of rows that all have its bit can be cleared. -/
theorem exists_clearColumn? {p : ℕ} {pivot : BitVector} (hcolumn : column < n)
    (hwidth : ∀ row ∈ rows, row.length = n) (hp : rows[p]? = some pivot) :
    ∃ cleared, clearColumn? rows p column = some cleared ∧
      IsCleared rows n p column pivot cleared := by
  have hpivot : pivot.length = n := hwidth pivot (List.mem_of_getElem? hp)
  obtain ⟨cleared, hmap, hall⟩ := Result.mapM_of_forall (m := Option) (l := rows.zipIdx)
    (f := fun t => if t.2 = p then some t.1 else clearBit? pivot column t.1) fun t ht =>
      exists_clearedRow hcolumn (hwidth t.1 (List.fst_mem_of_mem_zipIdx ht)) hpivot
  have hlength : cleared.length = rows.length := hall.length_eq.symm.trans List.length_zipIdx
  have hget : ∀ (i : ℕ) (row row' : BitVector), rows[i]? = some row → cleared[i]? = some row' →
      row'.length = n ∧
        ∀ j, row'.bit j = (row.bit j ^^ (decide (i ≠ p) && row.bit column && pivot.bit j)) := by
    intro i row row' hi hi'
    obtain ⟨hlt, rfl⟩ := List.getElem?_eq_some_iff.mp hi
    obtain ⟨hlt', rfl⟩ := List.getElem?_eq_some_iff.mp hi'
    have hP := (List.forall₂_iff_get.mp hall).2 i (by rwa [List.length_zipIdx]) hlt'
    simpa only [List.get_eq_getElem, List.getElem_zipIdx, Nat.zero_add] using hP
  refine ⟨cleared, ?_, hlength, fun row' hrow' => ?_,
    fun i row row' hi hi' => (hget i row row' hi hi').2⟩
  · rw [clearColumn?, hp]
    exact hmap
  · obtain ⟨i, hi'⟩ := List.mem_iff_getElem?.mp hrow'
    have hlt : i < rows.length := hlength ▸ (List.getElem?_eq_some_iff.mp hi').1
    exact (hget i _ row' (List.getElem?_eq_getElem hlt) hi').1

section Cleared

variable {p i : ℕ} {pivot row row' : BitVector} {cleared : List BitVector}

/-- Every cleared row comes from a row. -/
theorem IsCleared.exists_old (h : IsCleared rows n p column pivot cleared)
    (hi : cleared[i]? = some row') : ∃ row, rows[i]? = some row :=
  ⟨_, List.getElem?_eq_getElem (h.count ▸ (List.getElem?_eq_some_iff.mp hi).1)⟩

/-- Every row is cleared to a row. -/
theorem IsCleared.exists_new (h : IsCleared rows n p column pivot cleared)
    (hi : rows[i]? = some row) : ∃ row', cleared[i]? = some row' :=
  ⟨_, List.getElem?_eq_getElem (h.count.symm ▸ (List.getElem?_eq_some_iff.mp hi).1)⟩

/-- The pivot row stays. -/
theorem IsCleared.getElem?_pivot (h : IsCleared rows n p column pivot cleared)
    (hp : rows[p]? = some pivot) (hwidth : pivot.length = n) : cleared[p]? = some pivot := by
  obtain ⟨row', hrow'⟩ := h.exists_new hp
  rw [hrow']
  refine congrArg some (BitVector.ext_bits ?_ fun j _ => ?_)
  · exact (h.width row' (List.mem_of_getElem? hrow')).trans hwidth.symm
  · rw [h.bits p pivot row' hp hrow']
    simp

/-- A cleared row has the pivot row added if it had the bit set and is another row. -/
theorem IsCleared.toVec_eq (h : IsCleared rows n p column pivot cleared)
    (hi : rows[i]? = some row) (hi' : cleared[i]? = some row') :
    row'.toVec n = row.toVec n + bitValue (decide (i ≠ p) && row.bit column) • pivot.toVec n := by
  funext j
  rw [Pi.add_apply, Pi.smul_apply, BitVector.toVec, h.bits i row row' hi hi', bitValue_xor,
    bitValue_and]
  rfl

/-- Clearing a column does not change the row space. -/
theorem IsCleared.rowSpace_eq (h : IsCleared rows n p column pivot cleared)
    (hp : rows[p]? = some pivot) (hwidth : pivot.length = n) :
    rowSpace n cleared = rowSpace n rows :=
  rowSpace_eq_of_multiples h.count hp (h.getElem?_pivot hp hwidth)
    fun _ _ _ hi hi' => ⟨_, h.toVec_eq hi hi'⟩

end Cleared

/-! ### One step -/

/-- Row `i` after a step that places a pivot row at index `p`: its bit of the column is cleared
unless it is the pivot row, and it comes from an old row, which is the row with the same index if
that has a pivot and otherwise a row without one. -/
structure StepRow (rows : List BitVector) (p column i : ℕ) (pivot row : BitVector) : Prop where
  /-- The bit of the column is set in the pivot row only. -/
  unit : row.bit column = decide (i = p)
  /-- The row comes from an old one. -/
  origin : ∃ (i' : ℕ) (old : BitVector), rows[i']? = some old ∧
    (i < p → i' = i) ∧ (p ≤ i → p ≤ i') ∧
    ∀ j, row.bit j = (old.bit j ^^ (decide (i ≠ p) && old.bit column && pivot.bit j))

/-- The rows after a step that makes `pivot` the pivot row of the column. -/
structure PlacesPivot (state : Sweep) (n column : ℕ) (rows' : List BitVector) (pivot : BitVector) :
    Prop where
  /-- No row is lost. -/
  count : rows'.length = state.rows.length
  /-- All rows have `n` bits. -/
  width : ∀ row ∈ rows', row.length = n
  /-- The row space stays. -/
  space : rowSpace n rows' = rowSpace n state.rows
  /-- The pivot row is the first row that had no pivot. -/
  source : rows'[state.profile.length]? = some pivot
  /-- The rows, one by one. -/
  row : ∀ (i : ℕ) (row : BitVector), rows'[i]? = some row →
    StepRow state.rows state.profile.length column i pivot row

/-- **One step of the sweep.** Either no unused row has the bit of the column set and nothing
changes, or one of them becomes the pivot row of the column. -/
theorem step?_cases (hcolumn : column < n) (hwidth : ∀ row ∈ state.rows, row.length = n)
    (hroom : state.profile.length < state.rows.length) :
    (state.step? column = some state ∧ ∀ (i : ℕ) (row : BitVector), state.profile.length ≤ i →
        state.rows[i]? = some row → row.bit column = false) ∨
      ∃ rows' pivot, state.step? column = some ⟨rows', state.profile ++ [column]⟩ ∧
        state.PlacesPivot n column rows' pivot := by
  obtain ⟨rows, profile⟩ := state
  simp only at hwidth hroom ⊢
  set p := profile.length with hp
  have hdrop : ∀ row ∈ rows.drop p, row.length = n :=
    fun row h => hwidth row (List.mem_of_mem_drop h)
  rcases firstSet?_cases hcolumn hdrop p with ⟨hnone, hall⟩ | ⟨k, pivot, hsome, hk, hpivot⟩
  · refine .inl ⟨by simp [step?, ← hp, hnone], fun i row hi hrow => hall row ?_⟩
    refine List.mem_iff_getElem?.mpr ⟨i - p, ?_⟩
    rwa [List.getElem?_drop, Nat.add_sub_cancel' hi]
  · rw [List.getElem?_drop] at hk
    have hfound : p + k < rows.length := (List.getElem?_eq_some_iff.mp hk).1
    obtain ⟨swapped, hswap, hlen, hget⟩ := exists_exchange? hfound hroom
    have hsource : swapped[p]? = some pivot := by rw [hget, Equiv.swap_apply_right, hk]
    have hswidth : ∀ row ∈ swapped, row.length = n := by
      intro row hrow
      obtain ⟨i, hi⟩ := List.mem_iff_getElem?.mp hrow
      rw [hget] at hi
      exact hwidth row (List.mem_of_getElem? hi)
    have hpwidth : pivot.length = n := hswidth pivot (List.mem_of_getElem? hsource)
    obtain ⟨cleared, hclear, hrows⟩ := exists_clearColumn? hcolumn hswidth hsource
    have hpivot' : cleared[p]? = some pivot := hrows.getElem?_pivot hsource hpwidth
    have hspace : rowSpace n cleared = rowSpace n rows :=
      (hrows.rowSpace_eq hsource hpwidth).trans (rowSpace_exchange hget)
    refine .inr ⟨cleared, pivot, by simp [step?, ← hp, hsome, hswap, hclear],
      hrows.count.trans hlen, hrows.width, hspace, hpivot', fun i row hi => ?_⟩
    change StepRow rows p column i pivot row
    obtain ⟨old, hold⟩ := hrows.exists_old hi
    have hbits := hrows.bits i old row hold hi
    refine ⟨?_, Equiv.swap (p + k) p i, old, (hget i).symm.trans hold, fun hip => ?_,
      fun hip => ?_, hbits⟩
    · by_cases hip : i = p
      · subst hip
        rw [← Option.some.inj (hpivot'.symm.trans hi), hpivot, decide_eq_true rfl]
      · rw [hbits, hpivot]
        simp [hip]
    · exact Equiv.swap_apply_of_ne_of_ne (by omega) (by omega)
    · rw [Equiv.swap_apply_def]
      split
      · exact le_refl p
      · split <;> omega

/-! ### The invariant -/

/-- The state of a sweep that has visited the columns below `column`. -/
structure Reached (start : List BitVector) (n column : ℕ) (state : Sweep) : Prop where
  /-- No row is lost. -/
  count : state.rows.length = start.length
  /-- All rows have `n` bits. -/
  width : ∀ row ∈ state.rows, row.length = n
  /-- The row space is that of the start. -/
  space : rowSpace n state.rows = rowSpace n start
  /-- The columns with a pivot increase. -/
  increasing : state.profile.Pairwise (· < ·)
  /-- Each of them has been visited. -/
  visited : ∀ c ∈ state.profile, c < column
  /-- There is a row for each of them. -/
  room : state.profile.length ≤ state.rows.length
  /-- A column with a pivot is a unit column. -/
  unit : ∀ k c : ℕ, state.profile[k]? = some c →
    ∀ (i : ℕ) (row : BitVector), state.rows[i]? = some row → row.bit c = decide (i = k)
  /-- A row with a pivot vanishes to the left of it. -/
  leading : ∀ k c : ℕ, state.profile[k]? = some c →
    ∀ row : BitVector, state.rows[k]? = some row → ∀ j < c, row.bit j = false
  /-- The rows without a pivot vanish in all columns that have been visited. -/
  rest : ∀ (i : ℕ) (row : BitVector), state.profile.length ≤ i → state.rows[i]? = some row →
    ∀ j < column, row.bit j = false

/-- Before the first column nothing is required. -/
theorem reached_start (hwidth : ∀ row ∈ rows, row.length = n) : Reached rows n 0 ⟨rows, []⟩ where
  count := rfl
  width := hwidth
  space := rfl
  increasing := .nil
  visited _ h := nomatch h
  room := Nat.zero_le _
  unit _ _ h := nomatch h
  leading _ _ h := nomatch h
  rest _ _ _ _ _ h := nomatch h

/-- The columns of a profile with one more column. -/
theorem getElem?_profile_append {profile : List ℕ} {k c : ℕ}
    (h : (profile ++ [column])[k]? = some c) :
    (profile[k]? = some c ∧ k < profile.length) ∨ (k = profile.length ∧ c = column) := by
  rcases Nat.lt_trichotomy k profile.length with hk | hk | hk
  · exact .inl ⟨by rwa [List.getElem?_append_left hk] at h, hk⟩
  · subst hk
    rw [List.getElem?_concat_length] at h
    exact .inr ⟨rfl, (Option.some.inj h).symm⟩
  · have hlength : (profile ++ [column]).length ≤ k := by
      rw [List.length_append, List.length_singleton]
      exact hk
    rw [List.getElem?_eq_none_iff.mpr hlength] at h
    cases h

section PlacesPivot

variable {start rows' : List BitVector} {pivot : BitVector}

/-- The pivot row was a row without a pivot and so vanishes in the columns visited before. -/
theorem PlacesPivot.bit_pivot (hplaces : state.PlacesPivot n column rows' pivot)
    (h : Reached start n column state) {j : ℕ} (hj : j < column) : pivot.bit j = false := by
  obtain ⟨i', old, hold, -, hge, hbits⟩ := (hplaces.row _ pivot hplaces.source).origin
  rw [hbits, h.rest i' old (hge le_rfl) hold j hj]
  simp

/-- In the columns visited before, a row agrees with the one that it comes from. -/
theorem PlacesPivot.exists_old (hplaces : state.PlacesPivot n column rows' pivot)
    (h : Reached start n column state) {i : ℕ} {row : BitVector} (hi : rows'[i]? = some row) :
    ∃ (i' : ℕ) (old : BitVector), state.rows[i']? = some old ∧
      (i < state.profile.length → i' = i) ∧
      (state.profile.length ≤ i → state.profile.length ≤ i') ∧
      ∀ j < column, row.bit j = old.bit j := by
  obtain ⟨i', old, hold, hlt, hge, hbits⟩ := (hplaces.row i row hi).origin
  refine ⟨i', old, hold, hlt, hge, fun j hj => ?_⟩
  rw [hbits, hplaces.bit_pivot h hj, Bool.and_false, Bool.xor_false]

/-- A column with one more pivot. -/
theorem Reached.of_placesPivot (h : Reached start n column state)
    (hroom : state.profile.length < state.rows.length)
    (hplaces : state.PlacesPivot n column rows' pivot) :
    Reached start n (column + 1) ⟨rows', state.profile ++ [column]⟩ where
  count := hplaces.count.trans h.count
  width := hplaces.width
  space := hplaces.space.trans h.space
  increasing := by
    refine List.pairwise_append.mpr ⟨h.increasing, List.pairwise_singleton _ _, ?_⟩
    intro c hc c' hc'
    rw [List.mem_singleton.mp hc']
    exact h.visited c hc
  visited c hc := by
    rcases List.mem_append.mp hc with hc | hc
    · exact (h.visited c hc).trans (Nat.lt_succ_self column)
    · rw [List.mem_singleton.mp hc]
      exact Nat.lt_succ_self column
  room := by
    rw [List.length_append, List.length_singleton, hplaces.count]
    exact hroom
  unit k c hk i row hi := by
    rcases getElem?_profile_append hk with ⟨hk, hkp⟩ | ⟨rfl, rfl⟩
    · have hc : c < column := h.visited c (List.mem_of_getElem? hk)
      obtain ⟨i', old, hold, hlt, hge, hbits⟩ := hplaces.exists_old h hi
      rw [hbits c hc, h.unit k c hk i' old hold]
      rcases Nat.lt_or_ge i state.profile.length with hip | hip
      · rw [hlt hip]
      · have := hge hip
        rw [decide_eq_false (by omega), decide_eq_false (by omega)]
    · exact (hplaces.row i row hi).unit
  leading k c hk row hi j hj := by
    rcases getElem?_profile_append hk with ⟨hk, hkp⟩ | ⟨rfl, rfl⟩
    · have hc : c < column := h.visited c (List.mem_of_getElem? hk)
      obtain ⟨i', old, hold, hlt, -, hbits⟩ := hplaces.exists_old h hi
      obtain rfl := hlt hkp
      rw [hbits j (hj.trans hc)]
      exact h.leading i' c hk old hold j hj
    · rw [← Option.some.inj (hplaces.source.symm.trans hi)]
      exact hplaces.bit_pivot h hj
  rest i row hi hrow j hj := by
    rw [List.length_append, List.length_singleton] at hi
    rcases Nat.lt_succ_iff_lt_or_eq.mp hj with hj | rfl
    · obtain ⟨i', old, hold, -, hge, hbits⟩ := hplaces.exists_old h hrow
      rw [hbits j hj]
      exact h.rest i' old (hge (by omega)) hold j hj
    · rw [(hplaces.row i row hrow).unit, decide_eq_false (by omega)]

end PlacesPivot

/-- **The step lemma.** One more column keeps the invariant. -/
theorem Reached.exists_step? {start : List BitVector} (h : Reached start n column state)
    (hcolumn : column < n) (hroom : state.profile.length < state.rows.length) :
    ∃ next, state.step? column = some next ∧ Reached start n (column + 1) next := by
  rcases step?_cases hcolumn h.width hroom with ⟨hstep, hzero⟩ | ⟨rows', pivot, hstep, hplaces⟩
  · refine ⟨state, hstep, { h with
      visited := fun c hc => (h.visited c hc).trans (Nat.lt_succ_self column)
      rest := fun i row hi hrow j hj => ?_ }⟩
    rcases Nat.lt_succ_iff_lt_or_eq.mp hj with hj | rfl
    · exact h.rest i row hi hrow j hj
    · exact hzero i row hi hrow
  · exact ⟨_, hstep, h.of_placesPivot hroom hplaces⟩

/-- A sweep in which every row has a pivot is over. -/
theorem Reached.finished {start : List BitVector} (h : Reached start n column state)
    (hfull : state.profile.length = state.rows.length) {last : ℕ} (hlast : column ≤ last) :
    Reached start n last state :=
  { h with
    visited := fun c hc => (h.visited c hc).trans_le hlast
    rest := fun i row hi hrow => by
      have := (List.getElem?_eq_some_iff.mp hrow).1
      omega }

/-- **The run lemma.** A sweep over the remaining columns does not fail and keeps the invariant. -/
theorem Reached.exists_run? {start : List BitVector} (count : ℕ) :
    ∀ {column : ℕ} {state : Sweep}, Reached start n column state → column + count = n →
      ∃ final, run? count column state = some final ∧ Reached start n n final := by
  induction count with
  | zero => exact fun h hn => ⟨_, rfl, hn ▸ h⟩
  | succ count ih =>
      intro column state h hn
      by_cases hfull : state.profile.length = state.rows.length
      · exact ⟨state, by rw [run?, if_pos hfull], h.finished hfull (by omega)⟩
      · obtain ⟨next, hstep, hnext⟩ := h.exists_step? (by omega) (by have := h.room; omega)
        obtain ⟨final, hrun, hfinal⟩ := ih hnext (by omega)
        refine ⟨final, ?_, hfinal⟩
        rw [run?, if_neg hfull, hstep]
        exact hrun

end Sweep

namespace BitMatrix

variable {m : BitMatrix} {r c n : ℕ}

/-- **The reduced echelon form** of a rectangular matrix exists and is what a sweep over all
columns reaches. -/
theorem exists_echelonize? (h : m.HasShape r c) :
    ∃ reduced profile, m.echelonize? = some (reduced, profile) ∧ reduced.HasShape r c ∧
      Sweep.Reached m.rows c c ⟨reduced.rows, profile⟩ := by
  have hwidth : ∀ row ∈ m.rows, row.length = c :=
    fun row hrow => (h.rectangular row hrow).trans h.columns
  obtain ⟨final, hrun, hfinal⟩ := (Sweep.reached_start hwidth).exists_run? c (Nat.zero_add c)
  refine ⟨{ m with rows := final.rows }, final.profile, ?_,
    ⟨hfinal.count.trans h.rowCount, h.columns, fun row hrow => ?_⟩, hfinal⟩
  · rw [echelonize?, h.columns, hrun]
    rfl
  · exact (hfinal.width row hrow).trans h.columns.symm

/-- A square matrix over a field is invertible exactly if its kernel is trivial. -/
theorem isUnit_iff_kernel (a : Matrix (Fin n) (Fin n) (ZMod 2)) :
    IsUnit a ↔ ∀ x, a.mulVec x = 0 → x = 0 := by
  rw [Matrix.isUnit_iff_isUnit_det, isUnit_iff_ne_zero, Ne, ← Matrix.exists_mulVec_eq_zero_iff]
  constructor
  · intro h x hx
    by_contra hne
    exact h ⟨x, hne, hx⟩
  · rintro h ⟨x, hne, hx⟩
    exact hne (h x hx)

/-- Matrices with the same row space have the same kernel, so that one is invertible if the other
is. -/
theorem isUnit_congr {a b : BitMatrix} (ha : a.HasShape n n) (hb : b.HasShape n n)
    (h : rowSpace n a.rows = rowSpace n b.rows) :
    IsUnit (a.toMatrix n n) ↔ IsUnit (b.toMatrix n n) := by
  rw [isUnit_iff_kernel, isUnit_iff_kernel]
  refine forall_congr' fun x => ?_
  rw [mulVec_eq_zero_iff ha, mulVec_eq_zero_iff hb, h]

/-- The pivot row of a column is a unit vector if every column has a pivot. -/
theorem toVec_of_full {start rows : List BitVector} {profile : List ℕ} {row : BitVector} {k : ℕ}
    {j : Fin n} (hr : Sweep.Reached start n n ⟨rows, profile⟩) (hall : ∀ i < n, i ∈ profile)
    (hk : profile[k]? = some (j : ℕ)) (hrow : rows[k]? = some row) :
    row.toVec n = Pi.single j 1 := by
  funext i
  obtain ⟨k', hk'⟩ := List.mem_iff_getElem?.mp (hall i i.isLt)
  rw [BitVector.toVec, hr.unit k' i hk' k row hrow, Pi.single_apply]
  by_cases hij : i = j
  · subst hij
    have hkk : k' = k := by
      by_contra hne
      have := (hr.unit k' i hk' k row hrow).symm.trans (hr.unit k i hk k row hrow)
      simp [Ne.symm hne] at this
    simp [hkk]
  · have hkk : k ≠ k' := by
      rintro rfl
      exact hij (Fin.ext (Option.some.inj (hk'.symm.trans hk)))
    simp [hkk, hij]

/-- An increasing list of `n` numbers below `n` has all of them. -/
theorem eq_range_of_increasing {l : List ℕ} (hincreasing : l.Pairwise (· < ·))
    (hbelow : ∀ c ∈ l, c < n) (hlength : l.length = n) : l = List.range n := by
  have hsub : l.toFinset ⊆ Finset.range n := fun c hc =>
    Finset.mem_range.mpr (hbelow c (List.mem_toFinset.mp hc))
  have hcard : (Finset.range n).card ≤ l.toFinset.card := by
    rw [Finset.card_range, List.toFinset_card_of_nodup (hincreasing.imp ne_of_lt), hlength]
  have hall := Finset.eq_of_subset_of_card_le hsub hcard
  refine hincreasing.eq_of_mem_iff List.pairwise_lt_range fun c => ?_
  rw [← List.mem_toFinset, hall, Finset.mem_range, List.mem_range]

/-- A reduced matrix in which every column has a pivot is invertible: its rows span all unit
vectors. -/
theorem isUnit_of_full {start : List BitVector} {profile : List ℕ} (h : m.HasShape n n)
    (hr : Sweep.Reached start n n ⟨m.rows, profile⟩) (hfull : profile.length = n) :
    IsUnit (m.toMatrix n n) := by
  have hprofile : profile = List.range n :=
    eq_range_of_increasing hr.increasing hr.visited hfull
  have hall : ∀ j < n, j ∈ profile := fun j hj => hprofile ▸ List.mem_range.mpr hj
  rw [isUnit_iff_kernel]
  intro x hx
  funext j
  obtain ⟨k, hk⟩ := List.mem_iff_getElem?.mp (hall j j.isLt)
  have hkn : k < n := hfull ▸ (List.getElem?_eq_some_iff.mp hk).1
  obtain ⟨row, hrow⟩ := h.exists_row hkn
  have horthogonal := (mulVec_eq_zero_iff h x).mp hx _ (toVec_mem_rowSpace hrow)
  rwa [toVec_of_full hr hall hk hrow, single_one_dotProduct] at horthogonal

/-- A reduced matrix in which some column has no pivot has a row of zeros. -/
theorem not_isUnit_of_not_full {start : List BitVector} {profile : List ℕ} (h : m.HasShape n n)
    (hr : Sweep.Reached start n n ⟨m.rows, profile⟩) (hpart : profile.length < n) :
    ¬ IsUnit (m.toMatrix n n) := by
  rw [Matrix.isUnit_iff_isUnit_det, isUnit_iff_ne_zero, not_not]
  refine Matrix.det_eq_zero_of_row_eq_zero ⟨profile.length, hpart⟩ fun j => ?_
  obtain ⟨row, hrow⟩ := h.exists_row hpart
  rw [toMatrix, entry_eq_bit hrow, hr.rest _ row le_rfl hrow j j.isLt, bitValue_false]

/-- **The test for invertibility** of a square matrix gives an answer, and the right one. -/
theorem exists_isInvertible? (h : m.HasShape n n) :
    ∃ b, m.isInvertible? = some b ∧ (b = true ↔ IsUnit (m.toMatrix n n)) := by
  obtain ⟨reduced, profile, hech, hshape, hr⟩ := exists_echelonize? h
  have hsquare : m.isSquare = true := h.isSquare_iff.mpr rfl
  refine ⟨profile.length == n, ?_, ?_⟩
  · rw [isInvertible?, if_pos hsquare, rank?, hech, h.columns]
    rfl
  · rw [beq_iff_eq, ← isUnit_congr hshape h hr.space]
    constructor
    · exact isUnit_of_full hshape hr
    · intro hunit
      by_contra hne
      have hroom : profile.length ≤ n := hshape.rowCount ▸ hr.room
      exact not_isUnit_of_not_full hshape hr (by omega) hunit

/-- A square matrix passes the test exactly if it is invertible. -/
theorem isInvertible?_eq_true_iff (h : m.HasShape n n) :
    m.isInvertible? = some true ↔ IsUnit (m.toMatrix n n) := by
  obtain ⟨b, hb, hiff⟩ := exists_isInvertible? h
  rw [hb, Option.some.injEq, hiff]

/-- A square matrix is invertible exactly if its rank is found to be the number of its columns. -/
theorem rank?_eq_some_iff (h : m.HasShape n n) :
    m.rank? = some n ↔ IsUnit (m.toMatrix n n) := by
  have hsquare : m.isSquare = true := h.isSquare_iff.mpr rfl
  rw [← isInvertible?_eq_true_iff h, isInvertible?, if_pos hsquare, h.columns]
  simp

end BitMatrix

end AffinePhase
