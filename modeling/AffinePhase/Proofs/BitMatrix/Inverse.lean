import AffinePhase.Proofs.BitMatrix.Elimination

/-!
# The inverse from the echelon form

The inverse of a square matrix is read off the echelon form of the matrix beside the identity. The
right half of a row of that form says which rows of the matrix add up to the left half: this holds
at the start and is linear, and so it holds of the whole row space, which the sweep keeps.

The left halves span the row space of the matrix. If it is invertible they are all different from
zero, hence every row has its pivot in the left half, which makes the left half the identity and the
right half the inverse. If it is not, some row has no pivot there.

What is found is an inverse from the left. Square matrices over a field have the same inverses from
both sides, so it is one from the right too, and the only one. The second factor of a product that
gives the identity need not be known to be rectangular for this: all its rows are added somewhere.

## Main definitions

* `leftHalf`, `rightHalf`: the halves of a vector.

## Main results

* `BitMatrix.halves_of_mem_rowSpace`: the right half gives the left half.
* `BitMatrix.profile_full_iff`: every row has its pivot in the left half exactly if the matrix is
  invertible.
* `BitMatrix.exists_inverse?`: the inverse is found exactly if there is one.
* `BitMatrix.inverse?_eq_some_iff`: which matrix is found.
* `BitMatrix.inverse_is_two_sided`: inversion is correct and complete.
-/

namespace AffinePhase

variable {n : ℕ} {m : BitMatrix}

/-! ### The two halves of a row -/

/-- The first `n` of `2n` bits. -/
def leftHalf (n : ℕ) : (Fin (2 * n) → ZMod 2) →ₗ[ZMod 2] (Fin n → ZMod 2) :=
  LinearMap.funLeft (ZMod 2) (ZMod 2) (Fin.castLE (by omega))

/-- The last `n` of `2n` bits. -/
def rightHalf (n : ℕ) : (Fin (2 * n) → ZMod 2) →ₗ[ZMod 2] (Fin n → ZMod 2) :=
  LinearMap.funLeft (ZMod 2) (ZMod 2) fun j => ⟨n + j, by omega⟩

/-- The row space of the left halves is the left half of the row space. -/
theorem rowSpace_leftHalf (rows : List BitVector) :
    rowSpace n rows = (rowSpace (2 * n) rows).map (leftHalf n) := by
  rw [rowSpace, rowSpace, Submodule.map_span]
  refine congrArg _ (Set.ext fun x => ⟨?_, ?_⟩)
  · rintro ⟨row, hrow, rfl⟩
    exact ⟨_, ⟨row, hrow, rfl⟩, rfl⟩
  · rintro ⟨_, ⟨row, hrow, rfl⟩, rfl⟩
    exact ⟨row, hrow, rfl⟩

namespace BitMatrix

/-! ### Some of the columns -/

/-- Columns that are cut out have as many rows as the matrix. -/
theorem hasShape_columnsFrom (m : BitMatrix) (start count : ℕ) :
    (m.columnsFrom start count).HasShape m.rows.length count := by
  refine ⟨List.length_map _, rfl, fun row hrow => ?_⟩
  obtain ⟨old, -, rfl⟩ := List.mem_map.mp hrow
  rw [BitVector.length_ofList, List.length_map, List.length_range]
  rfl

/-- Columns that are cut out keep their entries. -/
theorem entry_columnsFrom (m : BitMatrix) (start : ℕ) {count i j : ℕ} (hj : j < count) :
    (m.columnsFrom start count).entry i j = m.entry i (start + j) := by
  rw [entry, entry, columnsFrom, List.getElem?_map, Option.map_map]
  refine congrArg (Option.getD · false) (congrArg (Option.map · _) (funext fun row => ?_))
  rw [Function.comp_apply, BitVector.bit_ofList, List.getElem?_map, List.getElem?_range hj]
  rfl

/-- The rows of the first columns are the left halves. -/
theorem rowSpace_columnsFrom (m : BitMatrix) (n : ℕ) :
    rowSpace n (m.columnsFrom 0 n).rows = rowSpace n m.rows := by
  have htoVec : ∀ row : BitVector,
      (BitVector.ofList ((List.range n).map fun j => row.bit (0 + j))).toVec n = row.toVec n := by
    intro row
    funext j
    rw [BitVector.toVec, BitVector.bit_ofList, List.getElem?_map, List.getElem?_range j.isLt]
    show bitValue (row.bit (0 + j)) = bitValue (row.bit j)
    rw [Nat.zero_add]
  rw [rowSpace, rowSpace]
  refine congrArg _ (Set.ext fun x => ⟨?_, ?_⟩)
  · rintro ⟨_, hnew, rfl⟩
    obtain ⟨row, hrow, rfl⟩ := List.mem_map.mp hnew
    exact ⟨row, hrow, (htoVec row).symm⟩
  · rintro ⟨row, hrow, rfl⟩
    exact ⟨_, List.mem_map_of_mem hrow, htoVec row⟩

/-! ### The matrix beside the identity -/

/-- A square matrix can be put beside the identity. -/
theorem exists_besideIdentity (h : m.HasShape n n) :
    ∃ a, ofRows? m.besideIdentity (2 * n) = some a ∧ a.HasShape n (2 * n) ∧
      ∀ i < n, ∀ j < n, a.entry i j = m.entry i j ∧ a.entry i (n + j) = decide (i = j) := by
  have hid := hasShape_identity n
  have hget : ∀ i < n, ∃ row, m.rows[i]? = some row ∧ row.length = n ∧
      m.besideIdentity[i]? = some (row.append ((BitVector.zeros n).flip i)) := by
    intro i hi
    obtain ⟨row, hrow⟩ := h.exists_row hi
    refine ⟨row, hrow, h.length_row hrow, ?_⟩
    rw [besideIdentity, List.getElem?_zipWith, hrow, h.columns, identity, List.getElem?_map,
      List.getElem?_range hi]
    rfl
  have hcount : m.besideIdentity.length = n := by
    rw [besideIdentity, List.length_zipWith, h.rowCount, h.columns, hid.rowCount, Nat.min_self]
  have hwidth : ∀ row ∈ m.besideIdentity, row.length = 2 * n := by
    intro row hrow
    obtain ⟨i, hi⟩ := List.mem_iff_getElem?.mp hrow
    obtain ⟨old, -, hlength, hnew⟩ := hget i (hcount ▸ (List.getElem?_eq_some_iff.mp hi).1)
    obtain rfl := Option.some.inj (hi.symm.trans hnew)
    rw [BitVector.append, BitVector.length_ofList, List.length_append, BitVector.length_toList,
      BitVector.length_toList, BitVector.length_flip, hlength]
    exact (Nat.two_mul n).symm
  refine ⟨⟨2 * n, m.besideIdentity⟩, if_pos hwidth, ⟨hcount, rfl, hwidth⟩, fun i hi j hj => ?_⟩
  obtain ⟨row, hrow, hlength, hnew⟩ := hget i hi
  have hentry : ∀ k, entry ⟨2 * n, m.besideIdentity⟩ i k =
      (row.append ((BitVector.zeros n).flip i)).bit k := entry_eq_bit hnew
  rw [hentry, hentry, BitVector.bit_append, BitVector.bit_append, hlength, if_pos hj,
    if_neg (by omega), Nat.add_sub_cancel_left, entry_eq_bit hrow, BitVector.bit_flip]
  exact ⟨rfl, by simp [hi]⟩

variable {a : BitMatrix}

/-- **The right half gives the left half**, for every vector in the row space of the matrix beside
the identity. -/
theorem halves_of_mem_rowSpace (ha : a.HasShape n (2 * n))
    (hentry : ∀ i < n, ∀ j < n, a.entry i j = m.entry i j ∧ a.entry i (n + j) = decide (i = j))
    {y : Fin (2 * n) → ZMod 2} (hy : y ∈ rowSpace (2 * n) a.rows) :
    leftHalf n y = Matrix.vecMul (rightHalf n y) (m.toMatrix n n) := by
  have hle : rowSpace (2 * n) a.rows ≤
      LinearMap.eqLocus (leftHalf n) ((m.toMatrix n n).vecMulLinear ∘ₗ rightHalf n) := by
    refine rowSpace_le fun i row hi => ?_
    have hin : i < n := ha.rowCount ▸ (List.getElem?_eq_some_iff.mp hi).1
    have hright : rightHalf n (row.toVec (2 * n)) = Pi.single ⟨i, hin⟩ 1 := by
      funext j
      show bitValue (row.bit (n + j)) = _
      rw [← entry_eq_bit hi, (hentry i hin j j.isLt).2, Pi.single_apply]
      simp [bitValue, Fin.ext_iff, eq_comm]
    show leftHalf n (row.toVec (2 * n)) =
      Matrix.vecMul (rightHalf n (row.toVec (2 * n))) (m.toMatrix n n)
    rw [hright, Matrix.single_one_vecMul]
    funext j
    show bitValue (row.bit j) = bitValue (m.entry i j)
    rw [← entry_eq_bit hi, (hentry i hin j j.isLt).1]
  exact hle hy

/-! ### The reduced form -/

variable {reduced : BitMatrix} {profile : List ℕ}

/-- With every pivot in the left half, the left half is the identity. -/
theorem columnsFrom_eq_one (hshape : reduced.HasShape n (2 * n))
    (hr : Sweep.Reached a.rows (2 * n) (2 * n) ⟨reduced.rows, profile⟩)
    (hfull : (profile.filter (· < n)).length = n) :
    (reduced.columnsFrom 0 n).toMatrix n n = 1 := by
  have hroom : profile.length ≤ n := hshape.rowCount ▸ hr.room
  have hlength : profile.length = n :=
    le_antisymm hroom (hfull.symm.le.trans (List.length_filter_le _ _))
  have hbelow : ∀ c ∈ profile, c < n := by
    have hall := List.length_filter_eq_length_iff.mp (hfull.trans hlength.symm)
    exact fun c hc => of_decide_eq_true (hall c hc)
  have hprofile : profile = List.range n := eq_range_of_increasing hr.increasing hbelow hlength
  funext i j
  have hpivot : profile[(j : ℕ)]? = some (j : ℕ) := by
    rw [hprofile, List.getElem?_range j.isLt]
  obtain ⟨row, hrow⟩ := hshape.exists_row i.isLt
  rw [toMatrix, entry_columnsFrom _ _ j.isLt, Nat.zero_add, entry_eq_bit hrow,
    hr.unit j j hpivot i row hrow, Matrix.one_apply]
  simp [bitValue, Fin.ext_iff]

/-- **Every row has its pivot in the left half** exactly if the matrix is invertible. -/
theorem profile_full_iff (h : m.HasShape n n) (ha : a.HasShape n (2 * n))
    (hentry : ∀ i < n, ∀ j < n, a.entry i j = m.entry i j ∧ a.entry i (n + j) = decide (i = j))
    (hshape : reduced.HasShape n (2 * n))
    (hr : Sweep.Reached a.rows (2 * n) (2 * n) ⟨reduced.rows, profile⟩) :
    (profile.filter (· < n)).length = n ↔ IsUnit (m.toMatrix n n) := by
  have hleft : ∀ b : BitMatrix, b.HasShape n (2 * n) → (b.columnsFrom 0 n).HasShape n n :=
    fun b hb => hb.rowCount ▸ b.hasShape_columnsFrom 0 n
  have hm : a.columnsFrom 0 n = m := by
    refine ext_entry (hleft a ha) h fun i hi j hj => ?_
    rw [entry_columnsFrom _ _ hj, Nat.zero_add, (hentry i hi j hj).1]
  have hspace : rowSpace n (reduced.columnsFrom 0 n).rows = rowSpace n m.rows := by
    rw [← hm, rowSpace_columnsFrom, rowSpace_columnsFrom, rowSpace_leftHalf reduced.rows,
      rowSpace_leftHalf a.rows]
    exact congrArg _ hr.space
  rw [← isUnit_congr (hleft reduced hshape) h hspace]
  constructor
  · intro hfull
    rw [columnsFrom_eq_one hshape hr hfull]
    exact isUnit_one
  · intro hunit
    -- A row without a pivot in the left half vanishes there.
    have hnonzero : ∀ k < n, ∃ c, profile[k]? = some c ∧ c < n := by
      intro k hk
      by_contra hno
      have hzero : ∀ j : Fin n, (reduced.columnsFrom 0 n).toMatrix n n ⟨k, hk⟩ j = 0 := by
        intro j
        obtain ⟨row, hrow⟩ := hshape.exists_row hk
        rw [toMatrix, entry_columnsFrom _ _ j.isLt, Nat.zero_add, entry_eq_bit hrow]
        have hbit : row.bit j = false := by
          rcases Nat.lt_or_ge k profile.length with hlt | hge
          · have hc : profile[k]? = some profile[k] := List.getElem?_eq_getElem hlt
            have hn : n ≤ profile[k] := Nat.le_of_not_lt fun hlt' => hno ⟨_, hc, hlt'⟩
            exact hr.leading k _ hc row hrow j (j.isLt.trans_le hn)
          · exact hr.rest k row hge hrow j (by omega)
        rw [hbit, bitValue_false]
      have hdet := (Matrix.isUnit_iff_isUnit_det _).mp hunit
      rw [Matrix.det_eq_zero_of_row_eq_zero ⟨k, hk⟩ hzero] at hdet
      exact not_isUnit_zero hdet
    have hroom : profile.length ≤ n := hshape.rowCount ▸ hr.room
    have hlength : profile.length = n := by
      refine le_antisymm hroom (Nat.le_of_not_lt fun hlt => ?_)
      obtain ⟨c, hc, -⟩ := hnonzero _ hlt
      exact absurd (List.getElem?_eq_some_iff.mp hc).1 (lt_irrefl _)
    have hbelow : ∀ c ∈ profile, decide (c < n) = true := by
      intro c hc
      obtain ⟨k, hk⟩ := List.mem_iff_getElem?.mp hc
      obtain ⟨c', hc', hlt⟩ := hnonzero k (hlength ▸ (List.getElem?_eq_some_iff.mp hk).1)
      rw [hk] at hc'
      exact decide_eq_true (Option.some.inj hc' ▸ hlt)
    rw [List.length_filter_eq_length_iff.mpr hbelow, hlength]

/-- **The inverse** of a square matrix is found exactly if the matrix is invertible. -/
theorem exists_inverse? (h : m.HasShape n n) :
    (IsUnit (m.toMatrix n n) → ∃ inv, m.inverse? = some (some inv) ∧ inv.HasShape n n ∧
      inv.toMatrix n n * m.toMatrix n n = 1) ∧
    (¬ IsUnit (m.toMatrix n n) → m.inverse? = some none) := by
  obtain ⟨a, haug, ha, hentry⟩ := exists_besideIdentity h
  obtain ⟨reduced, profile, hech, hshape, hr⟩ := exists_echelonize? ha
  have hiff := profile_full_iff h ha hentry hshape hr
  have hsquare : m.isSquare = true := h.isSquare_iff.mpr rfl
  have hread : m.inverse? = if (profile.filter (· < n)).length = n
      then some (some (reduced.columnsFrom n n)) else some none := by
    rw [inverse?, if_pos hsquare, h.columns]
    simp only [haug, hech, Option.bind_eq_bind, Option.bind_some]
  constructor
  · intro hunit
    have hfull := hiff.mpr hunit
    refine ⟨reduced.columnsFrom n n, hread.trans (if_pos hfull),
      hshape.rowCount ▸ reduced.hasShape_columnsFrom n n, ?_⟩
    rw [← columnsFrom_eq_one hshape hr hfull]
    funext i j
    obtain ⟨row, hrow⟩ := hshape.exists_row i.isLt
    have hmem : row.toVec (2 * n) ∈ rowSpace (2 * n) a.rows :=
      hr.space ▸ toVec_mem_rowSpace hrow
    have hhalves := congrFun (halves_of_mem_rowSpace ha hentry hmem) j
    have hleft : leftHalf n (row.toVec (2 * n)) j = (reduced.columnsFrom 0 n).toMatrix n n i j := by
      rw [toMatrix, entry_columnsFrom _ _ j.isLt, Nat.zero_add, entry_eq_bit hrow]
      rfl
    have hright : rightHalf n (row.toVec (2 * n)) = (reduced.columnsFrom n n).toMatrix n n i := by
      funext k
      rw [toMatrix, entry_columnsFrom _ _ k.isLt, entry_eq_bit hrow]
      rfl
    rw [← hleft, hhalves, hright]
    rfl
  · intro hunit
    exact hread.trans (if_neg fun hfull => hunit (hiff.mp hfull))

/-! ### Two-sided inverses -/

variable {b k inv : BitMatrix} {r c : ℕ}

/-- A matrix that is not square is not swept. -/
theorem tests_of_not_square (h : m.isSquare = false) :
    m.inverse? = some none ∧ m.isInvertible? = some false := by
  rw [inverse?, isInvertible?, h]
  exact ⟨rfl, rfl⟩

/-- A matrix that passes the test for invertibility is square, and invertible. -/
theorem isUnit_of_isInvertible? (h : m.HasShape r c) (hm : m.isInvertible? = some true) :
    r = c ∧ IsUnit (m.toMatrix r r) := by
  have hsquare : m.isSquare = true := by
    by_contra hno
    rw [(tests_of_not_square (Bool.eq_false_of_not_eq_true hno)).2] at hm
    cases hm
  obtain rfl := h.isSquare_iff.mp hsquare
  exact ⟨rfl, (isInvertible?_eq_true_iff h).mp hm⟩

/-- **The inverse** is the matrix of the same shape that gives the identity from the left. -/
theorem inverse?_eq_some_iff (h : m.HasShape n n) :
    m.inverse? = some (some inv) ↔ inv.HasShape n n ∧ inv.toMatrix n n * m.toMatrix n n = 1 := by
  obtain ⟨hfound, hnone⟩ := exists_inverse? h
  constructor
  · intro hinv
    by_cases hunit : IsUnit (m.toMatrix n n)
    · obtain ⟨inv', hinv', hshape, hmul⟩ := hfound hunit
      obtain rfl := Option.some.inj (Option.some.inj (hinv.symm.trans hinv'))
      exact ⟨hshape, hmul⟩
    · have hno := hinv.symm.trans (hnone hunit)
      cases hno
  · rintro ⟨hshape, hmul⟩
    obtain ⟨inv', hinv', hshape', hmul'⟩ := hfound (IsUnit.of_mul_eq_one_right _ hmul)
    have hsame : inv'.toMatrix n n = inv.toMatrix n n :=
      left_inv_eq_right_inv hmul' (mul_eq_one_comm.mp hmul)
    rw [hinv', toMatrix_injective hshape' hshape hsame]

/-- The product is the identity exactly if the product of the matrices over the field is one. -/
theorem mul?_eq_identity_iff (ha : a.HasShape n n) (hb : b.HasShape n n) :
    a.mul? b = some (identity n) ↔ a.toMatrix n n * b.toMatrix n n = 1 := by
  rw [mul?_eq_some_iff ha hb, toMatrix_identity, and_iff_right (hasShape_identity n), eq_comm]

/-- The entries of a column of a matrix with a left inverse are not all zero. -/
theorem exists_entry_of_mul_eq_one {a : Matrix (Fin n) (Fin n) (ZMod 2)}
    (h : a * m.toMatrix n n = 1) {j : ℕ} (hj : j < n) : ∃ i, m.entry i j = true := by
  by_contra hno
  have hzero : ∀ i, m.toMatrix n n i ⟨j, hj⟩ = 0 := fun i => by
    rw [toMatrix, Bool.eq_false_of_not_eq_true fun hset => hno ⟨i, hset⟩, bitValue_false]
  have hone : (a * m.toMatrix n n) ⟨j, hj⟩ ⟨j, hj⟩ = 1 := by rw [h, Matrix.one_apply_eq]
  rw [Matrix.mul_apply, Finset.sum_eq_zero fun i _ => by rw [hzero, mul_zero]] at hone
  exact zero_ne_one hone

/-- **A right inverse** has the same shape, also if nothing else is known about it: every column of
the first factor has an entry, and so every row of the second one is used. -/
theorem mul?_eq_identity (h : m.HasShape n n) (hk : m.mul? k = some (identity n)) :
    k.HasShape n n ∧ m.toMatrix n n * k.toMatrix n n = 1 := by
  obtain ⟨hcount, hshape, hmatrix, hrows⟩ := of_mul? h hk
  have hmul : m.toMatrix n n * k.toMatrix n n = 1 := by
    rw [← hmatrix n, toMatrix_identity]
  have hmul' : k.toMatrix n n * m.toMatrix n n = 1 := mul_eq_one_comm.mp hmul
  refine ⟨⟨hcount, hshape.columns.symm, fun row hrow => ?_⟩, hmul⟩
  obtain ⟨j, hj, rfl⟩ := List.getElem_of_mem hrow
  obtain ⟨i, hentry⟩ := exists_entry_of_mul_eq_one hmul' (hcount ▸ hj)
  obtain ⟨row, hget, hlength⟩ := hrows i j hentry
  rw [List.getElem?_eq_getElem hj] at hget
  rw [Option.some.inj hget, hlength]

/-- A rectangular left inverse has the same shape. -/
theorem mul?_eq_identity_left (h : m.HasShape n n) (hrect : k.IsRectangular)
    (hk : k.mul? m = some (identity n)) :
    k.HasShape n n ∧ k.toMatrix n n * m.toMatrix n n = 1 := by
  obtain ⟨hcount, hshape, -⟩ := of_mul? hrect.hasShape hk
  have hkshape : k.HasShape n n :=
    ⟨hshape.rowCount.symm.trans (hasShape_identity n).rowCount, hcount.symm.trans h.rowCount, hrect⟩
  exact ⟨hkshape, (mul?_eq_identity_iff hkshape h).mp hk⟩

/-- **An inverse is found** exactly if the matrix passes the test for invertibility. -/
theorem exists_inverse?_iff (h : m.HasShape n n) :
    (∃ inv, m.inverse? = some (some inv)) ↔ m.isInvertible? = some true := by
  rw [isInvertible?_eq_true_iff h]
  constructor
  · rintro ⟨inv, hinv⟩
    obtain ⟨-, hmul⟩ := (inverse?_eq_some_iff h).mp hinv
    exact IsUnit.of_mul_eq_one_right _ hmul
  · intro hunit
    obtain ⟨inv, hinv, -⟩ := (exists_inverse? h).1 hunit
    exact ⟨inv, hinv⟩

/-- **A square matrix passes the test** exactly if it has a right inverse. -/
theorem isInvertible?_iff_exists_mul? (h : m.HasShape n n) :
    m.isInvertible? = some true ↔ ∃ k, m.mul? k = some (identity n) := by
  rw [isInvertible?_eq_true_iff h]
  constructor
  · intro hunit
    obtain ⟨inv, -, hshape, hmul⟩ := (exists_inverse? h).1 hunit
    exact ⟨inv, (mul?_eq_identity_iff h hshape).mpr (mul_eq_one_comm.mp hmul)⟩
  · rintro ⟨k, hk⟩
    exact IsUnit.of_mul_eq_one _ (mul?_eq_identity h hk).2

/-- Inversion and the test for invertibility give an answer. -/
theorem exists_answers (h : m.HasShape n n) :
    ∃ answer passes, m.inverse? = some answer ∧ m.isInvertible? = some passes := by
  obtain ⟨hfound, hnone⟩ := exists_inverse? h
  obtain ⟨passes, hpasses, -⟩ := exists_isInvertible? h
  by_cases hunit : IsUnit (m.toMatrix n n)
  · obtain ⟨inv, hinv, -⟩ := hfound hunit
    exact ⟨_, passes, hinv, hpasses⟩
  · exact ⟨_, passes, hnone hunit, hpasses⟩

/-- **Inversion is correct and complete.** The inverse of a matrix is found exactly if the matrix
passes the test for invertibility, and that is if it is square and has a right inverse. What is
found is an inverse from both sides, the only one from either, and its own inverse is the matrix. -/
theorem inverse_is_two_sided (h : m.IsRectangular) :
    (∃ answer passes, m.inverse? = some answer ∧ m.isInvertible? = some passes) ∧
    ((∃ inv, m.inverse? = some (some inv)) ↔ m.isInvertible? = some true) ∧
    (m.isInvertible? = some true ↔
      m.isSquare = true ∧ ∃ k, m.mul? k = some (identity m.columns)) ∧
    ∀ inv, m.inverse? = some (some inv) →
      inv.HasShape m.columns m.columns ∧
      m.mul? inv = some (identity m.columns) ∧ inv.mul? m = some (identity m.columns) ∧
      (∀ k, m.mul? k = some (identity m.columns) → k = inv) ∧
      (∀ k : BitMatrix, k.IsRectangular → k.mul? m = some (identity m.columns) → k = inv) ∧
      inv.inverse? = some (some m) := by
  cases hsquare : m.isSquare with
  | false =>
      obtain ⟨hinverse, htest⟩ := tests_of_not_square hsquare
      simp [hinverse, htest]
  | true =>
      have hm : m.HasShape m.columns m.columns := ⟨h.hasShape.isSquare_iff.mp hsquare, rfl, h⟩
      refine ⟨exists_answers hm, exists_inverse?_iff hm, ?_, fun inv hinv => ?_⟩
      · rw [isInvertible?_iff_exists_mul? hm, and_iff_right rfl]
      · obtain ⟨hshape, hmul⟩ := (inverse?_eq_some_iff hm).mp hinv
        have hmul' := mul_eq_one_comm.mp hmul
        refine ⟨hshape, (mul?_eq_identity_iff hm hshape).mpr hmul',
          (mul?_eq_identity_iff hshape hm).mpr hmul, fun k hk => ?_, fun k hrect hk => ?_,
          (inverse?_eq_some_iff hshape).mpr ⟨hm, hmul'⟩⟩
        · obtain ⟨hkshape, hkmul⟩ := mul?_eq_identity hm hk
          exact toMatrix_injective hkshape hshape (left_inv_eq_right_inv hmul hkmul).symm
        · obtain ⟨hkshape, hkmul⟩ := mul?_eq_identity_left hm hrect hk
          exact toMatrix_injective hkshape hshape (left_inv_eq_right_inv hkmul hmul')

/-- A matrix whose first column has its only entry in the last row. -/
def invertibleSample : BitMatrix :=
  ⟨3, [.ofList [false, true, true], .ofList [false, false, true], .ofList [true, false, false]]⟩

/-- The inverse of a matrix whose sweep exchanges rows. -/
theorem inverse_is_two_sided_of_sample :
    invertibleSample.IsRectangular ∧ ∃ inv,
      invertibleSample.inverse? = some (some inv) ∧
      invertibleSample.mul? inv = some (identity 3) ∧
      inv.mul? invertibleSample = some (identity 3) ∧
      inv.inverse? = some (some invertibleSample) := by
  have hrect : invertibleSample.IsRectangular := by decide
  have hpasses : invertibleSample.isInvertible? = some true := by rfl
  obtain ⟨-, hiff, -, hinverse⟩ := inverse_is_two_sided hrect
  obtain ⟨inv, hinv⟩ := hiff.mpr hpasses
  obtain ⟨-, hright, hleft, -, -, hback⟩ := hinverse inv hinv
  exact ⟨hrect, inv, hinv, hright, hleft, hback⟩

end BitMatrix

end AffinePhase
