import AffinePhase.Proofs.BitMatrix.Linear
import AffinePhase.Storage

/-!
# The laws of matrix products

Three algorithms have to agree here. A product of matrices adds up whole rows, those that the set
bits of a row select; a product with a vector counts the bits that two words have in common; and a
transpose is written into a zero matrix one bit at a time. All three have a reading over the field
with two elements, where the laws that relate them hold, and matrices of a known shape with the same
reading are equal. So the laws hold of the stored rows, for shapes without rows or columns too.

The common bits are counted in a number of 32 bits. The count is at most the length of the vectors,
and so it is exact if the length is such a number.

## Main definitions

* `BitVector.countedDot?`: the inner product with a bounded count.
* `BitMatrix.writtenTranspose?`: the transpose, written bit by bit.

## Main results

* `BitVector.countedDot?_eq`: the count does not overflow.
* `BitMatrix.writtenTranspose?_eq`: writing the bits gives the transpose.
* `BitMatrix.get?_of_mul?`: an entry of a product as a parity.
* `BitMatrix.products_obey_linear_algebra`: the laws.
-/

namespace AffinePhase

namespace BitVector

variable {v w : BitVector}

/-! ### Counting in 32 bits -/

/-- Adds to a number of 32 bits, `none` if the sum is no such number. -/
def addCount? (n k : ℕ) : Option ℕ :=
  if n + k < 2 ^ 32 then some (n + k) else none

/-- The inner product, with the common bits of all words counted in a number of 32 bits. -/
def countedDot? (v w : BitVector) : Option Bool := do
  guard (v.length = w.length)
  let ones ← (List.zipWith (fun a b => Word.weight (a &&& b)) v.words w.words).foldlM addCount? 0
  some (ones % 2 == 1)

/-- A sum is formed if it is a number of 32 bits: so are then all sums before it. -/
theorem foldlM_addCount? {l : List ℕ} {n : ℕ} (h : n + l.foldr (· + ·) 0 < 2 ^ 32) :
    l.foldlM addCount? n = some (n + l.foldr (· + ·) 0) := by
  induction l generalizing n with
  | nil => rfl
  | cons k l ih =>
      rw [List.foldr_cons] at h
      have hfirst : addCount? n k = some (n + k) := if_pos (by omega)
      rw [List.foldlM_cons, hfirst, List.foldr_cons, ← Nat.add_assoc]
      exact ih (by omega)

/-- No more bits are set than there are. -/
theorem length_support_le (v : BitVector) : v.support.length ≤ v.length := by
  rw [v.support_eq_filter le_rfl]
  simpa using List.length_filter_le v.bit (List.range v.length)

/-- **The count does not overflow** if the length is a number of 32 bits. -/
theorem countedDot?_eq (h : v.length < 2 ^ 32) : v.countedDot? w = v.dot? w := by
  by_cases hlength : v.length = w.length
  · have hcount := countP_support hlength
    have hle : v.support.countP w.bit ≤ v.length :=
      List.countP_le_length.trans v.length_support_le
    rw [hcount] at hle
    rw [countedDot?, dot?, if_pos hlength, foldlM_addCount? (by omega), Nat.zero_add]
    simp [hlength]
  · simp [countedDot?, dot?, hlength]

end BitVector

namespace BitMatrix

variable {a b c m : BitMatrix} {v : BitVector} {r s k l n p : ℕ}

/-! ### Entries -/

/-- **An entry of a product** is the parity of the number of places at which both the row and the
column have an entry. -/
theorem get?_of_mul? {ab : BitMatrix} (ha : a.HasShape k l) (hb : b.HasShape l n)
    (hab : a.mul? b = some ab) {i j : ℕ} (hi : i < k) (hj : j < n) :
    ab.get? i j = some
      ({t ∈ Finset.range l | a.get? i t = some true ∧ b.get? t j = some true}.card % 2 == 1) := by
  obtain ⟨hshape, hmatrix⟩ := (mul?_eq_some_iff ha hb).mp hab
  rw [hshape.get?_eq hi hj]
  refine congrArg some (bitValue_injective ?_)
  have hentry : bitValue (ab.entry i j) =
      ∑ t ∈ Finset.range l, bitValue (a.entry i t) * bitValue (b.entry t j) := by
    rw [Finset.sum_range]
    exact congrFun (congrFun hmatrix ⟨i, hi⟩) ⟨j, hj⟩
  rw [hentry, bitValue_parity, Finset.natCast_card_filter]
  refine Finset.sum_congr rfl fun t ht => ?_
  have ht := Finset.mem_range.mp ht
  rw [ha.get?_eq hi ht, hb.get?_eq ht hj]
  cases a.entry i t <;> cases b.entry t j <;> simp

/-! ### Writing the transpose -/

/-- The transpose, written into a zero matrix one bit at a time. -/
def writtenTranspose? (m : BitMatrix) : Option BitMatrix :=
  m.rows.zipIdx.foldlM
    (fun t (row, i) => row.support.foldlM (fun t j => t.set? j i true) t)
    (zeros m.columns m.rowCount)

theorem hasShape_zeros (r s : ℕ) : (zeros r s).HasShape r s :=
  ⟨List.length_replicate, rfl, isRectangular_zeros r s⟩

/-- Writing one row into a column sets the entries that are set in the row. -/
theorem exists_foldlM_set? {l : List ℕ} {i : ℕ} (h : m.HasShape r s) (hl : ∀ j ∈ l, j < r)
    (hi : i < s) :
    ∃ t, l.foldlM (fun t j => t.set? j i true) m = some t ∧ t.HasShape r s ∧
      ∀ a b, t.entry a b = true ↔ m.entry a b = true ∨ a ∈ l ∧ b = i := by
  induction l generalizing m with
  | nil => exact ⟨m, rfl, h, by simp⟩
  | cons j l ih =>
      obtain ⟨hj, hl⟩ := List.forall_mem_cons.mp hl
      obtain ⟨m₁, hm₁, hshape₁, hentry₁⟩ := exists_set? h hj hi true
      obtain ⟨t, ht, hshape, hentry⟩ := ih hshape₁ hl
      refine ⟨t, ?_, hshape, fun a b => ?_⟩
      · rw [List.foldlM_cons, hm₁]
        exact ht
      · rw [hentry, hentry₁, List.mem_cons]
        split <;> grind

/-- Writing rows into the columns with their indices. -/
theorem exists_foldlM_rows_set? {l : List (BitVector × ℕ)} (h : m.HasShape r s)
    (hl : ∀ x ∈ l, x.1.length ≤ r ∧ x.2 < s) :
    ∃ t, l.foldlM (fun t (row, i) => row.support.foldlM (fun t j => t.set? j i true) t) m = some t ∧
      t.HasShape r s ∧
      ∀ a b, t.entry a b = true ↔ m.entry a b = true ∨ ∃ row, (row, b) ∈ l ∧ row.bit a = true := by
  induction l generalizing m with
  | nil => exact ⟨m, rfl, h, by simp⟩
  | cons x l ih =>
      obtain ⟨⟨hwidth, hi⟩, hl⟩ := List.forall_mem_cons.mp hl
      have hsupport : ∀ j ∈ x.1.support, j < r := fun j hj =>
        (BitVector.lt_of_mem_support hj).trans_le hwidth
      obtain ⟨m₁, hm₁, hshape₁, hentry₁⟩ := exists_foldlM_set? h hsupport hi
      obtain ⟨t, ht, hshape, hentry⟩ := ih hshape₁ hl
      refine ⟨t, ?_, hshape, fun a b => ?_⟩
      · rw [List.foldlM_cons]
        simp only [hm₁]
        exact ht
      · rw [hentry, hentry₁, BitVector.mem_support]
        grind

/-- **Writing the bits one at a time** gives the transpose. -/
theorem writtenTranspose?_eq (h : m.HasShape r s) : m.writtenTranspose? = m.transpose? := by
  have hinside : ∀ x ∈ m.rows.zipIdx, x.1.length ≤ m.columns ∧ x.2 < m.rowCount := by
    rintro ⟨row, i⟩ hx
    have hi : m.rows[i]? = some row := List.mem_zipIdx_iff_getElem?.mp hx
    exact ⟨(h.rectangular row (List.mem_of_getElem? hi)).le, (List.getElem?_eq_some_iff.mp hi).1⟩
  obtain ⟨t, ht, htshape, htentry⟩ :=
    exists_foldlM_rows_set? (hasShape_zeros m.columns m.rowCount) hinside
  obtain ⟨t', ht', htshape', htmatrix⟩ := exists_transpose? h
  have hentry : ∀ i j, t.entry i j = true ↔ m.entry j i = true := by
    intro i j
    simp only [htentry, entry_zeros, Bool.false_eq_true, false_or, List.mem_zipIdx_iff_getElem?]
    constructor
    · rintro ⟨row, hrow, hbit⟩
      rwa [entry_eq_bit hrow]
    · intro hset
      cases hrow : m.rows[j]? with
      | none =>
          rw [entry, hrow] at hset
          cases hset
      | some row => exact ⟨row, rfl, by rwa [entry_eq_bit hrow] at hset⟩
  rw [h.columns, rowCount, h.rowCount] at htshape
  rw [ht', writtenTranspose?, ht]
  refine congrArg some (ext_entry htshape htshape' fun i hi j hj => ?_)
  have hvalue : bitValue (t'.entry i j) = bitValue (m.entry j i) :=
    congrFun (congrFun htmatrix ⟨i, hi⟩) ⟨j, hj⟩
  rw [bitValue_injective hvalue, Bool.eq_iff_iff, hentry]

/-! ### The laws -/

/-- Three matrices can be multiplied in both ways. -/
theorem mul?_assoc (ha : a.HasShape k l) (hb : b.HasShape l n) (hc : c.HasShape n p) :
    ∃ ab bc abc, a.mul? b = some ab ∧ b.mul? c = some bc ∧ ab.mul? c = some abc ∧
      a.mul? bc = some abc := by
  obtain ⟨ab, hab, habshape, habmatrix⟩ := exists_mul? ha hb
  obtain ⟨bc, hbc, hbcshape, hbcmatrix⟩ := exists_mul? hb hc
  obtain ⟨abc, habc, hshape, hmatrix⟩ := exists_mul? habshape hc
  refine ⟨ab, bc, abc, hab, hbc, habc, (mul?_eq_some_iff ha hbcshape).mpr ⟨hshape, ?_⟩⟩
  rw [hmatrix, habmatrix, hbcmatrix, Matrix.mul_assoc]

/-- A product of matrices acts on vectors as its factors do in turn. -/
theorem mulVec?_mul? (ha : a.HasShape k l) (hb : b.HasShape l n) (hv : v.length = n) :
    ∃ ab bv abv, a.mul? b = some ab ∧ b.mulVec? v = some bv ∧ ab.mulVec? v = some abv ∧
      a.mulVec? bv = some abv := by
  obtain ⟨ab, hab, habshape, habmatrix⟩ := exists_mul? ha hb
  obtain ⟨bv, hbv, hbvlength, hbvvec⟩ := exists_mulVec? hb hv
  obtain ⟨abv, habv, hlength, hvec⟩ := exists_mulVec? habshape hv
  refine ⟨ab, bv, abv, hab, hbv, habv, (mulVec?_eq_some_iff ha hbvlength).mpr ⟨hlength, ?_⟩⟩
  rw [hvec, habmatrix, hbvvec, Matrix.mulVec_mulVec]

/-- Transposing reverses a product. -/
theorem transpose?_mul? (ha : a.HasShape k l) (hb : b.HasShape l n) :
    ∃ ab ta tb t, a.mul? b = some ab ∧ a.transpose? = some ta ∧ b.transpose? = some tb ∧
      ab.transpose? = some t ∧ tb.mul? ta = some t := by
  obtain ⟨ab, hab, habshape, habmatrix⟩ := exists_mul? ha hb
  obtain ⟨ta, hta, htashape, htamatrix⟩ := exists_transpose? ha
  obtain ⟨tb, htb, htbshape, htbmatrix⟩ := exists_transpose? hb
  obtain ⟨t, ht, hshape, hmatrix⟩ := exists_transpose? habshape
  refine ⟨ab, ta, tb, t, hab, hta, htb, ht, (mul?_eq_some_iff htbshape htashape).mpr ⟨hshape, ?_⟩⟩
  rw [hmatrix, habmatrix, htamatrix, htbmatrix, Matrix.transpose_mul]

/-- Transposing twice gives the matrix back. -/
theorem transpose?_transpose? {t : BitMatrix} (h : m.HasShape r s) (ht : m.transpose? = some t) :
    t.transpose? = some m := by
  obtain ⟨hshape, hmatrix⟩ := (transpose?_eq_some_iff h).mp ht
  refine (transpose?_eq_some_iff hshape).mpr ⟨h, ?_⟩
  rw [hmatrix, Matrix.transpose_transpose]

/-- The identity matrix changes no matrix. -/
theorem identity_mul?_mul?_identity (h : m.HasShape r s) :
    (identity r).mul? m = some m ∧ m.mul? (identity s) = some m := by
  constructor
  · refine (mul?_eq_some_iff (hasShape_identity r) h).mpr ⟨h, ?_⟩
    rw [toMatrix_identity, Matrix.one_mul]
  · refine (mul?_eq_some_iff h (hasShape_identity s)).mpr ⟨h, ?_⟩
    rw [toMatrix_identity, Matrix.mul_one]

/-- The identity matrix changes no vector. -/
theorem identity_mulVec? (hv : v.length = n) : (identity n).mulVec? v = some v := by
  refine (mulVec?_eq_some_iff (hasShape_identity n) hv).mpr ⟨hv, ?_⟩
  rw [toMatrix_identity, Matrix.one_mulVec]

/-- A transpose with fewer than `2 ^ 32` rows can be stored. -/
theorem storedTranspose_eq (hcolumns : m.columns < 2 ^ 32) :
    m.storedTranspose = Result.ofOption m.transpose? := by
  have hroom : m.columns * Storage.rowSize ≤ Storage.limit := by
    simp only [Storage.rowSize, Storage.limit]
    omega
  rw [storedTranspose, Storage.rows, Storage.table, Result.require_eq_ok.mpr hroom, Result.ok_bind]

/-- **Products and transposes obey the laws of linear algebra** over the field with two elements,
for all shapes that fit, those without rows or columns among them. An entry of a product is a
parity; the product is associative, with itself and with the product with a vector; transposing
reverses products and undoes itself; identity matrices are neutral. Writing the bits one at a time
gives the transpose, and with fewer than `2 ^ 32` columns neither its storage nor the counting of
common bits meets a limit. -/
theorem products_obey_linear_algebra (ha : a.HasShape k l) (hb : b.HasShape l n)
    (hc : c.HasShape n p) (hv : v.length = n) :
    ∃ ab, a.mul? b = some ab ∧ ab.HasShape k n ∧
      (∀ i < k, ∀ j < n, ab.get? i j = some
        ({t ∈ Finset.range l | a.get? i t = some true ∧ b.get? t j = some true}.card % 2 == 1)) ∧
      (∃ bc abc, b.mul? c = some bc ∧ ab.mul? c = some abc ∧ a.mul? bc = some abc) ∧
      (∃ bv abv, b.mulVec? v = some bv ∧ ab.mulVec? v = some abv ∧ a.mulVec? bv = some abv) ∧
      (∃ ta tb tab, a.transpose? = some ta ∧ b.transpose? = some tb ∧ ab.transpose? = some tab ∧
        tb.mul? ta = some tab ∧ ta.transpose? = some a) ∧
      ((identity k).mul? a = some a ∧ a.mul? (identity l) = some a) ∧
      (identity n).mulVec? v = some v ∧
      a.writtenTranspose? = a.transpose? ∧
      (l < 2 ^ 32 → a.storedTranspose = Result.ofOption a.transpose?) ∧
      ∀ u w : BitVector, u.length < 2 ^ 32 → u.countedDot? w = u.dot? w := by
  obtain ⟨ab, bc, abc, hab, hbc, habc, habc'⟩ := mul?_assoc ha hb hc
  obtain ⟨_, bv, abv, hab₁, hbv, habv, habv'⟩ := mulVec?_mul? ha hb hv
  obtain ⟨_, ta, tb, tab, hab₂, hta, htb, htab, htab'⟩ := transpose?_mul? ha hb
  obtain rfl := Option.some.inj (hab.symm.trans hab₁)
  obtain rfl := Option.some.inj (hab.symm.trans hab₂)
  refine ⟨ab, hab, ((mul?_eq_some_iff ha hb).mp hab).1,
    fun i hi j hj => get?_of_mul? ha hb hab hi hj,
    ⟨bc, abc, hbc, habc, habc'⟩, ⟨bv, abv, hbv, habv, habv'⟩,
    ⟨ta, tb, tab, hta, htb, htab, htab', transpose?_transpose? ha hta⟩,
    identity_mul?_mul?_identity ha, identity_mulVec? hv, writtenTranspose?_eq ha,
    fun hl => storedTranspose_eq (ha.columns.symm ▸ hl), fun u w => BitVector.countedDot?_eq⟩

/-- Two rows of three bits. -/
def wideSample : BitMatrix :=
  ⟨3, [.ofList [true, true, false], .ofList [false, true, true]]⟩

/-- Three rows of two bits. -/
def tallSample : BitMatrix :=
  ⟨2, [.ofList [true, false], .ofList [true, true], .ofList [false, true]]⟩

/-- A product with an entry that two terms cancel, and one with a matrix without columns. -/
theorem products_obey_linear_algebra_of_sample :
    wideSample.HasShape 2 3 ∧ tallSample.HasShape 3 2 ∧ (zeros 2 0).HasShape 2 0 ∧
      ∃ ab, wideSample.mul? tallSample = some ab ∧ ab.get? 0 0 = some false ∧
        (∃ bc abc, tallSample.mul? (zeros 2 0) = some bc ∧ ab.mul? (zeros 2 0) = some abc ∧
          wideSample.mul? bc = some abc) ∧
        ∃ ta tb tab, wideSample.transpose? = some ta ∧ tallSample.transpose? = some tb ∧
          ab.transpose? = some tab ∧ tb.mul? ta = some tab ∧ ta.transpose? = some wideSample := by
  have hwide : wideSample.HasShape 2 3 := ⟨rfl, rfl, by decide⟩
  have htall : tallSample.HasShape 3 2 := ⟨rfl, rfl, by decide⟩
  have hempty : (zeros 2 0).HasShape 2 0 := hasShape_zeros 2 0
  obtain ⟨ab, hab, -, hentry, hassoc, -, htranspose, -⟩ :=
    products_obey_linear_algebra hwide htall hempty (BitVector.length_ones 2)
  refine ⟨hwide, htall, hempty, ab, hab, ?_, hassoc, htranspose⟩
  rw [hentry 0 (by omega) 0 (by omega)]
  decide +kernel

end BitMatrix

end AffinePhase
