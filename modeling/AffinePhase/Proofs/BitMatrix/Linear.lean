import AffinePhase.BitMatrix.Basic
import AffinePhase.Proofs.BitVector
import AffinePhase.Proofs.Result
import Mathlib

/-!
# Packed matrices as matrices over the field with two elements

A bit stands for `0` or `1` in `ZMod 2`, a packed vector for a vector and a packed matrix for a
matrix over `ZMod 2`. The products of packed vectors and matrices, which add rows selected by a
support or count common bits, are the products of linear algebra under this reading, and a packed
vector or matrix of a known shape is determined by what it stands for.

## Main definitions

* `bitValue`, `BitVector.toVec`, `BitMatrix.toMatrix`: the reading.
* `BitMatrix.HasShape`: a rectangular matrix with given numbers of rows and columns.
* `BitMatrix.column`: a column as a vector.

## Main results

* `BitMatrix.exists_addRow?`, `BitMatrix.exists_set?`: what adding a row into another one and
  setting an entry do to the entries.
* `BitMatrix.exists_mulVec?`, `BitMatrix.exists_mul?`: products of fitting shapes exist and are the
  products of linear algebra.
* `BitMatrix.of_mul?`: any product that succeeds is that of linear algebra.
* `BitMatrix.exists_transpose?`: the transpose exists and is that of linear algebra.
* `BitMatrix.mul?_eq_some_iff`, `BitMatrix.mulVec?_eq_some_iff`, `BitMatrix.transpose?_eq_some_iff`:
  which matrix or vector it is.
* `BitVector.toVec_injective`, `BitMatrix.toMatrix_injective`: the reading loses nothing.
-/

namespace AffinePhase

/-- A bit as an element of the field with two elements. -/
def bitValue (b : Bool) : ZMod 2 := if b then 1 else 0

@[simp] theorem bitValue_true : bitValue true = 1 := rfl

@[simp] theorem bitValue_false : bitValue false = 0 := rfl

/-- The exclusive or is the sum. -/
@[simp] theorem bitValue_xor (a b : Bool) : bitValue (a ^^ b) = bitValue a + bitValue b := by
  revert a b; decide

/-- The conjunction is the product. -/
@[simp] theorem bitValue_and (a b : Bool) : bitValue (a && b) = bitValue a * bitValue b := by
  revert a b; decide

/-- A bit is determined by its value. -/
theorem bitValue_injective {a b : Bool} (h : bitValue a = bitValue b) : a = b := by
  revert a b; decide

/-- The parity of a number is the number modulo two. -/
theorem bitValue_parity (k : ℕ) : bitValue (k % 2 == 1) = (k : ZMod 2) := by
  rcases Nat.mod_two_eq_zero_or_one k with h | h
  · rw [h, ← ZMod.natCast_mod k 2, h]
    rfl
  · rw [h, ← ZMod.natCast_mod k 2, h]
    rfl

/-- A sum over the selected indices below a bound, as a sum over all of them. -/
theorem sum_selected {M : Type*} [AddCommMonoid M] (n : ℕ) (p : ℕ → Bool) (f : ℕ → M) :
    (((List.range n).filter p).map f).sum = ∑ i ∈ Finset.range n, if p i then f i else 0 := by
  rw [← List.sum_toFinset f (List.nodup_range.filter _), List.toFinset_filter, List.toFinset_range,
    Finset.sum_filter]

namespace BitVector

variable {v w : BitVector}

/-- The vector over the field with two elements that a packed vector stands for. -/
def toVec (n : ℕ) (v : BitVector) : Fin n → ZMod 2 := fun i => bitValue (v.bit i)

/-- Vectors of the same length are determined by their values. -/
theorem toVec_injective {n : ℕ} (hv : v.length = n) (hw : w.length = n)
    (h : v.toVec n = w.toVec n) : v = w := by
  refine ext_bits (hv.trans hw.symm) fun i hi => ?_
  exact bitValue_injective (congrFun h ⟨i, hv ▸ hi⟩)

/-- The sum of two vectors has the sum of the values. -/
theorem toVec_of_xor? {u : BitVector} (n : ℕ) (h : v.xor? w = some u) :
    u.toVec n = v.toVec n + w.toVec n := by
  funext i
  rw [Pi.add_apply, toVec, toVec, toVec, bit_of_xor? h, bitValue_xor]

/-- Vectors of the same length can be added. -/
theorem exists_xor? (h : v.length = w.length) : ∃ u, v.xor? w = some u := by
  rw [xor?, dif_pos h]
  exact ⟨_, rfl⟩

/-- **A parity is an inner product** over the field with two elements. -/
theorem bitValue_parityAt {n : ℕ} (hn : v.length ≤ n) (x : ℕ → Bool) :
    bitValue (v.parityAt x) = ∑ i ∈ Finset.range n, bitValue (v.bit i) * bitValue (x i) := by
  have hcount : ∀ l : List ℕ, (l.countP x : ZMod 2) = (l.map fun i => bitValue (x i)).sum := by
    intro l
    induction l with
    | nil => rfl
    | cons i l ih =>
        rw [List.countP_cons, Nat.cast_add, ih, List.map_cons, List.sum_cons, add_comm]
        cases x i <;> simp
  rw [parityAt, bitValue_parity, v.support_eq_filter hn, hcount, sum_selected]
  refine Finset.sum_congr rfl fun i _ => ?_
  cases v.bit i <;> simp

/-- The same inner product, with vectors indexed by their finite type. -/
theorem bitValue_parityAt_bit {n : ℕ} (hn : v.length ≤ n) :
    bitValue (v.parityAt w.bit) = v.toVec n ⬝ᵥ w.toVec n := by
  rw [bitValue_parityAt hn, Finset.sum_range]
  rfl

end BitVector

namespace BitMatrix

variable {a b m : BitMatrix} {r c k n : ℕ}

/-- A rectangular matrix with `r` rows and `c` columns. -/
structure HasShape (m : BitMatrix) (r c : ℕ) : Prop where
  /-- There are `r` rows. -/
  rowCount : m.rows.length = r
  /-- There are `c` columns. -/
  columns : m.columns = c
  /-- Every row has as many bits as there are columns. -/
  rectangular : m.IsRectangular

/-- A rectangular matrix has the shape that its rows and columns say. -/
theorem IsRectangular.hasShape (h : m.IsRectangular) : m.HasShape m.rows.length m.columns :=
  ⟨rfl, rfl, h⟩

theorem HasShape.length_row (h : m.HasShape r c) {i : ℕ} {row : BitVector}
    (hi : m.rows[i]? = some row) : row.length = c :=
  (h.rectangular row (List.mem_of_getElem? hi)).trans h.columns

/-- There is a row for each index below the number of rows. -/
theorem HasShape.exists_row (h : m.HasShape r c) {i : ℕ} (hi : i < r) :
    ∃ row, m.rows[i]? = some row :=
  ⟨_, List.getElem?_eq_getElem (h.rowCount ▸ hi)⟩

/-- A matrix is square exactly if there are as many rows as columns. -/
theorem HasShape.isSquare_iff (h : m.HasShape r c) : m.isSquare = true ↔ r = c := by
  rw [isSquare, BitMatrix.rowCount, h.rowCount, h.columns, beq_iff_eq]

/-- The matrix over the field with two elements that a packed matrix stands for. -/
def toMatrix (r c : ℕ) (m : BitMatrix) : Matrix (Fin r) (Fin c) (ZMod 2) :=
  fun i j => bitValue (m.entry i j)

/-- The entries of a row are its bits. -/
theorem entry_eq_bit {i : ℕ} {row : BitVector} (h : m.rows[i]? = some row) (j : ℕ) :
    m.entry i j = row.bit j := by
  rw [entry, h]
  rfl

/-- A column past the last one has no entries. -/
theorem HasShape.entry_eq_false (h : m.HasShape r c) {i j : ℕ} (hj : c ≤ j) :
    m.entry i j = false := by
  cases hi : m.rows[i]? with
  | none => rw [entry, hi]; rfl
  | some row => rw [entry_eq_bit hi, row.bit_eq_false ((h.length_row hi).trans_le hj)]

/-- An entry inside the matrix is stored. -/
theorem HasShape.get?_eq (h : m.HasShape r c) {i j : ℕ} (hi : i < r) (hj : j < c) :
    m.get? i j = some (m.entry i j) := by
  obtain ⟨row, hrow⟩ := h.exists_row hi
  rw [get?, hrow, entry_eq_bit hrow]
  exact row.get?_eq_some ((h.length_row hrow).symm ▸ hj)

/-- A row over the field has the values of the packed row. -/
theorem row_toMatrix {i : ℕ} {row : BitVector} (hi : m.rows[i]? = some row) (hir : i < r) :
    (m.toMatrix r c).row ⟨i, hir⟩ = row.toVec c := by
  funext j
  rw [Matrix.row, toMatrix, entry_eq_bit hi, BitVector.toVec]

/-- A matrix of a given shape is determined by its entries. -/
theorem ext_entry (ha : a.HasShape r c) (hb : b.HasShape r c)
    (h : ∀ i < r, ∀ j < c, a.entry i j = b.entry i j) : a = b := by
  have hrows : a.rows = b.rows := by
    refine List.ext_getElem (ha.rowCount.trans hb.rowCount.symm) fun i hi hi' => ?_
    have hai := List.getElem?_eq_getElem hi
    have hbi := List.getElem?_eq_getElem hi'
    refine BitVector.ext_bits ((ha.length_row hai).trans (hb.length_row hbi).symm) fun j hj => ?_
    rw [← entry_eq_bit hai, ← entry_eq_bit hbi]
    exact h i (ha.rowCount ▸ hi) j (ha.length_row hai ▸ hj)
  have hcolumns : a.columns = b.columns := ha.columns.trans hb.columns.symm
  cases a; cases b; simp_all

/-- Matrices of the same shape are determined by their values. -/
theorem toMatrix_injective (ha : a.HasShape r c) (hb : b.HasShape r c)
    (h : a.toMatrix r c = b.toMatrix r c) : a = b :=
  ext_entry ha hb fun i hi j hj =>
    bitValue_injective (congrFun (congrFun h ⟨i, hi⟩) ⟨j, hj⟩)

/-! ### The identity -/

theorem hasShape_identity (n : ℕ) : (identity n).HasShape n n :=
  ⟨by rw [identity, List.length_map, List.length_range], rfl, isRectangular_identity n⟩

/-- The identity matrix is the unit matrix over the field. -/
theorem toMatrix_identity (n : ℕ) : (identity n).toMatrix n n = 1 := by
  funext i j
  rw [toMatrix, entry_identity i.isLt, Matrix.one_apply]
  by_cases h : i = j
  · rw [if_pos h, h, decide_eq_true rfl]
    rfl
  · rw [if_neg h, decide_eq_false fun h' => h (Fin.ext h')]
    rfl

/-! ### Changing a row -/

/-- A matrix stays rectangular when a row is replaced by one of the right length. -/
theorem IsRectangular.set (h : m.IsRectangular) (i : ℕ) {row : BitVector}
    (hrow : row.length = m.columns) :
    IsRectangular { m with rows := m.rows.set i row } := by
  intro row' hmem
  rcases List.mem_or_eq_of_mem_set hmem with hold | rfl
  · exact h row' hold
  · exact hrow

/-- Replacing a row by one of the same length keeps the shape. -/
theorem HasShape.set (h : m.HasShape r c) (i : ℕ) {row : BitVector} (hrow : row.length = c) :
    HasShape { m with rows := m.rows.set i row } r c :=
  ⟨by rw [List.length_set, h.rowCount], h.columns,
    h.rectangular.set i (hrow.trans h.columns.symm)⟩

/-- Only the entries of the replaced row change. -/
theorem HasShape.entry_set (h : m.HasShape r c) {k : ℕ} (hk : k < r) (row : BitVector) (i j : ℕ) :
    entry { m with rows := m.rows.set k row } i j = if i = k then row.bit j else m.entry i j := by
  split
  · rename_i hi
    subst hi
    exact entry_eq_bit (List.getElem?_set_self (h.rowCount.symm ▸ hk)) j
  · rename_i hi
    rw [entry, entry, List.getElem?_set_ne (Ne.symm hi)]

/-- **A row can be added into another one.** Only the entries of that row change. -/
theorem exists_addRow? {source target : ℕ} (h : m.HasShape r c) (hs : source < r)
    (ht : target < r) (hne : source ≠ target) :
    ∃ sum, m.addRow? source target = some sum ∧ sum.HasShape r c ∧
      ∀ i j, sum.entry i j = (m.entry i j ^^ (decide (i = target) && m.entry source j)) := by
  obtain ⟨added, hadded⟩ := h.exists_row hs
  obtain ⟨row, hrow⟩ := h.exists_row ht
  obtain ⟨sum, hsum⟩ := BitVector.exists_xor? ((h.length_row hrow).trans (h.length_row hadded).symm)
  have hlength : sum.length = c := (BitVector.length_of_xor? hsum).trans (h.length_row hrow)
  refine ⟨{ m with rows := m.rows.set target sum }, ?_, h.set target hlength, fun i j => ?_⟩
  · simp [addRow?, hne, hadded, hrow, hsum]
  · rw [h.entry_set ht]
    split
    · rename_i hi
      rw [hi, BitVector.bit_of_xor? hsum, entry_eq_bit hrow, entry_eq_bit hadded]
      simp
    · rename_i hi
      rw [decide_eq_false hi, Bool.false_and, Bool.xor_false]

/-- **An entry can be set.** No other entry changes. -/
theorem exists_set? {k l : ℕ} (h : m.HasShape r c) (hk : k < r) (hl : l < c) (b : Bool) :
    ∃ changed, m.set? k l b = some changed ∧ changed.HasShape r c ∧
      ∀ i j, changed.entry i j = if i = k ∧ j = l then b else m.entry i j := by
  obtain ⟨row, hrow⟩ := h.exists_row hk
  obtain ⟨u, hu, hlength, hbits⟩ := BitVector.exists_set? ((h.length_row hrow).symm ▸ hl) b
  refine ⟨{ m with rows := m.rows.set k u }, ?_, h.set k (hlength.trans (h.length_row hrow)),
    fun i j => ?_⟩
  · simp [set?, hrow, hu]
  · rw [h.entry_set hk]
    by_cases hi : i = k
    · subst hi
      rw [if_pos rfl, hbits, entry_eq_bit hrow]
      simp only [true_and, eq_comm]
    · simp [hi]

/-! ### Products -/

/-- The product with a vector of fitting length lists the parities of the rows. -/
theorem mulVec?_eq_some (h : m.HasShape r c) {v : BitVector} (hv : v.length = c) :
    m.mulVec? v = some (BitVector.ofList (m.rows.map fun row => row.parityAt v.bit)) := by
  have hrows : ∀ l : List BitVector, (∀ row ∈ l, row.length = v.length) →
      l.mapM (fun row => row.dot? v) = some (l.map fun row => row.parityAt v.bit) := by
    intro l hl
    induction l with
    | nil => rfl
    | cons row l ih =>
        rw [List.mapM_cons, BitVector.dot?_eq_some (hl row List.mem_cons_self),
          ih fun row' h' => hl row' (List.mem_cons_of_mem row h')]
        rfl
  rw [mulVec?, hrows m.rows fun row hrow => by rw [h.rectangular row hrow, h.columns, hv]]
  simp [hv, h.columns]

/-- A bit of a product with a vector is the parity that the row selects. -/
theorem bit_mulVec (m : BitMatrix) (x : ℕ → Bool) {i : ℕ} {row : BitVector}
    (hi : m.rows[i]? = some row) :
    (BitVector.ofList (m.rows.map fun row => row.parityAt x)).bit i = row.parityAt x := by
  rw [BitVector.bit_ofList, List.getElem?_map, hi]
  rfl

/-- **The product with a vector** of fitting length is that of linear algebra. -/
theorem exists_mulVec? (h : m.HasShape r c) {v : BitVector} (hv : v.length = c) :
    ∃ u, m.mulVec? v = some u ∧ u.length = r ∧
      u.toVec r = (m.toMatrix r c).mulVec (v.toVec c) := by
  refine ⟨_, mulVec?_eq_some h hv, by rw [BitVector.length_ofList, List.length_map, h.rowCount], ?_⟩
  funext i
  obtain ⟨row, hi⟩ := h.exists_row i.isLt
  rw [BitVector.toVec, bit_mulVec m v.bit hi,
    BitVector.bitValue_parityAt_bit (h.length_row hi).le]
  refine congrArg (· ⬝ᵥ v.toVec c) (funext fun j => ?_)
  rw [BitVector.toVec, toMatrix, entry_eq_bit hi]

/-- Adding up selected rows, if it succeeds, adds up the entries of each column; all rows are as
long as the sum. -/
theorem bits_of_foldlM_rows {l : List ℕ} {sum u : BitVector}
    (h : l.foldlM (fun sum i => do sum.xor? (← m.row? i)) sum = some u) :
    (∀ i ∈ l, ∃ row, m.rows[i]? = some row ∧ row.length = sum.length) ∧
      u.length = sum.length ∧
      ∀ j, bitValue (u.bit j) =
        bitValue (sum.bit j) + (l.map fun i => bitValue (m.entry i j)).sum := by
  induction l generalizing sum with
  | nil =>
      obtain rfl := Option.some.inj h
      exact ⟨List.forall_mem_nil _, rfl, fun j => (add_zero _).symm⟩
  | cons i l ih =>
      rw [List.foldlM_cons] at h
      obtain ⟨next, hnext, h⟩ := Option.bind_eq_some_iff.mp h
      obtain ⟨row, hrow, hnext⟩ := Option.bind_eq_some_iff.mp hnext
      obtain ⟨hrows, hlength, hbits⟩ := ih h
      have hnlength : next.length = sum.length := BitVector.length_of_xor? hnext
      have hsame : row.length = sum.length := BitVector.length_eq_of_xor? hnext
      refine ⟨List.forall_mem_cons.mpr ⟨⟨row, hrow, hsame⟩, hnlength ▸ hrows⟩,
        hlength.trans hnlength, fun j => ?_⟩
      rw [hbits, BitVector.bit_of_xor? hnext, bitValue_xor, List.map_cons, List.sum_cons,
        entry_eq_bit hrow, add_assoc]

/-- Rows that exist and are as long as the sum can be added up. -/
theorem exists_foldlM_rows (h : m.HasShape r c) {l : List ℕ} {sum : BitVector}
    (hl : ∀ i ∈ l, i < r) (hsum : sum.length = c) :
    ∃ u, l.foldlM (fun sum i => do sum.xor? (← m.row? i)) sum = some u := by
  induction l generalizing sum with
  | nil => exact ⟨sum, rfl⟩
  | cons i l ih =>
      obtain ⟨hi, hl⟩ := List.forall_mem_cons.mp hl
      obtain ⟨row, hrow⟩ := h.exists_row hi
      obtain ⟨next, hnext⟩ := BitVector.exists_xor? (hsum.trans (h.length_row hrow).symm)
      obtain ⟨u, hu⟩ := ih hl ((BitVector.length_of_xor? hnext).trans hsum)
      refine ⟨u, ?_⟩
      rw [List.foldlM_cons, row?, hrow]
      simpa [hnext] using hu

/-- A row vector times a matrix, if it succeeds, is that of linear algebra; the rows that it adds up
are as long as there are columns. -/
theorem of_rowMul? {row u : BitVector} (h : rowMul? row m = some u) :
    (∀ i ∈ row.support, ∃ row', m.rows[i]? = some row' ∧ row'.length = m.columns) ∧
      u.length = m.columns ∧
      ∀ r c, row.length ≤ r → u.toVec c = Matrix.vecMul (row.toVec r) (m.toMatrix r c) := by
  obtain ⟨hrows, hlength, hbits⟩ := bits_of_foldlM_rows h
  refine ⟨hrows, hlength, fun r c hr => funext fun j => ?_⟩
  rw [BitVector.toVec, hbits, BitVector.bit_zeros, bitValue_false, zero_add,
    row.support_eq_filter hr, sum_selected, Finset.sum_range]
  refine Finset.sum_congr rfl fun i _ => ?_
  show (if row.bit i then bitValue (m.entry i j) else 0) =
    bitValue (row.bit i) * bitValue (m.entry i j)
  cases row.bit i <;> simp

/-- A row vector can be multiplied by a matrix of fitting shape. -/
theorem exists_rowMul? (h : m.HasShape r c) {row : BitVector} (hrow : row.length = r) :
    ∃ u, rowMul? row m = some u :=
  exists_foldlM_rows h (fun _ hi => hrow ▸ BitVector.lt_of_mem_support hi) h.columns

/-- **A product that succeeds** is that of linear algebra. It uses the rows of the second matrix at
which the first one has an entry, and these are as long as there are columns. -/
theorem of_mul? {p : BitMatrix} (ha : a.HasShape r k) (h : a.mul? b = some p) :
    b.rows.length = k ∧ p.HasShape r b.columns ∧
      (∀ c, p.toMatrix r c = a.toMatrix r k * b.toMatrix k c) ∧
      ∀ i j, a.entry i j = true → ∃ row, b.rows[j]? = some row ∧ row.length = b.columns := by
  obtain ⟨_, hguard, h⟩ := Option.bind_eq_some_iff.mp h
  obtain ⟨rows, hrows, h⟩ := Option.bind_eq_some_iff.mp h
  obtain rfl := Option.some.inj h
  have hfits : a.columns = b.rows.length := (Option.guard_eq_some' _).mp hguard
  have hall := Result.forall₂_of_mapM hrows
  have hcount : rows.length = r := hall.length_eq.symm.trans ha.rowCount
  have hlength : ∀ u ∈ rows, u.length = b.columns :=
    Result.forall_mem_of_mapM (fun _ _ _ hu => (of_rowMul? hu).2.1) hrows
  refine ⟨hfits.symm.trans ha.columns, ⟨hcount, rfl, hlength⟩, fun c => ?_, fun i j hij => ?_⟩
  · funext i
    have hi : (i : ℕ) < rows.length := hcount ▸ i.isLt
    have hi' : (i : ℕ) < a.rows.length := ha.rowCount ▸ i.isLt
    have hai := List.getElem?_eq_getElem hi'
    have hvec := (of_rowMul? (hall.get hi' hi)).2.2 k c (ha.length_row hai).le
    have hai' : (a.toMatrix r k).row i = a.rows[i].toVec k := row_toMatrix hai i.isLt
    have hpi : (toMatrix r c ⟨b.columns, rows⟩).row i = rows[i].toVec c :=
      row_toMatrix (List.getElem?_eq_getElem hi) i.isLt
    rw [Matrix.mul_apply_eq_vecMul]
    exact hpi.trans (hvec.trans (congrArg (Matrix.vecMul · (b.toMatrix k c)) hai'.symm))
  · cases hi : a.rows[i]? with
    | none =>
        rw [entry, hi] at hij
        cases hij
    | some row =>
        obtain ⟨hlt, rfl⟩ := List.getElem?_eq_some_iff.mp hi
        rw [entry_eq_bit hi] at hij
        have hlt' : i < rows.length := hall.length_eq ▸ hlt
        exact (of_rowMul? (hall.get hlt hlt')).1 j (BitVector.mem_support.mpr hij)

/-- **The product of matrices** of fitting shapes exists and is that of linear algebra. -/
theorem exists_mul? (ha : a.HasShape r k) (hb : b.HasShape k c) :
    ∃ p, a.mul? b = some p ∧ p.HasShape r c ∧
      p.toMatrix r c = a.toMatrix r k * b.toMatrix k c := by
  obtain ⟨rows, hrows, -⟩ := Result.mapM_of_forall (m := Option) (l := a.rows)
    (f := fun row => rowMul? row b) (P := fun _ _ => True) fun row hrow => by
      obtain ⟨u, hu⟩ := exists_rowMul? hb ((ha.rectangular row hrow).trans ha.columns)
      exact ⟨u, hu, trivial⟩
  have hp : a.mul? b = some ⟨b.columns, rows⟩ := by
    rw [mul?, hrows]
    simp [ha.columns, rowCount, hb.rowCount]
  obtain ⟨-, hshape, hmatrix, -⟩ := of_mul? ha hp
  exact ⟨_, hp, hb.columns ▸ hshape, hmatrix c⟩

/-- The product with a vector is determined by that of linear algebra. -/
theorem mulVec?_eq_some_iff (h : m.HasShape r c) {v u : BitVector} (hv : v.length = c) :
    m.mulVec? v = some u ↔ u.length = r ∧ u.toVec r = (m.toMatrix r c).mulVec (v.toVec c) :=
  Result.eq_some_iff_of_unique (exists_mulVec? h hv) fun hu hu' =>
    BitVector.toVec_injective hu.1 hu'.1 (hu.2.trans hu'.2.symm)

/-- The product of matrices is determined by that of linear algebra. -/
theorem mul?_eq_some_iff {p : BitMatrix} (ha : a.HasShape r k) (hb : b.HasShape k c) :
    a.mul? b = some p ↔ p.HasShape r c ∧ p.toMatrix r c = a.toMatrix r k * b.toMatrix k c :=
  Result.eq_some_iff_of_unique (exists_mul? ha hb) fun hp hp' =>
    toMatrix_injective hp.1 hp'.1 (hp.2.trans hp'.2.symm)

/-! ### Columns and the transpose -/

/-- Column `j`, with a bit for each row. -/
def column (m : BitMatrix) (j : ℕ) : BitVector :=
  BitVector.ofList (m.rows.map fun row => row.bit j)

/-- A column has as many bits as there are rows. -/
theorem HasShape.length_column (h : m.HasShape r c) (j : ℕ) : (m.column j).length = r := by
  rw [column, BitVector.length_ofList, List.length_map, h.rowCount]

/-- The bits of a column are entries. -/
theorem bit_column (m : BitMatrix) (i j : ℕ) : (m.column j).bit i = m.entry i j := by
  rw [column, BitVector.bit_ofList, List.getElem?_map, entry]

/-- A column over the field has the values of the packed column. -/
theorem toVec_column (m : BitMatrix) (j : Fin c) :
    (m.column j).toVec r = (m.toMatrix r c).col j := by
  funext i
  rw [BitVector.toVec, bit_column, Matrix.col, Matrix.transpose_apply, toMatrix]

/-- **The transpose** of a matrix, its columns as rows. -/
theorem exists_transpose? (h : m.HasShape r c) :
    ∃ t, m.transpose? = some t ∧ t.HasShape c r ∧ t.toMatrix c r = (m.toMatrix r c).transpose := by
  have hsupport : ∀ row ∈ m.rows, ∀ j ∈ row.support, j < m.columns := fun row hrow j hj =>
    h.rectangular row hrow ▸ BitVector.lt_of_mem_support hj
  refine ⟨⟨m.rowCount, (List.range m.columns).map m.column⟩, if_pos hsupport,
    ⟨by simp [h.columns], h.rowCount, ?_⟩, ?_⟩
  · intro row hrow
    obtain ⟨j, -, rfl⟩ := List.mem_map.mp hrow
    rw [h.length_column, rowCount, h.rowCount]
  · funext i j
    have hi : ((List.range m.columns).map m.column)[(i : ℕ)]? = some (m.column i) := by
      simp [h.columns]
    rw [toMatrix, entry_eq_bit hi, bit_column, Matrix.transpose_apply, toMatrix]

/-- The transpose is determined by that of linear algebra. -/
theorem transpose?_eq_some_iff {t : BitMatrix} (h : m.HasShape r c) :
    m.transpose? = some t ↔ t.HasShape c r ∧ t.toMatrix c r = (m.toMatrix r c).transpose :=
  Result.eq_some_iff_of_unique (exists_transpose? h) fun ht ht' =>
    toMatrix_injective ht.1 ht'.1 (ht.2.trans ht'.2.symm)

end BitMatrix

end AffinePhase
