import AffinePhase.BitVector.Basic

/-!
# Matrices over the field with two elements

A `BitMatrix` is a number of columns and a list of packed rows. A matrix is *rectangular* when
every row has exactly as many bits as there are columns. All constructors of this module give
rectangular matrices, with one exception: `BitMatrix.setRow?` stores any row, so that a matrix
can be left uneven. Operations that meet a row of the wrong length answer `none`, as they do for
an index out of range.

A matrix times a vector is the list of inner products with the rows. A row times a matrix is the
sum of the rows that its support selects, so a product of matrices is computed row by row. A
block sum puts matrices along the diagonal and zeros elsewhere.

## Main definitions

* `BitMatrix.entry`: the entry view, `false` outside the matrix.
* `BitMatrix.IsRectangular`: every row has as many bits as there are columns.
* `BitMatrix.ofRows?`, `BitMatrix.zeros`, `BitMatrix.identity`: construction.
* `BitMatrix.addRow?`, `BitMatrix.swapRows?`: elementary row operations.
* `BitMatrix.mul?`, `BitMatrix.mulVec?`: the two products.
* `BitMatrix.transpose?`: rows and columns exchanged.
* `BitMatrix.blockSum?`: the block-diagonal sum of a list of matrices.
-/

namespace AffinePhase

/-- A matrix of bits, stored as packed rows. -/
structure BitMatrix where
  /-- The number of columns. -/
  columns : Nat
  /-- The rows, first row first. -/
  rows : List BitVector
  deriving DecidableEq

namespace BitMatrix

/-- Every row has as many bits as the matrix has columns. -/
def IsRectangular (m : BitMatrix) : Prop :=
  ∀ row ∈ m.rows, row.length = m.columns

instance (m : BitMatrix) : Decidable m.IsRectangular :=
  inferInstanceAs (Decidable (∀ row ∈ m.rows, row.length = m.columns))

/-- The entry in row `i` and column `j`, `false` outside the matrix. -/
def entry (m : BitMatrix) (i j : Nat) : Bool :=
  (m.rows[i]?.map fun row => row.bit j).getD false

/-- The number of rows. -/
def rowCount (m : BitMatrix) : Nat :=
  m.rows.length

/-! ### Construction -/

/-- The zero matrix. -/
def zeros (rowCount columns : Nat) : BitMatrix :=
  ⟨columns, List.replicate rowCount (BitVector.zeros columns)⟩

/-- The identity matrix: row `i` is the unit vector with bit `i` set. -/
def identity (n : Nat) : BitMatrix :=
  ⟨n, (List.range n).map (BitVector.zeros n).flip⟩

/-- The matrix with the given rows, `none` if a row does not have `columns` bits. -/
def ofRows? (rows : List BitVector) (columns : Nat) : Option BitMatrix :=
  if ∀ row ∈ rows, row.length = columns then some ⟨columns, rows⟩ else none

/-- The matrix with the given rows of bits, `none` if a row does not have `columns` bits. -/
def ofLists? (rows : List (List Bool)) (columns : Nat) : Option BitMatrix :=
  ofRows? (rows.map BitVector.ofList) columns

/-! ### Rows and entries -/

/-- Row `i`, `none` past the last row. -/
def row? (m : BitMatrix) (i : Nat) : Option BitVector :=
  m.rows[i]?

/-- The matrix with row `i` replaced, `none` past the last row. The new row may have any
length. -/
def setRow? (m : BitMatrix) (i : Nat) (row : BitVector) : Option BitMatrix :=
  if i < m.rows.length then some { m with rows := m.rows.set i row } else none

/-- The stored bit `j` of row `i`, `none` if there is no such bit. -/
def get? (m : BitMatrix) (i j : Nat) : Option Bool :=
  m.rows[i]?.bind (·.get? j)

/-- The matrix with bit `j` of row `i` set to `b`, `none` if there is no such bit. -/
def set? (m : BitMatrix) (i j : Nat) (b : Bool) : Option BitMatrix := do
  let row ← m.rows[i]?
  let changed ← row.set? j b
  some { m with rows := m.rows.set i changed }

/-! ### Elementary row operations -/

/-- Adds row `source` into row `target`, `none` if the two are the same row, if there is no such
row, or if the two rows differ in length. -/
def addRow? (m : BitMatrix) (source target : Nat) : Option BitMatrix := do
  guard (source ≠ target)
  let added ← m.rows[source]?
  let row ← m.rows[target]?
  let sum ← row.xor? added
  some { m with rows := m.rows.set target sum }

/-- A list with the elements at two positions exchanged, `none` past the end. -/
def exchange? (rows : List BitVector) (first second : Nat) : Option (List BitVector) := do
  let a ← rows[first]?
  let b ← rows[second]?
  some ((rows.set first b).set second a)

/-- Exchanges two rows, `none` past the last row. -/
def swapRows? (m : BitMatrix) (first second : Nat) : Option BitMatrix :=
  (exchange? m.rows first second).map fun rows => { m with rows := rows }

/-! ### Tests -/

/-- Whether there are as many rows as columns. -/
def isSquare (m : BitMatrix) : Bool :=
  m.rowCount == m.columns

/-- Whether no bit is set in any row. -/
def isZero (m : BitMatrix) : Bool :=
  m.rows.all BitVector.isZero

/-- Whether the matrix is an identity matrix. -/
def isIdentity (m : BitMatrix) : Bool :=
  m.isSquare && m == identity m.columns

/-! ### Products, transposes and block sums -/

/-- The product of the row vector `row` with `m`: the sum of the rows of `m` at the support of
`row`. -/
def rowMul? (row : BitVector) (m : BitMatrix) : Option BitVector :=
  row.support.foldlM (fun sum i => do sum.xor? (← m.row? i)) (BitVector.zeros m.columns)

/-- The matrix product, `none` unless the first has as many columns as the second has rows. -/
def mul? (a b : BitMatrix) : Option BitMatrix := do
  guard (a.columns = b.rowCount)
  let rows ← a.rows.mapM fun row => rowMul? row b
  some ⟨b.columns, rows⟩

/-- The product with a column vector, `none` unless it has as many bits as there are columns. -/
def mulVec? (m : BitMatrix) (v : BitVector) : Option BitVector := do
  guard (v.length = m.columns)
  let bits ← m.rows.mapM fun row => row.dot? v
  some (BitVector.ofList bits)

/-- The transpose, `none` if a row has a bit set past the last column. -/
def transpose? (m : BitMatrix) : Option BitMatrix :=
  if ∀ row ∈ m.rows, ∀ j ∈ row.support, j < m.columns then
    some ⟨m.rowCount, (List.range m.columns).map fun j =>
      BitVector.ofList (m.rows.map fun row => row.bit j)⟩
  else
    none

/-- The rows of matrices placed side by side from column `offset` on, in `total` columns. -/
def blockRows? (total : Nat) : Nat → List BitMatrix → Option (List BitVector)
  | _, [] => some []
  | offset, m :: ms => do
      let placed ← m.rows.mapM fun row => row.place? offset total
      let rest ← blockRows? total (offset + m.columns) ms
      some (placed ++ rest)

/-- The block-diagonal sum, `none` if a row does not fit. -/
def blockSum? (ms : List BitMatrix) : Option BitMatrix :=
  let total := (ms.map columns).foldr (· + ·) 0
  (blockRows? total 0 ms).map fun rows => ⟨total, rows⟩

/-! ### The constructed matrices are rectangular -/

/-- The zero matrix is rectangular. -/
theorem isRectangular_zeros (r c : Nat) : (zeros r c).IsRectangular := by
  intro row h
  rw [List.eq_of_mem_replicate h]
  rfl

/-- The identity matrix is rectangular. -/
theorem isRectangular_identity (n : Nat) : (identity n).IsRectangular := by
  intro row h
  obtain ⟨i, -, rfl⟩ := List.mem_map.mp h
  rw [BitVector.length_flip]
  rfl

/-- Rows of different lengths are refused. -/
theorem isRectangular_of_ofRows? {rows : List BitVector} {columns : Nat} {m : BitMatrix}
    (h : ofRows? rows columns = some m) : m.IsRectangular := by
  unfold ofRows? at h
  split at h
  · rename_i hlength
    obtain rfl := Option.some.inj h
    exact hlength
  · cases h

/-- The zero matrix has no bit set. -/
theorem entry_zeros (r c i j : Nat) : (zeros r c).entry i j = false := by
  unfold entry zeros
  rw [List.getElem?_replicate]
  split <;> simp

/-- The identity matrix has the bits of its diagonal set. -/
theorem entry_identity {n i : Nat} (h : i < n) (j : Nat) :
    (identity n).entry i j = decide (i = j) := by
  unfold entry identity
  rw [List.getElem?_map, List.getElem?_range h]
  simp [BitVector.bit_flip, h]

end BitMatrix

end AffinePhase
