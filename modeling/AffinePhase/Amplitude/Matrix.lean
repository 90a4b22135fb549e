import AffinePhase.Amplitude.Basic
import AffinePhase.Element.Synthesis

/-!
# Dense matrices of amplitudes

A square matrix of amplitudes, row after row. The entry in row `r` and column `c` of a matrix of
dimension `d` is addressed as number `r · d + c`; a column index past the end of a row therefore
continues in the next row, and only an address past the end of the matrix is refused.

A circuit on `n` qubits acts on the `2ⁿ` basis states, each of which it sends to a basis state
times a power of `ω`. Its matrix has this power in the column of the first and the row of the
second, so each column has one entry.

## Main definitions

* `AmplitudeMatrix.get?`, `AmplitudeMatrix.set?`: single entries.
* `AmplitudeMatrix.transpose`, `AmplitudeMatrix.conjugate`, `AmplitudeMatrix.adjoint`.
* `AmplitudeMatrix.mul?`: the product.
* `AmplitudeMatrix.isClose`, `AmplitudeMatrix.isCloseUpToPhase`, `AmplitudeMatrix.isUnitary`:
  comparison within the tolerance.
* `AmplitudeMatrix.ofCircuit`: the matrix of a circuit.
* `AmplitudeMatrix.ofElement`: the matrix of a group element, by way of a circuit.
* `AmplitudeMatrix.printedEntries`: the entries that are not printed as zero.
-/

namespace AffinePhase

/-- A square matrix of amplitudes. -/
structure AmplitudeMatrix where
  /-- The number of rows and of columns. -/
  dimension : Nat
  /-- The entries, row after row. -/
  entries : Array Amplitude

namespace AmplitudeMatrix

/-- The matrix with the given entries. -/
def ofFunction (d : Nat) (entry : Nat → Nat → Amplitude) : AmplitudeMatrix :=
  ⟨d, Array.ofFn fun address : Fin (d * d) => entry (address.val / d) (address.val % d)⟩

/-- The zero matrix. -/
def zeros (d : Nat) : AmplitudeMatrix :=
  ⟨d, Array.replicate (d * d) .zero⟩

/-- The identity matrix. -/
def identity (d : Nat) : AmplitudeMatrix :=
  ofFunction d fun r c => if r = c then .one else .zero

/-- The address of an entry. -/
def address (m : AmplitudeMatrix) (row column : Nat) : Nat :=
  row * m.dimension + column

/-- The entry at an address, `none` past the end. -/
def get? (m : AmplitudeMatrix) (row column : Nat) : Option Amplitude :=
  m.entries[m.address row column]?

/-- Replaces the entry at an address, `none` past the end. -/
def set? (m : AmplitudeMatrix) (row column : Nat) (a : Amplitude) : Option AmplitudeMatrix :=
  if h : m.address row column < m.entries.size then
    some { m with entries := m.entries.set (m.address row column) a }
  else
    none

/-- The matrix with one entry replaced; nothing happens past the end. -/
def setEntry (m : AmplitudeMatrix) (row column : Nat) (a : Amplitude) : AmplitudeMatrix :=
  { m with entries := m.entries.setIfInBounds (m.address row column) a }

/-- The entry in a row and a column of the matrix. -/
def entry (m : AmplitudeMatrix) (row column : Nat) : Amplitude :=
  (m.get? row column).getD .zero

/-- The complex conjugate of every entry. -/
def conjugate (m : AmplitudeMatrix) : AmplitudeMatrix :=
  { m with entries := m.entries.map Amplitude.conjugate }

/-- The transposed matrix. -/
def transpose (m : AmplitudeMatrix) : AmplitudeMatrix :=
  ofFunction m.dimension fun r c => m.entry c r

/-- The conjugate of the transposed matrix. -/
def adjoint (m : AmplitudeMatrix) : AmplitudeMatrix :=
  m.transpose.conjugate

/-- Adds a multiple of row `r` to a row of sums, entry by entry. -/
def addMultiple (m : AmplitudeMatrix) (r : Nat) (factor : Amplitude) (sums : Array Amplitude) :
    Array Amplitude :=
  sums.mapIdx fun column sum => sum + factor * m.entry r column

/-- A row of a product: the sum of the multiples of the rows of the right matrix by the entries of
the row of the left matrix that are not negligible, in order. -/
def productRow (m n : AmplitudeMatrix) (row : Nat) : Array Amplitude :=
  (List.range m.dimension).foldl
    (fun sums middle =>
      let factor := m.entry row middle
      if factor.isNegligible then sums else n.addMultiple middle factor sums)
    (Array.replicate m.dimension .zero)

/-- The product, `none` if the dimensions differ. -/
def mul? (m n : AmplitudeMatrix) : Option AmplitudeMatrix :=
  if m.dimension = n.dimension then
    some ⟨m.dimension, (Array.range m.dimension).flatMap (productRow m n)⟩
  else
    none

/-! ### Comparison -/

/-- All entries are equal within the tolerance. -/
def isClose (m n : AmplitudeMatrix) : Bool :=
  m.dimension == n.dimension && (m.entries.zip n.entries).all fun (a, b) => a.isClose b

/-- The product with the adjoint is the identity within the tolerance. -/
def isUnitary (m : AmplitudeMatrix) : Bool :=
  match m.adjoint.mul? m with
  | some product => product.isClose (identity m.dimension)
  | none => false

/-- The pair whose left entry has the last absolute value in the order of all values, the last of
several. -/
def pivot? (pairs : Array (Amplitude × Amplitude)) : Option (Amplitude × Amplitude) :=
  pairs.foldl
    (fun best pair =>
      match best with
      | none => some pair
      | some largest =>
          if pair.1.modulus.precedes largest.1.modulus then some largest else some pair)
    none

/-- All entries are equal within the tolerance after one matrix is multiplied by a number of
absolute value one. The number is the quotient of the entries in the place where the left matrix
has its largest entry. -/
def isCloseUpToPhase (m n : AmplitudeMatrix) : Bool :=
  if m.dimension = n.dimension then
    match pivot? (m.entries.zip n.entries) with
    | none => true
    | some (a, b) =>
        if a.isNegligible then
          n.entries.all Amplitude.isNegligible
        else
          let phase := b / a
          if (phase.modulus - .one).abs.isAbove Amplitude.tolerance then false
          else (m.entries.zip n.entries).all fun (x, y) => (x * phase).isClose y
  else
    false

/-! ### Circuits -/

/-- The entry of a circuit's matrix in the column of a basis state: the image of the state. -/
def setImage (c : Circuit) (m : AmplitudeMatrix) (column : Nat) : AmplitudeMatrix :=
  let image := c.act column
  m.setEntry image.index column (.omega image.power)

/-- The matrix of a circuit. -/
def ofCircuit (c : Circuit) : AmplitudeMatrix :=
  let d := 1 <<< c.numQubits
  (List.range d).foldl (setImage c) (zeros d)

/-- The matrix of the circuit of a group element. -/
def ofElement (e : Element) : Result AmplitudeMatrix := do
  let c ← e.toCircuit
  return ofCircuit c

/-! ### Printing -/

/-- The entries of a row that are not printed as zero, with row and column. -/
def printedRow (m : AmplitudeMatrix) (row : Nat) : List (Nat × Nat × Amplitude) :=
  (List.range m.dimension).filterMap fun column =>
    let a := m.entry row column
    if a.printsAsZero then none else some (row, column, a)

/-- The entries that are not printed as zero, row by row, with row and column. -/
def printedEntries (m : AmplitudeMatrix) : List (Nat × Nat × Amplitude) :=
  (List.range m.dimension).flatMap m.printedRow

end AmplitudeMatrix

end AffinePhase
