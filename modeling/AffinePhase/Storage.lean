import AffinePhase.Amplitude.Matrix
import AffinePhase.Element.Composition
import AffinePhase.Exchange.Reading
import AffinePhase.Polynomial.Bytes
import AffinePhase.Random

/-!
# Operations within the limits of storage

The operations of this library are total, whatever the sizes of their operands. A table of a real
machine ends at the greatest address, however, and sizes may be given as any numbers of 64 bits.
The operations of this module refuse results with a table past this limit or with sizes that are not
numbers of 64 bits, and otherwise are the operations whose names they extend. A refusal counts as a
broken contract. Of several causes of failure, those that show before the table is needed come
first.

## Main definitions

* `Storage.table`: whether a table can be stored.
* `Storage.binomial`, `Storage.pairRank`, `Storage.tripleRank`: binomial coefficients and the ranks
  of terms within 64 bits.
* `PhasePolynomial.storedZero`, `BitMatrix.storedZeros`, `AffineMap.storedIdentity`,
  `AmplitudeMatrix.storedZeros`, `Element.storedIdentity`: construction.
* `PhasePolynomial.storedEvaluate`, `Element.storedProduct`, `Element.storedRead` and others:
  operations that form new tables.
* `Element.storedValidate`, `Element.storedOfParts`: validation, which needs the sizes of tables.
-/

namespace AffinePhase

namespace Storage

/-- The greatest number of bytes of a table. -/
def limit : Nat := 9223372036854775807

/-- Succeeds exactly if a table of so many entries of so many bytes each can be stored. -/
def table (count size : Nat) : Result Unit :=
  Result.require (count * size ≤ limit) .brokenContract

/-- The number of bytes of an entry of a table of packed rows. -/
def rowSize : Nat := 32

/-- The number of bytes of an entry of a table of instructions. -/
def instructionSize : Nat := 40

/-- The number of bytes of an entry of a table of amplitudes. -/
def amplitudeSize : Nat := 16

/-- The number of bytes of an entry of a list of indices. -/
def indexSize : Nat := 32

/-- The product of `count` further factors of a binomial coefficient with the product of the first
`index` ones. Products are formed before they are divided and have to be numbers of 64 bits. -/
def binomialFrom (n index product : Nat) : Nat → Result Nat
  | 0 => return product
  | count + 1 => do
      Result.require (product * (n - index) < Text.indexBound) .brokenContract
      binomialFrom n (index + 1) (product * (n - index) / (index + 1)) count

/-- As `AffinePhase.binomial`. -/
def binomial (n k : Nat) : Result Nat :=
  if n < k then return 0 else binomialFrom n 0 1 k

/-- The sum of two numbers, if it has 64 bits. -/
def add (a b : Nat) : Result Nat := do
  Result.require (a + b < Text.indexBound) .brokenContract
  return a + b

/-- The difference of two numbers, if it is not negative. -/
def sub (a b : Nat) : Result Nat := do
  Result.require (b ≤ a) .brokenContract
  return a - b

/-- As `AffinePhase.pairRank`, from left to right. -/
def pairRank (n a b : Nat) : Result Nat := do
  let before ← sub (← binomial n 2) (← binomial (← sub n a) 2)
  add before (← sub (← sub b a) 1)

/-- As `AffinePhase.tripleRank`, from left to right. -/
def tripleRank (n a b c : Nat) : Result Nat := do
  let before ← sub (← binomial n 3) (← binomial (← sub n a) 3)
  let before ← add before (← binomial (← sub (← sub n a) 1) 2)
  let before ← sub before (← binomial (← sub n b) 2)
  add before (← sub (← sub c b) 1)

/-- Succeeds exactly if the place of a monomial in its table can be computed. -/
def place (n : Nat) : Monomial → Result Unit
  | [a, b] => do
      let _ ← pairRank n a b
      return
  | [a, b, c] => do
      let _ ← tripleRank n a b c
      return
  | _ => return

/-- Succeeds exactly if the tables of a polynomial in `n` variables can be stored. -/
def polynomial (n : Nat) : Result Unit := do
  table n 1
  table (← binomial n 2) 1
  table (← binomial n 3) 1

/-- Succeeds exactly if the rows of a bit matrix can be stored. -/
def rows (rowCount : Nat) : Result Unit :=
  table rowCount rowSize

/-- Succeeds exactly if the columns of matrices side by side can be numbered. -/
def columns (ms : List BitMatrix) : Result Unit :=
  Result.require ((ms.map BitMatrix.columns).foldr (· + ·) 0 < Text.indexBound) .brokenContract

/-- Succeeds exactly if the tables of an element on `n` qubits can be stored. -/
def element (n : Nat) : Result Unit := do
  polynomial n
  rows n

/-- Succeeds exactly if the entries of a square matrix of amplitudes can be stored. -/
def amplitudes (dimension : Nat) : Result Unit :=
  table (dimension * dimension) amplitudeSize

/-- Succeeds exactly if the matrix of a circuit on `n` qubits can be stored. With 64 qubits and more
the basis states cannot even be numbered. -/
def circuitAmplitudes (n : Nat) : Result Unit :=
  if n < 64 then amplitudes (1 <<< n) else .error .brokenContract

end Storage

/-! ### Polynomials -/

namespace PhasePolynomial

/-- As `zero`. -/
def storedZero (n : Nat) : Result PhasePolynomial := do
  Storage.polynomial n
  return zero n

/-- As `term`. Of a list of indices that names a term, the place is computed. -/
def storedTerm (p : PhasePolynomial) (indices : List Nat) : Result UInt8 := do
  Storage.place p.numVariables (← monomial p.numVariables indices)
  p.term indices

/-- As `setTermInBytes`. -/
def storedSetTerm (p : PhasePolynomial) (indices : List Nat) (value : UInt8) :
    Result PhasePolynomial := do
  Storage.place p.numVariables (← monomial p.numVariables indices)
  p.setTermInBytes indices value

/-- As `setParity`. -/
def storedSetParity (p : PhasePolynomial) (indices : List Nat) : Result PhasePolynomial := do
  Result.indicesBelow p.numVariables (Monomial.ofList indices)
  Storage.polynomial p.numVariables
  p.setParity indices

/-- As `parity`. -/
def storedParity (n : Nat) (indices : List Nat) : Result PhasePolynomial := do
  Storage.polynomial n
  parity n indices

/-- As `evaluate`. -/
def storedEvaluate (p : PhasePolynomial) (substitutes : List PhasePolynomial) :
    Result PhasePolynomial := do
  let n := p.commonVariables substitutes
  Result.sameSize p.numVariables substitutes.length
  substitutes.forM fun q => Result.sameSize n q.numVariables
  Storage.polynomial n
  p.evaluate substitutes

/-- As `directSum`. -/
def storedDirectSum (p q : PhasePolynomial) : Result PhasePolynomial := do
  Storage.polynomial (p.numVariables + q.numVariables)
  return p.directSum q

/-- Whether the polynomial `IsConsistent`. The tables are compared with their sizes in order of the
degrees, and a size is computed only if the tables before have theirs. -/
def storedIsConsistent (p : PhasePolynomial) : Result Bool := do
  if p.linear.size ≠ p.numVariables then
    return false
  let pairs ← Storage.binomial p.numVariables 2
  if p.quadratic.size ≠ pairs then
    return false
  let triples ← Storage.binomial p.numVariables 3
  return decide (p.cubic.size = triples)

end PhasePolynomial

/-! ### Matrices and affine maps -/

namespace BitMatrix

/-- As `zeros`. Columns need no room without a row. -/
def storedZeros (rowCount columns : Nat) : Result BitMatrix := do
  Storage.rows rowCount
  return if rowCount = 0 then ⟨columns, []⟩ else zeros rowCount columns

/-- As `identity`. -/
def storedIdentity (n : Nat) : Result BitMatrix := do
  Storage.rows n
  return identity n

/-- As `random`. -/
def storedRandom (rowCount columns : Nat) (source : List Word) : Result BitMatrix := do
  Storage.rows rowCount
  let (m, _) ← Result.ofOption (random rowCount columns source)
  return m

/-- As `randomInvertible`. -/
def storedRandomInvertible (n : Nat) (source : List Word) : Result BitMatrix := do
  Storage.rows n
  let (m, _) ← Result.ofOption (randomInvertible n source)
  return m

/-- As `transpose?`. -/
def storedTranspose (m : BitMatrix) : Result BitMatrix := do
  Storage.rows m.columns
  Result.ofOption m.transpose?

/-- As `blockSum?`. -/
def storedBlockSum (ms : List BitMatrix) : Result BitMatrix := do
  Storage.columns ms
  Result.ofOption (blockSum? ms)

end BitMatrix

namespace AffineMap

/-- As `identity`. -/
def storedIdentity (n : Nat) : Result AffineMap := do
  Storage.rows n
  return identity n

/-- As `directSum?`. -/
def storedDirectSum (f g : AffineMap) : Result AffineMap := do
  Storage.columns [f.linear, g.linear]
  Result.ofOption (f.directSum? g)

end AffineMap

/-! ### Circuits and elements -/

namespace Circuit

/-- As `empty`, with room for a number of instructions. -/
def storedEmpty (n capacity : Nat) : Result Circuit := do
  Storage.table capacity Storage.instructionSize
  return empty n

end Circuit

namespace Element

/-- As `identity`. -/
def storedIdentity (n : Nat) : Result Element := do
  Storage.element n
  return identity n

/-- As `validate`. -/
def storedValidate (e : Element) : Result Unit := do
  let _ ← e.poly.storedIsConsistent
  e.validate

/-- As `ofParts`. -/
def storedOfParts (poly : PhasePolynomial) (affine : AffineMap) : Result Element := do
  storedValidate ⟨poly, affine⟩
  return ⟨poly, affine⟩

/-- As `qubits`. -/
def storedQubits (e : Element) : Result (List Nat) := do
  Storage.table e.numQubits Storage.indexSize
  return e.qubits

/-- As `ofCircuit`. -/
def storedOfCircuit (c : Circuit) : Result Element := do
  Storage.element c.numQubits
  ofCircuit c

/-- As `read`. -/
def storedRead (found : Datum) : Except ReadFailure Element := do
  let c ← Circuit.read found
  (Storage.element c.numQubits).mapError .element
  readCircuit c

/-- As `random`. -/
def storedRandom (n : Nat) (source : List Word) : Result Element := do
  Storage.element n
  let (e, _) ← Result.ofOption (random n source)
  return e

/-- As `product`. -/
def storedProduct (outer inner : Element) : Result Element :=
  match Storage.polynomial inner.numQubits with
  | .ok () => outer.product inner
  | .error e => do
      Result.sameSize outer.numQubits inner.numQubits
      let _ ← outer.affine.after inner.affine
      throw e

/-- As `compose`. -/
def storedCompose (e other : Element) (front : Bool) : Result Element :=
  if front then storedProduct e other else storedProduct other e

/-- As `tensor?`. -/
def storedTensor (e other : Element) : Result Element := do
  Storage.polynomial (e.numQubits + other.numQubits)
  Storage.columns [e.affine.linear, other.affine.linear]
  Result.ofOption (e.tensor? other)

end Element

/-! ### Matrices of amplitudes -/

namespace AmplitudeMatrix

/-- As `zeros`. -/
def storedZeros (dimension : Nat) : Result AmplitudeMatrix := do
  Storage.amplitudes dimension
  return zeros dimension

/-- As `identity`. -/
def storedIdentity (dimension : Nat) : Result AmplitudeMatrix := do
  Storage.amplitudes dimension
  return identity dimension

/-- As `ofCircuit`. -/
def storedOfCircuit (c : Circuit) : Result AmplitudeMatrix := do
  Storage.circuitAmplitudes c.numQubits
  return ofCircuit c

/-- As `ofElement`. -/
def storedOfElement (e : Element) : Result AmplitudeMatrix := do
  let c ← e.toCircuit
  storedOfCircuit c

end AmplitudeMatrix

end AffinePhase
