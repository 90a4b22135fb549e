import AffinePhase.Polynomial.Arithmetic

/-!
# Arithmetic in bytes

A residue is stored as a byte, and a byte ends at 255. The operations of this module set
coefficients and form sums, negatives, direct sums, parities and values out of bytes alone, with one
reduction modulo eight before an addition, a subtraction or a multiplication and one after it. A sum
or a product past the greatest byte and a difference below zero are refused as broken contracts, so
an operation that succeeds has not left the bytes anywhere on its way. Tables are taken as they are:
their bytes may have any value and their lengths too.

## Main definitions

* `Byte.add`, `Byte.sub`, `Byte.mul`: the operations that may leave the bytes.
* `PhasePolynomial.addBytes`, `PhasePolynomial.negByte`: sum and negative of stored bytes.
* `PhasePolynomial.setConstantInBytes`, `PhasePolynomial.setTermInBytes`: coefficients are set to
  bytes, which are reduced.
* `PhasePolynomial.addInBytes`, `PhasePolynomial.tryAddInBytes`, `PhasePolynomial.negInBytes`,
  `PhasePolynomial.directSumInBytes`, `PhasePolynomial.addParityInBytes`,
  `PhasePolynomial.evaluateAtInBytes`: the operations on polynomials.
-/

namespace AffinePhase

namespace Byte

/-- The sum of two bytes, if it is a byte. -/
def add (v w : UInt8) : Result UInt8 := do
  Result.require (v.toNat + w.toNat < UInt8.size) .brokenContract
  return v + w

/-- The difference of two bytes, if it is a byte. -/
def sub (v w : UInt8) : Result UInt8 := do
  Result.require (w ≤ v) .brokenContract
  return v - w

/-- The product of two bytes, if it is a byte. -/
def mul (v w : UInt8) : Result UInt8 := do
  Result.require (v.toNat * w.toNat < UInt8.size) .brokenContract
  return v * w

/-- The product of two bytes, reduced. -/
def mulReduced (v w : UInt8) : Result UInt8 := do
  let product ← mul v w
  return product % 8

/-- The sum of two bytes, reduced. -/
def addReduced (v w : UInt8) : Result UInt8 := do
  let total ← add v w
  return total % 8

end Byte

namespace PhasePolynomial

/-! ### Stored bytes -/

/-- The sum of two stored bytes, which are reduced first. -/
def addBytes (v w : UInt8) : Result UInt8 :=
  Byte.addReduced (v % 8) (w % 8)

/-- The negative of a stored byte, which is reduced first. -/
def negByte (w : UInt8) : Result UInt8 := do
  let difference ← Byte.sub 8 (w % 8)
  return difference % 8

/-- Adds to a stored byte its counterpart; a byte without one is kept. -/
def addCounterpart (v : UInt8) : Option UInt8 → Result UInt8
  | some w => addBytes v w
  | none => return v

/-- As `addTable`. -/
def addTableInBytes (table added : Array UInt8) : Result (Array UInt8) := do
  let bytes ← table.toList.zipIdx.mapM fun t => addCounterpart t.1 added[t.2]?
  return bytes.toArray

/-- The negatives of the bytes of a table. -/
def negTableInBytes (table : Array UInt8) : Result (Array UInt8) := do
  let bytes ← table.toList.mapM negByte
  return bytes.toArray

/-! ### Coefficients -/

/-- As `setConstant`, for any byte, which is reduced. -/
def setConstantInBytes (p : PhasePolynomial) (value : UInt8) : PhasePolynomial :=
  { p with constant := value % 8 }

/-- As `setTerm`, for any byte, which is reduced. -/
def setTermInBytes (p : PhasePolynomial) (indices : List Nat) (value : UInt8) :
    Result PhasePolynomial := do
  let m ← monomial p.numVariables indices
  match p.weight? m with
  | some _ => return p.modifyWeight (fun _ => value % 8) m
  | none => throw (.invalidElement .missingTerm)

/-! ### Polynomials -/

/-- As `add?`, for polynomials in the same variables. -/
def addInBytes (p q : PhasePolynomial) : Result PhasePolynomial := do
  Result.require (p.numVariables = q.numVariables) .brokenContract
  let constant ← addBytes p.constant q.constant
  let linear ← addTableInBytes p.linear q.linear
  let quadratic ← addTableInBytes p.quadratic q.quadratic
  let cubic ← addTableInBytes p.cubic q.cubic
  return ⟨p.numVariables, constant, linear, quadratic, cubic⟩

/-- As `tryAdd`. -/
def tryAddInBytes (p q : PhasePolynomial) : Result PhasePolynomial := do
  Result.sameSize p.numVariables q.numVariables
  p.addInBytes q

/-- As `neg`. -/
def negInBytes (p : PhasePolynomial) : Result PhasePolynomial := do
  let linear ← negTableInBytes p.linear
  let quadratic ← negTableInBytes p.quadratic
  let cubic ← negTableInBytes p.cubic
  let constant ← negByte p.constant
  return ⟨p.numVariables, constant, linear, quadratic, cubic⟩

/-- One minus the polynomial. -/
def complementInBytes (p : PhasePolynomial) : Result PhasePolynomial := do
  let negative ← p.negInBytes
  let constant ← Byte.add negative.constant 1
  return negative.setConstantInBytes constant

/-- As `terms`. -/
def termsInBytes (p : PhasePolynomial) : List (Monomial × UInt8) :=
  (p.weights.map fun (m, w) => (m, w % 8)).filter fun (_, w) => w ≠ 0

/-- As `addTerm`. -/
def addTermInBytes (p : PhasePolynomial) (m : Monomial) (value : UInt8) :
    Result PhasePolynomial :=
  match p.weight? m with
  | some w => do
      let total ← addBytes w value
      return p.modifyWeight (fun _ => total) m
  | none => return p

/-- As `addTerms`. -/
def addTermsInBytes (p : PhasePolynomial) (ts : List (Monomial × UInt8)) :
    Result PhasePolynomial :=
  ts.foldlM (fun q (m, w) => q.addTermInBytes m w) p

/-- As `addParity`, one loop for each size of a subset. -/
def addParityInBytes (p : PhasePolynomial) (support : List Nat) (k : UInt8) :
    Result PhasePolynomial := do
  let p ← (subsets 1 support).foldlM (fun q m => q.addTermInBytes m (k % 8)) p
  let p ← (subsets 2 support).foldlM (fun q m => do
    q.addTermInBytes m (← Byte.mulReduced 6 (k % 8))) p
  (subsets 3 support).foldlM (fun q m => do
    q.addTermInBytes m (← Byte.mulReduced 4 (k % 8))) p

/-- As `directSum`. -/
def directSumInBytes (p q : PhasePolynomial) : Result PhasePolynomial := do
  let shifted := q.termsInBytes.map fun (m, w) => (m.map (· + p.numVariables), w)
  let low ← (zero (p.numVariables + q.numVariables)).addTermsInBytes p.termsInBytes
  low.addTermsInBytes shifted

/-- As `evaluateAt`. -/
def evaluateAtInBytes (p : PhasePolynomial) (point : List Bool) : Result UInt8 := do
  Result.sameSize p.numVariables point.length
  let present := p.termsInBytes.filter fun (m, _) => m.all fun i => point[i]?.getD false
  present.foldlM (fun total (_, w) => Byte.addReduced total w) 0

end PhasePolynomial

end AffinePhase
