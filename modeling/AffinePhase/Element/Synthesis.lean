import AffinePhase.Element.Generators

/-!
# Circuits from elements

Every group element is implemented by a circuit. Multiplying by `X` and CNOT gates from the left
brings the affine part to the identity by Gauss-Jordan elimination and leaves the phase
polynomial alone. What remains is diagonal and is built term by term, highest degree first:

```text
4xᵢxⱼxₖ:  CX(i,k) CX(j,k) T(k) CX(i,k) CX(j,k)
cxᵢxⱼ:    CX(i,j) P(j) CX(i,j)
cxᵢ:      P(i)
```

where `P` is a word of phase gates. Each gadget also changes coefficients of lower degree, so the
element built so far is kept beside the circuit and the next coefficient is compared with it. The
circuit of an element is its diagonal part followed by the inverse of the reduction.

## Main definitions

* `AffineMap.reduced`, `AffineMap.reduction`: bringing an affine map to the identity, and the gates
  that do it.
* `Element.diagonalCircuit`: a circuit for the phase polynomial.
* `Element.toCircuit`: a circuit for the element.
* `Element.adjoint`, `Element.conjugate`, `Element.transpose`: by way of a circuit.
-/

namespace AffinePhase

/-! ### The affine part -/

/-- An affine map on the way to the identity, with the gates applied so far. -/
structure Reduction where
  /-- The gates so far, the latest first. -/
  latestFirst : Circuit
  /-- The affine map followed by these gates. -/
  rest : AffineMap

namespace Reduction

/-- Applies an `X` gate. -/
def flip (r : Reduction) (q : Nat) : Result Reduction := do
  let rest ← Result.ofOption (r.rest.flipOutput? q)
  let latestFirst ← r.latestFirst.precede .x [q]
  return ⟨latestFirst, rest⟩

/-- Applies a CNOT gate. -/
def add (r : Reduction) (control target : Nat) : Result Reduction := do
  let rest ← Result.ofOption (r.rest.addOutput? control target)
  let latestFirst ← r.latestFirst.precede .controlledX [control, target]
  return ⟨latestFirst, rest⟩

/-- Entry `(i, j)` of the linear part. -/
def entry (r : Reduction) (i j : Nat) : Result Bool :=
  Result.ofOption (r.rest.linear.get? i j)

/-- The first of the given rows with a bit set in a column. -/
def pivot (r : Reduction) (column : Nat) : List Nat → Result Nat
  | [] => .error (.invalidElement .singular)
  | row :: rows => do
      if ← r.entry row column then return row else r.pivot column rows

/-- Makes the diagonal entry of a column one, by exchanging its row with the first row below that
has a bit set there. An exchange is three CNOT gates. -/
def placePivot (r : Reduction) (n column : Nat) : Result Reduction := do
  if ← r.entry column column then
    return r
  else
    let pivot ← r.pivot column ((List.range n).drop (column + 1))
    let r ← r.add pivot column
    let r ← r.add column pivot
    r.add pivot column

/-- Clears one entry of a column by adding the row of the pivot into its row. -/
def clearEntry (column : Nat) (r : Reduction) (row : Nat) : Result Reduction := do
  if row = column then
    return r
  else if ← r.entry row column then
    r.add column row
  else
    return r

/-- Makes a column a unit vector. -/
def clearColumn (n : Nat) (r : Reduction) (column : Nat) : Result Reduction := do
  let r ← r.placePivot n column
  (List.range n).foldlM (clearEntry column) r

end Reduction

/-- The map after all gates, with these gates: first the shift is removed, then column after column
of the linear part becomes a unit vector. -/
def AffineMap.reduced (f : AffineMap) : Result Reduction := do
  let n := f.numBits
  let start : Reduction := ⟨Circuit.empty n, f⟩
  let linear ← f.shift.support.foldlM Reduction.flip start
  (List.range n).foldlM (Reduction.clearColumn n) linear

/-- The `X` and CNOT gates that bring the map to the identity when they act after it. That nothing
but the identity is left is asserted. -/
def AffineMap.reduction (f : AffineMap) : Result Circuit := do
  let final ← f.reduced
  Result.require (final.rest.shift.isZero ∧ final.rest.linear.isIdentity) .brokenContract
  return final.latestFirst.reversed

/-! ### The diagonal part -/

/-- A circuit under construction and the element that it implements. -/
structure Draft where
  /-- The circuit so far, its latest gate first. -/
  latestFirst : Circuit
  /-- The element of the circuit. -/
  element : Element

namespace Draft

/-- The draft without gates. -/
def empty (n : Nat) : Draft :=
  ⟨Circuit.empty n, Element.identity n⟩

/-- Adds a gate. -/
def push (d : Draft) (gate : Gate) (qubits : List Nat) : Result Draft := do
  let element ← d.element.leftMul gate qubits
  let latestFirst ← d.latestFirst.precede gate qubits
  return ⟨latestFirst, element⟩

/-- Adds several gates. -/
def pushAll (d : Draft) (gates : List (Gate × List Nat)) : Result Draft :=
  gates.foldlM (fun d (gate, qubits) => d.push gate qubits) d

/-- The word of phase gates equal to `diag(1, ωᵏ)` on a qubit. -/
def phaseWord (k : Z8) (q : Nat) : List (Gate × List Nat) :=
  (Gate.phaseGates k).map fun gate => (gate, [q])

/-- The gadget of a term `4xᵢxⱼxₖ`. -/
def cubicGadget (i j k : Nat) : List (Gate × List Nat) :=
  [(.controlledX, [i, k]), (.controlledX, [j, k]), (.t, [k]), (.controlledX, [i, k]),
    (.controlledX, [j, k])]

/-- The gadget that changes the coefficient of `xᵢxⱼ` by `-2k`. -/
def quadraticGadget (k : Z8) (i j : Nat) : List (Gate × List Nat) :=
  [(.controlledX, [i, j])] ++ phaseWord k j ++ [(.controlledX, [i, j])]

/-- Half of an even residue. -/
def half (k : Z8) : Z8 :=
  Z8.ofNat (k.val / 2)

/-- Builds the cubic term over three variables if the polynomial has it. -/
def addCubic (target : PhasePolynomial) (d : Draft) : Monomial → Result Draft
  | [i, j, k] => do
      let wanted ← target.term [i, j, k]
      if wanted ≠ 0 then d.pushAll (cubicGadget i j k) else return d
  | _ => .ok d

/-- Brings the coefficient over two variables to its value in the polynomial. -/
def addQuadratic (target : PhasePolynomial) (d : Draft) : Monomial → Result Draft
  | [i, j] => do
      let current ← d.element.poly.term [i, j]
      let wanted ← target.term [i, j]
      let k := half (Z8.ofByte current - Z8.ofByte wanted)
      if k ≠ 0 then d.pushAll (quadraticGadget k i j) else return d
  | _ => .ok d

/-- Brings the coefficient of a variable to its value in the polynomial. -/
def addLinear (target : PhasePolynomial) (d : Draft) (i : Nat) : Result Draft := do
  let current ← d.element.poly.term [i]
  let wanted ← target.term [i]
  d.pushAll (phaseWord (Z8.ofByte wanted - Z8.ofByte current) i)

end Draft

namespace Element

/-- A circuit for the diagonal element with the phase polynomial of `e`. -/
def diagonalCircuit (e : Element) : Result Circuit := do
  let n := e.numQubits
  let d ← (subsets 3 (List.range n)).foldlM (Draft.addCubic e.poly) (Draft.empty n)
  let d ← (subsets 2 (List.range n)).foldlM (Draft.addQuadratic e.poly) d
  let d ← (List.range n).foldlM (Draft.addLinear e.poly) d
  Result.require (d.element.poly = e.poly) (.invalidElement .notSynthesizable)
  return d.latestFirst.reversed

/-- A circuit for a group element. -/
def toCircuit (e : Element) : Result Circuit := do
  e.validate
  let reduction ← e.affine.reduction
  let diagonal ← e.diagonalCircuit
  diagonal.append reduction.inverse

/-- The inverse of a group element. -/
def adjoint (e : Element) : Result Element := do
  let c ← e.toCircuit
  ofCircuit c.inverse

/-- The group element whose matrix is the complex conjugate, up to global phase. -/
def conjugate (e : Element) : Result Element := do
  let c ← e.toCircuit
  ofCircuit c.conjugate

/-- The group element whose matrix is the transpose, up to global phase. -/
def transpose (e : Element) : Result Element := do
  let c ← e.toCircuit
  ofCircuit c.transpose

end Element

end AffinePhase
