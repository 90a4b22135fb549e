import AffinePhase.Element.Basic
import AffinePhase.Polynomial.Arithmetic

/-!
# Composing elements

If `B` acts first and `A` second, `|x⟩` picks up the phase `p_B(x) + p_A(y)` where `y` is the
image of `x` under the affine map of `B`. Each bit of `y` is a parity of input bits, possibly
flipped, and hence a polynomial in the input, so the second summand is `p_A` with these
polynomials substituted. The constant term is a global phase and is dropped.

## Main definitions

* `Element.outputParity`, `Element.outputParities`: output bits as polynomials in the input bits.
* `Element.product`: the product of two elements.
* `Element.rightMultiply`, `Element.leftMultiply`: the product with another element before or after.
* `Element.compose`, `Element.composeOn`: the product in either order, on all qubits.
* `Element.tensor?`: two elements side by side.
-/

namespace AffinePhase.Element

/-- Output bit `i` as a polynomial in the input bits: the parity `p` of the row, or `1 - p` if
the bit is flipped. -/
def outputParity (e : Element) (i : Nat) : Result PhasePolynomial := do
  let row ← Result.ofOption (e.affine.linear.row? i)
  let parity ← PhasePolynomial.parity e.numQubits row.support
  let flipped ← Result.ofOption (e.affine.shift.get? i)
  if flipped then
    let negative := -parity
    return negative.setConstant (Z8.ofByte negative.constant + 1)
  else
    return parity

/-- All output bits as polynomials in the input bits, of which the first that has none is
reported. -/
def outputParities (e : Element) : Result (List PhasePolynomial) := do
  let parities ← (List.range (min e.numQubits e.affine.linear.rowCount)).mapM e.outputParity
  Result.require (e.numQubits ≤ e.affine.linear.rowCount) .brokenContract
  return parities

/-- The element that applies `inner` and then `outer`. -/
def product (outer inner : Element) : Result Element := do
  Result.sameSize outer.numQubits inner.numQubits
  let affine ← outer.affine.after inner.affine
  let parities ← inner.outputParities
  let outerPhase ← outer.poly.evaluate parities
  let phase ← Result.ofOption (outerPhase.add? inner.poly)
  return ⟨phase.setConstant 0, affine⟩

/-- The product in which `other` acts first. -/
def rightMultiply (e other : Element) : Result Element :=
  product e other

/-- The product in which `e` acts first. -/
def leftMultiply (e other : Element) : Result Element :=
  product other e

/-- The product of two elements that applies `e` first, or `other` first if `front`. -/
def compose (e other : Element) (front : Bool) : Result Element :=
  if front then e.rightMultiply other else e.leftMultiply other

/-- As `compose`, for a list of the qubits of `e` that has to name all of them in order. -/
def composeOn (e other : Element) (qubits : List Nat) (front : Bool) : Result Element := do
  Result.require (qubits.length = e.numQubits ∧ qubits = List.range qubits.length)
    (.unsupported (.partialComposition qubits e.numQubits))
  e.compose other front

/-- `e` on the first qubits and `other` on those that follow. -/
def tensor? (e other : Element) : Option Element := do
  let affine ← e.affine.directSum? other.affine
  some ⟨e.poly.directSum other.poly, affine⟩

end AffinePhase.Element
