import AffinePhase.AffineMap.Basic
import AffinePhase.Polynomial.Basic

/-!
# CNOT-dihedral elements

The CNOT-dihedral group on `n` qubits is generated by CNOT, `T = diag(1, ω)` and `X`, where
`ω = e^{iπ/4}`. Each of its elements acts on basis states as

```text
|x⟩ ↦ ω^{p(x)} |Ax + b⟩
```

with an invertible affine map `x ↦ Ax + b` and a phase polynomial `p` of degree at most three.
Global phase is not tracked, so the constant term of `p` is zero. An `Element` holds the two
parts as given; `Element.validate` says whether they form a group element.

## Main definitions

* `Element.identity`, `Element.ofParts`: construction, the second with validation.
* `Element.validate`: the first condition on group elements that is violated.
* `Element.isIdentity`: whether the element does nothing.
-/

namespace AffinePhase

/-- A phase polynomial and an affine map: `|x⟩ ↦ ω^{poly(x)} |affine(x)⟩`. -/
structure Element where
  /-- The phase polynomial. -/
  poly : PhasePolynomial
  /-- The affine map. -/
  affine : AffineMap
  deriving DecidableEq

namespace Element

/-- The number of qubits, which the polynomial determines. -/
def numQubits (e : Element) : Nat :=
  e.poly.numVariables

/-- The indices of the qubits, in order. -/
def qubits (e : Element) : List Nat :=
  List.range e.numQubits

/-- The identity on `n` qubits. -/
def identity (n : Nat) : Element :=
  ⟨PhasePolynomial.zero n, AffineMap.identity n⟩

/-- Succeeds exactly for group elements. Of several defects the first in this order is reported:
table sizes, constant term, coefficient ranges, size of the affine part, invertibility. -/
def validate (e : Element) : Result Unit := do
  Result.require e.poly.IsConsistent (.invalidElement .termCount)
  Result.require (e.poly.constant = 0) (.invalidElement .constantTerm)
  Result.require e.poly.HasGroupCoefficients (.invalidElement .coefficientRange)
  Result.require (e.affine.hasSize e.numQubits) (.invalidElement .affineSize)
  let invertible ← Result.ofOption e.affine.linear.isInvertible?
  Result.require invertible (.invalidElement .singular)

/-- Whether the parts form a group element. -/
def IsValid (e : Element) : Prop :=
  e.validate = .ok ()

instance (e : Element) : Decidable e.IsValid :=
  match h : e.validate with
  | .ok () => isTrue h
  | .error _ => isFalse fun hvalid => by rw [IsValid, h] at hvalid; cases hvalid

/-- The element with the given parts, if they form a group element. -/
def ofParts (poly : PhasePolynomial) (affine : AffineMap) : Result Element := do
  validate ⟨poly, affine⟩
  return ⟨poly, affine⟩

/-- Whether the polynomial is zero and the affine map the identity. -/
def isIdentity (e : Element) : Bool :=
  e.poly.isZero && e.affine.shift.isZero && e.affine.linear.isIdentity

end Element

end AffinePhase
