import AffinePhase.Element.Basic

/-!
# Polynomials, affine maps and elements as text

A polynomial is written as the sum of its nonzero terms with subscript indices, as in
`3 + x₀ + 6x₀x₁`. The coefficient one is left out except in the constant term, and the zero
polynomial is written `0`. An affine map is written as the list of its output bits, each a sum of
input bits and possibly a constant one, as in `(x₀ + x₂ + 1, 0)`. An element is written as its phase
polynomial and its affine map, each on a line of its own.

## Main definitions

* `PhasePolynomial.formula`: the sum of terms.
* `AffineMap.formula`: the list of sums.
* `PhasePolynomial.described`, `AffineMap.described`: the formulas with what they are before them.
* `Element.formulas`: the two lines.
-/

namespace AffinePhase

namespace PhasePolynomial

/-- A term: its coefficient, unless it is one in front of a variable, and its variables. -/
def termFormula : Monomial × Z8 → List Char
  | (m, k) =>
      (if m.isEmpty || k ≠ 1 then Text.decimal k.val else []) ++ m.flatMap Text.variable

/-- The sum of the nonzero terms. -/
def formula (p : PhasePolynomial) : List Char :=
  if p.isZero then "0".toList else Text.joined " + " (p.terms.map termFormula)

/-- The formula with the number of variables before it. -/
def described (p : PhasePolynomial) : List Char :=
  "PhasePolynomial(num_variables=".toList ++ Text.decimal p.numVariables ++ ", ".toList ++
    p.formula ++ ")".toList

end PhasePolynomial

namespace AffineMap

/-- An output bit as a sum: the input bits in `row`, and one if `flipped`. -/
def outputFormula (row : BitVector) (flipped : Bool) : List Char :=
  match row.support.map Text.variable ++ (if flipped then ["1".toList] else []) with
  | [] => "0".toList
  | summands => Text.joined " + " summands

/-- The output bits between parentheses. -/
def formula (f : AffineMap) : List Char :=
  "(".toList ++
    Text.joined ", " (f.linear.rows.zipIdx.map fun (row, i) => outputFormula row (f.shift.bit i)) ++
    ")".toList

/-- The formula with a name before it. -/
def described (f : AffineMap) : List Char :=
  "AffineFunction".toList ++ f.formula

end AffineMap

namespace Element

/-- The phase polynomial and the affine map on two lines. -/
def formulas (e : Element) : List Char :=
  "phase polynomial = ".toList ++ e.poly.formula ++ "\naffine function = ".toList ++
    e.affine.formula

end Element

end AffinePhase
