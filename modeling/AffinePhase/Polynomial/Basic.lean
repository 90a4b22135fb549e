import AffinePhase.Failure
import AffinePhase.Polynomial.Term

/-!
# Phase polynomials

A `PhasePolynomial` is a multilinear polynomial of degree at most three in boolean variables with
coefficients modulo eight. Its coefficients are stored as bytes, one table for each degree, in
lexicographic order of the terms. A stored byte may exceed seven and a table may have any length;
both are kept as they are, and `PhasePolynomial.terms` reads them as a polynomial.

## Main definitions

* `PhasePolynomial.weight?`, `PhasePolynomial.addTerm`: reading and changing one coefficient.
* `PhasePolynomial.term`, `PhasePolynomial.setTerm`: the same for indices in any order, checked.
* `PhasePolynomial.terms`: the nonzero terms, by degree and then lexicographically.
* `PhasePolynomial.evaluateAt`: the value at a boolean point.
* `PhasePolynomial.IsConsistent`, `PhasePolynomial.HasGroupCoefficients`.
-/

namespace AffinePhase

/-- A polynomial of degree at most three over the residues modulo eight, in tables of bytes. -/
structure PhasePolynomial where
  /-- The number of variables. -/
  numVariables : Nat
  /-- The constant term. -/
  constant : UInt8
  /-- The coefficients of `xᵢ`. -/
  linear : Array UInt8
  /-- The coefficients of `xᵢxⱼ` with `i < j`. -/
  quadratic : Array UInt8
  /-- The coefficients of `xᵢxⱼxₖ` with `i < j < k`. -/
  cubic : Array UInt8
  deriving DecidableEq

namespace PhasePolynomial

/-- The greatest degree of a term. -/
def maxDegree : Nat := 3

/-- The zero polynomial. -/
def zero (n : Nat) : PhasePolynomial where
  numVariables := n
  constant := 0
  linear := Array.replicate n 0
  quadratic := Array.replicate (binomial n 2) 0
  cubic := Array.replicate (binomial n 3) 0

/-! ### Coefficients -/

/-- The stored byte of a monomial, `none` if its table has no such entry. -/
def weight? (p : PhasePolynomial) : Monomial → Option UInt8
  | [] => some p.constant
  | [a] => p.linear[a]?
  | [a, b] => p.quadratic[pairRank p.numVariables a b]?
  | [a, b, c] => p.cubic[tripleRank p.numVariables a b c]?
  | _ => none

/-- Changes the stored byte of a monomial; nothing happens if its table has no such entry. -/
def modifyWeight (p : PhasePolynomial) (f : UInt8 → UInt8) : Monomial → PhasePolynomial
  | [] => { p with constant := f p.constant }
  | [a] => { p with linear := p.linear.modify a f }
  | [a, b] => { p with quadratic := p.quadratic.modify (pairRank p.numVariables a b) f }
  | [a, b, c] => { p with cubic := p.cubic.modify (tripleRank p.numVariables a b c) f }
  | _ => p

/-- Adds a residue to the coefficient of a monomial. -/
def addTerm (p : PhasePolynomial) (m : Monomial) (k : Z8) : PhasePolynomial :=
  p.modifyWeight (fun w => Z8.toByte (Z8.ofByte w + k)) m

/-- Sets the constant term. -/
def setConstant (p : PhasePolynomial) (k : Z8) : PhasePolynomial :=
  { p with constant := Z8.toByte k }

/-- The monomial over indices in any order: at most three, all below `n`, none repeated. -/
def monomial (n : Nat) (indices : List Nat) : Result Monomial := do
  Result.require (indices.length ≤ maxDegree) (.invalidTerm indices)
  Result.indicesBelow n indices
  Result.require indices.Nodup (.invalidTerm indices)
  return Monomial.ofList indices

/-- The stored coefficient of the monomial over indices in any order. -/
def term (p : PhasePolynomial) (indices : List Nat) : Result UInt8 := do
  let m ← monomial p.numVariables indices
  match p.weight? m with
  | some w => return w
  | none => throw (.invalidElement .missingTerm)

/-- Sets the coefficient of the monomial over indices in any order. -/
def setTerm (p : PhasePolynomial) (indices : List Nat) (k : Z8) : Result PhasePolynomial := do
  let m ← monomial p.numVariables indices
  match p.weight? m with
  | some _ => return p.modifyWeight (fun _ => Z8.toByte k) m
  | none => throw (.invalidElement .missingTerm)

/-! ### Terms -/

/-- The monomials of degree `d` in `n` variables with the bytes of their table, as far as the
table goes. The first terms of a table of length `l` need the first `l + d` variables only. -/
def tabulated (n d : Nat) (table : Array UInt8) : List (Monomial × UInt8) :=
  (firstSubsets table.size d (List.range (min n (table.size + d)))).zip table.toList

/-- All monomials with their stored bytes, by degree and then lexicographically. -/
def weights (p : PhasePolynomial) : List (Monomial × UInt8) :=
  ([], p.constant) ::
    (p.linear.toList.zipIdx.map fun (w, i) => ([i], w)) ++
    tabulated p.numVariables 2 p.quadratic ++
    tabulated p.numVariables 3 p.cubic

/-- The terms with a nonzero coefficient, by degree and then lexicographically. -/
def terms (p : PhasePolynomial) : List (Monomial × Z8) :=
  (p.weights.map fun (m, w) => (m, Z8.ofByte w)).filter fun (_, k) => k ≠ 0

/-- Whether no coefficient is nonzero. -/
def isZero (p : PhasePolynomial) : Bool :=
  p.terms.isEmpty

/-- The greatest degree of a nonzero term, `none` for the zero polynomial. -/
def degree? (p : PhasePolynomial) : Option Nat :=
  (p.terms.map fun (m, _) => m.length).max?

/-- The value at a boolean point, which has one entry for each variable: the sum of the terms
whose variables are all true. -/
def evaluateAt (p : PhasePolynomial) (point : List Bool) : Result Z8 := do
  Result.sameSize p.numVariables point.length
  let present := p.terms.filter fun (m, _) => m.all fun i => point[i]?.getD false
  return (present.map fun (_, k) => k).foldr (· + ·) 0

/-! ### Shape and range -/

/-- Each table has one entry for each term of its degree. -/
def IsConsistent (p : PhasePolynomial) : Prop :=
  p.linear.size = p.numVariables ∧ p.quadratic.size = binomial p.numVariables 2 ∧
    p.cubic.size = binomial p.numVariables 3

instance (p : PhasePolynomial) : Decidable p.IsConsistent :=
  inferInstanceAs (Decidable (_ ∧ _))

/-- Linear coefficients are below eight, quadratic ones also even, cubic ones zero or four. These
are the polynomials of group elements. -/
def HasGroupCoefficients (p : PhasePolynomial) : Prop :=
  (∀ w ∈ p.linear, w < 8) ∧ (∀ w ∈ p.quadratic, w < 8 ∧ w % 2 = 0) ∧
    (∀ w ∈ p.cubic, w = 0 ∨ w = 4)

instance (p : PhasePolynomial) : Decidable p.HasGroupCoefficients :=
  inferInstanceAs (Decidable (_ ∧ _))

end PhasePolynomial

end AffinePhase
