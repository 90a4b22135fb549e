import AffinePhase.Polynomial.Basic
import AffinePhase.Polynomial.Sparse

/-!
# Arithmetic of phase polynomials

Sum and negative work on the tables, byte by byte. The direct sum renumbers the variables of its
second operand so that they follow those of the first.

The exclusive or of the variables in a set `J` is, modulo eight, a polynomial of degree three:

```text
p_J(x) = Σ_{∅ ≠ S ⊆ J} (-2)^(|S|-1) Π_{s ∈ S} x_s
```

since `(-2)^(|S|-1)` vanishes modulo eight from four variables on. Adding `k · p_J` to a
polynomial therefore touches the terms of the subsets of `J` with one, two and three elements.

Replacing each variable by a polynomial and expanding gives a multilinear polynomial again, since
a boolean variable is its own square, but its degree may exceed three. A term is expanded
coefficient first, `((c · q₁) · q₂) · q₃`, with vanishing coefficients dropped after every
product. The first term of too high degree in lexicographic order is reported.

## Main definitions

* `PhasePolynomial.add?`, `PhasePolynomial.tryAdd`: the sum of two polynomials in the same
  variables, the first for callers who know that, the second for those who do not.
* `PhasePolynomial.neg`: the negative.
* `PhasePolynomial.directSum`: the sum on separate variables.
* `PhasePolynomial.addParity`: adds `k · p_J`.
* `PhasePolynomial.setParity`, `PhasePolynomial.parity`: the polynomial `p_J` of a list of indices.
* `PhasePolynomial.expand?`: the expanded sum of monomials.
* `PhasePolynomial.evaluate`: the polynomial after substitution.
-/

namespace AffinePhase.PhasePolynomial

/-! ### Sums, negatives and direct sums -/

/-- The sum of two stored bytes as residues. -/
def addWeight (v w : UInt8) : UInt8 :=
  Z8.toByte (Z8.ofByte v + Z8.ofByte w)

/-- The negative of a stored byte as a residue. -/
def negWeight (w : UInt8) : UInt8 :=
  Z8.toByte (-Z8.ofByte w)

/-- Adds a table into another one, entry by entry; entries without a counterpart are kept. -/
def addTable (table added : Array UInt8) : Array UInt8 :=
  table.mapIdx fun i v =>
    match added[i]? with
    | some w => addWeight v w
    | none => v

/-- The sum, `none` if the numbers of variables differ. -/
def add? (p q : PhasePolynomial) : Option PhasePolynomial :=
  if p.numVariables = q.numVariables then
    some
      { p with
        constant := addWeight p.constant q.constant
        linear := addTable p.linear q.linear
        quadratic := addTable p.quadratic q.quadratic
        cubic := addTable p.cubic q.cubic }
  else
    none

/-- The sum; that the numbers of variables differ is reported. -/
def tryAdd (p q : PhasePolynomial) : Result PhasePolynomial := do
  Result.sameSize p.numVariables q.numVariables
  Result.ofOption (p.add? q)

/-- The negative. -/
def neg (p : PhasePolynomial) : PhasePolynomial :=
  { p with
    constant := negWeight p.constant
    linear := p.linear.map negWeight
    quadratic := p.quadratic.map negWeight
    cubic := p.cubic.map negWeight }

instance : Neg PhasePolynomial := ⟨neg⟩

/-- Adds terms to a polynomial one after the other. -/
def addTerms (p : PhasePolynomial) (ts : List (Monomial × Z8)) : PhasePolynomial :=
  ts.foldl (fun q (m, k) => q.addTerm m k) p

/-- The sum of `p` and `q` on separate variables, those of `q` numbered after those of `p`. -/
def directSum (p q : PhasePolynomial) : PhasePolynomial :=
  let shifted := q.terms.map fun (m, k) => (m.map (· + p.numVariables), k)
  ((zero (p.numVariables + q.numVariables)).addTerms p.terms).addTerms shifted

/-! ### Parities -/

/-- The coefficient `(-2)^(d-1)` of a product of `d` variables in a parity. -/
def parityCoefficient : Nat → Z8
  | 1 => 1
  | 2 => 6
  | 3 => 4
  | _ => 0

/-- The subsets with one, two and three elements of an increasing list of indices. -/
def smallSubsets (support : List Nat) : List Monomial :=
  subsets 1 support ++ subsets 2 support ++ subsets 3 support

/-- Adds `k` times the parity of the variables in `support`, an increasing list. -/
def addParity (p : PhasePolynomial) (support : List Nat) (k : Z8) : PhasePolynomial :=
  (smallSubsets support).foldl (fun q m => q.addTerm m (parityCoefficient m.length * k)) p

/-- Replaces a polynomial by the parity of the listed variables, each counted once. Of indices
that are no variables the least is reported. -/
def setParity (p : PhasePolynomial) (indices : List Nat) : Result PhasePolynomial := do
  let support := Monomial.ofList indices
  Result.indicesBelow p.numVariables support
  return (zero p.numVariables).addParity support 1

/-- The parity of the listed variables as a polynomial in `n` variables. -/
def parity (n : Nat) (indices : List Nat) : Result PhasePolynomial :=
  (zero n).setParity indices

/-! ### Substitution -/

/-- Multiplies a product by the substitutes of the remaining variables of a monomial, stopping
once it vanishes. `none` if a variable has no substitute. -/
def expandTerm? (substitutes : List SparseSum) : SparseSum → Monomial → Option SparseSum
  | product, [] => some product
  | product, i :: rest => do
      let substitute ← substitutes[i]?
      let next := product.mul substitute
      if next.isEmpty then some [] else expandTerm? substitutes next rest

/-- The polynomial with substitutes for its variables, expanded into monomials of any degree. -/
def expand? (p : PhasePolynomial) (substitutes : List SparseSum) : Option SparseSum := do
  let expanded ← p.terms.mapM fun (m, k) => expandTerm? substitutes [([], k)] m
  some (SparseSum.collect expanded.flatten)

/-- The common number of variables of the substitutes, or else that of the polynomial itself. -/
def commonVariables (p : PhasePolynomial) (substitutes : List PhasePolynomial) : Nat :=
  (substitutes.head?.map numVariables).getD p.numVariables

/-- The polynomial with the `i`-th substitute in the place of `xᵢ`. There must be one substitute
for each variable, and all must have the same number of variables. -/
def evaluate (p : PhasePolynomial) (substitutes : List PhasePolynomial) :
    Result PhasePolynomial := do
  Result.sameSize p.numVariables substitutes.length
  let n := p.commonVariables substitutes
  substitutes.forM fun q => Result.sameSize n q.numVariables
  let expanded ← Result.ofOption (p.expand? (substitutes.map terms))
  match expanded.find? fun (m, _) => maxDegree < m.length with
  | some (m, k) => throw (.degreeOverflow m.length k)
  | none => return (zero n).addTerms expanded

end AffinePhase.PhasePolynomial
