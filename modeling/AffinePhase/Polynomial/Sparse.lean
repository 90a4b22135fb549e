import AffinePhase.Residue
import AffinePhase.Polynomial.Term

/-!
# Sums of monomials of any degree

While a substitution is expanded, monomials of any degree occur. A `SparseSum` lists them with
their coefficients. In normal form the monomials are strictly increasing in lexicographic order,
a prefix coming first, and no coefficient is zero; `SparseSum.collect` brings any list into it.

## Main definitions

* `SparseSum.coefficient`, `SparseSum.valueAt`: what a list of terms stands for.
* `SparseSum.add`, `SparseSum.collect`: the sum of normal forms, and the normal form.
* `SparseSum.mul`: the product, which leaves out factors that cannot contribute.
-/

namespace AffinePhase

/-- A sum of monomials with coefficients modulo eight. -/
abbrev SparseSum := List (Monomial × Z8)

namespace SparseSum

/-- The coefficient of a monomial: the sum over its occurrences. -/
def coefficient (s : SparseSum) (m : Monomial) : Z8 :=
  (s.map fun (m', k) => if m' = m then k else 0).foldr (· + ·) 0

/-- The value at a boolean point. -/
def valueAt (s : SparseSum) (point : Nat → Bool) : Z8 :=
  (s.map fun (m, k) => if m.all point then k else 0).foldr (· + ·) 0

/-! ### Normal form -/

/-- A term in front of a sum, unless its coefficient is zero. -/
def consTerm (m : Monomial) (k : Z8) (s : SparseSum) : SparseSum :=
  if k = 0 then s else (m, k) :: s

/-- Puts a term in its place in a sum; `addRest` adds further terms into what comes after it. -/
def addTermWith (m : Monomial) (k : Z8) (addRest : SparseSum → SparseSum) : SparseSum → SparseSum
  | [] => (m, k) :: addRest []
  | (m', k') :: rest =>
      if m < m' then (m, k) :: addRest ((m', k') :: rest)
      else if m = m' then consTerm m (k + k') (addRest rest)
      else (m', k') :: addTermWith m k addRest rest

/-- The sum of two sums in normal form, in normal form. -/
def add : SparseSum → SparseSum → SparseSum
  | [] => fun t => t
  | (m, k) :: s => addTermWith m k (add s)

/-- Adds one more sum to a list of sums that counts in binary: the place `i` is filled if `2^i` is
a summand of the number of sums added so far, and then holds the sum of that many. -/
def carry (s : SparseSum) : List (Option SparseSum) → List (Option SparseSum)
  | [] => [some s]
  | none :: places => some s :: places
  | some t :: places => none :: carry (add t s) places

/-- The sum over all places. -/
def total (places : List (Option SparseSum)) : SparseSum :=
  places.foldl (fun sum place => add (place.getD []) sum) []

/-- The normal form: sorted, each monomial once, no zero coefficients. -/
def collect (s : SparseSum) : SparseSum :=
  total ((s.filter fun (_, k) => k ≠ 0).foldl (fun places t => carry [t] places) [])

/-! ### Products -/

/-- The least number of times that two divides a coefficient, three for the empty sum. -/
def valuation (s : SparseSum) : Nat :=
  (s.map fun (_, k) => k.valuation).foldl min 3

/-- All products of a term of `s` with one term that do not vanish. -/
def mulTerm (s : SparseSum) (t : Monomial × Z8) : SparseSum :=
  (s.filter fun (_, k) => k * t.2 ≠ 0).map fun (m, k) => (Monomial.union m t.1, k * t.2)

/-- The product in normal form. A factor of valuation `v` only meets coefficients of valuation
below `3 - v`: with any other the product vanishes modulo eight. -/
def mul (s t : SparseSum) : SparseSum :=
  collect ((t.filter fun (_, k) => k.valuation + s.valuation < 3).flatMap s.mulTerm)

end SparseSum

end AffinePhase
