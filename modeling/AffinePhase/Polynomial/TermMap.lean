import AffinePhase.Polynomial.Bytes

/-!
# Products of sums in bytes

A sum of monomials of any degree may be kept as a map from monomials to bytes, with the monomials in
lexicographic order. A product is then formed in place: the product of two terms is added to the
entry of the monomial that has the variables of both, and entries that cancel are dropped in the
end. A term of the right factor is passed over if its byte and the bytes of the left factor together
have three factors of two, which the number of trailing zeros shows.

## Main definitions

* `Monomial.merged`: the variables of two monomials, by merging.
* `TermMap`, `TermMap.accumulate`: maps, and adding to an entry.
* `TermMap.multiplied`: the product.
* `PhasePolynomial.evaluateInBytes`: substitution by such products.
-/

namespace AffinePhase

namespace Monomial

/-- Neighbours that are equal, once. -/
def withoutRepeats : List Nat → List Nat
  | [] => []
  | [i] => [i]
  | i :: j :: rest =>
      if i = j then withoutRepeats (j :: rest) else i :: withoutRepeats (j :: rest)

/-- The indices of two increasing lists in one, those of both once. -/
def merged (a b : Monomial) : Monomial :=
  withoutRepeats (List.merge a b)

end Monomial

/-- The number of lowest bits that are zero, all eight of them in the byte zero. -/
def Byte.trailingZeros (v : UInt8) : Nat :=
  ((List.range 8).find? v.toNat.testBit).getD 8

/-- A map from monomials to bytes, with the monomials in increasing order. -/
abbrev TermMap := List (Monomial × UInt8)

namespace TermMap

/-- Adds a byte to the entry of a monomial, which starts at zero if there is none. -/
def accumulate (m : Monomial) (value : UInt8) : TermMap → Result TermMap
  | [] => do
      let total ← Byte.addReduced 0 value
      return [(m, total)]
  | (m', v) :: rest =>
      if m < m' then do
        let total ← Byte.addReduced 0 value
        return (m, total) :: (m', v) :: rest
      else if m = m' then do
        let total ← Byte.addReduced v value
        return (m, total) :: rest
      else do
        let changed ← accumulate m value rest
        return (m', v) :: changed

/-- Adds the product of two terms, unless it vanishes. -/
def addProduct (product : TermMap) (a b : Monomial × UInt8) : Result TermMap := do
  let value ← Byte.mulReduced a.2 b.2
  if value ≠ 0 then accumulate (a.1.merged b.1) value product else return product

/-- Adds the products of all terms with one term, unless its byte is passed over. -/
def addProducts (passedOver : UInt8 → Bool) (left product : TermMap) (b : Monomial × UInt8) :
    Result TermMap :=
  if passedOver b.2 then return product
  else left.foldlM (fun product a => addProduct product a b) product

/-- The product of the left factor and of those terms of the right one whose bytes are not passed
over. -/
def multipliedExcept (passedOver : UInt8 → Bool) (left right : TermMap) : Result TermMap := do
  let product ← right.foldlM (addProducts passedOver left) []
  return product.filter fun a => a.2 ≠ 0

/-- The least number of trailing zeros of a byte, three for the empty sum. -/
def leastZeros (t : TermMap) : Nat :=
  (t.map fun a => Byte.trailingZeros a.2).min?.getD 3

/-- The product. Terms of the right factor with which every product vanishes are passed over. -/
def multiplied (left right : TermMap) : Result TermMap :=
  let zeros := left.leastZeros
  multipliedExcept (fun v => 3 ≤ Byte.trailingZeros v + zeros) left right

/-- The map of a list of terms with different monomials. -/
def ofTerms (ts : List (Monomial × UInt8)) : TermMap :=
  ts.mergeSort fun a b => !decide (b.1 < a.1)

end TermMap

namespace PhasePolynomial

/-- As `expandTerm?`. -/
def expandTermInBytes (substitutes : List TermMap) (product : TermMap) :
    Monomial → Result TermMap
  | [] => return product
  | i :: rest => do
      let substitute ← Result.ofOption substitutes[i]?
      let next ← product.multiplied substitute
      if next.isEmpty then return [] else expandTermInBytes substitutes next rest

/-- Adds the terms of the product for one term to a map, where zeros may remain. -/
def addProductOf (substitutes : List TermMap) (expanded : TermMap) (t : Monomial × UInt8) :
    Result TermMap := do
  let product ← expandTermInBytes substitutes [([], t.2)] t.1
  product.foldlM (fun expanded a => TermMap.accumulate a.1 a.2 expanded) expanded

/-- As `expand?`. -/
def expandInBytes (p : PhasePolynomial) (substitutes : List TermMap) : Result TermMap :=
  p.termsInBytes.foldlM (addProductOf substitutes) []

/-- Adds a term of the expansion. A zero is passed over whatever its degree. -/
def addExpanded (q : PhasePolynomial) (a : Monomial × UInt8) : Result PhasePolynomial :=
  if a.2 = 0 then return q
  else if maxDegree < a.1.length then throw (.degreeOverflow a.1.length (Z8.ofByte a.2))
  else q.addTermInBytes a.1 a.2

/-- As `evaluate`. -/
def evaluateInBytes (p : PhasePolynomial) (substitutes : List PhasePolynomial) :
    Result PhasePolynomial := do
  Result.sameSize p.numVariables substitutes.length
  let n := p.commonVariables substitutes
  substitutes.forM fun q => Result.sameSize n q.numVariables
  let expanded ← p.expandInBytes (substitutes.map fun q => TermMap.ofTerms q.termsInBytes)
  expanded.foldlM addExpanded (zero n)

end PhasePolynomial

end AffinePhase
