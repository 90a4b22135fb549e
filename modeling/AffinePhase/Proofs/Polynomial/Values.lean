import AffinePhase.Proofs.Polynomial.Arithmetic

/-!
# Polynomials are determined by their values

Over the residues modulo eight a polynomial may vanish at every residue without being zero, as
`4x² + 4x` does. Here the points are boolean and the polynomials multilinear, and then the values
determine the coefficients, zero divisors notwithstanding: the coefficient of a monomial is the
value at its indicator less the coefficients of the smaller monomials. Tables that store residues
only are therefore equal as soon as the values agree. Nothing is asked of the coefficients beyond
that; they need not be those of a group element.

## Main results

* `PhasePolynomial.IsConsistent.forall_evaluateAt_iff`: the points of evaluation are all
  assignments to the variables.
* `PhasePolynomial.IsConsistent.isZero_iff`: what the test for zero decides.
* `PhasePolynomial.eq_iff_evaluateAt`: equality is equality of values.
-/

namespace AffinePhase.PhasePolynomial

variable {p q : PhasePolynomial}

/-- Every assignment to the variables is a point of evaluation. -/
theorem IsConsistent.evaluateAt_range (hp : p.IsConsistent) (x : ℕ → Bool) :
    p.evaluateAt ((List.range p.numVariables).map x) = .ok (p.valueAt x) := by
  have hlength : ((List.range p.numVariables).map x).length = p.numVariables := by simp
  rw [evaluateAt_eq p hlength]
  refine congrArg Except.ok (hp.valueAt_congr fun i hi => ?_)
  simp [List.getElem?_range hi]

/-- Agreement at all points of evaluation is agreement of the values. -/
theorem IsConsistent.forall_evaluateAt_iff (hp : p.IsConsistent) (hq : q.IsConsistent)
    (hn : p.numVariables = q.numVariables) :
    (∀ point : List Bool, point.length = p.numVariables →
        ∃ k, p.evaluateAt point = .ok k ∧ q.evaluateAt point = .ok k) ↔
      ∀ x, p.valueAt x = q.valueAt x := by
  constructor
  · intro h x
    obtain ⟨k, hpk, hqk⟩ := h ((List.range p.numVariables).map x) (by simp)
    rw [hp.evaluateAt_range] at hpk
    rw [hn, hq.evaluateAt_range] at hqk
    exact (Except.ok.inj hpk).trans (Except.ok.inj hqk).symm
  · intro h point hpoint
    refine ⟨_, evaluateAt_eq p hpoint, ?_⟩
    rw [evaluateAt_eq q (hpoint.trans hn), h]

/-- The test for zero asks for the coefficients that the bytes stand for. -/
theorem IsConsistent.isZero_iff (hp : p.IsConsistent) :
    p.isZero = true ↔ ∀ m, p.coefficient m = 0 := by
  rw [isZero, List.isEmpty_iff]
  constructor
  · intro hnil m
    rw [coefficient, hnil, SparseSum.coefficient_nil]
  · intro hzero
    refine List.eq_nil_iff_forall_not_mem.mpr fun t ht => ?_
    obtain ⟨hm, hk, hne⟩ := hp.mem_terms.mp ht
    rw [← hk, ← hp.coefficient_of_isTerm hm] at hne
    exact hne (hzero t.1)

/-- **Polynomials are determined by their values.** Two polynomials in the same variables whose
tables have their sizes and store residues, whatever these are, are equal as stored values exactly
if their values agree at every boolean point. The test for zero succeeds exactly if every value is
zero. -/
theorem eq_iff_evaluateAt (hp : p.IsConsistent) (hq : q.IsConsistent) (hpr : p.IsReduced)
    (hqr : q.IsReduced) (hn : p.numVariables = q.numVariables) :
    (p = q ↔ ∀ point : List Bool, point.length = p.numVariables →
      ∃ k, p.evaluateAt point = .ok k ∧ q.evaluateAt point = .ok k) ∧
    (p.isZero = true ↔ ∀ point : List Bool, point.length = p.numVariables →
      p.evaluateAt point = .ok 0) := by
  have hzero := (isGroupOn_zero p.numVariables).consistent
  constructor
  · rw [hp.forall_evaluateAt_iff hq hn]
    constructor
    · intro heq x
      rw [heq]
    · intro h
      exact hpr.ext hqr hp hq hn (hp.coefficient_eq_of_valueAt hq h)
  · rw [hp.isZero_iff]
    constructor
    · intro hcoeff point hpoint
      rw [evaluateAt_eq p hpoint]
      exact congrArg Except.ok (valueAt_eq_of_coefficient (s := []) hcoeff _)
    · intro hvalue m
      -- the polynomial has the values of the zero polynomial
      have hsame : ∀ x, p.valueAt x = (zero p.numVariables).valueAt x := by
        intro x
        rw [valueAt_zero]
        exact Except.ok.inj ((hp.evaluateAt_range x).symm.trans (hvalue _ (by simp)))
      rw [hp.coefficient_eq_of_valueAt hzero hsame, coefficient_zero]

/-- With odd coefficients of degree two, and coefficients of degree three that differ by four only:
some point tells the two polynomials apart. -/
theorem eq_iff_evaluateAt_of_cubic :
    ¬ ∀ point : List Bool, point.length = 3 →
      ∃ k, evaluateAt ⟨3, 7, #[1, 0, 3], #[1, 5, 0], #[3]⟩ point = .ok k ∧
        evaluateAt ⟨3, 7, #[1, 0, 3], #[1, 5, 0], #[7]⟩ point = .ok k := by
  have hiff := (@eq_iff_evaluateAt ⟨3, 7, #[1, 0, 3], #[1, 5, 0], #[3]⟩
    ⟨3, 7, #[1, 0, 3], #[1, 5, 0], #[7]⟩ (by decide +kernel) (by decide +kernel)
    (by decide +kernel) (by decide +kernel) rfl).1
  intro h
  exact absurd (hiff.mpr h) (by decide)

end AffinePhase.PhasePolynomial
