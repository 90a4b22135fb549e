import AffinePhase.Element.Text
import AffinePhase.Proofs.Polynomial.Arithmetic
import AffinePhase.Proofs.Text.Decoding

/-!
# Formulas of phase polynomials

A formula is a sum of terms, and a term is a coefficient and a product of variables. The coefficient
ends at the first letter, the product is found by its letters, and the terms by the blanks of the
plus signs. What is left out can be told from what is there: a product without a coefficient has the
coefficient one, and a zero is written only if there is no term, so that it is not a coefficient.

## Main definitions

* `PhasePolynomial.sumFormula`: the sum of any terms.

## Main results

* `PhasePolynomial.termFormula_injective`: a term is determined by its text.
* `PhasePolynomial.sumFormula_inj`: terms with nonzero coefficients are determined by their sum.
* `PhasePolynomial.eq_of_formula`: polynomials that store residues are determined by their formulas.
-/

namespace AffinePhase.PhasePolynomial

open Text

variable {p q : PhasePolynomial} {c : Char} {t t' : Monomial × Z8} {ts ts' : List (Monomial × Z8)}

/-! ### Terms -/

/-- The characters of terms. -/
def termAlphabet : List Char := 'x' :: decimalDigits ++ subscriptDigits

/-- The coefficient as it is written: one is left out in front of a variable. -/
def coefficientFormula (t : Monomial × Z8) : List Char :=
  if t.1.isEmpty || t.2 ≠ 1 then decimal t.2.val else []

/-- A term is its coefficient and then its variables. -/
theorem termFormula_eq (t : Monomial × Z8) :
    termFormula t = coefficientFormula t ++ t.1.flatMap Text.variable := rfl

/-- A coefficient is written in digits. -/
theorem mem_coefficientFormula (h : c ∈ coefficientFormula t) : c ∈ decimalDigits := by
  rw [coefficientFormula] at h
  split at h
  · exact mem_decimalDigits h
  · cases h

/-- A term is written in digits, the letter and subscript digits. -/
theorem mem_termFormula (h : c ∈ termFormula t) : c ∈ termAlphabet := by
  obtain h | h := List.mem_append.mp h
  · exact List.mem_append_left _ (List.mem_cons_of_mem _ (mem_coefficientFormula h))
  · obtain ⟨i, -, hc⟩ := List.mem_flatMap.mp h
    obtain rfl | hc := List.mem_cons.mp hc
    · exact List.mem_append_left _ List.mem_cons_self
    · exact List.mem_append_right _ (mem_subscriptDigits hc)

/-- No term is written as nothing. -/
theorem termFormula_ne_nil (t : Monomial × Z8) : termFormula t ≠ [] := by
  obtain ⟨m, k⟩ := t
  cases m with
  | nil => exact List.append_ne_nil_of_left_ne_nil Nat.toDigits_ne_nil _
  | cons i m => exact List.append_ne_nil_of_right_ne_nil _ (List.cons_ne_nil _ _)

/-- The coefficient is known if it is known whether there is a variable. -/
theorem eq_of_coefficientFormula {m : Monomial} {k k' : Z8}
    (h : coefficientFormula (m, k) = coefficientFormula (m, k')) : k = k' := by
  have hdigits (k : Z8) : decimal k.val ≠ [] := Nat.toDigits_ne_nil
  rw [coefficientFormula, coefficientFormula] at h
  split at h <;> split at h
  · exact Fin.ext (decimal_injective h)
  · exact absurd h (hdigits k)
  · exact absurd h.symm (hdigits k')
  · simp_all

/-- **A term is determined by its text.** -/
theorem termFormula_injective (h : termFormula t = termFormula t') : t = t' := by
  obtain ⟨m, k⟩ := t
  obtain ⟨m', k'⟩ := t'
  have hdigit (t : Monomial × Z8) : 'x' ∉ coefficientFormula t := by
    intro hx
    exact absurd (mem_coefficientFormula hx) (by decide)
  have hletter (m : Monomial) : BeginsWith 'x' (m.flatMap Text.variable) := by
    cases m with
    | nil => exact beginsWith_nil _
    | cons i m => exact beginsWith_cons _ _
  rw [termFormula_eq, termFormula_eq] at h
  obtain ⟨hcoefficient, hproduct⟩ :=
    append_inj_of_beginsWith h (hdigit _) (hdigit _) (hletter m) (hletter m')
  obtain rfl : m = m' := flatMap_variable_injective hproduct
  rw [eq_of_coefficientFormula hcoefficient]

/-! ### Sums -/

/-- The terms that are written: a zero if there are none. -/
def shownTerms (ts : List (Monomial × Z8)) : List (Monomial × Z8) :=
  if ts.isEmpty then [([], 0)] else ts

/-- The sum of some terms. -/
def sumFormula (ts : List (Monomial × Z8)) : List Char :=
  joined " + " ((shownTerms ts).map termFormula)

/-- A polynomial is written as the sum of its terms. -/
theorem formula_eq (p : PhasePolynomial) : p.formula = sumFormula p.terms := by
  rw [formula, isZero, sumFormula, shownTerms]
  split <;> rfl

/-- A sum has spaces and signs besides the characters of its terms. -/
theorem mem_sumFormula (h : c ∈ sumFormula ts) : c = ' ' ∨ c = '+' ∨ c ∈ termAlphabet := by
  obtain h | ⟨part, hpart, h⟩ := mem_joined h
  · simp at h
    tauto
  · obtain ⟨t, -, rfl⟩ := List.mem_map.mp hpart
    exact .inr (.inr (mem_termFormula h))

/-- No sum is written as nothing. -/
theorem sumFormula_ne_nil (ts : List (Monomial × Z8)) : sumFormula ts ≠ [] := by
  obtain ⟨t, rest, hshown⟩ : ∃ t rest, shownTerms ts = t :: rest := by
    cases ts with
    | nil => exact ⟨([], 0), [], rfl⟩
    | cons t ts => exact ⟨t, ts, rfl⟩
  rw [sumFormula, hshown, List.map_cons, joined_cons]
  exact List.append_ne_nil_of_left_ne_nil (termFormula_ne_nil t) _

/-- A zero that is written is not one of the terms. -/
theorem shownTerms_inj (hts : ∀ t ∈ ts, t.2 ≠ 0) (hts' : ∀ t ∈ ts', t.2 ≠ 0)
    (h : shownTerms ts = shownTerms ts') : ts = ts' := by
  cases ts with
  | nil =>
      cases ts' with
      | nil => rfl
      | cons t' ts' =>
          obtain ⟨rfl, -⟩ := List.cons.inj h
          exact absurd rfl (hts' _ List.mem_cons_self)
  | cons t ts =>
      cases ts' with
      | nil =>
          obtain ⟨rfl, -⟩ := List.cons.inj h
          exact absurd rfl (hts _ List.mem_cons_self)
      | cons t' ts' => exact h

/-- **Terms with nonzero coefficients are determined by their sum.** -/
theorem sumFormula_inj (hts : ∀ t ∈ ts, t.2 ≠ 0) (hts' : ∀ t ∈ ts', t.2 ≠ 0)
    (h : sumFormula ts = sumFormula ts') : ts = ts' := by
  have hblank : ' ' ∉ termAlphabet := by decide
  have hparts (ts : List (Monomial × Z8)) :
      ∀ part ∈ (shownTerms ts).map termFormula, part ≠ [] ∧ ' ' ∉ part := by
    intro part hpart
    obtain ⟨t, -, rfl⟩ := List.mem_map.mp hpart
    exact ⟨termFormula_ne_nil t, fun hmem => hblank (mem_termFormula hmem)⟩
  have hseparator : " + ".toList = ' ' :: "+ ".toList := rfl
  have hterms := joined_inj hseparator (hparts ts) (hparts ts') h
  refine shownTerms_inj hts hts' ?_
  exact List.map_injective_iff.mpr (fun _ _ => termFormula_injective) hterms

/-- The listed terms do not vanish. -/
theorem ne_zero_of_mem_terms (p : PhasePolynomial) : ∀ t ∈ p.terms, t.2 ≠ 0 :=
  fun _ ht => of_decide_eq_true (List.mem_filter.mp ht).2

/-- The formula determines the terms. -/
theorem terms_eq_of_formula (h : p.formula = q.formula) : p.terms = q.terms := by
  rw [formula_eq, formula_eq] at h
  exact sumFormula_inj p.ne_zero_of_mem_terms q.ne_zero_of_mem_terms h

/-- **Polynomials that store residues** are determined by their formulas. -/
theorem eq_of_formula (hp : p.IsConsistent) (hq : q.IsConsistent) (hpr : p.IsReduced)
    (hqr : q.IsReduced) (hn : p.numVariables = q.numVariables) (h : p.formula = q.formula) :
    p = q :=
  hpr.ext hqr hp hq hn fun m =>
    congrArg (SparseSum.coefficient · m) (terms_eq_of_formula h)

end AffinePhase.PhasePolynomial
