import AffinePhase.Element.Text
import AffinePhase.Proofs.Element.Valid
import AffinePhase.Proofs.Polynomial.Text

/-!
# Formulas identify elements

An element is written as a polynomial and as the sums of its output bits. A sum of output bits has
the form of a polynomial whose coefficients are one, so it is read in the same way; the sums are
found by their commas, and the polynomial ends with its line. The number of sums is the number of
qubits, so that the text says of how many qubits it speaks.

## Main definitions

* `AffineMap.outputTerms`: an output bit as a sum of terms.

## Main results

* `AffineMap.eq_of_formula`: affine maps are determined by their formulas.
* `Element.formulas_identify`: so are elements, and polynomials that store residues.
-/

namespace AffinePhase

open Text PhasePolynomial

/-! ### Affine maps -/

namespace AffineMap

variable {n n' : ℕ} {f g : AffineMap} {row row' : BitVector} {b b' : Bool}

/-- An output bit as a sum of terms: the input bits in `row`, and one if `flipped`. -/
def outputTerms (row : BitVector) (flipped : Bool) : List (Monomial × Z8) :=
  row.support.map (fun i => ([i], 1)) ++ if flipped then [([], 1)] else []

/-- An output bit is written as a sum of terms. -/
theorem outputFormula_eq (row : BitVector) (flipped : Bool) :
    outputFormula row flipped = sumFormula (outputTerms row flipped) := by
  have hterms : (outputTerms row flipped).map termFormula =
      row.support.map Text.variable ++ (if flipped then ["1".toList] else []) := by
    have hvariable (i : ℕ) : termFormula ([i], 1) = Text.variable i := List.append_nil _
    rw [outputTerms, List.map_append, List.map_map]
    refine congrArg₂ _ (List.map_congr_left fun i _ => hvariable i) ?_
    cases flipped <;> rfl
  rw [outputFormula, ← hterms, sumFormula, shownTerms]
  cases outputTerms row flipped <;> rfl

/-- The terms of an output bit have the coefficient one. -/
theorem ne_zero_of_mem_outputTerms : ∀ t ∈ outputTerms row b, t.2 ≠ 0 := by
  have hone : (1 : Z8) ≠ 0 := by decide
  intro t ht
  obtain ht | ht := List.mem_append.mp ht
  · obtain ⟨i, -, rfl⟩ := List.mem_map.mp ht
    exact hone
  · cases b with
    | false => cases ht
    | true => exact List.mem_singleton.mp ht ▸ hone

/-- The input bits of an output bit are those of its row. -/
theorem mem_outputTerms (b : Bool) {i : ℕ} :
    ([i], 1) ∈ outputTerms row b ↔ row.bit i = true := by
  rw [← BitVector.mem_support]
  cases b <;> simp [outputTerms]

/-- An output bit has a constant term exactly if it is flipped. -/
theorem nil_mem_outputTerms (row : BitVector) : ([], 1) ∈ outputTerms row b ↔ b = true := by
  cases b <;> simp [outputTerms]

/-- **An output bit is determined by its sum.** -/
theorem outputFormula_inj (h : outputFormula row b = outputFormula row' b') :
    (∀ i, row.bit i = row'.bit i) ∧ b = b' := by
  rw [outputFormula_eq, outputFormula_eq] at h
  have hterms := sumFormula_inj ne_zero_of_mem_outputTerms ne_zero_of_mem_outputTerms h
  refine ⟨fun i => ?_, ?_⟩
  · rw [Bool.eq_iff_iff, ← mem_outputTerms b, hterms, mem_outputTerms]
  · rw [Bool.eq_iff_iff, ← nil_mem_outputTerms row, hterms, nil_mem_outputTerms]

/-- The sums of the output bits. -/
def outputs (f : AffineMap) : List (List Char) :=
  f.linear.rows.zipIdx.map fun (row, i) => outputFormula row (f.shift.bit i)

/-- The sums are found by their commas. -/
theorem outputs_eq_of_formula (h : f.formula = g.formula) : f.outputs = g.outputs := by
  have hcomma : ',' ∉ termAlphabet := by decide
  have hparts (f : AffineMap) : ∀ part ∈ f.outputs, part ≠ [] ∧ ',' ∉ part := by
    intro part hpart
    obtain ⟨⟨row, i⟩, -, rfl⟩ := List.mem_map.mp hpart
    dsimp only
    rw [outputFormula_eq]
    refine ⟨sumFormula_ne_nil _, fun hmem => ?_⟩
    obtain hmem | hmem | hmem := mem_sumFormula hmem
    · cases hmem
    · cases hmem
    · exact hcomma hmem
  have hseparator : ", ".toList = ',' :: " ".toList := rfl
  refine joined_inj hseparator (hparts f) (hparts g) ?_
  exact List.append_cancel_left (List.append_cancel_right h)

/-- The formulas of the output bits, one for each row. -/
theorem getElem?_outputs (f : AffineMap) (i : ℕ) :
    f.outputs[i]? = f.linear.rows[i]?.map fun row => outputFormula row (f.shift.bit i) := by
  rw [outputs, List.getElem?_map, List.getElem?_zipIdx, Option.map_map, Nat.zero_add]
  rfl

/-- **Affine maps are determined by their formulas**, the number of bits included. -/
theorem eq_of_formula (hf : f.IsOn n) (hg : g.IsOn n') (h : f.formula = g.formula) :
    n = n' ∧ f = g := by
  have houtputs := outputs_eq_of_formula h
  have hn : n = n' := by
    have hlength := congrArg List.length houtputs
    rwa [outputs, outputs, List.length_map, List.length_map, List.length_zipIdx, List.length_zipIdx,
      hf.linear.rowCount, hg.linear.rowCount] at hlength
  subst hn
  have hbits : ∀ i < n, (∀ j, f.linear.entry i j = g.linear.entry i j) ∧
      f.shift.bit i = g.shift.bit i := by
    intro i hi
    obtain ⟨row, hrow⟩ := hf.linear.exists_row hi
    obtain ⟨row', hrow'⟩ := hg.linear.exists_row hi
    have houtput := congrArg (·[i]?) houtputs
    simp only [getElem?_outputs, hrow, hrow', Option.map_some] at houtput
    obtain ⟨hrows, hshift⟩ := outputFormula_inj (Option.some.inj houtput)
    refine ⟨fun j => ?_, hshift⟩
    rw [BitMatrix.entry_eq_bit hrow, BitMatrix.entry_eq_bit hrow', hrows]
  exact ⟨rfl, ext_bits hf hg (fun i hi j _ => (hbits i hi).1 j) fun i hi => (hbits i hi).2⟩

end AffineMap

/-! ### Elements -/

namespace Element

variable {n n' : ℕ} {e e' : Element}

/-- The second line begins with the end of the first, which is not in a polynomial. -/
theorem lineEnd_not_mem_formula (p : PhasePolynomial) : '\n' ∉ p.formula := by
  intro hmem
  rw [formula_eq] at hmem
  obtain hmem | hmem | hmem := mem_sumFormula hmem
  · exact absurd hmem (by decide)
  · exact absurd hmem (by decide)
  · exact absurd hmem (by decide)

/-- The two lines, each with what stands before it. -/
theorem formulas_eq (e : Element) : e.formulas = "phase polynomial = ".toList ++
    (e.poly.formula ++ ("\naffine function = ".toList ++ e.affine.formula)) := by
  -- by `unfold`, as the equation that `rw` and `simp` use takes long to form
  unfold formulas
  simp only [List.append_assoc]

/-- The two lines of an element are found by the end of the first. -/
theorem formulas_inj (h : e.formulas = e'.formulas) :
    e.poly.formula = e'.poly.formula ∧ e.affine.formula = e'.affine.formula := by
  have hsecond (text : List Char) : BeginsWith '\n' ("\naffine function = ".toList ++ text) := by
    have hline : "\naffine function = ".toList = '\n' :: "affine function = ".toList := rfl
    exact hline ▸ beginsWith_cons '\n' _
  rw [formulas_eq, formulas_eq] at h
  obtain ⟨hpoly, haffine⟩ := append_inj_of_beginsWith (List.append_cancel_left h)
    (lineEnd_not_mem_formula _) (lineEnd_not_mem_formula _) (hsecond _) (hsecond _)
  exact ⟨hpoly, List.append_cancel_left haffine⟩

/-- **Formulas identify elements.** Valid elements on any numbers of qubits are written in the same
way only if they are equal, and so are polynomials in the same variables whose tables have their
sizes and store residues. -/
theorem formulas_identify :
    (∀ (n n' : ℕ) (e e' : Element), e.ValidOn n → e'.ValidOn n' →
      (e.formulas = e'.formulas ↔ n = n' ∧ e = e')) ∧
    ∀ p q : PhasePolynomial, p.IsConsistent → q.IsConsistent → p.IsReduced → q.IsReduced →
      p.numVariables = q.numVariables → (p.formula = q.formula ↔ p = q) := by
  refine ⟨fun n n' e e' he he' => ⟨fun h => ?_, fun h => congrArg formulas h.2⟩,
    fun p q hp hq hpr hqr hn => ⟨eq_of_formula hp hq hpr hqr hn, congrArg formula⟩⟩
  rw [validOn_iff] at he he'
  obtain ⟨hpoly, haffine⟩ := formulas_inj h
  obtain ⟨rfl, haffine⟩ := AffineMap.eq_of_formula he.affine he'.affine haffine
  have hterms := terms_eq_of_formula hpoly
  have hpoly : e.poly = e'.poly := by
    refine he.poly.ext he'.poly (he.constant.trans he'.constant.symm) fun m _ => ?_
    exact congrArg (SparseSum.coefficient · m) hterms
  cases e
  cases e'
  exact ⟨rfl, congrArg₂ Element.mk hpoly haffine⟩

/-- An element is not written like the identity on as many qubits, nor like that on two, and a
constant one is not written like a variable with the coefficient one. -/
theorem formulas_identify_of_sample :
    sample.formulas ≠ (identity 3).formulas ∧ sample.formulas ≠ (identity 2).formulas ∧
      PhasePolynomial.formula ⟨1, 1, #[0], #[], #[]⟩ ≠
        PhasePolynomial.formula ⟨1, 0, #[1], #[], #[]⟩ := by
  have hsample : sample.ValidOn 3 := by decide +kernel
  have hidentity (n : ℕ) : (identity n).ValidOn n := validOn_iff.mpr (inGroup_identity n)
  refine ⟨fun h => ?_, fun h => ?_, fun h => ?_⟩
  · have hequal := (formulas_identify.1 3 3 sample (identity 3) hsample (hidentity 3)).mp h
    exact absurd hequal.2 (by decide +kernel)
  · have hequal := (formulas_identify.1 3 2 sample (identity 2) hsample (hidentity 2)).mp h
    exact absurd hequal.1 (by decide)
  · have hequal := (formulas_identify.2 ⟨1, 1, #[0], #[], #[]⟩ ⟨1, 0, #[1], #[], #[]⟩
      (by decide) (by decide) (by decide +kernel) (by decide +kernel) rfl).mp h
    exact absurd hequal (by decide)

end Element

end AffinePhase
