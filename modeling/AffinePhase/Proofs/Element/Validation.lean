import AffinePhase.Proofs.Element.Valid
import AffinePhase.Proofs.Storage

/-!
# What validation accepts, and what it reports

Parts are given as they are: tables of any lengths with any bytes, a matrix of any shape, a vector
of any length. Validation goes through five conditions in a fixed order and reports the first that
is violated. The order matters for more than the report. The sizes of the matrix are compared before
it is swept, so the last check, which looks at an echelon form, meets a square matrix of the size of
the vector, and only then does the sweep say whether the affine map is a bijection.

## Main definitions

* `Element.Meets`: the condition behind each defect, with sizes as numbers of subsets and
  invertibility as a property of the map.
* `Element.conditions`: the order of the conditions.

## Main results

* `Element.validate_eq_forM`: validation is one check after the other.
* `Element.storedValidate_iff`: what validation accepts and what it reports.
-/

namespace AffinePhase

namespace PhasePolynomial

variable {p : PhasePolynomial}

/-- The sizes of the tables, as numbers of subsets. -/
theorem isConsistent_iff_choose :
    p.IsConsistent ↔ p.linear.size = p.numVariables ∧
      p.quadratic.size = p.numVariables.choose 2 ∧ p.cubic.size = p.numVariables.choose 3 := by
  rw [IsConsistent, binomial_eq_choose, binomial_eq_choose]

/-- **The comparison of sizes gives an answer** if the number of triples can be computed. -/
theorem storedIsConsistent_eq {b : ℕ} (h : Storage.binomial p.numVariables 3 = .ok b) :
    p.storedIsConsistent = .ok (decide p.IsConsistent) := by
  obtain ⟨hpairs, htriples⟩ := Storage.binomial_two_three h
  simp only [storedIsConsistent, hpairs, htriples, isConsistent_iff_choose, Result.ok_bind]
  by_cases hlinear : p.linear.size = p.numVariables
  · by_cases hquadratic : p.quadratic.size = p.numVariables.choose 2
    · simp [hlinear, hquadratic, pure, Except.pure]
    · simp [hlinear, hquadratic, pure, Except.pure]
  · simp [hlinear, pure, Except.pure]

end PhasePolynomial

namespace Element

variable {e : Element}

/-- The condition whose violation is the defect. The last two defects are not found in parts. -/
def Meets (e : Element) : Defect → Prop
  | .termCount => e.poly.linear.size = e.numQubits ∧ e.poly.quadratic.size = e.numQubits.choose 2 ∧
      e.poly.cubic.size = e.numQubits.choose 3
  | .constantTerm => e.poly.constant = 0
  | .coefficientRange => (∀ w ∈ e.poly.linear, w < 8) ∧
      (∀ w ∈ e.poly.quadratic, w < 8 ∧ w % 2 = 0) ∧ ∀ w ∈ e.poly.cubic, w = 0 ∨ w = 4
  | .affineSize => e.affine.shift.length = e.numQubits ∧
      e.affine.linear.rowCount = e.numQubits ∧ e.affine.linear.columns = e.numQubits
  | .singular => e.affine.IsBijection e.numQubits
  | .missingTerm | .notSynthesizable => True

/-- The conditions in the order in which they are checked. -/
def conditions : List Defect :=
  [.termCount, .constantTerm, .coefficientRange, .affineSize, .singular]

/-- The check of one condition. -/
def check (e : Element) : Defect → Result Unit
  | .termCount => Result.require e.poly.IsConsistent (.invalidElement .termCount)
  | .constantTerm => Result.require (e.poly.constant = 0) (.invalidElement .constantTerm)
  | .coefficientRange =>
      Result.require e.poly.HasGroupCoefficients (.invalidElement .coefficientRange)
  | .affineSize => Result.require (e.affine.hasSize e.numQubits) (.invalidElement .affineSize)
  | .singular => do
      let invertible ← Result.ofOption e.affine.linear.isInvertible?
      Result.require invertible (.invalidElement .singular)
  | .missingTerm | .notSynthesizable => .ok ()

/-- Validation is one check after the other. -/
theorem validate_eq_forM (e : Element) : e.validate = conditions.forM e.check := by
  have hlast : ∀ x : Result Unit, x = x >>= fun _ => .ok () := by
    rintro (_ | _) <;> rfl
  rw [validate, hlast (Result.ofOption e.affine.linear.isInvertible? >>= _)]
  rfl

/-- The sizes are compared before the matrix is swept. -/
theorem affineSize_mem {before after : List Defect}
    (h : conditions = before ++ .singular :: after) : Defect.affineSize ∈ before := by
  match before, h with
  | _ :: _ :: _ :: a :: _, h => simp_all [conditions]

/-- **Each check decides its condition**, the last one if the sizes fit. -/
theorem check_cases (hrect : e.affine.linear.IsRectangular) {d : Defect} (hd : d ∈ conditions)
    (hsize : d = .singular → e.Meets .affineSize) :
    e.check d = .ok () ∧ e.Meets d ∨ e.check d = .error (.invalidElement d) ∧ ¬ e.Meets d := by
  match d, hd with
  | .termCount, _ => exact Result.require_decides PhasePolynomial.isConsistent_iff_choose
  | .constantTerm, _ => exact Result.require_decides Iff.rfl
  | .coefficientRange, _ => exact Result.require_decides Iff.rfl
  | .affineSize, _ => exact Result.require_decides AffineMap.hasSize_iff
  | .singular, _ =>
      have hon : e.affine.IsOn e.numQubits :=
        AffineMap.isOn_iff.mpr ⟨AffineMap.hasSize_iff.mpr (hsize rfl), hrect⟩
      obtain ⟨b, hb, hunit⟩ := BitMatrix.exists_isInvertible? hon.linear
      rw [check, hb, Result.ofOption_some, Result.ok_bind]
      exact Result.require_decides (hunit.trans (AffineMap.isBijection_iff hon).symm)

/-- Room for the terms of degree three is all that validation needs. -/
theorem storedValidate_eq {b : ℕ} (h : Storage.binomial e.numQubits 3 = .ok b) :
    e.storedValidate = e.validate := by
  rw [storedValidate, PhasePolynomial.storedIsConsistent_eq h, Result.ok_bind]

/-- **Validation accepts exactly the group elements, and reports the first violation.** The
polynomial may have tables of any lengths with any bytes, the matrix any shape and the vector any
length; the rows of the matrix have equal lengths, and the number of triples of variables can be
computed. Then validation comes to an end: it succeeds if all conditions hold, and otherwise its
failure names the first that does not. Construction from parts succeeds and fails in the same
way. -/
theorem storedValidate_iff (hrect : e.affine.linear.IsRectangular)
    (hfits : ∃ b, Storage.binomial e.numQubits 3 = .ok b) :
    (e.storedValidate = .ok () ↔ ∀ d ∈ conditions, e.Meets d) ∧
    (∀ f, e.storedValidate = .error f ↔
      ∃ d, Result.FirstViolation e.Meets conditions d ∧ f = .invalidElement d) ∧
    storedOfParts e.poly e.affine = e.storedValidate.map fun _ => e := by
  obtain ⟨b, hb⟩ := hfits
  rw [storedOfParts, storedValidate_eq hb, validate_eq_forM, ← and_assoc]
  constructor
  · refine Result.forM_decides fun before d after hsplit hbefore => ?_
    refine check_cases hrect (Result.mem_of_split hsplit) fun hsingular => ?_
    exact hbefore _ (affineSize_mem (hsingular ▸ hsplit))
  · cases conditions.forM e.check <;> rfl

/-- The sample passes, so it meets the conditions, that its affine map is a bijection among them. -/
theorem storedValidate_iff_of_sample :
    storedOfParts sample.poly sample.affine = .ok sample ∧ ∀ d ∈ conditions, sample.Meets d := by
  have hok : sample.storedValidate = .ok () := by decide +kernel
  obtain ⟨hmeets, -, hparts⟩ :=
    storedValidate_iff (e := sample) (by decide +kernel) ⟨1, by decide +kernel⟩
  rw [hok] at hparts
  exact ⟨hparts, hmeets.mp hok⟩

end Element

end AffinePhase
