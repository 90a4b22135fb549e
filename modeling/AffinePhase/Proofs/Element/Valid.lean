import AffinePhase.Element.Basic
import AffinePhase.Proofs.AffineMap
import AffinePhase.Proofs.Polynomial.Arithmetic

/-!
# Valid elements

Validation is a chain of checks on stored tables, words and an echelon form. For elements whose
matrix has rows of equal length, as the representation of matrices promises, it succeeds exactly if
the polynomial and the affine map are those of a group element. Such an element is determined by
its action: by its affine map and the values of its polynomial up to a constant.

## Main definitions

* `Element.InGroup`: an element of the group on `n` qubits.
* `Element.ValidOn`: what validation says of it.

## Main results

* `Element.isValid_iff`: what validation checks.
* `Element.inGroup_iff`: the valid elements are those of the group.
* `Element.InGroup.ext`: elements with the same action are equal as stored values.
-/

open scoped Fin.CommRing

namespace AffinePhase.Element

variable {e e' : Element} {n : ℕ}

/-- Validation succeeds exactly if every check of the chain does. -/
theorem isValid_iff :
    e.IsValid ↔ e.poly.IsConsistent ∧ e.poly.constant = 0 ∧ e.poly.HasGroupCoefficients ∧
      e.affine.hasSize e.numQubits = true ∧ e.affine.linear.isInvertible? = some true := by
  rw [IsValid, validate, Result.require_bind_eq_ok, Result.require_bind_eq_ok,
    Result.require_bind_eq_ok, Result.require_bind_eq_ok, Result.bind_eq_ok]
  refine and_congr_right fun _ => and_congr_right fun _ => and_congr_right fun _ =>
    and_congr_right fun _ => ?_
  constructor
  · rintro ⟨b, hb, hrequired⟩
    obtain rfl : b = true := Result.require_eq_ok.mp hrequired
    exact Result.ofOption_eq_ok.mp hb
  · exact fun h => ⟨true, Result.ofOption_eq_ok.mpr h, rfl⟩

/-- An element of the group on `n` qubits. -/
structure InGroup (e : Element) (n : ℕ) : Prop where
  /-- The polynomial is one of a group element. -/
  poly : e.poly.IsGroupOn n
  /-- Global phase is not tracked. -/
  constant : e.poly.constant = 0
  /-- The affine map acts on `n` bits. -/
  affine : e.affine.IsOn n
  /-- The affine map is reversible. -/
  unit : IsUnit (e.affine.linear.toMatrix n n)

theorem InGroup.numQubits_eq (h : e.InGroup n) : e.numQubits = n := h.poly.numVariables

/-- **Validation is exact** for matrices whose rows have equal lengths. -/
theorem inGroup_iff :
    e.InGroup n ↔ e.numQubits = n ∧ e.IsValid ∧ e.affine.linear.IsRectangular := by
  rw [isValid_iff]
  constructor
  · rintro ⟨⟨rfl, hcons, hcoeff⟩, hconst, haffine, hunit⟩
    obtain ⟨hsize, hrect⟩ := AffineMap.isOn_iff.mp haffine
    exact ⟨rfl, ⟨hcons, hconst, hcoeff, hsize,
      (BitMatrix.isInvertible?_eq_true_iff haffine.linear).mpr hunit⟩, hrect⟩
  · rintro ⟨rfl, ⟨hcons, hconst, hcoeff, hsize, hinv⟩, hrect⟩
    have haffine : e.affine.IsOn e.numQubits := AffineMap.isOn_iff.mpr ⟨hsize, hrect⟩
    exact ⟨⟨rfl, hcons, hcoeff⟩, hconst, haffine,
      (BitMatrix.isInvertible?_eq_true_iff haffine.linear).mp hinv⟩

/-- A valid element on `n` qubits, whose matrix has rows of equal length as the representation of
matrices promises. -/
def ValidOn (e : Element) (n : ℕ) : Prop :=
  e.numQubits = n ∧ e.IsValid ∧ e.affine.linear.IsRectangular

instance (e : Element) (n : ℕ) : Decidable (e.ValidOn n) :=
  inferInstanceAs (Decidable (_ ∧ _ ∧ _))

/-- The valid elements are those of the group. -/
theorem validOn_iff : e.ValidOn n ↔ e.InGroup n := inGroup_iff.symm

/-- The identity is a group element. -/
theorem inGroup_identity (n : ℕ) : (identity n).InGroup n where
  poly := PhasePolynomial.isGroupOn_zero n
  constant := rfl
  affine := AffineMap.isOn_identity n
  unit := by
    rw [identity, AffineMap.toMatrix_identity]
    exact isUnit_one

/-- The value of a polynomial where all variables are false is its constant. -/
theorem InGroup.valueAt_false (h : e.InGroup n) : e.poly.valueAt (fun _ => false) = 0 := by
  obtain ⟨S, hS, -⟩ := SparseSum.exists_support e.poly.terms []
  have hconst : e.poly.coefficient [] = 0 := by
    rw [h.poly.consistent.coefficient_nil, h.constant]
    rfl
  rw [PhasePolynomial.valueAt, SparseSum.valueAt_eq_sum hS]
  refine Finset.sum_eq_zero fun m _ => ?_
  cases m with
  | nil => rw [List.all_nil, if_pos rfl]; exact hconst
  | cons i m => rw [List.all_cons, Bool.false_and, if_neg (by decide)]

/-- **An element is determined by its action**, up to global phase. -/
theorem InGroup.ext (h : e.InGroup n) (h' : e'.InGroup n) (haffine : e.affine = e'.affine)
    {c d : Z8} (hvalue : ∀ x, e.poly.valueAt x + c = e'.poly.valueAt x + d) : e = e' := by
  have hphase : c = d := by
    have hfalse := hvalue fun _ => false
    rwa [h.valueAt_false, h'.valueAt_false, zero_add, zero_add] at hfalse
  have hpoly : e.poly = e'.poly := by
    refine h.poly.eq_of_valueAt h'.poly (h.constant.trans h'.constant.symm) fun x => ?_
    have hx := hvalue x
    rw [hphase] at hx
    exact add_right_cancel hx
  cases e
  cases e'
  obtain rfl : _ = _ := hpoly
  obtain rfl : _ = _ := haffine
  rfl

/-- An element on three qubits with terms of every degree and all parts of the affine map. -/
def sample : Element :=
  ⟨⟨3, 0, #[1, 0, 3], #[2, 0, 6], #[4]⟩,
    ⟨⟨3, [.ofList [false, true, true], .ofList [true, true, false], .ofList [true, true, true]]⟩,
      .ofList [true, false, true]⟩⟩

end AffinePhase.Element
