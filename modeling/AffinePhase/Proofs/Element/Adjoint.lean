import AffinePhase.Proofs.BitMatrix.Inverse
import AffinePhase.Proofs.Element.Gates
import AffinePhase.Proofs.Element.Synthesis

/-!
# Adjoint, conjugate and transpose

The adjoint, the conjugate and the transpose of an element are computed on a circuit for it. The
circuit does not matter: circuits with the same action have inverse, conjugate and transposed
circuits with the same action, and an element is determined by its action. So the adjoint undoes the
element, the conjugate has the same affine map and the opposite polynomial, and the transpose, which
is the adjoint of the conjugate, takes every vector back with the phase it was given.

The affine map of the adjoint is that of linear algebra: its matrix is the inverse found by
elimination, and its shift is the image of the shift under it.

## Main results

* `Element.ofCircuit_congr`: circuits with the same action have the same element.
* `Element.InGroup.adjoint_eq`, `Element.InGroup.conjugate_eq`, `Element.InGroup.transpose_eq`: any
  circuit for the element gives the three.
* `Element.adjoint_is_inverse`: the adjoint is the inverse, and its affine map the inverse map.
* `Element.conjugate_and_transpose`: the meaning of the conjugate and the transpose.
* `Element.ofCircuit_commutes`: the three may be taken of the circuit or of its element.
-/

open scoped Fin.CommRing

namespace AffinePhase.Element

open BasisImage

variable {n : ℕ} {e d : Element} {c c' : Circuit}

/-! ### Any circuit will do -/

/-- A group element with the action of a circuit is the element of the circuit. -/
theorem InGroup.eq_ofCircuit (h : e.InGroup n) (hn : c.numQubits = n)
    (hact : SameAction n e.act c.act) : ofCircuit c = .ok e := by
  obtain ⟨e', he', hgroup, hact'⟩ := exists_ofCircuit hn
  rw [he', hgroup.ext_act h (hact'.trans hact.symm)]

/-- **Circuits with the same action** have the same element. -/
theorem ofCircuit_congr (hn : c.numQubits = n) (hn' : c'.numQubits = n)
    (hact : SameAction n c.act c'.act) : ofCircuit c = ofCircuit c' := by
  obtain ⟨e, he, hgroup, hact'⟩ := exists_ofCircuit hn'
  rw [he, hgroup.eq_ofCircuit hn (hact'.trans hact.symm)]

namespace InGroup

/-- Every group element has a circuit with its action. -/
theorem exists_circuit (h : e.InGroup n) :
    ∃ c, e.toCircuit = .ok c ∧ c.numQubits = n ∧ SameAction n e.act c.act := by
  obtain ⟨c, hc, hn, hback⟩ := h.exists_toCircuit
  exact ⟨c, hc, hn, (Result.of_exists_ok (exists_ofCircuit hn) hback).2⟩

/-- The adjoint is the element of the inverse of any circuit for the element. -/
theorem adjoint_eq (h : e.InGroup n) (hn : c.numQubits = n) (hact : SameAction n e.act c.act) :
    e.adjoint = ofCircuit c.inverse := by
  obtain ⟨c₀, hc₀, hn₀, hact₀⟩ := h.exists_circuit
  rw [adjoint, hc₀, Result.ok_bind]
  exact ofCircuit_congr hn₀ hn (Circuit.inverse_congr hn₀ (hact₀.symm.trans hact))

/-- The conjugate is the element of the conjugate of any circuit for the element. -/
theorem conjugate_eq (h : e.InGroup n) (hn : c.numQubits = n) (hact : SameAction n e.act c.act) :
    e.conjugate = ofCircuit c.conjugate := by
  obtain ⟨c₀, hc₀, hn₀, hact₀⟩ := h.exists_circuit
  rw [conjugate, hc₀, Result.ok_bind]
  exact ofCircuit_congr hn₀ hn (Circuit.conjugate_congr hn₀ hn (hact₀.symm.trans hact))

/-- The transpose is the element of the transpose of any circuit for the element. -/
theorem transpose_eq (h : e.InGroup n) (hn : c.numQubits = n) (hact : SameAction n e.act c.act) :
    e.transpose = ofCircuit c.transpose := by
  obtain ⟨c₀, hc₀, hn₀, hact₀⟩ := h.exists_circuit
  rw [transpose, hc₀, Result.ok_bind]
  exact ofCircuit_congr hn₀ hn (Circuit.transpose_congr hn₀ hn (hact₀.symm.trans hact))

/-! ### The adjoint -/

/-- **The adjoint undoes the element**, before and after it. -/
theorem exists_adjoint (h : e.InGroup n) :
    ∃ d, e.adjoint = .ok d ∧ d.InGroup n ∧ SameAction n (followedBy e.act d.act) ofIndex ∧
      SameAction n (followedBy d.act e.act) ofIndex := by
  obtain ⟨c, hc, hn, hact⟩ := h.exists_circuit
  obtain ⟨d, hd, hgroup, hdact⟩ := exists_ofCircuit (c := c.inverse) hn
  have hbelow : StaysBelow n c.inverse.act := fun index hindex =>
    hn ▸ c.inverse.staysBelow index (hn ▸ hindex)
  refine ⟨d, ?_, hgroup, ?_, ?_⟩
  · rw [adjoint, hc, Result.ok_bind, hd]
  · rw [← c.act_followedBy_inverse]
    exact hact.followedBy (hn ▸ c.staysBelow) hdact
  · rw [← c.inverse_followedBy_act]
    exact hdact.followedBy hbelow hact

/-- An element that undoes another one is its inverse for the product. -/
theorem product_eq_identity (he : e.InGroup n) (hd : d.InGroup n)
    (hact : SameAction n (followedBy d.act e.act) ofIndex) : product e d = .ok (identity n) :=
  product_eq_of_act he hd (inGroup_identity n) ((sameAction_identity n).trans hact.symm)

/-- **The affine map of an inverse**: its matrix is the inverse matrix, and its shift the image of
the shift under it. -/
theorem affine_of_product_eq_identity (he : e.InGroup n) (hd : d.InGroup n)
    (hproduct : product d e = .ok (identity n)) :
    ∃ inv, e.affine.linear.inverse? = some (some inv) ∧ d.affine.linear = inv ∧
      inv.mulVec? e.affine.shift = some d.affine.shift := by
  have hafter : d.affine.after e.affine = .ok (AffineMap.identity n) :=
    (Result.of_exists_ok (exists_product hd he) hproduct).2.1
  obtain ⟨-, hmatrix, hvec⟩ :=
    Result.of_exists_ok (AffineMap.exists_after hd.affine he.affine) hafter
  rw [AffineMap.toMatrix_identity] at hmatrix
  rw [AffineMap.toVec_identity] at hvec
  obtain ⟨inv, hinv, hshape, hleft⟩ := (BitMatrix.exists_inverse? he.affine.linear).1 he.unit
  have hlinear : d.affine.linear = inv := by
    refine BitMatrix.toMatrix_injective hd.affine.linear hshape ?_
    exact he.unit.mul_right_cancel (hmatrix.symm.trans hleft.symm)
  refine ⟨inv, hinv, hlinear, ?_⟩
  subst hlinear
  obtain ⟨image, himage, hlength, himagevec⟩ := BitMatrix.exists_mulVec? hshape he.affine.shift
  rw [himage]
  refine congrArg some (BitVector.toVec_injective hlength hd.affine.shift ?_)
  rw [← himagevec] at hvec
  funext i
  exact CharTwo.add_eq_zero.mp (congrFun hvec i).symm

end InGroup

/-- **The adjoint is the inverse.** For a valid element, whose matrix has rows of equal length, the
adjoint is found and valid, its products with the element are the identity on either side, its
matrix is the inverse matrix that elimination finds, and its shift is the image of the shift under
that matrix. -/
theorem adjoint_is_inverse (hvalid : e.IsValid) (hrect : e.affine.linear.IsRectangular) :
    ∃ d inv, e.adjoint = .ok d ∧ d.numQubits = e.numQubits ∧ d.IsValid ∧
      e.rightMultiply d = .ok (identity e.numQubits) ∧
      d.rightMultiply e = .ok (identity e.numQubits) ∧
      e.affine.linear.inverse? = some (some inv) ∧ d.affine.linear = inv ∧
      inv.mulVec? e.affine.shift = some d.affine.shift := by
  have hgroup : e.InGroup e.numQubits := inGroup_iff.mpr ⟨rfl, hvalid, hrect⟩
  obtain ⟨d, hd, hdgroup, hafter, hbefore⟩ := hgroup.exists_adjoint
  obtain ⟨hdn, hdvalid, -⟩ := inGroup_iff.mp hdgroup
  have hright := hgroup.product_eq_identity hdgroup hbefore
  have hleft := hdgroup.product_eq_identity hgroup hafter
  obtain ⟨inv, hinv, hlinear, hshift⟩ := hgroup.affine_of_product_eq_identity hdgroup hleft
  exact ⟨d, inv, hd, hdn, hdvalid, hright, hleft, hinv, hlinear, hshift⟩

/-- The adjoint of an element with terms of every degree. -/
theorem adjoint_is_inverse_of_sample :
    ∃ d inv, sample.adjoint = .ok d ∧ d.numQubits = 3 ∧ d.IsValid ∧
      sample.rightMultiply d = .ok (identity 3) ∧ d.rightMultiply sample = .ok (identity 3) ∧
      sample.affine.linear.inverse? = some (some inv) ∧ d.affine.linear = inv ∧
      inv.mulVec? sample.affine.shift = some d.affine.shift := by
  have hvalid : sample.IsValid := by decide +kernel
  have hrect : sample.affine.linear.IsRectangular := by decide +kernel
  exact adjoint_is_inverse hvalid hrect

/-! ### The conjugate and the transpose -/

/-- The element with the opposite phases has the conjugate action. -/
theorem InGroup.neg (h : e.InGroup n) :
    InGroup ⟨-e.poly, e.affine⟩ n ∧ act ⟨-e.poly, e.affine⟩ = conj ∘ e.act := by
  refine ⟨⟨h.poly.neg.1, ?_, h.affine, h.unit⟩, funext fun index => ?_⟩
  · show PhasePolynomial.negWeight e.poly.constant = 0
    rw [h.constant]
    rfl
  · exact BasisImage.ext rfl (h.poly.consistent.valueAt_neg index.testBit)

/-- The element with the opposite phases acts like the conjugate of a circuit for the element. -/
theorem InGroup.sameAction_neg (h : e.InGroup n) (hn : c.numQubits = n)
    (hact : SameAction n e.act c.act) :
    SameAction n (act ⟨-e.poly, e.affine⟩) c.conjugate.act := by
  rw [h.neg.2]
  exact hact.conj.trans (hn ▸ c.sameAction_conjugate).symm

/-- **The conjugate** is found, and is the element with the opposite polynomial. -/
theorem InGroup.conjugate_eq_neg (h : e.InGroup n) : e.conjugate = .ok ⟨-e.poly, e.affine⟩ := by
  obtain ⟨c, -, hn, hact⟩ := h.exists_circuit
  rw [h.conjugate_eq hn hact]
  exact h.neg.1.eq_ofCircuit hn (h.sameAction_neg hn hact)

/-- **The transpose** is the adjoint of the conjugate and the conjugate of the adjoint. -/
theorem InGroup.exists_transpose (h : e.InGroup n) :
    ∃ t, e.transpose = .ok t ∧ adjoint ⟨-e.poly, e.affine⟩ = .ok t ∧
      (e.adjoint >>= conjugate) = .ok t := by
  obtain ⟨c, -, hn, hact⟩ := h.exists_circuit
  obtain ⟨t, ht, -⟩ := exists_ofCircuit (c := c.transpose) hn
  obtain ⟨d, hd, hdgroup, hdact⟩ := exists_ofCircuit (c := c.inverse) hn
  refine ⟨t, (h.transpose_eq hn hact).trans ht, ?_, ?_⟩
  · rw [h.neg.1.adjoint_eq (c := c.conjugate) hn (h.sameAction_neg hn hact),
      ← Circuit.transpose_eq_conjugate_inverse, ht]
  · rw [h.adjoint_eq hn hact, hd, Result.ok_bind, hdgroup.conjugate_eq (c := c.inverse) hn hdact,
      ← Circuit.transpose_eq_inverse_conjugate, ht]

/-- `t` takes every vector back from its image under `e`, and gives the image the phase that `e`
gives the vector, up to one constant `k`. -/
def TakesBack (t e : Element) (n : ℕ) : Prop :=
  ∃ k : Z8, ∀ x : BitVector, x.length = n →
    ∃ y v w, e.affine.apply x = .ok y ∧ t.affine.apply y = .ok x ∧
      e.poly.evaluateAt x.toList = .ok v ∧ t.poly.evaluateAt y.toList = .ok w ∧ w = v + k

/-- An element that undoes the conjugate action takes every vector back with its phase. -/
theorem InGroup.takesBack {t : Element} (h : e.InGroup n) (ht : t.InGroup n)
    (hact : SameAction n (followedBy (conj ∘ e.act) t.act) ofIndex) : TakesBack t e n := by
  obtain ⟨k, hk⟩ := hact
  refine ⟨k, fun x hx => ?_⟩
  obtain ⟨index, hindex, rfl⟩ := BitVector.exists_ofIndex hx
  have hback : (t.act (e.act index).index).index = index :=
    congrArg BasisImage.index (hk index hindex)
  have hphase : -(e.act index).power + (t.act (e.act index).index).power = 0 + k :=
    congrArg BasisImage.power (hk index hindex)
  refine ⟨_, _, _, h.apply_ofIndex index, ?_, h.evaluateAt_ofIndex index,
    ht.evaluateAt_ofIndex _, ?_⟩
  · rw [ht.apply_ofIndex, hback]
  · rw [← zero_add k, ← hphase, add_neg_cancel_left]

/-- **Conjugate and transpose.** For a valid element, whose matrix has rows of equal length, the
conjugate is found and has the same affine map and the opposite polynomial, and the transpose is
found, is valid, takes every vector back with its phase, and is the conjugate of the adjoint and the
adjoint of the conjugate, as an equality of stored values. -/
theorem conjugate_and_transpose (hvalid : e.IsValid) (hrect : e.affine.linear.IsRectangular) :
    e.conjugate = .ok ⟨-e.poly, e.affine⟩ ∧
      ∃ t, e.transpose = .ok t ∧ t.numQubits = e.numQubits ∧ t.IsValid ∧
        TakesBack t e e.numQubits ∧ (e.adjoint >>= conjugate) = .ok t ∧
        (e.conjugate >>= adjoint) = .ok t := by
  have hgroup : e.InGroup e.numQubits := inGroup_iff.mpr ⟨rfl, hvalid, hrect⟩
  obtain ⟨hneg, hnegact⟩ := hgroup.neg
  obtain ⟨t, ht, hofconj, hofadjoint⟩ := hgroup.exists_transpose
  obtain ⟨t', ht', htgroup, hafter, -⟩ := hneg.exists_adjoint
  obtain rfl : t = t' := Except.ok.inj (hofconj.symm.trans ht')
  obtain ⟨htn, htvalid, -⟩ := inGroup_iff.mp htgroup
  rw [hnegact] at hafter
  refine ⟨hgroup.conjugate_eq_neg, t, ht, htn, htvalid, hgroup.takesBack htgroup hafter,
    hofadjoint, ?_⟩
  rw [hgroup.conjugate_eq_neg, Result.ok_bind, hofconj]

/-- The conjugate and the transpose of an element with terms of every degree. -/
theorem conjugate_and_transpose_of_sample :
    sample.conjugate = .ok ⟨-sample.poly, sample.affine⟩ ∧
      ∃ t, sample.transpose = .ok t ∧ t.numQubits = 3 ∧ t.IsValid ∧ TakesBack t sample 3 ∧
        (sample.adjoint >>= conjugate) = .ok t ∧ (sample.conjugate >>= adjoint) = .ok t := by
  have hvalid : sample.IsValid := by decide +kernel
  have hrect : sample.affine.linear.IsRectangular := by decide +kernel
  exact conjugate_and_transpose hvalid hrect

/-! ### The circuit that the element came from -/

/-- **Taking the element of a circuit commutes** with inverse and adjoint, with the conjugates and
with the transposes. No step fails for any circuit, and the stored values are equal, although the
operations on the element go through the circuit that is synthesized for it. -/
theorem ofCircuit_commutes (c : Circuit) :
    ∃ e d g t, ofCircuit c = .ok e ∧
      ofCircuit c.inverse = .ok d ∧ e.adjoint = .ok d ∧
      ofCircuit c.conjugate = .ok g ∧ e.conjugate = .ok g ∧
      ofCircuit c.transpose = .ok t ∧ e.transpose = .ok t := by
  obtain ⟨e, he, hgroup, hact⟩ := exists_ofCircuit (c := c) rfl
  obtain ⟨d, hd, -⟩ := exists_ofCircuit (c := c.inverse) rfl
  obtain ⟨g, hg, -⟩ := exists_ofCircuit (c := c.conjugate) rfl
  obtain ⟨t, ht, -⟩ := exists_ofCircuit (c := c.transpose) rfl
  refine ⟨e, d, g, t, he, hd, ?_, hg, ?_, ht, ?_⟩
  · rw [hgroup.adjoint_eq rfl hact, hd]
  · rw [hgroup.conjugate_eq rfl hact, hg]
  · rw [hgroup.transpose_eq rfl hact, ht]

end AffinePhase.Element
