import AffinePhase.Element.Composition
import AffinePhase.Proofs.Element.Action
import AffinePhase.Proofs.Polynomial.Parity
import AffinePhase.Proofs.Polynomial.Substitution

/-!
# Composition of elements is composition of actions

An element sends `x` to its image and multiplies by the phase `ω` to the value of its polynomial.
The product of two elements is computed on tables and packed rows, without looking at any point:
output bits become parity polynomials, which are substituted into the polynomial of the outer
element. This module proves that the result acts as the two elements in turn, up to a constant
phase that is dropped. As an element of the group is determined by its action, the product is
associative and has the identity as its unit, as an equality of stored values.

## Main definitions

* `Element.ActsInTurn`: an element that acts as two others in turn.

## Main results

* `Element.exists_outputParities`: the output bits as polynomials.
* `Element.exists_product`: the product never fails, stays in the group and composes the actions.
* `Element.multiply_acts_in_turn`: the products in either order, point by point.
* `Element.exists_product_act`, `Element.product_eq_of_act`: the product acts as its factors in
  turn, and is recognised by this.
* `Element.rightMultiply_group_laws`: associativity and units.
* `Element.InGroup.exists_tensor?`: two elements side by side.
-/

open scoped Fin.CommRing

namespace AffinePhase.Element

open BasisImage

variable {a b c e : Element} {n : ℕ}

/-! ### Output bits as polynomials -/

/-- **An output bit is a polynomial** in the input bits. -/
theorem exists_outputParity (hpoly : e.numQubits = n) (haffine : e.affine.IsOn n) {i : ℕ}
    (hi : i < n) :
    ∃ q, e.outputParity i = .ok q ∧ q.IsGroupOn n ∧
      ∀ x, q.valueAt x = if e.affine.imageBit x i then 1 else 0 := by
  obtain ⟨row, hrow⟩ := haffine.linear.exists_row hi
  have hsupport := Monomial.isSupport_support (haffine.linear.length_row hrow)
  have hget : e.affine.shift.get? i = some (e.affine.shift.bit i) :=
    e.affine.shift.get?_eq_some (haffine.shift.symm ▸ hi)
  have hzero := PhasePolynomial.isGroupOn_zero n
  obtain ⟨hparity, -, -⟩ := hzero.addParity hsupport 1
  have hvalue : ∀ x, ((PhasePolynomial.zero n).addParity row.support 1).valueAt x =
      if row.parityAt x then 1 else 0 := fun x => by
    rw [hzero.valueAt_addParity hsupport, PhasePolynomial.valueAt_zero, zero_add]
    rfl
  generalize hq : (PhasePolynomial.zero n).addParity row.support 1 = parity at hparity hvalue
  have hparityOk : PhasePolynomial.parity e.numQubits row.support = .ok parity := by
    rw [hpoly, PhasePolynomial.parity_eq hsupport, hq]
  have hrowOk : e.affine.linear.row? i = some row := hrow
  rw [outputParity, hrowOk, hget]
  simp only [Result.ofOption_some, Result.ok_bind, hparityOk]
  cases hflip : e.affine.shift.bit i with
  | false =>
      refine ⟨parity, rfl, hparity, fun x => ?_⟩
      rw [hvalue, AffineMap.imageBit_eq hrow, hflip, Bool.xor_false]
  | true =>
      obtain ⟨hcomplement, hvalue'⟩ := hparity.complement
      refine ⟨_, rfl, hcomplement, fun x => ?_⟩
      rw [hvalue', hvalue, AffineMap.imageBit_eq hrow, hflip, Bool.xor_true]
      cases row.parityAt x <;> rfl

/-- All output bits are polynomials in the input bits. -/
theorem exists_outputParities (hpoly : e.numQubits = n) (haffine : e.affine.IsOn n) :
    ∃ qs, e.outputParities = .ok qs ∧ qs.length = n ∧ (∀ q ∈ qs, q.IsGroupOn n) ∧
      ∀ x, ∀ i < n, SparseSum.valueAt ((qs.map PhasePolynomial.terms).getD i []) x =
        if e.affine.imageBit x i then 1 else 0 := by
  have hcount : min e.numQubits e.affine.linear.rowCount = n := by
    rw [hpoly, BitMatrix.rowCount, haffine.linear.rowCount, Nat.min_self]
  obtain ⟨qs, hqs, hall⟩ := Result.mapM_of_forall (m := Result) (l := List.range n)
    (f := e.outputParity) fun i hi => exists_outputParity hpoly haffine (List.mem_range.mp hi)
  have hlength : qs.length = n := by rw [← hall.length_eq, List.length_range]
  have hget : ∀ i (hi : i < qs.length), qs[i].IsGroupOn n ∧
      ∀ x, qs[i].valueAt x = if e.affine.imageBit x i then 1 else 0 := by
    intro i hi
    have hspec := (List.forall₂_iff_get.mp hall).2 i (by rw [List.length_range]; omega) hi
    rwa [List.get_eq_getElem, List.get_eq_getElem, List.getElem_range] at hspec
  refine ⟨qs, ?_, hlength, fun q hq => ?_, fun x i hi => ?_⟩
  · have hrows : e.numQubits ≤ e.affine.linear.rowCount := by
      rw [hpoly, BitMatrix.rowCount, haffine.linear.rowCount]
    rw [outputParities, hcount, hqs, Result.require_eq_ok.mpr hrows]
    rfl
  · obtain ⟨i, hi, rfl⟩ := List.mem_iff_getElem.mp hq
    exact (hget i hi).1
  · have hi' : i < qs.length := hlength.symm ▸ hi
    rw [List.getD_eq_getElem?_getD, List.getElem?_map, List.getElem?_eq_getElem hi']
    exact (hget i hi').2 x

/-! ### The product -/

/-- Only the values of the variables matter. -/
theorem substitutedValue_congr {p : PhasePolynomial} (hp : p.IsGroupOn n) {y y' : ℕ → Z8}
    (h : ∀ i < n, y i = y' i) : p.substitutedValue y = p.substitutedValue y' := by
  rw [PhasePolynomial.substitutedValue, PhasePolynomial.substitutedValue]
  refine congrArg List.sum (List.map_congr_left fun t ht => ?_)
  obtain ⟨hterm, -, -⟩ := hp.of_mem_terms ht
  rw [List.map_congr_left fun i hi => h i (hterm.below i hi)]

/-- **The product never fails and composes the actions**, up to a constant phase. -/
theorem exists_product (ha : a.InGroup n) (hb : b.InGroup n) :
    ∃ c, product a b = .ok c ∧ c.InGroup n ∧ a.affine.after b.affine = .ok c.affine ∧
      ∃ k, ∀ x, c.poly.valueAt x + k =
        b.poly.valueAt x + a.poly.valueAt (b.affine.imageBit x) := by
  obtain ⟨f, hf, hfon, hfm, -⟩ := AffineMap.exists_after ha.affine hb.affine
  obtain ⟨qs, hqs, hlength, hgroup, hbits⟩ := exists_outputParities hb.numQubits_eq hb.affine
  have hcommon : a.poly.commonVariables qs = n := by
    cases qs with
    | nil => exact ha.poly.numVariables
    | cons q qs => exact (hgroup q List.mem_cons_self).numVariables
  obtain ⟨r, hr, hrgroup, hrvalue⟩ := ha.poly.exists_evaluate hlength hgroup hcommon
  obtain ⟨s, hs, hsgroup, -⟩ := hrgroup.exists_add? hb.poly
  obtain ⟨hset, -⟩ := hsgroup.setConstant 0
  refine ⟨⟨s.setConstant 0, f⟩, ?_, ⟨hset, rfl, hfon, ?_⟩, hf, s.coefficient [], fun x => ?_⟩
  · rw [product, Result.sameSize_eq_ok.mpr (ha.numQubits_eq.trans hb.numQubits_eq.symm)]
    simp only [Result.ok_bind, hf, hqs, hr, hs, Result.ofOption_some]
    rfl
  · rw [hfm]
    exact ha.unit.mul hb.unit
  · have hbool : r.valueAt x = a.poly.valueAt (b.affine.imageBit x) := by
      rw [hrvalue, substitutedValue_congr ha.poly (hbits x), PhasePolynomial.substitutedValue_bool]
    rw [hsgroup.valueAt_setConstant 0 x, hrgroup.consistent.valueAt_add? hb.poly.consistent hs,
      hbool, add_zero, add_comm]

/-! ### The products, point by point -/

/-- `c` acts as `inner` and then `outer` on `n` bits: it sends every vector to the image of its
image, and its phase at every vector is the sum of the two phases, up to one constant `k`. -/
def ActsInTurn (c outer inner : Element) (n : ℕ) : Prop :=
  ∃ k : Z8, ∀ x : BitVector, x.length = n →
    ∃ y z, inner.affine.apply x = .ok y ∧ outer.affine.apply y = .ok z ∧
      c.affine.apply x = .ok z ∧
      ∃ v w u, inner.poly.evaluateAt x.toList = .ok v ∧ outer.poly.evaluateAt y.toList = .ok w ∧
        c.poly.evaluateAt x.toList = .ok u ∧ u + k = v + w

/-- The product acts as its factors in turn. -/
theorem exists_product_actsInTurn (ha : a.InGroup n) (hb : b.InGroup n) :
    ∃ c, product a b = .ok c ∧ c.InGroup n ∧ ActsInTurn c a b n := by
  obtain ⟨c, hc, hgroup, haffine, k, hvalue⟩ := exists_product ha hb
  refine ⟨c, hc, hgroup, k, fun x hx => ?_⟩
  obtain ⟨y, z, hby, hayz, hcz, hy, hybits⟩ :=
    AffineMap.apply_after ha.affine hb.affine haffine hx
  refine ⟨y, z, hby, hayz, hcz, _, _, _, evaluateAt_toList hb.poly hx,
    evaluateAt_toList ha.poly hy, evaluateAt_toList hgroup.poly hx, ?_⟩
  have hpoint : a.poly.valueAt y.bit = a.poly.valueAt (b.affine.imageBit x.bit) :=
    ha.poly.valueAt_congr hybits
  rw [hvalue, hpoint]

/-- **Composition of elements is composition of actions.** For valid elements on `n` qubits, whose
matrices have rows of equal length, the product with another element before or after never fails,
is valid, and acts as the two elements in turn. -/
theorem multiply_acts_in_turn (ha : a.IsValid) (hb : b.IsValid)
    (har : a.affine.linear.IsRectangular) (hbr : b.affine.linear.IsRectangular)
    (han : a.numQubits = n) (hbn : b.numQubits = n) :
    (∃ c, a.rightMultiply b = .ok c ∧ a.compose b true = .ok c ∧ c.numQubits = n ∧ c.IsValid ∧
      c.affine.linear.IsRectangular ∧ ActsInTurn c a b n) ∧
    ∃ c, a.leftMultiply b = .ok c ∧ a.compose b false = .ok c ∧ c.numQubits = n ∧ c.IsValid ∧
      c.affine.linear.IsRectangular ∧ ActsInTurn c b a n := by
  have hagroup := inGroup_iff.mpr ⟨han, ha, har⟩
  have hbgroup := inGroup_iff.mpr ⟨hbn, hb, hbr⟩
  constructor
  · obtain ⟨c, hc, hgroup, hacts⟩ := exists_product_actsInTurn hagroup hbgroup
    obtain ⟨hn, hvalid, hrect⟩ := inGroup_iff.mp hgroup
    exact ⟨c, hc, hc, hn, hvalid, hrect, hacts⟩
  · obtain ⟨c, hc, hgroup, hacts⟩ := exists_product_actsInTurn hbgroup hagroup
    obtain ⟨hn, hvalid, hrect⟩ := inGroup_iff.mp hgroup
    exact ⟨c, hc, hc, hn, hvalid, hrect, hacts⟩

/-- The square of an element with terms of every degree. -/
theorem multiply_acts_in_turn_of_sample :
    ∃ c, sample.rightMultiply sample = .ok c ∧ c.IsValid ∧ ActsInTurn c sample sample 3 := by
  have hvalid : sample.IsValid := by decide +kernel
  have hrect : sample.affine.linear.IsRectangular := by decide +kernel
  obtain ⟨⟨c, hc, -, -, hcvalid, -, hacts⟩, -⟩ :=
    multiply_acts_in_turn hvalid hvalid hrect hrect (n := 3) rfl rfl
  exact ⟨c, hc, hcvalid, hacts⟩

/-! ### Group laws -/

/-- **The product acts as its factors in turn.** -/
theorem exists_product_act (ha : a.InGroup n) (hb : b.InGroup n) :
    ∃ c, product a b = .ok c ∧ c.InGroup n ∧ SameAction n c.act (followedBy b.act a.act) := by
  obtain ⟨c, hc, hgroup, haffine, k, hvalue⟩ := exists_product ha hb
  refine ⟨c, hc, hgroup, -k, fun index hindex => ?_⟩
  have hbits : ∀ i < n, (b.act index).index.testBit i = b.affine.imageBit index.testBit i :=
    fun i hi => hb.testBit_act index hi
  refine hgroup.act_eq hindex (ha.staysBelow _ (hb.staysBelow index hindex)) (fun i hi => ?_) ?_
  · rw [AffineMap.imageBit_after ha.affine hb.affine haffine _ hi]
    show _ = (a.act (b.act index).index).index.testBit i
    rw [ha.testBit_act _ hi, AffineMap.imageBit_congr ha.affine hbits]
  · show _ = b.poly.valueAt index.testBit + a.poly.valueAt (b.act index).index.testBit + -k
    rw [ha.poly.valueAt_congr hbits, ← hvalue, add_neg_cancel_right]

/-- The product is recognised by its action. -/
theorem product_eq_of_act (ha : a.InGroup n) (hb : b.InGroup n) (he : e.InGroup n)
    (hact : SameAction n e.act (followedBy b.act a.act)) : product a b = .ok e := by
  obtain ⟨c, hc, hgroup, hcact⟩ := exists_product_act ha hb
  rw [hc, he.ext_act hgroup (hact.trans hcact.symm)]

/-- The product is associative: both sides act as the three elements in turn. -/
theorem product_assoc (ha : a.InGroup n) (hb : b.InGroup n) (hc : c.InGroup n) :
    ∃ ab bc r, product a b = .ok ab ∧ product b c = .ok bc ∧ product ab c = .ok r ∧
      product a bc = .ok r := by
  obtain ⟨ab, hab, habgroup, habact⟩ := exists_product_act ha hb
  obtain ⟨bc, hbc, hbcgroup, hbcact⟩ := exists_product_act hb hc
  obtain ⟨r, hr, hrgroup, hract⟩ := exists_product_act habgroup hc
  refine ⟨ab, bc, r, hab, hbc, hr, product_eq_of_act ha hbcgroup hrgroup ?_⟩
  have hleft : SameAction n r.act (followedBy c.act (followedBy b.act a.act)) :=
    hract.trans ((SameAction.refl c.act).followedBy hc.staysBelow habact)
  have hright : SameAction n (followedBy bc.act a.act)
      (followedBy (followedBy c.act b.act) a.act) :=
    hbcact.followedBy (hc.staysBelow.followedBy hb.staysBelow) (SameAction.refl a.act)
  rw [← followedBy_assoc] at hleft
  exact hleft.trans hright.symm

/-- The identity acts as nothing before another element. -/
theorem product_identity (ha : a.InGroup n) : product a (identity n) = .ok a := by
  refine product_eq_of_act ha (inGroup_identity n) ha ?_
  have hact := (sameAction_identity n).followedBy (StaysBelow.ofIndex n) (SameAction.refl a.act)
  rw [ofIndex_followedBy] at hact
  exact hact.symm

/-- The identity acts as nothing after another element. -/
theorem identity_product (ha : a.InGroup n) : product (identity n) a = .ok a := by
  refine product_eq_of_act (inGroup_identity n) ha ha ?_
  have hact := (SameAction.refl a.act).followedBy ha.staysBelow (sameAction_identity n)
  rw [followedBy_ofIndex] at hact
  exact hact.symm

/-- **Group laws.** For valid elements on `n` qubits, whose matrices have rows of equal length, the
product is associative and has the identity as its unit, as an equality of stored values. -/
theorem rightMultiply_group_laws (ha : a.IsValid) (hb : b.IsValid) (hc : c.IsValid)
    (har : a.affine.linear.IsRectangular) (hbr : b.affine.linear.IsRectangular)
    (hcr : c.affine.linear.IsRectangular)
    (han : a.numQubits = n) (hbn : b.numQubits = n) (hcn : c.numQubits = n) :
    (∃ ab bc r, a.rightMultiply b = .ok ab ∧ b.rightMultiply c = .ok bc ∧
      ab.rightMultiply c = .ok r ∧ a.rightMultiply bc = .ok r) ∧
    a.rightMultiply (identity n) = .ok a ∧ (identity n).rightMultiply a = .ok a := by
  have hagroup := inGroup_iff.mpr ⟨han, ha, har⟩
  have hbgroup := inGroup_iff.mpr ⟨hbn, hb, hbr⟩
  have hcgroup := inGroup_iff.mpr ⟨hcn, hc, hcr⟩
  exact ⟨product_assoc hagroup hbgroup hcgroup, product_identity hagroup,
    identity_product hagroup⟩

/-- The powers of an element with terms of every degree. -/
theorem rightMultiply_group_laws_of_sample :
    (∃ square cube, sample.rightMultiply sample = .ok square ∧
      square.rightMultiply sample = .ok cube ∧ sample.rightMultiply square = .ok cube) ∧
    sample.rightMultiply (identity 3) = .ok sample ∧
      (identity 3).rightMultiply sample = .ok sample := by
  have hvalid : sample.IsValid := by decide +kernel
  have hrect : sample.affine.linear.IsRectangular := by decide +kernel
  obtain ⟨⟨ab, bc, r, hab, hbc, hleft, hright⟩, hunits⟩ :=
    rightMultiply_group_laws hvalid hvalid hvalid hrect hrect hrect (n := 3) rfl rfl rfl
  obtain rfl : ab = bc := Except.ok.inj (hab.symm.trans hbc)
  exact ⟨⟨ab, r, hab, hleft, hright⟩, hunits⟩

/-! ### Two elements side by side -/

/-- **The tensor product** of group elements exists and is a group element on the qubits of both. -/
theorem InGroup.exists_tensor? {m : ℕ} (ha : a.InGroup n) (hb : b.InGroup m) :
    ∃ t, a.tensor? b = some t ∧ t.InGroup (n + m) := by
  obtain ⟨f, hf, hon, hunit⟩ := AffineMap.exists_directSum? ha.affine hb.affine
  refine ⟨⟨a.poly.directSum b.poly, f⟩, ?_, ha.poly.directSum hb.poly, ?_, hon, ?_⟩
  · rw [tensor?, hf]
    rfl
  · exact ha.poly.constant_directSum hb.poly ha.constant hb.constant
  · exact hunit.mpr ⟨ha.unit, hb.unit⟩

end AffinePhase.Element
