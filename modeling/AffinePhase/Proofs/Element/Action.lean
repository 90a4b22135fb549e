import AffinePhase.Proofs.Circuit.BasisMap
import AffinePhase.Proofs.Element.Valid

/-!
# The action of an element on basis states

An element sends a basis state to the state whose bits are the image of its bits under the affine
map, and multiplies by `ω` to the value of its polynomial there. This is a map of basis states as
circuits have one, and it determines the element: the stored tables, rows and shift of two elements
with the same action are equal, even if the actions differ by a constant phase.

## Main definitions

* `BitVector.ofIndex`: the bits of an index.
* `Element.act`: the action of an element on basis states.
* `Element.SameOperator`: equality of two elements as operators, up to global phase.

## Main results

* `Element.InGroup.apply_ofIndex`, `Element.InGroup.evaluateAt_ofIndex`: the action in terms of the
  affine map and the polynomial.
* `Element.InGroup.ext_act`: an element is determined by its action up to global phase.
* `Element.eq_iff_sameOperator`: equality of stored values is equality of operators.
-/

open scoped Fin.CommRing

namespace AffinePhase

open BasisImage

variable {n : ℕ} {e e' : Element}

/-! ### Indices and vectors -/

namespace BitVector

/-- The lowest `n` bits of an index. -/
def ofIndex (n index : ℕ) : BitVector := .ofList ((List.range n).map index.testBit)

/-- The vector of an index has as many bits as are asked for. -/
theorem length_ofIndex (n index : ℕ) : (ofIndex n index).length = n := by
  rw [ofIndex, length_ofList, List.length_map, List.length_range]

/-- The bits of the vector of an index are those of the index. -/
theorem bit_ofIndex (index : ℕ) {i : ℕ} (hi : i < n) :
    (ofIndex n index).bit i = index.testBit i := by
  rw [ofIndex, bit_ofList, List.getElem?_map, List.getElem?_range hi]
  rfl

end BitVector

/-- The lowest bits of an index may be chosen freely. -/
theorem exists_testBit (n : ℕ) (x : ℕ → Bool) :
    ∃ index < 2 ^ n, ∀ i < n, index.testBit i = x i :=
  ⟨Nat.ofBits fun i : Fin n => x i, Nat.ofBits_lt_two_pow _,
    fun i hi => Nat.testBit_ofBits_lt _ i hi⟩

/-- Every vector holds the bits of an index. -/
theorem BitVector.exists_ofIndex {v : BitVector} (hv : v.length = n) :
    ∃ index < 2 ^ n, v = ofIndex n index := by
  obtain ⟨index, hindex, hbits⟩ := exists_testBit n v.bit
  refine ⟨index, hindex, ext_bits (hv.trans (length_ofIndex n index).symm) fun i hi => ?_⟩
  have hi' : i < n := hv ▸ hi
  rw [bit_ofIndex index hi', hbits i hi']

/-- An index below `2 ^ n` is determined by its lowest `n` bits. -/
theorem eq_of_testBit {s t : ℕ} (hs : s < 2 ^ n) (ht : t < 2 ^ n)
    (h : ∀ i < n, s.testBit i = t.testBit i) : s = t := by
  refine Nat.eq_of_testBit_eq fun i => ?_
  rcases Nat.lt_or_ge i n with hi | hi
  · exact h i hi
  · have hpow : 2 ^ n ≤ 2 ^ i := Nat.pow_le_pow_right (by decide) hi
    rw [Nat.testBit_lt_two_pow (hs.trans_le hpow), Nat.testBit_lt_two_pow (ht.trans_le hpow)]

/-- An index below `2 ^ n` is determined by the vector of its bits. -/
theorem BitVector.ofIndex_inj {s t : ℕ} (hs : s < 2 ^ n) (ht : t < 2 ^ n)
    (h : ofIndex n s = ofIndex n t) : s = t := by
  refine eq_of_testBit hs ht fun i hi => ?_
  rw [← bit_ofIndex s hi, ← bit_ofIndex t hi, h]

/-! ### The action of an element -/

namespace Element

/-- Evaluation at the bits of a vector. -/
theorem evaluateAt_toList {p : PhasePolynomial} (hp : p.IsGroupOn n) {v : BitVector}
    (hv : v.length = n) : p.evaluateAt v.toList = .ok (p.valueAt v.bit) := by
  rw [p.evaluateAt_eq (v.length_toList.trans (hv.trans hp.numVariables.symm))]
  refine congrArg Except.ok (hp.valueAt_congr fun i hi => ?_)
  rw [v.getElem?_toList (hv.symm ▸ hi), Option.getD_some]

/-- The image of a basis state under an element. -/
def act (e : Element) (index : ℕ) : BasisImage :=
  ⟨Nat.ofBits fun i : Fin e.numQubits => e.affine.imageBit index.testBit i,
    e.poly.valueAt index.testBit⟩

namespace InGroup

/-- A group element on `n` qubits keeps the indices of `n` bits. -/
theorem staysBelow (h : e.InGroup n) : StaysBelow n e.act :=
  fun _ _ => h.numQubits_eq ▸ Nat.ofBits_lt_two_pow _

/-- The bits of the image are those of the affine map. -/
theorem testBit_act (h : e.InGroup n) (index : ℕ) {i : ℕ} (hi : i < n) :
    (e.act index).index.testBit i = e.affine.imageBit index.testBit i :=
  Nat.testBit_ofBits_lt _ i (h.numQubits_eq.symm ▸ hi)

/-- An image is recognised by its bits and its power. -/
theorem act_eq (h : e.InGroup n) {index : ℕ} (hindex : index < 2 ^ n) {s : BasisImage}
    (hs : s.index < 2 ^ n) (hbits : ∀ i < n, e.affine.imageBit index.testBit i = s.index.testBit i)
    (hpower : e.poly.valueAt index.testBit = s.power) : e.act index = s :=
  BasisImage.ext (eq_of_testBit (h.staysBelow index hindex) hs fun i hi =>
    (h.testBit_act index hi).trans (hbits i hi)) hpower

/-- The affine map sends the bits of an index to the bits of its image. -/
theorem apply_ofIndex (h : e.InGroup n) (index : ℕ) :
    e.affine.apply (.ofIndex n index) = .ok (.ofIndex n (e.act index).index) := by
  obtain ⟨u, hu, hlength, hbits, -⟩ :=
    AffineMap.exists_apply h.affine (BitVector.length_ofIndex n index)
  rw [hu]
  refine congrArg Except.ok (BitVector.ext_bits ?_ fun i hi => ?_)
  · rw [hlength, BitVector.length_ofIndex]
  · have hi' : i < n := hlength ▸ hi
    rw [hbits i hi', BitVector.bit_ofIndex _ hi', h.testBit_act index hi']
    exact AffineMap.imageBit_congr h.affine (fun j hj => BitVector.bit_ofIndex index hj) i

/-- The value of the polynomial at the bits of an index is the power of the image. -/
theorem evaluateAt_ofIndex (h : e.InGroup n) (index : ℕ) :
    e.poly.evaluateAt (BitVector.ofIndex n index).toList = .ok (e.act index).power := by
  rw [evaluateAt_toList h.poly (BitVector.length_ofIndex n index)]
  exact congrArg Except.ok
    (h.poly.valueAt_congr fun i hi => BitVector.bit_ofIndex index hi)

/-- **An element is determined by its action** on basis states, up to global phase. -/
theorem ext_act (h : e.InGroup n) (h' : e'.InGroup n) (hsame : SameAction n e.act e'.act) :
    e = e' := by
  obtain ⟨k, hk⟩ := hsame
  have haffine : e.affine = e'.affine := by
    refine AffineMap.ext_imageBit h.affine h'.affine fun x i hi => ?_
    obtain ⟨index, hindex, hx⟩ := exists_testBit n x
    calc e.affine.imageBit x i = (e.act index).index.testBit i := by
          rw [h.testBit_act index hi, AffineMap.imageBit_congr h.affine hx]
      _ = (e'.act index).index.testBit i := by rw [hk index hindex]; rfl
      _ = e'.affine.imageBit x i := by
          rw [h'.testBit_act index hi, AffineMap.imageBit_congr h'.affine hx]
  refine h.ext h' haffine (c := 0) (d := k) fun x => ?_
  obtain ⟨index, hindex, hx⟩ := exists_testBit n x
  have hpower := congrArg BasisImage.power (hk index hindex)
  rw [add_zero, ← h.poly.valueAt_congr hx, ← h'.poly.valueAt_congr hx]
  exact hpower

end InGroup

/-- The identity leaves basis states alone. -/
theorem sameAction_identity (n : ℕ) : SameAction n (identity n).act ofIndex := by
  have h := inGroup_identity n
  refine ⟨0, fun index hindex => ?_⟩
  rw [turn_zero]
  exact h.act_eq hindex hindex (fun i hi => AffineMap.imageBit_identity _ hi)
    (PhasePolynomial.valueAt_zero n _)

/-! ### Equality of operators -/

/-- `a` and `b` are the same operator on `n` qubits, up to global phase: they send every vector to
the same image, and their phases there differ by one constant `k`. -/
def SameOperator (a b : Element) (n : ℕ) : Prop :=
  ∃ k : Z8, ∀ x : BitVector, x.length = n →
    ∃ y v w, a.affine.apply x = .ok y ∧ b.affine.apply x = .ok y ∧
      a.poly.evaluateAt x.toList = .ok v ∧ b.poly.evaluateAt x.toList = .ok w ∧ v = w + k

/-- Operators that are the same act in the same way on basis states. -/
theorem InGroup.sameAction_of_sameOperator (h : e.InGroup n) (h' : e'.InGroup n)
    (hsame : SameOperator e e' n) : SameAction n e.act e'.act := by
  obtain ⟨k, hk⟩ := hsame
  refine ⟨k, fun index hindex => ?_⟩
  obtain ⟨y, v, w, hy, hy', hv, hw, hphase⟩ :=
    hk (.ofIndex n index) (BitVector.length_ofIndex n index)
  rw [h.apply_ofIndex] at hy
  rw [h'.apply_ofIndex, ← hy] at hy'
  rw [h.evaluateAt_ofIndex] at hv
  rw [h'.evaluateAt_ofIndex] at hw
  have himage : (e.act index).index = (e'.act index).index :=
    BitVector.ofIndex_inj (h.staysBelow index hindex) (h'.staysBelow index hindex)
      (Except.ok.inj hy').symm
  have hpower : (e.act index).power = (e'.act index).power + k := by
    rw [Except.ok.inj hv, Except.ok.inj hw, hphase]
  exact BasisImage.ext himage hpower

/-- An element is the same operator as itself: all its values are found. -/
theorem InGroup.sameOperator_self (h : e.InGroup n) : SameOperator e e n := by
  refine ⟨0, fun x hx => ?_⟩
  obtain ⟨y, hy, -⟩ := AffineMap.exists_apply h.affine hx
  have hv := evaluateAt_toList h.poly hx
  exact ⟨y, _, _, hy, hy, hv, hv, (add_zero _).symm⟩

/-- **Equality of stored values is equality of operators.** Two valid elements on `n` qubits, whose
matrices have rows of equal length, have the same tables, packed rows and shift exactly if they send
every vector to the same image and their phases differ by a constant. -/
theorem eq_iff_sameOperator (hvalid : e.IsValid) (hvalid' : e'.IsValid)
    (hrect : e.affine.linear.IsRectangular) (hrect' : e'.affine.linear.IsRectangular)
    (hn : e.numQubits = n) (hn' : e'.numQubits = n) : e = e' ↔ SameOperator e e' n := by
  have hgroup : e.InGroup n := inGroup_iff.mpr ⟨hn, hvalid, hrect⟩
  have hgroup' : e'.InGroup n := inGroup_iff.mpr ⟨hn', hvalid', hrect'⟩
  constructor
  · rintro rfl
    exact hgroup.sameOperator_self
  · intro hsame
    exact hgroup.ext_act hgroup' (hgroup.sameAction_of_sameOperator hgroup' hsame)

/-- An element with terms of every degree is the same operator as itself, and another one than the
element with the opposite phases. -/
theorem eq_iff_sameOperator_of_sample :
    SameOperator sample sample 3 ∧
      ¬ SameOperator sample ⟨-sample.poly, sample.affine⟩ 3 := by
  have hvalid : sample.IsValid := by decide +kernel
  have hrect : sample.affine.linear.IsRectangular := by decide +kernel
  have hneg : IsValid ⟨-sample.poly, sample.affine⟩ := by decide +kernel
  have hne : sample ≠ ⟨-sample.poly, sample.affine⟩ := by decide +kernel
  constructor
  · exact (eq_iff_sameOperator hvalid hvalid hrect hrect rfl rfl).mp rfl
  · intro hsame
    exact hne ((eq_iff_sameOperator hvalid hneg hrect hrect rfl rfl).mpr hsame)

end Element

end AffinePhase
