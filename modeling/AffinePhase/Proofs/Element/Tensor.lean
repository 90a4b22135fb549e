import AffinePhase.Proofs.Circuit.Registers
import AffinePhase.Proofs.Element.Composition
import AffinePhase.Proofs.Polynomial.Term

/-!
# Elements side by side

The tensor product of two elements has the qubits of the first one and then those of the second. It
is computed on the stored parts: the terms of the second polynomial are written at new places of
larger tables, and the rows of the second matrix are moved in their words. This module proves that
the result acts on the two registers separately, with the sum of the phases and without a term that
mixes them.

As elements are determined by their actions, what holds of maps side by side holds of the stored
values: products are formed register by register, three registers may be joined from either end,
and a register without qubits may be left out.

## Main definitions

* `Element.ActsSeparately`: an element that acts as two others, each on its register.

## Main results

* `Element.InGroup.act_tensor?`, `Element.tensor?_eq_of_act`: the action of the tensor product, by
  which it is recognised.
* `Element.tensor_acts_separately`: the action point by point, and the mixed coefficients.
* `Element.tensor_strict_monoidal`: interchange with products, associativity and units.
-/

open scoped Fin.CommRing

namespace AffinePhase

open BasisImage

variable {n m l : ℕ}

/-- The bits of two parts of an index are joined as the parts are. -/
theorem BitVector.append_ofIndex {low : ℕ} (hlow : low < 2 ^ n) (m high : ℕ) :
    (ofIndex n low).append (ofIndex m high) = ofIndex (n + m) (joinIndex n low high) := by
  have hlength : ((ofIndex n low).append (ofIndex m high)).length = n + m := by
    rw [length_append, length_ofIndex, length_ofIndex]
  refine ext_bits (hlength.trans (length_ofIndex _ _).symm) fun i hi => ?_
  have hi' : i < n + m := hlength ▸ hi
  rw [bit_append, length_ofIndex, bit_ofIndex _ hi', testBit_joinIndex hlow]
  split
  · rename_i hfirst
    exact bit_ofIndex low hfirst
  · rename_i hfirst
    have hsecond : i - n < m := by omega
    exact bit_ofIndex high hsecond

namespace Element

variable {a b c d e t : Element}

/-! ### The action of a tensor product -/

/-- **The tensor product acts on each register separately**, and the phases add up. -/
theorem InGroup.act_tensor? (ha : a.InGroup n) (hb : b.InGroup m) (ht : a.tensor? b = some t)
    {index : ℕ} (hindex : index < 2 ^ (n + m)) :
    t.act index = sideBySide n a.act b.act index := by
  have hgroup := Result.of_exists_some (ha.exists_tensor? hb) ht
  obtain ⟨f, hf, ht⟩ := Option.bind_eq_some_iff.mp ht
  obtain rfl : ⟨a.poly.directSum b.poly, f⟩ = t := Option.some.inj ht
  have hlow : ∀ i < n, (index % 2 ^ n).testBit i = index.testBit i := fun i hi => by
    rw [Nat.testBit_mod_two_pow, decide_eq_true hi, Bool.true_and]
  have hhigh : ∀ i, (index / 2 ^ n).testBit i = index.testBit (i + n) := fun i =>
    Nat.testBit_div_two_pow index i
  have hbelow : (a.act (index % 2 ^ n)).index < 2 ^ n :=
    ha.staysBelow _ (Nat.mod_lt index (Nat.two_pow_pos n))
  refine hgroup.act_eq hindex (ha.staysBelow.sideBySide hb.staysBelow index hindex)
    (fun i hi => ?_) ?_
  · show _ = (joinIndex n _ _).testBit i
    rw [AffineMap.imageBit_directSum? ha.affine hb.affine hf _ hi, testBit_joinIndex hbelow]
    split
    · rename_i hfirst
      rw [ha.testBit_act _ hfirst, AffineMap.imageBit_congr ha.affine hlow]
    · rename_i hfirst
      have hsecond : i - n < m := by omega
      rw [hb.testBit_act _ hsecond, AffineMap.imageBit_congr hb.affine fun j _ => hhigh j]
  · show (a.poly.directSum b.poly).valueAt index.testBit =
      a.poly.valueAt (index % 2 ^ n).testBit + b.poly.valueAt (index / 2 ^ n).testBit
    rw [ha.poly.consistent.valueAt_directSum hb.poly.consistent, ha.poly.numVariables,
      ha.poly.valueAt_congr hlow, hb.poly.valueAt_congr fun i _ => hhigh i]

/-- The tensor product exists, and its action is that of its factors side by side. -/
theorem InGroup.exists_tensor_act (ha : a.InGroup n) (hb : b.InGroup m) :
    ∃ t, a.tensor? b = some t ∧ t.InGroup (n + m) ∧
      SameAction (n + m) t.act (sideBySide n a.act b.act) := by
  obtain ⟨t, ht, hgroup⟩ := ha.exists_tensor? hb
  refine ⟨t, ht, hgroup, 0, fun index hindex => ?_⟩
  rw [turn_zero, ha.act_tensor? hb ht hindex]

/-- The tensor product is recognised by its action. -/
theorem tensor?_eq_of_act (ha : a.InGroup n) (hb : b.InGroup m) (he : e.InGroup (n + m))
    (hact : SameAction (n + m) e.act (sideBySide n a.act b.act)) : a.tensor? b = some e := by
  obtain ⟨t, ht, hgroup, htact⟩ := ha.exists_tensor_act hb
  rw [ht, he.ext_act hgroup (hact.trans htact.symm)]

/-! ### The tensor product, point by point -/

/-- `t` acts as `a` on the first `n` bits and as `b` on the `m` bits after them: the images are
joined, and the phases are added. -/
def ActsSeparately (t a b : Element) (n m : ℕ) : Prop :=
  ∀ y z : BitVector, y.length = n → z.length = m →
    ∃ y' z' v w, a.affine.apply y = .ok y' ∧ b.affine.apply z = .ok z' ∧
      t.affine.apply (y.append z) = .ok (y'.append z') ∧
      a.poly.evaluateAt y.toList = .ok v ∧ b.poly.evaluateAt z.toList = .ok w ∧
      t.poly.evaluateAt (y.append z).toList = .ok (v + w)

/-- The parts of a tensor product act on their own qubits. -/
theorem InGroup.actsSeparately (ha : a.InGroup n) (hb : b.InGroup m) (ht : a.tensor? b = some t) :
    ActsSeparately t a b n m := by
  have hgroup := Result.of_exists_some (ha.exists_tensor? hb) ht
  intro y z hy hz
  obtain ⟨low, hlow, rfl⟩ := BitVector.exists_ofIndex hy
  obtain ⟨high, hhigh, rfl⟩ := BitVector.exists_ofIndex hz
  have hact : t.act (joinIndex n low high) = ⟨joinIndex n (a.act low).index (b.act high).index,
      (a.act low).power + (b.act high).power⟩ := by
    rw [ha.act_tensor? hb ht (joinIndex_lt hlow hhigh), sideBySide_joinIndex hlow]
  refine ⟨_, _, _, _, ha.apply_ofIndex low, hb.apply_ofIndex high, ?_, ha.evaluateAt_ofIndex low,
    hb.evaluateAt_ofIndex high, ?_⟩
  · rw [BitVector.append_ofIndex hlow, BitVector.append_ofIndex (ha.staysBelow low hlow),
      hgroup.apply_ofIndex, hact]
  · rw [BitVector.append_ofIndex hlow, hgroup.evaluateAt_ofIndex, hact]

/-- No term of a tensor product mixes the registers. -/
theorem InGroup.term_tensor?_of_mixed (ha : a.InGroup n) (hb : b.InGroup m)
    (ht : a.tensor? b = some t) {indices : List ℕ} (hdegree : indices.length ≤ 3)
    (hbelow : ∀ i ∈ indices, i < n + m) (hnodup : indices.Nodup) {i j : ℕ} (hi : i ∈ indices)
    (hfirst : i < n) (hj : j ∈ indices) (hsecond : n ≤ j) : t.poly.term indices = .ok 0 := by
  have hgroup := Result.of_exists_some (ha.exists_tensor? hb) ht
  obtain ⟨f, -, ht⟩ := Option.bind_eq_some_iff.mp ht
  obtain rfl : ⟨a.poly.directSum b.poly, f⟩ = t := Option.some.inj ht
  refine hgroup.poly.term_eq_zero hdegree hbelow hnodup (List.ne_nil_of_mem hi) ?_
  have hn := ha.poly.numVariables
  exact ha.poly.consistent.coefficient_directSum_of_mixed hb.poly.consistent
    (Monomial.mem_ofList.mpr hi) (hn.symm ▸ hfirst) (Monomial.mem_ofList.mpr hj) (hn.symm ▸ hsecond)

/-- **The tensor product acts independently on the two registers.** For valid elements it is found
and is valid on the qubits of both. It sends the vector of two parts to the images of the parts,
with the sum of the two phases, and the coefficient of every monomial with variables of both parts,
given by its indices in any order, is zero. -/
theorem tensor_acts_separately (ha : a.ValidOn n) (hb : b.ValidOn m) :
    ∃ t, a.tensor? b = some t ∧ t.ValidOn (n + m) ∧ ActsSeparately t a b n m ∧
      ∀ indices : List ℕ, indices.length ≤ 3 → (∀ i ∈ indices, i < n + m) → indices.Nodup →
        (∃ i ∈ indices, i < n) → (∃ j ∈ indices, n ≤ j) → t.poly.term indices = .ok 0 := by
  have hagroup := validOn_iff.mp ha
  have hbgroup := validOn_iff.mp hb
  obtain ⟨t, ht, hgroup⟩ := hagroup.exists_tensor? hbgroup
  refine ⟨t, ht, validOn_iff.mpr hgroup, hagroup.actsSeparately hbgroup ht, ?_⟩
  rintro indices hdegree hbelow hnodup ⟨i, hi, hfirst⟩ ⟨j, hj, hsecond⟩
  exact hagroup.term_tensor?_of_mixed hbgroup ht hdegree hbelow hnodup hi hfirst hj hsecond

/-- An element on one qubit with a phase and a flip. -/
def smallSample : Element :=
  ⟨⟨1, 0, #[5], #[], #[]⟩, ⟨⟨1, [.ofList [true]]⟩, .ofList [true]⟩⟩

/-- An element on three qubits beside one on one qubit: the phase of a mixed term is zero. -/
theorem tensor_acts_separately_of_sample :
    ∃ t, sample.tensor? smallSample = some t ∧ t.ValidOn 4 ∧
      ActsSeparately t sample smallSample 3 1 ∧ t.poly.term [3, 1] = .ok 0 := by
  have hfirst : sample.ValidOn 3 := by decide +kernel
  have hsecond : smallSample.ValidOn 1 := by decide +kernel
  obtain ⟨t, ht, hvalid, hacts, hmixed⟩ := tensor_acts_separately hfirst hsecond
  exact ⟨t, ht, hvalid, hacts, hmixed [3, 1] (by decide) (by decide) (by decide) ⟨1, by decide⟩
    ⟨3, by decide⟩⟩

/-! ### A strict monoidal product -/

/-- **Interchange.** Products of tensor products are tensor products of products. -/
theorem InGroup.interchange (ha : a.InGroup n) (hb : b.InGroup m) (hc : c.InGroup n)
    (hd : d.InGroup m) :
    ∃ ab cd ac bd r, a.tensor? b = some ab ∧ c.tensor? d = some cd ∧ product a c = .ok ac ∧
      product b d = .ok bd ∧ product ab cd = .ok r ∧ ac.tensor? bd = some r := by
  obtain ⟨ab, hab, habgroup, habact⟩ := ha.exists_tensor_act hb
  obtain ⟨cd, hcd, hcdgroup, hcdact⟩ := hc.exists_tensor_act hd
  obtain ⟨ac, hac, hacgroup, hacact⟩ := exists_product_act ha hc
  obtain ⟨bd, hbd, hbdgroup, hbdact⟩ := exists_product_act hb hd
  obtain ⟨r, hr, hrgroup, hract⟩ := exists_product_act habgroup hcdgroup
  refine ⟨ab, cd, ac, bd, r, hab, hcd, hac, hbd, hr, tensor?_eq_of_act hacgroup hbdgroup hrgroup ?_⟩
  have hsplit : SameAction (n + m) (followedBy cd.act ab.act)
      (followedBy (sideBySide n c.act d.act) (sideBySide n a.act b.act)) :=
    hcdact.followedBy (hc.staysBelow.sideBySide hd.staysBelow) habact
  rw [followedBy_sideBySide hc.staysBelow] at hsplit
  exact hract.trans (hsplit.trans (hacact.sideBySide hbdact).symm)

/-- Three elements may be put side by side from either end. -/
theorem InGroup.tensor_assoc (ha : a.InGroup n) (hb : b.InGroup m) (he : e.InGroup l) :
    ∃ ab be r, a.tensor? b = some ab ∧ b.tensor? e = some be ∧ ab.tensor? e = some r ∧
      a.tensor? be = some r := by
  obtain ⟨ab, hab, habgroup, habact⟩ := ha.exists_tensor_act hb
  obtain ⟨be, hbe, hbegroup, hbeact⟩ := hb.exists_tensor_act he
  obtain ⟨r, hr, hrgroup, hract⟩ := habgroup.exists_tensor_act he
  refine ⟨ab, be, r, hab, hbe, hr, ?_⟩
  rw [add_assoc] at hrgroup hract
  refine tensor?_eq_of_act ha hbegroup hrgroup (hract.trans ?_)
  have hleft := habact.sideBySide (SameAction.refl (n := l) e.act)
  have hright := (SameAction.refl (n := n) a.act).sideBySide hbeact
  rw [sideBySide_assoc, add_assoc] at hleft
  exact hleft.trans hright.symm

/-- An element without qubits may be left out after another one. -/
theorem InGroup.tensor_identity (ha : a.InGroup n) : a.tensor? (identity 0) = some a := by
  refine tensor?_eq_of_act ha (inGroup_identity 0) ha ?_
  have hact := (SameAction.refl (n := n) a.act).sideBySide (sameAction_identity 0)
  exact (hact.trans (SameAction.sideBySide_ofIndex n a.act)).symm

/-- An element without qubits may be left out before another one. -/
theorem InGroup.identity_tensor (ha : a.InGroup n) : (identity 0).tensor? a = some a := by
  refine tensor?_eq_of_act (inGroup_identity 0) ha ((Nat.zero_add n).symm ▸ ha) ?_
  have hact := (sameAction_identity 0).sideBySide (SameAction.refl (n := n) a.act)
  rw [ofIndex_sideBySide] at hact
  exact hact.symm

/-- The identity on two registers. -/
theorem identity_tensor_identity (n m : ℕ) :
    (identity n).tensor? (identity m) = some (identity (n + m)) := by
  refine tensor?_eq_of_act (inGroup_identity n) (inGroup_identity m) (inGroup_identity (n + m)) ?_
  have hact := (sameAction_identity n).sideBySide (sameAction_identity m)
  rw [ofIndex_sideBySide_ofIndex] at hact
  exact (sameAction_identity (n + m)).trans hact.symm

/-- **The tensor product is strictly monoidal and compatible with composition**, as an equality of
stored values, for valid elements `a` and `c` on `n` qubits, `b` and `d` on `m`, and `e` on `l`, all
of which may be zero. No product or tensor product of them fails. -/
theorem tensor_strict_monoidal (ha : a.ValidOn n) (hb : b.ValidOn m) (hc : c.ValidOn n)
    (hd : d.ValidOn m) (he : e.ValidOn l) :
    (∃ ab cd ac bd r, a.tensor? b = some ab ∧ c.tensor? d = some cd ∧ a.rightMultiply c = .ok ac ∧
      b.rightMultiply d = .ok bd ∧ ab.rightMultiply cd = .ok r ∧ ac.tensor? bd = some r) ∧
    (∃ ab be r, a.tensor? b = some ab ∧ b.tensor? e = some be ∧ ab.tensor? e = some r ∧
      a.tensor? be = some r) ∧
    a.tensor? (identity 0) = some a ∧ (identity 0).tensor? a = some a ∧
    (identity n).tensor? (identity m) = some (identity (n + m)) := by
  have hagroup := validOn_iff.mp ha
  have hbgroup := validOn_iff.mp hb
  refine ⟨?_, ?_, hagroup.tensor_identity, hagroup.identity_tensor, identity_tensor_identity n m⟩
  · exact hagroup.interchange hbgroup (validOn_iff.mp hc) (validOn_iff.mp hd)
  · exact hagroup.tensor_assoc hbgroup (validOn_iff.mp he)

/-- Products and tensor products of elements on three qubits and on one. -/
theorem tensor_strict_monoidal_of_sample :
    (∃ t square small r, sample.tensor? smallSample = some t ∧
      sample.rightMultiply sample = .ok square ∧
      smallSample.rightMultiply smallSample = .ok small ∧ t.rightMultiply t = .ok r ∧
      square.tensor? small = some r) ∧
    sample.tensor? (identity 0) = some sample ∧ (identity 0).tensor? sample = some sample := by
  have hfirst : sample.ValidOn 3 := by decide +kernel
  have hsecond : smallSample.ValidOn 1 := by decide +kernel
  obtain ⟨⟨ab, cd, ac, bd, r, hab, hcd, hac, hbd, hr, htensor⟩, -, hright, hleft, -⟩ :=
    tensor_strict_monoidal hfirst hsecond hfirst hsecond hfirst
  obtain rfl : ab = cd := Option.some.inj (hab.symm.trans hcd)
  exact ⟨⟨ab, ac, bd, r, hab, hac, hbd, hr, htensor⟩, hright, hleft⟩

end Element

end AffinePhase
