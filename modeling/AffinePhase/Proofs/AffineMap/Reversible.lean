import AffinePhase.Proofs.AffineMap
import AffinePhase.Storage

/-!
# Reversible affine maps

A stored affine map has a matrix of any shape and a vector of any length, and so it need not act on
vectors at all. The test for validity compares the sizes and then sweeps the matrix, and this finds
out whether application is a bijection: application succeeds on a vector only if the sizes fit, and
if they do, the map is a bijection exactly if its matrix is invertible.

Composition multiplies matrices and the direct sum puts them along a diagonal. A product or a block
sum of square matrices is invertible exactly if both matrices are, and so the test gives on a
composition or a direct sum the conjunction of what it gives on the two maps.

## Main results

* `AffineMap.isOn_of_apply`: a map with a value has parts that fit together.
* `AffineMap.isValid?_iff_bijection`: the test decides reversibility.
* `AffineMap.isValid?_after`, `AffineMap.isValid?_directSum?`: the test on compositions and sums.
* `AffineMap.apply_directSum?`: the value of a direct sum.
* `AffineMap.composition_and_directSum`: the laws of both.
-/

namespace AffinePhase

/-- The product with a vector succeeds only on vectors with a bit for each column, and has a bit for
each row. -/
theorem BitMatrix.length_of_mulVec? {m : BitMatrix} {v u : BitVector} (h : m.mulVec? v = some u) :
    v.length = m.columns ∧ u.length = m.rows.length := by
  obtain ⟨_, hguard, h⟩ := Option.bind_eq_some_iff.mp h
  obtain ⟨bits, hbits, h⟩ := Option.bind_eq_some_iff.mp h
  obtain rfl := Option.some.inj h
  exact ⟨(Option.guard_eq_some' _).mp hguard, (Result.forall₂_of_mapM hbits).length_eq.symm⟩

namespace AffineMap

variable {f g h k : AffineMap} {m n : ℕ}

/-! ### The test for validity -/

/-- If the parts fit together, the test gives an answer. -/
theorem IsOn.exists_isValid? (hf : f.IsOn n) :
    ∃ b, f.isValid? = some b ∧ (b = true ↔ IsUnit (f.linear.toMatrix n n)) := by
  have hsize : f.hasSize f.numBits = true := hf.numBits_eq.symm ▸ (isOn_iff.mp hf).1
  rw [isValid?, if_pos hsize]
  exact BitMatrix.exists_isInvertible? hf.linear

/-- **A map with a value** has parts that fit together. -/
theorem isOn_of_apply (hrect : f.linear.IsRectangular) {v u : BitVector} (h : f.apply v = .ok u) :
    f.IsOn f.numBits := by
  obtain ⟨_, hsame, h⟩ := Result.bind_eq_ok.mp h
  obtain ⟨image, himage, hxor⟩ := Option.bind_eq_some_iff.mp (Result.ofOption_eq_ok.mp h)
  have hv : f.numBits = v.length := Result.sameSize_eq_ok.mp hsame
  obtain ⟨hcolumns, hrows⟩ := BitMatrix.length_of_mulVec? himage
  have hshift : f.shift.length = image.length := BitVector.length_eq_of_xor? hxor
  exact ⟨⟨hrows.symm.trans hshift.symm, hcolumns.symm.trans hv.symm, hrect⟩, rfl⟩

/-- **The test decides reversibility.** The matrix may have any shape. The test gives an answer, and
it is positive exactly if application succeeds on all vectors as long as the shift and is a
bijection of these. -/
theorem isValid?_iff_bijection (hrect : f.linear.IsRectangular) :
    ∃ b, f.isValid? = some b ∧ (b = true ↔ f.IsBijection f.numBits) := by
  by_cases hsize : f.hasSize f.numBits = true
  · have hf : f.IsOn f.numBits := isOn_iff.mpr ⟨hsize, hrect⟩
    obtain ⟨b, hb, hunit⟩ := hf.exists_isValid?
    exact ⟨b, hb, hunit.trans (isBijection_iff hf).symm⟩
  · refine ⟨false, if_neg hsize, nofun, fun hbij => ?_⟩
    obtain ⟨u, -, hu⟩ := hbij.mapsTo (BitVector.length_zeros f.numBits)
    exact absurd (isOn_iff.mp (isOn_of_apply hrect hu.symm)).1 hsize

/-- The map that exchanges two bits and flips the first of them. -/
def exchangeSample : AffineMap :=
  ⟨⟨2, [.ofList [false, true], .ofList [true, false]]⟩, .ofList [true, false]⟩

/-- A map that passes the test, and one whose shift is longer than its matrix is wide, which has no
value at any vector. -/
theorem isValid?_iff_bijection_of_sample :
    exchangeSample.linear.IsRectangular ∧ exchangeSample.isValid? = some true ∧
      exchangeSample.IsBijection 2 ∧
      ¬ IsBijection ⟨BitMatrix.identity 2, BitVector.zeros 3⟩ 3 := by
  have hrect : exchangeSample.linear.IsRectangular := by decide
  have hpasses : exchangeSample.isValid? = some true := by decide +kernel
  have hfails : isValid? ⟨BitMatrix.identity 2, BitVector.zeros 3⟩ = some false := by rfl
  obtain ⟨b, hb, hiff⟩ := isValid?_iff_bijection hrect
  obtain rfl := Option.some.inj (hpasses.symm.trans hb)
  obtain ⟨b', hb', hiff'⟩ := isValid?_iff_bijection
    (f := ⟨BitMatrix.identity 2, BitVector.zeros 3⟩) (BitMatrix.isRectangular_identity 2)
  obtain rfl := Option.some.inj (hfails.symm.trans hb')
  exact ⟨hrect, hpasses, hiff.mp rfl, fun hbij => Bool.false_ne_true (hiff'.mpr hbij)⟩

/-! ### Composition -/

/-- A composition passes the test exactly if both maps do. -/
theorem isValid?_after (hf : f.IsOn n) (hg : g.IsOn n) (hh : f.after g = .ok h) :
    ∃ b b', f.isValid? = some b ∧ g.isValid? = some b' ∧ h.isValid? = some (b && b') := by
  obtain ⟨hon, hmatrix, -⟩ := Result.of_exists_ok (exists_after hf hg) hh
  obtain ⟨b, hb, hunit⟩ := hf.exists_isValid?
  obtain ⟨b', hb', hunit'⟩ := hg.exists_isValid?
  obtain ⟨b'', hb'', hunit''⟩ := hon.exists_isValid?
  refine ⟨b, b', hb, hb', hb''.trans (congrArg some (Bool.eq_iff_iff.mpr ?_))⟩
  rw [Bool.and_eq_true, hunit, hunit', hunit'', hmatrix, Matrix.isUnit_iff_isUnit_det,
    Matrix.isUnit_iff_isUnit_det, Matrix.isUnit_iff_isUnit_det, Matrix.det_mul, IsUnit.mul_iff]

/-! ### Direct sums -/

/-- A direct sum passes the test exactly if both maps do. -/
theorem isValid?_directSum? (hf : f.IsOn n) (hg : g.IsOn m) (hh : f.directSum? g = some h) :
    ∃ b b', f.isValid? = some b ∧ g.isValid? = some b' ∧ h.isValid? = some (b && b') := by
  obtain ⟨hon, hsum⟩ := Result.of_exists_some (exists_directSum? hf hg) hh
  obtain ⟨b, hb, hunit⟩ := hf.exists_isValid?
  obtain ⟨b', hb', hunit'⟩ := hg.exists_isValid?
  obtain ⟨b'', hb'', hunit''⟩ := hon.exists_isValid?
  refine ⟨b, b', hb, hb', hb''.trans (congrArg some (Bool.eq_iff_iff.mpr ?_))⟩
  rw [Bool.and_eq_true, hunit, hunit', hunit'', hsum]

/-- **The value of a direct sum** is the value of the first map at the first bits, followed by that
of the second map at the others. -/
theorem apply_directSum? (hf : f.IsOn n) (hg : g.IsOn m) (hh : f.directSum? g = some h)
    {x y : BitVector} (hx : x.length = n) (hy : y.length = m) :
    ∃ u v, f.apply x = .ok u ∧ g.apply y = .ok v ∧ h.apply (x.append y) = .ok (u.append v) := by
  obtain ⟨hon, -⟩ := Result.of_exists_some (exists_directSum? hf hg) hh
  have hxy : (x.append y).length = n + m := by rw [BitVector.length_append, hx, hy]
  obtain ⟨u, hu, hulen, hubits, -⟩ := exists_apply hf hx
  obtain ⟨v, hv, hvlen, hvbits, -⟩ := exists_apply hg hy
  obtain ⟨w, hw, hwlen, hwbits, -⟩ := exists_apply hon hxy
  have hsame : w = u.append v := by
    refine BitVector.ext_bits ?_ fun i hi => ?_
    · rw [hwlen, BitVector.length_append, hulen, hvlen]
    · rw [hwlen] at hi
      rw [hwbits i hi, imageBit_directSum? hf hg hh _ hi, BitVector.bit_append, hulen]
      split
      · rename_i hfirst
        rw [hubits i hfirst]
        exact imageBit_congr hf (fun j hj => by rw [BitVector.bit_append, hx, if_pos hj]) i
      · rename_i hsecond
        rw [hvbits (i - n) (by omega)]
        refine imageBit_congr hg (fun j _ => ?_) (i - n)
        rw [BitVector.bit_append, hx, if_neg (by omega), Nat.add_sub_cancel]
  exact ⟨u, v, hu, hv, hsame ▸ hw⟩

/-- A direct sum can be stored if its bits can be numbered. -/
theorem storedDirectSum_eq (hf : f.IsOn n) (hg : g.IsOn m) (hfits : n + m < 2 ^ 64) :
    f.storedDirectSum g = Result.ofOption (f.directSum? g) := by
  have hcolumns : Storage.columns [f.linear, g.linear] = .ok () := by
    refine Result.require_eq_ok.mpr ?_
    simpa [hf.linear.columns, hg.linear.columns, Text.indexBound] using hfits
  rw [storedDirectSum, hcolumns, Result.ok_bind]

/-- **Composition and direct sum.** The maps need not be invertible. Composition does not fail, it
has the value of the first map at the value of the second, and it is associative, as stored values.
The direct sum acts on the two parts of a vector on their own. The test for validity gives on a
composition and on a direct sum the conjunction of its answers on the two maps. -/
theorem composition_and_directSum (hf : f.IsOn n) (hg : g.IsOn n) (hk : k.IsOn n)
    (hh : h.IsOn m) :
    (∃ fg, f.after g = .ok fg ∧ fg.IsOn n ∧
      (∀ x, x.length = n → ∃ y z, g.apply x = .ok y ∧ f.apply y = .ok z ∧ fg.apply x = .ok z) ∧
      (∃ gk fgk, g.after k = .ok gk ∧ fg.after k = .ok fgk ∧ f.after gk = .ok fgk) ∧
      ∃ b b', f.isValid? = some b ∧ g.isValid? = some b' ∧ fg.isValid? = some (b && b')) ∧
    ∃ fh, f.directSum? h = some fh ∧ fh.IsOn (n + m) ∧
      (n + m < 2 ^ 64 → f.storedDirectSum h = .ok fh) ∧
      (∀ x y, x.length = n → y.length = m → ∃ u v, f.apply x = .ok u ∧ h.apply y = .ok v ∧
        fh.apply (x.append y) = .ok (u.append v)) ∧
      ∃ b b', f.isValid? = some b ∧ h.isValid? = some b' ∧ fh.isValid? = some (b && b') := by
  constructor
  · obtain ⟨fg, gk, fgk, hfg, hgk, hleft, hright⟩ := after_assoc hf hg hk
    have hon := (Result.of_exists_ok (exists_after hf hg) hfg).1
    refine ⟨fg, hfg, hon, fun x hx => ?_, ⟨gk, fgk, hgk, hleft, hright⟩, isValid?_after hf hg hfg⟩
    obtain ⟨y, z, hy, hz, hfgx, -⟩ := apply_after hf hg hfg hx
    exact ⟨y, z, hy, hz, hfgx⟩
  · obtain ⟨fh, hfh, hon, -⟩ := exists_directSum? hf hh
    refine ⟨fh, hfh, hon, fun hfits => ?_, fun x y hx hy => apply_directSum? hf hh hfh hx hy,
      isValid?_directSum? hf hh hfh⟩
    rw [storedDirectSum_eq hf hh hfits, hfh, Result.ofOption_some]

/-- The map that forgets the second of two bits. -/
def forgetSample : AffineMap :=
  ⟨⟨2, [.ofList [true, false], .ofList [true, false]]⟩, .ofList [false, true]⟩

/-- An invertible map after one that is not, and the invertible one beside the identity. -/
theorem composition_and_directSum_of_sample :
    exchangeSample.IsOn 2 ∧ forgetSample.IsOn 2 ∧ (identity 2).IsOn 2 ∧ (identity 1).IsOn 1 ∧
      (∃ fg, exchangeSample.after forgetSample = .ok fg ∧ fg.isValid? = some false) ∧
      ∃ fh, exchangeSample.directSum? (identity 1) = some fh ∧ fh.isValid? = some true := by
  have hexchange : exchangeSample.IsOn 2 := ⟨⟨rfl, rfl, by decide⟩, rfl⟩
  have hforget : forgetSample.IsOn 2 := ⟨⟨rfl, rfl, by decide⟩, rfl⟩
  have hpasses : exchangeSample.isValid? = some true := by decide +kernel
  have hfails : forgetSample.isValid? = some false := by decide +kernel
  have hone : (identity 1).isValid? = some true := by decide +kernel
  obtain ⟨⟨fg, hfg, -, -, -, b, b', hb, hb', hvalid⟩, fh, hfh, -, -, -, d, d', hd, hd', hsum⟩ :=
    composition_and_directSum hexchange hforget (isOn_identity 2) (isOn_identity 1)
  obtain rfl := Option.some.inj (hpasses.symm.trans hb)
  obtain rfl := Option.some.inj (hfails.symm.trans hb')
  obtain rfl := Option.some.inj (hpasses.symm.trans hd)
  obtain rfl := Option.some.inj (hone.symm.trans hd')
  exact ⟨hexchange, hforget, isOn_identity 2, isOn_identity 1, ⟨fg, hfg, hvalid⟩, fh, hfh, hsum⟩

end AffineMap

end AffinePhase
