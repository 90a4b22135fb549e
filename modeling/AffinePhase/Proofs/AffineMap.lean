import AffinePhase.AffineMap.Basic
import AffinePhase.Proofs.BitMatrix.Block
import AffinePhase.Proofs.BitMatrix.Elimination

/-!
# The algebra of affine maps

An affine map on `n` bits stands for the map `x ↦ Mx + b` of vectors over the field with two
elements. Application and composition of stored maps are application and composition of these, and
the two elementary changes, flipping an output bit and adding one into another, undo themselves.

## Main definitions

* `AffineMap.IsOn`: the parts fit together and act on `n` bits.
* `AffineMap.imageBit`: an output bit, as a function of the input bits.
* `AffineMap.IsBijection`: application as a map of the vectors of `n` bits.

## Main results

* `AffineMap.exists_apply`, `AffineMap.exists_after`: application and composition do not fail.
* `AffineMap.ext_toMatrix`, `AffineMap.ext_imageBit`: a stored map is determined by its matrix and
  its vector, and by its values.
* `AffineMap.isBijection_iff`: which maps are bijections.
* `AffineMap.exists_directSum?`, `AffineMap.imageBit_directSum?`: two maps side by side.
* `AffineMap.exists_flipOutput?`, `AffineMap.exists_addOutput?`: the elementary changes.
-/

namespace AffinePhase

namespace AffineMap

variable {f g h : AffineMap} {n : ℕ}

/-- The parts of the map fit together: it sends `n` bits to `n` bits. -/
structure IsOn (f : AffineMap) (n : ℕ) : Prop where
  /-- The linear part is a square matrix. -/
  linear : f.linear.HasShape n n
  /-- The shift has as many bits. -/
  shift : f.shift.length = n

theorem IsOn.numBits_eq (h : f.IsOn n) : f.numBits = n := h.shift

theorem hasSize_iff : f.hasSize n = true ↔
    f.shift.length = n ∧ f.linear.rows.length = n ∧ f.linear.columns = n := by
  simp [hasSize, numBits, BitMatrix.rowCount, and_assoc]

/-- A map on `n` bits has their size and a rectangular linear part. -/
theorem isOn_iff : f.IsOn n ↔ f.hasSize n = true ∧ f.linear.IsRectangular := by
  rw [hasSize_iff]
  exact ⟨fun h => ⟨⟨h.shift, h.linear.rowCount, h.linear.columns⟩, h.linear.rectangular⟩,
    fun ⟨⟨hs, hr, hc⟩, h⟩ => ⟨⟨hr, hc, h⟩, hs⟩⟩

/-- A stored map is determined by its matrix and its vector. -/
theorem ext_toMatrix (hf : f.IsOn n) (hg : g.IsOn n)
    (hlinear : f.linear.toMatrix n n = g.linear.toMatrix n n)
    (hshift : f.shift.toVec n = g.shift.toVec n) : f = g := by
  have hl := BitMatrix.toMatrix_injective hf.linear hg.linear hlinear
  have hs := BitVector.toVec_injective hf.shift hg.shift hshift
  cases f; cases g; simp_all

/-- A stored map is determined by its bits. -/
theorem ext_bits (hf : f.IsOn n) (hg : g.IsOn n)
    (hlinear : ∀ i < n, ∀ j < n, f.linear.entry i j = g.linear.entry i j)
    (hshift : ∀ i < n, f.shift.bit i = g.shift.bit i) : f = g := by
  have hl := BitMatrix.ext_entry hf.linear hg.linear hlinear
  have hs := BitVector.ext_bits (hf.shift.trans hg.shift.symm) fun i hi => hshift i (hf.shift ▸ hi)
  cases f; cases g; simp_all

/-! ### The identity -/

/-- The identity on `n` bits is a map on `n` bits. -/
theorem isOn_identity (n : ℕ) : (identity n).IsOn n :=
  ⟨BitMatrix.hasShape_identity n, rfl⟩

/-- The linear part of the identity has the bits of its diagonal set. -/
theorem entry_identity {i : ℕ} (hi : i < n) (j : ℕ) :
    (identity n).linear.entry i j = decide (i = j) :=
  BitMatrix.entry_identity hi j

/-- The identity flips no bit. -/
theorem bit_shift_identity (n i : ℕ) : (identity n).shift.bit i = false :=
  BitVector.bit_zeros n i

/-- The linear part of the identity is the unit matrix. -/
theorem toMatrix_identity (n : ℕ) : (identity n).linear.toMatrix n n = 1 :=
  BitMatrix.toMatrix_identity n

/-- The shift of the identity is zero. -/
theorem toVec_identity (n : ℕ) : (identity n).shift.toVec n = 0 := by
  funext i
  rw [BitVector.toVec, bit_shift_identity, bitValue_false, Pi.zero_apply]

/-! ### Application -/

/-- Output bit `i` of the map at a point: the parity of the row, flipped by the shift. -/
def imageBit (f : AffineMap) (x : ℕ → Bool) (i : ℕ) : Bool :=
  (f.linear.rows[i]?.map fun row => row.parityAt x).getD false ^^ f.shift.bit i

/-- A bit of the image is the parity that its row selects, flipped if the shift says so. -/
theorem imageBit_eq {x : ℕ → Bool} {i : ℕ} {row : BitVector} (hi : f.linear.rows[i]? = some row) :
    f.imageBit x i = (row.parityAt x ^^ f.shift.bit i) := by
  rw [imageBit, hi]
  rfl

/-- The identity map keeps every bit. -/
theorem imageBit_identity (x : ℕ → Bool) {i : ℕ} (hi : i < n) :
    (identity n).imageBit x i = x i := by
  have hrow : (identity n).linear.rows[i]? = some ((BitVector.zeros n).flip i) := by
    simp [identity, BitMatrix.identity, hi]
  have hsupport : ((BitVector.zeros n).flip i).support = [i] := by
    refine (BitVector.pairwise_support _).eq_of_mem_iff (List.pairwise_singleton _ _) fun j => ?_
    rw [BitVector.mem_support, BitVector.bit_flip, BitVector.bit_zeros, List.mem_singleton]
    simp [hi, eq_comm]
  rw [imageBit, hrow, identity, BitVector.bit_zeros, Bool.xor_false]
  show ((BitVector.zeros n).flip i).parityAt x = x i
  rw [BitVector.parityAt, hsupport, List.countP_singleton]
  cases x i <;> rfl

/-- Only the first `n` input bits matter. -/
theorem imageBit_congr (hf : f.IsOn n) {x y : ℕ → Bool} (h : ∀ i < n, x i = y i) (i : ℕ) :
    f.imageBit x i = f.imageBit y i := by
  cases hi : f.linear.rows[i]? with
  | none => rw [imageBit, imageBit, hi]; rfl
  | some row =>
      rw [imageBit_eq hi, imageBit_eq hi, BitVector.parityAt_congr fun j hj =>
        h j (hf.linear.length_row hi ▸ hj)]

/-- An output bit as an inner product with a row of the matrix. -/
theorem bitValue_imageBit (hf : f.IsOn n) (x : ℕ → Bool) {i : ℕ} (hi : i < n) :
    bitValue (f.imageBit x i) =
      ∑ j ∈ Finset.range n, bitValue (f.linear.entry i j) * bitValue (x j) +
        bitValue (f.shift.bit i) := by
  obtain ⟨row, hrow⟩ := hf.linear.exists_row hi
  rw [imageBit_eq hrow, bitValue_xor, BitVector.bitValue_parityAt (hf.linear.length_row hrow).le]
  simp only [BitMatrix.entry_eq_bit hrow]

/-- **A stored map is determined by its values.** The shift is the image of zero, and a column of
the matrix is the difference that an input bit makes. -/
theorem ext_imageBit (hf : f.IsOn n) (hg : g.IsOn n)
    (h : ∀ x, ∀ i < n, f.imageBit x i = g.imageBit x i) : f = g := by
  have hvalue : ∀ x : ℕ → Bool, ∀ i < n,
      ∑ j ∈ Finset.range n, bitValue (f.linear.entry i j) * bitValue (x j) +
        bitValue (f.shift.bit i) =
      ∑ j ∈ Finset.range n, bitValue (g.linear.entry i j) * bitValue (x j) +
        bitValue (g.shift.bit i) := by
    intro x i hi
    rw [← bitValue_imageBit hf x hi, h x i hi, bitValue_imageBit hg x hi]
  have hshift : ∀ i < n, bitValue (f.shift.bit i) = bitValue (g.shift.bit i) := by
    intro i hi
    simpa using hvalue (fun _ => false) i hi
  refine ext_bits hf hg (fun i hi j hj => bitValue_injective ?_) fun i hi =>
    bitValue_injective (hshift i hi)
  have hunit : ∀ m : BitMatrix, ∑ k ∈ Finset.range n,
      bitValue (m.entry i k) * bitValue (decide (k = j)) = bitValue (m.entry i j) := by
    intro m
    rw [Finset.sum_eq_single_of_mem j (Finset.mem_range.mpr hj), decide_eq_true rfl, bitValue_true,
      mul_one]
    intro k _ hk
    rw [decide_eq_false hk, bitValue_false, mul_zero]
  have hcolumn := hvalue (fun k => decide (k = j)) i hi
  rwa [hunit, hunit, hshift i hi, add_left_inj] at hcolumn

/-- **Application does not fail**, and gives the bits of the image. -/
theorem exists_apply (hf : f.IsOn n) {v : BitVector} (hv : v.length = n) :
    ∃ u, f.apply v = .ok u ∧ u.length = n ∧ (∀ i < n, u.bit i = f.imageBit v.bit i) ∧
      u.toVec n = (f.linear.toMatrix n n).mulVec (v.toVec n) + f.shift.toVec n := by
  have himage := BitMatrix.mulVec?_eq_some hf.linear hv
  obtain ⟨image, himage', hlength, hvec⟩ := BitMatrix.exists_mulVec? hf.linear hv
  obtain ⟨u, hu⟩ := BitVector.exists_xor? (hlength.trans hf.shift.symm)
  refine ⟨u, ?_, (BitVector.length_of_xor? hu).trans hlength, fun i hi => ?_, ?_⟩
  · rw [apply, Result.sameSize_eq_ok.mpr (hf.numBits_eq.trans hv.symm)]
    simp [himage', hu]
  · obtain ⟨row, hrow⟩ := hf.linear.exists_row hi
    rw [BitVector.bit_of_xor? hu, Option.some.inj (himage'.symm.trans himage),
      BitMatrix.bit_mulVec f.linear v.bit hrow, imageBit_eq hrow]
  · rw [BitVector.toVec_of_xor? n hu, hvec]

/-! ### Composition -/

/-- **Composition does not fail**, and composes the maps. -/
theorem exists_after (hf : f.IsOn n) (hg : g.IsOn n) :
    ∃ h, f.after g = .ok h ∧ h.IsOn n ∧
      h.linear.toMatrix n n = f.linear.toMatrix n n * g.linear.toMatrix n n ∧
      h.shift.toVec n =
        (f.linear.toMatrix n n).mulVec (g.shift.toVec n) + f.shift.toVec n := by
  obtain ⟨linear, hlinear, hshape, hmatrix⟩ := BitMatrix.exists_mul? hf.linear hg.linear
  obtain ⟨image, himage, hlength, hvec⟩ := BitMatrix.exists_mulVec? hf.linear hg.shift
  obtain ⟨shift, hshift⟩ := BitVector.exists_xor? (hlength.trans hf.shift.symm)
  refine ⟨⟨linear, shift⟩, ?_, ⟨hshape, (BitVector.length_of_xor? hshift).trans hlength⟩,
    hmatrix, ?_⟩
  · rw [after, Result.sameSize_eq_ok.mpr (hf.numBits_eq.trans hg.numBits_eq.symm)]
    simp [hlinear, himage, hshift]
  · rw [BitVector.toVec_of_xor? n hshift, hvec]

/-- The value of a composition is the value at the value. -/
theorem apply_after (hf : f.IsOn n) (hg : g.IsOn n) (hh : f.after g = .ok h) {v : BitVector}
    (hv : v.length = n) :
    ∃ y z, g.apply v = .ok y ∧ f.apply y = .ok z ∧ h.apply v = .ok z ∧ y.length = n ∧
      ∀ i < n, y.bit i = g.imageBit v.bit i := by
  obtain ⟨hon, hmatrix, hvec⟩ := Result.of_exists_ok (exists_after hf hg) hh
  obtain ⟨y, hy, hylen, hybits, hyvec⟩ := exists_apply hg hv
  obtain ⟨z, hz, hzlen, -, hzvec⟩ := exists_apply hf hylen
  obtain ⟨w, hw, hwlen, -, hwvec⟩ := exists_apply hon hv
  have hzw : z = w := by
    refine BitVector.toVec_injective hzlen hwlen ?_
    rw [hzvec, hwvec, hyvec, hmatrix, hvec, Matrix.mulVec_add, Matrix.mulVec_mulVec, add_assoc]
  exact ⟨y, z, hy, hz, hzw ▸ hw, hylen, hybits⟩

/-- The bits of a vector may be chosen freely. -/
theorem exists_bits (n : ℕ) (x : ℕ → Bool) :
    ∃ v : BitVector, v.length = n ∧ ∀ i < n, v.bit i = x i := by
  refine ⟨BitVector.ofList ((List.range n).map x), ?_, fun i hi => ?_⟩
  · rw [BitVector.length_ofList, List.length_map, List.length_range]
  · rw [BitVector.bit_ofList, List.getElem?_map, List.getElem?_range hi]
    rfl

/-- The bits of the value of a composition. -/
theorem imageBit_after (hf : f.IsOn n) (hg : g.IsOn n) (hh : f.after g = .ok h) (x : ℕ → Bool)
    {i : ℕ} (hi : i < n) : h.imageBit x i = f.imageBit (g.imageBit x) i := by
  obtain ⟨hon, -, -⟩ := Result.of_exists_ok (exists_after hf hg) hh
  obtain ⟨v, hv, hx⟩ := exists_bits n x
  obtain ⟨y, z, -, hfy, hhv, hylen, hybits⟩ := apply_after hf hg hh hv
  obtain ⟨-, hfbits, -⟩ := Result.of_exists_ok (exists_apply hf hylen) hfy
  obtain ⟨-, hhbits, -⟩ := Result.of_exists_ok (exists_apply hon hv) hhv
  have hy : ∀ j < n, y.bit j = g.imageBit x j := fun j hj => by
    rw [hybits j hj, imageBit_congr hg hx]
  rw [← imageBit_congr hon hx, ← hhbits i hi, hfbits i hi, imageBit_congr hf hy]

/-- **Composition is associative**, as stored values. -/
theorem after_assoc (hf : f.IsOn n) (hg : g.IsOn n) (hh : h.IsOn n) :
    ∃ fg gh fgh, f.after g = .ok fg ∧ g.after h = .ok gh ∧ fg.after h = .ok fgh ∧
      f.after gh = .ok fgh := by
  obtain ⟨fg, hfg, hfgon, hfgm, hfgv⟩ := exists_after hf hg
  obtain ⟨gh, hgh, hghon, hghm, hghv⟩ := exists_after hg hh
  obtain ⟨left, hleft, hleftOn, hleftm, hleftv⟩ := exists_after hfgon hh
  obtain ⟨right, hright, hrightOn, hrightm, hrightv⟩ := exists_after hf hghon
  have hsame : left = right := by
    refine ext_toMatrix hleftOn hrightOn ?_ ?_
    · rw [hleftm, hrightm, hfgm, hghm, Matrix.mul_assoc]
    · rw [hleftv, hrightv, hfgm, hfgv, hghv, Matrix.mulVec_add, Matrix.mulVec_mulVec, add_assoc]
  exact ⟨fg, gh, left, hfg, hgh, hleft, hsame ▸ hright⟩

/-! ### Bijections -/

/-- Application takes the vectors of `n` bits to vectors of `n` bits, one to one and onto; it fails
on none of them. -/
def IsBijection (f : AffineMap) (n : ℕ) : Prop :=
  Set.BijOn f.apply {v | v.length = n} (Except.ok '' {v | v.length = n})

/-- Every vector over the field is that of some bits. -/
theorem exists_toVec (x : Fin n → ZMod 2) : ∃ v : BitVector, v.length = n ∧ v.toVec n = x := by
  obtain ⟨v, hv, hbits⟩ := exists_bits n fun i => if h : i < n then decide (x ⟨i, h⟩ = 1) else false
  refine ⟨v, hv, funext fun i => ?_⟩
  rw [BitVector.toVec, hbits i i.isLt, dif_pos i.isLt]
  generalize x i = a
  revert a; decide

/-- Application, as an equation between vectors over the field. -/
theorem apply_eq_ok_iff (hf : f.IsOn n) {v u : BitVector} (hv : v.length = n)
    (hu : u.length = n) : f.apply v = .ok u ↔
      (f.linear.toMatrix n n).mulVec (v.toVec n) + f.shift.toVec n = u.toVec n := by
  obtain ⟨w, hw, hwlen, -, hwvec⟩ := exists_apply hf hv
  rw [hw, ← hwvec]
  constructor
  · intro h
    rw [Except.ok.inj h]
  · exact fun h => congrArg Except.ok (BitVector.toVec_injective hwlen hu h)

/-- **An affine map is a bijection exactly if its matrix is invertible.** -/
theorem isBijection_iff (hf : f.IsOn n) :
    f.IsBijection n ↔ IsUnit (f.linear.toMatrix n n) := by
  constructor
  · rintro ⟨-, hinj, -⟩
    refine Matrix.mulVec_injective_iff_isUnit.mp fun x y hxy => ?_
    obtain ⟨v, hv, rfl⟩ := exists_toVec x
    obtain ⟨w, hw, rfl⟩ := exists_toVec y
    obtain ⟨u, hvu, hu, -, hvec⟩ := exists_apply hf hv
    have hwu : f.apply w = .ok u := (apply_eq_ok_iff hf hw hu).mpr (by rw [hvec, hxy])
    rw [hinj hv hw (hvu.trans hwu.symm)]
  · intro hunit
    refine ⟨fun v hv => ?_, fun v hv w hw heq => ?_, ?_⟩
    · obtain ⟨u, hvu, hu, -, -⟩ := exists_apply hf hv
      exact ⟨u, hu, hvu.symm⟩
    · obtain ⟨u, hvu, hu, -, -⟩ := exists_apply hf hv
      have hsame := ((apply_eq_ok_iff hf hv hu).mp hvu).trans
        ((apply_eq_ok_iff hf hw hu).mp (heq.symm.trans hvu)).symm
      exact BitVector.toVec_injective hv hw
        (Matrix.mulVec_injective_iff_isUnit.mpr hunit (add_right_cancel hsame))
    · rintro _ ⟨u, hu, rfl⟩
      obtain ⟨x, hx⟩ := Matrix.mulVec_surjective_iff_isUnit.mpr hunit (u.toVec n - f.shift.toVec n)
      obtain ⟨v, hv, rfl⟩ := exists_toVec x
      exact ⟨v, hv, (apply_eq_ok_iff hf hv hu).mpr (by rw [hx, sub_add_cancel])⟩

/-! ### Direct sums -/

/-- **The direct sum** of two maps exists, and is reversible exactly if both maps are. -/
theorem exists_directSum? {m : ℕ} (hf : f.IsOn n) (hg : g.IsOn m) :
    ∃ h, f.directSum? g = some h ∧ h.IsOn (n + m) ∧
      (IsUnit (h.linear.toMatrix (n + m) (n + m)) ↔
        IsUnit (f.linear.toMatrix n n) ∧ IsUnit (g.linear.toMatrix m m)) := by
  obtain ⟨linear, hlinear, hshape, -⟩ := BitMatrix.exists_blockSum? hf.linear hg.linear
  refine ⟨⟨linear, f.shift.append g.shift⟩, ?_, ⟨hshape, ?_⟩,
    BitMatrix.isUnit_blockSum? hf.linear hg.linear hlinear⟩
  · rw [directSum?, hlinear]
    rfl
  · rw [BitVector.length_append, hf.shift, hg.shift]

/-- **The output bits of a direct sum** are those of the first map at the first bits and those of
the second map at the bits after them. -/
theorem imageBit_directSum? {m : ℕ} (hf : f.IsOn n) (hg : g.IsOn m) (hh : f.directSum? g = some h)
    (x : ℕ → Bool) {i : ℕ} (hi : i < n + m) :
    h.imageBit x i =
      if i < n then f.imageBit x i else g.imageBit (fun j => x (j + n)) (i - n) := by
  obtain ⟨linear, hlinear, hshape, hentry⟩ := BitMatrix.exists_blockSum? hf.linear hg.linear
  obtain rfl : ⟨linear, f.shift.append g.shift⟩ = h := by
    rw [directSum?, hlinear] at hh
    exact Option.some.inj hh
  have hon : IsOn ⟨linear, f.shift.append g.shift⟩ (n + m) := by
    refine ⟨hshape, ?_⟩
    rw [BitVector.length_append, hf.shift, hg.shift]
  refine bitValue_injective ?_
  rw [bitValue_imageBit hon x hi, Finset.sum_range_add, BitVector.bit_append, hf.shift]
  by_cases hfirst : i < n
  · -- a row of the first block has zeros in the columns of the second
    have hzero : ∀ j, f.linear.entry i (n + j) = false := fun j =>
      hf.linear.entry_eq_false (Nat.le_add_right n j)
    rw [if_pos hfirst, if_pos hfirst, bitValue_imageBit hf x hfirst]
    simp [hentry, hfirst, hzero]
  · -- a row of the second block has zeros in the columns of the first
    have hzero : ∀ j ∈ Finset.range n, decide (n ≤ j) = false := fun j hj =>
      decide_eq_false (Finset.mem_range.mp hj).not_ge
    have hsecond : i - n < m := by omega
    rw [if_neg hfirst, if_neg hfirst, bitValue_imageBit hg _ hsecond,
      Finset.sum_eq_zero fun j hj => ?_, zero_add]
    · simp [hentry, hfirst, add_comm]
    · simp [hentry, hfirst, hzero j hj]

/-! ### Elementary changes -/

/-- **An output bit can be flipped.** Only the shift changes. -/
theorem exists_flipOutput? (hf : f.IsOn n) {q : ℕ} (hq : q < n) :
    ∃ g, f.flipOutput? q = some g ∧ g.IsOn n ∧ g.linear = f.linear ∧
      ∀ i, g.shift.bit i = (f.shift.bit i ^^ decide (i = q)) := by
  have hlt : q < f.shift.length := hf.shift.symm ▸ hq
  refine ⟨{ f with shift := f.shift.flip q }, ?_,
    ⟨hf.linear, (f.shift.length_flip q).trans hf.shift⟩, rfl, fun i => ?_⟩
  · rw [flipOutput?, BitVector.flip?_eq_some _ hlt]
    rfl
  · rw [BitVector.bit_flip, decide_eq_true hlt, Bool.and_true]
    simp only [eq_comm]

/-- **An output bit can be added into another one.** A row of the linear part and a bit of the
shift change. -/
theorem exists_addOutput? (hf : f.IsOn n) {control target : ℕ} (hc : control < n)
    (ht : target < n) (hne : control ≠ target) :
    ∃ g, f.addOutput? control target = some g ∧ g.IsOn n ∧
      (∀ i j, g.linear.entry i j =
        (f.linear.entry i j ^^ (decide (i = target) && f.linear.entry control j))) ∧
      ∀ i, g.shift.bit i = (f.shift.bit i ^^ (decide (i = target) && f.shift.bit control)) := by
  have hclt : control < f.shift.length := hf.shift.symm ▸ hc
  have htlt : target < f.shift.length := hf.shift.symm ▸ ht
  obtain ⟨linear, hlinear, hshape, hentry⟩ := BitMatrix.exists_addRow? hf.linear hc ht hne
  have hget : f.shift.get? control = some (f.shift.bit control) := f.shift.get?_eq_some hclt
  cases hbit : f.shift.bit control with
  | false =>
      refine ⟨⟨linear, f.shift⟩, ?_, ⟨hshape, hf.shift⟩, hentry, fun i => ?_⟩
      · simp [addOutput?, hlinear, hget, hbit]
      · rw [Bool.and_false, Bool.xor_false]
  | true =>
      refine ⟨⟨linear, f.shift.flip target⟩, ?_,
        ⟨hshape, (f.shift.length_flip target).trans hf.shift⟩, hentry, fun i => ?_⟩
      · simp [addOutput?, hlinear, hget, hbit, BitVector.flip?_eq_some _ htlt]
      · rw [BitVector.bit_flip, decide_eq_true htlt, Bool.and_true, Bool.and_true]
        simp only [eq_comm]

/-- The output bits after one of them is flipped. -/
theorem imageBit_flipOutput? (hf : f.IsOn n) {q : ℕ} (hq : q < n) (hg : f.flipOutput? q = some g)
    (x : ℕ → Bool) (i : ℕ) : g.imageBit x i = (f.imageBit x i ^^ decide (i = q)) := by
  obtain ⟨-, hlinear, hshift⟩ := Result.of_exists_some (exists_flipOutput? hf hq) hg
  rw [imageBit, imageBit, hlinear, hshift, Bool.xor_assoc]

/-- The output bits after one of them is added into another one. -/
theorem imageBit_addOutput? (hf : f.IsOn n) {control target : ℕ} (hc : control < n)
    (ht : target < n) (hne : control ≠ target) (hg : f.addOutput? control target = some g)
    (x : ℕ → Bool) {i : ℕ} (hi : i < n) :
    g.imageBit x i = (f.imageBit x i ^^ (decide (i = target) && f.imageBit x control)) := by
  obtain ⟨hon, hentry, hshift⟩ := Result.of_exists_some (exists_addOutput? hf hc ht hne) hg
  refine bitValue_injective ?_
  rw [bitValue_xor, bitValue_and, bitValue_imageBit hon x hi, bitValue_imageBit hf x hi,
    bitValue_imageBit hf x hc]
  simp only [hentry, hshift, bitValue_xor, bitValue_and, add_mul, Finset.sum_add_distrib, mul_add,
    Finset.mul_sum, mul_assoc]
  ring

/-- Flipping a bit twice gives the map back. -/
theorem flipOutput?_flipOutput? (hf : f.IsOn n) {q : ℕ} (hq : q < n)
    (hg : f.flipOutput? q = some g) : g.flipOutput? q = some f := by
  obtain ⟨hon, hlinear, hshift⟩ := Result.of_exists_some (exists_flipOutput? hf hq) hg
  obtain ⟨f', hf', hon', hlinear', hshift'⟩ := exists_flipOutput? hon hq
  rw [hf']
  refine congrArg some (ext_bits hon' hf (fun i _ j _ => by rw [hlinear', hlinear]) fun i _ => ?_)
  rw [hshift', hshift, Bool.xor_assoc, Bool.xor_self, Bool.xor_false]

/-- Adding a bit twice gives the map back. -/
theorem addOutput?_addOutput? (hf : f.IsOn n) {control target : ℕ} (hc : control < n)
    (ht : target < n) (hne : control ≠ target) (hg : f.addOutput? control target = some g) :
    g.addOutput? control target = some f := by
  obtain ⟨hon, hentry, hshift⟩ := Result.of_exists_some (exists_addOutput? hf hc ht hne) hg
  obtain ⟨f', hf', hon', hentry', hshift'⟩ := exists_addOutput? hon hc ht hne
  rw [hf']
  refine congrArg some (ext_bits hon' hf (fun i _ j _ => ?_) fun i _ => ?_)
  · rw [hentry', hentry, hentry, decide_eq_false hne, Bool.false_and, Bool.xor_false,
      Bool.xor_assoc, Bool.xor_self, Bool.xor_false]
  · rw [hshift', hshift, hshift, decide_eq_false hne, Bool.false_and, Bool.xor_false,
      Bool.xor_assoc, Bool.xor_self, Bool.xor_false]

/-- Adding an output bit into another one keeps the linear part invertible. -/
theorem isUnit_addOutput? (hf : f.IsOn n) {control target : ℕ} (hc : control < n)
    (ht : target < n) (hne : control ≠ target) (hg : f.addOutput? control target = some g) :
    IsUnit (g.linear.toMatrix n n) ↔ IsUnit (f.linear.toMatrix n n) := by
  obtain ⟨-, hentry, -⟩ := Result.of_exists_some (exists_addOutput? hf hc ht hne) hg
  have hrow : g.linear.toMatrix n n = (f.linear.toMatrix n n).updateRow ⟨target, ht⟩
      (f.linear.toMatrix n n ⟨target, ht⟩ + f.linear.toMatrix n n ⟨control, hc⟩) := by
    funext i j
    rw [BitMatrix.toMatrix, hentry, bitValue_xor, bitValue_and, Matrix.updateRow_apply]
    by_cases hi : i = ⟨target, ht⟩
    · subst hi
      simp [BitMatrix.toMatrix]
    · rw [if_neg hi, decide_eq_false fun h => hi (Fin.ext h)]
      simp [BitMatrix.toMatrix]
  rw [Matrix.isUnit_iff_isUnit_det, Matrix.isUnit_iff_isUnit_det, hrow,
    Matrix.det_updateRow_add_self _ fun h => hne (Fin.mk.inj h).symm]

end AffineMap

end AffinePhase
