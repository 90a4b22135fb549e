import AffinePhase.Amplitude.Matrix
import AffinePhase.Proofs.Circuit.Action

/-!
# Circuits as permutations of basis states

A circuit permutes the basis states of its qubits, since the inverse circuit takes every one of them
back. Its matrix is written column by column, each column getting one entry, which is therefore in a
row of the matrix and the only one of this row. The inverse circuit undoes the phases as well; the
conjugate and the transposed circuit have the phases of the conjugate and of the transposed matrix
up to one constant.

## Main definitions

* `Circuit.image`: the permutation of a circuit.

## Main results

* `Circuit.bijOn_image`: it is a permutation.
* `AmplitudeMatrix.entry_ofCircuit`: the entries of the matrix of a circuit.
* `Circuit.exists_act_transpose`: the transposed circuit.
* `Circuit.transforms_follow_matrix`: what the transforms of a circuit do to its matrix.
-/

open scoped Fin.CommRing

namespace AffinePhase

open BasisImage

/-! ### The permutation of a circuit -/

namespace Circuit

/-- The basis state that a circuit leads to. -/
def image (c : Circuit) (index : ℕ) : ℕ := (c.act index).index

/-- The inverse circuit leads back. -/
theorem image_inverse_image (c : Circuit) (index : ℕ) : c.inverse.image (c.image index) = index :=
  congrArg BasisImage.index (congrFun c.act_followedBy_inverse index)

/-- The inverse circuit has the opposite phases. -/
theorem power_inverse_image (c : Circuit) (index : ℕ) :
    (c.inverse.act (c.image index)).power = -(c.act index).power :=
  eq_neg_of_add_eq_zero_right (congrArg BasisImage.power (congrFun c.act_followedBy_inverse index))

/-- **A circuit permutes the basis states** of its qubits. -/
theorem bijOn_image (c : Circuit) :
    Set.BijOn c.image (Set.Iio (2 ^ c.numQubits)) (Set.Iio (2 ^ c.numQubits)) := by
  have hback (index : ℕ) : c.image (c.inverse.image index) = index := by
    have h := c.inverse.image_inverse_image index
    rwa [inverse_inverse] at h
  have hinv : Set.InvOn c.inverse.image c.image (Set.Iio (2 ^ c.numQubits))
      (Set.Iio (2 ^ c.numQubits)) :=
    ⟨fun index _ => c.image_inverse_image index, fun index _ => hback index⟩
  exact hinv.bijOn c.staysBelow c.inverse.staysBelow

/-- **The transposed circuit** leads back with the same phases, up to a constant. -/
theorem exists_act_transpose (c : Circuit) :
    ∃ k, ∀ index < 2 ^ c.numQubits,
      c.transpose.act (c.image index) = ⟨index, (c.act index).power + k⟩ := by
  obtain ⟨k, hk⟩ := c.inverse.sameAction_conjugate
  refine ⟨k, fun index hindex => ?_⟩
  rw [transpose_eq_inverse_conjugate, hk (c.image index) (c.staysBelow index hindex)]
  refine BasisImage.ext (c.image_inverse_image index) ?_
  simp only [Function.comp_apply, conj, turn, c.power_inverse_image index, neg_neg]

/-- A circuit and its transpose permute the basis states in opposite ways. -/
theorem invOn_image_transpose (c : Circuit) :
    Set.InvOn c.transpose.image c.image (Set.Iio (2 ^ c.numQubits))
      (Set.Iio (2 ^ c.numQubits)) := by
  obtain ⟨k, hk⟩ := c.exists_act_transpose
  have hleft : Set.LeftInvOn c.transpose.image c.image (Set.Iio (2 ^ c.numQubits)) :=
    fun index hindex => congrArg BasisImage.index (hk index hindex)
  exact ⟨hleft, c.bijOn_image.image_eq ▸ hleft.rightInvOn_image⟩

end Circuit

/-! ### The matrix of a circuit -/

namespace AmplitudeMatrix

variable {m : AmplitudeMatrix} {row column row' column' : ℕ}

/-- Entries at different places have different addresses. -/
theorem address_inj (hcolumn : column < m.dimension) (hcolumn' : column' < m.dimension) :
    m.address row column = m.address row' column' ↔ row' = row ∧ column' = column := by
  constructor
  · intro h
    have hplace (r : ℕ) {c : ℕ} (hc : c < m.dimension) :
        m.address r c / m.dimension = r ∧ m.address r c % m.dimension = c := by
      refine (Nat.div_mod_unique (Nat.zero_lt_of_lt hc)).mpr ⟨?_, hc⟩
      rw [address, mul_comm, add_comm]
    obtain ⟨hrow, hrest⟩ := hplace row hcolumn
    obtain ⟨hrow', hrest'⟩ := hplace row' hcolumn'
    rw [h] at hrow hrest
    exact ⟨hrow'.symm.trans hrow, hrest'.symm.trans hrest⟩
  · rintro ⟨rfl, rfl⟩
    rfl

/-- The address of an entry is inside the table. -/
theorem address_lt (hrow : row < m.dimension) (hcolumn : column < m.dimension) :
    m.address row column < m.dimension * m.dimension := by
  calc row * m.dimension + column < row * m.dimension + m.dimension := by omega
    _ = (row + 1) * m.dimension := (Nat.succ_mul row m.dimension).symm
    _ ≤ m.dimension * m.dimension := Nat.mul_le_mul_right _ hrow

/-- The matrix has as many entries as its dimension says. -/
def IsFull (m : AmplitudeMatrix) : Prop := m.entries.size = m.dimension * m.dimension

/-- Replacing an entry changes this entry only. -/
theorem entry_setEntry (hm : m.IsFull) (hrow : row < m.dimension) (hcolumn : column < m.dimension)
    (hcolumn' : column' < m.dimension) (a : Amplitude) :
    (m.setEntry row column a).entry row' column' =
      if row' = row ∧ column' = column then a else m.entry row' column' := by
  have hstored : m.address row column < m.entries.size := hm ▸ address_lt hrow hcolumn
  have haddress : (m.setEntry row column a).address row' column' = m.address row' column' := rfl
  simp only [entry, get?, haddress]
  rw [setEntry, Array.getElem?_setIfInBounds, if_pos hstored]
  simp only [address_inj hcolumn hcolumn']
  split
  · rfl
  · rfl

/-- The zero matrix has no other entry than zero. -/
theorem entry_zeros (d row column : ℕ) : (zeros d).entry row column = .zero := by
  rw [entry, get?, zeros, Array.getElem?_replicate]
  split
  · rfl
  · rfl

/-- The columns that have been written have one entry each, and the others none. -/
structure IsWritten (m : AmplitudeMatrix) (c : Circuit) (columns : ℕ) : Prop where
  /-- The dimension is the number of basis states. -/
  dimension : m.dimension = 2 ^ c.numQubits
  /-- The matrix has all of its entries. -/
  isFull : m.IsFull
  /-- Every entry is as the circuit says, or zero where nothing has been written. -/
  entry : ∀ row column, column < 2 ^ c.numQubits → m.entry row column =
    if column < columns ∧ row = c.image column then .omega (c.act column).power else .zero

/-- Writing one more column. -/
theorem IsWritten.setImage {c : Circuit} {k : ℕ} (h : m.IsWritten c k)
    (hk : k < 2 ^ c.numQubits) : (setImage c m k).IsWritten c (k + 1) where
  dimension := h.dimension
  isFull := by
    rw [AmplitudeMatrix.setImage, IsFull, setEntry, Array.size_setIfInBounds]
    exact h.isFull
  entry := by
    intro row column hcolumn
    -- the row that is written is one of the matrix
    have hrow : c.image k < m.dimension := h.dimension ▸ c.staysBelow k hk
    rw [← h.dimension] at hk hcolumn
    refine (entry_setEntry h.isFull hrow hk hcolumn _).trans ?_
    rw [h.entry row column (h.dimension ▸ hcolumn)]
    rcases Nat.lt_trichotomy column k with hlt | rfl | hgt
    · rw [if_neg fun hand => hlt.ne hand.2]
      simp only [hlt, Nat.lt_succ_of_lt hlt]
    · simp
    · rw [if_neg fun hand => hgt.ne' hand.2, if_neg fun hand => hgt.not_gt hand.1,
        if_neg fun hand => (Nat.lt_succ_of_le hgt).not_ge (by omega)]

/-- **The matrix of a circuit** has in each column a power of `ω` in the row of the image, and zeros
elsewhere. -/
theorem entry_ofCircuit (c : Circuit) {row column : ℕ} (hcolumn : column < 2 ^ c.numQubits) :
    (ofCircuit c).entry row column =
      if row = c.image column then .omega (c.act column).power else .zero := by
  have hwritten (k : ℕ) (hk : k ≤ 2 ^ c.numQubits) :
      ((List.range k).foldl (setImage c) (zeros (2 ^ c.numQubits))).IsWritten c k := by
    induction k with
    | zero =>
        refine ⟨rfl, Array.size_replicate, fun row column _ => ?_⟩
        rw [List.range_zero, List.foldl_nil, entry_zeros, if_neg fun h => Nat.not_lt_zero _ h.1]
    | succ k ih =>
        rw [List.range_succ, List.foldl_append]
        exact (ih (by omega)).setImage hk
  have hentry := (hwritten _ le_rfl).entry row column hcolumn
  rw [ofCircuit, Nat.one_shiftLeft, hentry]
  simp only [hcolumn, true_and]

end AmplitudeMatrix

/-! ### The transforms -/

namespace Circuit

/-- **A circuit followed by its inverse** leaves every state alone, with its phase. -/
theorem exists_append_inverse (c : Circuit) :
    ∃ r, c.append c.inverse = .ok r ∧ ∀ index, r.act index = ⟨index, 0⟩ := by
  obtain ⟨r, hr, -⟩ := exists_append (c := c) (d := c.inverse) rfl
  refine ⟨r, hr, fun index => ?_⟩
  rw [act_of_append hr, c.act_followedBy_inverse]
  rfl

/-- **The transforms of a circuit follow its matrix.** In the column of a basis state the matrix has
a power of `ω` in the row of its image, and zeros elsewhere, and the images are a permutation of the
basis states. The circuit followed by its inverse, and the inverse followed by the circuit, leave
every state alone, with no phase. The conjugate circuit has the same images and opposite phases, and
the transposed circuit takes every image back with the phase of the circuit, where the phases may
differ by one constant for all states. -/
theorem transforms_follow_matrix (c : Circuit) :
    (∀ row column, column < 2 ^ c.numQubits → (AmplitudeMatrix.ofCircuit c).entry row column =
      if row = c.image column then .omega (c.act column).power else .zero) ∧
    Set.BijOn c.image (Set.Iio (2 ^ c.numQubits)) (Set.Iio (2 ^ c.numQubits)) ∧
    (∃ r, c.append c.inverse = .ok r ∧ ∀ index, r.act index = ⟨index, 0⟩) ∧
    (∃ r, c.inverse.append c = .ok r ∧ ∀ index, r.act index = ⟨index, 0⟩) ∧
    (∃ k, ∀ index < 2 ^ c.numQubits,
      c.conjugate.act index = ⟨c.image index, -(c.act index).power + k⟩) ∧
    Set.InvOn c.transpose.image c.image (Set.Iio (2 ^ c.numQubits)) (Set.Iio (2 ^ c.numQubits)) ∧
    ∃ k, ∀ index < 2 ^ c.numQubits,
      (c.transpose.act (c.image index)).power = (c.act index).power + k := by
  have hback := c.inverse.exists_append_inverse
  rw [inverse_inverse] at hback
  obtain ⟨k, hk⟩ := c.exists_act_transpose
  exact ⟨fun row column => AmplitudeMatrix.entry_ofCircuit c, c.bijOn_image,
    c.exists_append_inverse, hback, c.sameAction_conjugate, c.invOn_image_transpose, k,
    fun index hindex => congrArg BasisImage.power (hk index hindex)⟩

end Circuit

end AffinePhase
