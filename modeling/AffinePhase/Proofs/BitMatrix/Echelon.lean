import AffinePhase.Proofs.BitMatrix.RowSpace

/-!
# The reduced row echelon form

A sweep leaves a matrix in reduced row echelon form. This module says what that form is, without
reference to the sweep, and derives from it what depends on the row space alone: which columns have
a pivot, how many there are, and the rows themselves. So two matrices are reduced to the same one
exactly if their rows have the same sums.

The link is the set of columns that *lead* the row space, those in which some vector of the space
has its first nonzero entry. In a reduced matrix they are the columns with a pivot, because a vector
of the space is the sum of the pivot rows at whose pivots it is nonzero. In any matrix they are the
columns that are not sums of columns to the left: a linear function that tells such a column from
those to its left is a combination of rows.

## Main definitions

* `BitMatrix.IsEchelonForm`: the reduced row echelon form, with its profile.
* `Leads`: a column in which a space of rows has a first nonzero entry.

## Main results

* `BitMatrix.leads_rowSpace_iff`: which columns lead the row space, by the columns to the left.
* `BitMatrix.IsEchelonForm.leads_iff`: in a reduced matrix they are those of the profile.
* `BitMatrix.IsEchelonForm.unique`: the row space determines a reduced matrix and its profile.
* `BitMatrix.echelonize_reduces`: what a sweep over the columns of a matrix achieves.
* `BitMatrix.echelonize_canonical`: the outcome depends on the sums of the rows only.
-/

namespace AffinePhase

/-- Some vector of a space has its first nonzero entry in column `j`. -/
def Leads {n : ℕ} (V : Submodule (ZMod 2) (Fin n → ZMod 2)) (j : Fin n) : Prop :=
  ∃ x ∈ V, x j ≠ 0 ∧ ∀ i < j, x i = 0

namespace BitMatrix

variable {a b m reduced : BitMatrix} {p q profile : List ℕ} {r c : ℕ}

/-! ### The columns that lead the row space -/

/-- The row space is the set of combinations of rows. -/
theorem HasShape.rowSpace_eq_range (h : m.HasShape r c) :
    rowSpace c m.rows = LinearMap.range (m.toMatrix r c).vecMulLinear := by
  rw [range_vecMulLinear, rowSpace]
  refine congrArg _ (Set.ext fun x => ⟨?_, ?_⟩)
  · rintro ⟨row, hrow, rfl⟩
    obtain ⟨i, hi⟩ := List.mem_iff_getElem?.mp hrow
    have hir : i < r := h.rowCount ▸ (List.getElem?_eq_some_iff.mp hi).1
    exact ⟨⟨i, hir⟩, row_toMatrix hi hir⟩
  · rintro ⟨i, rfl⟩
    obtain ⟨row, hi⟩ := h.exists_row i.isLt
    exact ⟨row, List.mem_of_getElem? hi, (row_toMatrix hi i.isLt).symm⟩

/-- **The leading columns** are those that are not combinations of columns to the left. -/
theorem leads_rowSpace_iff (h : m.HasShape r c) (j : Fin c) :
    Leads (rowSpace c m.rows) j ↔
      (m.toMatrix r c).col j ∉ Submodule.span (ZMod 2) ((m.toMatrix r c).col '' Set.Iio j) := by
  rw [h.rowSpace_eq_range]
  constructor
  · rintro ⟨_, ⟨y, rfl⟩, hj, hleft⟩ hmem
    have hle : Submodule.span (ZMod 2) ((m.toMatrix r c).col '' Set.Iio j) ≤
        LinearMap.ker (dotProductEquiv (ZMod 2) (Fin r) y) := by
      refine Submodule.span_le.mpr ?_
      rintro _ ⟨i, hi, rfl⟩
      exact hleft i hi
    exact hj (hle hmem)
  · intro hnot
    obtain ⟨f, hf, hle⟩ := Submodule.exists_le_ker_of_notMem hnot
    -- a linear function on the columns is an inner product with some `y`
    obtain ⟨y, rfl⟩ := (dotProductEquiv (ZMod 2) (Fin r)).surjective f
    exact ⟨_, ⟨y, rfl⟩, hf, fun i hi => hle (Submodule.subset_span ⟨i, hi, rfl⟩)⟩

/-- A column is a sum of columns to its left exactly if it does not lead the row space. -/
theorem isSumOf_column_iff (h : m.HasShape r c) (j : Fin c) :
    BitVector.IsSumOf r ((List.range j).map m.column) (m.column j) ↔
      ¬ Leads (rowSpace c m.rows) j := by
  have hlength : ∀ w ∈ (List.range j).map m.column, w.length = r := by
    intro w hw
    obtain ⟨i, -, rfl⟩ := List.mem_map.mp hw
    exact h.length_column i
  have hspan : rowSpace r ((List.range j).map m.column) =
      Submodule.span (ZMod 2) ((m.toMatrix r c).col '' Set.Iio j) := by
    refine congrArg _ (Set.ext fun x => ⟨?_, ?_⟩)
    · rintro ⟨_, hw, rfl⟩
      obtain ⟨i, hi, rfl⟩ := List.mem_map.mp hw
      have hij : i < j := List.mem_range.mp hi
      exact ⟨⟨i, hij.trans j.isLt⟩, hij, (m.toVec_column ⟨i, hij.trans j.isLt⟩).symm⟩
    · rintro ⟨i, hi, rfl⟩
      exact ⟨_, List.mem_map_of_mem (List.mem_range.mpr hi), m.toVec_column i⟩
  rw [BitVector.isSumOf_iff hlength, hspan, leads_rowSpace_iff h, not_not, toVec_column]
  exact and_iff_right (h.length_column j)

/-! ### Reduced matrices -/

/-- The matrix is in reduced row echelon form, and the profile lists the columns of its pivots. -/
structure IsEchelonForm (m : BitMatrix) (profile : List ℕ) : Prop where
  /-- The columns of the pivots increase. -/
  increasing : profile.Pairwise (· < ·)
  /-- The first bit set in a row with a pivot is the pivot. -/
  leading : ∀ k c : ℕ, profile[k]? = some c →
    m.entry k c = true ∧ ∀ j < c, m.entry k j = false
  /-- In the column of a pivot no other bit is set. -/
  unit : ∀ k c : ℕ, profile[k]? = some c → ∀ i ≠ k, m.entry i c = false
  /-- The rows without a pivot are zero. -/
  rest : ∀ i, profile.length ≤ i → ∀ j, m.entry i j = false

/-- A sweep over all columns leads to a reduced matrix. -/
theorem isEchelonForm_of_reached {start : List BitVector} (h : m.HasShape r c)
    (hr : Sweep.Reached start c c ⟨m.rows, profile⟩) : m.IsEchelonForm profile where
  increasing := hr.increasing
  leading k c' hk := by
    have hkr : k < r :=
      h.rowCount ▸ (List.getElem?_eq_some_iff.mp hk).1.trans_le hr.room
    obtain ⟨row, hrow⟩ := h.exists_row hkr
    simp only [entry_eq_bit hrow]
    refine ⟨?_, hr.leading k c' hk row hrow⟩
    rw [hr.unit k c' hk k row hrow, decide_eq_true rfl]
  unit k c' hk i hik := by
    cases hi : m.rows[i]? with
    | none => rw [entry, hi]; rfl
    | some row => rw [entry_eq_bit hi, hr.unit k c' hk i row hi, decide_eq_false hik]
  rest i hi j := by
    rcases Nat.lt_or_ge j c with hj | hj
    · cases hrow : m.rows[i]? with
      | none => rw [entry, hrow]; rfl
      | some row => rw [entry_eq_bit hrow, hr.rest i row hi hrow j hj]
    · exact h.entry_eq_false hj

namespace IsEchelonForm

/-- A pivot stands in a column of the matrix. -/
theorem lt_columns (he : m.IsEchelonForm profile) (h : m.HasShape r c) {j : ℕ}
    (hj : j ∈ profile) : j < c := by
  obtain ⟨k, hk⟩ := List.mem_iff_getElem?.mp hj
  by_contra hle
  have hset := (he.leading k j hk).1
  rw [h.entry_eq_false (Nat.le_of_not_lt hle)] at hset
  cases hset

/-- There are no more pivots than rows. -/
theorem length_le_rows (he : m.IsEchelonForm profile) (h : m.HasShape r c) :
    profile.length ≤ r := by
  by_contra hlt
  have hr : r < profile.length := Nat.lt_of_not_le hlt
  have hset := (he.leading r _ (List.getElem?_eq_getElem hr)).1
  rw [entry, List.getElem?_eq_none h.rowCount.le] at hset
  cases hset

/-- The column of pivot `k`. -/
def pivot (he : m.IsEchelonForm profile) (h : m.HasShape r c) (k : Fin profile.length) : Fin c :=
  ⟨profile[k], he.lt_columns h (List.getElem_mem k.isLt)⟩

/-- The row of pivot `k`. -/
def pivotRow (he : m.IsEchelonForm profile) (h : m.HasShape r c) (k : Fin profile.length) :
    Fin c → ZMod 2 :=
  (m.toMatrix r c).row ⟨k, k.isLt.trans_le (he.length_le_rows h)⟩

variable (he : m.IsEchelonForm profile) (h : m.HasShape r c)
include he h

/-- A pivot column has one bit set, in the row of its pivot. -/
theorem entry_pivot (i : ℕ) (k : Fin profile.length) :
    m.entry i (he.pivot h k) = decide (i = k) := by
  have hk : profile[(k : ℕ)]? = some (he.pivot h k : ℕ) := List.getElem?_eq_getElem k.isLt
  by_cases hik : i = k
  · rw [hik, (he.leading k _ hk).1, decide_eq_true rfl]
  · rw [he.unit k _ hk i hik, decide_eq_false hik]

/-- A row with a pivot is in the row space. -/
theorem pivotRow_mem (k : Fin profile.length) : he.pivotRow h k ∈ rowSpace c m.rows := by
  obtain ⟨row, hrow⟩ := h.exists_row (k.isLt.trans_le (he.length_le_rows h))
  rw [pivotRow, row_toMatrix hrow]
  exact toVec_mem_rowSpace hrow

theorem pivotRow_apply (k : Fin profile.length) (j : Fin c) :
    he.pivotRow h k j = bitValue (m.entry k j) := rfl

/-- Of the rows with pivots, each has its own pivot set and no other. -/
theorem pivotRow_pivot (k l : Fin profile.length) :
    he.pivotRow h k (he.pivot h l) = if k = l then 1 else 0 := by
  rw [he.pivotRow_apply h, he.entry_pivot h]
  simp [bitValue, Fin.ext_iff]

/-- **A vector of the row space** is the sum of the pivot rows at whose pivots it is nonzero. -/
theorem eq_sum_pivotRow {x : Fin c → ZMod 2} (hx : x ∈ rowSpace c m.rows) :
    x = ∑ k, x (he.pivot h k) • he.pivotRow h k := by
  have hle : rowSpace c m.rows ≤ LinearMap.eqLocus LinearMap.id
      (∑ k, (LinearMap.proj (he.pivot h k)).smulRight (he.pivotRow h k)) := by
    refine rowSpace_le fun i row hi => ?_
    have hentry : ∀ k, row.toVec c (he.pivot h k) = if i = k then 1 else 0 := by
      intro k
      rw [BitVector.toVec, ← entry_eq_bit hi, he.entry_pivot h]
      simp [bitValue]
    rw [LinearMap.mem_eqLocus, LinearMap.id_apply, LinearMap.sum_apply]
    simp only [LinearMap.smulRight_apply, LinearMap.proj_apply, hentry]
    rcases Nat.lt_or_ge i profile.length with hlt | hge
    · rw [Finset.sum_eq_single ⟨i, hlt⟩ (fun k _ hk => ?_)
        (fun hno => absurd (Finset.mem_univ _) hno)]
      · rw [if_pos rfl, one_smul, pivotRow, row_toMatrix hi]
      · rw [if_neg fun heq => hk (Fin.ext heq.symm), zero_smul]
    · rw [Finset.sum_eq_zero fun k _ => by rw [if_neg (by omega), zero_smul]]
      funext j
      rw [BitVector.toVec, ← entry_eq_bit hi, he.rest i hge, bitValue_false, Pi.zero_apply]
  have hmem := hle hx
  rw [LinearMap.mem_eqLocus, LinearMap.id_apply, LinearMap.sum_apply] at hmem
  exact hmem

/-- A vector of the row space that vanishes at the pivots is zero. -/
theorem eq_of_pivots {x y : Fin c → ZMod 2} (hx : x ∈ rowSpace c m.rows)
    (hy : y ∈ rowSpace c m.rows) (hxy : ∀ k, x (he.pivot h k) = y (he.pivot h k)) : x = y := by
  rw [he.eq_sum_pivotRow h hx, he.eq_sum_pivotRow h hy]
  simp only [hxy]

/-- **The columns with a pivot** are those that lead the row space. -/
theorem leads_iff (j : Fin c) : Leads (rowSpace c m.rows) j ↔ (j : ℕ) ∈ profile := by
  constructor
  · rintro ⟨x, hx, hj, hleft⟩
    by_contra hno
    refine hj ?_
    rw [he.eq_sum_pivotRow h hx, Finset.sum_apply]
    refine Finset.sum_eq_zero fun k _ => ?_
    rw [Pi.smul_apply, smul_eq_mul]
    -- left of the column the vector vanishes at the pivot, right of it the pivot row at the column
    rcases lt_trichotomy (he.pivot h k) j with hlt | heq | hgt
    · rw [hleft _ hlt, zero_mul]
    · exact absurd (heq ▸ List.getElem_mem k.isLt) hno
    · have hzero : m.entry k j = false :=
        (he.leading k _ (List.getElem?_eq_getElem k.isLt)).2 j hgt
      rw [he.pivotRow_apply h, hzero, bitValue_false, mul_zero]
  · intro hj
    obtain ⟨k, hk⟩ := List.mem_iff_getElem?.mp hj
    have hlt : k < profile.length := (List.getElem?_eq_some_iff.mp hk).1
    obtain ⟨hset, hleft⟩ := he.leading k j hk
    refine ⟨_, he.pivotRow_mem h ⟨k, hlt⟩, ?_, fun i hi => ?_⟩
    · rw [he.pivotRow_apply h, hset]
      decide
    · rw [he.pivotRow_apply h, hleft i hi, bitValue_false]

/-- **The number of pivots** is the dimension of the row space. -/
theorem finrank_eq : Module.finrank (ZMod 2) (rowSpace c m.rows) = profile.length := by
  -- a vector of the row space is determined by its entries at the pivots, and these are arbitrary
  let values : rowSpace c m.rows →ₗ[ZMod 2] (Fin profile.length → ZMod 2) :=
    (LinearMap.funLeft (ZMod 2) (ZMod 2) (he.pivot h)) ∘ₗ (rowSpace c m.rows).subtype
  have hinjective : Function.Injective values := fun x y hxy =>
    Subtype.ext (he.eq_of_pivots h x.2 y.2 (congrFun hxy))
  have hsurjective : Function.Surjective values := by
    intro y
    refine ⟨⟨∑ k, y k • he.pivotRow h k,
      sum_mem fun k _ => Submodule.smul_mem _ _ (he.pivotRow_mem h k)⟩, funext fun l => ?_⟩
    show (∑ k, y k • he.pivotRow h k) (he.pivot h l) = y l
    simp [he.pivotRow_pivot h]
  rw [(LinearEquiv.ofBijective values ⟨hinjective, hsurjective⟩).finrank_eq, Module.finrank_fin_fun]

end IsEchelonForm

/-- **The row space determines** a reduced matrix and its profile. -/
theorem IsEchelonForm.unique (hea : a.IsEchelonForm p) (heb : b.IsEchelonForm q)
    (ha : a.HasShape r c) (hb : b.HasShape r c)
    (h : rowSpace c a.rows = rowSpace c b.rows) : a = b ∧ p = q := by
  have hpq : p = q := by
    refine hea.increasing.eq_of_mem_iff heb.increasing fun j => ⟨fun hj => ?_, fun hj => ?_⟩
    · have hjc := hea.lt_columns ha hj
      exact (heb.leads_iff hb ⟨j, hjc⟩).mp (h ▸ (hea.leads_iff ha ⟨j, hjc⟩).mpr hj)
    · have hjc := heb.lt_columns hb hj
      exact (hea.leads_iff ha ⟨j, hjc⟩).mp (h ▸ (heb.leads_iff hb ⟨j, hjc⟩).mpr hj)
  subst hpq
  refine ⟨ext_entry ha hb fun i hi j hj => ?_, rfl⟩
  rcases Nat.lt_or_ge i p.length with hlt | hge
  · -- the pivot rows have the same entries at the pivots
    have hrow : hea.pivotRow ha ⟨i, hlt⟩ = heb.pivotRow hb ⟨i, hlt⟩ :=
      hea.eq_of_pivots ha (hea.pivotRow_mem ha _) (h ▸ heb.pivotRow_mem hb _) fun k =>
        (hea.pivotRow_pivot ha _ k).trans (heb.pivotRow_pivot hb _ k).symm
    exact bitValue_injective (congrFun hrow ⟨j, hj⟩)
  · rw [hea.rest i hge, heb.rest i hge]

/-! ### The outcome of a sweep -/

/-- A sweep over the columns of a matrix reduces it and keeps the row space. -/
theorem exists_reduced (h : m.HasShape r c) :
    ∃ reduced profile, m.echelonize? = some (reduced, profile) ∧ reduced.HasShape r c ∧
      reduced.IsEchelonForm profile ∧ rowSpace c reduced.rows = rowSpace c m.rows := by
  obtain ⟨reduced, profile, hech, hshape, hr⟩ := exists_echelonize? h
  exact ⟨reduced, profile, hech, hshape, isEchelonForm_of_reached hshape hr, hr.space⟩

/-- **What a sweep achieves.** It does not fail, keeps the shape and the sums of the rows, and
leaves a matrix in reduced row echelon form. A column gets a pivot exactly if it is not a sum of
columns to its left in the given matrix. -/
theorem echelonize_reduces (h : m.HasShape r c) :
    ∃ reduced profile, m.echelonize? = some (reduced, profile) ∧ reduced.HasShape r c ∧
      reduced.rowSums = m.rowSums ∧ reduced.IsEchelonForm profile ∧
      ∀ j, j ∈ profile ↔
        j < c ∧ ¬ BitVector.IsSumOf r ((List.range j).map m.column) (m.column j) := by
  obtain ⟨reduced, profile, hech, hshape, hform, hspace⟩ := exists_reduced h
  refine ⟨reduced, profile, hech, hshape, (rowSums_eq_iff hshape h).mpr hspace, hform, fun j => ?_⟩
  have hpivot : ∀ hj : j < c, j ∈ profile ↔
      ¬ BitVector.IsSumOf r ((List.range j).map m.column) (m.column j) := by
    intro hj
    rw [isSumOf_column_iff h ⟨j, hj⟩, not_not, ← hspace]
    exact (hform.leads_iff hshape ⟨j, hj⟩).symm
  constructor
  · intro hmem
    have hj := hform.lt_columns hshape hmem
    exact ⟨hj, (hpivot hj).mp hmem⟩
  · rintro ⟨hj, hnot⟩
    exact (hpivot hj).mpr hnot

/-- A matrix with an empty first column. -/
def sample : BitMatrix :=
  ⟨3, [.ofList [false, true, true], .ofList [false, false, true], .ofList [false, true, false]]⟩

/-- The matrix in reduced row echelon form with the same sums of rows. -/
def reducedSample : BitMatrix :=
  ⟨3, [.ofList [false, true, false], .ofList [false, false, true], .ofList [false, false, false]]⟩

/-- The sweep skips the empty column and leaves a row of zeros. -/
theorem echelonize_reduces_of_sample :
    sample.HasShape 3 3 ∧ sample.echelonize? = some (reducedSample, [1, 2]) ∧
      reducedSample.rowSums = sample.rowSums ∧ reducedSample.IsEchelonForm [1, 2] ∧
      ∀ j, j ∈ [1, 2] ↔
        j < 3 ∧ ¬ BitVector.IsSumOf 3 ((List.range j).map sample.column) (sample.column j) := by
  have hshape : sample.HasShape 3 3 := ⟨rfl, rfl, by decide⟩
  have hreduced : sample.echelonize? = some (reducedSample, [1, 2]) := by rfl
  obtain ⟨reduced, profile, hech, -, hsums, hform, hcolumns⟩ := echelonize_reduces hshape
  obtain ⟨rfl, rfl⟩ := Prod.mk.inj (Option.some.inj (hreduced.symm.trans hech))
  exact ⟨hshape, hech, hsums, hform, hcolumns⟩

/-- Matrices with the same row space are reduced to the same matrix. -/
theorem echelonize?_congr (ha : a.HasShape r c) (hb : b.HasShape r c)
    (h : rowSpace c a.rows = rowSpace c b.rows) : a.echelonize? = b.echelonize? := by
  obtain ⟨a', p, hae, hashape, haform, haspace⟩ := exists_reduced ha
  obtain ⟨b', q, hbe, hbshape, hbform, hbspace⟩ := exists_reduced hb
  obtain ⟨rfl, rfl⟩ :=
    haform.unique hbform hashape hbshape (haspace.trans (h.trans hbspace.symm))
  rw [hae, hbe]

/-- Rows can be exchanged. -/
theorem exists_swapRows? (h : m.HasShape r c) {i j : ℕ} (hi : i < r) (hj : j < r) :
    ∃ s, m.swapRows? i j = some s ∧ s.HasShape r c ∧ rowSpace c s.rows = rowSpace c m.rows := by
  have hi' : i < m.rows.length := h.rowCount.symm ▸ hi
  have hj' : j < m.rows.length := h.rowCount.symm ▸ hj
  obtain ⟨swapped, hswap, hlength, hget⟩ := Sweep.exists_exchange? hi' hj'
  refine ⟨{ m with rows := swapped }, ?_, ⟨hlength.trans h.rowCount, h.columns, ?_⟩,
    Sweep.rowSpace_exchange hget⟩
  · rw [swapRows?, hswap]
    rfl
  · intro row hrow
    obtain ⟨t, ht⟩ := List.mem_iff_getElem?.mp hrow
    exact h.rectangular row (List.mem_of_getElem? ((hget t).symm.trans ht))

/-- Adding a row into another one does not change the row space. -/
theorem rowSpace_of_addRow? {n source target : ℕ} {s : BitMatrix}
    (h : m.addRow? source target = some s) : rowSpace n s.rows = rowSpace n m.rows := by
  obtain ⟨_, hguard, h⟩ := Option.bind_eq_some_iff.mp h
  obtain ⟨added, hadded, h⟩ := Option.bind_eq_some_iff.mp h
  obtain ⟨old, hold, h⟩ := Option.bind_eq_some_iff.mp h
  obtain ⟨sum, hsum, h⟩ := Option.bind_eq_some_iff.mp h
  obtain rfl := Option.some.inj h
  have hne : source ≠ target := (Option.guard_eq_some' _).mp hguard
  refine rowSpace_eq_of_multiples (List.length_set ..) hadded ?_ fun i row row' hi hi' => ?_
  · rw [List.getElem?_set_ne hne.symm, hadded]
  · by_cases hit : target = i
    · subst hit
      rw [List.getElem?_set_self (List.getElem?_eq_some_iff.mp hold).1] at hi'
      obtain rfl := Option.some.inj hi'
      obtain rfl := Option.some.inj (hold.symm.trans hi)
      exact ⟨1, by rw [BitVector.toVec_of_xor? n hsum, one_smul]⟩
    · rw [List.getElem?_set_ne hit] at hi'
      obtain rfl := Option.some.inj (hi.symm.trans hi')
      exact ⟨0, by rw [zero_smul, add_zero]⟩

/-- **The reduced matrix is canonical.** Matrices of the same shape are reduced to the same one
exactly if their rows have the same sums, and then with the same profile. A reduced matrix is not
changed by another sweep, and the order of the rows and sums of two of them make no difference. -/
theorem echelonize_canonical (ha : a.HasShape r c) (hb : b.HasShape r c) :
    ∃ a' p b' q, a.echelonize? = some (a', p) ∧ b.echelonize? = some (b', q) ∧
      (a.rowSums = b.rowSums ↔ a' = b') ∧ (a' = b' → p = q) ∧
      a'.echelonize? = some (a', p) ∧
      (∀ rows : List BitVector, rows.Perm a.rows →
        echelonize? ⟨a.columns, rows⟩ = some (a', p)) ∧
      (∀ i < r, ∀ j < r, ∃ s, a.swapRows? i j = some s ∧ s.echelonize? = some (a', p)) ∧
      ∀ i < r, ∀ j < r, i ≠ j → ∃ s, a.addRow? i j = some s ∧ s.echelonize? = some (a', p) := by
  obtain ⟨a', p, hae, hashape, haform, haspace⟩ := exists_reduced ha
  obtain ⟨b', q, hbe, hbshape, hbform, hbspace⟩ := exists_reduced hb
  have hcongr : ∀ s : BitMatrix, s.HasShape r c → rowSpace c s.rows = rowSpace c a.rows →
      s.echelonize? = some (a', p) :=
    fun s hs hspace => (echelonize?_congr hs ha hspace).trans hae
  refine ⟨a', p, b', q, hae, hbe, ⟨fun hsums => ?_, fun heq => ?_⟩, fun heq => ?_,
    hcongr a' hashape haspace, fun rows hperm => ?_, fun i hi j hj => ?_, fun i hi j hj hij => ?_⟩
  · have hsame := echelonize?_congr ha hb ((rowSums_eq_iff ha hb).mp hsums)
    exact (Prod.mk.inj (Option.some.inj (hae.symm.trans (hsame.trans hbe)))).1
  · rw [rowSums_eq_iff ha hb, ← haspace, ← hbspace, heq]
  · subst heq
    exact (haform.unique hbform hashape hbshape rfl).2
  · refine hcongr _ ⟨hperm.length_eq.trans ha.rowCount, ha.columns, fun row hrow => ?_⟩
      (rowSpace_of_perm hperm)
    exact ha.rectangular row (hperm.subset hrow)
  · obtain ⟨s, hs, hshape, hspace⟩ := exists_swapRows? ha hi hj
    exact ⟨s, hs, hcongr s hshape hspace⟩
  · obtain ⟨s, hs, hshape, -⟩ := exists_addRow? ha hi hj hij
    exact ⟨s, hs, hcongr s hshape (rowSpace_of_addRow? hs)⟩

/-- Two matrices that are reduced to the same one have the same sums of rows. -/
theorem echelonize_canonical_of_sample :
    sample.HasShape 3 3 ∧ reducedSample.HasShape 3 3 ∧ sample.rowSums = reducedSample.rowSums := by
  have hsample : sample.HasShape 3 3 := ⟨rfl, rfl, by decide⟩
  have hreduced : reducedSample.HasShape 3 3 := ⟨rfl, rfl, by decide⟩
  obtain ⟨a', p, b', q, ha, hb, hiff, -⟩ := echelonize_canonical hsample hreduced
  have hsame : sample.echelonize? = reducedSample.echelonize? := by rfl
  refine ⟨hsample, hreduced, hiff.mpr ?_⟩
  exact (Prod.mk.inj (Option.some.inj (ha.symm.trans (hsame.trans hb)))).1

end BitMatrix

end AffinePhase
