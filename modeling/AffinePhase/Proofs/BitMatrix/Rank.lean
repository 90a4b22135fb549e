import AffinePhase.Proofs.BitMatrix.Block
import AffinePhase.Proofs.BitMatrix.Echelon
import AffinePhase.Proofs.BitMatrix.Inverse

/-!
# The rank

The number of pivots that a sweep finds is the greatest number of independent rows. It is the rank
of the matrix over the field with two elements, and so obeys the laws of ranks: a matrix and its
transpose have the same one, a product has at most that of each factor, and a block sum has the sum
of those of the blocks. Each law relates sweeps over different matrices.

## Main results

* `BitMatrix.rank?_eq`: the rank is found, and it is that of linear algebra.
* `BitMatrix.rank?_blockSum?`: the rank of a block sum of a list.
* `BitMatrix.rank_counts_independent_rows`: the rank by independent rows, and its laws.
-/

namespace AffinePhase

/-- The dimension of a product of subspaces. -/
theorem finrank_submodule_prod {V W : Type*} [AddCommGroup V] [Module (ZMod 2) V]
    [AddCommGroup W] [Module (ZMod 2) W] [Module.Finite (ZMod 2) V] [Module.Finite (ZMod 2) W]
    (p : Submodule (ZMod 2) V) (q : Submodule (ZMod 2) W) :
    Module.finrank (ZMod 2) (p.prod q) =
      Module.finrank (ZMod 2) p + Module.finrank (ZMod 2) q := by
  let halves : p.prod q ≃ₗ[ZMod 2] p × q :=
    { toFun := fun x => (⟨x.1.1, x.2.1⟩, ⟨x.1.2, x.2.2⟩)
      invFun := fun x => ⟨(x.1, x.2), x.1.2, x.2.2⟩
      map_add' := fun _ _ => rfl
      map_smul' := fun _ _ => rfl
      left_inv := fun _ => rfl
      right_inv := fun _ => rfl }
  rw [halves.finrank_eq, Module.finrank_prod]

/-- The rank of a block-diagonal matrix is the sum of the ranks of the blocks. -/
theorem rank_fromBlocks_diagonal {r r' c c' : ℕ} (a : Matrix (Fin r) (Fin c) (ZMod 2))
    (b : Matrix (Fin r') (Fin c') (ZMod 2)) :
    (Matrix.fromBlocks a 0 0 b).rank = a.rank + b.rank := by
  let split (k k' : ℕ) := LinearEquiv.sumArrowLequivProdArrow (Fin k) (Fin k') (ZMod 2) (ZMod 2)
  have hmap : (Matrix.fromBlocks a 0 0 b).mulVecLin =
      (split r r').symm ∘ₗ (a.mulVecLin.prodMap b.mulVecLin) ∘ₗ (split c c') := by
    refine LinearMap.ext fun x => ?_
    rw [Matrix.mulVecLin_apply, Matrix.fromBlocks_mulVec, Matrix.zero_mulVec, Matrix.zero_mulVec,
      add_zero, zero_add]
    rfl
  rw [Matrix.rank, hmap, LinearMap.range_comp, LinearEquiv.finrank_map_eq,
    LinearMap.range_comp_of_range_eq_top _ (LinearEquiv.range _), LinearMap.range_prodMap,
    finrank_submodule_prod, Matrix.rank, Matrix.rank]

namespace BitMatrix

variable {a b m s : BitMatrix} {r c r' c' k n : ℕ}

/-- **The rank** of a matrix is found, and it is that of linear algebra. -/
theorem rank?_eq (h : m.HasShape r c) : m.rank? = some (m.toMatrix r c).rank := by
  obtain ⟨reduced, profile, hech, hshape, hform, hspace⟩ := exists_reduced h
  have hrank : (m.toMatrix r c).rank = profile.length := by
    rw [Matrix.rank_eq_finrank_span_row, ← range_vecMulLinear, ← h.rowSpace_eq_range, ← hspace,
      hform.finrank_eq hshape]
  rw [rank?, hech, hrank]
  rfl

/-- The rank of a block sum of two matrices. -/
theorem rank?_blockSum?_pair (ha : a.HasShape r c) (hb : b.HasShape r' c')
    (hs : blockSum? [a, b] = some s) :
    s.rank? = some ((a.toMatrix r c).rank + (b.toMatrix r' c').rank) := by
  obtain ⟨hshape, -⟩ := Result.of_exists_some (exists_blockSum? ha hb) hs
  rw [rank?_eq hshape, toMatrix_blockSum? ha hb hs, Matrix.rank_reindex, rank_fromBlocks_diagonal]

/-- **The rank of a block sum** is the sum of the ranks of the blocks. -/
theorem rank?_blockSum? {ms : List BitMatrix} (h : ∀ m ∈ ms, m.IsRectangular)
    (hs : blockSum? ms = some s) : ∃ ks, ms.mapM rank? = some ks ∧ s.rank? = some ks.sum := by
  induction ms generalizing s with
  | nil =>
      obtain rfl := Option.some.inj hs
      exact ⟨[], rfl, rfl⟩
  | cons a ms ih =>
      obtain ⟨ha, hms⟩ := List.forall_mem_cons.mp h
      obtain ⟨rest, hrest, hshape⟩ := exists_blockSum?_list hms
      obtain ⟨ks, hks, hrank⟩ := ih hms hrest
      have harank := rank?_eq ha.hasShape
      rw [rank?_eq hshape] at hrank
      rw [blockSum?_cons hrest] at hs
      have hranks : (a :: ms).mapM rank? =
          some ((a.toMatrix a.rows.length a.columns).rank :: ks) := by
        rw [List.mapM_cons, harank, hks]
        rfl
      refine ⟨_, hranks, ?_⟩
      rw [rank?_blockSum?_pair ha.hasShape hshape hs, Option.some.inj hrank, List.sum_cons]

/-- **The rank** is the greatest number of independent rows. The transpose has the same rank, and it
is at most the number of rows and of columns. A product has at most the rank of each factor, and
that of one factor if the other one is invertible. A block sum has the sum of the ranks of its
blocks. -/
theorem rank_counts_independent_rows :
    (∀ (m : BitMatrix) (r c : ℕ), m.HasShape r c → ∃ k, m.rank? = some k ∧
      IsGreatest {k | ∃ rows, rows.Sublist m.rows ∧ BitVector.IsIndependent c rows ∧
        rows.length = k} k ∧
      (∃ t, m.transpose? = some t ∧ t.rank? = some k) ∧ k ≤ min r c) ∧
    (∀ (a b : BitMatrix) (r n c : ℕ), a.HasShape r n → b.HasShape n c → ∃ p k k' l,
      a.mul? b = some p ∧ a.rank? = some k ∧ b.rank? = some k' ∧ p.rank? = some l ∧
      l ≤ min k k' ∧ (a.isInvertible? = some true → l = k') ∧
      (b.isInvertible? = some true → l = k)) ∧
    ∀ ms : List BitMatrix, (∀ m ∈ ms, m.IsRectangular) → ∃ s ks, blockSum? ms = some s ∧
      ms.mapM rank? = some ks ∧ s.rank? = some ks.sum := by
  refine ⟨fun m r c h => ?_, fun a b r n c ha hb => ?_, fun ms hms => ?_⟩
  · obtain ⟨t, ht, htshape, htmatrix⟩ := exists_transpose? h
    refine ⟨_, rank?_eq h, ?_, ⟨t, ht, ?_⟩,
      le_min (Matrix.rank_le_height _) (Matrix.rank_le_width _)⟩
    · rw [Matrix.rank_eq_finrank_span_row, ← range_vecMulLinear, ← h.rowSpace_eq_range]
      exact BitVector.isGreatest_independent fun row hrow => h.length_of_mem hrow
    · rw [rank?_eq htshape, htmatrix, Matrix.rank_transpose]
  · obtain ⟨p, hp, hpshape, hpmatrix⟩ := exists_mul? ha hb
    refine ⟨p, _, _, _, hp, rank?_eq ha, rank?_eq hb, rank?_eq hpshape, ?_, fun hinv => ?_,
      fun hinv => ?_⟩
    · rw [hpmatrix]
      exact Matrix.rank_mul_le _ _
    · obtain ⟨rfl, hunit⟩ := isUnit_of_isInvertible? ha hinv
      rw [hpmatrix, Matrix.rank_mul_eq_right_of_isUnit_det _ _
        ((Matrix.isUnit_iff_isUnit_det _).mp hunit)]
    · obtain ⟨rfl, hunit⟩ := isUnit_of_isInvertible? hb hinv
      rw [hpmatrix, Matrix.rank_mul_eq_left_of_isUnit_det _ _
        ((Matrix.isUnit_iff_isUnit_det _).mp hunit)]
  · obtain ⟨s, hs, -⟩ := exists_blockSum?_list hms
    obtain ⟨ks, hks, hrank⟩ := rank?_blockSum? hms hs
    exact ⟨s, ks, hs, hks, hrank⟩

/-- A matrix with a column of zeros and dependent rows, alone, in a product with an invertible
matrix and in a block sum. -/
theorem rank_counts_independent_rows_of_sample :
    sample.HasShape 3 3 ∧
      IsGreatest {k | ∃ rows, rows.Sublist sample.rows ∧ BitVector.IsIndependent 3 rows ∧
        rows.length = k} 2 ∧
      (∃ t, sample.transpose? = some t ∧ t.rank? = some 2) ∧
      (∃ p, sample.mul? (identity 3) = some p ∧ p.rank? = some 2) ∧
      ∃ s, blockSum? [sample, identity 3] = some s ∧ s.rank? = some 5 := by
  have hsample : sample.HasShape 3 3 := ⟨rfl, rfl, by decide⟩
  have hrank : sample.rank? = some 2 := by rfl
  have hpasses : (identity 3).isInvertible? = some true := by rfl
  have hrect : ∀ m ∈ [sample, identity 3], m.IsRectangular := by decide
  obtain ⟨halone, hproduct, hsum⟩ := rank_counts_independent_rows
  obtain ⟨k, hk, hgreatest, htranspose, -⟩ := halone sample 3 3 hsample
  obtain rfl := Option.some.inj (hrank.symm.trans hk)
  obtain ⟨p, k, -, l, hp, hk', -, hl, -, -, hkeeps⟩ :=
    hproduct sample (identity 3) 3 3 3 hsample (hasShape_identity 3)
  obtain rfl := Option.some.inj (hrank.symm.trans hk')
  obtain ⟨s, ks, hs, hks, htotal⟩ := hsum [sample, identity 3] hrect
  have hranks : [sample, identity 3].mapM rank? = some [2, 3] := by rfl
  obtain rfl := Option.some.inj (hranks.symm.trans hks)
  exact ⟨hsample, hgreatest, htranspose, ⟨p, hp, hkeeps hpasses ▸ hl⟩, s, hs, htotal⟩

end BitMatrix

end AffinePhase
