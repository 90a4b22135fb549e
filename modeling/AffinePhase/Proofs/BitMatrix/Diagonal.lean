import AffinePhase.Proofs.BitMatrix.Block
import AffinePhase.Proofs.BitVector.Packed
import AffinePhase.Storage

/-!
# Block-diagonal matrices of lists

The block sum of a list of matrices is computed in one pass: the rows of each matrix are placed at a
running offset, and the offset of the rows is not computed at all, since it is the number of rows
placed before. A matrix without rows still moves the columns of those after it, and one without
columns the rows.

All laws are shown of two matrices first. Since the block sum of a list is that of its first matrix
and the block sum of the others, they pass to lists by induction on the list.

## Main definitions

* `BitMatrix.offset`: where a matrix of the list begins.
* `BitMatrix.packedBlockRows?`: the words of a block sum, written bit by bit.

## Main results

* `BitMatrix.entry_blockSum?`: the entries of a block sum.
* `BitMatrix.blockSum?_append`: the block sum of a joined list.
* `BitMatrix.exists_mul?_blockSum?`: the product of block sums.
* `BitMatrix.blockSum_is_block_diagonal`: the laws.
-/

namespace AffinePhase.BitMatrix

variable {a b c m s t u : BitMatrix} {ms ns : List BitMatrix} {r r' k k' l l' : ℕ}

/-! ### Offsets -/

/-- Where matrix `p` of the list begins, with the rows or the columns of the matrices before it
counted. -/
def offset (size : BitMatrix → ℕ) (ms : List BitMatrix) (p : ℕ) : ℕ :=
  ((ms.take p).map size).sum

theorem offset_zero (size : BitMatrix → ℕ) (ms : List BitMatrix) : offset size ms 0 = 0 := rfl

/-- After the first block the others are shifted by its size. -/
theorem offset_succ (size : BitMatrix → ℕ) (m : BitMatrix) (ms : List BitMatrix) (p : ℕ) :
    offset size (m :: ms) (p + 1) = size m + offset size ms p := by
  simp [offset]

/-- A matrix of the list ends before the list does. -/
theorem offset_add_le (size : BitMatrix → ℕ) {p : ℕ} (h : ms[p]? = some a) :
    offset size ms p + size a ≤ (ms.map size).sum := by
  induction ms generalizing p with
  | nil => cases h
  | cons m ms ih =>
      rw [List.map_cons, List.sum_cons]
      cases p with
      | zero =>
          obtain rfl := Option.some.inj h
          rw [offset_zero]
          omega
      | succ p =>
          have := ih h
          rw [offset_succ]
          omega

/-! ### Entries -/

/-- **The entries of a block sum** are those of the blocks at their offsets, and zeros elsewhere. -/
theorem entry_blockSum? (h : ∀ m ∈ ms, m.IsRectangular) (hs : blockSum? ms = some s) {p q i j : ℕ}
    (hp : ms[p]? = some a) (hq : ms[q]? = some b) (hi : i < a.rowCount) (hj : j < b.columns) :
    s.entry (offset rowCount ms p + i) (offset columns ms q + j) =
      if p = q then a.entry i j else false := by
  induction ms generalizing s p q with
  | nil => cases hp
  | cons m ms ih =>
      obtain ⟨hm, hms⟩ := List.forall_mem_cons.mp h
      obtain ⟨rest, hrest, hshape⟩ := exists_blockSum?_list hms
      rw [blockSum?_cons hrest] at hs
      obtain ⟨-, hentry⟩ := Result.of_exists_some (exists_blockSum? hm.hasShape hshape) hs
      have hcount : m.rows.length = m.rowCount := rfl
      rw [hentry, hcount]
      rcases p with _ | p <;> rcases q with _ | q
      · obtain rfl := Option.some.inj hp
        simp [offset_zero, hi]
      · -- the columns of a later block are past those of the first
        obtain rfl := Option.some.inj hp
        have hpast : m.columns ≤ offset columns (m :: ms) (q + 1) + j := by
          rw [offset_succ]
          omega
        simp [offset_zero, hi, hm.hasShape.entry_eq_false hpast]
      · -- the rows of a later block have zeros in the columns of the first
        obtain rfl := Option.some.inj hq
        have hbelow : ¬ offset rowCount (m :: ms) (p + 1) + i < m.rowCount := by
          rw [offset_succ]
          omega
        simp [offset_zero, hbelow, hj.not_ge]
      · have hrow : m.rowCount + offset rowCount ms p + i - m.rowCount =
            offset rowCount ms p + i := by omega
        have hcolumn : m.columns + offset columns ms q + j - m.columns =
            offset columns ms q + j := by omega
        rw [offset_succ, offset_succ, hrow, hcolumn, ih hms hrest hp hq, if_neg (by omega),
          decide_eq_true (by omega), Bool.true_and]
        simp

/-! ### Joined lists -/

/-- An empty matrix beside another one changes nothing. -/
theorem blockSum?_empty (ha : a.HasShape r k) : blockSum? [⟨0, []⟩, a] = some a := by
  have hempty : HasShape ⟨0, []⟩ 0 0 := ⟨rfl, rfl, List.forall_mem_nil _⟩
  obtain ⟨s, hs, hshape, hentry⟩ := exists_blockSum? hempty ha
  rw [Nat.zero_add, Nat.zero_add] at hshape
  rw [hs]
  refine congrArg some (ext_entry hshape ha fun i _ j _ => ?_)
  simp [hentry]

/-- Three matrices can be put along a diagonal in both ways. -/
theorem blockSum?_assoc (ha : a.HasShape r k) (hb : b.HasShape r' k') (hc : c.HasShape l l')
    (hs : blockSum? [a, b] = some s) (ht : blockSum? [b, c] = some t) :
    blockSum? [s, c] = blockSum? [a, t] := by
  obtain ⟨hsshape, hsentry⟩ := Result.of_exists_some (exists_blockSum? ha hb) hs
  obtain ⟨htshape, htentry⟩ := Result.of_exists_some (exists_blockSum? hb hc) ht
  obtain ⟨x, hx, hxshape, hxentry⟩ := exists_blockSum? hsshape hc
  obtain ⟨y, hy, hyshape, hyentry⟩ := exists_blockSum? ha htshape
  rw [Nat.add_assoc, Nat.add_assoc] at hxshape
  rw [hx, hy]
  refine congrArg some (ext_entry hxshape hyshape fun i _ j _ => ?_)
  rw [hxentry, hyentry, hsentry, htentry, Nat.sub_sub, Nat.sub_sub]
  by_cases hfirst : i < r
  · simp [hfirst, show i < r + r' by omega]
  · by_cases hsecond : i < r + r'
    · simp [hfirst, hsecond, show i - r < r' by omega]
    · by_cases hj : k + k' ≤ j
      · simp [hfirst, hsecond, hj, show ¬ i - r < r' by omega, show k ≤ j by omega,
          show k' ≤ j - k by omega]
      · simp [hfirst, hsecond, hj, show ¬ i - r < r' by omega]
        omega

/-- **The block sum of a joined list** is that of the two block sums. -/
theorem blockSum?_append (hms : ∀ m ∈ ms, m.IsRectangular) (hns : ∀ m ∈ ns, m.IsRectangular)
    (hs : blockSum? ms = some s) (ht : blockSum? ns = some t) :
    blockSum? (ms ++ ns) = blockSum? [s, t] := by
  have htshape := Result.of_exists_some (exists_blockSum?_list hns) ht
  induction ms generalizing s with
  | nil =>
      obtain rfl := Option.some.inj hs
      exact ht.trans (blockSum?_empty htshape).symm
  | cons a ms ih =>
      obtain ⟨ha, hms⟩ := List.forall_mem_cons.mp hms
      obtain ⟨rest, hrest, hrshape⟩ := exists_blockSum?_list hms
      obtain ⟨u, hu, -⟩ := exists_blockSum? hrshape htshape
      have hjoined : blockSum? (ms ++ ns) = some u := (ih hms hrest).trans hu
      rw [blockSum?_cons hrest] at hs
      rw [List.cons_append, blockSum?_cons hjoined,
        blockSum?_assoc ha.hasShape hrshape htshape hs hu]

/-! ### Products -/

/-- Matrices along a diagonal are multiplied block by block. -/
theorem mul?_blockSum? {a' b' p p' : BitMatrix} (ha : a.HasShape r k) (hb : b.HasShape k l)
    (ha' : a'.HasShape r' k') (hb' : b'.HasShape k' l') (hp : a.mul? b = some p)
    (hp' : a'.mul? b' = some p') (hs : blockSum? [a, a'] = some s)
    (ht : blockSum? [b, b'] = some t) :
    s.mul? t = blockSum? [p, p'] := by
  obtain ⟨hpshape, hpmatrix⟩ := (mul?_eq_some_iff ha hb).mp hp
  obtain ⟨hpshape', hpmatrix'⟩ := (mul?_eq_some_iff ha' hb').mp hp'
  obtain ⟨hsshape, -⟩ := Result.of_exists_some (exists_blockSum? ha ha') hs
  obtain ⟨htshape, -⟩ := Result.of_exists_some (exists_blockSum? hb hb') ht
  obtain ⟨u, hu, hushape, -⟩ := exists_blockSum? hpshape hpshape'
  rw [hu]
  refine (mul?_eq_some_iff hsshape htshape).mpr ⟨hushape, ?_⟩
  rw [toMatrix_blockSum? hpshape hpshape' hu, toMatrix_blockSum? ha ha' hs,
    toMatrix_blockSum? hb hb' ht, Matrix.reindex_apply, Matrix.reindex_apply, Matrix.reindex_apply,
    Matrix.submatrix_mul_equiv, Matrix.fromBlocks_multiply, hpmatrix, hpmatrix']
  simp

/-- **The product of block sums** is the block sum of the products. -/
theorem exists_mul?_blockSum? {factors : List (BitMatrix × BitMatrix)}
    (h : ∀ x ∈ factors, x.1.IsRectangular ∧ x.2.IsRectangular ∧ x.1.columns = x.2.rowCount) :
    ∃ products s t u, factors.mapM (fun x => x.1.mul? x.2) = some products ∧
      blockSum? (factors.map Prod.fst) = some s ∧ blockSum? (factors.map Prod.snd) = some t ∧
      blockSum? products = some u ∧ s.mul? t = some u := by
  induction factors with
  | nil => exact ⟨[], _, _, _, rfl, rfl, rfl, rfl, rfl⟩
  | cons x factors ih =>
      obtain ⟨⟨ha, hb, hinner⟩, hfactors⟩ := List.forall_mem_cons.mp h
      obtain ⟨products, s, t, u, hproducts, hs, ht, hu, hmul⟩ := ih hfactors
      have hsshape := Result.of_exists_some
        (exists_blockSum?_list (List.forall_mem_map.mpr fun y hy => (hfactors y hy).1)) hs
      have htshape := Result.of_exists_some
        (exists_blockSum?_list (List.forall_mem_map.mpr fun y hy => (hfactors y hy).2.1)) ht
      -- the inner dimensions of the others fit, since their product succeeds
      have htshape : t.HasShape _ t.columns := ⟨(of_mul? hsshape hmul).1, rfl, htshape.rectangular⟩
      have hb : x.2.HasShape x.1.columns x.2.columns := ⟨hinner.symm, rfl, hb⟩
      obtain ⟨p, hp, hpshape, -⟩ := exists_mul? ha.hasShape hb
      have hushape := ((mul?_eq_some_iff hsshape htshape).mp hmul).1
      obtain ⟨left, hleft, -⟩ := exists_blockSum? ha.hasShape hsshape
      obtain ⟨right, hright, -⟩ := exists_blockSum? hb htshape
      obtain ⟨whole, hwhole, -⟩ := exists_blockSum? hpshape hushape
      refine ⟨p :: products, left, right, whole, ?_, ?_, ?_, ?_, ?_⟩
      · rw [List.mapM_cons, hp, hproducts]
        rfl
      · rw [List.map_cons, blockSum?_cons hs, hleft]
      · rw [List.map_cons, blockSum?_cons ht, hright]
      · rw [blockSum?_cons hu, hwhole]
      · rw [mul?_blockSum? ha.hasShape hb hsshape htshape hp hmul hleft hright, hwhole]

/-! ### Words and storage -/

/-- The words of the rows of matrices placed side by side, each row by setting its bits in a zero
vector. -/
def packedBlockRows? (total : ℕ) : ℕ → List BitMatrix → Option (List Packed)
  | _, [] => some []
  | offset, m :: ms => do
      let placed ← m.rows.mapM fun row => row.packed.place? offset total
      let rest ← packedBlockRows? total (offset + m.columns) ms
      some (placed ++ rest)

/-- Operations that one after the other give the words of vectors give the words of all of them. -/
theorem mapM_map_packed {f : BitVector → Option BitVector} {g : BitVector → Option Packed}
    (h : ∀ v, g v = (f v).map BitVector.packed) (vs : List BitVector) :
    vs.mapM g = (vs.mapM f).map (List.map BitVector.packed) := by
  induction vs with
  | nil => rfl
  | cons v vs ih =>
      rw [List.mapM_cons, List.mapM_cons, h, ih]
      cases f v <;> cases vs.mapM f <;> rfl

/-- **Setting the bits of the rows** gives the words of the block sum. -/
theorem packedBlockRows?_eq (total start : ℕ) (ms : List BitMatrix) :
    packedBlockRows? total start ms =
      (blockRows? total start ms).map (List.map BitVector.packed) := by
  induction ms generalizing start with
  | nil => rfl
  | cons m ms ih =>
      rw [packedBlockRows?, blockRows?, ih,
        mapM_map_packed (fun row => Packed.place?_eq row start total) m.rows]
      cases m.rows.mapM fun row => row.place? start total with
      | none => rfl
      | some placed =>
          cases blockRows? total (start + m.columns) ms with
          | none => rfl
          | some rest => exact congrArg some List.map_append.symm

/-- The packed rows of a block sum are formed as the block sum is. -/
theorem packedRows_blockSum? (hs : blockSum? ms = some s) :
    packedBlockRows? (ms.map columns).sum 0 ms = some (s.rows.map BitVector.packed) := by
  obtain ⟨rows, hrows, rfl⟩ := Option.map_eq_some_iff.mp hs
  rw [← List.sum_eq_foldr] at hrows
  rw [packedBlockRows?_eq, hrows]
  rfl

/-- A block sum is refused exactly if its columns cannot be numbered. -/
theorem storedBlockSum_eq (hs : blockSum? ms = some s) :
    storedBlockSum ms =
      if (ms.map columns).sum < 2 ^ 64 then .ok s else .error .brokenContract := by
  have hcolumns : Storage.columns ms =
      Result.require ((ms.map columns).sum < 2 ^ 64) .brokenContract := by
    rw [Storage.columns, List.sum_eq_foldr]
    rfl
  rw [storedBlockSum, hcolumns, hs, Result.require]
  split <;> rfl

/-- **Block sums are block diagonal.** The list may be empty, and the matrices may have any shapes.
The block sum has all their rows and columns; its entries are those of the matrices, each at its
offset, and zeros elsewhere. Setting the bits of the rows at a running offset gives its words, and
it is refused only if its columns cannot be numbered. The block sum of a joined list is that of the
two block sums, and the product of two block sums whose blocks fit is the block sum of the
products. -/
theorem blockSum_is_block_diagonal :
    (∀ ms : List BitMatrix, (∀ m ∈ ms, m.IsRectangular) → ∃ s, blockSum? ms = some s ∧
      s.HasShape (ms.map rowCount).sum (ms.map columns).sum ∧
      (∀ p q a b, ms[p]? = some a → ms[q]? = some b → ∀ i < a.rowCount, ∀ j < b.columns,
        s.get? (offset rowCount ms p + i) (offset columns ms q + j) =
          if p = q then a.get? i j else some false) ∧
      packedBlockRows? (ms.map columns).sum 0 ms = some (s.rows.map BitVector.packed) ∧
      storedBlockSum ms =
        if (ms.map columns).sum < 2 ^ 64 then .ok s else .error .brokenContract) ∧
    (∀ ms ns : List BitMatrix, (∀ m ∈ ms, m.IsRectangular) → (∀ m ∈ ns, m.IsRectangular) →
      ∃ s t u, blockSum? ms = some s ∧ blockSum? ns = some t ∧ blockSum? (ms ++ ns) = some u ∧
        blockSum? [s, t] = some u) ∧
    ∀ factors : List (BitMatrix × BitMatrix),
      (∀ x ∈ factors, x.1.IsRectangular ∧ x.2.IsRectangular ∧ x.1.columns = x.2.rowCount) →
      ∃ products s t u, factors.mapM (fun x => x.1.mul? x.2) = some products ∧
        blockSum? (factors.map Prod.fst) = some s ∧ blockSum? (factors.map Prod.snd) = some t ∧
        blockSum? products = some u ∧ s.mul? t = some u := by
  refine ⟨fun ms hms => ?_, fun ms ns hms hns => ?_, fun factors h => exists_mul?_blockSum? h⟩
  · obtain ⟨s, hs, hshape⟩ := exists_blockSum?_list hms
    refine ⟨s, hs, hshape, fun p q a b hp hq i hi j hj => ?_, packedRows_blockSum? hs,
      storedBlockSum_eq hs⟩
    have hrow := offset_add_le rowCount hp
    have hcolumn := offset_add_le columns hq
    rw [hshape.get?_eq (by omega) (by omega), entry_blockSum? hms hs hp hq hi hj]
    split
    · rename_i hpq
      obtain rfl := Option.some.inj (hp.symm.trans (hpq ▸ hq))
      exact ((hms a (List.mem_of_getElem? hp)).hasShape.get?_eq hi hj).symm
    · rfl
  · obtain ⟨s, hs, hsshape⟩ := exists_blockSum?_list hms
    obtain ⟨t, ht, htshape⟩ := exists_blockSum?_list hns
    obtain ⟨u, hu, -⟩ := exists_blockSum? hsshape htshape
    exact ⟨s, t, u, hs, ht, (blockSum?_append hms hns hs ht).trans hu, hu⟩

/-- A row, a matrix without rows, one without columns, and a single bit. -/
def blocksSample : List BitMatrix :=
  [⟨2, [.ofList [true, false]]⟩, ⟨1, []⟩, ⟨0, [.ofList []]⟩, identity 1]

/-- Blocks without rows or columns move those after them, and products of blocks may be empty. -/
theorem blockSum_is_block_diagonal_of_sample :
    (∀ m ∈ blocksSample, m.IsRectangular) ∧
      (∃ s, blockSum? blocksSample = some s ∧ s.HasShape 3 4 ∧ s.get? 2 3 = some true ∧
        s.get? 0 3 = some false) ∧
      (∃ s t u, blockSum? blocksSample = some s ∧ blockSum? [identity 2] = some t ∧
        blockSum? (blocksSample ++ [identity 2]) = some u ∧ blockSum? [s, t] = some u) ∧
      ∃ products s t u, [(zeros 2 0, zeros 0 3), (identity 1, identity 1)].mapM
          (fun x => x.1.mul? x.2) = some products ∧
        blockSum? [zeros 2 0, identity 1] = some s ∧ blockSum? [zeros 0 3, identity 1] = some t ∧
        blockSum? products = some u ∧ s.mul? t = some u := by
  have hblocks : ∀ m ∈ blocksSample, m.IsRectangular := by decide
  have hidentity : ∀ m ∈ [identity 2], m.IsRectangular := by decide
  obtain ⟨hsum, happend, hproduct⟩ := blockSum_is_block_diagonal
  obtain ⟨s, hs, hshape, hentry, -⟩ := hsum blocksSample hblocks
  have hlast := hentry 3 3 _ _ rfl rfl 0 (by decide) 0 (by decide)
  have hfirst := hentry 0 3 _ _ rfl rfl 0 (by decide) 0 (by decide)
  exact ⟨hblocks, ⟨s, hs, hshape, hlast, hfirst⟩, happend _ _ hblocks hidentity,
    hproduct [(zeros 2 0, zeros 0 3), (identity 1, identity 1)] (by decide)⟩

end AffinePhase.BitMatrix
