import AffinePhase.Proofs.BitMatrix.Elimination

/-!
# Sums of selected vectors

Over the field with two elements a linear combination of vectors is the sum of some of them, so that
the span of a list of vectors is the set of sums of its sublists. This module says so for packed
vectors, whose sums are formed by exclusive or, and ties the two notions that need no linear algebra
to state, the sums of selected vectors and the independence of a list, to the row space and its
dimension.

All inductions are on the list: its first vector is selected or not.

## Main definitions

* `BitVector.sum?`: the sum of a list of vectors.
* `BitVector.IsSumOf`: a vector is the sum of some vectors of a list.
* `BitVector.IsIndependent`: no sum of one or more vectors of a list is zero.
* `BitMatrix.rowSums`: the sums of selected rows of a matrix.

## Main results

* `BitVector.isSumOf_iff`: the sums of selected vectors are the vectors of the span.
* `BitVector.isGreatest_independent`: the dimension of the span is the greatest number of
  independent vectors in the list.
* `BitMatrix.rowSums_eq_iff`: matrices have the same sums of rows exactly if they have the same row
  space.
-/

namespace AffinePhase

/-! ### The span of a list, vector by vector -/

section Span

variable {n : ℕ} {w : BitVector} {vs ws : List BitVector}

/-- Without rows there is only the zero vector. -/
theorem rowSpace_nil : rowSpace n [] = ⊥ := by
  simp [rowSpace]

/-- One more row enlarges the row space by its multiples. -/
theorem rowSpace_cons :
    rowSpace n (w :: vs) = rowSpace n vs ⊔ Submodule.span (ZMod 2) {w.toVec n} := by
  rw [rowSpace, rowSpace, ← Submodule.span_union]
  refine congrArg _ (Set.ext fun x => ?_)
  simp [eq_comm]

/-- A multiple of the first vector is zero or the vector itself. -/
theorem mem_rowSpace_cons {x : Fin n → ZMod 2} :
    x ∈ rowSpace n (w :: vs) ↔ x ∈ rowSpace n vs ∨ x - w.toVec n ∈ rowSpace n vs := by
  have hcoefficient : ∀ a : ZMod 2, a = 0 ∨ a = 1 := by decide
  rw [rowSpace_cons, Submodule.mem_sup]
  constructor
  · rintro ⟨y, hy, z, hz, rfl⟩
    obtain ⟨a, rfl⟩ := Submodule.mem_span_singleton.mp hz
    rcases hcoefficient a with rfl | rfl
    · left
      rwa [zero_smul, add_zero]
    · right
      rwa [one_smul, add_sub_cancel_right]
  · rintro (hx | hx)
    · exact ⟨x, hx, 0, zero_mem _, add_zero x⟩
    · exact ⟨_, hx, w.toVec n, Submodule.mem_span_singleton_self _, sub_add_cancel x _⟩

/-- Fewer vectors span less. -/
theorem rowSpace_mono (h : ws ⊆ vs) : rowSpace n ws ≤ rowSpace n vs :=
  Submodule.span_mono fun _ ⟨row, hrow, heq⟩ => ⟨row, h hrow, heq⟩

/-- The order of the vectors does not matter. -/
theorem rowSpace_of_perm (h : vs.Perm ws) : rowSpace n vs = rowSpace n ws :=
  le_antisymm (rowSpace_mono h.subset) (rowSpace_mono h.symm.subset)

end Span

namespace BitVector

variable {n : ℕ} {u v w : BitVector} {vs ws : List BitVector}

/-! ### Sums -/

/-- The sum of some vectors with `n` bits, `none` if one of them has another length. -/
def sum? (n : ℕ) : List BitVector → Option BitVector
  | [] => some (zeros n)
  | v :: vs => do
      let rest ← sum? n vs
      rest.xor? v

/-- A vector is the sum of some vectors of a list, each taken at most once. -/
def IsSumOf (n : ℕ) (vs : List BitVector) (v : BitVector) : Prop :=
  ∃ ws, ws.Sublist vs ∧ sum? n ws = some v

/-- No sum of one or more vectors of the list is zero. -/
def IsIndependent (n : ℕ) (vs : List BitVector) : Prop :=
  ∀ ws, ws.Sublist vs → ws ≠ [] → sum? n ws ≠ some (zeros n)

/-- A sum of rows is that of all but the first, with the first added. -/
theorem sum?_cons_eq_some :
    sum? n (w :: vs) = some v ↔ ∃ u, sum? n vs = some u ∧ u.xor? w = some v :=
  Option.bind_eq_some_iff

/-- A sum of rows has as many bits as there are columns. -/
theorem length_of_sum? (h : sum? n vs = some v) : v.length = n := by
  induction vs generalizing v with
  | nil => rw [← Option.some.inj h, length_zeros]
  | cons w vs ih =>
      obtain ⟨u, hu, hv⟩ := sum?_cons_eq_some.mp h
      exact (length_of_xor? hv).trans (ih hu)

/-- A sum is zero only if the two summands are equal. -/
theorem xor?_eq_zeros_iff (hu : u.length = n) : u.xor? w = some (zeros n) ↔ u = w := by
  constructor
  · intro h
    refine ext_bits (length_eq_of_xor? h).symm fun i _ => ?_
    have hbit := (bit_of_xor? h i).symm.trans (bit_zeros n i)
    exact bne_eq_false_iff_eq.mp hbit
  · rintro rfl
    obtain ⟨z, hz⟩ := exists_xor? (v := u) rfl
    rw [hz]
    refine congrArg some (ext_bits ((length_of_xor? hz).trans hu) fun i _ => ?_)
    rw [bit_of_xor? hz, Bool.xor_self, bit_zeros]

/-! ### Sums of selected vectors -/

/-- Without rows the only sum is the zero vector. -/
theorem isSumOf_nil : IsSumOf n [] v ↔ v = zeros n := by
  constructor
  · rintro ⟨ws, hws, hsum⟩
    obtain rfl := List.sublist_nil.mp hws
    exact (Option.some.inj hsum).symm
  · rintro rfl
    exact ⟨[], .slnil, rfl⟩

/-- The first vector is selected or not. -/
theorem isSumOf_cons :
    IsSumOf n (w :: vs) v ↔ IsSumOf n vs v ∨ ∃ u, IsSumOf n vs u ∧ u.xor? w = some v := by
  constructor
  · rintro ⟨ws, hws, hsum⟩
    rcases List.sublist_cons_iff.mp hws with hws | ⟨rest, rfl, hrest⟩
    · exact .inl ⟨ws, hws, hsum⟩
    · obtain ⟨u, hu, hv⟩ := sum?_cons_eq_some.mp hsum
      exact .inr ⟨u, ⟨rest, hrest, hu⟩, hv⟩
  · rintro (⟨ws, hws, hsum⟩ | ⟨u, ⟨ws, hws, hu⟩, hv⟩)
    · exact ⟨ws, hws.cons w, hsum⟩
    · exact ⟨w :: ws, hws.cons_cons w, sum?_cons_eq_some.mpr ⟨u, hu, hv⟩⟩

/-- **The sums of selected vectors** are the vectors of the span. -/
theorem isSumOf_iff (hlength : ∀ w ∈ vs, w.length = n) :
    IsSumOf n vs v ↔ v.length = n ∧ v.toVec n ∈ rowSpace n vs := by
  induction vs generalizing v with
  | nil =>
      have hzero : (zeros n).toVec n = 0 := funext fun i => by simp [toVec]
      rw [isSumOf_nil, rowSpace_nil, Submodule.mem_bot, ← hzero]
      constructor
      · rintro rfl
        exact ⟨length_zeros n, rfl⟩
      · rintro ⟨hv, hvec⟩
        exact toVec_injective hv (length_zeros n) hvec
  | cons w vs ih =>
      obtain ⟨hw, hvs⟩ := List.forall_mem_cons.mp hlength
      rw [isSumOf_cons, ih hvs, mem_rowSpace_cons, and_or_left]
      refine or_congr_right ⟨?_, ?_⟩
      · rintro ⟨u, hu, hsum⟩
        obtain ⟨hlen, hmem⟩ := (ih hvs).mp hu
        refine ⟨(length_of_xor? hsum).trans hlen, ?_⟩
        rwa [toVec_of_xor? n hsum, add_sub_cancel_right]
      · rintro ⟨hv, hmem⟩
        obtain ⟨u, hu⟩ := exists_xor? (hv.trans hw.symm)
        have hlen : u.length = n := (length_of_xor? hu).trans hv
        have hvec : u.toVec n = v.toVec n - w.toVec n := by
          rw [toVec_of_xor? n hu, ZModModule.sub_eq_add]
        obtain ⟨v', hv'⟩ := exists_xor? (hlen.trans hw.symm)
        have hback : v' = v := by
          refine toVec_injective ((length_of_xor? hv').trans hlen) hv ?_
          rw [toVec_of_xor? n hv', hvec, sub_add_cancel]
        exact ⟨u, (ih hvs).mpr ⟨hlen, hvec ▸ hmem⟩, hback ▸ hv'⟩

/-! ### Independence -/

/-- Selecting from a part of the list, there are fewer sums. -/
theorem IsIndependent.of_sublist (h : IsIndependent n vs) (hws : ws.Sublist vs) :
    IsIndependent n ws :=
  fun us hus => h us (hus.trans hws)

theorem isIndependent_nil : IsIndependent n [] :=
  fun _ hws hne => absurd (List.sublist_nil.mp hws) hne

/-- A list is independent if its tail is and the first vector is not a sum of vectors of the
tail. -/
theorem isIndependent_cons :
    IsIndependent n (w :: vs) ↔ IsIndependent n vs ∧ ¬ IsSumOf n vs w := by
  constructor
  · refine fun h => ⟨h.of_sublist (List.sublist_cons_self w vs), ?_⟩
    rintro ⟨ws, hws, hsum⟩
    refine h (w :: ws) (hws.cons_cons w) (List.cons_ne_nil w ws) ?_
    exact sum?_cons_eq_some.mpr ⟨w, hsum, (xor?_eq_zeros_iff (length_of_sum? hsum)).mpr rfl⟩
  · rintro ⟨hind, hno⟩ ws hws hne hzero
    rcases List.sublist_cons_iff.mp hws with hws | ⟨rest, rfl, hrest⟩
    · exact hind ws hws hne hzero
    · obtain ⟨u, hu, hxor⟩ := sum?_cons_eq_some.mp hzero
      obtain rfl := (xor?_eq_zeros_iff (length_of_sum? hu)).mp hxor
      exact hno ⟨rest, hrest, hu⟩

/-- Independent vectors are as many as the dimension of their span. -/
theorem IsIndependent.finrank_rowSpace (h : IsIndependent n vs)
    (hlength : ∀ w ∈ vs, w.length = n) :
    Module.finrank (ZMod 2) (rowSpace n vs) = vs.length := by
  induction vs with
  | nil => rw [rowSpace_nil, finrank_bot, List.length_nil]
  | cons w vs ih =>
      obtain ⟨hw, hvs⟩ := List.forall_mem_cons.mp hlength
      obtain ⟨hind, hno⟩ := isIndependent_cons.mp h
      have hmem : w.toVec n ∉ rowSpace n vs := fun hmem => hno ((isSumOf_iff hvs).mpr ⟨hw, hmem⟩)
      rw [rowSpace_cons, Submodule.finrank_sup_span_singleton hmem, ih hind hvs, List.length_cons]

/-- Some independent vectors of a list span what the list spans. -/
theorem exists_independent (hlength : ∀ w ∈ vs, w.length = n) :
    ∃ ws, ws.Sublist vs ∧ IsIndependent n ws ∧ rowSpace n ws = rowSpace n vs := by
  induction vs with
  | nil => exact ⟨[], .slnil, isIndependent_nil, rfl⟩
  | cons w vs ih =>
      obtain ⟨hw, hvs⟩ := List.forall_mem_cons.mp hlength
      obtain ⟨ws, hws, hind, hspace⟩ := ih hvs
      by_cases hmem : w.toVec n ∈ rowSpace n vs
      · refine ⟨ws, hws.cons w, hind, ?_⟩
        rw [rowSpace_cons, hspace, left_eq_sup, Submodule.span_singleton_le_iff_mem]
        exact hmem
      · refine ⟨w :: ws, hws.cons_cons w, isIndependent_cons.mpr ⟨hind, fun hsum => hmem ?_⟩, ?_⟩
        · have hws' : ∀ u ∈ ws, u.length = n := fun u hu => hvs u (hws.subset hu)
          exact hspace ▸ ((isSumOf_iff hws').mp hsum).2
        · rw [rowSpace_cons, rowSpace_cons, hspace]

/-- **The dimension of the span** is the greatest number of independent vectors in the list. -/
theorem isGreatest_independent (hlength : ∀ w ∈ vs, w.length = n) :
    IsGreatest {k | ∃ ws, ws.Sublist vs ∧ IsIndependent n ws ∧ ws.length = k}
      (Module.finrank (ZMod 2) (rowSpace n vs)) := by
  have hsublist : ∀ ws : List BitVector, ws.Sublist vs → ∀ w ∈ ws, w.length = n :=
    fun ws hws w hw => hlength w (hws.subset hw)
  constructor
  · obtain ⟨ws, hws, hind, hspace⟩ := exists_independent hlength
    exact ⟨ws, hws, hind, hspace ▸ (hind.finrank_rowSpace (hsublist ws hws)).symm⟩
  · rintro _ ⟨ws, hws, hind, rfl⟩
    rw [← hind.finrank_rowSpace (hsublist ws hws)]
    exact Submodule.finrank_mono (rowSpace_mono hws.subset)

end BitVector

namespace BitMatrix

variable {a b m : BitMatrix} {r c : ℕ}

/-! ### The rows of a matrix -/

/-- The sums of selected rows of a matrix. -/
def rowSums (m : BitMatrix) : Set BitVector :=
  {v | BitVector.IsSumOf m.columns m.rows v}

theorem HasShape.length_of_mem (h : m.HasShape r c) {row : BitVector} (hrow : row ∈ m.rows) :
    row.length = c :=
  (h.rectangular row hrow).trans h.columns

/-- The sums of rows are the vectors of the row space. -/
theorem HasShape.mem_rowSums (h : m.HasShape r c) {v : BitVector} :
    v ∈ m.rowSums ↔ v.length = c ∧ v.toVec c ∈ rowSpace c m.rows := by
  rw [rowSums, Set.mem_ofPred_eq, h.columns]
  exact BitVector.isSumOf_iff fun row hrow => h.length_of_mem hrow

/-- If the rows of one matrix are sums of rows of another one, the row spaces are ordered. -/
theorem rowSpace_le_of_rowSums (ha : a.HasShape r c) (hb : b.HasShape r c)
    (h : a.rowSums ⊆ b.rowSums) : rowSpace c a.rows ≤ rowSpace c b.rows := by
  refine rowSpace_le fun i row hi => (hb.mem_rowSums.mp (h ?_)).2
  exact ha.mem_rowSums.mpr ⟨ha.length_row hi, toVec_mem_rowSpace hi⟩

/-- **Matrices have the same sums of rows** exactly if they have the same row space. -/
theorem rowSums_eq_iff (ha : a.HasShape r c) (hb : b.HasShape r c) :
    a.rowSums = b.rowSums ↔ rowSpace c a.rows = rowSpace c b.rows := by
  constructor
  · intro h
    exact le_antisymm (rowSpace_le_of_rowSums ha hb h.subset)
      (rowSpace_le_of_rowSums hb ha h.symm.subset)
  · intro h
    ext v
    rw [ha.mem_rowSums, hb.mem_rowSums, h]

end BitMatrix

end AffinePhase
