import AffinePhase.Proofs.Polynomial.Table
import AffinePhase.Proofs.Result

/-!
# Arithmetic of coefficient tables

The operations on tables, coefficient by coefficient and value by value. The polynomials of group
elements are closed under all of them: a coefficient of degree `d` is divisible by `2^(d-1)`, and
sums and negatives keep that.

## Main definitions

* `PhasePolynomial.IsGroupOn`: a polynomial of a group element, up to the constant term.
* `PhasePolynomial.IsReduced`: a polynomial that stores residues only.

## Main results

* `PhasePolynomial.IsConsistent.addTerms`, `PhasePolynomial.IsConsistent.neg`,
  `PhasePolynomial.IsConsistent.exists_add?`: the coefficients of the results, and
  `PhasePolynomial.IsGroupOn.addTerms`, `PhasePolynomial.IsGroupOn.neg`,
  `PhasePolynomial.IsGroupOn.exists_add?`: the closure properties.
* `PhasePolynomial.IsGroupOn.directSum`, `PhasePolynomial.IsConsistent.directSum`,
  `PhasePolynomial.IsConsistent.valueAt_directSum`: the direct sum, its coefficients and its values.
* `PhasePolynomial.IsGroupOn.ext`, `PhasePolynomial.IsReduced.ext`: the coefficients determine the
  tables, up to the constant or with it.
* `PhasePolynomial.evaluateAt_eq`: evaluation at a point.
-/

open scoped Fin.CommRing

namespace AffinePhase

variable {n : ℕ} {m m' : Monomial} {k : Z8}

namespace Z8

/-- A residue is divisible by two exactly if its byte is even. -/
theorem two_dvd_iff (r : Z8) : (2 : Z8) ∣ r ↔ toByte r % 2 = 0 := by
  simp only [Dvd.dvd]
  revert r; decide

/-- A residue is divisible by four exactly if its byte is zero or four. -/
theorem four_dvd_iff (r : Z8) : (4 : Z8) ∣ r ↔ toByte r = 0 ∨ toByte r = 4 := by
  simp only [Dvd.dvd]
  revert r; decide

/-- A power of two from the third on vanishes. -/
theorem two_pow_eq_zero {e : ℕ} (h : 3 ≤ e) : (2 : Z8) ^ e = 0 := by
  rw [← Nat.sub_add_cancel h, pow_add, show (2 : Z8) ^ 3 = 0 from rfl, mul_zero]

end Z8

/-- The coefficient of a monomial in a polynomial of a group element: of degree `d`, divisible by
`2^(d-1)`. -/
def Graded (m : Monomial) (k : Z8) : Prop := (2 : Z8) ^ (m.length - 1) ∣ k

/-- Sums keep the divisibility. -/
theorem Graded.add {k' : Z8} (h : Graded m k) (h' : Graded m k') : Graded m (k + k') :=
  dvd_add h h'

/-- A coefficient that does not vanish has degree at most three. -/
theorem Graded.length_le (h : Graded m k) (hk : k ≠ 0) : m.length ≤ 3 := by
  by_contra hlen
  rw [Graded, Z8.two_pow_eq_zero (by omega), zero_dvd_iff] at h
  exact hk h

namespace PhasePolynomial

variable {p q : PhasePolynomial}

/-! ### Tables of group elements -/

/-- A byte in the table of degree `d` of a group element. -/
def GroupByte (d : ℕ) (w : UInt8) : Prop := w < 8 ∧ (2 : Z8) ^ (d - 1) ∣ Z8.ofByte w

/-- The bytes of group elements are those of the residues that are divisible. -/
theorem groupByte_toByte {d : ℕ} : GroupByte d (Z8.toByte k) ↔ (2 : Z8) ^ (d - 1) ∣ k := by
  rw [GroupByte, Z8.ofByte_toByte]
  exact and_iff_right (Z8.toByte_lt k)

/-- Of degree two, the bytes of group elements are even. -/
theorem groupByte_two {w : UInt8} : GroupByte 2 w ↔ w < 8 ∧ w % 2 = 0 := by
  refine and_congr_right fun h => ?_
  rw [show (2 : Z8) ^ (2 - 1) = 2 from rfl, Z8.two_dvd_iff, Z8.toByte_ofByte h]

/-- Of degree three, the bytes of group elements are zero and four. -/
theorem groupByte_three {w : UInt8} : GroupByte 3 w ↔ w = 0 ∨ w = 4 := by
  rw [GroupByte, show (2 : Z8) ^ (3 - 1) = 4 from rfl, Z8.four_dvd_iff]
  constructor
  · rintro ⟨h, hw⟩
    rwa [Z8.toByte_ofByte h] at hw
  · rintro (rfl | rfl)
    · exact ⟨by decide, .inl rfl⟩
    · exact ⟨by decide, .inr rfl⟩

/-- The conditions on the coefficients of the three degrees are one condition. -/
theorem hasGroupCoefficients_iff :
    p.HasGroupCoefficients ↔ ∀ d, 1 ≤ d → d ≤ 3 → ∀ w ∈ p.table d, GroupByte d w := by
  constructor
  · rintro ⟨h₁, h₂, h₃⟩ d hpos hd w hw
    match d, hpos, hd with
    | 1, _, _ => exact ⟨h₁ w hw, one_dvd _⟩
    | 2, _, _ => exact groupByte_two.mpr (h₂ w hw)
    | 3, _, _ => exact groupByte_three.mpr (h₃ w hw)
  · intro h
    exact ⟨fun w hw => (h 1 le_rfl (by decide) w hw).1,
      fun w hw => groupByte_two.mp (h 2 (by decide) (by decide) w hw),
      fun w hw => groupByte_three.mp (h 3 (by decide) le_rfl w hw)⟩

/-- A polynomial in `n` variables that belongs to a group element, up to its constant. -/
structure IsGroupOn (p : PhasePolynomial) (n : ℕ) : Prop where
  /-- There are `n` variables. -/
  numVariables : p.numVariables = n
  /-- The tables have their sizes. -/
  consistent : p.IsConsistent
  /-- The coefficients are those of a group element. -/
  coefficients : p.HasGroupCoefficients

/-- A coefficient of a group element is divisible by its power of two. -/
theorem IsGroupOn.graded_coefficient (hp : p.IsGroupOn n) (m : Monomial) :
    Graded m (p.coefficient m) := by
  obtain ⟨rfl, hcons, hcoeff⟩ := hp
  by_cases hm : m.IsTerm p.numVariables
  · rw [hcons.coefficient_of_isTerm hm]
    rcases Nat.eq_zero_or_pos m.length with hlen | hlen
    · rw [Graded, hlen]
      exact one_dvd _
    · have hbyte := hcons.table_rank hm
      exact (hasGroupCoefficients_iff.mp hcoeff _ hlen hm.degree _ (Array.mem_of_getElem? hbyte)).2
  · rw [hcons.coefficient_of_not_isTerm hm]
    exact dvd_zero _

/-- The terms of a group element. -/
theorem IsGroupOn.of_mem_terms (hp : p.IsGroupOn n) {a : Monomial × Z8} (ha : a ∈ p.terms) :
    a.1.IsTerm n ∧ Graded a.1 a.2 ∧ a.2 ≠ 0 := by
  obtain ⟨hm, hk, hne⟩ := hp.consistent.mem_terms.mp ha
  refine ⟨hp.numVariables ▸ hm, ?_, hne⟩
  rw [← hk, ← hp.consistent.coefficient_of_isTerm hm]
  exact hp.graded_coefficient a.1

/-- The bytes of a group element are below eight, the constant apart. -/
theorem IsGroupOn.stored_lt (hp : p.IsGroupOn n) (hm : m.IsTerm n) (hne : m ≠ []) :
    p.stored m < 8 := by
  obtain ⟨rfl, hcons, hcoeff⟩ := hp
  have hbyte := Array.mem_of_getElem? (hcons.table_rank hm)
  exact (hasGroupCoefficients_iff.mp hcoeff _ (List.length_pos_iff.mpr hne) hm.degree _ hbyte).1

/-- **The constant and the coefficients determine the tables.** -/
theorem IsGroupOn.ext (hp : p.IsGroupOn n) (hq : q.IsGroupOn n) (hconst : p.constant = q.constant)
    (h : ∀ m, m ≠ [] → p.coefficient m = q.coefficient m) : p = q := by
  refine hp.consistent.ext_stored hq.consistent (hp.numVariables.trans hq.numVariables.symm)
    fun m hm => ?_
  by_cases hne : m = []
  · subst hne
    exact hconst
  · have hcoeff := h m hne
    rw [hp.numVariables] at hm
    rw [hp.consistent.coefficient_of_isTerm (hp.numVariables.symm ▸ hm),
      hq.consistent.coefficient_of_isTerm (hq.numVariables.symm ▸ hm)] at hcoeff
    rw [← Z8.toByte_ofByte (hp.stored_lt hm hne), ← Z8.toByte_ofByte (hq.stored_lt hm hne), hcoeff]

/-! ### The zero polynomial -/

/-- The tables of the zero polynomial hold zeros only. -/
theorem mem_table_zero {d : ℕ} {w : UInt8} (h : w ∈ (zero n).table d) : w = 0 := by
  match d, h with
  | 0, h => exact Array.mem_singleton.mp h
  | 1, h | 2, h | 3, h => exact Array.eq_of_mem_replicate h
  | _ + 4, h => exact absurd h (Array.not_mem_empty w)

/-- The zero polynomial is one of group elements. -/
theorem isGroupOn_zero (n : ℕ) : (zero n).IsGroupOn n := by
  refine ⟨rfl, ⟨Array.size_replicate, Array.size_replicate, Array.size_replicate⟩, ?_⟩
  refine hasGroupCoefficients_iff.mpr fun d _ _ w hw => ?_
  rw [mem_table_zero hw]
  exact ⟨by decide, dvd_zero _⟩

theorem coefficient_zero (n : ℕ) (m : Monomial) : (zero n).coefficient m = 0 := by
  have hcons := (isGroupOn_zero n).consistent
  rw [hcons.coefficient_eq]
  split
  · rename_i hm
    have hbyte := hcons.table_rank (mem_monomials.mp hm)
    rw [mem_table_zero (Array.mem_of_getElem? hbyte)]
    rfl
  · rfl

/-! ### Adding terms -/

/-- What is in a changed table was in it before, or comes from what was. -/
theorem mem_modify {xs : Array UInt8} {i : ℕ} {f : UInt8 → UInt8} {w : UInt8}
    (h : w ∈ xs.modify i f) : w ∈ xs ∨ ∃ w' ∈ xs, w = f w' := by
  obtain ⟨j, hj⟩ := Array.mem_iff_getElem?.mp h
  rw [Array.getElem?_modify] at hj
  split at hj
  · obtain ⟨w', hw', rfl⟩ := Option.map_eq_some_iff.mp hj
    exact .inr ⟨w', Array.mem_of_getElem? hw', rfl⟩
  · exact .inl (Array.mem_of_getElem? hj)

/-- Adding to a coefficient keeps the polynomial that of a group element. -/
theorem IsGroupOn.addTerm (hp : p.IsGroupOn n) (hm : m.IsTerm n) (hk : Graded m k) :
    (p.addTerm m k).IsGroupOn n := by
  obtain ⟨rfl, hcons, hcoeff⟩ := hp
  refine ⟨numVariables_modifyWeight _ _ _, hcons.modifyWeight _ hm.degree, ?_⟩
  refine hasGroupCoefficients_iff.mpr fun d hpos hd w hw => ?_
  rw [PhasePolynomial.addTerm, table_modifyWeight p _ hm.degree] at hw
  have hold := hasGroupCoefficients_iff.mp hcoeff d hpos hd
  split at hw
  · rename_i hlen
    rcases mem_modify hw with hw | ⟨w', hw', rfl⟩
    · exact hold w hw
    · rw [groupByte_toByte]
      refine dvd_add (hold w' hw').2 ?_
      rw [hlen]
      exact hk
  · exact hold w hw

/-- **Adding to a coefficient** changes that coefficient only. -/
theorem IsConsistent.coefficient_addTerm (hp : p.IsConsistent) (hm : m.IsTerm p.numVariables)
    (k : Z8) (m' : Monomial) :
    (p.addTerm m k).coefficient m' = p.coefficient m' + if m = m' then k else 0 := by
  have hp' := hp.modifyWeight (fun w => Z8.toByte (Z8.ofByte w + k)) hm.degree
  rw [PhasePolynomial.addTerm, hp'.coefficient_eq, hp.coefficient_eq, numVariables_modifyWeight]
  by_cases hm' : m' ∈ monomials p.numVariables
  · rw [if_pos hm', if_pos hm', hp.stored_modifyWeight _ hm (mem_monomials.mp hm')]
    split
    · rw [Z8.ofByte_toByte]
    · rw [add_zero]
  · have hne : m ≠ m' := fun heq => hm' (mem_monomials.mpr (heq ▸ hm))
    rw [if_neg hm', if_neg hm', if_neg hne, add_zero]

/-- **Adding terms** adds their coefficients. -/
theorem IsConsistent.addTerms {ts : List (Monomial × Z8)} (hp : p.IsConsistent)
    (hts : ∀ a ∈ ts, a.1.IsTerm p.numVariables) :
    (p.addTerms ts).numVariables = p.numVariables ∧ (p.addTerms ts).IsConsistent ∧
      ∀ m, (p.addTerms ts).coefficient m = p.coefficient m + SparseSum.coefficient ts m := by
  induction ts generalizing p with
  | nil => exact ⟨rfl, hp, fun m => (add_zero _).symm⟩
  | cons head ts ih =>
      obtain ⟨hhead, hrest⟩ := List.forall_mem_cons.mp hts
      have hn : (p.addTerm head.1 head.2).numVariables = p.numVariables :=
        numVariables_modifyWeight _ _ _
      have hcons : (p.addTerm head.1 head.2).IsConsistent := hp.modifyWeight _ hhead.degree
      obtain ⟨hn', hcons', hcoeff⟩ := ih hcons (hn.symm ▸ hrest)
      refine ⟨hn'.trans hn, hcons', fun m => ?_⟩
      rw [SparseSum.coefficient_cons, ← add_assoc, ← hp.coefficient_addTerm hhead]
      exact hcoeff m

/-- Adding terms of a group element keeps the polynomial that of a group element. -/
theorem IsGroupOn.addTerms {ts : List (Monomial × Z8)}
    (hts : ∀ a ∈ ts, a.1.IsTerm n ∧ Graded a.1 a.2) (hp : p.IsGroupOn n) :
    (p.addTerms ts).IsGroupOn n ∧
      ∀ m, (p.addTerms ts).coefficient m = p.coefficient m + SparseSum.coefficient ts m := by
  constructor
  · induction ts generalizing p with
    | nil => exact hp
    | cons head ts ih =>
        obtain ⟨hhead, hrest⟩ := List.forall_mem_cons.mp hts
        exact ih hrest (hp.addTerm hhead.1 hhead.2)
  · obtain ⟨rfl, hcons, -⟩ := hp
    exact (hcons.addTerms fun a ha => (hts a ha).1).2.2

/-- Every stored byte is below eight. -/
def IsReduced (p : PhasePolynomial) : Prop :=
  p.constant < 8 ∧ (∀ w ∈ p.linear, w < 8) ∧ (∀ w ∈ p.quadratic, w < 8) ∧ ∀ w ∈ p.cubic, w < 8

instance (p : PhasePolynomial) : Decidable p.IsReduced :=
  inferInstanceAs (Decidable (_ ∧ _))

/-- The conditions on the bytes of the four degrees are one condition. -/
theorem isReduced_iff : p.IsReduced ↔ ∀ d ≤ 3, ∀ w ∈ p.table d, w < 8 := by
  constructor
  · rintro ⟨h₀, h₁, h₂, h₃⟩ d hd w hw
    match d, hd with
    | 0, _ => exact Array.mem_singleton.mp hw ▸ h₀
    | 1, _ => exact h₁ w hw
    | 2, _ => exact h₂ w hw
    | 3, _ => exact h₃ w hw
  · intro h
    exact ⟨h 0 (by decide) p.constant (Array.mem_singleton.mpr rfl), h 1 (by decide),
      h 2 (by decide), h 3 le_rfl⟩

/-- Of a reduced polynomial all bytes are below eight. -/
theorem IsReduced.stored_lt (hr : p.IsReduced) (hp : p.IsConsistent)
    (hm : m.IsTerm p.numVariables) : p.stored m < 8 :=
  isReduced_iff.mp hr _ hm.degree _ (Array.mem_of_getElem? (hp.table_rank hm))

/-- **Tables of residues are determined by the coefficients.** -/
theorem IsReduced.ext (hpr : p.IsReduced) (hqr : q.IsReduced) (hp : p.IsConsistent)
    (hq : q.IsConsistent) (hn : p.numVariables = q.numVariables)
    (h : ∀ m, p.coefficient m = q.coefficient m) : p = q := by
  refine hp.ext_stored hq hn fun m hm => ?_
  have hcoeff := h m
  rw [hp.coefficient_of_isTerm hm, hq.coefficient_of_isTerm (hn ▸ hm)] at hcoeff
  rw [← Z8.toByte_ofByte (hpr.stored_lt hp hm), ← Z8.toByte_ofByte (hqr.stored_lt hq (hn ▸ hm)),
    hcoeff]

theorem isReduced_zero (n : ℕ) : (zero n).IsReduced :=
  isReduced_iff.mpr fun _ _ _ hw => mem_table_zero hw ▸ by decide

/-- **Adding terms** stores residues only. -/
theorem IsReduced.addTerms {ts : List (Monomial × Z8)} (hts : ∀ a ∈ ts, a.1.length ≤ 3)
    (hp : p.IsReduced) : (p.addTerms ts).IsReduced := by
  induction ts generalizing p with
  | nil => exact hp
  | cons head ts ih =>
      obtain ⟨hhead, hrest⟩ := List.forall_mem_cons.mp hts
      have hfirst : (p.addTerm head.1 head.2).IsReduced := by
        refine isReduced_iff.mpr fun d hd w hw => ?_
        have hold := isReduced_iff.mp hp d hd
        rw [PhasePolynomial.addTerm, table_modifyWeight p _ hhead] at hw
        split at hw
        · rcases mem_modify hw with hw | ⟨w', -, rfl⟩
          · exact hold w hw
          · exact Z8.toByte_lt _
        · exact hold w hw
      exact ih hrest hfirst

/-- Terms of positive degree leave the constant term as it is. -/
theorem constant_addTerms {ts : List (Monomial × Z8)} (hts : ∀ a ∈ ts, a.1 ≠ []) :
    (p.addTerms ts).constant = p.constant := by
  induction ts generalizing p with
  | nil => rfl
  | cons head ts ih =>
      obtain ⟨hhead, hrest⟩ := List.forall_mem_cons.mp hts
      have hkeep : (p.addTerm head.1 head.2).constant = p.constant := by
        match head, hhead with
        | ([_], _), _ | ([_, _], _), _ | ([_, _, _], _), _ | (_ :: _ :: _ :: _ :: _, _), _ => rfl
      exact (ih hrest).trans hkeep

/-- Setting the constant changes the coefficient of the empty monomial only. -/
theorem IsGroupOn.setConstant (hp : p.IsGroupOn n) (k : Z8) :
    (p.setConstant k).IsGroupOn n ∧
      ∀ m, (p.setConstant k).coefficient m = if m = [] then k else p.coefficient m := by
  obtain ⟨rfl, hcons, hcoeff⟩ := hp
  have hcons' : (p.setConstant k).IsConsistent := hcons
  have hn : (p.setConstant k).numVariables = p.numVariables := rfl
  have hmodify : p.setConstant k = p.modifyWeight (fun _ => Z8.toByte k) [] := rfl
  refine ⟨⟨rfl, hcons, hcoeff⟩, fun m => ?_⟩
  rw [hcons'.coefficient_eq, hcons.coefficient_eq, hn]
  by_cases hm : m ∈ monomials p.numVariables
  · have hstored := hcons.stored_modifyWeight (fun _ => Z8.toByte k) (Monomial.isTerm_nil _)
      (mem_monomials.mp hm)
    rw [if_pos hm, if_pos hm, hmodify, hstored]
    by_cases hnil : m = []
    · rw [if_pos hnil, if_pos hnil.symm, Z8.ofByte_toByte]
    · rw [if_neg hnil, if_neg (Ne.symm hnil)]
  · have hne : m ≠ [] := fun heq => hm (mem_monomials.mpr (heq ▸ Monomial.isTerm_nil _))
    rw [if_neg hm, if_neg hm, if_neg hne]

/-! ### Negative and sum -/

theorem table_neg (p : PhasePolynomial) (d : ℕ) : (-p).table d = (p.table d).map negWeight := by
  match d with
  | 0 => exact (Array.map_singleton (f := negWeight)).symm
  | 1 | 2 | 3 => rfl
  | _ + 4 => exact Array.map_empty.symm

/-- The negative stores residues only, whatever bytes it is formed from. -/
theorem isReduced_neg (p : PhasePolynomial) : (-p).IsReduced := by
  refine isReduced_iff.mpr fun d _ w hw => ?_
  rw [table_neg] at hw
  obtain ⟨w', -, rfl⟩ := Array.mem_map.mp hw
  exact Z8.toByte_lt _

/-- **The negative** negates the coefficients. -/
theorem IsConsistent.neg (hp : p.IsConsistent) :
    (-p).IsConsistent ∧ ∀ m, (-p).coefficient m = -p.coefficient m := by
  have hneg : (-p).IsConsistent := by
    refine isConsistent_iff.mpr fun d hd => ?_
    rw [table_neg, Array.size_map]
    exact isConsistent_iff.mp hp d hd
  have hsame : (-p).numVariables = p.numVariables := rfl
  refine ⟨hneg, fun m => ?_⟩
  rw [hneg.coefficient_eq, hp.coefficient_eq, hsame]
  by_cases hm : m ∈ monomials p.numVariables
  · have hterm := mem_monomials.mp hm
    have hbyte := hneg.table_rank hterm
    rw [table_neg, Array.getElem?_map, hsame, hp.table_rank hterm] at hbyte
    rw [if_pos hm, if_pos hm, ← Option.some.inj hbyte, negWeight, Z8.ofByte_toByte]
  · rw [if_neg hm, if_neg hm, neg_zero]

/-- **Negatives** keep the divisibility. -/
theorem IsGroupOn.neg (hp : p.IsGroupOn n) :
    (-p).IsGroupOn n ∧ ∀ m, (-p).coefficient m = -p.coefficient m := by
  obtain ⟨hneg, hcoeff⟩ := hp.consistent.neg
  refine ⟨⟨hp.numVariables, hneg, ?_⟩, hcoeff⟩
  refine hasGroupCoefficients_iff.mpr fun d hpos hd w hw => ?_
  rw [table_neg] at hw
  obtain ⟨w', hw', rfl⟩ := Array.mem_map.mp hw
  exact groupByte_toByte.mpr
    (dvd_neg.mpr (hasGroupCoefficients_iff.mp hp.coefficients d hpos hd w' hw').2)

/-- An entry of a sum of tables. -/
theorem getElem?_addTable {xs ys : Array UInt8} {i : ℕ} {v w : UInt8}
    (hv : xs[i]? = some v) (hw : ys[i]? = some w) :
    (addTable xs ys)[i]? = some (addWeight v w) := by
  rw [addTable, Array.getElem?_mapIdx, hv, hw]
  rfl

/-- The tables of a sum, for polynomials in the same variables. -/
theorem exists_add?_table (hn : p.numVariables = q.numVariables) :
    ∃ r, p.add? q = some r ∧ r.numVariables = p.numVariables ∧
      ∀ d, r.table d = addTable (p.table d) (q.table d) := by
  rw [add?, if_pos hn]
  refine ⟨_, rfl, rfl, fun d => ?_⟩
  match d with
  | 0 => simp [table, addTable]
  | 1 | 2 | 3 => rfl
  | _ + 4 => simp [table, addTable]

/-- A byte of a sum is the sum of two bytes. -/
theorem exists_of_mem_addTable {xs ys : Array UInt8} {w : UInt8} (hsize : xs.size = ys.size)
    (hw : w ∈ addTable xs ys) : ∃ a ∈ xs, ∃ b ∈ ys, w = addWeight a b := by
  obtain ⟨i, hi⟩ := Array.mem_iff_getElem?.mp hw
  have hlt : i < xs.size := by
    have := (Array.getElem?_eq_some_iff.mp hi).1
    rwa [addTable, Array.size_mapIdx] at this
  have hlt' : i < ys.size := hsize ▸ hlt
  rw [getElem?_addTable (Array.getElem?_eq_getElem hlt) (Array.getElem?_eq_getElem hlt')] at hi
  exact ⟨xs[i], Array.getElem_mem hlt, ys[i], Array.getElem_mem hlt', (Option.some.inj hi).symm⟩

/-- **The sum** of two polynomials in the same variables adds the coefficients. It stores residues
only, since every byte has a counterpart. -/
theorem IsConsistent.exists_add? (hp : p.IsConsistent) (hq : q.IsConsistent)
    (hn : p.numVariables = q.numVariables) :
    ∃ r, p.add? q = some r ∧ r.numVariables = p.numVariables ∧ r.IsConsistent ∧ r.IsReduced ∧
      (∀ d ≤ 3, ∀ w ∈ r.table d, ∃ a ∈ p.table d, ∃ b ∈ q.table d, w = addWeight a b) ∧
      ∀ m, r.coefficient m = p.coefficient m + q.coefficient m := by
  obtain ⟨r, hr, hrn, htable⟩ := exists_add?_table hn
  have hpsize := isConsistent_iff.mp hp
  have hqsize := isConsistent_iff.mp hq
  have hcons : r.IsConsistent := by
    refine isConsistent_iff.mpr fun d hd => ?_
    rw [htable, addTable, Array.size_mapIdx, hpsize d hd, hrn]
  have hbytes : ∀ d ≤ 3, ∀ w ∈ r.table d, ∃ a ∈ p.table d, ∃ b ∈ q.table d, w = addWeight a b := by
    intro d hd w hw
    rw [htable] at hw
    exact exists_of_mem_addTable ((hpsize d hd).trans (hn ▸ (hqsize d hd).symm)) hw
  refine ⟨r, hr, hrn, hcons, isReduced_iff.mpr fun d hd w hw => ?_, hbytes, fun m => ?_⟩
  · obtain ⟨a, -, b, -, rfl⟩ := hbytes d hd w hw
    exact Z8.toByte_lt _
  · rw [hcons.coefficient_eq, hp.coefficient_eq, hq.coefficient_eq, hrn, ← hn]
    by_cases hm : m ∈ monomials p.numVariables
    · have hterm := mem_monomials.mp hm
      have hbyte := hcons.table_rank (hrn.symm ▸ hterm)
      rw [hrn, htable, getElem?_addTable (hp.table_rank hterm)
        (hn ▸ hq.table_rank (hn ▸ hterm))] at hbyte
      rw [if_pos hm, if_pos hm, if_pos hm, ← Option.some.inj hbyte, addWeight, Z8.ofByte_toByte]
    · rw [if_neg hm, if_neg hm, if_neg hm, add_zero]

/-- **Sums** keep the divisibility. -/
theorem IsGroupOn.exists_add? (hp : p.IsGroupOn n) (hq : q.IsGroupOn n) :
    ∃ r, p.add? q = some r ∧ r.IsGroupOn n ∧
      ∀ m, r.coefficient m = p.coefficient m + q.coefficient m := by
  obtain ⟨r, hr, hrn, hcons, -, hbytes, hcoeff⟩ := hp.consistent.exists_add? hq.consistent
    (hp.numVariables.trans hq.numVariables.symm)
  refine ⟨r, hr, ⟨hrn.trans hp.numVariables, hcons, ?_⟩, hcoeff⟩
  refine hasGroupCoefficients_iff.mpr fun d hpos hd w hw => ?_
  obtain ⟨a, ha, b, hb, rfl⟩ := hbytes d hd w hw
  exact groupByte_toByte.mpr
    (dvd_add (hasGroupCoefficients_iff.mp hp.coefficients d hpos hd a ha).2
      (hasGroupCoefficients_iff.mp hq.coefficients d hpos hd b hb).2)

/-! ### Direct sums -/

/-- A polynomial without a constant has no empty term. -/
theorem IsGroupOn.ne_nil_of_mem_terms (hp : p.IsGroupOn n) (hconst : p.constant = 0)
    {a : Monomial × Z8} (ha : a ∈ p.terms) : a.1 ≠ [] := by
  obtain ⟨-, hstored, hne⟩ := hp.consistent.mem_terms.mp ha
  intro hnil
  rw [hnil] at hstored
  have hbyte : p.stored [] = 0 := hconst
  rw [hbyte] at hstored
  exact hne hstored.symm

/-- **The direct sum** of polynomials of group elements is one in the variables of both. -/
theorem IsGroupOn.directSum {n' : ℕ} (hp : p.IsGroupOn n) (hq : q.IsGroupOn n') :
    (p.directSum q).IsGroupOn (n + n') := by
  have hfirst : ∀ a ∈ p.terms, a.1.IsTerm (n + n') ∧ Graded a.1 a.2 := by
    intro a ha
    obtain ⟨hterm, hgraded, -⟩ := hp.of_mem_terms ha
    exact ⟨hterm.mono (Nat.le_add_right n n'), hgraded⟩
  have hsecond : ∀ a ∈ q.terms.map fun t => (t.1.map (· + n), t.2),
      a.1.IsTerm (n + n') ∧ Graded a.1 a.2 := by
    intro a ha
    obtain ⟨t, ht, rfl⟩ := List.mem_map.mp ha
    obtain ⟨hterm, hgraded, -⟩ := hq.of_mem_terms ht
    refine ⟨hterm.map_add n, ?_⟩
    rw [Graded, List.length_map]
    exact hgraded
  obtain ⟨rfl, -, -⟩ := id hp
  obtain ⟨rfl, -, -⟩ := id hq
  exact (((isGroupOn_zero _).addTerms hfirst).1.addTerms hsecond).1

/-- **The coefficients of a direct sum** are those of its parts, with the variables of the second
part numbered after those of the first. -/
theorem IsConsistent.directSum (hp : p.IsConsistent) (hq : q.IsConsistent) :
    (p.directSum q).numVariables = p.numVariables + q.numVariables ∧
      (p.directSum q).IsConsistent ∧ ∀ m, (p.directSum q).coefficient m =
        p.coefficient m + SparseSum.coefficient (SparseSum.shift p.numVariables q.terms) m := by
  have hfirst : ∀ a ∈ p.terms, a.1.IsTerm (p.numVariables + q.numVariables) := fun a ha =>
    (hp.mem_terms.mp ha).1.mono (Nat.le_add_right _ _)
  have hsecond : ∀ a ∈ SparseSum.shift p.numVariables q.terms,
      a.1.IsTerm (p.numVariables + q.numVariables) := by
    intro a ha
    obtain ⟨t, ht, rfl⟩ := List.mem_map.mp ha
    exact (hq.mem_terms.mp ht).1.map_add _
  have hzero := isGroupOn_zero (p.numVariables + q.numVariables)
  obtain ⟨hn, hcons, hcoeff⟩ := hzero.consistent.addTerms hfirst
  rw [hzero.numVariables] at hn
  obtain ⟨hn', hcons', hcoeff'⟩ := hcons.addTerms (hn.symm ▸ hsecond)
  refine ⟨hn'.trans hn, hcons', fun m => ?_⟩
  refine (hcoeff' m).trans ?_
  rw [hcoeff, coefficient_zero, zero_add]
  rfl

/-- A direct sum stores residues only: its bytes are formed by adding to zeros. -/
theorem IsConsistent.isReduced_directSum (hp : p.IsConsistent) (hq : q.IsConsistent) :
    (p.directSum q).IsReduced := by
  have hfirst : ∀ a ∈ p.terms, a.1.length ≤ 3 := fun a ha => (hp.mem_terms.mp ha).1.degree
  have hsecond : ∀ a ∈ SparseSum.shift p.numVariables q.terms, a.1.length ≤ 3 := by
    intro a ha
    obtain ⟨t, ht, rfl⟩ := List.mem_map.mp ha
    rw [List.length_map]
    exact (hq.mem_terms.mp ht).1.degree
  exact ((isReduced_zero _).addTerms hfirst).addTerms hsecond

/-- **A direct sum does not mix variables.** A monomial with a variable of the first part and one of
the second part has the coefficient zero. -/
theorem IsConsistent.coefficient_directSum_of_mixed (hp : p.IsConsistent) (hq : q.IsConsistent)
    {i j : ℕ} (hi : i ∈ m) (hlow : i < p.numVariables) (hj : j ∈ m) (hhigh : p.numVariables ≤ j) :
    (p.directSum q).coefficient m = 0 := by
  have hfirst : ¬ m.IsTerm p.numVariables := fun hm => (hm.below j hj).not_ge hhigh
  have hsecond : ∀ a ∈ SparseSum.shift p.numVariables q.terms, a.1 ≠ m := by
    rintro a ha rfl
    obtain ⟨t, -, rfl⟩ := List.mem_map.mp ha
    obtain ⟨i', -, rfl⟩ := List.mem_map.mp hi
    exact (Nat.le_add_left p.numVariables i').not_gt hlow
  rw [(hp.directSum hq).2.2, hp.coefficient_of_not_isTerm hfirst,
    SparseSum.coefficient_of_not_mem hsecond, add_zero]

/-- A direct sum of polynomials without constants has none. -/
theorem IsGroupOn.constant_directSum {n' : ℕ} (hp : p.IsGroupOn n) (hq : q.IsGroupOn n')
    (hpconst : p.constant = 0) (hqconst : q.constant = 0) : (p.directSum q).constant = 0 := by
  have hsecond : ∀ a ∈ q.terms.map fun t => (t.1.map (· + p.numVariables), t.2), a.1 ≠ [] := by
    intro a ha
    obtain ⟨t, ht, rfl⟩ := List.mem_map.mp ha
    exact fun hnil => hq.ne_nil_of_mem_terms hqconst ht (List.map_eq_nil_iff.mp hnil)
  exact (constant_addTerms hsecond).trans
    (constant_addTerms fun a ha => hp.ne_nil_of_mem_terms hpconst ha)

/-! ### Values -/

/-- The value at a boolean point. -/
def valueAt (p : PhasePolynomial) (x : ℕ → Bool) : Z8 := SparseSum.valueAt p.terms x

/-- **Evaluation at a point** with one entry for each variable. -/
theorem evaluateAt_eq (p : PhasePolynomial) {point : List Bool}
    (h : point.length = p.numVariables) :
    p.evaluateAt point = .ok (p.valueAt fun i => point[i]?.getD false) := by
  have hsum : ∀ (s : SparseSum) (x : ℕ → Bool),
      ((s.filter fun t => t.1.all x).map fun t => t.2).foldr (· + ·) 0 =
        SparseSum.valueAt s x := by
    intro s x
    induction s with
    | nil => rfl
    | cons head s ih =>
        rw [SparseSum.valueAt_cons, ← ih]
        by_cases hall : head.1.all x = true
        · rw [if_pos hall, List.filter_cons, if_pos hall]
          rfl
        · rw [if_neg hall, List.filter_cons, if_neg hall, zero_add]
  rw [evaluateAt, Result.sameSize_eq_ok.mpr h.symm]
  exact congrArg Except.ok (hsum p.terms _)

/-- Coefficients determine values. -/
theorem valueAt_eq_of_coefficient {s : SparseSum}
    (h : ∀ m, p.coefficient m = SparseSum.coefficient s m) (x : ℕ → Bool) :
    p.valueAt x = SparseSum.valueAt s x :=
  SparseSum.valueAt_congr h x

/-- Terms that are added add their values. -/
theorem IsConsistent.valueAt_addTerms {ts : List (Monomial × Z8)} (hp : p.IsConsistent)
    (hts : ∀ a ∈ ts, a.1.IsTerm p.numVariables) (x : ℕ → Bool) :
    (p.addTerms ts).valueAt x = p.valueAt x + SparseSum.valueAt ts x := by
  rw [valueAt_eq_of_coefficient (s := p.terms ++ ts) fun m => ?_, SparseSum.valueAt_append]
  · rfl
  · rw [(hp.addTerms hts).2.2, SparseSum.coefficient_append]
    rfl

/-- The same for polynomials of group elements. -/
theorem IsGroupOn.valueAt_addTerms {ts : List (Monomial × Z8)}
    (hts : ∀ a ∈ ts, a.1.IsTerm n ∧ Graded a.1 a.2) (hp : p.IsGroupOn n) (x : ℕ → Bool) :
    (p.addTerms ts).valueAt x = p.valueAt x + SparseSum.valueAt ts x :=
  hp.consistent.valueAt_addTerms (fun a ha => hp.numVariables.symm ▸ (hts a ha).1) x

/-- Only the variables of the polynomial matter. -/
theorem IsConsistent.valueAt_congr (hp : p.IsConsistent) {x y : ℕ → Bool}
    (h : ∀ i < p.numVariables, x i = y i) : p.valueAt x = p.valueAt y :=
  SparseSum.valueAt_congr_point fun _ ht i hi => h i ((hp.mem_terms.mp ht).1.below i hi)

/-- The value depends on the variables of the polynomial only. -/
theorem IsGroupOn.valueAt_congr (hp : p.IsGroupOn n) {x y : ℕ → Bool} (h : ∀ i < n, x i = y i) :
    p.valueAt x = p.valueAt y :=
  hp.consistent.valueAt_congr (hp.numVariables.symm ▸ h)

theorem valueAt_zero (n : ℕ) (x : ℕ → Bool) : (zero n).valueAt x = 0 :=
  valueAt_eq_of_coefficient (s := []) (coefficient_zero n) x

/-- The negative has the negative values. -/
theorem IsConsistent.valueAt_neg (hp : p.IsConsistent) (x : ℕ → Bool) :
    (-p).valueAt x = -p.valueAt x := by
  obtain ⟨S, hneg, hpos⟩ := SparseSum.exists_support (-p).terms p.terms
  rw [valueAt, valueAt, SparseSum.valueAt_eq_sum hneg, SparseSum.valueAt_eq_sum hpos,
    ← Finset.sum_neg_distrib]
  refine Finset.sum_congr rfl fun m _ => ?_
  split
  · exact hp.neg.2 m
  · exact neg_zero.symm

/-- **The values of a direct sum** are the sums of the values of its parts. -/
theorem IsConsistent.valueAt_directSum (hp : p.IsConsistent) (hq : q.IsConsistent) (x : ℕ → Bool) :
    (p.directSum q).valueAt x = p.valueAt x + q.valueAt fun i => x (i + p.numVariables) := by
  rw [valueAt_eq_of_coefficient
    (s := p.terms ++ SparseSum.shift p.numVariables q.terms) fun m => ?_, SparseSum.valueAt_append,
    SparseSum.valueAt_shift]
  · rfl
  · rw [(hp.directSum hq).2.2, SparseSum.coefficient_append]
    rfl

/-- Changing the constant shifts all values by the same amount. -/
theorem IsGroupOn.valueAt_setConstant (hp : p.IsGroupOn n) (k : Z8) (x : ℕ → Bool) :
    (p.setConstant k).valueAt x + p.coefficient [] = p.valueAt x + k := by
  have hsame : SparseSum.valueAt (([], p.coefficient []) :: (p.setConstant k).terms) x =
      SparseSum.valueAt (([], k) :: p.terms) x := by
    refine SparseSum.valueAt_congr (fun m => ?_) x
    have hset : SparseSum.coefficient (p.setConstant k).terms m = _ := (hp.setConstant k).2 m
    rw [SparseSum.coefficient_cons, SparseSum.coefficient_cons, hset]
    by_cases hm : m = []
    · subst hm
      rw [if_pos rfl, if_pos rfl, if_pos rfl, add_comm]
      rfl
    · rw [if_neg hm, if_neg (Ne.symm hm), if_neg (Ne.symm hm)]
      rfl
  rw [SparseSum.valueAt_cons, SparseSum.valueAt_cons, List.all_nil, if_pos rfl, if_pos rfl,
    add_comm, add_comm k] at hsame
  exact hsame

/-- The constant coefficient is what the stored byte stands for. -/
theorem IsConsistent.coefficient_nil (hp : p.IsConsistent) :
    p.coefficient [] = Z8.ofByte p.constant :=
  hp.coefficient_of_isTerm (Monomial.isTerm_nil _)

/-- One minus a polynomial, as the tables give it. -/
theorem IsGroupOn.complement (hp : p.IsGroupOn n) :
    ((-p).setConstant (Z8.ofByte (-p).constant + 1)).IsGroupOn n ∧
      ∀ x, ((-p).setConstant (Z8.ofByte (-p).constant + 1)).valueAt x = 1 - p.valueAt x := by
  obtain ⟨hneg, -⟩ := hp.neg
  obtain ⟨hset, -⟩ := hneg.setConstant (Z8.ofByte (-p).constant + 1)
  refine ⟨hset, fun x => ?_⟩
  have hshift := hneg.valueAt_setConstant (Z8.ofByte (-p).constant + 1) x
  rw [hneg.consistent.coefficient_nil, hp.consistent.valueAt_neg] at hshift
  refine add_right_cancel (b := Z8.ofByte (-p).constant) (hshift.trans ?_)
  ring

/-- The sum has the sums of the values. -/
theorem IsConsistent.valueAt_add? {r : PhasePolynomial} (hp : p.IsConsistent)
    (hq : q.IsConsistent) (hr : p.add? q = some r) (x : ℕ → Bool) :
    r.valueAt x = p.valueAt x + q.valueAt x := by
  have hn : p.numVariables = q.numVariables := by
    by_contra hne
    rw [add?, if_neg hne] at hr
    cases hr
  obtain ⟨-, -, -, -, hcoeff⟩ := Result.of_exists_some (hp.exists_add? hq hn) hr
  rw [valueAt_eq_of_coefficient (s := p.terms ++ q.terms) fun m => ?_, SparseSum.valueAt_append]
  · rfl
  · rw [hcoeff, SparseSum.coefficient_append]
    rfl

/-- **The values determine the coefficients.** -/
theorem IsConsistent.coefficient_eq_of_valueAt (hp : p.IsConsistent) (hq : q.IsConsistent)
    (h : ∀ x, p.valueAt x = q.valueAt x) (m : Monomial) : p.coefficient m = q.coefficient m :=
  SparseSum.coefficient_eq_of_valueAt (fun _ ha => (hp.mem_terms.mp ha).1.increasing)
    (fun _ ha => (hq.mem_terms.mp ha).1.increasing) h m

/-- The values of a group element determine the tables, up to the constants. -/
theorem IsGroupOn.eq_of_valueAt (hp : p.IsGroupOn n) (hq : q.IsGroupOn n)
    (hconst : p.constant = q.constant) (h : ∀ x, p.valueAt x = q.valueAt x) : p = q :=
  hp.ext hq hconst fun m _ => hp.consistent.coefficient_eq_of_valueAt hq.consistent h m

end PhasePolynomial

end AffinePhase
