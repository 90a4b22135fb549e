import AffinePhase.Polynomial.Arithmetic
import AffinePhase.Proofs.Polynomial.Arithmetic

/-!
# Substitution keeps the polynomials of group elements

Substituting polynomials of degree three for the variables of another one could give terms of
degree nine. For the polynomials of group elements it does not: while a term of degree `d` is
expanded, a monomial of degree `l` in the product of its coefficient and `j` substitutes carries a
coefficient divisible by `2^(d-1+l-j)`. Each further substitute adds at most as many variables as
it adds factors of two, up to one, and merging equal variables only lowers the degree. As `j` never
exceeds `d`, a coefficient of degree four or more vanishes modulo eight.

## Main definitions

* `SparseSum.IsExpanded`: the invariant of the expansion of a term.
* `PhasePolynomial.substitutedValue`: the value of a polynomial at values of its variables.

## Main results

* `SparseSum.IsExpanded.exists_expandTerm?`: a term is expanded exactly and keeps the invariant.
* `PhasePolynomial.IsGroupOn.exists_evaluate`: substitution never overflows, is exact, and gives the
  polynomial of a group element again.
* `PhasePolynomial.evaluate_stays_in_group`: the same, with all intermediate products.
-/

open scoped Fin.CommRing

namespace AffinePhase

variable {n a j : ℕ} {m : Monomial} {k : Z8}

/-- A product of monomials is increasing if the second is. -/
theorem Monomial.pairwise_union {m' : Monomial} (h : m'.Pairwise (· < ·)) :
    (m.union m').Pairwise (· < ·) := by
  induction m with
  | nil => exact h
  | cons i m ih => exact pairwise_insert ih

/-- One more variable raises the degree by one at most. -/
theorem Monomial.length_insert_le (i : ℕ) (m : Monomial) :
    (Monomial.insert i m).length ≤ m.length + 1 := by
  induction m with
  | nil => exact le_rfl
  | cons j m ih =>
      rw [Monomial.insert]
      split
      · exact le_rfl
      · split
        · exact Nat.le_succ _
        · exact Nat.succ_le_succ ih

/-- Equal variables merge: the degree of a product is at most the sum of the degrees. -/
theorem Monomial.length_union_le (m m' : Monomial) :
    (m.union m').length ≤ m.length + m'.length := by
  induction m with
  | nil => exact (Nat.zero_add _).ge
  | cons i m ih =>
      have hinsert := length_insert_le i (Monomial.union m m')
      have hstep : Monomial.union (i :: m) m' = Monomial.insert i (Monomial.union m m') := rfl
      rw [hstep, List.length_cons]
      omega

/-- One more factor of a product: the product that has vanished is not continued. -/
theorem PhasePolynomial.expandTerm?_cons {factors : List SparseSum} {s : SparseSum} {i : ℕ}
    (hi : i < factors.length) (m : Monomial) :
    expandTerm? factors s (i :: m) = if (s.mul factors[i]).isEmpty then some [] else
      expandTerm? factors (s.mul factors[i]) m := by
  rw [expandTerm?, List.getElem?_eq_getElem hi]
  rfl

/-- **A term is expanded** without an error and exactly: the product has the product of the values.
What holds of the first product and is kept by one more factor holds of the last one, where `j` is
the number of factors so far. -/
theorem PhasePolynomial.exists_expandTerm?_of {factors : List SparseSum}
    {I : ℕ → SparseSum → Prop} (hnil : ∀ j, I j [])
    (hmul : ∀ j s, I j s → ∀ t ∈ factors, I (j + 1) (s.mul t)) (hm : ∀ i ∈ m, i < factors.length)
    {s : SparseSum} (h : I j s) :
    ∃ r, expandTerm? factors s m = some r ∧ I (j + m.length) r ∧ ∀ x, SparseSum.valueAt r x =
      SparseSum.valueAt s x * (m.map fun i => SparseSum.valueAt (factors.getD i []) x).prod := by
  induction m generalizing s j with
  | nil => exact ⟨s, rfl, h, fun x => (mul_one _).symm⟩
  | cons i m ih =>
      obtain ⟨hi, hm⟩ := List.forall_mem_cons.mp hm
      have hvalue : factors.getD i [] = factors[i] := by
        rw [List.getD_eq_getElem?_getD, List.getElem?_eq_getElem hi, Option.getD_some]
      obtain ⟨r, hr, hI, hr'⟩ := ih hm (hmul j s h factors[i] (List.getElem_mem hi))
      rw [expandTerm?_cons hi]
      by_cases hempty : (s.mul factors[i]).isEmpty = true
      · refine ⟨[], if_pos hempty, hnil _, fun x => ?_⟩
        have hzero : SparseSum.valueAt s x * SparseSum.valueAt factors[i] x = 0 := by
          rw [← SparseSum.valueAt_mul, List.isEmpty_iff.mp hempty, SparseSum.valueAt_nil]
        rw [SparseSum.valueAt_nil, List.map_cons, List.prod_cons, hvalue, ← mul_assoc, hzero,
          zero_mul]
      · refine ⟨r, (if_neg hempty).trans hr, ?_, fun x => ?_⟩
        · rwa [List.length_cons, Nat.add_comm m.length 1, ← Nat.add_assoc]
        · rw [hr', SparseSum.valueAt_mul, List.map_cons, List.prod_cons, hvalue, mul_assoc]

namespace SparseSum

variable {s t : SparseSum}

/-- The product of a coefficient divisible by `2^a` and of `j` polynomials of group elements: a
monomial of degree `l` has a coefficient divisible by `2^(a+l-j)`. -/
structure IsExpanded (s : SparseSum) (n a j : ℕ) : Prop where
  /-- The indices increase. -/
  increasing : ∀ b ∈ s, b.1.Pairwise (· < ·)
  /-- The indices are below `n`. -/
  below : ∀ b ∈ s, ∀ i ∈ b.1, i < n
  /-- The coefficients are divisible by their power of two. -/
  divisible : ∀ b ∈ s, (2 : Z8) ^ (a + b.1.length - j) ∣ b.2
  /-- No coefficient vanishes. -/
  nonzero : ∀ b ∈ s, b.2 ≠ 0

theorem isExpanded_nil (n a j : ℕ) : IsExpanded [] n a j :=
  ⟨List.forall_mem_nil _, List.forall_mem_nil _, List.forall_mem_nil _, List.forall_mem_nil _⟩

/-- At the start there is the coefficient alone. -/
theorem isExpanded_start (n : ℕ) (hk : (2 : Z8) ^ a ∣ k) (hne : k ≠ 0) :
    IsExpanded [([], k)] n a 0 where
  increasing := List.forall_mem_singleton.mpr .nil
  below := List.forall_mem_singleton.mpr (List.forall_mem_nil _)
  divisible := List.forall_mem_singleton.mpr hk
  nonzero := List.forall_mem_singleton.mpr hne

/-- **One more factor** keeps the invariant: it adds at most `l` variables and at least `l - 1`
factors of two. -/
theorem IsExpanded.mul (h : IsExpanded s n a j) (ht : ∀ b ∈ t, b.1.IsTerm n ∧ Graded b.1 b.2) :
    IsExpanded (s.mul t) n a (j + 1) := by
  have hall : ∀ c ∈ s.mul t, (c.1.Pairwise (· < ·) ∧ (∀ i ∈ c.1, i < n) ∧
      (2 : Z8) ^ (a + c.1.length - (j + 1)) ∣ c.2) ∧ c.2 ≠ 0 := by
    refine forall_mem_mul (P := fun m k => (m.Pairwise (· < ·) ∧ (∀ i ∈ m, i < n) ∧
      (2 : Z8) ^ (a + m.length - (j + 1)) ∣ k) ∧ k ≠ 0) ?_ ?_
    · rintro m k k' ⟨⟨hm, hn, hk⟩, -⟩ ⟨⟨-, -, hk'⟩, -⟩ hne
      exact ⟨⟨hm, hn, dvd_add hk hk'⟩, hne⟩
    · intro b hb c hc hne
      obtain ⟨hterm, hgraded⟩ := ht c hc
      refine ⟨⟨Monomial.pairwise_union hterm.increasing, fun i hi => ?_, ?_⟩, hne⟩
      · exact (Monomial.mem_union.mp hi).elim (h.below b hb i) (hterm.below i)
      · have hexponent : a + (b.1.union c.1).length - (j + 1) ≤
            (a + b.1.length - j) + (c.1.length - 1) := by
          have := Monomial.length_union_le b.1 c.1
          omega
        refine (pow_dvd_pow (2 : Z8) hexponent).trans ?_
        rw [pow_add]
        exact mul_dvd_mul (h.divisible b hb) hgraded
  exact ⟨fun c hc => (hall c hc).1.1, fun c hc => (hall c hc).1.2.1,
    fun c hc => (hall c hc).1.2.2, fun c hc => (hall c hc).2⟩

/-- As long as there are at most `a + 1` factors, the product has the terms of a group element. -/
theorem IsExpanded.isTerm (h : IsExpanded s n a j) (hj : j ≤ a + 1) {b : Monomial × Z8}
    (hb : b ∈ s) : b.1.IsTerm n ∧ Graded b.1 b.2 := by
  have hgraded : Graded b.1 b.2 :=
    (pow_dvd_pow (2 : Z8) (by omega)).trans (h.divisible b hb)
  exact ⟨⟨h.increasing b hb, h.below b hb, hgraded.length_le (h.nonzero b hb)⟩, hgraded⟩

/-- **A term is expanded** exactly and with the invariant. -/
theorem IsExpanded.exists_expandTerm? {substitutes : List SparseSum}
    (hsub : ∀ t ∈ substitutes, ∀ b ∈ t, b.1.IsTerm n ∧ Graded b.1 b.2) (m : Monomial)
    (hm : ∀ i ∈ m, i < substitutes.length) (h : IsExpanded s n a j) :
    ∃ r, PhasePolynomial.expandTerm? substitutes s m = some r ∧ IsExpanded r n a (j + m.length) ∧
      ∀ x, valueAt r x =
        valueAt s x * (m.map fun i => valueAt (substitutes.getD i []) x).prod :=
  PhasePolynomial.exists_expandTerm?_of (I := fun j s => IsExpanded s n a j) (isExpanded_nil n a)
    (fun _ _ h t ht => h.mul (hsub t ht)) hm h

end SparseSum

namespace PhasePolynomial

variable {p : PhasePolynomial} {substitutes : List PhasePolynomial} {N : ℕ}

/-- The product that has vanished stays empty whatever factors follow. -/
theorem expandTerm?_nil {factors : List SparseSum} (hm : ∀ i ∈ m, i < factors.length) :
    expandTerm? factors [] m = some [] := by
  cases m with
  | nil => rfl
  | cons i m =>
      have hi : i < factors.length := hm i List.mem_cons_self
      have hzero : SparseSum.mul [] factors[i] = [] := by
        have hempty : ∀ t : SparseSum, t.flatMap (SparseSum.mulTerm []) = [] := by
          intro t
          exact List.flatMap_eq_nil_iff.mpr fun _ _ => rfl
        rw [SparseSum.mul, hempty]
        rfl
      rw [expandTerm?_cons hi, hzero]
      rfl

/-- The expansion of a monomial passes through the expansions of its prefixes. -/
theorem expandTerm?_append {factors : List SparseSum} {s : SparseSum} {done rest : Monomial}
    (hdone : ∀ i ∈ done, i < factors.length) (hrest : ∀ i ∈ rest, i < factors.length) :
    expandTerm? factors s (done ++ rest) =
      (expandTerm? factors s done).bind fun product => expandTerm? factors product rest := by
  induction done generalizing s with
  | nil => rfl
  | cons i done ih =>
      obtain ⟨hi, hdone⟩ := List.forall_mem_cons.mp hdone
      rw [List.cons_append, expandTerm?_cons hi, expandTerm?_cons hi]
      by_cases hempty : (s.mul factors[i]).isEmpty = true
      · rw [if_pos hempty, if_pos hempty, Option.bind_some, expandTerm?_nil hrest]
      · rw [if_neg hempty, if_neg hempty, ih hdone]

/-- The value of a polynomial when its variables have given values. -/
def substitutedValue (p : PhasePolynomial) (y : ℕ → Z8) : Z8 :=
  (p.terms.map fun t => t.2 * (t.1.map y).prod).sum

/-- At boolean values this is the value at a boolean point. -/
theorem substitutedValue_bool (p : PhasePolynomial) (y : ℕ → Bool) :
    (p.substitutedValue fun i => if y i then 1 else 0) = p.valueAt y := by
  have hprod : ∀ m : Monomial, (m.map fun i => if y i then (1 : Z8) else 0).prod =
      if m.all y then 1 else 0 := by
    intro m
    induction m with
    | nil => rfl
    | cons i m ih =>
        rw [List.map_cons, List.prod_cons, ih, List.all_cons]
        cases y i <;> simp
  rw [substitutedValue, valueAt, SparseSum.valueAt]
  refine congrArg List.sum (List.map_congr_left fun t _ => ?_)
  rw [hprod, mul_ite, mul_one, mul_zero]

/-- **All terms are expanded** if each of them is, and the values add up to that of the polynomial
at the values of the factors. -/
theorem exists_expand?_of {factors : List SparseSum} {P : Monomial × Z8 → Prop}
    (h : ∀ t ∈ p.terms, ∃ r, expandTerm? factors [([], t.2)] t.1 = some r ∧ (∀ b ∈ r, P b) ∧
      ∀ x, SparseSum.valueAt r x =
        t.2 * (t.1.map fun i => SparseSum.valueAt (factors.getD i []) x).prod) :
    ∃ s : SparseSum, p.expand? factors = some s.collect ∧ (∀ b ∈ s, P b) ∧
      ∀ x, SparseSum.valueAt s x =
        p.substitutedValue fun i => SparseSum.valueAt (factors.getD i []) x := by
  obtain ⟨expanded, hmap, hall⟩ := Result.mapM_of_forall (m := Option) (l := p.terms)
    (f := fun t => expandTerm? factors [([], t.2)] t.1) h
  have hexpand : p.expand? factors = some (SparseSum.collect expanded.flatten) := by
    rw [expand?, hmap]
    rfl
  refine ⟨expanded.flatten, hexpand, ?_⟩
  clear hmap hexpand
  unfold substitutedValue
  generalize p.terms = l at hall ⊢
  induction hall with
  | nil => exact ⟨List.forall_mem_nil _, fun x => rfl⟩
  | cons hfirst _ ih =>
      obtain ⟨hmem, hvalue⟩ := hfirst
      refine ⟨fun b hb => ?_, fun x => ?_⟩
      · rw [List.flatten_cons, List.mem_append] at hb
        exact hb.elim (hmem b) (ih.1 b)
      · rw [List.flatten_cons, SparseSum.valueAt_append, hvalue, ih.2, List.map_cons, List.sum_cons]

/-- The outcome of a substitution is decided by the expanded sum. -/
theorem evaluate_eq (hlength : substitutes.length = p.numVariables)
    (hsizes : ∀ q ∈ substitutes, q.numVariables = p.commonVariables substitutes) {s : SparseSum}
    (hs : p.expand? (substitutes.map terms) = some s) :
    p.evaluate substitutes = match s.find? fun b => maxDegree < b.1.length with
      | some b => .error (.degreeOverflow b.1.length b.2)
      | none => .ok ((zero (p.commonVariables substitutes)).addTerms s) := by
  have hforM : (substitutes.forM fun q =>
      Result.sameSize (p.commonVariables substitutes) q.numVariables) = .ok () :=
    Result.forM_of_forall fun q hq => Result.sameSize_eq_ok.mpr (hsizes q hq).symm
  rw [evaluate, Result.sameSize_eq_ok.mpr hlength.symm, hs]
  simp only [Result.ok_bind, Result.ofOption_some, hforM]
  cases s.find? fun b => maxDegree < b.1.length <;> rfl

section Evaluate

variable (hp : p.IsGroupOn n) (hlength : substitutes.length = n)
  (hsub : ∀ q ∈ substitutes, q.IsGroupOn N)

include hsub

/-- The terms of the substitutes are those of group elements. -/
theorem terms_of_substitutes :
    ∀ t ∈ substitutes.map terms, ∀ b ∈ t, b.1.IsTerm N ∧ Graded b.1 b.2 := by
  intro t ht b hb
  obtain ⟨q, hq, rfl⟩ := List.mem_map.mp ht
  obtain ⟨hterm, hgraded, -⟩ := (hsub q hq).of_mem_terms hb
  exact ⟨hterm, hgraded⟩

include hp hlength

/-- Every term of the polynomial is expanded, also if only some of its variables are replaced. -/
theorem IsGroupOn.exists_expandTerm? {t : Monomial × Z8} (ht : t ∈ p.terms) {done : Monomial}
    (hdone : done <+: t.1) :
    ∃ r, expandTerm? (substitutes.map terms) [([], t.2)] done = some r ∧
      (∀ b ∈ r, b.1.IsTerm N ∧ Graded b.1 b.2) ∧ ∀ x, SparseSum.valueAt r x =
        t.2 * (done.map fun i => SparseSum.valueAt ((substitutes.map terms).getD i []) x).prod := by
  obtain ⟨hterm, hgraded, hne⟩ := hp.of_mem_terms ht
  have hbelow : ∀ i ∈ done, i < (substitutes.map terms).length := by
    rw [List.length_map, hlength]
    exact fun i hi => hterm.below i (hdone.subset hi)
  obtain ⟨r, hr, hexpanded, hvalue⟩ := (SparseSum.isExpanded_start N hgraded hne).exists_expandTerm?
    (terms_of_substitutes hsub) done hbelow
  have hfactors : 0 + done.length ≤ t.1.length - 1 + 1 := by
    have := hdone.length_le
    omega
  refine ⟨r, hr, fun b hb => hexpanded.isTerm hfactors hb, fun x => ?_⟩
  rw [hvalue, SparseSum.valueAt_cons, List.all_nil, if_pos rfl, SparseSum.valueAt_nil, add_zero]

/-- The expansion of all terms. -/
theorem IsGroupOn.exists_expand? :
    ∃ s, p.expand? (substitutes.map terms) = some s ∧
      (∀ b ∈ s, b.1.IsTerm N ∧ Graded b.1 b.2) ∧ ∀ x, SparseSum.valueAt s x =
        p.substitutedValue fun i => SparseSum.valueAt ((substitutes.map terms).getD i []) x := by
  obtain ⟨s, hexpand, hterms, hvalue⟩ := exists_expand?_of (p := p)
    (P := fun b => b.1.IsTerm N ∧ Graded b.1 b.2)
    fun t ht => hp.exists_expandTerm? hlength hsub ht (List.prefix_refl t.1)
  refine ⟨s.collect, hexpand, ?_, fun x => ?_⟩
  · refine SparseSum.forall_mem_collect (P := fun m k => m.IsTerm N ∧ Graded m k) ?_ ?_
    · exact fun m k k' h h' _ => ⟨h.1, h.2.add h'.2⟩
    · exact fun b hb _ => hterms b hb
  · rw [SparseSum.valueAt_collect]
    exact hvalue x

/-- **Substitution is exact and stays among the polynomials of group elements.** The result has
the values of `p` at the values of the substitutes. -/
theorem IsGroupOn.exists_evaluate (hN : p.commonVariables substitutes = N) :
    ∃ r, p.evaluate substitutes = .ok r ∧ r.IsGroupOn N ∧ ∀ x, r.valueAt x =
      p.substitutedValue fun i => SparseSum.valueAt ((substitutes.map terms).getD i []) x := by
  obtain ⟨s, hexpand, hterms, hvalue⟩ := hp.exists_expand? hlength hsub
  have hlow : s.find? (fun b => maxDegree < b.1.length) = none := by
    refine List.find?_eq_none.mpr fun b hb => ?_
    exact fun hhigh => absurd (of_decide_eq_true hhigh) (Nat.not_lt.mpr (hterms b hb).1.degree)
  have hsizes : ∀ q ∈ substitutes, q.numVariables = p.commonVariables substitutes :=
    fun q hq => (hsub q hq).numVariables.trans hN.symm
  obtain ⟨hgroup, -⟩ := (isGroupOn_zero N).addTerms hterms
  refine ⟨(zero N).addTerms s, ?_, hgroup, fun x => ?_⟩
  · rw [evaluate_eq (hlength.trans hp.numVariables.symm) hsizes hexpand, hlow, hN]
  · rw [(isGroupOn_zero N).valueAt_addTerms hterms, valueAt_zero, zero_add, hvalue]

end Evaluate

/-- **Substitution stays inside the polynomials of group elements.** With any constants, if the
other coefficients of a polynomial and of its substitutes are those of group elements, then the
substitution succeeds, its result is such a polynomial, and while a term `k · m` is expanded, the
product that is reached after any part `done` of its variables, and from which the expansion goes
on with the `rest`, has no monomial of more than three variables. -/
theorem evaluate_stays_in_group (hp : p.IsConsistent) (hpc : p.HasGroupCoefficients)
    (hlength : substitutes.length = p.numVariables)
    (hsub : ∀ q ∈ substitutes, q.numVariables = N ∧ q.IsConsistent ∧ q.HasGroupCoefficients) :
    (∃ r, p.evaluate substitutes = .ok r ∧ r.numVariables = p.commonVariables substitutes ∧
      r.IsConsistent ∧ r.HasGroupCoefficients) ∧
    ∀ m k, (m, k) ∈ p.terms → ∀ done rest, m = done ++ rest →
      ∃ product, expandTerm? (substitutes.map terms) [([], k)] done = some product ∧
        expandTerm? (substitutes.map terms) [([], k)] m =
          expandTerm? (substitutes.map terms) product rest ∧
        ∀ b ∈ product, b.1.length ≤ maxDegree := by
  have hgroup : p.IsGroupOn p.numVariables := ⟨rfl, hp, hpc⟩
  have hsub' : ∀ q ∈ substitutes, q.IsGroupOn (p.commonVariables substitutes) := by
    intro q hq
    obtain ⟨first, others, rfl⟩ := List.exists_cons_of_ne_nil (List.ne_nil_of_mem hq)
    obtain ⟨hN, hcons, hcoeff⟩ := hsub q hq
    exact ⟨hN.trans (hsub first List.mem_cons_self).1.symm, hcons, hcoeff⟩
  constructor
  · obtain ⟨r, hr, ⟨hn, hcons, hcoeff⟩, -⟩ := hgroup.exists_evaluate hlength hsub' rfl
    exact ⟨r, hr, hn, hcons, hcoeff⟩
  · rintro m k hmem done rest rfl
    obtain ⟨product, hproduct, hterms, -⟩ :=
      hgroup.exists_expandTerm? hlength hsub' hmem (List.prefix_append done rest)
    have hbelow : ∀ i ∈ done ++ rest, i < (substitutes.map terms).length := by
      rw [List.length_map, hlength]
      exact (hgroup.of_mem_terms hmem).1.below
    refine ⟨product, hproduct, ?_, fun b hb => (hterms b hb).1.degree⟩
    rw [expandTerm?_append (fun i hi => hbelow i (List.mem_append_left rest hi))
      fun i hi => hbelow i (List.mem_append_right done hi), hproduct, Option.bind_some]

/-- The substitutes `x₀ + x₁ + 6x₀x₁ + 1`, `x₂` and `3x₀ + 4x₀x₁x₂` in a polynomial with a cubic
term. -/
theorem evaluate_stays_in_group_of_cubic :
    ∃ r, evaluate ⟨3, 9, #[1, 0, 3], #[2, 0, 6], #[4]⟩
        [⟨3, 1, #[1, 1, 0], #[6, 0, 0], #[0]⟩, ⟨3, 0, #[0, 0, 1], #[0, 0, 0], #[0]⟩,
          ⟨3, 0, #[3, 0, 0], #[0, 0, 0], #[4]⟩] = .ok r ∧ r.numVariables = 3 ∧
      r.IsConsistent ∧ r.HasGroupCoefficients :=
  (@evaluate_stays_in_group ⟨3, 9, #[1, 0, 3], #[2, 0, 6], #[4]⟩
    [⟨3, 1, #[1, 1, 0], #[6, 0, 0], #[0]⟩, ⟨3, 0, #[0, 0, 1], #[0, 0, 0], #[0]⟩,
      ⟨3, 0, #[3, 0, 0], #[0, 0, 0], #[4]⟩] 3
    (by decide +kernel) (by decide +kernel) (by decide +kernel) (by decide +kernel)).1

end PhasePolynomial

end AffinePhase
