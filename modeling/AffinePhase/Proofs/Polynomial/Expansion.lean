import AffinePhase.Proofs.Polynomial.Parity
import AffinePhase.Proofs.Polynomial.Substitution

/-!
# Substitution is exact

A function of boolean points with residues as its values is a sum of products of variables in one
way only. Substituting polynomials of degree three, with any coefficients, for the variables of
another one gives the function that has the values of the polynomial at the values of the
substitutes, and the expanded sum in normal form lists the coefficients of that function. So the
outcome of a substitution depends on this function alone: what cancels between the terms of the
polynomial plays no role, the result exists exactly if no product of more than three variables is
left, and otherwise the least of these products in lexicographic order is reported.

## Main definitions

* `IsExpansion`: the coefficients of a function of boolean points.
* `PhasePolynomial.substitutedAt`: the value at the values of the substitutes.
* `IsFirstHigh`: the first product of more than three variables.

## Main results

* `IsExpansion.unique`: a function has at most one expansion.
* `SparseSum.isExpansion`: the coefficients of a sum of terms are the expansion of its values.
* `PhasePolynomial.IsConsistent.exists_expand?`: the expanded sum is exact.
* `PhasePolynomial.evaluate_is_exact`: the outcome of a substitution by the expansion.
-/

open scoped Fin.CommRing

namespace AffinePhase

variable {n N : ℕ} {m : Monomial}

/-- The product of two increasing lists of variables. -/
theorem Monomial.IsSupport.union {m' : Monomial} (h : Monomial.IsSupport m n)
    (h' : Monomial.IsSupport m' n) : Monomial.IsSupport (m.union m') n :=
  ⟨Monomial.pairwise_union h'.increasing, fun i hi =>
    (Monomial.mem_union.mp hi).elim (h.below i) (h'.below i)⟩

/-- A set of at most three variables is a term. -/
theorem Monomial.IsSupport.isTerm_of_length (h : Monomial.IsSupport m n) (hm : m.length ≤ 3) :
    m.IsTerm n :=
  ⟨h.increasing, h.below, hm⟩

/-- The products of the first `n` variables. -/
theorem Monomial.mem_sublists_range :
    m ∈ (List.range n).sublists ↔ Monomial.IsSupport m n := by
  rw [List.mem_sublists, sublist_range_iff]
  exact ⟨fun h => ⟨h.1, h.2⟩, fun h => ⟨h.increasing, h.below⟩⟩

/-! ### Expansions -/

/-- The coefficients of a function of `n` boolean variables: its value at a point is the sum of the
coefficients of the products of variables that are all true there. -/
structure IsExpansion (f : (ℕ → Bool) → Z8) (n : ℕ) (c : Monomial → Z8) : Prop where
  /-- Only increasing lists of the variables have coefficients. -/
  support : ∀ m, c m ≠ 0 → Monomial.IsSupport m n
  /-- The values are sums of coefficients. -/
  value : ∀ x, f x = ((List.range n).sublists.map fun m => if m.all x then c m else 0).sum

/-- The expansion as a sum of terms. -/
def expansionTerms (n : ℕ) (c : Monomial → Z8) : SparseSum :=
  (List.range n).sublists.map fun m => (m, c m)

/-- The listed terms of an expansion have its values. -/
theorem IsExpansion.valueAt_eq {f : (ℕ → Bool) → Z8} {c : Monomial → Z8} (h : IsExpansion f n c)
    (x : ℕ → Bool) : SparseSum.valueAt (expansionTerms n c) x = f x := by
  rw [h.value, SparseSum.valueAt, expansionTerms, List.map_map]
  rfl

/-- The listed terms of an expansion have its coefficients. -/
theorem coefficient_expansionTerms {c : Monomial → Z8}
    (h : ∀ m, c m ≠ 0 → Monomial.IsSupport m n) (m : Monomial) :
    SparseSum.coefficient (expansionTerms n c) m = c m := by
  have hnodup := List.nodup_sublists.mpr (List.nodup_range (n := n))
  rw [expansionTerms, SparseSum.coefficient_map hnodup, ite_eq_left_iff]
  intro hm
  by_contra hne
  exact hm (Monomial.mem_sublists_range.mpr (h m (Ne.symm hne)))

/-- The listed monomials are increasing. -/
theorem pairwise_of_mem_expansionTerms {c : Monomial → Z8} :
    ∀ a ∈ expansionTerms n c, a.1.Pairwise (· < ·) := by
  intro a ha
  obtain ⟨m, hm, rfl⟩ := List.mem_map.mp ha
  exact (Monomial.mem_sublists_range.mp hm).increasing

/-- **A function has at most one expansion.** -/
theorem IsExpansion.unique {f : (ℕ → Bool) → Z8} {c c' : Monomial → Z8} (h : IsExpansion f n c)
    (h' : IsExpansion f n c') : c = c' := by
  funext m
  rw [← coefficient_expansionTerms h.support, ← coefficient_expansionTerms h'.support]
  refine SparseSum.coefficient_eq_of_valueAt pairwise_of_mem_expansionTerms
    pairwise_of_mem_expansionTerms (fun x => ?_) m
  rw [h.valueAt_eq, h'.valueAt_eq]

/-- The coefficients of a sum of terms are the expansion of its values. -/
theorem SparseSum.isExpansion {s : SparseSum} (hs : ∀ a ∈ s, Monomial.IsSupport a.1 n) :
    IsExpansion (valueAt s) n (coefficient s) := by
  have hsupport : ∀ m, coefficient s m ≠ 0 → Monomial.IsSupport m n := by
    intro m hm
    by_contra hout
    exact hm (coefficient_of_not_mem fun a ha heq => hout (heq ▸ hs a ha))
  refine ⟨hsupport, fun x => ?_⟩
  rw [valueAt_congr (fun m => (coefficient_expansionTerms hsupport m).symm) x, valueAt,
    expansionTerms, List.map_map]
  rfl

/-- The first product of more than three variables with a coefficient, in lexicographic order. -/
def IsFirstHigh (c : Monomial → Z8) (m : Monomial) : Prop :=
  PhasePolynomial.maxDegree < m.length ∧ c m ≠ 0 ∧
    ∀ m', PhasePolynomial.maxDegree < m'.length → c m' ≠ 0 → m' ≠ m → m < m'

/-- The first term of too high degree in a normal form is the first one of its expansion. -/
theorem SparseSum.IsNormal.isFirstHigh {s : SparseSum} (h : s.IsNormal) {b : Monomial × Z8}
    (hfind : s.find? (fun b => PhasePolynomial.maxDegree < b.1.length) = some b) :
    IsFirstHigh (coefficient s) b.1 ∧ coefficient s b.1 = b.2 := by
  obtain ⟨hmem, hhigh, hfirst⟩ := h.find?_eq_some hfind
  obtain ⟨hcoeff, hne⟩ := h.mem_iff.mp hmem
  refine ⟨⟨of_decide_eq_true hhigh, hcoeff ▸ hne, fun m' hm' hc' hm'ne => ?_⟩, hcoeff⟩
  have hmem' : (m', coefficient s m') ∈ s := h.mem_iff.mpr ⟨rfl, hc'⟩
  exact hfirst _ hmem' (decide_eq_true hm') fun heq => hm'ne (congrArg Prod.fst heq)

namespace PhasePolynomial

variable {p : PhasePolynomial} {substitutes : List PhasePolynomial}

/-! ### The values of the substitutes -/

/-- The value of a polynomial at the values that its substitutes have at a point: the sum over its
monomials of the stored coefficient times the values of the substitutes of the variables. -/
def substitutedAt (p : PhasePolynomial) (substitutes : List PhasePolynomial) (x : ℕ → Bool) : Z8 :=
  ((monomials p.numVariables).map fun m => Z8.ofByte (p.stored m) *
    (m.map fun i => (substitutes.map fun q => q.valueAt x).getD i 0).prod).sum

/-- Monomials without a coefficient add nothing. -/
theorem IsConsistent.substitutedValue_eq (hp : p.IsConsistent) (y : ℕ → Z8) :
    p.substitutedValue y =
      ((monomials p.numVariables).map fun m => Z8.ofByte (p.stored m) * (m.map y).prod).sum := by
  rw [substitutedValue, terms, hp.weights_eq, List.map_map]
  induction monomials p.numVariables with
  | nil => rfl
  | cons m l ih =>
      rw [List.map_cons, List.map_cons, List.sum_cons, ← ih]
      by_cases hzero : Z8.ofByte (p.stored m) = 0
      · rw [List.filter_cons_of_neg (by simpa using hzero), hzero, zero_mul, zero_add]
      · rw [List.filter_cons_of_pos (by simpa using hzero), List.map_cons, List.sum_cons]
        rfl

/-- The value at the values of the substitutes, term by term. -/
theorem IsConsistent.substitutedAt_eq (hp : p.IsConsistent) (x : ℕ → Bool) :
    p.substitutedAt substitutes x =
      p.substitutedValue fun i => SparseSum.valueAt ((substitutes.map terms).getD i []) x := by
  have hvalue : ∀ i, SparseSum.valueAt ((substitutes.map terms).getD i []) x =
      (substitutes.map fun q => q.valueAt x).getD i 0 := by
    intro i
    rw [List.getD_eq_getElem?_getD, List.getD_eq_getElem?_getD, List.getElem?_map,
      List.getElem?_map]
    cases substitutes[i]? <;> rfl
  rw [hp.substitutedValue_eq, substitutedAt]
  simp only [hvalue]

/-! ### The outcome -/

/-- The terms of consistent tables are products of the variables. -/
theorem IsConsistent.isSupport_of_mem_terms (hp : p.IsConsistent) {a : Monomial × Z8}
    (ha : a ∈ p.terms) : Monomial.IsSupport a.1 p.numVariables := by
  obtain ⟨hm, -, -⟩ := hp.mem_terms.mp ha
  exact ⟨hm.increasing, hm.below⟩

/-- Terms of degree at most three are stored as residues, and with their values. -/
theorem addTerms_zero {s : SparseSum} (hs : ∀ a ∈ s, a.1.IsTerm N) :
    ((zero N).addTerms s).numVariables = N ∧ ((zero N).addTerms s).IsConsistent ∧
      ((zero N).addTerms s).IsReduced ∧
      ∀ x, ((zero N).addTerms s).valueAt x = SparseSum.valueAt s x := by
  have hzero := (isGroupOn_zero N).consistent
  obtain ⟨hn, hcons, -⟩ := hzero.addTerms hs
  refine ⟨hn, hcons, (isReduced_zero N).addTerms fun a ha => (hs a ha).degree, fun x => ?_⟩
  rw [hzero.valueAt_addTerms hs, valueAt_zero, zero_add]

section Evaluate

variable (hp : p.IsConsistent) (hlength : substitutes.length = p.numVariables)
  (hsub : ∀ q ∈ substitutes, q.IsConsistent ∧ q.numVariables = N)

include hp hlength hsub

/-- **The expanded sum is exact**: its coefficients are the expansion of the function that has the
values of the polynomial at the values of the substitutes. -/
theorem IsConsistent.exists_expand? :
    ∃ s : SparseSum, p.expand? (substitutes.map terms) = some s ∧ s.IsNormal ∧
      (∀ a ∈ s, Monomial.IsSupport a.1 N) ∧
      (∀ x, SparseSum.valueAt s x = p.substitutedAt substitutes x) := by
  have hfactors : ∀ t ∈ substitutes.map terms, ∀ b ∈ t, Monomial.IsSupport b.1 N := by
    intro t ht b hb
    obtain ⟨q, hq, rfl⟩ := List.mem_map.mp ht
    exact (hsub q hq).2 ▸ (hsub q hq).1.isSupport_of_mem_terms hb
  have hterm : ∀ t ∈ p.terms, ∃ r, expandTerm? (substitutes.map terms) [([], t.2)] t.1 = some r ∧
      (∀ b ∈ r, Monomial.IsSupport b.1 N) ∧ ∀ x, SparseSum.valueAt r x =
        t.2 * (t.1.map fun i =>
          SparseSum.valueAt ((substitutes.map terms).getD i []) x).prod := by
    intro t ht
    have hbelow : ∀ i ∈ t.1, i < (substitutes.map terms).length := by
      rw [List.length_map, hlength]
      exact (hp.isSupport_of_mem_terms ht).below
    -- the number of factors plays no role here
    obtain ⟨r, hr, hsupport, hvalue⟩ := exists_expandTerm?_of (j := 0)
      (I := fun _ s => ∀ b ∈ s, Monomial.IsSupport b.1 N) (fun _ => List.forall_mem_nil _)
      (fun _ s hs u hu => SparseSum.forall_mem_mul (P := fun m _ => Monomial.IsSupport m N)
        (fun _ _ _ h _ _ => h) fun a ha b hb _ => (hs a ha).union (hfactors u hu b hb))
      hbelow (s := [([], t.2)])
      (List.forall_mem_singleton.mpr ⟨.nil, List.forall_mem_nil _⟩)
    refine ⟨r, hr, hsupport, fun x => ?_⟩
    rw [hvalue, SparseSum.valueAt_cons, List.all_nil, if_pos rfl, SparseSum.valueAt_nil, add_zero]
  obtain ⟨s, hexpand, hsupport, hvalue⟩ := exists_expand?_of (p := p)
    (P := fun b => Monomial.IsSupport b.1 N) hterm
  refine ⟨s.collect, hexpand, SparseSum.isNormal_collect s, ?_, fun x => ?_⟩
  · exact SparseSum.forall_mem_collect (P := fun m _ => Monomial.IsSupport m N)
      (fun _ _ _ h _ _ => h) fun b hb _ => hsupport b hb
  · rw [SparseSum.valueAt_collect, hvalue, hp.substitutedAt_eq]

/-- **Substitution is exact.** With any bytes as coefficients, let `F` be the function that takes at
a boolean point the value of the polynomial at the values of its substitutes. It has one expansion
into products of variables. The substitution succeeds exactly if no product of more than three
variables has a coefficient there; its result then stores residues only and takes the values of
`F`. Otherwise the first such product in lexicographic order is reported, with its degree and its
coefficient. -/
theorem evaluate_is_exact (hN : substitutes = [] → N = 0) :
    ∃ c : Monomial → Z8,
      (∀ c', IsExpansion (p.substitutedAt substitutes) N c' ↔ c' = c) ∧
      (∀ point : List Bool, point.length = N → ∀ q ∈ substitutes,
        q.evaluateAt point = .ok (q.valueAt fun i => point[i]?.getD false)) ∧
      ((∃ r, p.evaluate substitutes = .ok r) ↔ ∀ m : Monomial, maxDegree < m.length → c m = 0) ∧
      (∀ r, p.evaluate substitutes = .ok r →
        r.numVariables = N ∧ r.IsConsistent ∧ r.IsReduced ∧
        ∀ point : List Bool, point.length = N → r.evaluateAt point =
          .ok (p.substitutedAt substitutes fun i => point[i]?.getD false)) ∧
      ∀ failure, p.evaluate substitutes = .error failure →
        ∃ m, IsFirstHigh c m ∧ failure = .degreeOverflow m.length (c m) := by
  obtain ⟨s, hexpand, hnormal, hsupport, hvalue⟩ := hp.exists_expand? hlength hsub
  have hcommon : p.commonVariables substitutes = N := by
    cases substitutes with
    | nil => exact hlength.symm.trans (hN rfl).symm
    | cons first others => exact (hsub first List.mem_cons_self).2
  have hsizes : ∀ q ∈ substitutes, q.numVariables = p.commonVariables substitutes :=
    fun q hq => (hsub q hq).2.trans hcommon.symm
  have houtcome := evaluate_eq hlength hsizes hexpand
  have hexpansion : IsExpansion (p.substitutedAt substitutes) N s.coefficient := by
    rw [← funext hvalue]
    exact SparseSum.isExpansion hsupport
  refine ⟨s.coefficient, fun c' => ⟨fun h => h.unique hexpansion, fun h => h ▸ hexpansion⟩,
    fun point hpoint q hq => evaluateAt_eq q (hpoint.trans (hsub q hq).2.symm), ?_⟩
  -- the sum is in normal form, so its terms are the coefficients of the expansion, in order
  cases hfind : s.find? fun b => maxDegree < b.1.length with
  | none =>
      rw [hfind, hcommon] at houtcome
      have hlow : ∀ b ∈ s, b.1.length ≤ maxDegree := fun b hb =>
        not_lt.mp fun hhigh => List.find?_eq_none.mp hfind b hb (decide_eq_true hhigh)
      obtain ⟨hn, hcons, hreduced, hvalue'⟩ :=
        addTerms_zero fun b hb => (hsupport b hb).isTerm_of_length (hlow b hb)
      refine ⟨⟨fun _ m hm => ?_, fun _ => ⟨_, houtcome⟩⟩, fun r hr => ?_, fun failure hf => ?_⟩
      · exact SparseSum.coefficient_of_not_mem fun b hb heq => (heq ▸ hlow b hb).not_gt hm
      · obtain rfl : r = (zero N).addTerms s := Except.ok.inj (hr.symm.trans houtcome)
        refine ⟨hn, hcons, hreduced, fun point hpoint => ?_⟩
        rw [evaluateAt_eq _ (hpoint.trans hn.symm), hvalue', hvalue]
      · exact absurd (hf.symm.trans houtcome) nofun
  | some b =>
      rw [hfind] at houtcome
      obtain ⟨hfirst, hcoeff⟩ := hnormal.isFirstHigh hfind
      have hfails : ∀ r, p.evaluate substitutes ≠ .ok r :=
        fun r hr => absurd (hr.symm.trans houtcome) nofun
      refine ⟨⟨?_, fun hall => absurd (hall b.1 hfirst.1) hfirst.2.1⟩,
        fun r hr => absurd hr (hfails r), fun failure hf => ⟨b.1, hfirst, ?_⟩⟩
      · exact fun ⟨r, hr⟩ => absurd hr (hfails r)
      · rw [hcoeff]
        exact Except.error.inj (hf.symm.trans houtcome)

end Evaluate

/-- The substitutes `x₀x₁`, `x₂x₃ + x₃x₄` and `x₂x₃` in `x₀x₁ - x₀x₂`, all stored with bytes above
seven: the first product of four variables cancels, and the second one is left. -/
theorem evaluate_is_exact_of_cancelling :
    ∃ c : Monomial → Z8, (∃ m, IsFirstHigh c m ∧ m.length = 4 ∧ c m = 1) ∧
      IsExpansion (substitutedAt ⟨3, 0, #[0, 0, 0], #[9, 15, 0], #[0]⟩
        [⟨5, 0, #[0, 0, 0, 0, 0], #[9, 0, 0, 0, 0, 0, 0, 0, 0, 0], Array.replicate 10 0⟩,
          ⟨5, 0, #[0, 0, 0, 0, 0], #[0, 0, 0, 0, 0, 0, 0, 9, 0, 9], Array.replicate 10 0⟩,
          ⟨5, 0, #[0, 0, 0, 0, 0], #[0, 0, 0, 0, 0, 0, 0, 9, 0, 0], Array.replicate 10 0⟩])
        5 c := by
  obtain ⟨c, hunique, -, -, -, hfailure⟩ :=
    @evaluate_is_exact 5 ⟨3, 0, #[0, 0, 0], #[9, 15, 0], #[0]⟩
      [⟨5, 0, #[0, 0, 0, 0, 0], #[9, 0, 0, 0, 0, 0, 0, 0, 0, 0], Array.replicate 10 0⟩,
        ⟨5, 0, #[0, 0, 0, 0, 0], #[0, 0, 0, 0, 0, 0, 0, 9, 0, 9], Array.replicate 10 0⟩,
        ⟨5, 0, #[0, 0, 0, 0, 0], #[0, 0, 0, 0, 0, 0, 0, 9, 0, 0], Array.replicate 10 0⟩]
      (by decide +kernel) rfl (by decide +kernel) nofun
  obtain ⟨m, hfirst, heq⟩ := hfailure (.degreeOverflow 4 1) (by decide +kernel)
  obtain ⟨hdegree, hcoeff⟩ := Failure.degreeOverflow.inj heq
  exact ⟨c, ⟨m, hfirst, hdegree.symm, hcoeff.symm⟩, (hunique c).mpr rfl⟩

end PhasePolynomial

end AffinePhase
