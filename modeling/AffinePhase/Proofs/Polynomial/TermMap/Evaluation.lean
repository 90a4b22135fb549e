import AffinePhase.Proofs.Polynomial.TermMap

/-!
# Substitution in bytes

A substitution expands every term by products of maps in bytes and adds the terms of all products to
one more map. It gives the same polynomial or the same failure as the substitution on residues, for
all tables. The substitutes are sorted first, which changes no coefficient. Zeros that remain in the
map of the expansion are passed over when its terms are looked through, so that none of them is
taken for a term of too large a degree.

## Main results

* `PhasePolynomial.expandTermInBytes_eq`: the product for one term.
* `PhasePolynomial.foldlM_addProductOf`: the terms of all products in one map.
* `PhasePolynomial.foldlM_addExpanded`: the outcome that is read off this map.
* `PhasePolynomial.evaluateInBytes_eq`: a substitution overflows nowhere.
-/

open scoped Fin.CommRing

namespace AffinePhase

/-! ### Sorted terms -/

namespace SparseSum

variable {s t t' : SparseSum}

/-- The order of the terms does not matter for how they are stored. -/
theorem IsStored.of_perm (h : s.IsStored) (hperm : t.Perm s) : t.IsStored :=
  ⟨fun a ha => h.sorted a (hperm.mem_iff.mp ha), fun a ha => h.nonzero a (hperm.mem_iff.mp ha)⟩

/-- The order of the terms of a factor does not matter. -/
theorem mul_congr_perm (h : t.Perm t') : s.mul t = s.mul t' := by
  refine (isNormal_collect _).ext (isNormal_collect _) fun m => ?_
  have hterms := coefficient_mul s t m
  rw [(h.map _).sum_eq, ← coefficient_mul] at hterms
  exact hterms

end SparseSum

namespace TermMap

open PhasePolynomial (inBytes inBytes_cons)

variable {s : SparseSum}

/-- The terms of a map in order. -/
theorem exists_ofTerms_inBytes (s : SparseSum) :
    ∃ t : SparseSum, ofTerms (inBytes s) = inBytes t ∧ t.Perm s := by
  refine ⟨s.mergeSort fun a b => !decide (b.1 < a.1), ?_, List.mergeSort_perm s _⟩
  rw [ofTerms, inBytes, inBytes]
  exact (List.map_mergeSort (f := fun a : Monomial × Z8 => (a.1, Z8.toByte a.2))
    (s := fun a b => !decide (b.1 < a.1)) fun a _ b _ => rfl).symm

/-- A map with the terms of a list added. -/
theorem accumulate_inBytes (entries s : SparseSum) :
    (inBytes s).foldlM (fun expanded a => accumulate a.1 a.2 expanded) (inBytes entries) =
      .ok (inBytes (SparseSum.gathered entries s)) :=
  Result.foldlM_eq_ok (v := inBytes) (fun entries a => accumulate_toByte a.1 a.2 entries) s entries

end TermMap

namespace PhasePolynomial

variable {p : PhasePolynomial} {s : SparseSum} {substitutes : List SparseSum}

/-! ### Stored terms -/

/-- The monomials of a table are increasing. -/
theorem pairwise_of_mem_tabulated {d : ℕ} {table : Array UInt8} {a : Monomial × UInt8} {n : ℕ}
    (h : a ∈ tabulated n d table) : a.1.Pairwise (· < ·) := by
  have hsubset := (List.of_mem_zip h).1
  rw [firstSubsets_eq_take] at hsubset
  exact List.pairwise_lt_range.sublist (mem_subsets.mp (List.mem_of_mem_take hsubset)).1

/-- The monomials with stored bytes are increasing. -/
theorem pairwise_of_mem_weights {a : Monomial × UInt8} (h : a ∈ p.weights) :
    a.1.Pairwise (· < ·) := by
  rcases List.mem_append.mp h with h | h
  · rcases List.mem_append.mp h with h | h
    · rcases List.mem_cons.mp h with rfl | h
      · exact .nil
      · obtain ⟨t, -, rfl⟩ := List.mem_map.mp h
        exact List.pairwise_singleton _ _
    · exact pairwise_of_mem_tabulated h
  · exact pairwise_of_mem_tabulated h

/-- The terms of a polynomial have increasing monomials and nonzero coefficients. -/
theorem isStored_terms (p : PhasePolynomial) : SparseSum.IsStored p.terms := by
  refine ⟨fun a ha => ?_, fun a ha => by simpa using (List.mem_filter.mp ha).2⟩
  obtain ⟨t, ht, rfl⟩ := List.mem_map.mp (List.mem_of_mem_filter ha)
  exact pairwise_of_mem_weights ht

/-! ### Products -/

/-- **The product for one term** is formed without overflow. -/
theorem expandTermInBytes_eq (hsub : ∀ t ∈ substitutes, t.IsStored) (hs : s.IsStored)
    (m : Monomial) :
    expandTermInBytes (substitutes.map fun t => TermMap.ofTerms (inBytes t)) (inBytes s) m =
      (Result.ofOption (expandTerm? substitutes s m)).map inBytes := by
  induction m generalizing s with
  | nil => rfl
  | cons i rest ih =>
      rw [expandTermInBytes, expandTerm?, List.getElem?_map]
      cases hfactor : substitutes[i]? with
      | none => rfl
      | some t =>
          have ht : t.IsStored := hsub t (List.mem_of_getElem? hfactor)
          obtain ⟨t', ht', hperm⟩ := TermMap.exists_ofTerms_inBytes t
          have hproduct : TermMap.multiplied (inBytes s) (TermMap.ofTerms (inBytes t)) =
              .ok (inBytes (s.mul t)) := by
            rw [ht', ← SparseSum.mul_congr_perm hperm]
            exact (TermMap.multiplied_inBytes hs (ht.of_perm hperm)).1
          have hempty : (inBytes (s.mul t)).isEmpty = (s.mul t).isEmpty := List.isEmpty_map
          have hnext := ih (SparseSum.isStored_mul s ht)
          rw [Option.map_some, Result.ofOption_some, Result.ok_bind, hproduct, Result.ok_bind,
            hempty]
          by_cases hnil : (s.mul t).isEmpty
          · simp only [hnil, Option.bind_eq_bind, Option.bind_some]
            rfl
          · simp only [hnil, Option.bind_eq_bind, Option.bind_some]
            exact hnext

/-- **The terms of all products** are added to one map without overflow. -/
theorem foldlM_addProductOf (hsub : ∀ t ∈ substitutes, t.IsStored) {ts : SparseSum}
    (hts : ∀ a ∈ ts, a.2 ≠ 0) (entries : SparseSum) :
    (inBytes ts).foldlM (addProductOf (substitutes.map fun t => TermMap.ofTerms (inBytes t)))
        (inBytes entries) =
      (Result.ofOption (ts.mapM fun a => expandTerm? substitutes [([], a.2)] a.1)).map
        fun rs => inBytes (SparseSum.gathered entries rs.flatten) := by
  induction ts generalizing entries with
  | nil => rfl
  | cons a ts ih =>
      obtain ⟨ha, hts⟩ := List.forall_mem_cons.mp hts
      have hstart : SparseSum.IsStored [([], a.2)] :=
        ⟨List.forall_mem_singleton.mpr .nil, List.forall_mem_singleton.mpr ha⟩
      have hproduct : expandTermInBytes (substitutes.map fun t => TermMap.ofTerms (inBytes t))
          [([], Z8.toByte a.2)] a.1 = _ := expandTermInBytes_eq hsub hstart a.1
      rw [inBytes_cons, List.foldlM_cons, List.mapM_cons, addProductOf, hproduct]
      cases expandTerm? substitutes [([], a.2)] a.1 with
      | none => rfl
      | some r =>
          have hadded := TermMap.accumulate_inBytes entries r
          have hrest := ih hts (SparseSum.gathered entries r)
          rw [Result.ofOption_some]
          refine (congrArg (· >>= _) hadded).trans (hrest.trans ?_)
          cases ts.mapM fun a => expandTerm? substitutes [([], a.2)] a.1 with
          | none => rfl
          | some rs =>
              show _ = Except.ok (inBytes (SparseSum.gathered entries (r ++ rs.flatten)))
              rw [SparseSum.gathered_append]
              rfl

/-! ### The terms of the expansion -/

/-- Zeros are passed over, and the first term of too large a degree is reported. -/
theorem foldlM_addExpanded (s : SparseSum) (q : PhasePolynomial) :
    (inBytes s).foldlM addExpanded q =
      match (s.filter fun a => a.2 ≠ 0).find? fun a => maxDegree < a.1.length with
      | some a => .error (.degreeOverflow a.1.length a.2)
      | none => .ok (q.addTerms (s.filter fun a => a.2 ≠ 0)) := by
  induction s generalizing q with
  | nil => rfl
  | cons a s ih =>
      rw [inBytes_cons, List.foldlM_cons, addExpanded]
      by_cases hzero : a.2 = 0
      · rw [if_pos (Z8.toByte_eq_zero_iff.mpr hzero),
          List.filter_cons_of_neg (by simpa using hzero)]
        exact ih q
      · rw [if_neg (Z8.toByte_eq_zero_iff.not.mpr hzero),
          List.filter_cons_of_pos (by simpa using hzero)]
        by_cases hdegree : maxDegree < a.1.length
        · rw [if_pos hdegree, List.find?_cons_of_pos (by simpa using hdegree), Z8.ofByte_toByte]
          rfl
        · rw [if_neg hdegree, List.find?_cons_of_neg (by simpa using hdegree), addTermInBytes_eq]
          exact ih _

/-- **A substitution overflows nowhere**, and gives the same polynomial or the same failure as on
residues. -/
theorem evaluateInBytes_eq (p : PhasePolynomial) (substitutes : List PhasePolynomial) :
    p.evaluateInBytes substitutes = p.evaluate substitutes := by
  have hsub : ∀ t ∈ substitutes.map terms, SparseSum.IsStored t :=
    List.forall_mem_map.mpr fun q _ => isStored_terms q
  have hmaps : (substitutes.map fun q => TermMap.ofTerms q.termsInBytes) =
      (substitutes.map terms).map fun t => TermMap.ofTerms (inBytes t) := by
    rw [List.map_map]
    exact List.map_congr_left fun q _ => congrArg _ (termsInBytes_eq q)
  have hexpand := foldlM_addProductOf hsub (isStored_terms p).nonzero []
  have hempty : inBytes [] = [] := rfl
  rw [hempty, ← termsInBytes_eq, ← hmaps] at hexpand
  have hexpansion : p.expand? (substitutes.map terms) =
      (p.terms.mapM fun a => expandTerm? (substitutes.map terms) [([], a.2)] a.1) >>=
        fun rs => some (SparseSum.collect rs.flatten) := rfl
  rw [evaluateInBytes, evaluate, expandInBytes, hexpand, hexpansion]
  refine congrArg (_ >>= ·) (funext fun _ => congrArg (_ >>= ·) (funext fun _ => ?_))
  cases p.terms.mapM fun a => expandTerm? (substitutes.map terms) [([], a.2)] a.1 with
  | none => rfl
  | some rs =>
      have hlast := foldlM_addExpanded (SparseSum.gathered [] rs.flatten)
        (zero (p.commonVariables substitutes))
      rw [SparseSum.filter_gathered] at hlast
      refine hlast.trans ?_
      rw [Option.bind_eq_bind, Option.bind_some, Result.ofOption_some, Result.ok_bind]
      cases (SparseSum.collect rs.flatten).find? fun a => maxDegree < a.1.length with
      | none => rfl
      | some a => rfl

end PhasePolynomial

end AffinePhase
