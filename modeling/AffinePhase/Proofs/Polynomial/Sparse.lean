import AffinePhase.Polynomial.Sparse
import AffinePhase.Proofs.Polynomial.Rank
import Mathlib

/-!
# Values of sums of monomials

A sum of monomials has a value at every boolean point. Sums and products of sums have the sums and
products of the values; that a product leaves out pairs of terms by their valuations costs nothing,
since what is left out vanishes modulo eight. Conversely the values determine the coefficients: the
value at the indicator of a monomial involves that coefficient and those of smaller monomials only.

## Main definitions

* `SparseSum.IsNormal`: sums in normal form.

## Main results

* `SparseSum.coefficient_add`: sums add coefficients.
* `SparseSum.coefficient_collect`: the normal form has the same coefficients.
* `SparseSum.valueAt_mul`: the product computed with pruning is exact.
* `SparseSum.coefficient_eq_of_valueAt`: the values determine the coefficients.
* `SparseSum.forall_mem_collect`: what the terms have in common, the normal form has.
* `SparseSum.isNormal_collect`: the normal form is sorted and has no vanishing coefficients.
-/

open scoped Fin.CommRing

namespace AffinePhase

/-- Residues whose valuations add up to three or more have the product zero. -/
theorem Z8.mul_eq_zero_of_valuation {r s : Z8} (h : 3 ≤ r.valuation + s.valuation) : r * s = 0 := by
  revert r s; decide

/-- The product has the variables of both monomials. -/
theorem Monomial.mem_union {i : ℕ} {m m' : Monomial} : i ∈ m.union m' ↔ i ∈ m ∨ i ∈ m' := by
  induction m with
  | nil => exact ⟨.inr, fun h => h.resolve_left List.not_mem_nil⟩
  | cons j m ih =>
      rw [union, List.foldr_cons, mem_insert, List.mem_cons, or_assoc]
      exact or_congr_right ih

/-- The product is true where both monomials are. -/
theorem Monomial.all_union (m m' : Monomial) (x : ℕ → Bool) :
    (m.union m').all x = (m.all x && m'.all x) := by
  rw [Bool.eq_iff_iff, Bool.and_eq_true, List.all_eq_true, List.all_eq_true, List.all_eq_true]
  constructor
  · exact fun h => ⟨fun i hi => h i (mem_union.mpr (.inl hi)),
      fun i hi => h i (mem_union.mpr (.inr hi))⟩
  · rintro ⟨h, h'⟩ i hi
    exact (mem_union.mp hi).elim (h i) (h' i)

namespace SparseSum

variable {s t : SparseSum} {x : ℕ → Bool}

/-! ### The normal form keeps the coefficients -/

/-- The empty sum has no coefficient but zero. -/
@[simp] theorem coefficient_nil (m : Monomial) : coefficient [] m = 0 := rfl

theorem coefficient_cons (t : Monomial × Z8) (s : SparseSum) (m : Monomial) :
    coefficient (t :: s) m = (if t.1 = m then t.2 else 0) + coefficient s m := rfl

/-- A term with the coefficient zero may be left out. -/
theorem coefficient_consTerm (m : Monomial) (k : Z8) (s : SparseSum) (m' : Monomial) :
    coefficient (consTerm m k s) m' = (if m = m' then k else 0) + coefficient s m' := by
  rw [consTerm]
  split
  · rename_i hzero
    rw [hzero, ite_self, zero_add]
  · rfl

/-- Putting a term in its place adds its coefficient, and what is added after it is added. -/
theorem coefficient_addTermWith {m m' : Monomial} {k c : Z8} {addRest : SparseSum → SparseSum}
    (hrest : ∀ t, coefficient (addRest t) m' = c + coefficient t m') (t : SparseSum) :
    coefficient (addTermWith m k addRest t) m' =
      (if m = m' then k else 0) + (c + coefficient t m') := by
  induction t with
  | nil => rw [addTermWith, coefficient_cons, hrest]
  | cons head tail ih =>
      obtain ⟨n, l⟩ := head
      rw [addTermWith]
      split
      · rw [coefficient_cons, hrest]
      · split
        · rename_i heq
          subst heq
          rw [coefficient_consTerm, hrest, coefficient_cons]
          split
          · rw [add_assoc, add_left_comm l c]
          · rw [zero_add, zero_add, zero_add]
        · rw [coefficient_cons, ih, coefficient_cons, add_left_comm, add_left_comm c]

/-- **Sums add coefficients.** -/
theorem coefficient_add (s t : SparseSum) (m : Monomial) :
    coefficient (add s t) m = coefficient s m + coefficient t m := by
  induction s generalizing t with
  | nil => exact (zero_add _).symm
  | cons head tail ih =>
      obtain ⟨n, l⟩ := head
      rw [add, coefficient_addTermWith ih, coefficient_cons, add_assoc]

/-- The coefficient of a monomial in all places together. -/
def placesCoefficient (places : List (Option SparseSum)) (m : Monomial) : Z8 :=
  places.foldr (fun place c => coefficient (place.getD []) m + c) 0

/-- Counting one sum more adds its coefficient. -/
theorem placesCoefficient_carry (s : SparseSum) (places : List (Option SparseSum))
    (m : Monomial) :
    placesCoefficient (carry s places) m = coefficient s m + placesCoefficient places m := by
  induction places generalizing s with
  | nil => rfl
  | cons place places ih =>
      cases place with
      | none =>
          rw [carry, placesCoefficient, placesCoefficient, List.foldr_cons, List.foldr_cons,
            Option.getD_some, Option.getD_none, coefficient_nil, zero_add]
      | some t =>
          have htail := ih (add t s)
          rw [placesCoefficient] at htail
          rw [carry, placesCoefficient, placesCoefficient, List.foldr_cons, List.foldr_cons,
            Option.getD_some, Option.getD_none, coefficient_nil, zero_add, htail, coefficient_add,
            add_assoc, add_left_comm, placesCoefficient]

/-- The sum over all places has the coefficients of all places together. -/
theorem coefficient_total (places : List (Option SparseSum)) (m : Monomial) :
    coefficient (total places) m = placesCoefficient places m := by
  suffices h : ∀ sum : SparseSum,
      coefficient (places.foldl (fun sum place => add (place.getD []) sum) sum) m =
        placesCoefficient places m + coefficient sum m by
    rw [total, h, coefficient_nil, add_zero]
  induction places with
  | nil => exact fun sum => (zero_add _).symm
  | cons place places ih =>
      intro sum
      rw [List.foldl_cons, ih, coefficient_add, placesCoefficient, placesCoefficient,
        List.foldr_cons, add_assoc, add_left_comm]

/-- Counting terms one by one adds their coefficients. -/
theorem placesCoefficient_foldl (s : SparseSum) (places : List (Option SparseSum)) (m : Monomial) :
    placesCoefficient (s.foldl (fun places t => carry [t] places) places) m =
      coefficient s m + placesCoefficient places m := by
  induction s generalizing places with
  | nil => exact (zero_add _).symm
  | cons head s ih =>
      rw [List.foldl_cons, ih, placesCoefficient_carry, coefficient_cons, coefficient_cons,
        coefficient_nil, add_zero, add_assoc, add_left_comm]

/-- Terms with the coefficient zero may be left out. -/
theorem coefficient_filter (s : SparseSum) (m : Monomial) :
    coefficient (s.filter fun (_, k) => k ≠ 0) m = coefficient s m := by
  induction s with
  | nil => rfl
  | cons head s ih =>
      rw [coefficient_cons, ← ih]
      by_cases hzero : head.2 = 0
      · rw [List.filter_cons_of_neg (by simpa using hzero), hzero, ite_self, zero_add]
      · rw [List.filter_cons_of_pos (by simpa using hzero), coefficient_cons]

/-- **The normal form has the same coefficients.** -/
theorem coefficient_collect (s : SparseSum) (m : Monomial) :
    coefficient (collect s) m = coefficient s m := by
  rw [collect, coefficient_total, placesCoefficient_foldl, coefficient_filter]
  exact add_zero _

/-! ### Values -/

@[simp] theorem valueAt_nil (x : ℕ → Bool) : valueAt [] x = 0 := rfl

theorem valueAt_cons (t : Monomial × Z8) (s : SparseSum) (x : ℕ → Bool) :
    valueAt (t :: s) x = (if t.1.all x then t.2 else 0) + valueAt s x := rfl

/-- Sums one after the other have the sum of the values. -/
theorem valueAt_append (s t : SparseSum) (x : ℕ → Bool) :
    valueAt (s ++ t) x = valueAt s x + valueAt t x := by
  induction s with
  | nil => rw [List.nil_append, valueAt_nil, zero_add]
  | cons head s ih => rw [List.cons_append, valueAt_cons, valueAt_cons, ih, add_assoc]

/-- Sums one after the other have the sums of the coefficients. -/
theorem coefficient_append (s t : SparseSum) (m : Monomial) :
    coefficient (s ++ t) m = coefficient s m + coefficient t m := by
  induction s with
  | nil => rw [List.nil_append, coefficient_nil, zero_add]
  | cons head s ih => rw [List.cons_append, coefficient_cons, coefficient_cons, ih, add_assoc]

/-- A monomial that does not occur has the coefficient zero. -/
theorem coefficient_of_not_mem {m : Monomial} (h : ∀ t ∈ s, t.1 ≠ m) : coefficient s m = 0 := by
  induction s with
  | nil => rfl
  | cons head s ih =>
      rw [coefficient_cons, if_neg (h head List.mem_cons_self), zero_add,
        ih fun t ht => h t (List.mem_cons_of_mem _ ht)]

/-- The coefficients of a list with each monomial at most once. -/
theorem coefficient_map {l : List Monomial} (hl : l.Nodup) (f : Monomial → Z8) (m : Monomial) :
    coefficient (l.map fun m => (m, f m)) m = if m ∈ l then f m else 0 := by
  induction l with
  | nil => rfl
  | cons m' l ih =>
      obtain ⟨hfresh, hl⟩ := List.nodup_cons.mp hl
      rw [List.map_cons, coefficient_cons, ih hl]
      by_cases hm : m' = m
      · subst hm
        simp [hfresh]
      · simp [hm, Ne.symm hm]

/-- **The value in terms of the coefficients**: a sum over any set of monomials in which all that
occur are contained. -/
theorem valueAt_eq_sum {S : Finset Monomial} (h : ∀ t ∈ s, t.1 ∈ S) (x : ℕ → Bool) :
    valueAt s x = ∑ m ∈ S, if m.all x then coefficient s m else 0 := by
  induction s with
  | nil => exact (Finset.sum_eq_zero fun m _ => by rw [coefficient_nil, ite_self]).symm
  | cons head s ih =>
      have hhead : ∑ m ∈ S, (if m.all x then (if head.1 = m then head.2 else 0) else 0) =
          if head.1.all x then head.2 else 0 := by
        rw [Finset.sum_eq_single_of_mem head.1 (h head List.mem_cons_self) fun m _ hne => by
          rw [if_neg hne.symm, ite_self], if_pos rfl]
      rw [valueAt_cons, ih fun t ht => h t (List.mem_cons_of_mem _ ht), ← hhead,
        ← Finset.sum_add_distrib]
      refine Finset.sum_congr rfl fun m _ => ?_
      rw [coefficient_cons]
      split
      · rfl
      · rw [add_zero]

/-- A set with the monomials of two sums. -/
theorem exists_support (s t : SparseSum) :
    ∃ S : Finset Monomial, (∀ a ∈ s, a.1 ∈ S) ∧ ∀ a ∈ t, a.1 ∈ S :=
  ⟨(s.map Prod.fst ++ t.map Prod.fst).toFinset, fun a ha => by
    simpa using .inl ⟨a.2, ha⟩, fun a ha => by simpa using .inr ⟨a.2, ha⟩⟩

/-- The coefficients determine the values. -/
theorem valueAt_congr (h : ∀ m, coefficient s m = coefficient t m) (x : ℕ → Bool) :
    valueAt s x = valueAt t x := by
  obtain ⟨S, hs, ht⟩ := exists_support s t
  rw [valueAt_eq_sum hs, valueAt_eq_sum ht]
  exact Finset.sum_congr rfl fun m _ => by rw [h]

/-- **The normal form has the same values.** -/
theorem valueAt_collect (s : SparseSum) (x : ℕ → Bool) : valueAt (collect s) x = valueAt s x :=
  valueAt_congr (coefficient_collect s) x

/-- The terms of a sum are its only source of values: points that agree on all its variables give
the same value. -/
theorem valueAt_congr_point {y : ℕ → Bool} (h : ∀ t ∈ s, ∀ i ∈ t.1, x i = y i) :
    valueAt s x = valueAt s y := by
  induction s with
  | nil => rfl
  | cons head s ih =>
      have hall : head.1.all x = head.1.all y := by
        rw [Bool.eq_iff_iff, List.all_eq_true, List.all_eq_true]
        exact forall₂_congr fun i hi => by rw [h head List.mem_cons_self i hi]
      rw [valueAt_cons, valueAt_cons, hall, ih fun t ht => h t (List.mem_cons_of_mem _ ht)]

/-- The sum with its variables numbered after `k` others. -/
def shift (k : ℕ) (s : SparseSum) : SparseSum := s.map fun t => (t.1.map (· + k), t.2)

/-- Numbering the variables differently moves the points along. -/
theorem valueAt_shift (k : ℕ) (s : SparseSum) (x : ℕ → Bool) :
    valueAt (shift k s) x = valueAt s fun i => x (i + k) := by
  induction s with
  | nil => rfl
  | cons head s ih =>
      have hall : (head.1.map (· + k)).all x = head.1.all fun i => x (i + k) := List.all_map
      have hshift : shift k (head :: s) = (head.1.map (· + k), head.2) :: shift k s := rfl
      rw [hshift, valueAt_cons, valueAt_cons, ih, hall]

/-! ### Values determine coefficients -/

/-- A shorter increasing list, or another one as long, has an element that `m` does not have. -/
theorem length_lt_of_all_mem {m m' : Monomial} (hm : m.Pairwise (· < ·))
    (hm' : m'.Pairwise (· < ·)) (hall : m'.all (fun i => decide (i ∈ m)) = true) (hne : m' ≠ m) :
    m'.length < m.length := by
  have hsubset : m' ⊆ m := fun i hi => of_decide_eq_true (List.all_eq_true.mp hall i hi)
  have hsub : m'.Sublist m := Monomial.sublist_of_subset hm' hm hsubset
  rcases hsub.length_le.lt_or_eq with hlt | heq
  · exact hlt
  · exact absurd (hsub.eq_of_length heq) hne

/-- **The values determine the coefficients.** By induction on the length of the monomial, since at
its indicator all other terms present are shorter. -/
theorem coefficient_eq_of_valueAt (hs : ∀ t ∈ s, t.1.Pairwise (· < ·))
    (ht : ∀ a ∈ t, a.1.Pairwise (· < ·)) (h : ∀ x, valueAt s x = valueAt t x) (m : Monomial) :
    coefficient s m = coefficient t m := by
  obtain ⟨S, hsS, htS⟩ := exists_support s t
  have hzero : ∀ m, m ∉ S → coefficient s m = coefficient t m := by
    intro m hm
    have hs₀ : coefficient s m = 0 := coefficient_of_not_mem fun a ha heq => hm (heq ▸ hsS a ha)
    have ht₀ : coefficient t m = 0 := coefficient_of_not_mem fun a ha heq => hm (heq ▸ htS a ha)
    rw [hs₀, ht₀]
  have hunsorted : ∀ m : Monomial, ¬ m.Pairwise (· < ·) → coefficient s m = coefficient t m := by
    intro m hm
    have hs₀ : coefficient s m = 0 := coefficient_of_not_mem fun a ha heq => hm (heq ▸ hs a ha)
    have ht₀ : coefficient t m = 0 := coefficient_of_not_mem fun a ha heq => hm (heq ▸ ht a ha)
    rw [hs₀, ht₀]
  induction hlen : m.length using Nat.strong_induction_on generalizing m with
  | _ l ih =>
      by_cases hmS : m ∈ S
      · by_cases hm : m.Pairwise (· < ·)
        · have hpoint := h fun i => decide (i ∈ m)
          rw [valueAt_eq_sum hsS, valueAt_eq_sum htS, ← sub_eq_zero, ← Finset.sum_sub_distrib,
            Finset.sum_eq_single_of_mem m hmS fun m' _ hne => ?_] at hpoint
          · rw [if_pos (List.all_eq_true.mpr fun i hi => decide_eq_true hi),
              if_pos (List.all_eq_true.mpr fun i hi => decide_eq_true hi)] at hpoint
            exact sub_eq_zero.mp hpoint
          · split
            · rename_i hall
              rw [sub_eq_zero]
              by_cases hm' : m'.Pairwise (· < ·)
              · exact ih m'.length (hlen ▸ length_lt_of_all_mem hm hm' hall hne) m' rfl
              · exact hunsorted m' hm'
            · exact sub_zero 0
        · exact hunsorted m hm
      · exact hzero m hmS

/-! ### Products -/

/-- Lower bounds of a list of numbers and a start. -/
theorem foldl_min_le_iff (l : List ℕ) (v a : ℕ) :
    a ≤ l.foldl min v ↔ a ≤ v ∧ ∀ b ∈ l, a ≤ b := by
  induction l generalizing v with
  | nil => simp
  | cons b l ih => rw [List.foldl_cons, ih, le_min_iff, List.forall_mem_cons, and_assoc]

/-- The valuation of a sum is at most that of each coefficient. -/
theorem valuation_le {a : Monomial × Z8} (h : a ∈ s) : s.valuation ≤ a.2.valuation :=
  ((foldl_min_le_iff _ 3 s.valuation).mp le_rfl).2 _ (List.mem_map.mpr ⟨a, h, rfl⟩)

/-- Terms that vanish may be left out of a product with one term. -/
theorem valueAt_mulTerm (s : SparseSum) (a : Monomial × Z8) (x : ℕ → Bool) :
    valueAt (s.mulTerm a) x = valueAt s x * (if a.1.all x then a.2 else 0) := by
  induction s with
  | nil => exact (zero_mul _).symm
  | cons head s ih =>
      obtain ⟨m, k⟩ := head
      have hfirst : (if (m.union a.1).all x then k * a.2 else 0) =
          (if m.all x then k else 0) * (if a.1.all x then a.2 else 0) := by
        rw [Monomial.all_union]
        cases m.all x <;> cases a.1.all x <;> simp
      rw [valueAt_cons, add_mul, ← ih, ← hfirst, mulTerm, mulTerm]
      by_cases hzero : k * a.2 = 0
      · rw [List.filter_cons_of_neg (by simpa using hzero), hzero, ite_self, zero_add]
      · rw [List.filter_cons_of_pos (by simpa using hzero), List.map_cons, valueAt_cons]

/-- All products with a term vanish if the factors of two suffice. -/
theorem mulTerm_eq_nil {b : Monomial × Z8} (h : 3 ≤ b.2.valuation + s.valuation) :
    s.mulTerm b = [] := by
  refine List.map_eq_nil_iff.mpr (List.filter_eq_nil_iff.mpr fun a ha => ?_)
  have hle := valuation_le ha
  have hzero : a.2 * b.2 = 0 := Z8.mul_eq_zero_of_valuation (by omega)
  simpa using hzero

/-- What is passed over contributes nothing. -/
theorem mul_eq_collect (s t : SparseSum) : s.mul t = collect (t.flatMap s.mulTerm) := by
  rw [mul]
  congr 1
  induction t with
  | nil => rfl
  | cons b t ih =>
      rw [List.flatMap_cons, ← ih]
      by_cases hkeep : b.2.valuation + s.valuation < 3
      · rw [List.filter_cons_of_pos (by simpa using hkeep), List.flatMap_cons]
      · rw [List.filter_cons_of_neg (by simpa using hkeep), mulTerm_eq_nil (not_lt.mp hkeep),
          List.nil_append]

/-- **The product is exact**, although pairs of terms are left out by their valuations. -/
theorem valueAt_mul (s t : SparseSum) (x : ℕ → Bool) :
    valueAt (s.mul t) x = valueAt s x * valueAt t x := by
  rw [mul_eq_collect, valueAt_collect]
  induction t with
  | nil => exact (mul_zero _).symm
  | cons head t ih =>
      rw [List.flatMap_cons, valueAt_append, valueAt_mulTerm, ih, ← mul_add, valueAt_cons]

/-! ### What normal forms have in common -/

/-- **Reduction to sums.** What holds of the empty sum and of every nonzero term alone, and carries
over to sums, holds of the normal form. -/
theorem collect_of_add {Q : SparseSum → Prop} (hnil : Q [])
    (hadd : ∀ s t, Q s → Q t → Q (add s t)) (hs : ∀ a ∈ s, a.2 ≠ 0 → Q [a]) : Q (collect s) := by
  -- each place of the binary counter holds the empty sum or one with the property
  have hcarry : ∀ (places : List (Option SparseSum)) (t : SparseSum), Q t →
      (∀ place ∈ places, Q (place.getD [])) → ∀ place ∈ carry t places, Q (place.getD []) := by
    intro places
    induction places with
    | nil => exact fun t ht _ => List.forall_mem_singleton.mpr ht
    | cons place places ih =>
        intro t ht hplaces
        obtain ⟨hplace, hrest⟩ := List.forall_mem_cons.mp hplaces
        cases place with
        | none => exact List.forall_mem_cons.mpr ⟨ht, hrest⟩
        | some t' => exact List.forall_mem_cons.mpr ⟨hnil, ih _ (hadd t' t hplace ht) hrest⟩
  have hcounted : ∀ (l : SparseSum) (places : List (Option SparseSum)), (∀ a ∈ l, Q [a]) →
      (∀ place ∈ places, Q (place.getD [])) →
      ∀ place ∈ l.foldl (fun places t => carry [t] places) places, Q (place.getD []) := by
    intro l
    induction l with
    | nil => exact fun _ _ hplaces => hplaces
    | cons head l ih =>
        intro places hl hplaces
        obtain ⟨hhead, hl⟩ := List.forall_mem_cons.mp hl
        exact ih _ hl (hcarry places [head] hhead hplaces)
  have htotal : ∀ (places : List (Option SparseSum)) (sum : SparseSum),
      (∀ place ∈ places, Q (place.getD [])) → Q sum →
      Q (places.foldl (fun sum place => add (place.getD []) sum) sum) := by
    intro places
    induction places with
    | nil => exact fun _ _ hsum => hsum
    | cons place places ih =>
        intro sum hplaces hsum
        obtain ⟨hplace, hrest⟩ := List.forall_mem_cons.mp hplaces
        exact ih _ hrest (hadd _ sum hplace hsum)
  refine htotal _ [] (hcounted _ [] (fun a ha => ?_) (List.forall_mem_nil _)) hnil
  exact hs a (List.mem_of_mem_filter ha) (by simpa using (List.mem_filter.mp ha).2)

section Members

variable {P : Monomial → Z8 → Prop}
  (hadd : ∀ m k k', P m k → P m k' → k + k' ≠ 0 → P m (k + k'))

include hadd

/-- What the terms of two sums have in common, those of the sum have. -/
theorem forall_mem_add (hs : ∀ a ∈ s, P a.1 a.2) (ht : ∀ a ∈ t, P a.1 a.2) :
    ∀ a ∈ add s t, P a.1 a.2 := by
  induction s generalizing t with
  | nil => exact ht
  | cons head s ih =>
      obtain ⟨m, k⟩ := head
      have hrest := fun {t : SparseSum} => ih (t := t) fun a ha => hs a (List.mem_cons_of_mem _ ha)
      have hhead : P m k := hs (m, k) List.mem_cons_self
      rw [add]
      induction t with
      | nil =>
          rw [addTermWith, List.forall_mem_cons]
          exact ⟨hhead, hrest fun a ha => absurd ha List.not_mem_nil⟩
      | cons head' t iht =>
          obtain ⟨m', k'⟩ := head'
          obtain ⟨hhead', htail⟩ := List.forall_mem_cons.mp ht
          rw [addTermWith]
          split
          · exact List.forall_mem_cons.mpr ⟨hhead, hrest ht⟩
          · split
            · rename_i hsame
              subst hsame
              rw [consTerm]
              split
              · exact hrest htail
              · rename_i hne
                exact List.forall_mem_cons.mpr ⟨hadd m k k' hhead hhead' hne, hrest htail⟩
            · exact List.forall_mem_cons.mpr ⟨hhead', iht htail⟩

/-- **What the nonzero terms have in common, the normal form has**, if it carries over to sums of
coefficients that do not vanish. -/
theorem forall_mem_collect (hs : ∀ a ∈ s, a.2 ≠ 0 → P a.1 a.2) : ∀ a ∈ collect s, P a.1 a.2 :=
  collect_of_add (Q := fun s => ∀ a ∈ s, P a.1 a.2) (List.forall_mem_nil _)
    (fun _ _ => forall_mem_add hadd) fun a ha hne => List.forall_mem_singleton.mpr (hs a ha hne)

end Members

/-! ### The normal form -/

/-- The monomials are strictly increasing in lexicographic order, and no coefficient is zero. -/
structure IsNormal (s : SparseSum) : Prop where
  /-- The monomials increase. -/
  increasing : s.Pairwise fun a b => a.1 < b.1
  /-- The coefficients do not vanish. -/
  nonzero : ∀ a ∈ s, a.2 ≠ 0

theorem isNormal_nil : IsNormal [] :=
  ⟨.nil, List.forall_mem_nil _⟩

/-- A single term is in normal form, unless its coefficient is zero. -/
theorem isNormal_singleton {a : Monomial × Z8} (h : a.2 ≠ 0) : IsNormal [a] :=
  ⟨List.pairwise_singleton _ a, List.forall_mem_singleton.mpr h⟩

/-- A sum has no monomials below those of its parts. -/
theorem lt_of_mem_add {m : Monomial} (hs : ∀ a ∈ s, m < a.1) (ht : ∀ a ∈ t, m < a.1) :
    ∀ a ∈ add s t, m < a.1 :=
  forall_mem_add (P := fun m' _ => m < m') (fun _ _ _ h _ _ => h) hs ht

/-- **Sums of normal forms** are in normal form: the least monomial comes first, and equal ones are
merged. -/
theorem IsNormal.add (hs : s.IsNormal) (ht : t.IsNormal) : (SparseSum.add s t).IsNormal := by
  refine ⟨?_, forall_mem_add (P := fun _ k => k ≠ 0) (fun _ _ _ _ _ h => h) hs.nonzero ht.nonzero⟩
  obtain ⟨hs, -⟩ := hs
  obtain ⟨ht, -⟩ := ht
  induction s generalizing t with
  | nil => exact ht
  | cons head s ih =>
      obtain ⟨m, k⟩ := head
      obtain ⟨hmin, hs⟩ := List.pairwise_cons.mp hs
      induction t with
      | nil =>
          refine List.pairwise_cons.mpr ⟨?_, ih hs .nil⟩
          exact lt_of_mem_add hmin (List.forall_mem_nil _)
      | cons head' t iht =>
          obtain ⟨m', k'⟩ := head'
          obtain ⟨hmin', htail⟩ := List.pairwise_cons.mp ht
          rw [SparseSum.add, addTermWith]
          split
          · rename_i hlt
            refine List.pairwise_cons.mpr ⟨lt_of_mem_add hmin ?_, ih hs ht⟩
            exact List.forall_mem_cons.mpr ⟨hlt, fun a ha => lt_trans hlt (hmin' a ha)⟩
          · rename_i hnlt
            split
            · rename_i hsame
              subst hsame
              rw [consTerm]
              split
              · exact ih hs htail
              · exact List.pairwise_cons.mpr ⟨lt_of_mem_add hmin hmin', ih hs htail⟩
            · rename_i hne
              have hgt : m' < m := lt_of_le_of_ne (not_lt.mp hnlt) (Ne.symm hne)
              refine List.pairwise_cons.mpr ⟨?_, iht htail⟩
              refine lt_of_mem_add (s := (m, k) :: s) ?_ hmin'
              exact List.forall_mem_cons.mpr ⟨hgt, fun a ha => lt_trans hgt (hmin a ha)⟩

/-- **Collecting** brings any list of terms into normal form. -/
theorem isNormal_collect (s : SparseSum) : (collect s).IsNormal :=
  collect_of_add isNormal_nil (fun _ _ => IsNormal.add) fun _ _ => isNormal_singleton

/-- The terms of a normal form are its monomials with their coefficients. -/
theorem IsNormal.mem_iff (h : s.IsNormal) {m : Monomial} {k : Z8} :
    (m, k) ∈ s ↔ coefficient s m = k ∧ k ≠ 0 := by
  obtain ⟨hsorted, hnonzero⟩ := h
  induction s with
  | nil => exact ⟨fun h => absurd h List.not_mem_nil, fun ⟨h, hk⟩ => absurd h.symm hk⟩
  | cons head s ih =>
      obtain ⟨m', k'⟩ := head
      obtain ⟨hmin, hsorted⟩ := List.pairwise_cons.mp hsorted
      obtain ⟨hhead, hnonzero⟩ := List.forall_mem_cons.mp hnonzero
      rw [List.mem_cons, Prod.mk.injEq, coefficient_cons]
      by_cases hm : m' = m
      · subst hm
        have hfresh : ∀ a ∈ s, a.1 ≠ m' := fun a ha => (hmin a ha).ne'
        have habsent : (m', k) ∉ s := fun hmem => hfresh _ hmem rfl
        rw [if_pos rfl, coefficient_of_not_mem hfresh, add_zero]
        constructor
        · rintro (⟨-, rfl⟩ | hmem)
          · exact ⟨rfl, hhead⟩
          · exact absurd hmem habsent
        · rintro ⟨rfl, -⟩
          exact .inl ⟨rfl, rfl⟩
      · rw [if_neg hm, zero_add, ← ih hsorted hnonzero]
        exact or_iff_right fun h => hm h.1.symm

/-- The first term with a property is that of the least monomial. -/
theorem IsNormal.find?_eq_some (h : s.IsNormal) {p : Monomial × Z8 → Bool} {a : Monomial × Z8}
    (hfind : s.find? p = some a) : a ∈ s ∧ p a = true ∧
      ∀ b ∈ s, p b = true → b ≠ a → a.1 < b.1 := by
  obtain ⟨ha, before, after, rfl, hbefore⟩ := List.find?_eq_some_iff_append.mp hfind
  refine ⟨by simp, ha, fun b hb hpb hne => ?_⟩
  rcases List.mem_append.mp hb with hb | hb
  · exact absurd hpb (by simpa using hbefore b hb)
  · have hafter := (List.pairwise_append.mp h.increasing).2.1
    exact List.rel_of_pairwise_cons hafter ((List.mem_cons.mp hb).resolve_left hne)

/-- **The terms of a product** come from pairs of terms, up to sums. -/
theorem forall_mem_mul {P : Monomial → Z8 → Prop}
    (hadd : ∀ m k k', P m k → P m k' → k + k' ≠ 0 → P m (k + k'))
    (h : ∀ a ∈ s, ∀ b ∈ t, a.2 * b.2 ≠ 0 → P (a.1.union b.1) (a.2 * b.2)) :
    ∀ c ∈ s.mul t, P c.1 c.2 := by
  refine forall_mem_collect hadd fun c hc hne => ?_
  obtain ⟨b, hb, hc⟩ := List.mem_flatMap.mp hc
  obtain ⟨a, ha, rfl⟩ := List.mem_map.mp hc
  exact h a (List.mem_of_mem_filter ha) b (List.mem_of_mem_filter hb) hne

end SparseSum

end AffinePhase
