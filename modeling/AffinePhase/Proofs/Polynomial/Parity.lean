import AffinePhase.Proofs.BitVector
import AffinePhase.Proofs.Polynomial.Arithmetic

/-!
# The parity polynomial

The polynomial of a parity takes at a point the value of the parity there: among `w` variables that
are true there are `w` choose `d` products of `d` of them, so that the value depends on `w` only,
and adding one more true variable turns `p` into `1 - p`. Its coefficients are those of a group
element, and its terms are the subsets with one to three elements.

## Main definitions

* `PhasePolynomial.parityTerms`: the terms of a multiple of a parity.
* `Monomial.IsSupport`: an increasing list of variables.

## Main results

* `PhasePolynomial.valueAt_parityTerms`: the parity polynomial has the values of the parity.
* `PhasePolynomial.IsGroupOn.addParity`: adding a parity, coefficient by coefficient.
* `PhasePolynomial.parity_ofList`: the parity of a list of variables is formed without an error.
* `PhasePolynomial.parity_is_exclusiveOr`: its values are those of the exclusive or.
-/

open scoped Fin.CommRing

namespace AffinePhase

variable {n : ℕ} {xs : List ℕ}

/-! ### Counting the products that are present -/

/-- The subsets of a given size whose elements all hold are the subsets of those that hold. -/
theorem countP_subsets (d : ℕ) (xs : List ℕ) (x : ℕ → Bool) :
    (subsets d xs).countP (fun m => m.all x) = (xs.countP x).choose d := by
  induction xs generalizing d with
  | nil =>
      cases d with
      | zero => rfl
      | succ d => rfl
  | cons i xs ih =>
      cases d with
      | zero =>
          rw [Nat.choose_zero_right]
          rfl
      | succ d =>
          have hfirst : ((subsets d xs).map (i :: ·)).countP (fun m => m.all x) =
              if x i then (xs.countP x).choose d else 0 := by
            rw [List.countP_map, ← ih d]
            cases hi : x i with
            | true =>
                rw [if_pos rfl]
                exact List.countP_congr fun m _ => by simp [hi]
            | false =>
                rw [if_neg (by decide)]
                exact List.countP_eq_zero.mpr fun m _ => by simp [hi]
          rw [subsets, List.countP_append, hfirst, ih (d + 1), List.countP_cons]
          cases x i with
          | true => exact (Nat.choose_succ_succ _ _).symm
          | false => exact Nat.zero_add _

/-- The value of the parity polynomial where `w` of its variables are true. -/
def parityValue (w : ℕ) : Z8 := (w : Z8) + 6 * (w.choose 2 : Z8) + 4 * (w.choose 3 : Z8)

/-- One more true variable turns `p` into `1 - p`. -/
theorem parityValue_succ (w : ℕ) : parityValue (w + 1) = 1 - parityValue w := by
  have h₂ : ((w + 1).choose 2 : Z8) = w + w.choose 2 := by
    rw [Nat.choose_succ_succ, Nat.choose_one_right, Nat.cast_add]
  have h₃ : ((w + 1).choose 3 : Z8) = w.choose 2 + w.choose 3 := by
    rw [Nat.choose_succ_succ, Nat.cast_add]
  have h₈ : (8 : Z8) = 0 := rfl
  rw [parityValue, parityValue, h₂, h₃, Nat.cast_succ]
  linear_combination ((w : Z8) + 2 * w.choose 2 + w.choose 3) * h₈

/-- **The parity is a polynomial of degree three** modulo eight. -/
theorem parityValue_eq (w : ℕ) : parityValue w = if w % 2 == 1 then 1 else 0 := by
  induction w with
  | zero => rfl
  | succ w ih =>
      rw [parityValue_succ, ih]
      rcases Nat.mod_two_eq_zero_or_one w with h | h
      · have hnext : (w + 1) % 2 = 1 := by omega
        rw [h, hnext]
        rfl
      · have hnext : (w + 1) % 2 = 0 := by omega
        rw [h, hnext]
        rfl

/-- An increasing list of variables below `n`. -/
structure Monomial.IsSupport (xs : List ℕ) (n : ℕ) : Prop where
  /-- The indices increase. -/
  increasing : xs.Pairwise (· < ·)
  /-- The indices are below `n`. -/
  below : ∀ i ∈ xs, i < n

/-- The support of a vector with `n` bits. -/
theorem Monomial.isSupport_support {v : BitVector} (h : v.length = n) : IsSupport v.support n :=
  ⟨v.pairwise_support, fun _ hi => h ▸ BitVector.lt_of_mem_support hi⟩

/-- The subsets of a support with one to three elements are terms. -/
theorem Monomial.IsSupport.isTerm (h : Monomial.IsSupport xs n) {m : Monomial}
    (hm : m ∈ PhasePolynomial.smallSubsets xs) : m.IsTerm n := by
  obtain ⟨hsub, hlen, -⟩ := mem_smallSubsets.mp hm
  exact ⟨h.increasing.sublist hsub, fun i hi => h.below i (hsub.subset hi), hlen⟩

/-- An increasing list is not changed by sorting. -/
theorem Monomial.ofList_eq (h : xs.Pairwise (· < ·)) : Monomial.ofList xs = xs :=
  (pairwise_ofList xs).eq_of_mem_iff h fun _ => mem_ofList

/-- The increasing list of variables below `n`. -/
theorem Monomial.isSupport_ofList {indices : List ℕ} (h : ∀ j ∈ indices, j < n) :
    IsSupport (ofList indices) n :=
  ⟨pairwise_ofList indices, fun _ hi => h _ (mem_ofList.mp hi)⟩

/-- The parts of the increasing list are the increasing lists of the same variables. -/
theorem Monomial.sublist_ofList_iff {m : Monomial} {indices : List ℕ} :
    m.Sublist (ofList indices) ↔ m.Pairwise (· < ·) ∧ m ⊆ indices := by
  have hsorted := pairwise_ofList indices
  constructor
  · exact fun hsub => ⟨hsorted.sublist hsub, fun i hi => mem_ofList.mp (hsub.subset hi)⟩
  · rintro ⟨hm, hsubset⟩
    exact sublist_of_subset hm hsorted fun i hi => mem_ofList.mpr (hsubset hi)

/-- The increasing list counts every variable once. -/
theorem Monomial.countP_ofList (indices : List ℕ) (x : ℕ → Bool) :
    (ofList indices).countP x = (indices.toFinset.filter fun j => x j = true).card := by
  have hnodup : (ofList indices).Nodup := (pairwise_ofList indices).imp ne_of_lt
  rw [List.countP_eq_length_filter, ← List.toFinset_card_of_nodup (hnodup.filter x)]
  congr 1
  ext j
  simp [mem_ofList]

namespace PhasePolynomial

variable {p : PhasePolynomial} {k : Z8}

/-- The terms of `k` times the parity of the variables in a list. -/
def parityTerms (xs : List ℕ) (k : Z8) : List (Monomial × Z8) :=
  (smallSubsets xs).map fun m => (m, parityCoefficient m.length * k)

/-- Adding a parity is adding its terms. -/
theorem addParity_eq (p : PhasePolynomial) (xs : List ℕ) (k : Z8) :
    p.addParity xs k = p.addTerms (parityTerms xs k) := by
  rw [addParity, addTerms, parityTerms, List.foldl_map]

/-- The value of terms with one common coefficient counts those present. -/
theorem valueAt_map_const (l : List Monomial) (c : Z8) (x : ℕ → Bool) :
    SparseSum.valueAt (l.map fun m => (m, c)) x = (l.countP (fun m => m.all x) : Z8) * c := by
  induction l with
  | nil => exact (zero_mul c).symm
  | cons m l ih =>
      rw [List.map_cons, SparseSum.valueAt_cons, ih, List.countP_cons]
      cases m.all x with
      | true =>
          rw [if_pos rfl, if_pos rfl, Nat.cast_add, Nat.cast_one]
          ring
      | false =>
          rw [if_neg (by decide), if_neg (by decide), zero_add, add_zero]

/-- **The parity polynomial has the values of the parity.** -/
theorem valueAt_parityTerms (xs : List ℕ) (k : Z8) (x : ℕ → Bool) :
    SparseSum.valueAt (parityTerms xs k) x = if xs.countP x % 2 == 1 then k else 0 := by
  have hdegree : ∀ d, SparseSum.valueAt ((subsets d xs).map fun m =>
      (m, parityCoefficient m.length * k)) x = ((xs.countP x).choose d : Z8) *
        (parityCoefficient d * k) := by
    intro d
    have hmap : ((subsets d xs).map fun m => (m, parityCoefficient m.length * k)) =
        (subsets d xs).map fun m => (m, parityCoefficient d * k) :=
      List.map_congr_left fun m hm => by rw [(mem_subsets.mp hm).2]
    rw [hmap, valueAt_map_const, countP_subsets]
  rw [parityTerms, smallSubsets, List.map_append, List.map_append, SparseSum.valueAt_append,
    SparseSum.valueAt_append, hdegree, hdegree, hdegree, Nat.choose_one_right]
  have hsum : (xs.countP x : Z8) * (parityCoefficient 1 * k) +
      ((xs.countP x).choose 2 : Z8) * (parityCoefficient 2 * k) +
      ((xs.countP x).choose 3 : Z8) * (parityCoefficient 3 * k) =
        parityValue (xs.countP x) * k := by
    rw [parityValue, parityCoefficient, parityCoefficient, parityCoefficient]
    ring
  rw [hsum, parityValue_eq, ite_mul, one_mul, zero_mul]

/-- The coefficients of a parity are those of a group element. -/
theorem graded_parityCoefficient (m : Monomial) (k : Z8) :
    Graded m (parityCoefficient m.length * k) := by
  refine Dvd.dvd.mul_right ?_ k
  match m.length with
  | 0 | 1 => exact one_dvd _
  | 2 => exact ⟨3, rfl⟩
  | 3 => exact ⟨1, rfl⟩
  | _ + 4 => exact dvd_zero _

/-- The terms of a parity are terms, and divisible as those of group elements. -/
theorem parityTerms_spec (h : Monomial.IsSupport xs n) (k : Z8) :
    ∀ a ∈ parityTerms xs k, a.1.IsTerm n ∧ Graded a.1 a.2 := by
  intro a ha
  obtain ⟨m, hm, rfl⟩ := List.mem_map.mp ha
  exact ⟨h.isTerm hm, graded_parityCoefficient m k⟩

/-- **Adding a parity** changes the coefficients of the subsets with one to three elements. -/
theorem IsGroupOn.addParity (hp : p.IsGroupOn n) (h : Monomial.IsSupport xs n) (k : Z8) :
    (p.addParity xs k).IsGroupOn n ∧ (p.addParity xs k).constant = p.constant ∧
      ∀ m, (p.addParity xs k).coefficient m =
        p.coefficient m + if m ∈ smallSubsets xs then parityCoefficient m.length * k else 0 := by
  obtain ⟨hgroup, hcoeff⟩ := hp.addTerms (parityTerms_spec h k)
  rw [addParity_eq]
  refine ⟨hgroup, constant_addTerms fun a ha => ?_, fun m => ?_⟩
  · obtain ⟨m, hm, rfl⟩ := List.mem_map.mp ha
    exact (mem_smallSubsets.mp hm).2.2
  · have hnodup := nodup_smallSubsets (h.increasing.imp ne_of_lt)
    rw [hcoeff, parityTerms,
      SparseSum.coefficient_map hnodup fun m => parityCoefficient m.length * k]

/-- **Adding a parity** adds `k` at the points where it is odd. -/
theorem IsGroupOn.valueAt_addParity (hp : p.IsGroupOn n) (h : Monomial.IsSupport xs n) (k : Z8)
    (x : ℕ → Bool) :
    (p.addParity xs k).valueAt x = p.valueAt x + if xs.countP x % 2 == 1 then k else 0 := by
  rw [addParity_eq, hp.valueAt_addTerms (parityTerms_spec h k), valueAt_parityTerms]

/-- **The parity of a list of variables**, in any order and with repetitions, is formed without an
error, and as that of the increasing list. -/
theorem parity_ofList {indices : List ℕ} (h : ∀ j ∈ indices, j < n) :
    parity n indices = .ok ((zero n).addParity (Monomial.ofList indices) 1) := by
  have hbelow : Result.indicesBelow (zero n).numVariables (Monomial.ofList indices) = .ok () :=
    Result.indicesBelow_eq_ok.mpr (Monomial.isSupport_ofList h).below
  rw [parity, setParity, hbelow]
  rfl

/-- The parity of an increasing list of variables is formed from zero. -/
theorem parity_eq (h : Monomial.IsSupport xs n) :
    parity n xs = .ok ((zero n).addParity xs 1) := by
  rw [parity_ofList h.below, Monomial.ofList_eq h.increasing]

/-- The factors two and four of a parity are powers of minus two. -/
theorem parityCoefficient_eq {m : Monomial} (hne : m ≠ []) (hdegree : m.length ≤ 3) :
    parityCoefficient m.length = (-2 : Z8) ^ (m.length - 1) := by
  have hpos := List.length_pos_iff.mpr hne
  obtain h | h | h : m.length = 1 ∨ m.length = 2 ∨ m.length = 3 := by omega
  · rw [h]; rfl
  · rw [h]; rfl
  · rw [h]; rfl

/-- **The parity polynomial is the exclusive or.** For any list of variables it is formed without an
error, and its value at a point is one if an odd number of the variables listed are true there, and
zero otherwise, although only the products of up to three of them carry coefficients. It is the
polynomial of a group element and has no constant term. -/
theorem parity_is_exclusiveOr {indices : List ℕ} (h : ∀ j ∈ indices, j < n) :
    ∃ p, parity n indices = .ok p ∧ p.numVariables = n ∧ p.IsConsistent ∧
      p.HasGroupCoefficients ∧ p.constant = 0 ∧
      (∀ m, p.coefficient m =
        if m ≠ [] ∧ m.Pairwise (· < ·) ∧ m ⊆ indices ∧ m.length ≤ 3 then (-2) ^ (m.length - 1)
        else 0) ∧
      ∀ point : List Bool, point.length = n → p.evaluateAt point =
        .ok (if Odd (indices.toFinset.filter fun j => point[j]? = some true).card
          then 1 else 0) := by
  have hsupport := Monomial.isSupport_ofList h
  have hzero := isGroupOn_zero n
  obtain ⟨hgroup, hconst, hcoeff⟩ := hzero.addParity hsupport 1
  obtain ⟨hn, hcons, hrange⟩ := id hgroup
  refine ⟨_, parity_ofList h, hn, hcons, hrange, hconst, fun m => ?_, fun point hpoint => ?_⟩
  · have hmem : m ∈ smallSubsets (Monomial.ofList indices) ↔
        m ≠ [] ∧ m.Pairwise (· < ·) ∧ m ⊆ indices ∧ m.length ≤ 3 := by
      rw [mem_smallSubsets, Monomial.sublist_ofList_iff]
      tauto
    rw [hcoeff, coefficient_zero, zero_add, mul_one]
    by_cases hm : m ∈ smallSubsets (Monomial.ofList indices)
    · obtain ⟨hne, -, -, hdegree⟩ := hmem.mp hm
      rw [if_pos hm, if_pos (hmem.mp hm), parityCoefficient_eq hne hdegree]
    · rw [if_neg hm, if_neg (mt hmem.mpr hm)]
  · have htrue : ∀ j : ℕ, point[j]?.getD false = true ↔ point[j]? = some true := by
      intro j
      cases point[j]? <;> simp
    rw [evaluateAt_eq _ (hpoint.trans hn.symm), hzero.valueAt_addParity hsupport, valueAt_zero,
      zero_add, Monomial.countP_ofList]
    simp only [htrue, beq_iff_eq, ← Nat.odd_iff]

/-- Three variables of which one is listed twice, at a point where two of them are true. -/
theorem parity_is_exclusiveOr_of_repeated :
    ∃ p, parity 4 [2, 0, 2, 3] = .ok p ∧ p.HasGroupCoefficients ∧
      p.evaluateAt [true, true, true, false] = .ok 0 := by
  obtain ⟨p, hp, -, -, hgroup, -, -, hvalue⟩ :=
    @parity_is_exclusiveOr 4 [2, 0, 2, 3] (by decide)
  exact ⟨p, hp, hgroup, (hvalue [true, true, true, false] rfl).trans (by decide)⟩

end PhasePolynomial

end AffinePhase
