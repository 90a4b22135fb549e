import AffinePhase.Proofs.Polynomial.Bytes
import AffinePhase.Proofs.Polynomial.Term
import AffinePhase.Proofs.Storage

/-!
# Ranks within 64 bits

The rank of a term is a closed formula in binomial coefficients. Computed in numbers of 64 bits, a
product in it may be too large, a difference may be negative, and the division that follows a
product may leave a remainder. None of this happens. A product is divided by the number of factors
that it has by then, and so is divisible; the coefficients that are subtracted are those of fewer
indices; and what is added never leads past the number of all terms.

The ranks are the places in an enumeration, so they number the pairs and the triples without gaps.

## Main definitions

* `Storage.StepIsExact`: one factor of a binomial coefficient, with nothing lost.
* `Storage.Enumerates`: the lexicographic list of all subsets of one size.

## Main results

* `Storage.binomial_counts_subsets`: binomial coefficients as numbers of subsets.
* `Storage.TermsFit.pairRank_eq`, `Storage.TermsFit.tripleRank_eq`: the formulas do not overflow.
* `Storage.ranks_number_subsets`: ranks are places, and number all pairs and triples.
-/

namespace AffinePhase

namespace Storage

variable {n k i a b c d : ℕ}

/-! ### Binomial coefficients -/

/-- One factor of a binomial coefficient: the product so far is the number of subsets with `i`
elements, the next product is a number of 64 bits, and its division leaves no remainder. -/
structure StepIsExact (n i : ℕ) : Prop where
  /-- The product so far. -/
  before : binomialFrom n 0 1 i = .ok (n.choose i)
  /-- The next product fits. -/
  fits : n.choose i * (n - i) < Text.indexBound
  /-- Nothing is rounded. -/
  divides : i + 1 ∣ n.choose i * (n - i)
  /-- The product with the next factor. -/
  after : binomialFrom n 0 1 (i + 1) = .ok (n.choose i * (n - i) / (i + 1))

/-- A factor whose product fits is taken with nothing lost. -/
theorem stepIsExact (h : ∀ j < i + 1, n.choose j * (n - j) < Text.indexBound) :
    StepIsExact n i where
  before := binomialFrom_one fun j hj => h j (by omega)
  fits := h i i.lt_succ_self
  divides := Dvd.intro_left _ (Nat.choose_succ_right_eq n i)
  after := by rw [choose_mul_div, binomialFrom_one h]

/-- **Binomial coefficients count subsets.** If the products on the way fit, the number of subsets
with `k` elements is computed, zero if there are fewer than `k` elements, and no division on the way
leaves a remainder. -/
theorem binomial_counts_subsets
    (h : k ≤ n → ∀ i < k, n.choose i * (n - i) < Text.indexBound) :
    binomial n k = .ok ((Finset.range n).powersetCard k).card ∧
      (n < k → binomial n k = .ok 0) ∧ (k ≤ n → ∀ i < k, StepIsExact n i) := by
  have hzero : n < k → binomial n k = .ok 0 := fun hlt => by rw [binomial, if_pos hlt]; rfl
  refine ⟨?_, hzero, fun hk i hi => stepIsExact fun j hj => h hk j (by omega)⟩
  rw [Finset.card_powersetCard, Finset.card_range]
  rcases Nat.lt_or_ge n k with hlt | hk
  · rw [hzero hlt, Nat.choose_eq_zero_of_lt hlt]
  · exact binomial_eq_ok (h hk)

/-- Triples of three million elements: the last product has 64 bits, three million and the two
numbers below it have a product with more. -/
theorem binomial_counts_subsets_of_millions :
    binomial 3000000 3 = .ok ((Finset.range 3000000).powersetCard 3).card ∧
      ¬ TermsFit 3000000 := by
  refine ⟨(binomial_counts_subsets fun _ i hi => ?_).1, by decide⟩
  obtain rfl | rfl | rfl : i = 0 ∨ i = 1 ∨ i = 2 := by omega
  · rw [Nat.choose_zero_right]
    decide
  · rw [Nat.choose_one_right]
    decide
  · rw [Nat.choose_two_right]
    decide

/-! ### Ranks -/

/-- A sum that fits is formed. -/
theorem add_eq_ok (h : a + b < Text.indexBound) : add a b = .ok (a + b) := by
  rw [add, Result.require_eq_ok.mpr h]
  rfl

/-- A difference that is not negative is formed. -/
theorem sub_eq_ok (h : b ≤ a) : sub a b = .ok (a - b) := by
  rw [sub, Result.require_eq_ok.mpr h]
  rfl

namespace TermsFit

/-- The terms in fewer variables fit as well. -/
theorem mono (h : TermsFit n) (hk : k ≤ n) : TermsFit k :=
  (Nat.mul_le_mul (Nat.mul_le_mul hk (by omega)) (by omega)).trans_lt h

/-- Binomial coefficients up to the third are computed, if the terms fit. -/
theorem binomial_eq (h : TermsFit n) (hd : d ≤ 3) : Storage.binomial n d = .ok (n.choose d) :=
  binomial_eq_ok fun i hi => h.product_lt i (hi.trans_le hd)

/-- The number of terms of a degree has 64 bits. -/
theorem choose_lt (h : TermsFit n) (hd : d + 1 ≤ 3) : n.choose (d + 1) < Text.indexBound :=
  calc n.choose (d + 1) ≤ n.choose (d + 1) * (d + 1) := Nat.le_mul_of_pos_right _ d.succ_pos
    _ = n.choose d * (n - d) := Nat.choose_succ_right_eq n d
    _ < Text.indexBound := h.product_lt d hd

end TermsFit

/-- The rank of a pair is below the number of pairs. -/
theorem pairRank_lt (hab : a < b) (hb : b < n) : AffinePhase.pairRank n a b < n.choose 2 := by
  have hplace := (List.getElem?_eq_some_iff.mp (getElem?_subsets_pairRank hab hb)).1
  rwa [length_subsets, List.length_range] at hplace

/-- The rank of a triple is below the number of triples. -/
theorem tripleRank_lt (hab : a < b) (hbc : b < c) (hc : c < n) :
    AffinePhase.tripleRank n a b c < n.choose 3 := by
  have hplace := (List.getElem?_eq_some_iff.mp (getElem?_subsets_tripleRank hab hbc hc)).1
  rwa [length_subsets, List.length_range] at hplace

/-- **The rank of a pair** is computed without overflow. -/
theorem TermsFit.pairRank_eq (h : TermsFit n) (hab : a < b) (hb : b < n) :
    pairRank n a b = .ok (AffinePhase.pairRank n a b) := by
  have hrank : AffinePhase.pairRank n a b = n.choose 2 - (n - a).choose 2 + (b - a - 1) := by
    rw [AffinePhase.pairRank, binomial_eq_choose, binomial_eq_choose]
  have hlt := (pairRank_lt hab hb).trans (h.choose_lt (by decide))
  have hpairs : binomial n 2 = .ok (n.choose 2) := h.binomial_eq (by decide)
  have hindices : sub n a = .ok (n - a) := sub_eq_ok (by omega)
  have hothers : binomial (n - a) 2 = .ok ((n - a).choose 2) :=
    (h.mono (Nat.sub_le n a)).binomial_eq (by decide)
  have hbefore := sub_eq_ok (Nat.choose_le_choose 2 (Nat.sub_le n a))
  have hgap : sub b a = .ok (b - a) := sub_eq_ok hab.le
  have hbetween : sub (b - a) 1 = .ok (b - a - 1) := sub_eq_ok (by omega)
  simp only [pairRank, hpairs, hindices, hothers, hbefore, hgap, hbetween, Result.ok_bind]
  rw [add_eq_ok (hrank ▸ hlt), hrank]

/-- **The rank of a triple** is computed without overflow. -/
theorem TermsFit.tripleRank_eq (h : TermsFit n) (hab : a < b) (hbc : b < c) (hc : c < n) :
    tripleRank n a b c = .ok (AffinePhase.tripleRank n a b c) := by
  have hrank : AffinePhase.tripleRank n a b c =
      n.choose 3 - (n - a).choose 3 + (n - a - 1).choose 2 - (n - b).choose 2 + (c - b - 1) := by
    simp only [AffinePhase.tripleRank, binomial_eq_choose]
  have hlt := (tripleRank_lt hab hbc hc).trans (h.choose_lt (by decide))
  have hall : n.choose 3 < Text.indexBound := h.choose_lt (by decide)
  -- the triples from `a` on are those that begin with `a` and those that do not
  have hpascal : (n - a).choose 3 = (n - a - 1).choose 2 + (n - a - 1).choose 3 :=
    Nat.choose_eq_choose_pred_add (by omega) (by decide)
  have hmono : (n - a).choose 3 ≤ n.choose 3 := Nat.choose_le_choose 3 (Nat.sub_le n a)
  have hlater : (n - b).choose 2 ≤ (n - a - 1).choose 2 := Nat.choose_le_choose 2 (by omega)
  have htriples : binomial n 3 = .ok (n.choose 3) := h.binomial_eq (by decide)
  have hindices : sub n a = .ok (n - a) := sub_eq_ok (by omega)
  have hothers : binomial (n - a) 3 = .ok ((n - a).choose 3) :=
    (h.mono (Nat.sub_le n a)).binomial_eq (by decide)
  have hbefore := sub_eq_ok hmono
  have hsecond : sub (n - a) 1 = .ok (n - a - 1) := sub_eq_ok (by omega)
  have hfirst : binomial (n - a - 1) 2 = .ok ((n - a - 1).choose 2) :=
    (h.mono (by omega)).binomial_eq (by decide)
  have hblock : add (n.choose 3 - (n - a).choose 3) ((n - a - 1).choose 2) =
      .ok (n.choose 3 - (n - a).choose 3 + (n - a - 1).choose 2) := add_eq_ok (by omega)
  have hpairs : binomial (n - b) 2 = .ok ((n - b).choose 2) :=
    (h.mono (Nat.sub_le n b)).binomial_eq (by decide)
  have hthird : sub n b = .ok (n - b) := sub_eq_ok (by omega)
  have hinside : sub (n.choose 3 - (n - a).choose 3 + (n - a - 1).choose 2) ((n - b).choose 2) =
      .ok (n.choose 3 - (n - a).choose 3 + (n - a - 1).choose 2 - (n - b).choose 2) :=
    sub_eq_ok (by omega)
  have hgap : sub c b = .ok (c - b) := sub_eq_ok hbc.le
  have hbetween : sub (c - b) 1 = .ok (c - b - 1) := sub_eq_ok (by omega)
  simp only [tripleRank, htriples, hindices, hothers, hbefore, hsecond, hfirst, hblock, hthird,
    hpairs, hinside, hgap, hbetween, Result.ok_bind]
  rw [add_eq_ok (hrank ▸ hlt), hrank]

/-- The place of a term is computed without overflow. -/
theorem TermsFit.place_eq {m : Monomial} (h : TermsFit n) (hm : m.IsTerm n) :
    place n m = .ok () := by
  obtain ⟨hsorted, hbelow, hdegree⟩ := hm
  match m, hdegree with
  | [], _ | [_], _ => rfl
  | [a, b], _ =>
      rw [place, h.pairRank_eq (by simpa using hsorted) (hbelow b (by simp))]
      rfl
  | [a, b, c], _ =>
      obtain ⟨hab, hbc⟩ := List.pairwise_cons.mp hsorted
      rw [place, h.tripleRank_eq (hab b (by simp)) (List.rel_of_pairwise_cons hbc (by simp))
        (hbelow c (by simp))]
      rfl

/-- What is done with the indices of a term is done after their place has been computed. -/
theorem TermsFit.place_bind {α : Type} {indices : List ℕ} {f : Monomial → Result α}
    (h : TermsFit n) :
    (do place n (← PhasePolynomial.monomial n indices)
        PhasePolynomial.monomial n indices >>= f) = PhasePolynomial.monomial n indices >>= f := by
  cases hcheck : PhasePolynomial.monomial n indices with
  | error failure => rfl
  | ok m =>
      obtain ⟨hnames, rfl⟩ := PhasePolynomial.names_of_monomial hcheck
      rw [Result.ok_bind, h.place_eq (Monomial.isTerm_ofList hnames.degree hnames.below),
        Result.ok_bind]

/-- **Reading a term** overflows nowhere. -/
theorem TermsFit.storedTerm_eq {p : PhasePolynomial} (h : TermsFit p.numVariables)
    (indices : List ℕ) : p.storedTerm indices = p.term indices :=
  h.place_bind

/-- **Writing a term** overflows nowhere. -/
theorem TermsFit.storedSetTerm_eq {p : PhasePolynomial} (h : TermsFit p.numVariables)
    (indices : List ℕ) (value : UInt8) :
    p.storedSetTerm indices value = p.setTerm indices (Z8.ofByte value) := by
  rw [← PhasePolynomial.setTermInBytes_eq]
  exact h.place_bind

/-! ### Numbering -/

/-- A list of all increasing lists of `d` indices below `n`, each once, in lexicographic order. -/
structure Enumerates (l : List (List ℕ)) (d n : ℕ) : Prop where
  /-- The lists come in strictly increasing order. -/
  increasing : l.Pairwise (· < ·)
  /-- The increasing lists of so many indices are listed, and no others. -/
  complete : ∀ m, m ∈ l ↔ m.Pairwise (· < ·) ∧ (∀ i ∈ m, i < n) ∧ m.length = d

/-- The subsets of one size are enumerated. -/
theorem enumerates_subsets (d n : ℕ) : Enumerates (subsets d (List.range n)) d n :=
  ⟨pairwise_subsets List.pairwise_lt_range d, fun _ => mem_subsets_range⟩

/-- Ranks number the subsets of one size. -/
theorem rank_bijOn (hd : d ≤ 3) : Set.BijOn (Monomial.rank n)
    {m | m ∈ subsets d (List.range n)} (Set.Iio (n.choose d)) := by
  refine ⟨fun m hm => ?_, fun m hm m' hm' heq => ?_, fun r hr => ?_⟩
  · have hlen : m.length = d := (mem_subsets_range.mp hm).2.2
    have hplace := (Monomial.isTerm_of_mem_subsets hd hm).getElem?_rank
    rw [hlen] at hplace
    have hlt := (List.getElem?_eq_some_iff.mp hplace).1
    rwa [length_subsets, List.length_range] at hlt
  · have hlen : m.length = m'.length :=
      (mem_subsets_range.mp hm).2.2.trans (mem_subsets_range.mp hm').2.2.symm
    exact ((Monomial.isTerm_of_mem_subsets hd hm).rank_eq_iff
      (Monomial.isTerm_of_mem_subsets hd hm') hlen).mp heq
  · have hlt : r < (subsets d (List.range n)).length := by
      rwa [length_subsets, List.length_range]
    exact ⟨_, List.getElem_mem hlt,
      (Monomial.rank_of_getElem? hd (List.getElem?_eq_getElem hlt)).2⟩

/-- The pairs of indices below `n` as lists. -/
theorem pair_bijOn (n : ℕ) : Set.BijOn (fun p : ℕ × ℕ => [p.1, p.2])
    {p | p.1 < p.2 ∧ p.2 < n} {m | m ∈ subsets 2 (List.range n)} := by
  refine ⟨fun p hp => ?_, fun p _ q _ heq => ?_, fun m hm => ?_⟩
  · obtain ⟨hab, hb⟩ := hp
    exact mem_subsets_range.mpr ⟨by simpa using hab, by simp [hb, hab.trans hb], rfl⟩
  · simpa [Prod.ext_iff] using heq
  · obtain ⟨hsorted, hbelow, hlen⟩ := mem_subsets_range.mp hm
    obtain ⟨a, b, rfl⟩ := List.length_eq_two.mp hlen
    exact ⟨(a, b), ⟨by simpa using hsorted, hbelow b (by simp)⟩, rfl⟩

/-- The triples of indices below `n` as lists. -/
theorem triple_bijOn (n : ℕ) : Set.BijOn (fun t : ℕ × ℕ × ℕ => [t.1, t.2.1, t.2.2])
    {t | t.1 < t.2.1 ∧ t.2.1 < t.2.2 ∧ t.2.2 < n} {m | m ∈ subsets 3 (List.range n)} := by
  refine ⟨fun t ht => ?_, fun t _ u _ heq => ?_, fun m hm => ?_⟩
  · obtain ⟨hab, hbc, hc⟩ := ht
    have hb := hbc.trans hc
    exact mem_subsets_range.mpr
      ⟨by simp [hab, hbc, hab.trans hbc], by simp [hc, hb, hab.trans hb], rfl⟩
  · simpa [Prod.ext_iff] using heq
  · obtain ⟨hsorted, hbelow, hlen⟩ := mem_subsets_range.mp hm
    obtain ⟨a, b, c, rfl⟩ := List.length_eq_three.mp hlen
    obtain ⟨hab, hbc⟩ := List.pairwise_cons.mp hsorted
    exact ⟨(a, b, c), ⟨hab b (by simp), List.rel_of_pairwise_cons hbc (by simp),
      hbelow c (by simp)⟩, rfl⟩

/-- **Ranks number the pairs and the triples.** As long as the terms fit, the formulas are computed
without overflow. They give the places of the pairs and of the triples in the lexicographic
enumeration, and so are one-to-one onto the numbers below the number of pairs and of triples. -/
theorem ranks_number_subsets (h : TermsFit n) :
    (∀ d, Enumerates (subsets d (List.range n)) d n) ∧
    (∀ a b, a < b → b < n → ∃ r, pairRank n a b = .ok r ∧
      (subsets 2 (List.range n))[r]? = some [a, b]) ∧
    (∀ a b c, a < b → b < c → c < n → ∃ r, tripleRank n a b c = .ok r ∧
      (subsets 3 (List.range n))[r]? = some [a, b, c]) ∧
    Set.BijOn (fun p : ℕ × ℕ => pairRank n p.1 p.2) {p | p.1 < p.2 ∧ p.2 < n}
      (Except.ok '' Set.Iio (n.choose 2)) ∧
    Set.BijOn (fun t : ℕ × ℕ × ℕ => tripleRank n t.1 t.2.1 t.2.2)
      {t | t.1 < t.2.1 ∧ t.2.1 < t.2.2 ∧ t.2.2 < n} (Except.ok '' Set.Iio (n.choose 3)) := by
  have hok : ∀ r, Set.BijOn (Except.ok : ℕ → Result ℕ) (Set.Iio r) (Except.ok '' Set.Iio r) :=
    fun r => Set.InjOn.bijOn_image fun _ _ _ _ => Except.ok.inj
  refine ⟨fun d => enumerates_subsets d n, fun a b hab hb => ?_, fun a b c hab hbc hc => ?_, ?_, ?_⟩
  · exact ⟨_, h.pairRank_eq hab hb, getElem?_subsets_pairRank hab hb⟩
  · exact ⟨_, h.tripleRank_eq hab hbc hc, getElem?_subsets_tripleRank hab hbc hc⟩
  · refine ((hok _).comp ((rank_bijOn (by decide)).comp (pair_bijOn n))).congr fun p hp => ?_
    exact (h.pairRank_eq hp.1 hp.2).symm
  · refine ((hok _).comp ((rank_bijOn le_rfl).comp (triple_bijOn n))).congr fun t ht => ?_
    exact (h.tripleRank_eq ht.1 ht.2.1 ht.2.2).symm

/-- With as many variables as fit: the place of a triple near the end of the first block. -/
theorem ranks_number_subsets_of_most :
    TermsFit 2642246 ∧ ¬ TermsFit 2642247 ∧ tripleRank 2642246 0 1 2642245 = .ok 2642243 ∧
      (subsets 3 (List.range 2642246))[2642243]? = some [0, 1, 2642245] := by
  have hfit : TermsFit 2642246 := by decide
  have hrank : tripleRank 2642246 0 1 2642245 = .ok 2642243 := by rfl
  obtain ⟨-, -, htriples, -⟩ := ranks_number_subsets hfit
  obtain ⟨r, hr, hplace⟩ := htriples 0 1 2642245 (by decide) (by decide) (by decide)
  obtain rfl := Except.ok.inj (hrank.symm.trans hr)
  exact ⟨hfit, by decide, hrank, hplace⟩

end Storage

end AffinePhase
