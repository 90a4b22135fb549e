import AffinePhase.Polynomial.Term
import Mathlib.Data.List.Sort
import Mathlib.Data.List.Sublists
import Mathlib.Data.Nat.Choose.Basic

/-!
# The rank of a term is its place

The terms of one degree are listed in lexicographic order, and closed formulas in binomial
coefficients give the place of a term in that list. This module proves that they do. The binomial
coefficients are computed by multiplying and dividing in turn, where each division is exact; a pair
or triple that begins with the first index is in the front block of the list, and otherwise in the
list of the remaining indices, behind that block.

## Main results

* `binomial_eq_choose`: the computed binomial coefficient.
* `Monomial.sublist_range_iff`: the increasing lists of indices are the parts of the list of all.
* `subsets_perm_sublistsLen`: the enumeration lists all sublists of a given length, each once.
* `pairwise_subsets`: it lists them in lexicographic order.
* `getElem?_subsets_pairRank`, `getElem?_subsets_tripleRank`: the place of a pair and of a triple.
-/

namespace AffinePhase

/-- After `i` steps the running product is the binomial coefficient over `i`: each division is
exact. -/
theorem fold_binomial (n k : ℕ) :
    Nat.fold k (fun i _ acc => acc * (n - i) / (i + 1)) 1 = n.choose k := by
  induction k with
  | zero => rw [Nat.fold_zero, Nat.choose_zero_right]
  | succ k ih =>
      rw [Nat.fold_succ, ih, ← Nat.choose_succ_right_eq, Nat.mul_div_cancel _ k.succ_pos]

/-- **The binomial coefficient** is computed exactly. -/
theorem binomial_eq_choose (n k : ℕ) : binomial n k = n.choose k := by
  rw [binomial]
  split
  · rename_i h
    rw [Nat.choose_eq_zero_of_lt h]
  · exact fold_binomial n k

/-! ### The enumeration -/

/-- The enumeration is that of all sublists of the given length, in another order. -/
theorem subsets_perm_sublistsLen (k : ℕ) (xs : List ℕ) :
    (subsets k xs).Perm (List.sublistsLen k xs) := by
  induction xs generalizing k with
  | nil =>
      cases k with
      | zero => exact .refl _
      | succ k => exact .refl _
  | cons x xs ih =>
      cases k with
      | zero => exact .refl _
      | succ k =>
          rw [subsets, List.sublistsLen_succ_cons]
          exact (((ih k).map _).append (ih (k + 1))).trans List.perm_append_comm

/-- The listed subsets are the sublists of the given length. -/
theorem mem_subsets {k : ℕ} {xs m : List ℕ} : m ∈ subsets k xs ↔ m.Sublist xs ∧ m.length = k := by
  rw [(subsets_perm_sublistsLen k xs).mem_iff, List.mem_sublistsLen]

/-- There are as many subsets as the binomial coefficient says. -/
theorem length_subsets (k : ℕ) (xs : List ℕ) : (subsets k xs).length = xs.length.choose k := by
  rw [(subsets_perm_sublistsLen k xs).length_eq, List.length_sublistsLen]

/-- No subset is listed twice. -/
theorem nodup_subsets (k : ℕ) {xs : List ℕ} (h : xs.Nodup) : (subsets k xs).Nodup :=
  (subsets_perm_sublistsLen k xs).nodup_iff.mpr (List.nodup_sublistsLen k h)

/-- **The enumeration is lexicographic**: from an increasing list it takes increasing sublists in
lexicographic order. -/
theorem pairwise_subsets {xs : List ℕ} (h : xs.Pairwise (· < ·)) (k : ℕ) :
    (subsets k xs).Pairwise (· < ·) := by
  induction xs generalizing k with
  | nil =>
      cases k with
      | zero => exact List.pairwise_singleton _ _
      | succ k => exact .nil
  | cons x xs ih =>
      obtain ⟨hfirst, hrest⟩ := List.pairwise_cons.mp h
      cases k with
      | zero => exact List.pairwise_singleton _ _
      | succ k =>
          rw [subsets]
          refine List.pairwise_append.mpr ⟨?_, ih hrest (k + 1), ?_⟩
          · rw [List.pairwise_map]
            exact (ih hrest k).imp List.cons_lt_cons_self.mpr
          · -- what follows the block of the first element begins with a later one
            intro a ha b hb
            obtain ⟨a, -, rfl⟩ := List.mem_map.mp ha
            obtain ⟨hsub, hlen⟩ := mem_subsets.mp hb
            cases b with
            | nil => simp at hlen
            | cons y b => exact List.cons_lt_cons_iff.mpr (.inl (hfirst y (hsub.subset (by simp))))

/-- The subsets with one element. -/
theorem subsets_one (xs : List ℕ) : subsets 1 xs = xs.map fun i => [i] := by
  induction xs with
  | nil => rfl
  | cons x xs ih =>
      rw [subsets, ih, subsets]
      rfl

/-- Among increasing lists, the parts of one are those with fewer elements. -/
theorem Monomial.sublist_of_subset {m m' : Monomial} (h : m.Pairwise (· < ·))
    (h' : m'.Pairwise (· < ·)) (hsubset : m ⊆ m') : m.Sublist m' :=
  List.sublist_of_subperm_of_pairwise (List.subperm_of_subset (h.imp ne_of_lt) hsubset)
    (h.imp le_of_lt) (h'.imp le_of_lt)

/-- The parts of the list of the first indices are the increasing lists of them. -/
theorem Monomial.sublist_range_iff {m : Monomial} {n : ℕ} :
    m.Sublist (List.range n) ↔ m.Pairwise (· < ·) ∧ ∀ i ∈ m, i < n := by
  constructor
  · exact fun h => ⟨List.pairwise_lt_range.sublist h, fun i hi => List.mem_range.mp (h.subset hi)⟩
  · rintro ⟨hsorted, hbelow⟩
    exact sublist_of_subset hsorted List.pairwise_lt_range
      fun i hi => List.mem_range.mpr (hbelow i hi)

/-- An increasing list of indices below `n` is one of the listed subsets. -/
theorem mem_subsets_range {k n : ℕ} {m : List ℕ} :
    m ∈ subsets k (List.range n) ↔ m.Pairwise (· < ·) ∧ (∀ i ∈ m, i < n) ∧ m.length = k := by
  rw [mem_subsets, Monomial.sublist_range_iff, and_assoc]

/-! ### Places -/

/-- The place of a pair of indices among those from `s` on, `l` of them. -/
theorem getElem?_subsets_pair {l s a b : ℕ} (hsa : s ≤ a) (hab : a < b) (hb : b < s + l) :
    (subsets 2 (List.range' s l))[l.choose 2 - (l - (a - s)).choose 2 + (b - a - 1)]? =
      some [a, b] := by
  induction l generalizing s with
  | zero => omega
  | succ l ih =>
      have hblock : ((subsets 1 (List.range' (s + 1) l)).map (s :: ·)).length = l := by
        rw [List.length_map, length_subsets, List.length_range', Nat.choose_one_right]
      rw [List.range'_succ, subsets]
      rcases Nat.eq_or_lt_of_le hsa with rfl | hsa
      · have hindex : s + 1 + 1 * (b - s - 1) = b := by omega
        rw [Nat.sub_self, Nat.sub_zero, Nat.sub_self, Nat.zero_add,
          List.getElem?_append_left (by omega), subsets_one, List.map_map, List.getElem?_map,
          List.getElem?_range' (by omega), hindex]
        rfl
      · have hmono : (l - (a - (s + 1))).choose 2 ≤ l.choose 2 :=
          Nat.choose_le_choose 2 (Nat.sub_le _ _)
        have hpascal : (l + 1).choose 2 = l + l.choose 2 := by
          rw [Nat.choose_succ_succ, Nat.choose_one_right]
        have hshift : l + 1 - (a - s) = l - (a - (s + 1)) := by omega
        have hindex : l + l.choose 2 - (l - (a - (s + 1))).choose 2 + (b - a - 1) - l =
            l.choose 2 - (l - (a - (s + 1))).choose 2 + (b - a - 1) := by omega
        rw [hpascal, hshift, List.getElem?_append_right (by omega), hblock, hindex]
        exact ih hsa (by omega)

/-- The place of a triple of indices among those from `s` on, `l` of them. -/
theorem getElem?_subsets_triple {l s a b c : ℕ} (hsa : s ≤ a) (hab : a < b) (hbc : b < c)
    (hc : c < s + l) :
    (subsets 3 (List.range' s l))[l.choose 3 - (l - (a - s)).choose 3 +
        (l - (a - s) - 1).choose 2 - (l - (b - s)).choose 2 + (c - b - 1)]? = some [a, b, c] := by
  induction l generalizing s with
  | zero => omega
  | succ l ih =>
      have hblock : ((subsets 2 (List.range' (s + 1) l)).map (s :: ·)).length = l.choose 2 := by
        rw [List.length_map, length_subsets, List.length_range']
      rw [List.range'_succ, subsets]
      rcases Nat.eq_or_lt_of_le hsa with rfl | hsa
      · have hpair := getElem?_subsets_pair (l := l) (s := s + 1) hab hbc (by omega)
        have hlt := (List.getElem?_eq_some_iff.mp hpair).1
        rw [length_subsets, List.length_range'] at hlt
        have hshift : l + 1 - (b - s) = l - (b - (s + 1)) := by omega
        rw [Nat.sub_self, Nat.sub_zero, Nat.sub_self, Nat.zero_add, Nat.add_sub_cancel, hshift,
          List.getElem?_append_left (by omega), List.getElem?_map, hpair]
        rfl
      · have hmono : (l - (a - (s + 1))).choose 3 ≤ l.choose 3 :=
          Nat.choose_le_choose 3 (Nat.sub_le _ _)
        have hmono' : (l - (b - (s + 1))).choose 2 ≤ (l - (a - (s + 1)) - 1).choose 2 :=
          Nat.choose_le_choose 2 (by omega)
        have hpascal : (l + 1).choose 3 = l.choose 2 + l.choose 3 := Nat.choose_succ_succ l 2
        have hshift : l + 1 - (a - s) = l - (a - (s + 1)) := by omega
        have hshift' : l + 1 - (b - s) = l - (b - (s + 1)) := by omega
        have hindex : l.choose 2 + l.choose 3 - (l - (a - (s + 1))).choose 3 +
              (l - (a - (s + 1)) - 1).choose 2 - (l - (b - (s + 1))).choose 2 + (c - b - 1) -
                l.choose 2 =
            l.choose 3 - (l - (a - (s + 1))).choose 3 + (l - (a - (s + 1)) - 1).choose 2 -
              (l - (b - (s + 1))).choose 2 + (c - b - 1) := by omega
        rw [hpascal, hshift, hshift', List.getElem?_append_right (by omega), hblock, hindex]
        exact ih hsa (by omega)

/-- **The rank of a pair** is its place among the pairs below `n`. -/
theorem getElem?_subsets_pairRank {n a b : ℕ} (hab : a < b) (hbn : b < n) :
    (subsets 2 (List.range n))[pairRank n a b]? = some [a, b] := by
  have h := getElem?_subsets_pair (l := n) (s := 0) (Nat.zero_le a) hab (by omega)
  rwa [Nat.sub_zero, ← List.range_eq_range', ← binomial_eq_choose, ← binomial_eq_choose] at h

/-- **The rank of a triple** is its place among the triples below `n`. -/
theorem getElem?_subsets_tripleRank {n a b c : ℕ} (hab : a < b) (hbc : b < c) (hcn : c < n) :
    (subsets 3 (List.range n))[tripleRank n a b c]? = some [a, b, c] := by
  have h := getElem?_subsets_triple (l := n) (s := 0) (Nat.zero_le a) hab hbc (by omega)
  rwa [Nat.sub_zero, Nat.sub_zero, ← List.range_eq_range', ← binomial_eq_choose,
    ← binomial_eq_choose, ← binomial_eq_choose, ← binomial_eq_choose] at h

end AffinePhase
