/-!
# Terms and their ranks

A monomial in boolean variables is a set of variable indices, written as an increasing list. The
terms of one degree are laid out in lexicographic order of these lists, so a term of degree two
or three has a *rank*, its place in that order, which closed formulas in binomial coefficients
give without any enumeration.

## Main definitions

* `Monomial`, `Monomial.ofList`, `Monomial.union`: index sets as increasing lists.
* `subsets`, `firstSubsets`: the increasing lists of a given length, in lexicographic order, all of
  them or the first ones only.
* `binomial`, `pairRank`, `tripleRank`: binomial coefficients and the ranks.
-/

namespace AffinePhase

/-! ### Monomials -/

/-- The variable indices of a monomial, increasing; empty for the constant term. -/
abbrev Monomial := List Nat

namespace Monomial

/-- Adds an index to a monomial, which keeps it increasing. -/
def insert (i : Nat) : Monomial → Monomial
  | [] => [i]
  | j :: rest =>
      if i < j then i :: j :: rest
      else if i = j then j :: rest
      else j :: insert i rest

/-- The monomial of a list of indices in any order, repetitions counting once. -/
def ofList (indices : List Nat) : Monomial :=
  indices.foldr insert []

/-- The product of two monomials: a variable is its own square. -/
def union (a b : Monomial) : Monomial :=
  a.foldr insert b

/-- Inserting an index adds it and nothing else. -/
theorem mem_insert {i j : Nat} {m : Monomial} : i ∈ insert j m ↔ i = j ∨ i ∈ m := by
  induction m with
  | nil => simp [insert]
  | cons k m ih =>
      unfold insert
      split
      · simp
      · split
        · rename_i heq
          simp [heq]
        · rw [List.mem_cons, List.mem_cons, ih]
          exact or_left_comm

/-- Inserting an index keeps a monomial increasing. -/
theorem pairwise_insert {i : Nat} {m : Monomial} (h : m.Pairwise (· < ·)) :
    (insert i m).Pairwise (· < ·) := by
  induction m with
  | nil => simp [insert]
  | cons j m ih =>
      obtain ⟨hhead, htail⟩ := List.pairwise_cons.mp h
      unfold insert
      split
      · rename_i hij
        refine List.pairwise_cons.mpr ⟨fun k hk => ?_, h⟩
        rcases List.mem_cons.mp hk with rfl | hk
        · exact hij
        · exact Nat.lt_trans hij (hhead k hk)
      · split
        · exact h
        · refine List.pairwise_cons.mpr ⟨fun k hk => ?_, ih htail⟩
          rcases mem_insert.mp hk with rfl | hk
          · omega
          · exact hhead k hk

/-- **Monomials are increasing**, whatever list they are made from. -/
theorem pairwise_ofList (indices : List Nat) : (ofList indices).Pairwise (· < ·) := by
  induction indices with
  | nil => exact List.Pairwise.nil
  | cons i indices ih => exact pairwise_insert ih

/-- The monomial of a list has the indices of the list. -/
theorem mem_ofList {i : Nat} {indices : List Nat} : i ∈ ofList indices ↔ i ∈ indices := by
  induction indices with
  | nil => simp [ofList]
  | cons j indices ih =>
      have hstep : ofList (j :: indices) = insert j (ofList indices) := rfl
      rw [hstep, mem_insert, ih, List.mem_cons]

end Monomial

/-! ### Enumeration -/

/-- The sublists of the given length, in lexicographic order of positions. -/
def subsets : Nat → List Nat → List (List Nat)
  | 0, _ => [[]]
  | _ + 1, [] => []
  | k + 1, x :: xs => (subsets k xs).map (x :: ·) ++ subsets (k + 1) xs

/-- The first of these sublists, at most `limit` of them; no others are formed. -/
def firstSubsets : Nat → Nat → List Nat → List (List Nat)
  | 0, _, _ => []
  | _ + 1, 0, _ => [[]]
  | _ + 1, _ + 1, [] => []
  | limit + 1, k + 1, x :: xs =>
      let withFirst := (firstSubsets (limit + 1) k xs).map (x :: ·)
      withFirst ++ firstSubsets (limit + 1 - withFirst.length) (k + 1) xs

/-- **Stopping early** gives the front of the enumeration. -/
theorem firstSubsets_eq_take (limit k : Nat) (xs : List Nat) :
    firstSubsets limit k xs = (subsets k xs).take limit := by
  fun_induction firstSubsets limit k xs with
  | case1 => simp
  | case2 => simp [subsets]
  | case3 => simp [subsets]
  | case4 limit k x xs withFirst ihfirst ihrest =>
      rw [ihrest, subsets, List.take_append, List.length_map]
      simp only [withFirst, ihfirst, List.length_map, List.length_take, ← List.map_take]
      congr 2
      omega

/-! ### Ranks -/

/-- The binomial coefficient, by multiplying and dividing in turn: after `i` steps the value is
the number of subsets with `i` elements. -/
def binomial (n k : Nat) : Nat :=
  if n < k then 0
  else Nat.fold k (fun i _ acc => acc * (n - i) / (i + 1)) 1

/-- The rank of `{a, b}` with `a < b < n` among the pairs below `n`. -/
def pairRank (n a b : Nat) : Nat :=
  binomial n 2 - binomial (n - a) 2 + (b - a - 1)

/-- The rank of `{a, b, c}` with `a < b < c < n` among the triples below `n`. -/
def tripleRank (n a b c : Nat) : Nat :=
  binomial n 3 - binomial (n - a) 3 + binomial (n - a - 1) 2 - binomial (n - b) 2 + (c - b - 1)

end AffinePhase
