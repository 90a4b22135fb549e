import AffinePhase.Proofs.Result
import AffinePhase.Storage
import Mathlib.Data.Nat.Choose.Basic

/-!
# Room for the tables

Binomial coefficients are computed by multiplying and dividing in turn, and a product that is no
number of 64 bits is refused. The greatest product for the tables of a polynomial is that of the
number of its variables and the two numbers below it: if it fits, nothing is refused, and every
table of an element ends far below the limit.

## Main definitions

* `Storage.TermsFit`: the condition on the number of variables.

## Main results

* `Storage.binomial_eq_ok`, `Storage.binomial_of_ok`: binomial coefficients, if all products fit and
  if they are computed at all.
* `Storage.TermsFit.element`: the tables of an element can be stored.
-/

namespace AffinePhase.Storage

variable {n k : ℕ}

/-- The product of `n` and the two numbers below it is a number of 64 bits. -/
def TermsFit (n : ℕ) : Prop :=
  n * (n - 1) * (n - 2) < Text.indexBound

instance (n : ℕ) : Decidable (TermsFit n) :=
  inferInstanceAs (Decidable (_ < _))

/-! ### Binomial coefficients -/

/-- Each division is exact. -/
theorem choose_mul_div (n index : ℕ) :
    n.choose index * (n - index) / (index + 1) = n.choose (index + 1) := by
  rw [← Nat.choose_succ_right_eq, Nat.mul_div_cancel _ index.succ_pos]

/-- Further factors lead from one binomial coefficient to another. -/
theorem binomialFrom_choose (index : ℕ)
    (h : ∀ i < index + k, n.choose i * (n - i) < Text.indexBound) :
    binomialFrom n index (n.choose index) k = .ok (n.choose (index + k)) := by
  induction k generalizing index with
  | zero => rfl
  | succ k ih =>
      have hproduct : n.choose index * (n - index) < Text.indexBound := h index (by omega)
      rw [binomialFrom, Result.require_eq_ok.mpr hproduct, Result.ok_bind, choose_mul_div,
        ih (index + 1) fun i hi => h i (by omega)]
      rw [Nat.add_right_comm, Nat.add_assoc]

/-- After `k` factors the running product is the binomial coefficient over `k`. -/
theorem binomialFrom_one (h : ∀ i < k, n.choose i * (n - i) < Text.indexBound) :
    binomialFrom n 0 1 k = .ok (n.choose k) := by
  have hstart := binomialFrom_choose (k := k) 0 (by rwa [Nat.zero_add])
  rwa [Nat.choose_zero_right, Nat.zero_add] at hstart

/-- **Binomial coefficients are computed exactly** if every product fits. -/
theorem binomial_eq_ok (h : ∀ i < k, n.choose i * (n - i) < Text.indexBound) :
    binomial n k = .ok (n.choose k) := by
  rw [binomial]
  split
  · rename_i hlt
    rw [Nat.choose_eq_zero_of_lt hlt]
    rfl
  · exact binomialFrom_one h

/-- A computation that succeeds has formed products that fit. -/
theorem product_lt_of_binomialFrom {b : ℕ} (index : ℕ)
    (h : binomialFrom n index (n.choose index) k = .ok b) :
    ∀ i, index ≤ i → i < index + k → n.choose i * (n - i) < Text.indexBound := by
  induction k generalizing index with
  | zero => exact fun i hle hlt => absurd hlt hle.not_gt
  | succ k ih =>
      rw [binomialFrom] at h
      obtain ⟨hproduct, hrest⟩ := Result.require_bind_eq_ok.mp h
      rw [choose_mul_div] at hrest
      intro i hle hlt
      rcases hle.eq_or_lt with rfl | hnext
      · exact hproduct
      · exact ih (index + 1) hrest i hnext (by omega)

/-- **A binomial coefficient that is computed is exact**, and so are those of fewer elements, which
are met on the way. -/
theorem binomial_of_ok {j b : ℕ} (hk : k ≤ n) (h : binomial n k = .ok b) (hj : j ≤ k) :
    binomial n j = .ok (n.choose j) := by
  rw [binomial, if_neg hk.not_gt] at h
  have hproduct := product_lt_of_binomialFrom 0 (by rwa [Nat.choose_zero_right])
  exact binomial_eq_ok fun i hi => hproduct i (Nat.zero_le i) (by omega)

/-- The sizes of the tables of degree two and three, if the greater one can be computed. -/
theorem binomial_two_three {b : ℕ} (h : binomial n 3 = .ok b) :
    binomial n 2 = .ok (n.choose 2) ∧ binomial n 3 = .ok (n.choose 3) := by
  by_cases hn : 3 ≤ n
  · exact ⟨binomial_of_ok hn h (by decide), binomial_of_ok hn h le_rfl⟩
  · obtain rfl | rfl | rfl : n = 0 ∨ n = 1 ∨ n = 2 := by omega
    all_goals exact ⟨rfl, rfl⟩

/-! ### The tables of an element -/

/-- A table can be stored exactly if its bytes are not too many. -/
theorem table_eq_ok {count size : ℕ} : table count size = .ok () ↔ count * size ≤ limit :=
  Result.require_eq_ok

theorem choose_two_mul (n : ℕ) : n.choose 2 * 2 = n * (n - 1) := by
  rw [Nat.choose_succ_right_eq n 1, Nat.choose_one_right]

namespace TermsFit

/-- The number of variables has little more than 22 bits. -/
theorem lt (h : TermsFit n) : n < 4194306 := by
  by_contra hge
  have hlarge : 4194306 * 4194305 * 4194304 ≤ n * (n - 1) * (n - 2) :=
    Nat.mul_le_mul (Nat.mul_le_mul (by omega) (by omega)) (by omega)
  rw [TermsFit, Text.indexBound] at h
  omega

/-- The number of pairs, if the terms fit. -/
theorem choose_two_le (h : TermsFit n) : n.choose 2 ≤ 4194306 * 4194306 := by
  have hdouble : n.choose 2 * 2 = n * (n - 1) := choose_two_mul n
  have hlt := h.lt
  have hproduct : n * (n - 1) ≤ 4194306 * 4194306 := Nat.mul_le_mul hlt.le (by omega)
  omega

/-- Six times the number of triples is a number of 64 bits, if the terms fit. -/
theorem choose_three_le (h : TermsFit n) : n.choose 3 * 6 < Text.indexBound := by
  have hproduct : n.choose 3 * 6 = n * (n - 1) * (n - 2) := by
    calc n.choose 3 * 6 = n.choose 3 * 3 * 2 := by omega
      _ = n.choose 2 * (n - 2) * 2 := by rw [Nat.choose_succ_right_eq n 2]
      _ = n * (n - 1) * (n - 2) := by rw [Nat.mul_right_comm, choose_two_mul]
  exact hproduct ▸ h

/-- No product on the way to the table sizes is too large. -/
theorem product_lt (h : TermsFit n) : ∀ i < 3, n.choose i * (n - i) < Text.indexBound := by
  -- the product over `i` is a multiple of the next coefficient, for which there is a bound
  have hlt := h.lt
  have hsecond := h.choose_two_le
  have hthird := h.choose_three_le
  rw [Text.indexBound] at hthird ⊢
  intro i hi
  rw [← Nat.choose_succ_right_eq]
  obtain rfl | rfl | rfl : i = 0 ∨ i = 1 ∨ i = 2 := by omega
  · show n.choose 1 * 1 < _
    rw [Nat.choose_one_right]
    omega
  · show n.choose 2 * 2 < _
    omega
  · show n.choose 3 * 3 < _
    omega

/-- **The tables of an element can be stored** if the terms fit. -/
theorem element (h : TermsFit n) : Storage.element n = .ok () := by
  have hlt := h.lt
  have hsecond := h.choose_two_le
  have hthird := h.choose_three_le
  rw [Text.indexBound] at hthird
  have hlinear : table n 1 = .ok () := table_eq_ok.mpr (by rw [limit]; omega)
  have hquadratic : table (n.choose 2) 1 = .ok () := table_eq_ok.mpr (by rw [limit]; omega)
  have hcubic : table (n.choose 3) 1 = .ok () := table_eq_ok.mpr (by rw [limit]; omega)
  have hrows : rows n = .ok () := table_eq_ok.mpr (by rw [rowSize, limit]; omega)
  have hpairs := binomial_eq_ok (k := 2) fun i hi => h.product_lt i (by omega)
  rw [Storage.element, polynomial, hlinear, Result.ok_bind, hpairs, Result.ok_bind, hquadratic,
    Result.ok_bind, binomial_eq_ok h.product_lt, Result.ok_bind, hcubic, Result.ok_bind, hrows]

end TermsFit

end AffinePhase.Storage
