import AffinePhase.Polynomial.TermMap
import AffinePhase.Proofs.Polynomial.Bytes
import AffinePhase.Proofs.Polynomial.Substitution

/-!
# Products in bytes are exact

A product is formed by two loops over a map of entries. A term of the right factor is passed over by
a test that looks only at the least number of trailing zeros in the whole left factor, and an entry
may become zero and be added to again. Neither changes the outcome. A term is passed over only if
each of its products vanishes, so that the inner loop would add nothing; and after the loops the
entry of a monomial is the sum of all products that belong to it, whatever happened on the way, so
that dropping the zeros leaves the normal form of the list of products.

The loops in bytes follow loops over residues step by step. What these lead to is a fact about
coefficients, and from there about values.

## Main definitions

* `SparseSum.addEntry`, `SparseSum.gathered`: the loops over residues.
* `TermMap.IsTermMap`: maps without zeros whose monomials are increasing lists.
* `TermMap.pairSum`, `TermMap.valueAt`: coefficients of a product, and values, as natural numbers.

## Main results

* `Monomial.merged_eq_union`: merging gives the product of two monomials.
* `SparseSum.filter_gathered`: gathering terms and dropping the zeros gives the normal form.
* `TermMap.multipliedExcept_inBytes`: the loops form the product, whichever vanishing terms are
  passed over.
* `TermMap.multiplied_is_exact`: coefficients and values of the product.
-/

open scoped Fin.CommRing

namespace AffinePhase

/-! ### The variables of two monomials -/

namespace Monomial

variable {a b m : Monomial} {i : ℕ}

/-- Leaving out repetitions keeps the elements. -/
theorem mem_withoutRepeats : i ∈ withoutRepeats m ↔ i ∈ m := by
  fun_induction withoutRepeats m with
  | case1 => rfl
  | case2 j => rfl
  | case3 j rest ih => exact ih.trans (by simp)
  | case4 j k rest hne ih => rw [List.mem_cons, ih, ← List.mem_cons]

/-- Without its repetitions a sorted list increases. -/
theorem pairwise_withoutRepeats (h : m.Pairwise (· ≤ ·)) : (withoutRepeats m).Pairwise (· < ·) := by
  fun_induction withoutRepeats m with
  | case1 => exact .nil
  | case2 j => exact List.pairwise_singleton _ j
  | case3 j rest ih => exact ih (List.pairwise_cons.mp h).2
  | case4 j k rest hne ih =>
      obtain ⟨hj, hrest⟩ := List.pairwise_cons.mp h
      refine List.pairwise_cons.mpr ⟨fun l hl => ?_, ih hrest⟩
      have hjk : j < k := lt_of_le_of_ne (hj k List.mem_cons_self) hne
      rcases List.mem_cons.mp (mem_withoutRepeats.mp hl) with rfl | hl
      · exact hjk
      · exact hjk.trans_le (List.rel_of_pairwise_cons hrest hl)

/-- **Merging** gives the product of two monomials. -/
theorem merged_eq_union (ha : a.Pairwise (· < ·)) (hb : b.Pairwise (· < ·)) :
    a.merged b = a.union b := by
  have hsorted : (List.merge a b).Pairwise (· ≤ ·) := by
    have hle : ∀ i j : ℕ, decide (i ≤ j) = true ↔ i ≤ j := fun i j => decide_eq_true_iff
    have hmerge := List.pairwise_merge
      (fun i j k : ℕ => by simpa only [hle] using Nat.le_trans)
      (fun i j => by simpa only [Bool.or_eq_true, hle] using Nat.le_total i j) a b
      (ha.imp fun h => decide_eq_true h.le) (hb.imp fun h => decide_eq_true h.le)
    exact hmerge.imp of_decide_eq_true
  refine (pairwise_withoutRepeats hsorted).eq_of_mem_iff (pairwise_union hb) fun i => ?_
  rw [mem_withoutRepeats, List.mem_merge, mem_union]

/-- The product of two monomials as a union of sets. -/
theorem union_eq_iff (hb : b.Pairwise (· < ·)) (hm : m.Pairwise (· < ·)) :
    a.union b = m ↔ a.toFinset ∪ b.toFinset = m.toFinset := by
  have hmem : ∀ i, i ∈ a.toFinset ∪ b.toFinset ↔ i ∈ a.union b := fun i => by
    rw [Finset.mem_union, List.mem_toFinset, List.mem_toFinset, mem_union]
  rw [Finset.ext_iff]
  constructor
  · intro heq i
    rw [hmem, heq, List.mem_toFinset]
  · intro hsame
    refine (pairwise_union hb).eq_of_mem_iff hm fun i => ?_
    rw [← hmem, hsame, List.mem_toFinset]

end Monomial

/-! ### Gathering terms -/

namespace SparseSum

variable {s t : SparseSum} {m : Monomial} {k : Z8}

/-- Adds to the entry of a monomial; an entry stays when it becomes zero. -/
def addEntry (m : Monomial) (k : Z8) : SparseSum → SparseSum
  | [] => [(m, k)]
  | (m', k') :: rest =>
      if m < m' then (m, k) :: (m', k') :: rest
      else if m = m' then (m, k' + k) :: rest
      else (m', k') :: addEntry m k rest

/-- The entries after some terms have been added to those that there are. -/
def gathered (entries s : SparseSum) : SparseSum :=
  s.foldl (fun entries a => addEntry a.1 a.2 entries) entries

/-- An entry that is added to adds to its coefficient. -/
theorem coefficient_addEntry (m : Monomial) (k : Z8) (s : SparseSum) (m' : Monomial) :
    coefficient (addEntry m k s) m' = coefficient s m' + if m = m' then k else 0 := by
  fun_induction addEntry m k s with
  | case1 => rw [coefficient_cons, coefficient_nil, add_comm]
  | case2 m₁ k₁ rest hlt => rw [coefficient_cons, add_comm]
  | case3 k₁ rest hlt =>
      rw [coefficient_cons, coefficient_cons]
      split
      · rw [add_right_comm]
      · rw [add_zero]
  | case4 m₁ k₁ rest hlt hne ih => rw [coefficient_cons, coefficient_cons, ih, add_assoc]

/-- What holds of a monomial and of all that there are holds of those afterwards. -/
theorem forall_mem_addEntry {P : Monomial → Prop} (hm : P m) (hs : ∀ a ∈ s, P a.1) :
    ∀ a ∈ addEntry m k s, P a.1 := by
  fun_induction addEntry m k s with
  | case1 => exact List.forall_mem_singleton.mpr hm
  | case2 m₁ k₁ rest hlt => exact List.forall_mem_cons.mpr ⟨hm, hs⟩
  | case3 k₁ rest hlt => exact List.forall_mem_cons.mpr ⟨hm, (List.forall_mem_cons.mp hs).2⟩
  | case4 m₁ k₁ rest hlt hne ih =>
      obtain ⟨hfirst, hrest⟩ := List.forall_mem_cons.mp hs
      exact List.forall_mem_cons.mpr ⟨hfirst, ih hrest⟩

/-- The monomials of the entries keep increasing. -/
theorem pairwise_addEntry (hs : s.Pairwise fun a b => a.1 < b.1) :
    (addEntry m k s).Pairwise fun a b => a.1 < b.1 := by
  fun_induction addEntry m k s with
  | case1 => exact List.pairwise_singleton _ _
  | case2 m₁ k₁ rest hlt =>
      have hfirst := (List.pairwise_cons.mp hs).1
      refine List.pairwise_cons.mpr ⟨List.forall_mem_cons.mpr ⟨hlt, fun a ha => ?_⟩, hs⟩
      exact lt_trans hlt (hfirst a ha)
  | case3 k₁ rest hlt => exact List.pairwise_cons.mpr (List.pairwise_cons.mp hs)
  | case4 m₁ k₁ rest hlt hne ih =>
      obtain ⟨hfirst, hrest⟩ := List.pairwise_cons.mp hs
      have hgt : m₁ < m := lt_of_le_of_ne (not_lt.mp hlt) (Ne.symm hne)
      exact List.pairwise_cons.mpr ⟨forall_mem_addEntry hgt hfirst, ih hrest⟩

/-- Terms are gathered one after the other. -/
theorem gathered_append (entries s t : SparseSum) :
    gathered entries (s ++ t) = gathered (gathered entries s) t :=
  List.foldl_append

/-- **Entries add up**, whatever they are on the way. -/
theorem coefficient_gathered (entries s : SparseSum) (m : Monomial) :
    coefficient (gathered entries s) m = coefficient entries m + coefficient s m := by
  induction s generalizing entries with
  | nil => exact (add_zero _).symm
  | cons a s ih =>
      have hstep : gathered entries (a :: s) = gathered (addEntry a.1 a.2 entries) s := rfl
      rw [hstep, ih, coefficient_addEntry, coefficient_cons, add_assoc]

/-- Gathering keeps the monomials in increasing order. -/
theorem pairwise_gathered {entries : SparseSum} (h : entries.Pairwise fun a b => a.1 < b.1)
    (s : SparseSum) : (gathered entries s).Pairwise fun a b => a.1 < b.1 := by
  induction s generalizing entries with
  | nil => exact h
  | cons a s ih => exact ih (pairwise_addEntry h)

/-- Normal forms with the same coefficients are the same. -/
theorem IsNormal.ext (hs : s.IsNormal) (ht : t.IsNormal)
    (h : ∀ m, coefficient s m = coefficient t m) : s = t := by
  have hirrefl : Std.Irrefl fun a b : Monomial × Z8 => a.1 < b.1 := ⟨fun a => lt_irrefl a.1⟩
  have hantisymm : Std.Antisymm fun a b : Monomial × Z8 => a.1 < b.1 :=
    ⟨fun a b hab hba => absurd hba hab.asymm⟩
  refine hs.increasing.eq_of_mem_iff ht.increasing fun a => ?_
  rw [hs.mem_iff, ht.mem_iff, h]

/-- **Gathering terms and dropping the zeros** gives the normal form. -/
theorem filter_gathered (s : SparseSum) :
    (gathered [] s).filter (fun a => a.2 ≠ 0) = collect s := by
  have hnormal : IsNormal ((gathered [] s).filter fun a => a.2 ≠ 0) :=
    ⟨(pairwise_gathered .nil s).filter _, fun a ha => of_decide_eq_true (List.mem_filter.mp ha).2⟩
  refine hnormal.ext (isNormal_collect s) fun m => ?_
  have hkept := coefficient_filter (gathered [] s) m
  rw [coefficient_collect, ← zero_add (coefficient s m), ← coefficient_nil m,
    ← coefficient_gathered]
  exact hkept

/-! ### Products -/

/-- Terms as they are stored: of increasing lists of indices, and none of them zero. -/
structure IsStored (s : SparseSum) : Prop where
  /-- The monomials are increasing lists. -/
  sorted : ∀ a ∈ s, a.1.Pairwise (· < ·)
  /-- The coefficients do not vanish. -/
  nonzero : ∀ a ∈ s, a.2 ≠ 0

/-- The terms of a product are stored as those of its factors. -/
theorem isStored_mul (s : SparseSum) (ht : t.IsStored) : (s.mul t).IsStored :=
  ⟨forall_mem_mul (P := fun m _ => m.Pairwise (· < ·)) (fun _ _ _ h _ _ => h)
    fun _ _ b hb _ => Monomial.pairwise_union (ht.sorted b hb),
    (isNormal_collect _).nonzero⟩

/-- The products of one more term with a term come first. -/
theorem mulTerm_cons (a : Monomial × Z8) (s : SparseSum) (b : Monomial × Z8) :
    mulTerm (a :: s) b = mulTerm [a] b ++ mulTerm s b := by
  rw [mulTerm, mulTerm, mulTerm, ← List.map_append, ← List.filter_append, List.singleton_append]

/-- The coefficients of the products with one term. -/
theorem coefficient_mulTerm (s : SparseSum) (b : Monomial × Z8) (m : Monomial) :
    coefficient (s.mulTerm b) m =
      (s.map fun a => if a.1.union b.1 = m then a.2 * b.2 else 0).sum := by
  induction s with
  | nil => rfl
  | cons a s ih =>
      rw [List.map_cons, List.sum_cons, ← ih]
      by_cases hzero : a.2 * b.2 = 0
      · rw [mulTerm, List.filter_cons_of_neg (by simpa using hzero), hzero, ite_self, zero_add,
          mulTerm]
      · rw [mulTerm, List.filter_cons_of_pos (by simpa using hzero), List.map_cons,
          coefficient_cons, mulTerm]

/-- **The coefficients of a product** are sums over all pairs of terms. -/
theorem coefficient_mul (s t : SparseSum) (m : Monomial) :
    coefficient (s.mul t) m = (t.map fun b =>
      (s.map fun a => if a.1.union b.1 = m then a.2 * b.2 else 0).sum).sum := by
  rw [mul_eq_collect, coefficient_collect]
  induction t with
  | nil => rfl
  | cons b t ih =>
      rw [List.flatMap_cons, coefficient_append, coefficient_mulTerm, ih, List.map_cons,
        List.sum_cons]

end SparseSum

/-! ### The loops in bytes -/

namespace TermMap

open PhasePolynomial (inBytes inBytes_cons)

variable {s t entries : SparseSum} {a b : Monomial × Z8} {left right : TermMap}

/-- The zeros that a byte ends with count the factors of two. -/
theorem trailingZeros_toByte {k : Z8} (h : k ≠ 0) :
    Byte.trailingZeros (Z8.toByte k) = k.valuation := by
  revert k; decide

/-- An entry is added to in bytes. -/
theorem accumulate_toByte (m : Monomial) (k : Z8) (s : SparseSum) :
    accumulate m (Z8.toByte k) (inBytes s) = .ok (inBytes (s.addEntry m k)) := by
  have hfirst : Byte.addReduced 0 (Z8.toByte k) = .ok (Z8.toByte k) := by
    have hzero := Byte.addReduced_toByte 0 k
    rwa [zero_add] at hzero
  induction s with
  | nil => rw [inBytes, List.map_nil, accumulate, hfirst]; rfl
  | cons head rest ih =>
      obtain ⟨m', k'⟩ := head
      rw [inBytes_cons, accumulate, SparseSum.addEntry]
      split
      · rw [hfirst]; rfl
      · split
        · rw [Byte.addReduced_toByte]; rfl
        · rw [ih]; rfl

/-- The product of two terms is added in bytes. -/
theorem addProduct_toByte (ha : a.1.Pairwise (· < ·)) (hb : b.1.Pairwise (· < ·)) :
    addProduct (inBytes entries) (a.1, Z8.toByte a.2) (b.1, Z8.toByte b.2) =
      .ok (inBytes (SparseSum.gathered entries (SparseSum.mulTerm [a] b))) := by
  rw [addProduct, Byte.mulReduced_toByte, Result.ok_bind]
  by_cases hzero : a.2 * b.2 = 0
  · rw [if_neg (not_not.mpr (Z8.toByte_eq_zero_iff.mpr hzero)), SparseSum.mulTerm,
      List.filter_cons_of_neg (by simpa using hzero)]
    rfl
  · rw [if_pos (Z8.toByte_eq_zero_iff.not.mpr hzero), SparseSum.mulTerm,
      List.filter_cons_of_pos (by simpa using hzero), Monomial.merged_eq_union ha hb]
    exact accumulate_toByte _ _ entries

section Loops

variable {passedOver : UInt8 → Bool} (hs : ∀ a ∈ s, a.1.Pairwise (· < ·))

include hs

/-- The inner loop adds all products with one term, or there are none. -/
theorem addProducts_toByte (hb : b.1.Pairwise (· < ·))
    (hover : passedOver (Z8.toByte b.2) = true → s.mulTerm b = []) :
    addProducts passedOver (inBytes s) (inBytes entries) (b.1, Z8.toByte b.2) =
      .ok (inBytes (SparseSum.gathered entries (s.mulTerm b))) := by
  rw [addProducts]
  split
  · rename_i hpassed
    rw [hover hpassed]
    rfl
  · clear hover
    induction s generalizing entries with
    | nil => rfl
    | cons a s ih =>
        obtain ⟨ha, hs⟩ := List.forall_mem_cons.mp hs
        rw [inBytes_cons, List.foldlM_cons, addProduct_toByte ha hb, Result.ok_bind, ih hs,
          SparseSum.mulTerm_cons a s, SparseSum.gathered_append]

variable (ht : ∀ b ∈ t, b.1.Pairwise (· < ·))
  (hover : ∀ b ∈ t, passedOver (Z8.toByte b.2) = true → s.mulTerm b = [])

include ht hover

/-- The outer loop adds all products. -/
theorem foldlM_addProducts (entries : SparseSum) :
    (inBytes t).foldlM (addProducts passedOver (inBytes s)) (inBytes entries) =
      .ok (inBytes (SparseSum.gathered entries (t.flatMap s.mulTerm))) := by
  induction t generalizing entries with
  | nil => rfl
  | cons b t ih =>
      obtain ⟨hb, ht⟩ := List.forall_mem_cons.mp ht
      obtain ⟨hfirst, hover⟩ := List.forall_mem_cons.mp hover
      rw [inBytes_cons, List.foldlM_cons, addProducts_toByte hs hb hfirst, Result.ok_bind,
        ih ht hover, List.flatMap_cons, SparseSum.gathered_append]

/-- **The loops in bytes** form the product, whichever terms are passed over of those with which all
products vanish. -/
theorem multipliedExcept_inBytes :
    multipliedExcept passedOver (inBytes s) (inBytes t) = .ok (inBytes (s.mul t)) := by
  have hloops := foldlM_addProducts hs ht hover []
  have hkept : ∀ entries : SparseSum, (inBytes entries).filter (fun a => a.2 ≠ 0) =
      inBytes (entries.filter fun a => a.2 ≠ 0) := by
    intro entries
    rw [inBytes, inBytes, List.filter_map]
    refine congrArg _ (List.filter_congr fun a _ => ?_)
    exact decide_eq_decide.mpr Z8.toByte_eq_zero_iff.not
  refine (congrArg (· >>= _) hloops).trans ?_
  rw [Result.ok_bind, hkept, SparseSum.filter_gathered, ← SparseSum.mul_eq_collect]
  rfl

end Loops

/-- The number of factors of two that the bytes of the left factor share. -/
theorem leastZeros_inBytes (hs : ∀ a ∈ s, a.2 ≠ 0) : leastZeros (inBytes s) = s.valuation := by
  have hzeros : (inBytes s).map (fun a => Byte.trailingZeros a.2) =
      s.map fun a => a.2.valuation := by
    rw [inBytes, List.map_map]
    exact List.map_congr_left fun a ha => trailingZeros_toByte (hs a ha)
  have hleast : s.valuation = (s.map fun a => a.2.valuation).foldl min 3 := rfl
  rw [leastZeros, hzeros, hleast]
  cases s with
  | nil => rfl
  | cons a s =>
      have hthree : min 3 a.2.valuation = a.2.valuation := by
        generalize a.2 = k
        revert k; decide
      rw [List.map_cons, List.min?_cons', List.foldl_cons, hthree, Option.getD_some]

/-- **Passing over terms costs nothing**: the product is the same as without. -/
theorem multiplied_inBytes (hs : s.IsStored) (ht : t.IsStored) :
    multiplied (inBytes s) (inBytes t) = .ok (inBytes (s.mul t)) ∧
      multipliedExcept (fun _ => false) (inBytes s) (inBytes t) = .ok (inBytes (s.mul t)) := by
  constructor
  · rw [multiplied]
    refine multipliedExcept_inBytes hs.sorted ht.sorted fun b hb hpassed =>
      SparseSum.mulTerm_eq_nil ?_
    rw [← trailingZeros_toByte (ht.nonzero b hb), ← leastZeros_inBytes hs.nonzero]
    exact of_decide_eq_true hpassed
  · exact multipliedExcept_inBytes hs.sorted ht.sorted fun b _ hpassed =>
      absurd hpassed Bool.false_ne_true

/-! ### Coefficients and values as numbers -/

/-- A map of increasing lists, in increasing order, to bytes from one to seven. -/
structure IsTermMap (t : TermMap) : Prop where
  /-- The monomials increase, so none occurs twice. -/
  increasing : t.Pairwise fun a b => a.1 < b.1
  /-- Each monomial is an increasing list. -/
  sorted : ∀ a ∈ t, a.1.Pairwise (· < ·)
  /-- The bytes are residues other than zero. -/
  bounded : ∀ a ∈ t, a.2 ≠ 0 ∧ a.2 < 8

instance (t : TermMap) : Decidable t.IsTermMap :=
  decidable_of_iff (t.Pairwise (fun a b => a.1 < b.1) ∧ (∀ a ∈ t, a.1.Pairwise (· < ·)) ∧
      ∀ a ∈ t, a.2 ≠ 0 ∧ a.2 < 8)
    ⟨fun ⟨h, h', h''⟩ => ⟨h, h', h''⟩, fun ⟨h, h', h''⟩ => ⟨h, h', h''⟩⟩

/-- The terms with the residues of their bytes. -/
def residues (t : TermMap) : SparseSum :=
  t.map fun a => (a.1, Z8.ofByte a.2)

/-- The sum of the products of bytes over all pairs of terms whose monomials together have the
variables of a monomial. -/
def pairSum (left right : TermMap) (m : Monomial) : ℕ :=
  (right.map fun b => (left.map fun a =>
    if a.1.toFinset ∪ b.1.toFinset = m.toFinset then a.2.toNat * b.2.toNat else 0).sum).sum

/-- The sum of the bytes of the monomials whose variables are all set. -/
def valueAt (t : TermMap) (x : ℕ → Bool) : ℕ :=
  (t.map fun a => if a.1.all x then a.2.toNat else 0).sum

/-- The residues of the bytes of a sum are the sum. -/
theorem residues_inBytes (s : SparseSum) : residues (inBytes s) = s := by
  rw [residues, inBytes, List.map_map]
  refine (List.map_congr_left fun a _ => ?_).trans (List.map_id s)
  exact Prod.ext rfl (Z8.ofByte_toByte a.2)

/-- The bytes of the residues of a map are the map. -/
theorem IsTermMap.inBytes_residues (h : left.IsTermMap) : inBytes left.residues = left := by
  rw [inBytes, residues, List.map_map]
  refine (List.map_congr_left fun a ha => ?_).trans (List.map_id left)
  exact Prod.ext rfl (Z8.toByte_ofByte (h.bounded a ha).2)

/-- The residues of a map are terms as they are stored. -/
theorem IsTermMap.isStored_residues (h : left.IsTermMap) : left.residues.IsStored := by
  refine ⟨List.forall_mem_map.mpr h.sorted, List.forall_mem_map.mpr fun a ha hzero => ?_⟩
  refine (h.bounded a ha).1 ?_
  rw [← Z8.toByte_ofByte (h.bounded a ha).2]
  exact Z8.toByte_eq_zero_iff.mpr hzero

/-- A normal form in bytes is a map. -/
theorem isTermMap_inBytes (h : s.IsNormal) (hs : ∀ a ∈ s, a.1.Pairwise (· < ·)) :
    IsTermMap (inBytes s) := by
  refine ⟨List.pairwise_map.mpr h.increasing, List.forall_mem_map.mpr hs,
    List.forall_mem_map.mpr fun a ha => ⟨?_, Z8.toByte_lt a.2⟩⟩
  exact Z8.toByte_eq_zero_iff.not.mpr (h.nonzero a ha)

/-- The entries in bytes are those of the terms. -/
theorem mem_inBytes {m : Monomial} {v : UInt8} :
    (m, v) ∈ inBytes s ↔ ∃ k, (m, k) ∈ s ∧ Z8.toByte k = v := by
  simp [inBytes]

/-- The value of a map is what the sum of its bytes stands for. -/
theorem valueAt_residues (t : TermMap) (x : ℕ → Bool) :
    t.residues.valueAt x = (t.valueAt x : Z8) := by
  induction t with
  | nil => rfl
  | cons a t ih =>
      have hcons : residues (a :: t) = (a.1, Z8.ofByte a.2) :: residues t := rfl
      rw [hcons, SparseSum.valueAt_cons, ih, valueAt, valueAt, List.map_cons, List.sum_cons,
        Nat.cast_add, Nat.cast_ite, Nat.cast_zero]
      rfl

/-- **Coefficients of the product** as sums over pairs of bytes. -/
theorem coefficient_mul_residues {m : Monomial} (hright : right.IsTermMap)
    (hm : m.Pairwise (· < ·)) :
    (left.residues.mul right.residues).coefficient m = (pairSum left right m : Z8) := by
  rw [SparseSum.coefficient_mul, pairSum, residues, residues, List.map_map, Nat.cast_list_sum,
    List.map_map]
  refine congrArg _ (List.map_congr_left fun b hb => ?_)
  dsimp only [Function.comp]
  rw [List.map_map, Nat.cast_list_sum, List.map_map]
  refine congrArg _ (List.map_congr_left fun a _ => ?_)
  dsimp only [Function.comp]
  simp only [Monomial.union_eq_iff (hright.sorted b hb) hm]
  rw [Nat.cast_ite, Nat.cast_mul, Nat.cast_zero]
  rfl

/-- **The product in bytes is exact.** It is formed without overflow, is a map of the same kind and
equals the product for which no term is passed over. The byte of a monomial is the sum over all
pairs of terms that together have its variables, reduced; those with the sum zero are absent. The
values of the product are the products of the values, and so it is the product on residues. -/
theorem multiplied_is_exact (hleft : left.IsTermMap) (hright : right.IsTermMap) :
    ∃ product, left.multiplied right = .ok product ∧
      left.multipliedExcept (fun _ => false) right = .ok product ∧ product.IsTermMap ∧
      (∀ m v, (m, v) ∈ product ↔
        m.Pairwise (· < ·) ∧ v ≠ 0 ∧ v.toNat = pairSum left right m % 8) ∧
      (∀ x, product.valueAt x % 8 = left.valueAt x * right.valueAt x % 8) ∧
      product.residues = left.residues.mul right.residues := by
  obtain ⟨hpruned, hplain⟩ := multiplied_inBytes hleft.isStored_residues hright.isStored_residues
  rw [hleft.inBytes_residues, hright.inBytes_residues] at hpruned hplain
  have hnormal : (left.residues.mul right.residues).IsNormal := SparseSum.isNormal_collect _
  have hsorted := (SparseSum.isStored_mul left.residues hright.isStored_residues).sorted
  refine ⟨_, hpruned, hplain, isTermMap_inBytes hnormal hsorted, fun m v => ?_, fun x => ?_,
    residues_inBytes _⟩
  · rw [mem_inBytes]
    constructor
    · rintro ⟨k, hk, rfl⟩
      obtain ⟨hcoefficient, hne⟩ := hnormal.mem_iff.mp hk
      rw [coefficient_mul_residues hright (hsorted _ hk)] at hcoefficient
      refine ⟨hsorted _ hk, Z8.toByte_eq_zero_iff.not.mpr hne, ?_⟩
      rw [Z8.toNat_toByte, ← hcoefficient, Fin.val_natCast]
    · rintro ⟨hm, hne, hv⟩
      have hbyte : Z8.toByte (pairSum left right m : Z8) = v := by
        rw [← UInt8.toNat_inj, Z8.toNat_toByte, Fin.val_natCast, hv]
      have hcoefficient : (left.residues.mul right.residues).coefficient m =
          (pairSum left right m : Z8) := coefficient_mul_residues hright hm
      refine ⟨_, hnormal.mem_iff.mpr ⟨hcoefficient, fun hzero => hne ?_⟩, hbyte⟩
      rw [← hbyte]
      exact Z8.toByte_eq_zero_iff.mpr hzero
  · have hvalue := SparseSum.valueAt_mul left.residues right.residues x
    rw [← residues_inBytes (left.residues.mul right.residues), valueAt_residues, valueAt_residues,
      valueAt_residues, ← Nat.cast_mul] at hvalue
    simpa only [Fin.val_natCast] using congrArg Fin.val hvalue

/-- Two products cancel, one is passed over, and one remains. -/
theorem multiplied_is_exact_with_cancellation :
    ∃ product, multiplied [([0], 2), ([0, 1], 6), ([3], 2)] [([1], 1), ([2], 4)] = .ok product ∧
      (∀ v, ([0, 1], v) ∉ product) ∧ ([1, 3], 2) ∈ product ∧
      product.valueAt (fun _ => true) % 8 = 2 := by
  obtain ⟨product, hproduct, -, -, hterms, hvalues, -⟩ :=
    @multiplied_is_exact [([0], 2), ([0, 1], 6), ([3], 2)] [([1], 1), ([2], 4)]
      (by decide) (by decide)
  refine ⟨product, hproduct, fun v hv => ?_, (hterms _ _).mpr (by decide), hvalues _⟩
  obtain ⟨-, hne, hv⟩ := (hterms _ _).mp hv
  exact hne (UInt8.toNat_inj.mp hv)

end TermMap

end AffinePhase
