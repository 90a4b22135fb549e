import AffinePhase.Polynomial.Bytes
import AffinePhase.Proofs.Polynomial.Parity

/-!
# Arithmetic in bytes is arithmetic of values

Every operation in bytes gives the same result as the operation on residues whose name it extends.
Since it refuses what is no byte, this says more than that the results agree: nothing overflows on
the way, whatever bytes the tables hold. What matters is where the reductions stand. Two reduced
bytes have a sum below sixteen, and eight less a reduced byte is not below zero; the outcome is
reduced again before it is stored or added to.

Nothing is asked of the tables for this. Their sizes matter for what the results mean: with one
entry for each term, sum, negative and direct sum are the pointwise ones.

## Main definitions

* `PhasePolynomial.IsReducedOn`: a polynomial in so many variables that stores residues only.
* `PhasePolynomial.HasValue`: a value at a point, formed on residues and in bytes.

## Main results

* `PhasePolynomial.setConstantInBytes_eq`, `PhasePolynomial.setTermInBytes_eq`: a coefficient that
  is set is the residue of the byte.
* `PhasePolynomial.addInBytes_eq`, `PhasePolynomial.negInBytes_eq`,
  `PhasePolynomial.complementInBytes_eq`, `PhasePolynomial.addParityInBytes_eq`,
  `PhasePolynomial.directSumInBytes_eq`, `PhasePolynomial.evaluateAtInBytes_eq`: no overflow.
* `PhasePolynomial.arithmetic_pointwise`: the values of the results.
-/

open scoped Fin.CommRing

namespace AffinePhase

namespace Byte

/-- Residues are added without overflow. -/
theorem addReduced_toByte (a b : Z8) :
    addReduced (Z8.toByte a) (Z8.toByte b) = .ok (Z8.toByte (a + b)) := by
  revert a b; decide

/-- Residues are multiplied without overflow. -/
theorem mulReduced_toByte (a b : Z8) :
    mulReduced (Z8.toByte a) (Z8.toByte b) = .ok (Z8.toByte (a * b)) := by
  revert a b; decide

end Byte

namespace PhasePolynomial

variable {p q r : PhasePolynomial}

/-! ### Stored bytes -/

/-- Stored bytes are added without overflow. -/
theorem addBytes_eq (v w : UInt8) : addBytes v w = .ok (addWeight v w) := by
  rw [addBytes, ← Z8.toByte_ofByte_eq_mod, ← Z8.toByte_ofByte_eq_mod, Byte.addReduced_toByte]
  rfl

/-- The negative of a stored byte is formed without overflow. -/
theorem negByte_eq (w : UInt8) : negByte w = .ok (negWeight w) := by
  rw [negByte, negWeight, ← Z8.toByte_ofByte_eq_mod]
  generalize Z8.ofByte w = a
  revert a; decide

/-- A counterpart is added without overflow, if there is one. -/
theorem addCounterpart_eq (v : UInt8) (w : Option UInt8) :
    addCounterpart v w = .ok (w.elim v (addWeight v)) := by
  cases w with
  | none => rfl
  | some w => exact addBytes_eq v w

/-- Steps that all succeed, one for each entry of a table. -/
theorem mapM_table {α : Type} {f : α → Result UInt8} {g : α → UInt8} (h : ∀ a, f a = .ok (g a))
    (l : List α) : l.mapM f = .ok (l.map g) := by
  rw [funext h]
  exact List.mapM_pure

/-- Tables are added without overflow, whatever their lengths. -/
theorem addTableInBytes_eq (table added : Array UInt8) :
    addTableInBytes table added = .ok (addTable table added) := by
  have hbytes := mapM_table (fun t : UInt8 × ℕ => addCounterpart_eq t.1 added[t.2]?)
    table.toList.zipIdx
  rw [addTableInBytes, hbytes, Result.ok_bind]
  refine congrArg Except.ok (Array.toList_inj.mp ?_)
  rw [addTable, Array.toList_mapIdx, List.mapIdx_eq_zipIdx_map]
  refine List.map_congr_left fun t _ => ?_
  dsimp only
  cases added[t.2]? with
  | none => rfl
  | some w => rfl

/-- The negative of a table is formed without overflow. -/
theorem negTableInBytes_eq (table : Array UInt8) :
    negTableInBytes table = .ok (table.map negWeight) := by
  rw [negTableInBytes, mapM_table negByte_eq, Result.ok_bind, ← Array.toList_map]
  rfl

/-! ### Coefficients -/

/-- Setting the constant term to a byte sets it to the residue of the byte. -/
theorem setConstantInBytes_eq (p : PhasePolynomial) (value : UInt8) :
    p.setConstantInBytes value = p.setConstant (Z8.ofByte value) := by
  rw [setConstantInBytes, setConstant, Z8.toByte_ofByte_eq_mod]

/-- Setting a coefficient to a byte sets it to the residue of the byte, for the same indices. -/
theorem setTermInBytes_eq (p : PhasePolynomial) (indices : List ℕ) (value : UInt8) :
    p.setTermInBytes indices value = p.setTerm indices (Z8.ofByte value) := by
  rw [setTerm, Z8.toByte_ofByte_eq_mod]
  rfl

/-! ### Sums and negatives -/

/-- **A sum overflows nowhere**, and is refused only for different numbers of variables. -/
theorem addInBytes_eq (p q : PhasePolynomial) : p.addInBytes q = Result.ofOption (p.add? q) := by
  rw [addInBytes, add?]
  by_cases hn : p.numVariables = q.numVariables
  · rw [if_pos hn, Result.require_eq_ok.mpr hn, Result.ok_bind, addBytes_eq, Result.ok_bind]
    simp only [addTableInBytes_eq, Result.ok_bind]
    rfl
  · rw [if_neg hn, Result.require_eq_error.mpr ⟨hn, rfl⟩]
    rfl

/-- The sum with a check of the sizes overflows nowhere. -/
theorem tryAddInBytes_eq (p q : PhasePolynomial) : p.tryAddInBytes q = p.tryAdd q := by
  rw [tryAddInBytes, tryAdd, addInBytes_eq]

/-- **A negative overflows nowhere.** -/
theorem negInBytes_eq (p : PhasePolynomial) : p.negInBytes = .ok (-p) := by
  rw [negInBytes]
  simp only [negTableInBytes_eq, negByte_eq, Result.ok_bind]
  rfl

/-- **One less a polynomial overflows nowhere**: the constant term of the negative is reduced, so
one more is a byte. -/
theorem complementInBytes_eq (p : PhasePolynomial) :
    p.complementInBytes = .ok ((-p).setConstant (Z8.ofByte (-p).constant + 1)) := by
  have hconstant : (-p).constant = Z8.toByte (-Z8.ofByte p.constant) := rfl
  have hone : ∀ k : Z8, Byte.add (Z8.toByte k) 1 = .ok (Z8.toByte k + 1) := by decide
  have hbyte : ∀ k : Z8, Z8.ofByte (Z8.toByte k + 1) = k + 1 := by decide
  rw [complementInBytes, negInBytes_eq, Result.ok_bind, hconstant, hone, Result.ok_bind,
    setConstantInBytes_eq, hbyte, Z8.ofByte_toByte]
  rfl

/-! ### Terms -/

/-- The bytes below eight that stand for the coefficients of terms. -/
def inBytes (ts : List (Monomial × Z8)) : List (Monomial × UInt8) :=
  ts.map fun (m, k) => (m, Z8.toByte k)

theorem inBytes_cons (t : Monomial × Z8) (ts : List (Monomial × Z8)) :
    inBytes (t :: ts) = (t.1, Z8.toByte t.2) :: inBytes ts := rfl

/-- A remainder is zero for the same bytes as the residue, so the same terms are kept. -/
theorem termsInBytes_eq (p : PhasePolynomial) : p.termsInBytes = inBytes p.terms := by
  have hkept : ∀ t : Monomial × UInt8, decide (t.2 % 8 ≠ 0) = decide (Z8.ofByte t.2 ≠ 0) := by
    intro t
    refine decide_eq_decide.mpr (not_congr ?_)
    rw [← Z8.toByte_ofByte_eq_mod]
    exact Z8.toByte_eq_zero_iff
  have hbyte : ∀ t : Monomial × UInt8, (t.1, t.2 % 8) = (t.1, Z8.toByte (Z8.ofByte t.2)) :=
    fun t => Prod.ext rfl (Z8.toByte_ofByte_eq_mod t.2).symm
  rw [termsInBytes, terms, inBytes, List.filter_map, List.filter_map, List.map_map]
  exact (List.map_congr_left fun t _ => hbyte t).trans
    (congrArg _ (List.filter_congr fun t _ => hkept t))

/-- **Adding to a coefficient overflows nowhere**, whether there is one or not. -/
theorem addTermInBytes_eq (p : PhasePolynomial) (m : Monomial) (k : Z8) :
    p.addTermInBytes m (Z8.toByte k) = .ok (p.addTerm m k) := by
  rw [addTermInBytes, addTerm]
  split
  · rename_i w h
    rw [addBytes_eq, addWeight, Z8.ofByte_toByte, Result.ok_bind]
    refine congrArg Except.ok (modifyWeight_congr fun v hv => ?_)
    rw [Option.some.inj (h.symm.trans hv)]
  · rename_i h
    refine congrArg Except.ok ((modifyWeight_id p m).symm.trans (modifyWeight_congr ?_))
    intro v hv
    cases h.symm.trans hv

/-- **Adding terms overflows nowhere.** -/
theorem addTermsInBytes_eq (p : PhasePolynomial) (ts : List (Monomial × Z8)) :
    p.addTermsInBytes (inBytes ts) = .ok (p.addTerms ts) :=
  Result.foldlM_eq_ok (v := id) (fun q t => addTermInBytes_eq q t.1 t.2) ts p

/-- A loop that adds the same residue to several coefficients. -/
theorem foldlM_addTermInBytes (p : PhasePolynomial) (l : List Monomial) (k : Z8) :
    l.foldlM (fun q m => q.addTermInBytes m (Z8.toByte k)) p =
      .ok (p.addTerms (l.map fun m => (m, k))) := by
  rw [← addTermsInBytes_eq, addTermsInBytes, inBytes, List.map_map, List.foldlM_map]
  rfl

/-- **Adding a parity overflows nowhere.** -/
theorem addParityInBytes_eq (p : PhasePolynomial) (xs : List ℕ) (k : UInt8) :
    p.addParityInBytes xs k = .ok (p.addParity xs (Z8.ofByte k)) := by
  have hdegree : ∀ d, ((subsets d xs).map fun m =>
      (m, parityCoefficient m.length * Z8.ofByte k)) =
        (subsets d xs).map fun m => (m, parityCoefficient d * Z8.ofByte k) :=
    fun d => List.map_congr_left fun m hm => by rw [(mem_subsets.mp hm).2]
  have hone : Z8.ofByte k = parityCoefficient 1 * Z8.ofByte k := (one_mul _).symm
  have htwo : Byte.mulReduced 6 (Z8.toByte (Z8.ofByte k)) =
      .ok (Z8.toByte (parityCoefficient 2 * Z8.ofByte k)) := Byte.mulReduced_toByte 6 _
  have hthree : Byte.mulReduced 4 (Z8.toByte (Z8.ofByte k)) =
      .ok (Z8.toByte (parityCoefficient 3 * Z8.ofByte k)) := Byte.mulReduced_toByte 4 _
  rw [addParityInBytes, ← Z8.toByte_ofByte_eq_mod]
  simp only [htwo, hthree, Result.ok_bind]
  rw [foldlM_addTermInBytes, Result.ok_bind, foldlM_addTermInBytes, Result.ok_bind,
    foldlM_addTermInBytes, addParity_eq, parityTerms, smallSubsets, List.map_append,
    List.map_append, hdegree, hdegree, hdegree, ← hone]
  simp only [addTerms, List.foldl_append]

/-- **A direct sum overflows nowhere.** -/
theorem directSumInBytes_eq (p q : PhasePolynomial) :
    p.directSumInBytes q = .ok (p.directSum q) := by
  have hshift := addTermsInBytes_eq ((zero (p.numVariables + q.numVariables)).addTerms p.terms)
    (SparseSum.shift p.numVariables q.terms)
  rw [directSumInBytes, termsInBytes_eq, termsInBytes_eq, addTermsInBytes_eq, Result.ok_bind]
  refine Eq.trans (congrArg _ ?_) hshift
  rw [inBytes, inBytes, SparseSum.shift, List.map_map, List.map_map]
  rfl

/-! ### Values -/

/-- A running sum that is reduced at every step overflows nowhere. -/
theorem sumInBytes_eq (ts : List (Monomial × Z8)) :
    (inBytes ts).foldlM (fun total (_, w) => Byte.addReduced total w) 0 =
      .ok (Z8.toByte ((ts.map fun (_, k) => k).foldr (· + ·) 0)) := by
  rw [← List.foldl_eq_foldr, List.foldl_map]
  refine Result.foldlM_eq_ok (v := Z8.toByte) (fun a t => ?_) ts 0
  exact Byte.addReduced_toByte a t.2

/-- **Evaluation overflows nowhere**, and gives the byte of the value. -/
theorem evaluateAtInBytes_eq (p : PhasePolynomial) (point : List Bool) :
    p.evaluateAtInBytes point = (p.evaluateAt point).map Z8.toByte := by
  rw [evaluateAtInBytes, evaluateAt]
  by_cases hlength : p.numVariables = point.length
  · rw [Result.sameSize_eq_ok.mpr hlength, Result.ok_bind, Result.ok_bind, termsInBytes_eq, inBytes,
      List.filter_map]
    exact sumInBytes_eq _
  · rw [Result.sameSize, Result.require_eq_error.mpr ⟨hlength, rfl⟩]
    rfl

/-- The value of a polynomial at a boolean point, formed on residues and in bytes. -/
structure HasValue (p : PhasePolynomial) (point : List Bool) (k : Z8) : Prop where
  /-- The value is a sum of residues. -/
  residue : p.evaluateAt point = .ok k
  /-- The byte of that residue is formed without overflow. -/
  byte : p.evaluateAtInBytes point = .ok (Z8.toByte k)

/-- A value that is formed on residues is formed in bytes as well. -/
theorem hasValue_iff {point : List Bool} {k : Z8} :
    p.HasValue point k ↔ p.evaluateAt point = .ok k := by
  refine ⟨HasValue.residue, fun h => ⟨h, ?_⟩⟩
  rw [evaluateAtInBytes_eq, h]
  rfl

/-- A polynomial in `n` variables with tables of the right sizes that store residues only. -/
structure IsReducedOn (p : PhasePolynomial) (n : ℕ) : Prop where
  /-- There are `n` variables. -/
  numVariables : p.numVariables = n
  /-- The tables have their sizes. -/
  consistent : p.IsConsistent
  /-- The bytes are below eight. -/
  reduced : p.IsReduced

/-- A point of a direct sum has a point of each part. -/
theorem IsConsistent.evaluateAt_directSum (hp : p.IsConsistent) (hr : r.IsConsistent)
    {x y : List Bool} (hx : x.length = p.numVariables) (hy : y.length = r.numVariables) :
    (p.directSum r).evaluateAt (x ++ y) =
      .ok (p.valueAt (fun i => x[i]?.getD false) + r.valueAt fun i => y[i]?.getD false) := by
  have hlength : (x ++ y).length = (p.directSum r).numVariables := by
    rw [List.length_append, hx, hy, (hp.directSum hr).1]
  rw [evaluateAt_eq _ hlength, hp.valueAt_directSum hr]
  refine congrArg Except.ok (congrArg₂ _ ?_ ?_)
  · refine hp.valueAt_congr fun i hi => ?_
    rw [List.getElem?_append_left (hx ▸ hi)]
  · refine hr.valueAt_congr fun i _ => ?_
    rw [List.getElem?_append_right (by omega), hx, Nat.add_sub_cancel]

/-- **Arithmetic is pointwise on every table of bytes.** For tables of the right sizes with any
bytes, sum, negative and direct sum are formed without overflow, are the operations on residues,
have tables of the right sizes and store residues only. Their values are the sums and negatives of
the values of the operands, at every boolean point. -/
theorem arithmetic_pointwise (hp : p.IsConsistent) (hq : q.IsConsistent) (hr : r.IsConsistent)
    (hn : p.numVariables = q.numVariables) :
    ∃ s, p.addInBytes q = .ok s ∧ p.add? q = some s ∧ p.tryAddInBytes q = .ok s ∧
      p.negInBytes = .ok (-p) ∧ p.directSumInBytes r = .ok (p.directSum r) ∧
      s.IsReducedOn p.numVariables ∧ (-p).IsReducedOn p.numVariables ∧
      (p.directSum r).IsReducedOn (p.numVariables + r.numVariables) ∧
      ∀ x y : List Bool, x.length = p.numVariables → y.length = r.numVariables →
        ∃ a b c : Z8, p.HasValue x a ∧ q.HasValue x b ∧ r.HasValue y c ∧
          s.HasValue x (a + b) ∧ (-p).HasValue x (-a) ∧
          (p.directSum r).HasValue (x ++ y) (a + c) := by
  obtain ⟨s, hs, hsn, hscons, hsreduced, -⟩ := hp.exists_add? hq hn
  obtain ⟨hdn, hdcons, -⟩ := hp.directSum hr
  have hsum : p.addInBytes q = .ok s := by
    rw [addInBytes_eq, hs]
    rfl
  have htry : p.tryAddInBytes q = .ok s := by
    rw [tryAddInBytes_eq, tryAdd, Result.sameSize_eq_ok.mpr hn, hs]
    rfl
  refine ⟨s, hsum, hs, htry, negInBytes_eq p, directSumInBytes_eq p r,
    ⟨hsn, hscons, hsreduced⟩, ⟨rfl, hp.neg.1, isReduced_neg p⟩,
    ⟨hdn, hdcons, hp.isReduced_directSum hr⟩, fun x y hx hy => ?_⟩
  simp only [hasValue_iff]
  refine ⟨_, _, _, evaluateAt_eq p hx, evaluateAt_eq q (hx.trans hn), evaluateAt_eq r hy, ?_, ?_,
    hp.evaluateAt_directSum hr hx hy⟩
  · rw [evaluateAt_eq s (hx.trans hsn.symm), hp.valueAt_add? hq hs]
  · rw [evaluateAt_eq (-p) hx, hp.valueAt_neg]

/-- With bytes far above seven: the values at a point, found from those of the operands. -/
theorem arithmetic_pointwise_of_great_bytes :
    ∃ s, addInBytes ⟨3, 255, #[255, 255, 255], #[255, 255, 255], #[255]⟩
        ⟨3, 255, #[254, 253, 252], #[251, 250, 249], #[248]⟩ = .ok s ∧
      s.HasValue [true, false, true] 7 ∧
      (directSum ⟨3, 255, #[255, 255, 255], #[255, 255, 255], #[255]⟩
        ⟨1, 200, #[255], #[], #[]⟩).HasValue [true, false, true, true] 3 := by
  obtain ⟨s, hs, -, -, -, -, -, -, -, hvalues⟩ := @arithmetic_pointwise
    ⟨3, 255, #[255, 255, 255], #[255, 255, 255], #[255]⟩
    ⟨3, 255, #[254, 253, 252], #[251, 250, 249], #[248]⟩ ⟨1, 200, #[255], #[], #[]⟩
    (by decide +kernel) (by decide +kernel) (by decide +kernel) rfl
  obtain ⟨a, b, c, hp, hq, hr, hsum, -, hdirect⟩ := hvalues [true, false, true] [true] rfl rfl
  obtain rfl : 4 = a := Except.ok.inj (Eq.trans (by decide +kernel) hp.residue)
  obtain rfl : 3 = b := Except.ok.inj (Eq.trans (by decide +kernel) hq.residue)
  obtain rfl : 7 = c := Except.ok.inj (Eq.trans (by decide +kernel) hr.residue)
  exact ⟨s, hs, hsum, hdirect⟩

end PhasePolynomial

end AffinePhase
