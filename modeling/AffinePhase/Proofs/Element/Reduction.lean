import AffinePhase.Proofs.Circuit.Action
import AffinePhase.Proofs.Element.Generators

/-!
# The affine reduction

Gauss-Jordan elimination by gates. After the shift has been removed, the columns are worked through
in order: a CNOT swap brings a set bit to the diagonal, if there is one below it, and CNOT gates
clear the rest of the column. The control of every gate is the row of the column or one below it, so
columns that are unit vectors stay so. No column is skipped and no rank is computed, yet the
reduction fails for the maps that are not invertible only: if the columns before are unit vectors
and nothing is set on or below the diagonal, the columns so far add up to zero, and gates do not
change whether a matrix is invertible.

Every gate undoes itself, and the gates in reverse order therefore lead back from the identity to
the map.

## Main definitions

* `Circuit.Uses`: every gate of a circuit is one of those allowed.
* `Gate.IsAffine`, `Reduction.IsAffine`: the gates that reduce, and what has been reduced with them.
* `Reduction.LeadsTo`: a map with gates between it and the map where the reduction started.
* `Reduction.IsSingular`: the failure of a map that is not invertible.
* `Reduction.IsCleared`: the first columns are unit vectors and nothing is shifted.
* `Reduction.IsClearing`: the next column, with some of its rows done.

## Main results

* `AffineMap.uses_reduction`: the gates of a reduction.
* `Reduction.LeadsTo.exists_flip`, `Reduction.LeadsTo.exists_add`: single gates.
* `Reduction.IsCleared.ends_clearColumn`: one more column, or none for a singular map.
* `AffineMap.ends_reduced`: a map is reduced to the identity or is not invertible.
* `Element.reduction_decides_invertibility`: for which elements there is a reduction, and what its
  gates do.
-/

open scoped Fin.CommRing

namespace AffinePhase

variable {n : ℕ} {c d : Circuit} {allowed : Gate → Prop} {f : AffineMap}

/-! ### Gates that a circuit uses -/

/-- Every gate of the circuit is one of those allowed. -/
def Circuit.Uses (c : Circuit) (allowed : Gate → Prop) : Prop :=
  ∀ a ∈ c.instructions, allowed a.gate

namespace Circuit

theorem uses_empty (n : ℕ) : (empty n).Uses allowed :=
  List.forall_mem_nil _

/-- One more gate in front, of an allowed kind. -/
theorem Uses.precede (h : c.Uses allowed) {gate : Gate} {qubits : List ℕ} (hgate : allowed gate)
    (hd : c.precede gate qubits = .ok d) : d.Uses allowed := by
  obtain ⟨-, -, hinstructions⟩ := precede_eq_ok_iff.mp hd
  rw [Uses, hinstructions]
  exact List.forall_mem_cons.mpr ⟨hgate, h⟩

/-- Reversing does not change which gates are used. -/
theorem Uses.reversed (h : c.Uses allowed) : c.reversed.Uses allowed :=
  fun a ha => h a (List.mem_reverse.mp ha)

/-- The inverse uses the inverse gates. -/
theorem Uses.inverse (h : c.Uses allowed) (hinverse : ∀ gate, allowed gate → allowed gate.inverse) :
    c.inverse.Uses allowed := by
  intro a ha
  obtain ⟨b, hb, rfl⟩ := List.mem_map.mp (List.mem_reverse.mp ha)
  exact hinverse b.gate (h b hb)

end Circuit

/-- The gates that affine maps are reduced with. -/
def Gate.IsAffine (gate : Gate) : Prop := gate = .x ∨ gate = .controlledX

namespace Reduction

variable {r r' : Reduction} {q control target column row : ℕ}

/-- Only gates of the affine part have been applied. -/
def IsAffine (r : Reduction) : Prop := r.latestFirst.Uses Gate.IsAffine

/-- A flip records a gate `X`. -/
theorem IsAffine.flip (h : r.IsAffine) (hr : r.flip q = .ok r') : r'.IsAffine := by
  obtain ⟨rest, -, hr⟩ := Result.bind_eq_ok.mp hr
  obtain ⟨circuit, hcircuit, hr⟩ := Result.bind_eq_ok.mp hr
  obtain rfl := Except.ok.inj hr
  exact Circuit.Uses.precede h (.inl rfl) hcircuit

/-- An addition records a CNOT. -/
theorem IsAffine.add (h : r.IsAffine) (hr : r.add control target = .ok r') : r'.IsAffine := by
  obtain ⟨rest, -, hr⟩ := Result.bind_eq_ok.mp hr
  obtain ⟨circuit, hcircuit, hr⟩ := Result.bind_eq_ok.mp hr
  obtain rfl := Except.ok.inj hr
  exact Circuit.Uses.precede h (.inr rfl) hcircuit

/-- Placing a pivot records affine gates only. -/
theorem IsAffine.placePivot (h : r.IsAffine) (hr : r.placePivot n column = .ok r') :
    r'.IsAffine := by
  obtain ⟨diagonal, -, hr⟩ := Result.bind_eq_ok.mp hr
  split at hr
  · exact Except.ok.inj hr ▸ h
  · obtain ⟨pivot, -, hr⟩ := Result.bind_eq_ok.mp hr
    obtain ⟨r₁, hr₁, hr⟩ := Result.bind_eq_ok.mp hr
    obtain ⟨r₂, hr₂, hr₃⟩ := Result.bind_eq_ok.mp hr
    exact ((h.add hr₁).add hr₂).add hr₃

/-- Clearing an entry records affine gates only. -/
theorem IsAffine.clearEntry (h : r.IsAffine) (hr : Reduction.clearEntry column r row = .ok r') :
    r'.IsAffine := by
  rw [Reduction.clearEntry] at hr
  split at hr
  · exact Except.ok.inj hr ▸ h
  · obtain ⟨entry, -, hr⟩ := Result.bind_eq_ok.mp hr
    split at hr
    · exact h.add hr
    · exact Except.ok.inj hr ▸ h

/-- Clearing a column records affine gates only. -/
theorem IsAffine.clearColumn (h : r.IsAffine) (hr : r.clearColumn n column = .ok r') :
    r'.IsAffine := by
  obtain ⟨r₀, hr₀, hr⟩ := Result.bind_eq_ok.mp hr
  exact Result.foldlM_preserves IsAffine (h.placePivot hr₀) (fun _ _ _ _ hb => hb.clearEntry) hr

end Reduction

/-- **The reduction of an affine map** uses `X` and CNOT gates only. -/
theorem AffineMap.uses_reduction (h : f.reduction = .ok c) :
    c.Uses Gate.IsAffine := by
  obtain ⟨final, hfinal, h⟩ := Result.bind_eq_ok.mp h
  obtain ⟨-, h⟩ := Result.require_bind_eq_ok.mp h
  obtain rfl := Except.ok.inj h
  obtain ⟨unshifted, hunshifted, hfinal⟩ := Result.bind_eq_ok.mp hfinal
  have hstart : Reduction.IsAffine ⟨Circuit.empty f.numBits, f⟩ := Circuit.uses_empty _
  have hshift : unshifted.IsAffine :=
    Result.foldlM_preserves _ hstart (fun _ _ _ _ hb => hb.flip) hunshifted
  have hcolumns : final.IsAffine :=
    Result.foldlM_preserves _ hshift (fun _ _ _ _ hb => hb.clearColumn) hfinal
  exact Circuit.Uses.reversed hcolumns

/-! ### Gates between two maps -/

namespace Reduction

variable {r : Reduction} {column control target q : ℕ}

/-- The gates applied so far are their own inverses. They lead from `f` to the rest, and in reverse
order from the rest back to `f`, whatever the polynomial. -/
structure LeadsTo (r : Reduction) (f : AffineMap) (n : ℕ) : Prop where
  /-- The circuit has `n` qubits. -/
  numQubits : r.latestFirst.numQubits = n
  /-- The rest acts on `n` bits. -/
  rest : r.rest.IsOn n
  /-- The rest is reversible if the map is. -/
  unit_iff : IsUnit (r.rest.linear.toMatrix n n) ↔ IsUnit (f.linear.toMatrix n n)
  /-- Every gate is its own inverse. -/
  selfInverse : r.latestFirst.Uses fun gate => gate.inverse = gate
  /-- The gates in order lead to the rest. -/
  forth : ∀ p : PhasePolynomial, p.numVariables = n →
    Element.leftMulAll ⟨p, f⟩ r.latestFirst.gates.reverse = .ok ⟨p, r.rest⟩
  /-- The gates in reverse order lead back. -/
  back : ∀ p : PhasePolynomial, p.numVariables = n →
    Element.leftMulAll ⟨p, r.rest⟩ r.latestFirst.gates = .ok ⟨p, f⟩

/-- At the start there are no gates. -/
theorem leadsTo_start (hf : f.IsOn n) : LeadsTo ⟨Circuit.empty n, f⟩ f n :=
  ⟨rfl, hf, Iff.rfl, fun _ h => (nomatch h), fun _ _ => rfl, fun _ _ => rfl⟩

/-- One more gate that undoes itself. -/
theorem LeadsTo.concat {d : Circuit} {g : AffineMap} {gate : Gate} {qubits : List ℕ}
    (h : r.LeadsTo f n) (hdn : d.numQubits = r.latestFirst.numQubits)
    (hdi : d.instructions = ⟨gate, qubits⟩ :: r.latestFirst.instructions)
    (hinverse : gate.inverse = gate) (hon : g.IsOn n)
    (hunit : IsUnit (g.linear.toMatrix n n) ↔ IsUnit (r.rest.linear.toMatrix n n))
    (hforth : ∀ p : PhasePolynomial, p.numVariables = n →
      Element.leftMul ⟨p, r.rest⟩ gate qubits = .ok ⟨p, g⟩)
    (hback : ∀ p : PhasePolynomial, p.numVariables = n →
      Element.leftMul ⟨p, g⟩ gate qubits = .ok ⟨p, r.rest⟩) : LeadsTo ⟨d, g⟩ f n := by
  have hgates : d.gates = (gate, qubits) :: r.latestFirst.gates := by
    rw [Circuit.gates, hdi, List.map_cons, Circuit.gates]
  refine ⟨hdn.trans h.numQubits, hon, hunit.trans h.unit_iff, ?_, fun p hp => ?_, fun p hp => ?_⟩
  · rw [Circuit.Uses, hdi]
    exact List.forall_mem_cons.mpr ⟨hinverse, h.selfInverse⟩
  · rw [hgates, List.reverse_cons, Element.leftMulAll_append (h.forth p hp),
      Element.leftMulAll_cons (hforth p hp)]
    rfl
  · rw [hgates, Element.leftMulAll_cons (hback p hp)]
    exact h.back p hp

/-- One more `X` gate. -/
theorem LeadsTo.exists_flip (h : r.LeadsTo f n) (hq : q < n) :
    ∃ r', r.flip q = .ok r' ∧ r'.LeadsTo f n ∧ r'.rest.linear = r.rest.linear ∧
      ∀ i, r'.rest.shift.bit i = (r.rest.shift.bit i ^^ decide (i = q)) := by
  obtain ⟨g, hg, hon, hlinear, hshift⟩ := AffineMap.exists_flipOutput? h.rest hq
  obtain ⟨d, hd, hdn, hdi⟩ := Circuit.exists_precede (c := r.latestFirst)
    (h.numQubits.symm ▸ Element.instruction_one .x rfl hq)
  have hagain := AffineMap.flipOutput?_flipOutput? h.rest hq hg
  refine ⟨⟨d, g⟩, ?_, h.concat hdn hdi rfl hon (by rw [hlinear])
    (fun p hp => Element.leftMul_x hp hq hg) fun p hp => Element.leftMul_x hp hq hagain, hlinear,
    hshift⟩
  rw [flip, hg]
  simp [hd]

/-- One more CNOT gate. -/
theorem LeadsTo.exists_add (h : r.LeadsTo f n) (hc : control < n) (ht : target < n)
    (hne : control ≠ target) :
    ∃ r', r.add control target = .ok r' ∧ r'.LeadsTo f n ∧
      (∀ i j, r'.rest.linear.entry i j = (r.rest.linear.entry i j ^^
        (decide (i = target) && r.rest.linear.entry control j))) ∧
      ∀ i, r'.rest.shift.bit i =
        (r.rest.shift.bit i ^^ (decide (i = target) && r.rest.shift.bit control)) := by
  obtain ⟨g, hg, hon, hentry, hshift⟩ := AffineMap.exists_addOutput? h.rest hc ht hne
  obtain ⟨d, hd, hdn, hdi⟩ := Circuit.exists_precede (c := r.latestFirst)
    (h.numQubits.symm ▸ Element.instruction_two .controlledX rfl hc ht hne)
  have hunit := AffineMap.isUnit_addOutput? h.rest hc ht hne hg
  have hagain := AffineMap.addOutput?_addOutput? h.rest hc ht hne hg
  refine ⟨⟨d, g⟩, ?_, h.concat hdn hdi rfl hon hunit
    (fun p hp => Element.leftMul_controlledX hp hc ht hne hg)
    fun p hp => Element.leftMul_controlledX hp hc ht hne hagain, hentry, hshift⟩
  rw [add, hg]
  simp [hd]

/-! ### The shift -/

/-- **The shift is removed** by one `X` gate for each of its bits. -/
theorem LeadsTo.exists_unshifted (h : LeadsTo ⟨Circuit.empty n, f⟩ f n) :
    ∃ r, f.shift.support.foldlM flip ⟨Circuit.empty n, f⟩ = .ok r ∧ r.LeadsTo f n ∧
      ∀ i, r.rest.shift.bit i = false := by
  obtain ⟨r, hr, hleads, hshift⟩ := Result.foldlM_of_invariant (f := flip)
    (l := f.shift.support) (b := ⟨Circuit.empty n, f⟩)
    (fun done r => r.LeadsTo f n ∧
      ∀ i, r.rest.shift.bit i = (f.shift.bit i ^^ decide (i ∈ done)))
    ⟨h, fun i => (Bool.xor_false _).symm⟩
    fun done q rest hsplit r ⟨hleads, hshift⟩ => by
      have hq : q ∈ f.shift.support := Result.mem_of_split hsplit
      have hfresh : q ∉ done :=
        Result.not_mem_of_split hsplit (f.shift.pairwise_support.imp ne_of_lt)
      obtain ⟨r', hr', hleads', -, hshift'⟩ :=
        hleads.exists_flip (h.rest.shift ▸ BitVector.lt_of_mem_support hq)
      refine ⟨r', hr', hleads', fun i => ?_⟩
      rw [hshift', hshift, Bool.xor_assoc]
      by_cases hi : i = q
      · subst hi
        simp [hfresh]
      · simp [hi]
  refine ⟨r, hr, hleads, fun i => ?_⟩
  rw [hshift]
  cases hbit : f.shift.bit i with
  | false => simp [BitVector.mem_support, hbit]
  | true => simp [BitVector.mem_support, hbit]

/-! ### The columns -/

/-- The first columns are unit vectors, and nothing is shifted. -/
structure IsCleared (r : Reduction) (n column : ℕ) : Prop where
  /-- The columns are unit vectors. -/
  columns : ∀ j < column, ∀ i < n, r.rest.linear.entry i j = decide (i = j)
  /-- Nothing is shifted. -/
  shift : ∀ i, r.rest.shift.bit i = false

/-- The entries that the reduction looks at are those of the rest. -/
theorem LeadsTo.entry_eq (h : r.LeadsTo f n) {i j : ℕ} (hi : i < n) (hj : j < n) :
    r.entry i j = .ok (r.rest.linear.entry i j) := by
  obtain ⟨row, hrow⟩ := h.rest.linear.exists_row hi
  have hbit : row.get? j = some (row.bit j) :=
    row.get?_eq_some ((h.rest.linear.length_row hrow).symm ▸ hj)
  rw [entry, BitMatrix.get?, hrow, Option.bind_some, hbit, BitMatrix.entry_eq_bit hrow]
  rfl

/-- **A CNOT gate from a row that is not yet done** keeps the columns that are. -/
theorem IsCleared.exists_add (hcleared : r.IsCleared n column) (h : r.LeadsTo f n)
    (hc : control < n) (ht : target < n) (hne : control ≠ target) (hcolumn : column ≤ control) :
    ∃ r', r.add control target = .ok r' ∧ r'.LeadsTo f n ∧ r'.IsCleared n column ∧
      ∀ i j, r'.rest.linear.entry i j = (r.rest.linear.entry i j ^^
        (decide (i = target) && r.rest.linear.entry control j)) := by
  obtain ⟨r', hr', hleads, hentry, hshift⟩ := h.exists_add hc ht hne
  refine ⟨r', hr', hleads, ⟨fun j hj i hi => ?_, fun i => ?_⟩, hentry⟩
  · have hzero : r.rest.linear.entry control j = false := by
      rw [hcleared.columns j hj control hc]
      exact decide_eq_false (by omega)
    rw [hentry, hzero, Bool.and_false, Bool.xor_false, hcleared.columns j hj i hi]
  · rw [hshift, hcleared.shift, hcleared.shift, Bool.and_false, Bool.xor_false]

/-- A column together with those columns before it that its entries above the diagonal name. -/
def dependence (m : BitMatrix) (n column : ℕ) : Fin n → ZMod 2 := fun j =>
  if (j : ℕ) = column then 1 else bitValue (decide ((j : ℕ) < column) && m.entry j column)

/-- The column contributes its entry in row `i`, and the unit vector of that row the same entry if
the row is above the diagonal. -/
theorem entry_mul_dependence {m : BitMatrix} (hcolumn : column < n)
    (hcolumns : ∀ j < column, ∀ i < n, m.entry i j = decide (i = j)) (i j : Fin n) :
    m.toMatrix n n i j * dependence m n column j =
      (if j = ⟨column, hcolumn⟩ then bitValue (m.entry i column) else 0) +
        if j = i then bitValue (decide ((i : ℕ) < column) && m.entry i column) else 0 := by
  rw [dependence, BitMatrix.toMatrix]
  rcases Nat.lt_trichotomy (j : ℕ) column with hj | hj | hj
  · have hne : j ≠ ⟨column, hcolumn⟩ := fun heq => hj.ne (congrArg Fin.val heq)
    rw [if_neg hne, zero_add, if_neg hj.ne, decide_eq_true hj, Bool.true_and,
      hcolumns j hj i i.isLt]
    by_cases hji : j = i
    · subst hji
      rw [if_pos rfl, decide_eq_true rfl, decide_eq_true hj, bitValue_true, one_mul,
        Bool.true_and]
    · rw [if_neg hji, decide_eq_false fun heq => hji (Fin.ext heq).symm, bitValue_false,
        zero_mul]
  · obtain rfl : j = ⟨column, hcolumn⟩ := Fin.ext hj
    rw [if_pos rfl, if_pos rfl, mul_one]
    split
    · rename_i heq
      subst heq
      simp
    · rw [add_zero]
  · have hne : j ≠ ⟨column, hcolumn⟩ := fun heq => hj.ne' (congrArg Fin.val heq)
    rw [if_neg hne, if_neg hj.ne', decide_eq_false hj.not_gt, Bool.false_and, bitValue_false,
      mul_zero, zero_add]
    split
    · rename_i heq
      subst heq
      rw [decide_eq_false hj.not_gt, Bool.false_and, bitValue_false]
    · rfl

/-- If the columns before are unit vectors and nothing is set on or below the diagonal, these
columns add up to zero. -/
theorem mulVec_dependence {m : BitMatrix} (hcolumn : column < n)
    (hcolumns : ∀ j < column, ∀ i < n, m.entry i j = decide (i = j))
    (hlow : ∀ i, column ≤ i → i < n → m.entry i column = false) :
    (m.toMatrix n n).mulVec (dependence m n column) = 0 := by
  funext i
  rw [Matrix.mulVec, dotProduct,
    Finset.sum_congr rfl fun j _ => entry_mul_dependence hcolumn hcolumns i j,
    Finset.sum_add_distrib, Finset.sum_ite_eq', Finset.sum_ite_eq', if_pos (Finset.mem_univ _),
    if_pos (Finset.mem_univ _), Pi.zero_apply]
  rcases Nat.lt_or_ge (i : ℕ) column with hi | hi
  · rw [decide_eq_true hi, Bool.true_and, ← bitValue_xor, Bool.xor_self, bitValue_false]
  · rw [hlow i hi i.isLt, Bool.and_false, bitValue_false, add_zero]

/-- **Nothing is set on or below the diagonal** only if the map is not invertible. -/
theorem IsCleared.not_isUnit (hcleared : r.IsCleared n column) (h : r.LeadsTo f n)
    (hcolumn : column < n)
    (hlow : ∀ i, column ≤ i → i < n → r.rest.linear.entry i column = false) :
    ¬ IsUnit (f.linear.toMatrix n n) := by
  intro hunit
  have hkernel := mulVec_dependence hcolumn hcleared.columns hlow
  have hzero := (BitMatrix.isUnit_iff_kernel _).mp (h.unit_iff.mpr hunit) _ hkernel
  have hone : dependence r.rest.linear n column ⟨column, hcolumn⟩ = 1 := if_pos rfl
  rw [hzero, Pi.zero_apply] at hone
  exact zero_ne_one hone

/-- The failure of a map that is not invertible. -/
structure IsSingular (f : AffineMap) (n : ℕ) (e : Failure) : Prop where
  /-- It is reported what is wrong. -/
  reported : e = .invalidElement .singular
  /-- The linear part is not invertible. -/
  singular : ¬ IsUnit (f.linear.toMatrix n n)

/-- The indices below `n` from `c` on. -/
theorem mem_drop_range {i c : ℕ} : i ∈ (List.range n).drop c ↔ c ≤ i ∧ i < n := by
  rw [List.range_eq_range', List.drop_range', List.mem_range'_1]
  omega

/-- The search for a pivot finds a row with a set bit, or there is none. -/
theorem LeadsTo.ends_pivot (h : r.LeadsTo f n) (hcolumn : column < n) {rows : List ℕ}
    (hrows : ∀ row ∈ rows, row < n) :
    Result.Ends (fun row => row ∈ rows ∧ r.rest.linear.entry row column = true)
      (fun e => e = .invalidElement .singular ∧
        ∀ row ∈ rows, r.rest.linear.entry row column = false) (r.pivot column rows) := by
  induction rows with
  | nil => exact ⟨rfl, List.forall_mem_nil _⟩
  | cons row rows ih =>
      obtain ⟨hrow, hrows⟩ := List.forall_mem_cons.mp hrows
      rw [pivot, h.entry_eq hrow hcolumn, Result.ok_bind]
      cases hset : r.rest.linear.entry row column with
      | true => exact ⟨List.mem_cons_self, hset⟩
      | false =>
          refine (ih hrows).imp ?_ ?_
          · exact fun found ⟨hmem, hbit⟩ => ⟨List.mem_cons_of_mem row hmem, hbit⟩
          · exact fun e ⟨he, hnone⟩ => ⟨he, List.forall_mem_cons.mpr ⟨hset, hnone⟩⟩

/-- **A set bit comes to the diagonal**, by the three CNOT gates of a swap if it is not there. If
there is none to bring, the map is singular. -/
theorem IsCleared.ends_placePivot (hcleared : r.IsCleared n column) (h : r.LeadsTo f n)
    (hcolumn : column < n) :
    Result.Ends (fun r' => r'.LeadsTo f n ∧ r'.IsCleared n column ∧
      r'.rest.linear.entry column column = true) (IsSingular f n) (r.placePivot n column) := by
  rw [placePivot, h.entry_eq hcolumn hcolumn, Result.ok_bind]
  cases hdiag : r.rest.linear.entry column column with
  | true => exact ⟨h, hcleared, hdiag⟩
  | false =>
      have hrows : ∀ row ∈ (List.range n).drop (column + 1), row < n :=
        fun row hrow => (mem_drop_range.mp hrow).2
      have hsearch : Result.Ends (fun row => column < row ∧ row < n ∧
          r.rest.linear.entry row column = true) (IsSingular f n)
          (r.pivot column ((List.range n).drop (column + 1))) := by
        refine (h.ends_pivot hcolumn hrows).imp ?_ ?_
        · rintro row ⟨hmem, hbit⟩
          obtain ⟨hlt, hn⟩ := mem_drop_range.mp hmem
          exact ⟨hlt, hn, hbit⟩
        · rintro e ⟨he, hnone⟩
          refine ⟨he, hcleared.not_isUnit h hcolumn fun i hi hn => ?_⟩
          rcases hi.eq_or_lt with rfl | hlt
          · exact hdiag
          · exact hnone i (mem_drop_range.mpr ⟨hlt, hn⟩)
      refine hsearch.bind fun pivot ⟨hlt, hpn, hbit⟩ => ?_
      obtain ⟨r₁, hr₁, h₁, hc₁, he₁⟩ := hcleared.exists_add h hpn hcolumn hlt.ne' hlt.le
      obtain ⟨r₂, hr₂, h₂, hc₂, he₂⟩ := hc₁.exists_add h₁ hcolumn hpn hlt.ne le_rfl
      obtain ⟨r₃, hr₃, h₃, hc₃, he₃⟩ := hc₂.exists_add h₂ hpn hcolumn hlt.ne' hlt.le
      refine Result.ends_of_exists ⟨r₃, by simp [hr₁, hr₂, hr₃], h₃, hc₃, ?_⟩
      simp [he₃, he₂, he₁, hdiag, hbit, hlt.ne, hlt.ne']

/-- A column while its entries are cleared: its bit on the diagonal is set, and those of the rows in
`done` are not. -/
structure IsClearing (r : Reduction) (n column : ℕ) (done : List ℕ) : Prop where
  /-- The columns before are unit vectors. -/
  before : r.IsCleared n column
  /-- The bit on the diagonal is set. -/
  diagonal : r.rest.linear.entry column column = true
  /-- The rows that are done. -/
  cleared : ∀ i ∈ done, i ≠ column → r.rest.linear.entry i column = false

/-- One more row has been cleared. -/
theorem IsClearing.concat {done : List ℕ} {row : ℕ} (h : r.IsClearing n column done)
    (hrow : row ≠ column → r.rest.linear.entry row column = false) :
    r.IsClearing n column (done ++ [row]) := by
  refine ⟨h.before, h.diagonal, fun i hi hne => ?_⟩
  rcases List.mem_append.mp hi with hi | hi
  · exact h.cleared i hi hne
  · obtain rfl := List.mem_singleton.mp hi
    exact hrow hne

/-- **One more entry is cleared**, by a CNOT gate from the diagonal if it is set. -/
theorem IsClearing.exists_clearEntry {done : List ℕ} {row : ℕ}
    (hclearing : r.IsClearing n column done) (h : r.LeadsTo f n) (hcolumn : column < n)
    (hrow : row < n) :
    ∃ r', clearEntry column r row = .ok r' ∧ r'.LeadsTo f n ∧
      r'.IsClearing n column (done ++ [row]) := by
  by_cases hself : row = column
  · refine ⟨r, ?_, h, hclearing.concat fun hne => absurd hself hne⟩
    rw [clearEntry, if_pos hself]
    rfl
  · have hentry := h.entry_eq hrow hcolumn
    rw [clearEntry, if_neg hself, hentry]
    cases hbit : r.rest.linear.entry row column with
    | false => exact ⟨r, rfl, h, hclearing.concat fun _ => hbit⟩
    | true =>
        obtain ⟨r', hr', h', hbefore, hadded⟩ :=
          hclearing.before.exists_add h hcolumn hrow (Ne.symm hself) le_rfl
        have hdiagonal : r'.rest.linear.entry column column = true := by
          rw [hadded, decide_eq_false (Ne.symm hself), Bool.false_and, Bool.xor_false,
            hclearing.diagonal]
        have hnew : r'.rest.linear.entry row column = false := by
          rw [hadded, hclearing.diagonal, hbit, decide_eq_true rfl, Bool.true_and, Bool.xor_self]
        have hold : ∀ i ∈ done, i ≠ column → r'.rest.linear.entry i column = false := by
          intro i hi hne
          by_cases hi' : i = row
          · rw [hi', hnew]
          · rw [hadded, decide_eq_false hi', Bool.false_and, Bool.xor_false,
              hclearing.cleared i hi hne]
        have hnext : r'.IsClearing n column done := ⟨hbefore, hdiagonal, hold⟩
        exact ⟨r', hr', h', hnext.concat fun _ => hnew⟩

/-- **One more column becomes a unit vector**, or the map is singular. -/
theorem IsCleared.ends_clearColumn (hcleared : r.IsCleared n column) (h : r.LeadsTo f n)
    (hcolumn : column < n) :
    Result.Ends (fun r' => r'.LeadsTo f n ∧ r'.IsCleared n (column + 1)) (IsSingular f n)
      (r.clearColumn n column) := by
  rw [clearColumn]
  refine (hcleared.ends_placePivot h hcolumn).bind fun r₀ ⟨h₀, hc₀, hdiag⟩ => ?_
  obtain ⟨r', hr', h', hfinal⟩ := Result.foldlM_of_invariant (f := clearEntry column)
    (l := List.range n) (b := r₀) (fun done r => r.LeadsTo f n ∧ r.IsClearing n column done)
    ⟨h₀, hc₀, hdiag, List.forall_mem_nil _⟩
    fun done row rest hsplit r ⟨hleads, hclearing⟩ => by
      have hrow : row < n := List.mem_range.mp (Result.mem_of_split hsplit)
      exact hclearing.exists_clearEntry hleads hcolumn hrow
  refine Result.ends_of_exists ⟨r', hr', h', ⟨fun j hj i hi => ?_, hfinal.before.shift⟩⟩
  rcases Nat.lt_succ_iff_lt_or_eq.mp hj with hj | rfl
  · exact hfinal.before.columns j hj i hi
  · by_cases hij : i = j
    · rw [hij, hfinal.diagonal, decide_eq_true rfl]
    · rw [hfinal.cleared i (List.mem_range.mpr hi) hij, decide_eq_false hij]

/-- A map that is reduced to the identity is invertible. -/
theorem LeadsTo.isUnit (h : r.LeadsTo f n) (hrest : r.rest = AffineMap.identity n) :
    IsUnit (f.linear.toMatrix n n) := by
  rw [← h.unit_iff, hrest, AffineMap.toMatrix_identity]
  exact isUnit_one

/-- A cleared map is the identity. -/
theorem IsCleared.rest_eq (hcleared : r.IsCleared n n) (h : r.LeadsTo f n) :
    r.rest = AffineMap.identity n := by
  refine AffineMap.ext_bits h.rest (AffineMap.isOn_identity n) (fun i hi j hj => ?_) fun i _ => ?_
  · rw [hcleared.columns j hj i hi, AffineMap.entry_identity hi]
  · rw [hcleared.shift, AffineMap.bit_shift_identity]

end Reduction

namespace AffineMap

/-- **A map is reduced to the identity**, by gates between the two, or is not invertible. -/
theorem ends_reduced (hf : f.IsOn n) :
    Result.Ends (fun final => final.LeadsTo f n ∧ final.rest = identity n)
      (Reduction.IsSingular f n) f.reduced := by
  obtain ⟨r₀, hr₀, h₀, hshift⟩ := (Reduction.leadsTo_start hf).exists_unshifted
  have hcolumns := Result.ends_foldlM (f := Reduction.clearColumn n) (l := List.range n) (b := r₀)
    (fun done r => r.LeadsTo f n ∧ r.IsCleared n done.length) (E := Reduction.IsSingular f n)
    ⟨h₀, fun j hj => absurd hj (Nat.not_lt_zero j), hshift⟩
    fun done column rest hsplit r ⟨hleads, hcleared⟩ => by
      have hcolumn : (List.range n)[done.length]? = some column := by
        rw [hsplit, List.getElem?_append_right le_rfl, Nat.sub_self]
        rfl
      obtain ⟨hlt, rfl⟩ := List.getElem?_eq_some_iff.mp hcolumn
      rw [List.length_range] at hlt
      rw [List.getElem_range, List.length_append, List.length_singleton]
      exact hcleared.ends_clearColumn hleads hlt
  rw [List.length_range] at hcolumns
  rw [reduced, hf.numBits_eq, hr₀]
  exact hcolumns.imp (fun final ⟨hleads, hcleared⟩ => ⟨hleads, hcleared.rest_eq hleads⟩) fun _ => id

/-- **An invertible map is reduced to the identity**, by gates that lead back to it. -/
theorem exists_reduced (hf : f.IsOn n) (hunit : IsUnit (f.linear.toMatrix n n)) :
    ∃ final, f.reduced = .ok final ∧ final.LeadsTo f n ∧ final.rest = identity n :=
  (ends_reduced hf).exists_ok fun _ he => he.singular hunit

/-- The identity passes the assertion at the end of the reduction. -/
theorem identity_isReduced (n : ℕ) :
    (identity n).shift.isZero = true ∧ (identity n).linear.isIdentity = true := by
  constructor
  · refine List.all_eq_true.mpr fun word hword => ?_
    rw [List.eq_of_mem_replicate hword]
    rfl
  · have hshape := (isOn_identity n).linear
    rw [BitMatrix.isIdentity, hshape.isSquare_iff.mpr rfl, hshape.columns, Bool.true_and]
    exact beq_self_eq_true _

/-- A map that is reduced to the identity passes the assertion. -/
theorem reduction_eq {final : Reduction} (hfinal : f.reduced = .ok final)
    (hrest : final.rest = identity n) : f.reduction = .ok final.latestFirst.reversed := by
  obtain ⟨hshift, hlinear⟩ := identity_isReduced n
  rw [reduction, hfinal]
  simp only [Result.ok_bind, hrest, hshift, hlinear]
  rfl

/-- There is a reduction, or the map is not invertible. -/
theorem ends_reduction (hf : f.IsOn n) :
    Result.Ends (fun c => ∃ final : Reduction, c = final.latestFirst.reversed ∧
      final.LeadsTo f n ∧ final.rest = identity n) (Reduction.IsSingular f n) f.reduction := by
  have hreduced := ends_reduced hf
  cases hfinal : f.reduced with
  | ok final =>
      rw [hfinal] at hreduced
      rw [reduction_eq hfinal hreduced.2]
      exact ⟨final, rfl, hreduced⟩
  | error e =>
      rw [hfinal] at hreduced
      rw [reduction, hfinal]
      exact hreduced

end AffineMap

/-! ### Invertibility -/

namespace Element

/-- **The reduction decides invertibility.** For an element whose affine part fits, there is a
reduction exactly if the linear part is invertible, which is so exactly if its rank is the number of
qubits; otherwise it is reported that the linear part is singular. The circuit of a reduction
consists of `X` and CNOT gates, and its gates in order make the affine part the identity and leave
the polynomial as it is. -/
theorem reduction_decides_invertibility {e : Element} (h : e.affine.IsOn e.numQubits) :
    ((∃ c, e.affine.reduction = .ok c) ↔
      IsUnit (e.affine.linear.toMatrix e.numQubits e.numQubits)) ∧
    ((∃ c, e.affine.reduction = .ok c) ↔ e.affine.linear.rank? = some e.numQubits) ∧
    (¬ IsUnit (e.affine.linear.toMatrix e.numQubits e.numQubits) →
      e.affine.reduction = .error (.invalidElement .singular)) ∧
    ∀ c, e.affine.reduction = .ok c → c.numQubits = e.numQubits ∧
      (∀ a ∈ c.instructions, (a.gate = .x ∨ a.gate = .controlledX) ∧ a.ActsOn e.numQubits) ∧
      e.leftMulAll c.gates = .ok ⟨e.poly, AffineMap.identity e.numQubits⟩ := by
  have hends := AffineMap.ends_reduction h
  have hrank := BitMatrix.rank?_eq_some_iff h.linear
  cases hreduction : e.affine.reduction with
  | ok c =>
      rw [hreduction] at hends
      obtain ⟨final, rfl, hleads, hrest⟩ := hends
      have hunit := hleads.isUnit hrest
      refine ⟨iff_of_true ⟨_, rfl⟩ hunit, iff_of_true ⟨_, rfl⟩ (hrank.mpr hunit),
        fun hsingular => absurd hunit hsingular, fun c hc => ?_⟩
      obtain rfl := Except.ok.inj hc
      have hacts : ∀ a ∈ final.latestFirst.reversed.instructions, a.ActsOn e.numQubits :=
        hleads.numQubits ▸ final.latestFirst.reversed.actsOn
      have huses := AffineMap.uses_reduction hreduction
      refine ⟨hleads.numQubits, fun a ha => ⟨huses a ha, hacts a ha⟩, ?_⟩
      rw [Circuit.gates_reversed, ← hrest]
      exact hleads.forth e.poly rfl
  | error failure =>
      rw [hreduction] at hends
      obtain ⟨rfl, hsingular⟩ := hends
      have hnone : ¬ ∃ c, (Except.error (.invalidElement .singular) : Result Circuit) = .ok c :=
        fun ⟨_, hc⟩ => nomatch hc
      exact ⟨iff_of_false hnone hsingular, iff_of_false hnone (hrank.not.mpr hsingular),
        fun _ => rfl, fun c hc => absurd ⟨c, hc⟩ hnone⟩

/-- An element with a reduction, and one whose two output bits are opposite. -/
theorem reduction_decides_invertibility_of_samples :
    (∃ c, sample.affine.reduction = .ok c ∧ c.numQubits = 3 ∧
      sample.leftMulAll c.gates = .ok ⟨sample.poly, AffineMap.identity 3⟩) ∧
    AffineMap.reduction ⟨⟨2, [.ofList [true, false], .ofList [true, false]]⟩,
      .ofList [false, true]⟩ = .error (.invalidElement .singular) := by
  constructor
  · have hfits : sample.affine.IsOn sample.numQubits := AffineMap.isOn_iff.mpr (by decide +kernel)
    obtain ⟨-, hrank, -, hgates⟩ := reduction_decides_invertibility hfits
    obtain ⟨c, hc⟩ := hrank.mpr (by decide +kernel)
    obtain ⟨hn, -, hidentity⟩ := hgates c hc
    exact ⟨c, hc, hn, hidentity⟩
  · obtain ⟨hunit, hrank, hsingular, -⟩ := @reduction_decides_invertibility
      ⟨.zero 2, ⟨⟨2, [.ofList [true, false], .ofList [true, false]]⟩, .ofList [false, true]⟩⟩
      (AffineMap.isOn_iff.mpr (by decide +kernel))
    refine hsingular fun h => ?_
    exact absurd (hrank.mp (hunit.mpr h)) (by decide +kernel)

end Element

end AffinePhase
