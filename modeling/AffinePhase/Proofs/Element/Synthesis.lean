import AffinePhase.Proofs.Element.Reduction
import AffinePhase.Proofs.Polynomial.Term

/-!
# Synthesis is correct

The diagonal part of a group element is built term by term, highest degree first. A gadget adds a
multiple of a parity, which changes the coefficient of the term that it is for and coefficients of
lower degree only, so that after each pass the coefficients of its degree are those wanted, and stay
so. The constants agree throughout, and with all coefficients right the stored tables are equal.
The gates of the affine reduction in reverse order then bring the affine part in.

## Main definitions

* `Draft.Implements`: a draft whose circuit builds its element.
* `Draft.IsDiagonal`: moreover the element has the identity as its affine map.
* `Draft.SetsTerm`: what the step for a term does to the coefficients.
* `Draft.AgreesFrom`: the coefficients of a degree and above are those wanted.

## Main results

* `Draft.IsDiagonal.exists_addCubic`, `Draft.IsDiagonal.exists_addQuadratic`,
  `Draft.IsDiagonal.exists_addLinear`: the three kinds of steps.
* `Draft.IsDiagonal.exists_pass`: a pass over the terms of one degree.
* `Element.InGroup.exists_diagonalCircuit`: the diagonal part is built exactly.
* `Element.toCircuit_round_trip`: synthesis fails only as validation does, and the circuit of a
  valid element gives the element back.
-/

open scoped Fin.CommRing

namespace AffinePhase

variable {n : ℕ} {p target : PhasePolynomial}

/-! ### The number of qubits -/

/-- Adding a parity keeps the number of variables. -/
theorem PhasePolynomial.numVariables_addParity (p : PhasePolynomial) (xs : List ℕ) (c : Z8) :
    (p.addParity xs c).numVariables = p.numVariables := by
  rw [addParity]
  generalize smallSubsets xs = l
  induction l generalizing p with
  | nil => rfl
  | cons m l ih => rw [List.foldl_cons, ih, addTerm, numVariables_modifyWeight]

namespace Element

variable {e e' : Element}

/-- A move keeps the number of qubits. -/
theorem numQubits_of_move? {move : Move} (h : e.move? move = some e') :
    e'.numQubits = e.numQubits := by
  cases move with
  | flip q =>
      obtain ⟨g, -, rfl⟩ := Option.map_eq_some_iff.mp h
      rfl
  | add c t =>
      obtain ⟨g, -, rfl⟩ := Option.map_eq_some_iff.mp h
      rfl
  | phase k q =>
      obtain ⟨flipped, -, h⟩ := Option.bind_eq_some_iff.mp h
      obtain ⟨row, -, h⟩ := Option.bind_eq_some_iff.mp h
      obtain rfl := Option.some.inj h
      exact e.poly.numVariables_addParity row.support _

/-- A word of moves keeps the number of qubits. -/
theorem numQubits_of_moves? {ms : List Move} (h : e.moves? ms = some e') :
    e'.numQubits = e.numQubits := by
  induction ms generalizing e with
  | nil => exact congrArg numQubits (Option.some.inj h).symm
  | cons move ms ih =>
      rw [moves?, List.foldlM_cons] at h
      obtain ⟨e₁, hmove, hrest⟩ := Option.bind_eq_some_iff.mp h
      exact (ih hrest).trans (numQubits_of_move? hmove)

/-- **A gate that succeeds** has an instruction on the qubits of the element, and keeps their
number. -/
theorem instruction_of_leftMul {gate : Gate} {qubits : List ℕ}
    (h : e.leftMul gate qubits = .ok e') :
    Instruction.of gate qubits e.numQubits = .ok ⟨gate, qubits⟩ ∧ e'.numQubits = e.numQubits := by
  rw [leftMul, Result.bind_eq_ok] at h
  obtain ⟨a, ha, hmoves⟩ := h
  obtain ⟨rfl, -⟩ := Instruction.of_eq_ok_iff.mp ha
  exact ⟨ha, numQubits_of_moves? (Result.ofOption_eq_ok.mp hmoves)⟩

end Element

namespace Draft

variable {d : Draft} {i j k : ℕ}

/-! ### Drafts -/

/-- The circuit of the draft implements its element. -/
structure Implements (d : Draft) (n : ℕ) : Prop where
  /-- The circuit has `n` qubits. -/
  circuit : d.latestFirst.numQubits = n
  /-- The element has `n` qubits. -/
  element : d.element.numQubits = n
  /-- The gates applied to the identity give the element. -/
  built : Element.leftMulAll (Element.identity n) d.latestFirst.gates.reverse = .ok d.element

/-- **Gates that succeed on the element** can be added to the draft. -/
theorem Implements.exists_pushAll {gates : List (Gate × List ℕ)} {e : Element}
    (h : d.Implements n) (he : d.element.leftMulAll gates = .ok e) :
    ∃ d', d.pushAll gates = .ok d' ∧ d'.element = e ∧ d'.Implements n := by
  induction gates generalizing d with
  | nil =>
      obtain rfl := Except.ok.inj he
      exact ⟨d, rfl, rfl, h⟩
  | cons head gates ih =>
      obtain ⟨gate, qubits⟩ := head
      rw [Element.leftMulAll, List.foldlM_cons, Result.bind_eq_ok] at he
      obtain ⟨e₁, hfirst, hrest⟩ := he
      obtain ⟨hinstruction, hn⟩ := Element.instruction_of_leftMul hfirst
      rw [h.element, ← h.circuit] at hinstruction
      obtain ⟨c, hc, hcn, hci⟩ := Circuit.exists_precede hinstruction
      have hpush : d.push gate qubits = .ok ⟨c, e₁⟩ := by
        have hfirst' : d.element.leftMul gate qubits = .ok e₁ := hfirst
        rw [push, hfirst', Result.ok_bind, hc]
        rfl
      have hnext : Implements ⟨c, e₁⟩ n := by
        refine ⟨hcn.trans h.circuit, hn.trans h.element, ?_⟩
        rw [Circuit.gates, hci, List.map_cons, List.reverse_cons]
        refine (Element.leftMulAll_append h.built).trans ?_
        exact Element.leftMulAll_cons hfirst
      obtain ⟨d', hd', he', h'⟩ := ih hnext hrest
      refine ⟨d', ?_, he', h'⟩
      rw [pushAll, List.foldlM_cons]
      exact (congrArg (· >>= _) hpush).trans hd'

/-! ### Diagonal drafts -/

/-- A draft whose element has the identity as its affine map. -/
structure IsDiagonal (d : Draft) (n : ℕ) : Prop where
  /-- The circuit implements the element. -/
  implements : d.Implements n
  /-- The affine map is the identity. -/
  affine : d.element.affine = AffineMap.identity n
  /-- The polynomial is one of a group element. -/
  poly : d.element.poly.IsGroupOn n
  /-- There is no constant. -/
  constant : d.element.poly.constant = 0

/-- The coefficient of a monomial in the polynomial built so far. -/
def coefficient (d : Draft) (m : Monomial) : Z8 := d.element.poly.coefficient m

theorem isDiagonal_empty (n : ℕ) : (Draft.empty n).IsDiagonal n :=
  ⟨⟨rfl, rfl, rfl⟩, rfl, PhasePolynomial.isGroupOn_zero n, rfl⟩

/-- Of the monomials of at least the degree of a parity, the parity has the one of its variables. -/
theorem mem_smallSubsets_iff {xs m : List ℕ} (hpos : xs ≠ []) (hdegree : xs.length ≤ 3)
    (hlen : xs.length ≤ m.length) : m ∈ PhasePolynomial.smallSubsets xs ↔ m = xs := by
  rw [mem_smallSubsets]
  constructor
  · rintro ⟨hsub, -, -⟩
    exact hsub.eq_of_length_le hlen
  · rintro rfl
    exact ⟨List.Sublist.refl m, hdegree, hpos⟩

/-- The coefficients of a degree and above are those wanted. -/
def AgreesFrom (d : Draft) (target : PhasePolynomial) (degree : ℕ) : Prop :=
  ∀ m : Monomial, degree ≤ m.length → d.coefficient m = target.coefficient m

/-- If all terms of a degree agree and everything above does, then everything from there on does. -/
theorem IsDiagonal.agreesFrom (h : d.IsDiagonal n) (htarget : target.IsGroupOn n) {degree : ℕ}
    (habove : d.AgreesFrom target (degree + 1))
    (hdegree : ∀ m : Monomial, m.IsTerm n → m.length = degree →
      d.coefficient m = target.coefficient m) : d.AgreesFrom target degree := by
  intro m hm
  rcases hm.eq_or_lt with hlen | hlen
  · by_cases hterm : m.IsTerm n
    · exact hdegree m hterm hlen.symm
    · have hbuilt := h.poly.consistent.coefficient_of_not_isTerm (h.poly.numVariables.symm ▸ hterm)
      have hwanted :=
        htarget.consistent.coefficient_of_not_isTerm (htarget.numVariables.symm ▸ hterm)
      exact hbuilt.trans hwanted.symm
  · exact habove m hlen

/-! ### Single terms -/

/-- The step for a term leads to a diagonal draft. It brings the coefficient of the term to the
wanted value and keeps all others of its degree and above. -/
structure SetsTerm (d d' : Draft) (target : PhasePolynomial) (n : ℕ) (term : Monomial) : Prop where
  /-- The draft stays diagonal. -/
  diagonal : d'.IsDiagonal n
  /-- The coefficients of the degree of the term and above. -/
  coefficient : ∀ m : Monomial, term.length ≤ m.length →
    d'.coefficient m = if m = term then target.coefficient m else d.coefficient m

/-- Where the coefficient is already right, nothing has to be done. -/
theorem IsDiagonal.setsTerm_self (h : d.IsDiagonal n) {term : Monomial}
    (hterm : d.coefficient term = target.coefficient term) : d.SetsTerm d target n term := by
  refine ⟨h, fun m _ => ?_⟩
  split
  · rename_i heq
    rw [heq, hterm]
  · rfl

/-- **A gadget** for a term does its step if the multiple of the parity that it adds is the way from
the coefficient there is to the one wanted. -/
theorem IsDiagonal.exists_gadget (h : d.IsDiagonal n) {gates : List (Gate × List ℕ)}
    {term : Monomial} {c : Z8} (hpos : term ≠ []) (hdegree : term.length ≤ 3)
    (hgadget : ∃ p', Element.leftMulAll ⟨d.element.poly, AffineMap.identity n⟩ gates =
      .ok ⟨p', AffineMap.identity n⟩ ∧ d.element.poly.IsAdded term c p' n)
    (hway : d.coefficient term + PhasePolynomial.parityCoefficient term.length * c =
      target.coefficient term) :
    ∃ d', d.pushAll gates = .ok d' ∧ d.SetsTerm d' target n term := by
  obtain ⟨p', hgates, hadded⟩ := hgadget
  rw [← h.affine] at hgates
  obtain ⟨d', hd', he', himplements⟩ := h.implements.exists_pushAll hgates
  refine ⟨d', hd', ⟨himplements, ?_, ?_, ?_⟩, fun m hlen => ?_⟩
  · rw [he', h.affine]
  · rw [he']
    exact hadded.group
  · rw [he', hadded.constant, h.constant]
  · rw [coefficient, coefficient, he', hadded.coefficient,
      if_congr (mem_smallSubsets_iff hpos hdegree hlen) rfl rfl]
    split
    · rename_i heq
      rw [heq]
      exact hway
    · exact add_zero _

/-- **The cubic step** builds the wanted coefficient where there was none. -/
theorem IsDiagonal.exists_addCubic (h : d.IsDiagonal n) (htarget : target.IsGroupOn n)
    (hij : i < j) (hjk : j < k) (hk : k < n) (hnone : d.coefficient [i, j, k] = 0) :
    ∃ d', addCubic target d [i, j, k] = .ok d' ∧ d.SetsTerm d' target n [i, j, k] := by
  have hterm : Monomial.IsTerm [i, j, k] n := by
    refine ⟨by simp [hij, hjk, hij.trans hjk], fun a ha => ?_, le_rfl⟩
    simp only [List.mem_cons, List.not_mem_nil, or_false] at ha
    omega
  have hread := htarget.term_eq hterm
  have hwanted := htarget.coefficient_eq_stored hterm
  by_cases hzero : target.stored [i, j, k] = 0
  · refine ⟨d, ?_, h.setsTerm_self ?_⟩
    · rw [addCubic, hread]
      simp only [Result.ok_bind, hzero, ne_eq, not_true_eq_false, if_false]
      rfl
    · rw [hnone, hwanted, hzero]
      rfl
  · have hfour : target.stored [i, j, k] = 4 := by
      obtain ⟨hn, hcons, -, -, hcubic⟩ := htarget
      have hbyte := hcons.table_rank (hn.symm ▸ hterm)
      exact (hcubic _ (Array.mem_of_getElem? hbyte)).resolve_left hzero
    have hway : d.coefficient [i, j, k] + PhasePolynomial.parityCoefficient 3 * 1 =
        target.coefficient [i, j, k] := by
      rw [hnone, hwanted, hfour]
      rfl
    obtain ⟨d', hd', hset⟩ := h.exists_gadget (List.cons_ne_nil _ _) le_rfl
      (Element.exists_cubicGadget h.poly hij hjk hk) hway
    refine ⟨d', ?_, hset⟩
    rw [addCubic, hread]
    simp [hzero, hd']

/-- Half the difference of even residues, six times, is the way from one to the other. -/
theorem add_six_mul_half {a b : Z8} (ha : (2 : Z8) ∣ a) (hb : (2 : Z8) ∣ b) :
    a + 6 * half (a - b) = b := by
  obtain ⟨a, rfl⟩ := ha
  obtain ⟨b, rfl⟩ := hb
  revert a b; decide

/-- **The quadratic step** brings the coefficient to the wanted value. -/
theorem IsDiagonal.exists_addQuadratic (h : d.IsDiagonal n) (htarget : target.IsGroupOn n)
    (hij : i < j) (hj : j < n) :
    ∃ d', addQuadratic target d [i, j] = .ok d' ∧ d.SetsTerm d' target n [i, j] := by
  have hterm : Monomial.IsTerm [i, j] n := by
    refine ⟨by simpa using hij, fun a ha => ?_, by simp⟩
    simp only [List.mem_cons, List.not_mem_nil, or_false] at ha
    omega
  have hread := htarget.term_eq hterm
  have hread' := h.poly.term_eq hterm
  have hway : d.coefficient [i, j] + 6 * half (d.coefficient [i, j] - target.coefficient [i, j]) =
      target.coefficient [i, j] :=
    add_six_mul_half (h.poly.graded_coefficient [i, j]) (htarget.graded_coefficient [i, j])
  have hhalf : half (Z8.ofByte (d.element.poly.stored [i, j]) -
      Z8.ofByte (target.stored [i, j])) =
        half (d.coefficient [i, j] - target.coefficient [i, j]) := by
    rw [coefficient, h.poly.coefficient_eq_stored hterm, htarget.coefficient_eq_stored hterm]
  generalize half (d.coefficient [i, j] - target.coefficient [i, j]) = c at hway hhalf
  by_cases hzero : c = 0
  · rw [hzero, mul_zero, add_zero] at hway
    refine ⟨d, ?_, h.setsTerm_self hway⟩
    rw [addQuadratic, hread', hread]
    simp only [Result.ok_bind, hhalf, hzero, ne_eq, not_true_eq_false, if_false]
    rfl
  · obtain ⟨d', hd', hset⟩ := h.exists_gadget (List.cons_ne_nil _ _) (by simp)
      (Element.exists_quadraticGadget h.poly hij hj c) hway
    refine ⟨d', ?_, hset⟩
    rw [addQuadratic, hread', hread]
    simp [hhalf, hzero, hd']

/-- **The linear step** brings the coefficient to the wanted value. -/
theorem IsDiagonal.exists_addLinear (h : d.IsDiagonal n) (htarget : target.IsGroupOn n)
    (hi : i < n) :
    ∃ d', addLinear target d i = .ok d' ∧ d.SetsTerm d' target n [i] := by
  have hterm : Monomial.IsTerm [i] n :=
    ⟨List.pairwise_singleton _ _, fun a ha => List.mem_singleton.mp ha ▸ hi, by simp⟩
  have hread := htarget.term_eq hterm
  have hread' := h.poly.term_eq hterm
  have hway : d.coefficient [i] + 1 * (Z8.ofByte (target.stored [i]) -
      Z8.ofByte (d.element.poly.stored [i])) = target.coefficient [i] := by
    rw [coefficient, h.poly.coefficient_eq_stored hterm, htarget.coefficient_eq_stored hterm,
      one_mul, add_sub_cancel]
  obtain ⟨d', hd', hset⟩ := h.exists_gadget (List.cons_ne_nil _ _) (by simp)
    (Element.exists_linearGadget h.poly hi _) hway
  refine ⟨d', ?_, hset⟩
  rw [addLinear, hread', hread]
  exact hd'

/-! ### The three passes -/

/-- **A pass** over the terms of one degree. If each step sets its term, which no step before it has
touched, then in the end the coefficients of the degree are right, as those above were. -/
theorem IsDiagonal.exists_pass {α : Type} {f : Draft → α → Result Draft} {l : List α}
    (term : α → Monomial) {degree : ℕ} (h : d.IsDiagonal n) (htarget : target.IsGroupOn n)
    (habove : d.AgreesFrom target (degree + 1))
    (hterms : l.map term = subsets degree (List.range n))
    (step : ∀ x ∈ l, ∀ d₁ : Draft, d₁.IsDiagonal n →
      d₁.coefficient (term x) = d.coefficient (term x) →
      ∃ d₂, f d₁ x = .ok d₂ ∧ d₁.SetsTerm d₂ target n (term x)) :
    ∃ d', l.foldlM f d = .ok d' ∧ d'.IsDiagonal n ∧ d'.AgreesFrom target degree := by
  obtain ⟨d', hd', hdiag, hcoeff⟩ := Result.foldlM_of_invariant (f := f) (l := l) (b := d)
    (fun done d' => d'.IsDiagonal n ∧ ∀ m : Monomial, degree ≤ m.length → d'.coefficient m =
      if m ∈ done.map term then target.coefficient m else d.coefficient m)
    ⟨h, fun m _ => (if_neg List.not_mem_nil).symm⟩
    fun done x rest hsplit d₁ ⟨hdiag, hcoeff⟩ => by
      have hmem : x ∈ l := Result.mem_of_split hsplit
      have hlen : (term x).length = degree :=
        (mem_subsets_range.mp (hterms ▸ List.mem_map_of_mem hmem)).2.2
      have hsplit' : subsets degree (List.range n) = done.map term ++ term x :: rest.map term := by
        rw [← hterms, hsplit, List.map_append, List.map_cons]
      have hfresh : term x ∉ done.map term :=
        Result.not_mem_of_split hsplit' (nodup_subsets degree List.nodup_range)
      obtain ⟨d₂, hd₂, hset⟩ := step x hmem d₁ hdiag (by rw [hcoeff _ hlen.ge, if_neg hfresh])
      refine ⟨d₂, hd₂, hset.diagonal, fun m hm => ?_⟩
      rw [hset.coefficient m (hlen.trans_le hm), List.map_append, List.map_singleton]
      by_cases heq : m = term x
      · rw [if_pos heq, if_pos (heq ▸ List.mem_append_right _ (List.mem_singleton_self _))]
      · rw [if_neg heq, hcoeff m hm]
        simp [heq]
  refine ⟨d', hd', hdiag, hdiag.agreesFrom htarget (fun m hm => ?_) fun m hterm hlen => ?_⟩
  · rw [hcoeff m (Nat.le_of_succ_le hm), habove m hm, ite_self]
  · have hmem : m ∈ l.map term :=
      hterms ▸ mem_subsets_range.mpr ⟨hterm.increasing, hterm.below, hlen⟩
    rw [hcoeff m hlen.ge, if_pos hmem]

/-- **The cubic pass.** -/
theorem exists_cubicPass (htarget : target.IsGroupOn n) :
    ∃ d, (subsets 3 (List.range n)).foldlM (addCubic target) (Draft.empty n) = .ok d ∧
      d.IsDiagonal n ∧ d.AgreesFrom target 3 := by
  have hempty : ∀ m, (Draft.empty n).coefficient m = 0 := PhasePolynomial.coefficient_zero n
  refine (isDiagonal_empty n).exists_pass id htarget (fun m hm => ?_) (List.map_id _) ?_
  · have hnot : ¬ m.IsTerm n := fun hterm => absurd hterm.degree (Nat.not_le.mpr hm)
    rw [hempty]
    exact (htarget.consistent.coefficient_of_not_isTerm (htarget.numVariables.symm ▸ hnot)).symm
  · intro m hm d hdiag hsame
    obtain ⟨hsorted, hbelow, hlen⟩ := mem_subsets_range.mp hm
    obtain ⟨i, j, k, rfl⟩ := List.length_eq_three.mp hlen
    obtain ⟨hi, hjk⟩ := List.pairwise_cons.mp hsorted
    exact hdiag.exists_addCubic htarget (hi j List.mem_cons_self)
      (List.rel_of_pairwise_cons hjk List.mem_cons_self) (hbelow k (by simp))
      (hsame.trans (hempty _))

/-- **The quadratic pass.** -/
theorem IsDiagonal.exists_quadraticPass (h : d.IsDiagonal n) (htarget : target.IsGroupOn n)
    (hagrees : d.AgreesFrom target 3) :
    ∃ d', (subsets 2 (List.range n)).foldlM (addQuadratic target) d = .ok d' ∧
      d'.IsDiagonal n ∧ d'.AgreesFrom target 2 := by
  refine h.exists_pass id htarget hagrees (List.map_id _) fun m hm d hdiag _ => ?_
  obtain ⟨hsorted, hbelow, hlen⟩ := mem_subsets_range.mp hm
  obtain ⟨i, j, rfl⟩ := List.length_eq_two.mp hlen
  exact hdiag.exists_addQuadratic htarget (List.rel_of_pairwise_cons hsorted List.mem_cons_self)
    (hbelow j (by simp))

/-- **The linear pass.** -/
theorem IsDiagonal.exists_linearPass (h : d.IsDiagonal n) (htarget : target.IsGroupOn n)
    (hagrees : d.AgreesFrom target 2) :
    ∃ d', (List.range n).foldlM (addLinear target) d = .ok d' ∧
      d'.IsDiagonal n ∧ d'.AgreesFrom target 1 :=
  h.exists_pass (fun i => [i]) htarget hagrees (subsets_one _).symm fun _ hi _ hdiag _ =>
    hdiag.exists_addLinear htarget (List.mem_range.mp hi)

end Draft

/-! ### Circuits -/

namespace Circuit

/-- The inverse of a reversed circuit whose gates are their own inverses. -/
theorem gates_inverse_reversed {c : Circuit} (h : ∀ a ∈ c.instructions, a.gate.inverse = a.gate) :
    c.reversed.inverse.gates = c.gates := by
  have hinverse : c.reversed.inverse.gates =
      (c.instructions.map fun a => (a.gate.inverse, a.qubits)) := by
    show (((c.instructions.reverse.map (Instruction.mapGate Gate.inverse)).reverse).map _) = _
    rw [← List.map_reverse, List.reverse_reverse, List.map_map]
    rfl
  rw [hinverse, gates]
  exact List.map_congr_left fun a ha => by rw [h a ha]

end Circuit

namespace Element

variable {e : Element}

/-- **The diagonal part is built exactly.** -/
theorem InGroup.exists_diagonalCircuit (h : e.InGroup n) :
    ∃ c, e.diagonalCircuit = .ok c ∧ c.numQubits = n ∧
      leftMulAll (identity n) c.gates = .ok ⟨e.poly, AffineMap.identity n⟩ := by
  obtain ⟨d₁, hd₁, hdiag₁, hagrees₁⟩ := Draft.exists_cubicPass h.poly
  obtain ⟨d₂, hd₂, hdiag₂, hagrees₂⟩ := hdiag₁.exists_quadraticPass h.poly hagrees₁
  obtain ⟨d₃, hd₃, hdiag₃, hagrees₃⟩ := hdiag₂.exists_linearPass h.poly hagrees₂
  have hpoly : d₃.element.poly = e.poly := by
    refine hdiag₃.poly.ext h.poly (hdiag₃.constant.trans h.constant.symm) fun m hm => ?_
    exact hagrees₃ m (List.length_pos_iff.mpr hm)
  have helement : d₃.element = ⟨e.poly, AffineMap.identity n⟩ := by
    rw [← hpoly, ← hdiag₃.affine]
  refine ⟨d₃.latestFirst.reversed, ?_, hdiag₃.implements.circuit, ?_⟩
  · rw [diagonalCircuit, h.numQubits_eq]
    simp only [hd₁, Result.ok_bind, hd₂, hd₃, Result.require_eq_ok.mpr hpoly]
    rfl
  · rw [Circuit.gates_reversed, hdiag₃.implements.built, helement]

/-- The reduction of a reversible affine map passes its assertion, and its inverse leads from the
identity to the map. -/
theorem InGroup.exists_reduction (h : e.InGroup n) :
    ∃ final, e.affine.reduced = .ok final ∧ final.rest = AffineMap.identity n ∧
      e.affine.reduction = .ok final.latestFirst.reversed ∧ final.latestFirst.numQubits = n ∧
      leftMulAll ⟨e.poly, AffineMap.identity n⟩ final.latestFirst.reversed.inverse.gates =
        .ok e := by
  obtain ⟨final, hfinal, hleads, hrest⟩ := AffineMap.exists_reduced h.affine h.unit
  refine ⟨final, hfinal, hrest, AffineMap.reduction_eq hfinal hrest, hleads.numQubits, ?_⟩
  rw [Circuit.gates_inverse_reversed hleads.selfInverse, ← hrest]
  exact hleads.back e.poly h.poly.numVariables

/-- The circuit of a group element is found and gives it back. -/
theorem InGroup.exists_toCircuit (h : e.InGroup n) :
    ∃ c, e.toCircuit = .ok c ∧ c.numQubits = n ∧ ofCircuit c = .ok e := by
  obtain ⟨diagonal, hdiagonal, hdn, hdgates⟩ := h.exists_diagonalCircuit
  obtain ⟨final, -, -, hreduction, hrn, hback⟩ := h.exists_reduction
  have hsame : diagonal.numQubits = final.latestFirst.reversed.inverse.numQubits :=
    hdn.trans hrn.symm
  obtain ⟨c, hc, hcn⟩ := Circuit.exists_append hsame
  refine ⟨c, ?_, hcn.trans hdn, ?_⟩
  · obtain ⟨-, hvalid, -⟩ := inGroup_iff.mp h
    have hvalidate : e.validate = .ok () := hvalid
    rw [toCircuit, hvalidate, hreduction, hdiagonal]
    exact hc
  · rw [ofCircuit_eq, hcn, hdn, Circuit.gates_of_append hc, leftMulAll_append hdgates, hback]

/-- **Synthesis round trip.** For a valid element, whose matrix has rows of equal length, synthesis
takes none of its error branches, the reduction leaves the identity as it asserts, and the circuit
has the qubits of the element and gives it back, as an equality of stored values. For an element
that is not valid, synthesis fails as validation does. -/
theorem toCircuit_round_trip (e : Element) :
    (e.IsValid → e.affine.linear.IsRectangular →
      (∃ c, e.toCircuit = .ok c ∧ c.numQubits = e.numQubits ∧ ofCircuit c = .ok e) ∧
        ∃ final, e.affine.reduced = .ok final ∧ final.rest.shift.isZero = true ∧
          final.rest.linear.isIdentity = true) ∧
    ∀ failure, e.validate = .error failure → e.toCircuit = .error failure := by
  constructor
  · intro hvalid hrect
    have hgroup : e.InGroup e.numQubits := inGroup_iff.mpr ⟨rfl, hvalid, hrect⟩
    obtain ⟨final, hfinal, hrest, -⟩ := hgroup.exists_reduction
    refine ⟨hgroup.exists_toCircuit, final, hfinal, ?_⟩
    rw [hrest]
    exact AffineMap.identity_isReduced e.numQubits
  · intro failure hfailure
    rw [toCircuit, hfailure]
    rfl

/-- The circuit of an element with terms of every degree gives the element back. -/
theorem toCircuit_round_trip_of_sample :
    ∃ c, sample.toCircuit = .ok c ∧ c.numQubits = 3 ∧ ofCircuit c = .ok sample :=
  ((toCircuit_round_trip sample).1 (by decide +kernel) (by decide +kernel)).1

end Element

end AffinePhase
