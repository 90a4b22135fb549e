import AffinePhase.Element.Synthesis
import AffinePhase.Proofs.Circuit.Action
import AffinePhase.Proofs.Element.Valid
import AffinePhase.Proofs.Polynomial.Parity

/-!
# Lists of gates and the gadgets of the synthesis

A list of gates is applied to an element one gate after the other. An `X` or a CNOT gate changes the
affine map only, a phase gate on an output bit adds a multiple of the parity of that bit to the
polynomial only. The gadgets of the synthesis compute a parity of two or three bits into an output
bit, apply phases there and uncompute it, so that a multiple of this parity is all that remains.

## Main definitions

* `Element.leftMulAll`, `Circuit.gates`: an element followed by a list of gates.
* `PhasePolynomial.IsAdded`: a polynomial with a multiple of a parity added.

## Main results

* `Element.exists_phaseWord`: a word of phase gates adds a multiple of the parity of a bit.
* `Element.exists_quadraticGadget`, `Element.exists_cubicGadget`: the gadgets add a multiple of the
  parity of two and of three input bits.
-/

open scoped Fin.CommRing

namespace AffinePhase

/-- The gates of a circuit with their qubits, first applied first. -/
def Circuit.gates (c : Circuit) : List (Gate × List ℕ) :=
  c.instructions.map fun a => (a.gate, a.qubits)

/-- An appended circuit has the gates of both. -/
theorem Circuit.gates_of_append {c d r : Circuit} (h : c.append d = .ok r) :
    r.gates = c.gates ++ d.gates := by
  rw [gates, instructions_of_append h, List.map_append]
  rfl

/-- The reversed circuit has the gates in reverse order. -/
theorem Circuit.gates_reversed (c : Circuit) : c.reversed.gates = c.gates.reverse := by
  rw [gates, gates, reversed, List.map_reverse]

/-- `q` is `p` with `k` times the parity of the variables in `xs` added. -/
structure PhasePolynomial.IsAdded (p : PhasePolynomial) (xs : List ℕ) (k : Z8)
    (q : PhasePolynomial) (n : ℕ) : Prop where
  /-- The sum is the polynomial of a group element. -/
  group : q.IsGroupOn n
  /-- The constant stays. -/
  constant : q.constant = p.constant
  /-- The coefficients of the subsets with one to three elements change. -/
  coefficient : ∀ m, q.coefficient m =
    p.coefficient m + if m ∈ smallSubsets xs then parityCoefficient m.length * k else 0

variable {p p' : PhasePolynomial} {f g : AffineMap} {e e' : Element} {n i j k q : ℕ} {c : Z8}
  {xs : List ℕ}

/-- Nothing is added by a multiple of zero. -/
theorem PhasePolynomial.IsGroupOn.isAdded_zero (hp : p.IsGroupOn n) (xs : List ℕ) :
    p.IsAdded xs 0 p n :=
  ⟨hp, rfl, fun m => by rw [mul_zero, ite_self, add_zero]⟩

/-- Multiples of the same parity add up. -/
theorem PhasePolynomial.IsAdded.trans {r : PhasePolynomial} {d : Z8} (h : p.IsAdded xs c p' n)
    (h' : p'.IsAdded xs d r n) : p.IsAdded xs (c + d) r n := by
  refine ⟨h'.group, h'.constant.trans h.constant, fun m => ?_⟩
  rw [h'.coefficient, h.coefficient, add_assoc]
  split
  · rw [mul_add]
  · rw [add_zero]

/-- A row of a matrix whose entries are known has a known support. -/
theorem AffineMap.IsOn.exists_support (hf : f.IsOn n) (hq : q < n) (hxs : xs.Pairwise (· < ·))
    (hentry : ∀ b, f.linear.entry q b = decide (b ∈ xs)) :
    ∃ row, f.linear.rows[q]? = some row ∧ row.support = xs := by
  obtain ⟨row, hrow⟩ := hf.linear.exists_row hq
  refine ⟨row, hrow, row.pairwise_support.eq_of_mem_iff hxs fun b => ?_⟩
  rw [BitVector.mem_support, ← BitMatrix.entry_eq_bit hrow, hentry, decide_eq_true_eq]

namespace Element

/-! ### Lists of gates -/

/-- The element followed by a list of gates. -/
def leftMulAll (e : Element) (gates : List (Gate × List ℕ)) : Result Element :=
  gates.foldlM (fun e g => e.leftMul g.1 g.2) e

/-- A word of gates is its first gate and then the others. -/
theorem leftMulAll_cons {gate : Gate} {qubits : List ℕ} {gates : List (Gate × List ℕ)}
    (h : e.leftMul gate qubits = .ok e') :
    e.leftMulAll ((gate, qubits) :: gates) = e'.leftMulAll gates := by
  rw [leftMulAll, List.foldlM_cons, h]
  rfl

/-- A word of gates is its first part and then its second. -/
theorem leftMulAll_append {gates gates' : List (Gate × List ℕ)} (h : e.leftMulAll gates = .ok e') :
    e.leftMulAll (gates ++ gates') = e'.leftMulAll gates' :=
  Result.foldlM_append h

/-- The element of a circuit is the identity with all gates applied. -/
theorem ofCircuit_eq (c : Circuit) : ofCircuit c = (identity c.numQubits).leftMulAll c.gates := by
  rw [ofCircuit, leftMulAll, Circuit.gates, List.foldlM_map]

/-! ### Single gates -/

/-- An instruction on one qubit. -/
theorem instruction_one (gate : Gate) (harity : gate.arity = 1) (hq : q < n) :
    Instruction.of gate [q] n = .ok ⟨gate, [q]⟩ := by
  refine Instruction.of_eq_ok_iff.mpr ⟨rfl, harity.symm, fun a ha => ?_, List.nodup_singleton q⟩
  exact List.mem_singleton.mp ha ▸ hq

/-- An instruction on two qubits. -/
theorem instruction_two (gate : Gate) (harity : gate.arity = 2) (hi : i < n) (hj : j < n)
    (hne : i ≠ j) : Instruction.of gate [i, j] n = .ok ⟨gate, [i, j]⟩ := by
  refine Instruction.of_eq_ok_iff.mpr ⟨rfl, harity.symm, fun a ha => ?_, by simpa using hne⟩
  rcases List.mem_cons.mp ha with rfl | ha
  · exact hi
  · exact List.mem_singleton.mp ha ▸ hj

/-- The gate `X` flips an output bit and keeps the polynomial. -/
theorem leftMul_x (hp : p.numVariables = n) (hq : q < n) (hg : f.flipOutput? q = some g) :
    leftMul ⟨p, f⟩ .x [q] = .ok ⟨p, g⟩ := by
  subst hp
  have hinstruction : Instruction.of .x [q] (numQubits ⟨p, f⟩) = .ok ⟨.x, [q]⟩ :=
    instruction_one .x rfl hq
  rw [leftMul, hinstruction]
  simp [Gate.moves, moves?, move?, hg]

/-- A CNOT adds an output bit to another one and keeps the polynomial. -/
theorem leftMul_controlledX (hp : p.numVariables = n) (hi : i < n) (hj : j < n) (hne : i ≠ j)
    (hg : f.addOutput? i j = some g) : leftMul ⟨p, f⟩ .controlledX [i, j] = .ok ⟨p, g⟩ := by
  subst hp
  have hinstruction : Instruction.of .controlledX [i, j] (numQubits ⟨p, f⟩) =
      .ok ⟨.controlledX, [i, j]⟩ := instruction_two .controlledX rfl hi hj hne
  rw [leftMul, hinstruction]
  simp [Gate.moves, moves?, move?, hg]

/-- A phase gate is a single move. -/
theorem moves_of_phasePower {gate : Gate} (h : gate.phasePower = some c) (q : ℕ) :
    gate.arity = 1 ∧ gate.moves [q] = [.phase c q] := by
  cases gate <;> simp_all [Gate.phasePower, Gate.arity, Gate.moves]

/-- A phase gate on an output bit that is not flipped adds a multiple of its parity. -/
theorem leftMul_phase {gate : Gate} (hgate : gate.phasePower = some c) (hp : p.IsGroupOn n)
    (hf : f.IsOn n) (hq : q < n) {row : BitVector} (hrow : f.linear.rows[q]? = some row)
    (hshift : f.shift.bit q = false) :
    ∃ p', leftMul ⟨p, f⟩ gate [q] = .ok ⟨p', f⟩ ∧ p.IsAdded row.support c p' n := by
  have hsupport := Monomial.isSupport_support (hf.linear.length_row hrow)
  obtain ⟨hgroup, hconst, hcoeff⟩ := hp.addParity hsupport c
  refine ⟨p.addParity row.support c, ?_, hgroup, hconst, hcoeff⟩
  obtain ⟨harity, hmoves⟩ := moves_of_phasePower hgate q
  have hinstruction : Instruction.of gate [q] p.numVariables = .ok ⟨gate, [q]⟩ :=
    instruction_one gate harity (hp.numVariables ▸ hq)
  have hget : f.shift.get? q = some false := by
    rw [f.shift.get?_eq_some (hf.shift.symm ▸ hq), hshift]
  have hrow' : f.linear.row? q = some row := hrow
  rw [leftMul, numQubits, hinstruction, hmoves]
  simp [moves?, move?, phase?, hget, hrow']

/-- The powers of a word of phase gates add up to the exponent asked for. -/
theorem sum_phasePower (c : Z8) :
    ((Gate.phaseGates c).map fun g => g.phasePower.getD 0).sum = c := by
  revert c; decide

/-- **A word of phase gates** on an output bit that is not flipped. -/
theorem exists_phaseWord (hp : p.IsGroupOn n) (hf : f.IsOn n) (hq : q < n)
    {row : BitVector} (hrow : f.linear.rows[q]? = some row) (hshift : f.shift.bit q = false)
    (c : Z8) :
    ∃ p', leftMulAll ⟨p, f⟩ (Draft.phaseWord c q) = .ok ⟨p', f⟩ ∧
      p.IsAdded row.support c p' n := by
  have hgates : ∀ (gates : List Gate) (p : PhasePolynomial), p.IsGroupOn n →
      (∀ g ∈ gates, ∃ c, g.phasePower = some c) →
      ∃ p', leftMulAll ⟨p, f⟩ (gates.map fun gate => (gate, [q])) = .ok ⟨p', f⟩ ∧
        p.IsAdded row.support (gates.map fun g => g.phasePower.getD 0).sum p' n := by
    intro gates
    induction gates with
    | nil => exact fun p hp _ => ⟨p, rfl, hp.isAdded_zero _⟩
    | cons gate gates ih =>
        intro p hp hpowers
        obtain ⟨⟨c, hc⟩, hpowers⟩ := List.forall_mem_cons.mp hpowers
        obtain ⟨p₁, hp₁, hadded⟩ := leftMul_phase hc hp hf hq hrow hshift
        obtain ⟨p₂, hp₂, hadded'⟩ := ih p₁ hadded.group hpowers
        refine ⟨p₂, ?_, ?_⟩
        · rw [List.map_cons, leftMulAll_cons hp₁, hp₂]
        · rw [List.map_cons, List.sum_cons, hc, Option.getD_some]
          exact hadded.trans hadded'
  have hpowers : ∀ g ∈ Gate.phaseGates c, ∃ d, g.phasePower = some d := by
    revert c; decide
  obtain ⟨p', hp', hadded⟩ := hgates (Gate.phaseGates c) p hp hpowers
  rw [sum_phasePower] at hadded
  exact ⟨p', hp', hadded⟩

/-! ### Gadgets -/

/-- A word of phase gates on an output bit whose row is given by its entries. -/
theorem exists_phaseWord_of_entry (hp : p.IsGroupOn n) (hf : f.IsOn n) (hq : q < n)
    (hxs : xs.Pairwise (· < ·)) (hentry : ∀ b, f.linear.entry q b = decide (b ∈ xs))
    (hshift : f.shift.bit q = false) (c : Z8) :
    ∃ p', leftMulAll ⟨p, f⟩ (Draft.phaseWord c q) = .ok ⟨p', f⟩ ∧ p.IsAdded xs c p' n := by
  obtain ⟨row, hrow, rfl⟩ := hf.exists_support hq hxs hentry
  exact exists_phaseWord hp hf hq hrow hshift c

/-- Beside the identity map, phase gates add a multiple of a variable. -/
theorem exists_linearGadget (hp : p.IsGroupOn n) (hi : i < n) (c : Z8) :
    ∃ p', leftMulAll ⟨p, AffineMap.identity n⟩ (Draft.phaseWord c i) =
        .ok ⟨p', AffineMap.identity n⟩ ∧ p.IsAdded [i] c p' n := by
  refine exists_phaseWord_of_entry hp (AffineMap.isOn_identity n) hi (List.pairwise_singleton _ _)
    (fun b => ?_) (AffineMap.bit_shift_identity n i) c
  rw [AffineMap.entry_identity hi, decide_eq_decide, List.mem_singleton]
  exact eq_comm

/-- **The quadratic gadget** adds a multiple of the parity of two variables. -/
theorem exists_quadraticGadget (hp : p.IsGroupOn n) (hij : i < j) (hj : j < n) (c : Z8) :
    ∃ p', leftMulAll ⟨p, AffineMap.identity n⟩ (Draft.quadraticGadget c i j) =
        .ok ⟨p', AffineMap.identity n⟩ ∧ p.IsAdded [i, j] c p' n := by
  have hi : i < n := hij.trans hj
  have hne : i ≠ j := hij.ne
  have hid := AffineMap.isOn_identity n
  obtain ⟨f, hf, hfon, hentry, hshift⟩ := AffineMap.exists_addOutput? hid hi hj hne
  have hentry' : ∀ b, f.linear.entry j b = decide (b ∈ [i, j]) := by
    intro b
    rw [hentry, AffineMap.entry_identity hj, AffineMap.entry_identity hi]
    by_cases hbi : b = i
    · subst hbi
      simp [Ne.symm hne]
    · simp [hbi, Ne.symm hbi, eq_comm]
  have hshift' : f.shift.bit j = false := by
    rw [hshift, AffineMap.bit_shift_identity, AffineMap.bit_shift_identity, Bool.and_false,
      Bool.xor_false]
  obtain ⟨p', hp', hadded⟩ := exists_phaseWord_of_entry hp hfon hj
    (by simpa using hij) hentry' hshift' c
  have hback := AffineMap.addOutput?_addOutput? hid hi hj hne hf
  have hfirst := leftMul_controlledX hp.numVariables hi hj hne hf
  have hlast := leftMul_controlledX hadded.group.numVariables hi hj hne hback
  refine ⟨p', ?_, hadded⟩
  rw [Draft.quadraticGadget, List.append_assoc, List.singleton_append, leftMulAll_cons hfirst,
    leftMulAll_append hp', leftMulAll_cons hlast]
  rfl

/-- Adding two output bits of the identity into a third one puts the parity of the three there, and
adding them once more leads back. -/
theorem exists_tripleParity (hij : i < j) (hjk : j < k) (hk : k < n) :
    ∃ f₁ f₂ f₃, (AffineMap.identity n).addOutput? i k = some f₁ ∧ f₁.addOutput? j k = some f₂ ∧
      f₂.addOutput? i k = some f₃ ∧ f₃.addOutput? j k = some (AffineMap.identity n) ∧
      f₂.IsOn n ∧ (∀ b, f₂.linear.entry k b = decide (b ∈ [i, j, k])) ∧
      ∀ a, f₂.shift.bit a = false := by
  have hj : j < n := hjk.trans hk
  have hi : i < n := hij.trans hj
  have hik : i ≠ k := (hij.trans hjk).ne
  have hid := AffineMap.isOn_identity n
  obtain ⟨f₁, h₁, hon₁, hentry₁, hshift₁⟩ := AffineMap.exists_addOutput? hid hi hk hik
  obtain ⟨f₂, h₂, hon₂, hentry₂, hshift₂⟩ := AffineMap.exists_addOutput? hon₁ hj hk hjk.ne
  obtain ⟨f₃, h₃, hon₃, hentry₃, hshift₃⟩ := AffineMap.exists_addOutput? hon₂ hi hk hik
  obtain ⟨f₄, h₄, hon₄, hentry₄, hshift₄⟩ := AffineMap.exists_addOutput? hon₃ hj hk hjk.ne
  have hrow : ∀ b, f₂.linear.entry k b = decide (b ∈ [i, j, k]) := by
    intro b
    rw [hentry₂, hentry₁, hentry₁, AffineMap.entry_identity hk, AffineMap.entry_identity hj,
      AffineMap.entry_identity hi]
    by_cases hbi : b = i
    · subst hbi
      simp [Ne.symm hik, hjk.ne, hij.ne']
    · by_cases hbj : b = j
      · subst hbj
        simp [hjk.ne, hjk.ne', hij.ne]
      · simp [hbi, hbj, Ne.symm hbi, Ne.symm hbj, hjk.ne, eq_comm]
  have hzero : ∀ a, f₂.shift.bit a = false := fun a => by
    simp only [hshift₂, hshift₁, AffineMap.bit_shift_identity, Bool.and_false, Bool.xor_false]
  have hback : f₄ = AffineMap.identity n := by
    refine AffineMap.ext_bits hon₄ hid (fun a _ b _ => ?_) fun a _ => ?_
    · -- The rows of the controls stay, and each is added twice.
      have hcontrol : f₁.linear.entry j b = (AffineMap.identity n).linear.entry j b ∧
          f₂.linear.entry i b = (AffineMap.identity n).linear.entry i b ∧
          f₃.linear.entry j b = (AffineMap.identity n).linear.entry j b := by
        simp only [hentry₃, hentry₂, hentry₁, decide_eq_false hik, decide_eq_false hjk.ne,
          Bool.false_and, Bool.xor_false, and_self]
      have hcancel : ∀ x y z w : Bool,
          ((((x ^^ (w && y)) ^^ (w && z)) ^^ (w && y)) ^^ (w && z)) = x := by decide
      rw [hentry₄, hcontrol.2.2, hentry₃, hcontrol.2.1, hentry₂, hcontrol.1, hentry₁, hcancel]
    · simp only [hshift₄, hshift₃, hzero, Bool.and_false, Bool.xor_false,
        AffineMap.bit_shift_identity]
  rw [hback] at h₄
  exact ⟨f₁, f₂, f₃, h₁, h₂, h₃, h₄, hon₂, hrow, hzero⟩

/-- **The cubic gadget** adds the parity of three variables. -/
theorem exists_cubicGadget (hp : p.IsGroupOn n) (hij : i < j) (hjk : j < k) (hk : k < n) :
    ∃ p', leftMulAll ⟨p, AffineMap.identity n⟩ (Draft.cubicGadget i j k) =
        .ok ⟨p', AffineMap.identity n⟩ ∧ p.IsAdded [i, j, k] 1 p' n := by
  have hj : j < n := hjk.trans hk
  have hi : i < n := hij.trans hj
  have hik : i ≠ k := (hij.trans hjk).ne
  obtain ⟨f₁, f₂, f₃, h₁, h₂, h₃, h₄, hon, hrow, hzero⟩ := exists_tripleParity hij hjk hk
  have hsorted : [i, j, k].Pairwise (· < ·) := by
    simp [hij, hjk, hij.trans hjk]
  obtain ⟨row, hrow', hsupport⟩ := hon.exists_support hk hsorted hrow
  have hpower : Gate.t.phasePower = some 1 := rfl
  obtain ⟨p', hp', hadded⟩ := leftMul_phase hpower hp hon hk hrow' (hzero k)
  rw [hsupport] at hadded
  have hn := hp.numVariables
  have hn' := hadded.group.numVariables
  refine ⟨p', ?_, hadded⟩
  rw [Draft.cubicGadget, leftMulAll_cons (leftMul_controlledX hn hi hk hik h₁),
    leftMulAll_cons (leftMul_controlledX hn hj hk hjk.ne h₂), leftMulAll_cons hp',
    leftMulAll_cons (leftMul_controlledX hn' hi hk hik h₃),
    leftMulAll_cons (leftMul_controlledX hn' hj hk hjk.ne h₄)]
  rfl

end Element

end AffinePhase
