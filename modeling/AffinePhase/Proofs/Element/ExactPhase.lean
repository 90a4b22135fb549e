import AffinePhase.Proofs.Element.Adjoint

/-!
# The global phase of synthesized circuits

A circuit determines its element only up to global phase, so that a circuit gives the element back
says nothing about its own phase. The circuit that is synthesized has none. Its diagonal part
consists of CNOT and phase gates, which leave the state with all bits zero alone, and its affine
part of `X` and CNOT gates, which never give a phase. So the state with all bits zero gets no phase,
as the polynomial of the element has no constant, and the constant by which the phases might differ
is zero for all states.

Which gates are used is read off the algorithm for any input, valid or not: only what a successful
run has added is looked at.

## Main definitions

* `Gate.KeepsZero`: the gates of the diagonal part.
* `Draft.AddsGates`: one draft is another with gates of the diagonal part added.

## Main results

* `Element.diagonalCircuit_preserves`: what the synthesis of the diagonal part keeps.
* `Element.uses_diagonalCircuit`: the gates of the diagonal part.
* `Element.power_toCircuit_zero`: the circuit gives no phase to the state with all bits zero.
* `Element.toCircuit_acts_exactly`: the circuit of an element acts like it, with its phases.
-/

open scoped Fin.CommRing

namespace AffinePhase

open BasisImage

variable {n : ℕ} {c : Circuit}

/-! ### The diagonal part -/

/-- The gates that leave the state with all bits zero alone: all but those that flip a bit. -/
def Gate.KeepsZero (gate : Gate) : Prop := gate ≠ .x ∧ gate ≠ .y

instance : DecidablePred Gate.KeepsZero := fun gate =>
  inferInstanceAs (Decidable (gate ≠ .x ∧ gate ≠ .y))

/-- Gates of phases leave the basis state zero as it is. -/
theorem Gate.keepsZero_of_mem_phaseGates : ∀ k : Z8, ∀ gate ∈ phaseGates k, gate.KeepsZero := by
  decide

namespace Draft

variable {d d' : Draft} {target : PhasePolynomial}

/-- A word of phase gates leaves the basis state zero as it is. -/
theorem keepsZero_phaseWord (k : Z8) (q : ℕ) : ∀ g ∈ phaseWord k q, g.1.KeepsZero := by
  intro g hg
  obtain ⟨gate, hgate, rfl⟩ := List.mem_map.mp hg
  exact Gate.keepsZero_of_mem_phaseGates k gate hgate

/-- The word for a cubic term leaves the basis state zero as it is. -/
theorem keepsZero_cubicGadget (i j k : ℕ) : ∀ g ∈ cubicGadget i j k, g.1.KeepsZero := by
  simp [cubicGadget, Gate.KeepsZero]

/-- The word for a quadratic term leaves the basis state zero as it is. -/
theorem keepsZero_quadraticGadget (k : Z8) (i j : ℕ) :
    ∀ g ∈ quadraticGadget k i j, g.1.KeepsZero := by
  have hcnot : ∀ g ∈ [(Gate.controlledX, [i, j])], g.1.KeepsZero := by simp [Gate.KeepsZero]
  intro g hg
  rcases List.mem_append.mp hg with hg | hg
  · rcases List.mem_append.mp hg with hg | hg
    · exact hcnot g hg
    · exact keepsZero_phaseWord k j g hg
  · exact hcnot g hg

/-- Gates of the diagonal part have been added to `d`, which gave `d'`. -/
def AddsGates (d d' : Draft) : Prop :=
  ∃ gates, (∀ g ∈ gates, g.1.KeepsZero) ∧ d.pushAll gates = .ok d'

theorem addsGates_self (d : Draft) : d.AddsGates d :=
  ⟨[], List.forall_mem_nil _, rfl⟩

/-- **What adding gates keeps**, a property of the circuit that every added gate keeps. -/
theorem AddsGates.preserves (h : d.AddsGates d') (P : Circuit → Prop) (hstart : P d.latestFirst)
    (hstep : ∀ (gate : Gate) qubits c c', gate.KeepsZero → P c →
      Circuit.precede c gate qubits = .ok c' → P c') : P d'.latestFirst := by
  obtain ⟨gates, hgates, hd⟩ := h
  refine Result.foldlM_preserves (fun d => P d.latestFirst) hstart
    (fun g hg d₁ d₂ h₁ hpush => ?_) hd
  obtain ⟨element, -, hpush⟩ := Result.bind_eq_ok.mp hpush
  obtain ⟨circuit, hcircuit, hpush⟩ := Result.bind_eq_ok.mp hpush
  obtain rfl := Except.ok.inj hpush
  exact hstep g.1 g.2 _ _ (hgates g hg) h₁ hcircuit

/-! Each step of the synthesis adds gates, or nothing. -/

/-- A cubic term adds gates that leave zero as it is. -/
theorem addsGates_addCubic {m : Monomial} (hd : Draft.addCubic target d m = .ok d') :
    d.AddsGates d' := by
  rw [Draft.addCubic.eq_def] at hd
  split at hd
  · obtain ⟨wanted, -, hd⟩ := Result.bind_eq_ok.mp hd
    split at hd
    · exact ⟨_, keepsZero_cubicGadget _ _ _, hd⟩
    · exact Except.ok.inj hd ▸ d.addsGates_self
  · exact Except.ok.inj hd ▸ d.addsGates_self

/-- A quadratic term adds gates that leave zero as it is. -/
theorem addsGates_addQuadratic {m : Monomial} (hd : Draft.addQuadratic target d m = .ok d') :
    d.AddsGates d' := by
  rw [Draft.addQuadratic.eq_def] at hd
  split at hd
  · obtain ⟨current, -, hd⟩ := Result.bind_eq_ok.mp hd
    obtain ⟨wanted, -, hd⟩ := Result.bind_eq_ok.mp hd
    dsimp only at hd
    split at hd
    · exact ⟨_, keepsZero_quadraticGadget _ _ _, hd⟩
    · exact Except.ok.inj hd ▸ d.addsGates_self
  · exact Except.ok.inj hd ▸ d.addsGates_self

/-- A linear term adds gates that leave zero as it is. -/
theorem addsGates_addLinear {i : ℕ} (hd : Draft.addLinear target d i = .ok d') :
    d.AddsGates d' := by
  obtain ⟨current, -, hd⟩ := Result.bind_eq_ok.mp hd
  obtain ⟨wanted, -, hd⟩ := Result.bind_eq_ok.mp hd
  exact ⟨_, keepsZero_phaseWord _ _, hd⟩

end Draft

namespace Element

variable {e : Element}

/-- **What the synthesis of the diagonal part keeps**, from the circuit without gates on. -/
theorem diagonalCircuit_preserves (P : Circuit → Prop) (hstart : P (Circuit.empty e.numQubits))
    (hstep : ∀ (gate : Gate) qubits c c', gate.KeepsZero → P c →
      Circuit.precede c gate qubits = .ok c' → P c') (h : e.diagonalCircuit = .ok c) :
    P c.reversed := by
  obtain ⟨d₁, hd₁, h⟩ := Result.bind_eq_ok.mp h
  obtain ⟨d₂, hd₂, h⟩ := Result.bind_eq_ok.mp h
  obtain ⟨d₃, hd₃, h⟩ := Result.bind_eq_ok.mp h
  obtain ⟨-, h⟩ := Result.require_bind_eq_ok.mp h
  obtain rfl := Except.ok.inj h
  let Q (d : Draft) : Prop := P d.latestFirst
  have hcubic : Q d₁ := Result.foldlM_preserves Q hstart
    (fun _ _ _ _ hb hd => (Draft.addsGates_addCubic hd).preserves P hb hstep) hd₁
  have hquadratic : Q d₂ := Result.foldlM_preserves Q hcubic
    (fun _ _ _ _ hb hd => (Draft.addsGates_addQuadratic hd).preserves P hb hstep) hd₂
  have hlinear : Q d₃ := Result.foldlM_preserves Q hquadratic
    (fun _ _ _ _ hb hd => (Draft.addsGates_addLinear hd).preserves P hb hstep) hd₃
  rw [Circuit.reversed_reversed]
  exact hlinear

/-- **The diagonal part** uses no gate that flips a bit unconditionally. -/
theorem uses_diagonalCircuit (h : e.diagonalCircuit = .ok c) : c.Uses Gate.KeepsZero := by
  have huses : c.reversed.Uses Gate.KeepsZero :=
    diagonalCircuit_preserves (fun c => c.Uses Gate.KeepsZero) (Circuit.uses_empty _)
      (fun _ _ _ _ hgate hc hprecede => Circuit.Uses.precede hc hgate hprecede) h
  exact Circuit.reversed_reversed c ▸ huses.reversed

/-- The diagonal part has the qubits of the element. -/
theorem numQubits_diagonalCircuit (h : e.diagonalCircuit = .ok c) : c.numQubits = e.numQubits :=
  diagonalCircuit_preserves (fun c => c.numQubits = e.numQubits) rfl
    (fun _ _ _ _ _ hc hprecede => (Circuit.precede_eq_ok_iff.mp hprecede).2.1.trans hc) h

end Element

/-! ### Phases -/

/-- A gate of the diagonal part leaves the state with all bits zero alone. -/
theorem Instruction.ActsOn.act_zero {a : Instruction} (h : a.ActsOn n) (hgate : a.gate.KeepsZero) :
    a.act 0 = ofIndex 0 := by
  obtain ⟨hx, hy⟩ : a.gate ≠ .x ∧ a.gate ≠ .y := hgate
  rcases h.one_or_two with ⟨gate, q, rfl, harity, -⟩ | ⟨gate, p, q, rfl, harity, -, -, -⟩
  · cases gate with
    | controlledX | controlledZ | swap => cases harity
    | x => exact absurd rfl hx
    | y => exact absurd rfl hy
    | i | z | t | tInv | s | sInv => simp [Instruction.act, Gate.act, ofIndex]
  · cases gate with
    | i | x | y | z | t | tInv | s | sInv => cases harity
    | controlledX | controlledZ | swap => simp [Instruction.act, Gate.act, ofIndex]

/-- A gate of the affine part gives no phase. -/
theorem Instruction.ActsOn.power_act {a : Instruction} (h : a.ActsOn n) (hgate : a.gate.IsAffine)
    (index : ℕ) : (a.act index).power = 0 := by
  rcases h.one_or_two with ⟨gate, q, rfl, -, -⟩ | ⟨gate, p, q, rfl, -, -, -, -⟩
  · rcases hgate with (rfl : gate = .x) | (rfl : gate = .controlledX)
    · rfl
    · simp [Instruction.act, Gate.act, Gate.phasePower]
  · rcases hgate with (rfl : gate = .x) | (rfl : gate = .controlledX)
    · rfl
    · rfl

/-- Maps that leave a state alone do so one after the other. -/
theorem actAll_eq_of_forall {α : Type} {act : α → ℕ → BasisImage} {l : List α} {index : ℕ}
    (h : ∀ a ∈ l, act a index = ofIndex index) : actAll act l index = ofIndex index := by
  induction l with
  | nil => rfl
  | cons a l ih =>
      obtain ⟨hfirst, hrest⟩ := List.forall_mem_cons.mp h
      rw [actAll_cons, followedBy, hfirst, ofIndex_andThen, ih hrest]

/-- Maps that give no phase give none one after the other. -/
theorem power_actAll_eq_zero {α : Type} {act : α → ℕ → BasisImage} {l : List α}
    (h : ∀ a ∈ l, ∀ index, (act a index).power = 0) (index : ℕ) :
    (actAll act l index).power = 0 := by
  induction l generalizing index with
  | nil => rfl
  | cons a l ih =>
      obtain ⟨hfirst, hrest⟩ := List.forall_mem_cons.mp h
      simp only [actAll_cons, followedBy, andThen, hfirst, ih hrest, add_zero]

/-- The same actions are equal if they give one state the same phase. -/
theorem SameAction.eq_of_power {f g : ℕ → BasisImage} (h : SameAction n f g) {index : ℕ}
    (hindex : index < 2 ^ n) (hpower : (f index).power = (g index).power) :
    ∀ other < 2 ^ n, f other = g other := by
  obtain ⟨k, hk⟩ := h
  have hphase : (f index).power = (g index).power + k := congrArg power (hk index hindex)
  have hzero : k = 0 := by rwa [hpower, left_eq_add] at hphase
  intro other hother
  rw [hk other hother, hzero, turn_zero]

namespace Element

variable {e : Element}

/-- **The state with all bits zero** gets no phase from the synthesized circuit: its diagonal part
leaves the state alone, and its affine part gives no phase. -/
theorem power_toCircuit_zero (h : e.toCircuit = .ok c) : (c.act 0).power = 0 := by
  obtain ⟨-, -, h⟩ := Result.bind_eq_ok.mp h
  obtain ⟨reduction, hreduction, h⟩ := Result.bind_eq_ok.mp h
  obtain ⟨diagonal, hdiagonal, happend⟩ := Result.bind_eq_ok.mp h
  have hkeeps : ∀ a ∈ diagonal.instructions, a.act 0 = ofIndex 0 := fun a ha =>
    (diagonal.actsOn a ha).act_zero (uses_diagonalCircuit hdiagonal a ha)
  -- the reduction is inverted, but each of its gates is its own inverse
  have haffine : reduction.inverse.Uses Gate.IsAffine := by
    refine (AffineMap.uses_reduction hreduction).inverse ?_
    rintro gate (rfl | rfl)
    · exact .inl rfl
    · exact .inr rfl
  have hnone : ∀ a ∈ reduction.inverse.instructions, ∀ index, (a.act index).power = 0 :=
    fun a ha => (reduction.inverse.actsOn a ha).power_act (haffine a ha)
  rw [Circuit.act_eq, Circuit.instructions_of_append happend, actAll_append, followedBy,
    actAll_eq_of_forall hkeeps, ofIndex_andThen]
  exact power_actAll_eq_zero hnone 0

/-- A group element gives the state with all bits zero no phase. -/
theorem InGroup.power_act_zero (h : e.InGroup n) : (e.act 0).power = 0 := by
  have hbits : Nat.testBit 0 = fun _ => false := funext Nat.zero_testBit
  have hpower : (e.act 0).power = e.poly.valueAt (Nat.testBit 0) := rfl
  rw [hpower, hbits, h.valueAt_false]

/-- The circuit of a group element is found and has its action, with the phases. -/
theorem InGroup.exists_exact_circuit (h : e.InGroup n) :
    ∃ c, e.toCircuit = .ok c ∧ c.numQubits = n ∧ ∀ index < 2 ^ n, c.act index = e.act index := by
  obtain ⟨c, hc, hn, hact⟩ := h.exists_circuit
  -- one state decides the constant by which the phases might differ
  have hpower : (c.act 0).power = (e.act 0).power := by
    rw [power_toCircuit_zero hc, h.power_act_zero]
  exact ⟨c, hc, hn, hact.symm.eq_of_power (Nat.two_pow_pos n) hpower⟩

/-- **The synthesized circuit has no global phase.** For a valid element, whose matrix has rows of
equal length, running the gates of its circuit on a basis state ends in the state whose bits are the
image of its bits under the affine map, and the powers of `ω` on the way add up to exactly the value
of the polynomial there. -/
theorem toCircuit_acts_exactly (hvalid : e.IsValid) (hrect : e.affine.linear.IsRectangular) :
    ∃ c, e.toCircuit = .ok c ∧ c.numQubits = e.numQubits ∧
      ∀ index < 2 ^ e.numQubits,
        (c.act index).index < 2 ^ e.numQubits ∧
        e.affine.apply (.ofIndex e.numQubits index) =
          .ok (.ofIndex e.numQubits (c.act index).index) ∧
        e.poly.evaluateAt (BitVector.ofIndex e.numQubits index).toList =
          .ok (c.act index).power := by
  have hgroup : e.InGroup e.numQubits := inGroup_iff.mpr ⟨rfl, hvalid, hrect⟩
  obtain ⟨c, hc, hn, hact⟩ := hgroup.exists_exact_circuit
  refine ⟨c, hc, hn, fun index hindex => ?_⟩
  rw [hact index hindex]
  exact ⟨hgroup.staysBelow index hindex, hgroup.apply_ofIndex index,
    hgroup.evaluateAt_ofIndex index⟩

/-- An element with terms of every degree: its circuit sends the state with index five to a state
with the phase `ω` to the value of the polynomial at the bits of five. -/
theorem toCircuit_acts_exactly_of_sample :
    ∃ c, sample.toCircuit = .ok c ∧ c.numQubits = 3 ∧
      sample.affine.apply (.ofIndex 3 5) = .ok (.ofIndex 3 (c.act 5).index) ∧
      sample.poly.evaluateAt [true, false, true] = .ok (c.act 5).power := by
  have hvalid : sample.IsValid := by decide +kernel
  have hrect : sample.affine.linear.IsRectangular := by decide +kernel
  obtain ⟨c, hc, hn, hact⟩ := toCircuit_acts_exactly hvalid hrect
  obtain ⟨-, himage, hpower⟩ := hact 5 (by decide)
  exact ⟨c, hc, hn, himage, hpower⟩

end Element

end AffinePhase
