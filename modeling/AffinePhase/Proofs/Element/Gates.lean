import AffinePhase.Proofs.Circuit.Action
import AffinePhase.Proofs.Element.Composition
import AffinePhase.Proofs.Element.Generators

/-!
# Gates and circuits act after elements

A move of an element is followed by a simple action of its own, the word of moves of a gate has the
action of the gate up to a constant, and so gates applied to an element act after it. In particular
the element of a circuit acts like the circuit. As an element is determined by its action, gates may
be applied one by one or elements multiplied, with equal results as stored values.

## Main definitions

* `Move.act`: the action of a move.

## Main results

* `Element.InGroup.exists_move?`, `Element.InGroup.exists_moves?`: a move and a word of moves.
* `Instruction.ActsOn.sameAction_moves`: the word of a gate acts like the gate.
* `Element.exists_ofCircuit`, `Element.ofCircuit_acts`: the element of a circuit acts like it.
* `Element.leftMul_eq_product`: gate by gate or by products, the results are equal.
-/

open scoped Fin.CommRing

namespace AffinePhase

open BasisImage

variable {n : ℕ} {e e' : Element} {c c₁ c₂ : Circuit}

/-! ### Moves -/

namespace Move

/-- The move changes bits below `n`, and does not add a bit into itself. -/
def ActsOn (n : ℕ) : Move → Prop
  | flip q => q < n
  | add control target => control < n ∧ target < n ∧ control ≠ target
  | phase _ q => q < n

/-- The action of a move on basis states. -/
def act : Move → ℕ → BasisImage
  | flip q, index => ⟨flipBit index q, 0⟩
  | add control target, index =>
      ⟨if index.testBit control then flipBit index target else index, 0⟩
  | phase k q, index => ⟨index, if index.testBit q then k else 0⟩

/-- A move on `n` qubits keeps the indices of `n` bits. -/
theorem ActsOn.staysBelow {m : Move} (h : m.ActsOn n) : StaysBelow n m.act := by
  intro index hindex
  cases m with
  | flip q => exact flipBit_lt hindex h
  | phase k q => exact hindex
  | add control target =>
      show (if index.testBit control then flipBit index target else index) < 2 ^ n
      split
      · exact flipBit_lt hindex h.2.1
      · exact hindex

end Move

namespace Element.InGroup

/-- With another affine map, the element is followed by a map that does to the output bits what was
done to the affine map. -/
theorem followedBy_affine {f : AffineMap} {g : ℕ → BasisImage} (h : e.InGroup n) (hf : f.IsOn n)
    (hunit : IsUnit (f.linear.toMatrix n n)) (hg : StaysBelow n g) (hpower : ∀ s, (g s).power = 0)
    (hbits : ∀ index, ∀ i < n,
      f.imageBit index.testBit i = (g (e.act index).index).index.testBit i) :
    InGroup { e with affine := f } n ∧
      SameAction n (act { e with affine := f }) (followedBy e.act g) := by
  have hgroup : InGroup { e with affine := f } n := ⟨h.poly, h.constant, hf, hunit⟩
  refine ⟨hgroup, 0, fun index hindex => ?_⟩
  rw [turn_zero]
  refine hgroup.act_eq hindex (h.staysBelow.followedBy hg index hindex) (hbits index) ?_
  show _ = (e.act index).power + (g (e.act index).index).power
  rw [hpower, add_zero]
  rfl

/-- **A phase on an output bit.** If the bit is flipped, its parity counts the other way, which
leaves a constant. -/
theorem exists_phase? (h : e.InGroup n) (k : Z8) {q : ℕ} (hq : q < n) :
    ∃ e', e.phase? k q = some e' ∧ e'.InGroup n ∧
      SameAction n e'.act (followedBy e.act (Move.phase k q).act) := by
  obtain ⟨row, hrow⟩ := h.affine.linear.exists_row hq
  have hrow' : e.affine.linear.row? q = some row := hrow
  have hget : e.affine.shift.get? q = some (e.affine.shift.bit q) :=
    e.affine.shift.get?_eq_some (h.affine.shift.symm ▸ hq)
  have hsupport := Monomial.isSupport_support (h.affine.linear.length_row hrow)
  obtain ⟨hpoly, hconst, -⟩ := h.poly.addParity hsupport (if e.affine.shift.bit q then -k else k)
  have hgroup : InGroup
      { e with poly := e.poly.addParity row.support (if e.affine.shift.bit q then -k else k) } n :=
    ⟨hpoly, hconst.trans h.constant, h.affine, h.unit⟩
  refine ⟨_, ?_, hgroup, if e.affine.shift.bit q then -k else 0, fun index hindex => ?_⟩
  · rw [phase?, hget, hrow']
    rfl
  refine hgroup.act_eq hindex (h.staysBelow index hindex) (fun i hi => ?_) ?_
  · exact (h.testBit_act index hi).symm
  · show _ = e.poly.valueAt index.testBit + (if (e.act index).index.testBit q then k else 0) + _
    rw [h.poly.valueAt_addParity hsupport, add_assoc, h.testBit_act index hq,
      AffineMap.imageBit_eq hrow]
    refine congrArg _ ?_
    show (if row.parityAt index.testBit then _ else _) = _
    cases row.parityAt index.testBit <;> cases e.affine.shift.bit q <;> simp

/-- **A move acts after the element.** -/
theorem exists_move? (h : e.InGroup n) {m : Move} (hm : m.ActsOn n) :
    ∃ e', e.move? m = some e' ∧ e'.InGroup n ∧ SameAction n e'.act (followedBy e.act m.act) := by
  cases m with
  | flip q =>
      obtain ⟨f, hf, hfon, hlinear, -⟩ := AffineMap.exists_flipOutput? h.affine hm
      have hunit : IsUnit (f.linear.toMatrix n n) := hlinear.symm ▸ h.unit
      refine ⟨_, congrArg (Option.map _) hf,
        h.followedBy_affine hfon hunit hm.staysBelow (fun _ => rfl) fun index i hi => ?_⟩
      show f.imageBit _ i = (flipBit (e.act index).index q).testBit i
      rw [AffineMap.imageBit_flipOutput? h.affine hm hf, testBit_flipBit, h.testBit_act index hi]
  | add control target =>
      have hbelow := hm.staysBelow
      obtain ⟨hc, ht, hne⟩ := hm
      obtain ⟨f, hf, hfon, -, -⟩ := AffineMap.exists_addOutput? h.affine hc ht hne
      have hunit := (AffineMap.isUnit_addOutput? h.affine hc ht hne hf).mpr h.unit
      refine ⟨_, congrArg (Option.map _) hf,
        h.followedBy_affine hfon hunit hbelow (fun _ => rfl) fun index i hi => ?_⟩
      show f.imageBit _ i = (if (e.act index).index.testBit control
        then flipBit (e.act index).index target else (e.act index).index).testBit i
      rw [AffineMap.imageBit_addOutput? h.affine hc ht hne hf _ hi, ← h.testBit_act index hi,
        ← h.testBit_act index hc]
      cases (e.act index).index.testBit control with
      | false => rw [Bool.and_false, Bool.xor_false, if_neg Bool.false_ne_true]
      | true => rw [Bool.and_true, if_pos rfl, testBit_flipBit]
  | phase k q => exact h.exists_phase? k hm

/-- **A word of moves acts after the element.** -/
theorem exists_moves? (h : e.InGroup n) {ms : List Move}
    (hms : ∀ m ∈ ms, m.ActsOn n) :
    ∃ e', e.moves? ms = some e' ∧ e'.InGroup n ∧
      SameAction n e'.act (followedBy e.act (actAll Move.act ms)) := by
  induction ms generalizing e with
  | nil =>
      refine ⟨e, rfl, h, ?_⟩
      rw [actAll_nil, followedBy_ofIndex]
      exact SameAction.refl e.act
  | cons m ms ih =>
      obtain ⟨hm, hms⟩ := List.forall_mem_cons.mp hms
      obtain ⟨e₁, he₁, h₁, hact₁⟩ := h.exists_move? hm
      obtain ⟨e₂, he₂, h₂, hact₂⟩ := ih h₁ hms
      refine ⟨e₂, ?_, h₂, ?_⟩
      · rw [moves?, List.foldlM_cons, he₁]
        exact he₂
      · have hfirst := hact₁.followedBy (h.staysBelow.followedBy hm.staysBelow)
          (SameAction.refl (actAll Move.act ms))
        rw [actAll_cons, ← followedBy_assoc]
        exact hact₂.trans hfirst

end Element.InGroup

/-! ### Gates -/

section Tables

variable {p q : ℕ}

/-- A flip negates the bit. -/
theorem Move.act_flip (q : ℕ) : (flip q).act = onBit (fun b => (!b, 0)) q :=
  funext fun index => BasisImage.ext (setBit_not_testBit index q).symm rfl

/-- A phase keeps the bit and adds a power if it is set. -/
theorem Move.act_phase (k : Z8) (q : ℕ) :
    (phase k q).act = onBit (fun b => (b, if b then k else 0)) q :=
  funext fun index => BasisImage.ext (setBit_testBit index q).symm rfl

/-- A phase on the second of two bits. -/
theorem Move.act_phase_second (k : Z8) (p q : ℕ) :
    (phase k q).act = onPair (fun a b => (a, b, if b then k else 0)) p q := by
  funext index
  refine BasisImage.ext ?_ rfl
  simp only [onPair, setBit_testBit]
  rfl

/-- A phase on the first of two bits. -/
theorem Move.act_phase_first (k : Z8) (hne : p ≠ q) :
    (phase k p).act = onPair (fun a b => (a, b, if a then k else 0)) p q := by
  rw [act_phase_second k q p, onPair_comm _ hne.symm]

/-- The addition of the first of two bits to the second. -/
theorem Move.act_add_second (hne : p ≠ q) :
    (add p q).act = onPair (fun a b => (a, b ^^ a, 0)) p q := by
  have harity : Gate.controlledX.arity = 2 := rfl
  exact Gate.act_eq_onPair harity hne

/-- The addition of the second of two bits to the first. -/
theorem Move.act_add_first (hne : p ≠ q) :
    (add q p).act = onPair (fun a b => (a ^^ b, b, 0)) p q := by
  rw [act_add_second hne.symm, onPair_comm _ hne.symm]

/-- The word of a gate on one qubit has the table of the gate, up to a constant. -/
theorem Gate.exists_moves_one {gate : Gate} (h : gate.arity = 1) (q : ℕ) :
    ∃ k, actAll Move.act (gate.moves [q]) =
      onBit (fun b => ((gate.bitTable b).1, (gate.bitTable b).2 + k)) q := by
  cases gate with
  | controlledX | controlledZ | swap => cases h
  | i =>
      refine ⟨0, ?_⟩
      show actAll Move.act [] = _
      rw [actAll_nil, ← onBit_self q]
      exact congrArg (onBit · q) (funext fun b => by cases b <;> rfl)
  | x =>
      refine ⟨0, ?_⟩
      show actAll Move.act [.flip q] = _
      rw [actAll_singleton, Move.act_flip]
      rfl
  | y =>
      refine ⟨2, ?_⟩
      show actAll Move.act [.flip q, .phase 4 q] = _
      rw [actAll_cons, actAll_singleton, Move.act_flip, Move.act_phase, onBit_followedBy]
      exact congrArg (onBit · q) (funext fun b => by cases b <;> rfl)
  | z | t | tInv | s | sInv =>
      refine ⟨0, (actAll_singleton (Move.phase _ q)).trans ?_⟩
      rw [Move.act_phase]
      exact congrArg (onBit · q) (funext fun b => by cases b <;> rfl)

/-- The word of a gate on two qubits has the table of the gate. -/
theorem Gate.moves_two {gate : Gate} (h : gate.arity = 2) (hne : p ≠ q) :
    actAll Move.act (gate.moves [p, q]) = onPair gate.pairTable p q := by
  cases gate with
  | i | x | y | z | t | tInv | s | sInv => cases h
  | controlledX => exact (actAll_singleton _).trans (Move.act_add_second hne)
  | controlledZ =>
      show actAll Move.act
        [.phase 7 q, .phase 7 p, .add q p, .phase 2 p, .add q p, .phase 7 q, .phase 7 p] = _
      simp only [actAll_cons, actAll_nil, followedBy_ofIndex, Move.act_phase_second _ p q,
        Move.act_phase_first _ hne, Move.act_add_first hne, onPair_followedBy _ _ hne]
      exact congrArg (onPair · p q)
        (funext fun a => funext fun b => by cases a <;> cases b <;> rfl)
  | swap =>
      show actAll Move.act [.add p q, .add q p, .add p q] = _
      simp only [actAll_cons, actAll_nil, followedBy_ofIndex, Move.act_add_first hne,
        Move.act_add_second hne, onPair_followedBy _ _ hne]
      exact congrArg (onPair · p q)
        (funext fun a => funext fun b => by cases a <;> cases b <;> rfl)

end Tables

namespace Instruction.ActsOn

variable {i : Instruction}

/-- The moves of an instruction act on the qubits that it acts on. -/
theorem moves_actsOn (h : i.ActsOn n) : ∀ m ∈ i.gate.moves i.qubits, m.ActsOn n := by
  rcases h.one_or_two with ⟨gate, q, rfl, harity, hq⟩ | ⟨gate, p, q, rfl, harity, hp, hq, hne⟩
  · cases gate with
    | controlledX | controlledZ | swap => cases harity
    | i | x | y | z | t | tInv | s | sInv =>
        simp [Gate.moves, Gate.phasePower, Move.ActsOn, hq]
  · cases gate with
    | i | x | y | z | t | tInv | s | sInv => cases harity
    | controlledX | controlledZ | swap =>
        simp [Gate.moves, Move.ActsOn, hp, hq, hne, hne.symm]

/-- **The word of an instruction acts like it**, up to a constant. -/
theorem sameAction_moves (h : i.ActsOn n) :
    SameAction n (actAll Move.act (i.gate.moves i.qubits)) i.act := by
  rcases h.one_or_two with ⟨gate, q, rfl, harity, -⟩ | ⟨gate, p, q, rfl, harity, -, -, hne⟩
  · obtain ⟨k, hk⟩ := Gate.exists_moves_one harity q
    refine ⟨k, fun index _ => ?_⟩
    rw [hk, Instruction.act, Gate.act_eq_onBit harity]
    rfl
  · rw [Gate.moves_two harity hne, Instruction.act, Gate.act_eq_onPair harity hne]
    exact SameAction.refl _

end Instruction.ActsOn

namespace Element

/-- **A gate acts after the element.** -/
theorem InGroup.exists_leftMul (h : e.InGroup n) {i : Instruction} (hi : i.ActsOn n) :
    ∃ e', e.leftMul i.gate i.qubits = .ok e' ∧ e'.InGroup n ∧
      SameAction n e'.act (followedBy e.act i.act) := by
  obtain ⟨e', he', h', hact⟩ := h.exists_moves? hi.moves_actsOn
  refine ⟨e', ?_, h', hact.trans ?_⟩
  · have hinstruction : Instruction.of i.gate i.qubits e.numQubits = .ok i :=
      Instruction.of_eq_ok_iff.mpr ⟨rfl, h.numQubits_eq.symm ▸ hi⟩
    rw [leftMul, hinstruction, Result.ok_bind, he', Result.ofOption_some]
  · exact (SameAction.refl e.act).followedBy h.staysBelow hi.sameAction_moves

/-- **The element of a circuit acts like it**, up to a constant. -/
theorem exists_ofCircuit (hn : c.numQubits = n) :
    ∃ e, ofCircuit c = .ok e ∧ e.InGroup n ∧ SameAction n e.act c.act := by
  subst hn
  obtain ⟨e, he, hgroup, hact⟩ := Result.foldlM_of_invariant (l := c.instructions)
    (f := fun e a => e.leftMul a.gate a.qubits) (b := identity c.numQubits)
    (fun done e => e.InGroup c.numQubits ∧
      SameAction c.numQubits e.act (actAll Instruction.act done))
    ⟨inGroup_identity _, sameAction_identity _⟩
    fun done a rest hsplit e ⟨hgroup, hact⟩ => by
      have hdone : ∀ b ∈ done, b.ActsOn c.numQubits := fun b hb =>
        c.actsOn b (hsplit ▸ List.mem_append_left _ hb)
      obtain ⟨e', he', hgroup', hact'⟩ :=
        hgroup.exists_leftMul (c.actsOn a (Result.mem_of_split hsplit))
      refine ⟨e', he', hgroup', hact'.trans ?_⟩
      rw [actAll_append, actAll_singleton]
      exact hact.followedBy (StaysBelow.actAll fun b hb => (hdone b hb).staysBelow)
        (SameAction.refl _)
  exact ⟨e, he, hgroup, hact⟩

/-- **The element of a circuit agrees with the matrices of the gates.** Running the gates of a
circuit on a basis state ends in the state whose bits are the image of its bits under the affine
map, with the value of the polynomial there as its power, up to one constant for all states. -/
theorem ofCircuit_acts (c : Circuit) :
    ∃ e, ofCircuit c = .ok e ∧ e.numQubits = c.numQubits ∧
      ∃ k : Z8, ∀ index < 2 ^ c.numQubits,
        (c.act index).index < 2 ^ c.numQubits ∧
        e.affine.apply (.ofIndex c.numQubits index) =
          .ok (.ofIndex c.numQubits (c.act index).index) ∧
        ∃ v, e.poly.evaluateAt (BitVector.ofIndex c.numQubits index).toList = .ok v ∧
          (c.act index).power = v + k := by
  obtain ⟨e, he, hgroup, hact⟩ := exists_ofCircuit (c := c) rfl
  obtain ⟨k, hk⟩ := hact.symm
  refine ⟨e, he, hgroup.numQubits_eq, k, fun index hindex => ?_⟩
  refine ⟨c.staysBelow index hindex, ?_, _, hgroup.evaluateAt_ofIndex index, ?_⟩
  · rw [hgroup.apply_ofIndex, hk index hindex]
    rfl
  · rw [hk index hindex]
    rfl

/-! ### Gate by gate, or by products -/

/-- The element of an appended circuit is a product. -/
theorem exists_ofCircuit_append (hn : c₁.numQubits = c₂.numQubits) :
    ∃ c e₁ e₂ e, c₁.append c₂ = .ok c ∧ ofCircuit c₁ = .ok e₁ ∧ ofCircuit c₂ = .ok e₂ ∧
      ofCircuit c = .ok e ∧ product e₂ e₁ = .ok e := by
  obtain ⟨c, hc, hcn⟩ := Circuit.exists_append hn
  obtain ⟨e₁, he₁, hgroup₁, hact₁⟩ := exists_ofCircuit (c := c₁) rfl
  obtain ⟨e₂, he₂, hgroup₂, hact₂⟩ := exists_ofCircuit hn.symm
  obtain ⟨e, he, hgroup, hact⟩ := exists_ofCircuit hcn
  refine ⟨c, e₁, e₂, e, hc, he₁, he₂, he, product_eq_of_act hgroup₂ hgroup₁ hgroup ?_⟩
  rw [Circuit.act_of_append hc] at hact
  exact hact.trans (hact₁.followedBy c₁.staysBelow hact₂).symm

/-- A gate on an element is a product with the element of the gate. -/
theorem InGroup.exists_leftMul_eq_product (h : e.InGroup n) {gate : Gate} {qubits : List ℕ}
    {i : Instruction} (hi : Instruction.of gate qubits n = .ok i) :
    ∃ c g e', (Circuit.empty n).push gate qubits = .ok c ∧ ofCircuit c = .ok g ∧
      e.leftMul gate qubits = .ok e' ∧ product g e = .ok e' := by
  obtain ⟨rfl, hacts⟩ := Instruction.of_eq_ok_iff.mp hi
  obtain ⟨c, hc, hcn, hinstructions⟩ := Circuit.exists_push (c := Circuit.empty n) hi
  obtain ⟨g, hg, hggroup, hgact⟩ := exists_ofCircuit (n := n) hcn
  obtain ⟨e', he', hgroup, hact⟩ := h.exists_leftMul hacts
  refine ⟨c, g, e', hc, hg, he', product_eq_of_act hggroup h hgroup (hact.trans ?_)⟩
  have hcact : c.act = Instruction.act ⟨gate, qubits⟩ := by
    rw [Circuit.act_eq, hinstructions]
    exact actAll_singleton _
  exact (SameAction.refl e.act).followedBy h.staysBelow (hcact ▸ hgact.symm)

/-- **Gate by gate or by products.** The element of a circuit followed by another one is the product
of their elements, and multiplying a valid element, whose matrix has rows of equal length, by a gate
is multiplying it by the element of the gate, both as equalities of stored values and without a
failure. -/
theorem leftMul_eq_product :
    (∀ c₁ c₂ : Circuit, c₁.numQubits = c₂.numQubits →
      ∃ c e₁ e₂ e, c₁.append c₂ = .ok c ∧ ofCircuit c₁ = .ok e₁ ∧ ofCircuit c₂ = .ok e₂ ∧
        ofCircuit c = .ok e ∧ e₂.rightMultiply e₁ = .ok e) ∧
    ∀ e : Element, e.IsValid → e.affine.linear.IsRectangular →
      ∀ (gate : Gate) (qubits : List ℕ) (i : Instruction),
        Instruction.of gate qubits e.numQubits = .ok i →
        ∃ c g e', (Circuit.empty e.numQubits).push gate qubits = .ok c ∧ ofCircuit c = .ok g ∧
          e.leftMul gate qubits = .ok e' ∧ g.rightMultiply e = .ok e' := by
  refine ⟨fun c₁ c₂ hn => exists_ofCircuit_append hn, fun e hvalid hrect gate qubits i hi => ?_⟩
  have hgroup : e.InGroup e.numQubits := inGroup_iff.mpr ⟨rfl, hvalid, hrect⟩
  exact hgroup.exists_leftMul_eq_product hi

/-- A circuit with gates of every kind of word, twice, and a gate on an element with terms of every
degree. -/
theorem leftMul_eq_product_of_sample :
    (∃ c e₁ e₂ e, Circuit.sample.append Circuit.sample = .ok c ∧
      ofCircuit Circuit.sample = .ok e₁ ∧ ofCircuit Circuit.sample = .ok e₂ ∧
      ofCircuit c = .ok e ∧ e₂.rightMultiply e₁ = .ok e) ∧
    ∃ c g e', (Circuit.empty 3).push .swap [2, 0] = .ok c ∧ ofCircuit c = .ok g ∧
      sample.leftMul .swap [2, 0] = .ok e' ∧ g.rightMultiply sample = .ok e' :=
  ⟨leftMul_eq_product.1 Circuit.sample Circuit.sample rfl,
    leftMul_eq_product.2 sample (by decide +kernel) (by decide +kernel) .swap [2, 0]
      ⟨.swap, [2, 0]⟩ (by decide +kernel)⟩

end Element

end AffinePhase
