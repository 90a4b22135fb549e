import AffinePhase.Proofs.Circuit.BasisMap
import AffinePhase.Proofs.Circuit.Instruction

/-!
# The action of circuits on basis states

A gate changes one bit or two bits of a basis state and multiplies by a power of `ω` that depends on
these bits, so that it is given by a table, and what has to be known of a gate is read off its
table. Along circuits it follows by composition.

The inverse circuit takes every state back, with exactly the opposite phase; the conjugate circuit
has the same images and opposite phases, up to a constant; and the transposed circuit is the
conjugate of the inverse.

## Main definitions

* `onBit`, `onPair`: a table of one and of two bits at given bits of an index.
* `Gate.bitTable`, `Gate.pairTable`: the tables of the gates.

## Main results

* `Gate.act_eq_onBit`, `Gate.act_eq_onPair`: gates act by their tables.
* `Circuit.act_followedBy_inverse`, `Circuit.inverse_followedBy_act`: the inverse circuit.
* `Circuit.sameAction_conjugate`: the conjugate circuit.
* `Circuit.transpose_eq_conjugate_inverse`, `Circuit.transpose_eq_inverse_conjugate`: the transposed
  circuit.
-/

open scoped Fin.CommRing

namespace AffinePhase

open BasisImage

variable {n index p q : ℕ} {b : Bool}

/-! ### Bits of indices -/

/-- Flipping a bit of an index changes this bit only. -/
theorem testBit_flipBit (index q i : ℕ) :
    (flipBit index q).testBit i = (index.testBit i ^^ decide (i = q)) := by
  rw [flipBit, Nat.testBit_xor, Nat.one_shiftLeft, Nat.testBit_two_pow,
    decide_eq_decide.mpr eq_comm]

/-- Flipping a bit below `n` gives an index of `n` bits. -/
theorem flipBit_lt (hindex : index < 2 ^ n) (hq : q < n) : flipBit index q < 2 ^ n := by
  refine Nat.xor_lt_two_pow hindex ?_
  rw [Nat.one_shiftLeft]
  exact Nat.pow_lt_pow_right (by decide) hq

/-- The index with bit `q` set to `b`. -/
def setBit (index q : ℕ) (b : Bool) : ℕ :=
  if index.testBit q = b then index else flipBit index q

/-- Setting a bit of an index changes this bit only. -/
theorem testBit_setBit (index q : ℕ) (b : Bool) (i : ℕ) :
    (setBit index q b).testBit i = if i = q then b else index.testBit i := by
  rw [setBit]
  split
  · rename_i hb
    split
    · rename_i hi
      rw [hi, hb]
    · rfl
  · rename_i hb
    rw [testBit_flipBit]
    split
    · rename_i hi
      rw [hi, decide_eq_true rfl, Bool.xor_true, Bool.eq_not.mpr fun h => hb h.symm]
    · rename_i hi
      rw [decide_eq_false hi, Bool.xor_false]

/-- Setting a bit below `n` gives an index of `n` bits. -/
theorem setBit_lt (hindex : index < 2 ^ n) (hq : q < n) (b : Bool) : setBit index q b < 2 ^ n := by
  rw [setBit]
  split
  · exact hindex
  · exact flipBit_lt hindex hq

/-- Setting a bit to what it is changes nothing. -/
theorem setBit_testBit (index q : ℕ) : setBit index q (index.testBit q) = index :=
  if_pos rfl

/-- Setting a bit to what it is not flips it. -/
theorem setBit_not_testBit (index q : ℕ) :
    setBit index q (!index.testBit q) = flipBit index q :=
  if_neg fun h => Bool.not_ne_self _ h.symm

/-! ### Maps of one and of two bits -/

/-- A map of one bit, as a table, at bit `q` of an index. -/
def onBit (table : Bool → Bool × Z8) (q index : ℕ) : BasisImage :=
  let image := table (index.testBit q)
  ⟨setBit index q image.1, image.2⟩

/-- A map of two bits, as a table, at the bits `p` and `q` of an index. -/
def onPair (table : Bool → Bool → Bool × Bool × Z8) (p q index : ℕ) : BasisImage :=
  let image := table (index.testBit p) (index.testBit q)
  ⟨setBit (setBit index p image.1) q image.2.1, image.2.2⟩

/-- Actions on the same bit follow each other as their tables do. -/
theorem onBit_followedBy (s t : Bool → Bool × Z8) (q : ℕ) :
    followedBy (onBit s q) (onBit t q) =
      onBit (fun b => ((t (s b).1).1, (s b).2 + (t (s b).1).2)) q := by
  funext index
  refine ext (Nat.eq_of_testBit_eq fun i => ?_) ?_
  · simp only [followedBy, andThen, onBit, testBit_setBit, if_pos]
    split <;> rfl
  · simp only [followedBy, andThen, onBit, testBit_setBit, if_pos]

/-- Actions on the same two bits follow each other as their tables do. -/
theorem onPair_followedBy (s t : Bool → Bool → Bool × Bool × Z8) (hne : p ≠ q) :
    followedBy (onPair s p q) (onPair t p q) = onPair (fun a b =>
      let image := t (s a b).1 (s a b).2.1
      (image.1, image.2.1, (s a b).2.2 + image.2.2)) p q := by
  funext index
  refine ext (Nat.eq_of_testBit_eq fun i => ?_) ?_
  · simp only [followedBy, andThen, onPair, testBit_setBit, if_pos, if_neg hne]
    split
    · rfl
    · split <;> rfl
  · simp only [followedBy, andThen, onPair, testBit_setBit, if_pos, if_neg hne]

/-- The two bits may be named in the other order. -/
theorem onPair_comm (t : Bool → Bool → Bool × Bool × Z8) (hne : p ≠ q) :
    onPair t p q = onPair (fun b a => ((t a b).2.1, (t a b).1, (t a b).2.2)) q p := by
  funext index
  refine ext (Nat.eq_of_testBit_eq fun i => ?_) rfl
  simp only [onPair, testBit_setBit]
  by_cases hp : i = p
  · rw [if_pos hp, if_pos hp, if_neg (hp ▸ hne)]
  · rw [if_neg hp, if_neg hp]

/-- A table that keeps the bit and adds no phase does nothing. -/
theorem onBit_self (q : ℕ) : onBit (fun b => (b, 0)) q = ofIndex :=
  funext fun index => ext (setBit_testBit index q) rfl

/-- A table that keeps both bits and adds no phase does nothing. -/
theorem onPair_self (p q : ℕ) : onPair (fun a b => (a, b, 0)) p q = ofIndex := by
  funext index
  refine ext ?_ rfl
  simp only [onPair, setBit_testBit]
  rfl

/-! ### Tables of gates -/

/-- What a gate on one qubit does to a bit. -/
def Gate.bitTable : Gate → Bool → Bool × Z8
  | .x, b => (!b, 0)
  | .y, b => (!b, if b then 6 else 2)
  | gate, b => (b, if b then gate.phasePower.getD 0 else 0)

/-- What a gate on two qubits does to two bits. -/
def Gate.pairTable : Gate → Bool → Bool → Bool × Bool × Z8
  | .controlledX, a, b => (a, b ^^ a, 0)
  | .controlledZ, a, b => (a, b, if a && b then 4 else 0)
  | .swap, a, b => (b, a, 0)
  | _, a, b => (a, b, 0)

/-- A gate on one qubit acts by its table. -/
theorem Gate.act_eq_onBit {gate : Gate} (h : gate.arity = 1) (q : ℕ) :
    gate.act [q] = onBit gate.bitTable q := by
  funext index
  cases gate with
  | controlledX | controlledZ | swap => cases h
  | x | y => exact ext (setBit_not_testBit index q).symm rfl
  | i | z | t | tInv | s | sInv => exact ext (setBit_testBit index q).symm rfl

/-- A gate on two different qubits acts by its table. -/
theorem Gate.act_eq_onPair {gate : Gate} (h : gate.arity = 2) (hne : p ≠ q) :
    gate.act [p, q] = onPair gate.pairTable p q := by
  funext index
  cases gate with
  | i | x | y | z | t | tInv | s | sInv => cases h
  | controlledX =>
      refine ext ?_ rfl
      show (if index.testBit p then flipBit index q else index) =
        setBit (setBit index p (index.testBit p)) q (index.testBit q ^^ index.testBit p)
      rw [setBit_testBit]
      cases index.testBit p with
      | false => rw [Bool.xor_false, setBit_testBit, if_neg Bool.false_ne_true]
      | true => rw [Bool.xor_true, setBit_not_testBit, if_pos rfl]
  | controlledZ =>
      refine ext ?_ rfl
      show index = setBit (setBit index p (index.testBit p)) q (index.testBit q)
      rw [setBit_testBit, setBit_testBit]
  | swap =>
      refine ext ?_ rfl
      show (if index.testBit p = index.testBit q then index else flipBit (flipBit index p) q) =
        setBit (setBit index p (index.testBit q)) q (index.testBit p)
      by_cases hsame : index.testBit p = index.testBit q
      · rw [if_pos hsame, ← hsame, setBit_testBit, hsame, setBit_testBit]
      · have hp : index.testBit p = !index.testBit q := Bool.eq_not.mpr hsame
        have hq : index.testBit q = !index.testBit p := Bool.eq_not.mpr (Ne.symm hsame)
        have hkept : (flipBit index p).testBit q = index.testBit q := by
          rw [testBit_flipBit, decide_eq_false hne.symm, Bool.xor_false]
        rw [if_neg hsame, hq, setBit_not_testBit, hp, ← hkept, setBit_not_testBit]

/-! ### Single instructions -/

/-- The action of an instruction. -/
def Instruction.act (a : Instruction) : ℕ → BasisImage := a.gate.act a.qubits

/-- The qubits of an instruction are one, or two different ones. -/
theorem Instruction.ActsOn.one_or_two {a : Instruction} (h : a.ActsOn n) :
    (∃ gate q, a = ⟨gate, [q]⟩ ∧ gate.arity = 1 ∧ q < n) ∨
      ∃ gate p q, a = ⟨gate, [p, q]⟩ ∧ gate.arity = 2 ∧ p < n ∧ q < n ∧ p ≠ q := by
  obtain ⟨gate, qubits⟩ := a
  obtain ⟨hlength, hbelow, hnodup⟩ : qubits.length = gate.arity ∧ (∀ q ∈ qubits, q < n) ∧
    qubits.Nodup := h
  have harity : gate.arity = 1 ∨ gate.arity = 2 := by
    cases gate <;> simp [Gate.arity]
  rcases harity with h₁ | h₂
  · obtain ⟨q, rfl⟩ := List.length_eq_one_iff.mp (hlength.trans h₁)
    exact .inl ⟨gate, q, rfl, h₁, hbelow q List.mem_cons_self⟩
  · obtain ⟨p, q, rfl⟩ := List.length_eq_two.mp (hlength.trans h₂)
    obtain ⟨hp, hq⟩ := List.forall_mem_cons.mp hbelow
    refine .inr ⟨gate, p, q, rfl, h₂, hp, hq q List.mem_cons_self, ?_⟩
    rintro rfl
    exact (List.nodup_cons.mp hnodup).1 List.mem_cons_self

/-- A gate on one qubit and its inverse undo each other. -/
theorem Gate.bitTable_inverse (gate : Gate) (b : Bool) :
    gate.inverse.bitTable (gate.bitTable b).1 = (b, -(gate.bitTable b).2) := by
  cases gate <;> cases b <;> rfl

/-- A gate on two qubits and its inverse undo each other. -/
theorem Gate.pairTable_inverse (gate : Gate) (a b : Bool) :
    gate.inverse.pairTable (gate.pairTable a b).1 (gate.pairTable a b).2.1 =
      (a, b, -(gate.pairTable a b).2.2) := by
  cases gate <;> cases a <;> cases b <;> rfl

/-- The conjugate of a gate on one qubit has the opposite phases, except that `Y` is its own
conjugate up to a sign. -/
theorem Gate.bitTable_conjugate (gate : Gate) :
    ∃ k, ∀ b, gate.conjugate.bitTable b = ((gate.bitTable b).1, -(gate.bitTable b).2 + k) := by
  cases gate with
  | y => exact ⟨4, fun b => by cases b <;> rfl⟩
  | i | x | z | t | tInv | s | sInv | controlledX | controlledZ | swap =>
      exact ⟨0, fun b => by cases b <;> rfl⟩

/-- The conjugate of a gate on two qubits has the opposite phases. -/
theorem Gate.pairTable_conjugate (gate : Gate) (a b : Bool) :
    gate.conjugate.pairTable a b =
      ((gate.pairTable a b).1, (gate.pairTable a b).2.1, -(gate.pairTable a b).2.2) := by
  cases gate <;> cases a <;> cases b <;> rfl

namespace Instruction.ActsOn

variable {a : Instruction}

/-- An instruction keeps to the basis states of its qubits. -/
theorem staysBelow (h : a.ActsOn n) : StaysBelow n a.act := by
  intro index hindex
  rcases h.one_or_two with ⟨gate, q, rfl, harity, hq⟩ | ⟨gate, p, q, rfl, harity, hp, hq, hne⟩
  · rw [Instruction.act, gate.act_eq_onBit harity]
    exact setBit_lt hindex hq _
  · rw [Instruction.act, gate.act_eq_onPair harity hne]
    exact setBit_lt (setBit_lt hindex hp _) hq _

/-- **An instruction is undone** by the inverse gate, with the phase. -/
theorem followedBy_inverse (h : a.ActsOn n) :
    followedBy a.act (a.mapGate Gate.inverse).act = ofIndex := by
  rcases h.one_or_two with ⟨gate, q, rfl, harity, -⟩ | ⟨gate, p, q, rfl, harity, -, -, hne⟩
  · have harity' : gate.inverse.arity = 1 := gate.arity_inverse.trans harity
    show followedBy (gate.act [q]) (gate.inverse.act [q]) = ofIndex
    rw [gate.act_eq_onBit harity, gate.inverse.act_eq_onBit harity', onBit_followedBy]
    simp only [gate.bitTable_inverse, add_neg_cancel, onBit_self]
  · have harity' : gate.inverse.arity = 2 := gate.arity_inverse.trans harity
    show followedBy (gate.act [p, q]) (gate.inverse.act [p, q]) = ofIndex
    rw [gate.act_eq_onPair harity hne, gate.inverse.act_eq_onPair harity' hne,
      onPair_followedBy _ _ hne]
    simp only [gate.pairTable_inverse, add_neg_cancel, onPair_self]

/-- **An instruction is conjugated** by the conjugate gate, up to global phase. -/
theorem sameAction_conjugate (h : a.ActsOn n) :
    SameAction n (a.mapGate Gate.conjugate).act (conj ∘ a.act) := by
  rcases h.one_or_two with ⟨gate, q, rfl, harity, -⟩ | ⟨gate, p, q, rfl, harity, -, -, hne⟩
  · have harity' : gate.conjugate.arity = 1 := gate.arity_inverse.trans harity
    obtain ⟨k, hk⟩ := gate.bitTable_conjugate
    refine ⟨k, fun index _ => ?_⟩
    show gate.conjugate.act [q] index = (gate.act [q] index).conj.turn k
    rw [gate.act_eq_onBit harity, gate.conjugate.act_eq_onBit harity']
    simp only [onBit, hk, conj, turn]
  · have harity' : gate.conjugate.arity = 2 := gate.arity_inverse.trans harity
    refine ⟨0, fun index _ => ?_⟩
    show gate.conjugate.act [p, q] index = (gate.act [p, q] index).conj.turn 0
    rw [gate.act_eq_onPair harity hne, gate.conjugate.act_eq_onPair harity' hne, turn_zero]
    simp only [onPair, gate.pairTable_conjugate, conj]

end Instruction.ActsOn

/-! ### Circuits -/

namespace Circuit

variable {c c' : Circuit}

/-- The action of a circuit is that of its instructions, one after the other. -/
theorem act_eq (c : Circuit) : c.act = actAll Instruction.act c.instructions := rfl

/-- A circuit keeps to the basis states of its qubits. -/
theorem staysBelow (c : Circuit) : StaysBelow c.numQubits c.act :=
  StaysBelow.actAll fun a ha => (c.actsOn a ha).staysBelow

/-- An instruction that passes the check can be added. -/
theorem exists_push {gate : Gate} {qubits : List ℕ} {a : Instruction}
    (h : Instruction.of gate qubits c.numQubits = .ok a) :
    ∃ d, c.push gate qubits = .ok d ∧ d.numQubits = c.numQubits ∧
      d.instructions = c.instructions ++ [a] := by
  rw [push]
  split
  · rename_i a' ha'
    obtain rfl : a' = a := Except.ok.inj (ha'.symm.trans h)
    exact ⟨_, rfl, rfl, rfl⟩
  · rename_i failure hfailure
    cases hfailure.symm.trans h

/-- An instruction that passes the check can be put in front. -/
theorem exists_precede {gate : Gate} {qubits : List ℕ}
    (h : Instruction.of gate qubits c.numQubits = .ok ⟨gate, qubits⟩) :
    ∃ d, c.precede gate qubits = .ok d ∧ d.numQubits = c.numQubits ∧
      d.instructions = ⟨gate, qubits⟩ :: c.instructions := by
  rw [precede]
  split
  · rename_i a ha
    obtain rfl : a = ⟨gate, qubits⟩ := Except.ok.inj (ha.symm.trans h)
    exact ⟨_, rfl, rfl, rfl⟩
  · rename_i failure hfailure
    cases hfailure.symm.trans h

/-- Circuits on the same number of qubits can be appended. -/
theorem exists_append {d : Circuit} (h : c.numQubits = d.numQubits) :
    ∃ r, c.append d = .ok r ∧ r.numQubits = c.numQubits := by
  rw [append, dif_pos h]
  exact ⟨_, rfl, rfl⟩

/-- An appended circuit has the instructions of both. -/
theorem instructions_of_append {d r : Circuit} (h : c.append d = .ok r) :
    r.instructions = c.instructions ++ d.instructions :=
  (append_eq_ok_iff.mp h).2.2

/-- An appended circuit acts after the first one. -/
theorem act_of_append {d r : Circuit} (h : c.append d = .ok r) :
    r.act = followedBy c.act d.act := by
  rw [act_eq, instructions_of_append h, actAll_append, act_eq, act_eq]

/-- The inverse of the inverse is the circuit. -/
theorem inverse_inverse (c : Circuit) : c.inverse.inverse = c := by
  refine ext rfl ?_
  show ((c.instructions.map _).reverse.map _).reverse = c.instructions
  rw [List.map_reverse, List.reverse_reverse, List.map_map]
  refine List.map_id'' (fun a => ?_) c.instructions
  rw [Function.comp_apply, Instruction.mapGate, Instruction.mapGate, Gate.inverse_inverse]

/-- **The inverse circuit** takes every basis state back, with the phase. -/
theorem act_followedBy_inverse (c : Circuit) : followedBy c.act c.inverse.act = ofIndex := by
  have hinverse : c.inverse.act =
      actAll (Instruction.act ∘ Instruction.mapGate Gate.inverse) c.instructions.reverse := by
    show actAll Instruction.act (c.instructions.map _).reverse = _
    rw [← List.map_reverse, actAll_map]
  rw [hinverse, act_eq]
  exact actAll_followedBy_reverse fun a ha => (c.actsOn a ha).followedBy_inverse

/-- The inverse circuit before the circuit does nothing. -/
theorem inverse_followedBy_act (c : Circuit) : followedBy c.inverse.act c.act = ofIndex := by
  have h := c.inverse.act_followedBy_inverse
  rwa [inverse_inverse] at h

/-- Circuits with the same action have inverses with the same action. -/
theorem inverse_congr (hn : c.numQubits = n) (h : SameAction n c.act c'.act) :
    SameAction n c.inverse.act c'.inverse.act :=
  h.of_inverse (hn ▸ c.inverse.staysBelow) c.inverse_followedBy_act c'.act_followedBy_inverse

/-- **The conjugate circuit** has the same images and the opposite phases, up to a constant. -/
theorem sameAction_conjugate (c : Circuit) :
    SameAction c.numQubits c.conjugate.act (conj ∘ c.act) := by
  have hconjugate : c.conjugate.act =
      actAll (Instruction.act ∘ Instruction.mapGate Gate.conjugate) c.instructions :=
    actAll_map _ _
  rw [hconjugate, act_eq, ← conj_comp_actAll]
  refine SameAction.actAll (fun a ha => (c.actsOn a ha).sameAction_conjugate) fun a ha => ?_
  exact fun index hindex => (c.actsOn a ha).staysBelow index hindex

/-- Circuits with the same action have conjugates with the same action. -/
theorem conjugate_congr (hn : c.numQubits = n) (hn' : c'.numQubits = n)
    (h : SameAction n c.act c'.act) : SameAction n c.conjugate.act c'.conjugate.act :=
  ((hn ▸ c.sameAction_conjugate).trans h.conj).trans (hn' ▸ c'.sameAction_conjugate).symm

/-- **The transposed circuit** is the inverse of the conjugate one. -/
theorem transpose_eq_conjugate_inverse (c : Circuit) : c.transpose = c.conjugate.inverse := by
  refine ext rfl ?_
  show (c.instructions.map _).reverse = ((c.instructions.map _).map _).reverse
  rw [List.map_map]
  refine congrArg List.reverse (List.map_congr_left fun a _ => ?_)
  exact congrArg (Instruction.mk · a.qubits) a.gate.inverse_inverse.symm

/-- The transposed circuit is the conjugate of the inverse one. -/
theorem transpose_eq_inverse_conjugate (c : Circuit) : c.transpose = c.inverse.conjugate := by
  rw [transpose_eq_conjugate_inverse]
  exact ext rfl List.map_reverse.symm

/-- Circuits with the same action have transposes with the same action. -/
theorem transpose_congr (hn : c.numQubits = n) (hn' : c'.numQubits = n)
    (h : SameAction n c.act c'.act) : SameAction n c.transpose.act c'.transpose.act := by
  rw [transpose_eq_conjugate_inverse, transpose_eq_conjugate_inverse]
  exact inverse_congr (c := c.conjugate) hn (conjugate_congr hn hn' h)

/-- A circuit on two qubits with gates that need one move, several moves or none. -/
def sample : Circuit where
  numQubits := 2
  instructions :=
    [⟨.i, [1]⟩, ⟨.x, [0]⟩, ⟨.y, [0]⟩, ⟨.controlledZ, [1, 0]⟩, ⟨.t, [0]⟩, ⟨.swap, [0, 1]⟩,
      ⟨.controlledX, [1, 0]⟩, ⟨.sInv, [1]⟩]
  actsOn := by simp [Instruction.ActsOn, Gate.arity]

end Circuit

end AffinePhase
