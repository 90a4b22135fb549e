import AffinePhase.Failure

/-!
# Circuits

A circuit is a sequence of gates on a fixed number of qubits, applied first to last. Each
instruction of a circuit has as many qubits as its gate acts on, all of them exist, and none is
repeated; the type carries this, and every operation keeps it.

Every gate sends a basis state to a basis state times a power of `ω = e^{iπ/4}`. A basis state is
given by its index, qubit `q` being bit `q`. This is the meaning of circuits: it knows nothing of
polynomials or matrices, and it keeps the global phase.

## Main definitions

* `Instruction.ActsOn`: the condition on an instruction; `Instruction.of` checks it.
* `Circuit.push`, `Circuit.precede`, `Circuit.append`: building circuits.
* `Circuit.inverse`, `Circuit.conjugate`, `Circuit.transpose`: gate by gate, the first and the
  last in reverse order.
* `Gate.act`, `Circuit.act`: the image of a basis state under a gate and under a circuit.

## Main results

* `Instruction.of_eq_ok_iff`: the check accepts exactly what the condition describes.
-/

namespace AffinePhase

/-- A gate and the qubits that it acts on. -/
structure Instruction where
  /-- The gate. -/
  gate : Gate
  /-- Its qubits, control before target. -/
  qubits : List Nat
  deriving DecidableEq

namespace Instruction

/-- The instruction has the right number of qubits, each below `n` and none repeated. -/
def ActsOn (a : Instruction) (n : Nat) : Prop :=
  a.qubits.length = a.gate.arity ∧ (∀ q ∈ a.qubits, q < n) ∧ a.qubits.Nodup

/-- The instruction with the given gate and qubits. Of several faults a wrong number of qubits is
reported before a missing qubit, and that before a repeated one. -/
def of (gate : Gate) (qubits : List Nat) (n : Nat) : Result Instruction := do
  Result.require (qubits.length = gate.arity) (.unsupported (.arity gate qubits))
  Result.indicesBelow n qubits
  Result.require qubits.Nodup (.unsupported (.repeatedQubit gate qubits))
  return ⟨gate, qubits⟩

/-- The instruction with another gate. -/
def mapGate (f : Gate → Gate) (a : Instruction) : Instruction :=
  { a with gate := f a.gate }

/-- **The check is exact.** -/
theorem of_eq_ok_iff {gate : Gate} {qubits : List Nat} {n : Nat} {a : Instruction} :
    of gate qubits n = .ok a ↔ a = ⟨gate, qubits⟩ ∧ a.ActsOn n := by
  have hbelow : qubits.find? (n ≤ ·) = none ↔ ∀ q ∈ qubits, q < n := by
    simp [List.find?_eq_none]
  unfold of Result.require Result.indicesBelow
  by_cases harity : qubits.length = gate.arity
  · cases hfind : qubits.find? (n ≤ ·) with
    | some q =>
        have hmissing : ¬ ∀ q ∈ qubits, q < n := fun h => by
          rw [hbelow.mpr h] at hfind
          cases hfind
        constructor
        · intro h
          simp [harity, bind, Except.bind] at h
        · rintro ⟨rfl, -, hall, -⟩
          exact absurd hall hmissing
    | none =>
        by_cases hnodup : qubits.Nodup
        · constructor
          · intro h
            simp [harity, hnodup, bind, Except.bind, pure, Except.pure] at h
            exact ⟨h.symm, by rw [← h]; exact ⟨harity, hbelow.mp hfind, hnodup⟩⟩
          · rintro ⟨rfl, -⟩
            simp [harity, hnodup, bind, Except.bind, pure, Except.pure]
        · constructor
          · intro h
            simp [harity, hnodup, bind, Except.bind] at h
          · rintro ⟨rfl, -, -, hdistinct⟩
            exact absurd hdistinct hnodup
  · constructor
    · intro h
      simp [harity, bind, Except.bind] at h
    · rintro ⟨rfl, hlength, -⟩
      exact absurd hlength harity

/-- Another gate of the same arity acts on the same qubits. -/
theorem actsOn_mapGate {f : Gate → Gate} (harity : ∀ g, (f g).arity = g.arity) {a : Instruction}
    {n : Nat} (h : a.ActsOn n) : (a.mapGate f).ActsOn n :=
  ⟨h.1.trans (harity a.gate).symm, h.2⟩

end Instruction

/-- A sequence of instructions on a fixed number of qubits. -/
structure Circuit where
  /-- The number of qubits. -/
  numQubits : Nat
  /-- The instructions, first applied first. -/
  instructions : List Instruction
  /-- Every instruction acts on the qubits of the circuit. -/
  actsOn : ∀ a ∈ instructions, a.ActsOn numQubits
  deriving DecidableEq

namespace Circuit

/-- The circuit without instructions. -/
def empty (n : Nat) : Circuit :=
  ⟨n, [], fun _ h => nomatch h⟩

/-- The circuit followed by one more gate. -/
def push (c : Circuit) (gate : Gate) (qubits : List Nat) : Result Circuit :=
  match hcheck : Instruction.of gate qubits c.numQubits with
  | .ok a => .ok
      { c with
        instructions := c.instructions ++ [a]
        actsOn := fun b hb => by
          rcases List.mem_append.mp hb with hb | hb
          · exact c.actsOn b hb
          · rw [List.mem_singleton.mp hb]
            exact (Instruction.of_eq_ok_iff.mp hcheck).2 }
  | .error e => .error e

/-- The circuit preceded by one more gate. -/
def precede (c : Circuit) (gate : Gate) (qubits : List Nat) : Result Circuit :=
  match hcheck : Instruction.of gate qubits c.numQubits with
  | .ok a => .ok
      { c with
        instructions := a :: c.instructions
        actsOn := fun b hb => by
          rcases List.mem_cons.mp hb with hb | hb
          · rw [hb]
            exact (Instruction.of_eq_ok_iff.mp hcheck).2
          · exact c.actsOn b hb }
  | .error e => .error e

/-- The instructions of `c` followed by those of `d`. -/
def append (c d : Circuit) : Result Circuit :=
  if hn : c.numQubits = d.numQubits then
    .ok
      { c with
        instructions := c.instructions ++ d.instructions
        actsOn := fun a ha => by
          rcases List.mem_append.mp ha with ha | ha
          · exact c.actsOn a ha
          · rw [hn]
            exact d.actsOn a ha }
  else
    .error (.dimensionMismatch c.numQubits d.numQubits)

/-- Replaces every gate by one of the same arity. -/
def mapGates (f : Gate → Gate) (harity : ∀ g, (f g).arity = g.arity) (c : Circuit) : Circuit :=
  { c with
    instructions := c.instructions.map (Instruction.mapGate f)
    actsOn := fun a ha => by
      obtain ⟨b, hb, rfl⟩ := List.mem_map.mp ha
      exact Instruction.actsOn_mapGate harity (c.actsOn b hb) }

/-- The instructions in reverse order. -/
def reversed (c : Circuit) : Circuit :=
  { c with
    instructions := c.instructions.reverse
    actsOn := fun a ha => c.actsOn a (List.mem_reverse.mp ha) }

/-- Reversing twice gives the circuit back. -/
@[simp] theorem reversed_reversed (c : Circuit) : c.reversed.reversed = c := by
  simp [reversed]

/-- A gate in front of the reversed instructions is a gate after the instructions. -/
theorem reversed_precede (c : Circuit) (gate : Gate) (qubits : List Nat) :
    (c.reversed.precede gate qubits).map reversed = c.push gate qubits := by
  unfold precede push
  -- Both operations make the same check, and each match keeps its own proof of the outcome.
  split
  · rename_i a hfront
    have hcheck : Instruction.of gate qubits c.numQubits = .ok a := hfront
    split
    · rename_i a' hback
      obtain rfl : a = a' := Except.ok.inj (hcheck.symm.trans hback)
      simp only [Except.map, reversed, List.reverse_cons, List.reverse_reverse]
    · rename_i hback
      cases hcheck.symm.trans hback
  · rename_i e hfront
    have hcheck : Instruction.of gate qubits c.numQubits = .error e := hfront
    split
    · rename_i hback
      cases hcheck.symm.trans hback
    · rename_i e' hback
      obtain rfl : e = e' := Except.error.inj (hcheck.symm.trans hback)
      rfl

/-- The inverse circuit: inverse gates in reverse order. -/
def inverse (c : Circuit) : Circuit :=
  (c.mapGates Gate.inverse Gate.arity_inverse).reversed

/-- The complex conjugate circuit, up to global phase. -/
def conjugate (c : Circuit) : Circuit :=
  c.mapGates Gate.conjugate Gate.arity_inverse

/-- The transposed circuit, up to global phase: transposed gates in reverse order. -/
def transpose (c : Circuit) : Circuit :=
  (c.mapGates Gate.transpose fun _ => rfl).reversed

end Circuit

/-! ### The action on basis states -/

/-- A basis state times a power of `ω`. -/
structure BasisImage where
  /-- The index of the basis state. -/
  index : Nat
  /-- The exponent of `ω`. -/
  power : Z8
  deriving DecidableEq

/-- Flips bit `q` of an index. -/
def flipBit (index q : Nat) : Nat :=
  index ^^^ (1 <<< q)

/-- The image of the basis state `index` under a gate on the given qubits. -/
def Gate.act (gate : Gate) (qubits : List Nat) (index : Nat) : BasisImage :=
  match gate, qubits with
  | .x, [q] => ⟨flipBit index q, 0⟩
  | .y, [q] => ⟨flipBit index q, if index.testBit q then 6 else 2⟩
  | .controlledX, [control, target] =>
      ⟨if index.testBit control then flipBit index target else index, 0⟩
  | .controlledZ, [a, b] => ⟨index, if index.testBit a && index.testBit b then 4 else 0⟩
  | .swap, [a, b] =>
      ⟨if index.testBit a = index.testBit b then index else flipBit (flipBit index a) b, 0⟩
  | gate, [q] => ⟨index, if index.testBit q then gate.phasePower.getD 0 else 0⟩
  | _, _ => ⟨index, 0⟩

/-- Applies an instruction to a basis state that already carries a phase. -/
def BasisImage.apply (s : BasisImage) (a : Instruction) : BasisImage :=
  let image := a.gate.act a.qubits s.index
  ⟨image.index, s.power + image.power⟩

/-- The image of the basis state `index` under a circuit. -/
def Circuit.act (c : Circuit) (index : Nat) : BasisImage :=
  c.instructions.foldl BasisImage.apply ⟨index, 0⟩

end AffinePhase
