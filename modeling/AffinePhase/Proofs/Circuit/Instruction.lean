import AffinePhase.Circuit.Basic
import AffinePhase.Proofs.Result

/-!
# The check of instructions

An instruction that does not act on the qubits of a circuit is refused with the first of its faults:
the wrong number of qubits, then a qubit that does not exist, then a repeated one. A circuit can be
extended exactly by the instructions that pass, at either end.

## Main definitions

* `Instruction.IsRefused`: the fault that an instruction is refused with.

## Main results

* `Instruction.of_eq_error_iff`: the check reports exactly this fault.
* `Circuit.precede_eq_ok_iff`, `Circuit.push_eq_ok_iff`: what it is to extend a circuit by an
  instruction, at its front and at its end.
* `Circuit.append_eq_ok_iff`: what it is to extend it by a circuit.
-/

namespace AffinePhase

variable {gate : Gate} {qubits : List ℕ} {n : ℕ} {failure : Failure}

/-- The fault that a gate on the given ones of `n` qubits is refused with. -/
inductive Instruction.IsRefused (gate : Gate) (qubits : List ℕ) (n : ℕ) : Failure → Prop
  /-- The number of qubits is not that of the gate. -/
  | arity (hlength : qubits.length ≠ gate.arity) :
      IsRefused gate qubits n (.unsupported (.arity gate qubits))
  /-- A qubit does not exist, and is the first one that does not. -/
  | missingQubit {before after : List ℕ} {q : ℕ} (hlength : qubits.length = gate.arity)
      (hsplit : qubits = before ++ q :: after) (hbefore : ∀ i ∈ before, i < n) (hq : n ≤ q) :
      IsRefused gate qubits n (.qubitIndex q n)
  /-- The qubits exist, but one of them is repeated. -/
  | repeatedQubit (hlength : qubits.length = gate.arity) (hbelow : ∀ q ∈ qubits, q < n)
      (hrepeated : ¬ qubits.Nodup) :
      IsRefused gate qubits n (.unsupported (.repeatedQubit gate qubits))

namespace Instruction

/-- **The check reports the first fault**, and fails for no other reason. -/
theorem of_eq_error_iff : of gate qubits n = .error failure ↔ IsRefused gate qubits n failure := by
  rw [of, Result.bind_eq_error, Result.require_eq_error]
  constructor
  · rintro (⟨hlength, rfl⟩ | ⟨⟨⟩, hlength, h⟩)
    · exact .arity hlength
    have hlength := Result.require_eq_ok.mp hlength
    rcases Result.bind_eq_error.mp h with hindex | ⟨⟨⟩, hindex, h⟩
    · obtain ⟨before, q, after, hsplit, hbefore, hq, rfl⟩ := Result.indicesBelow_eq_error.mp hindex
      exact .missingQubit hlength hsplit hbefore hq
    rcases Result.bind_eq_error.mp h with hrepeated | ⟨-, -, h⟩
    · obtain ⟨hnodup, rfl⟩ := Result.require_eq_error.mp hrepeated
      exact .repeatedQubit hlength (Result.indicesBelow_eq_ok.mp hindex) hnodup
    · cases h
  · intro h
    cases h with
    | arity hlength => exact .inl ⟨hlength, rfl⟩
    | missingQubit hlength hsplit hbefore hq =>
        refine .inr ⟨(), Result.require_eq_ok.mpr hlength, Result.bind_eq_error.mpr (.inl ?_)⟩
        exact Result.indicesBelow_eq_error.mpr ⟨_, _, _, hsplit, hbefore, hq, rfl⟩
    | repeatedQubit hlength hbelow hrepeated =>
        refine .inr ⟨(), Result.require_eq_ok.mpr hlength, Result.bind_eq_error.mpr (.inr ⟨(),
          Result.indicesBelow_eq_ok.mpr hbelow, Result.bind_eq_error.mpr (.inl ?_)⟩)⟩
        exact Result.require_eq_error.mpr ⟨hrepeated, rfl⟩

/-- A check that fails says what is wrong. -/
theorem IsRefused.ne_brokenContract (h : IsRefused gate qubits n failure) :
    failure ≠ .brokenContract := by
  rintro rfl
  cases h

end Instruction

namespace Circuit

variable {c d : Circuit}

/-- A circuit is determined by its size and its instructions. -/
theorem ext (hn : c.numQubits = d.numQubits) (h : c.instructions = d.instructions) : c = d := by
  cases c; cases d; simp_all

/-- **Putting an instruction in front** succeeds exactly if it passes the check. -/
theorem precede_eq_ok_iff :
    c.precede gate qubits = .ok d ↔ Instruction.ActsOn ⟨gate, qubits⟩ c.numQubits ∧
      d.numQubits = c.numQubits ∧ d.instructions = ⟨gate, qubits⟩ :: c.instructions := by
  rw [precede]
  split
  · rename_i a ha
    obtain ⟨rfl, hacts⟩ := Instruction.of_eq_ok_iff.mp ha
    rw [Except.ok.injEq]
    constructor
    · rintro rfl
      exact ⟨hacts, rfl, rfl⟩
    · rintro ⟨-, hn, hinstructions⟩
      exact ext hn.symm hinstructions.symm
  · rename_i e he
    constructor
    · intro h
      cases h
    · rintro ⟨hacts, -⟩
      cases he.symm.trans (Instruction.of_eq_ok_iff.mpr ⟨rfl, hacts⟩)

/-- Otherwise it is refused with the fault of the instruction. -/
theorem precede_eq_error_iff :
    c.precede gate qubits = .error failure ↔
      Instruction.IsRefused gate qubits c.numQubits failure := by
  rw [← Instruction.of_eq_error_iff, precede]
  split
  · rename_i a ha
    exact ⟨fun h => (nomatch h), fun h => (nomatch ha.symm.trans h)⟩
  · rename_i e he
    rw [he, Except.error.injEq, Except.error.injEq]

/-- **Adding an instruction** succeeds exactly if it passes the check. -/
theorem push_eq_ok_iff :
    c.push gate qubits = .ok d ↔ Instruction.ActsOn ⟨gate, qubits⟩ c.numQubits ∧
      d.numQubits = c.numQubits ∧ d.instructions = c.instructions ++ [⟨gate, qubits⟩] := by
  -- it is put in front of the reversed instructions
  have hreverse : c.push gate qubits = .ok d ↔ c.reversed.precede gate qubits = .ok d.reversed := by
    rw [← reversed_precede]
    cases c.reversed.precede gate qubits with
    | ok r =>
        rw [Except.map, Except.ok.injEq, Except.ok.injEq]
        exact ⟨fun h => h ▸ (reversed_reversed r).symm, fun h => h ▸ reversed_reversed d⟩
    | error failure => exact ⟨fun h => (nomatch h), fun h => (nomatch h)⟩
  rw [hreverse, precede_eq_ok_iff]
  refine and_congr_right fun _ => and_congr_right fun _ => ?_
  show d.instructions.reverse = _ :: c.instructions.reverse ↔ _
  rw [List.reverse_eq_iff, List.reverse_cons, List.reverse_reverse]

/-- **Appending a circuit** succeeds exactly if it has as many qubits. -/
theorem append_eq_ok_iff {r : Circuit} :
    c.append d = .ok r ↔ c.numQubits = d.numQubits ∧ r.numQubits = c.numQubits ∧
      r.instructions = c.instructions ++ d.instructions := by
  rw [append]
  split
  · rename_i hn
    rw [Except.ok.injEq]
    constructor
    · rintro rfl
      exact ⟨hn, rfl, rfl⟩
    · rintro ⟨-, hr, hinstructions⟩
      exact ext hr.symm hinstructions.symm
  · rename_i hn
    constructor
    · intro h
      cases h
    · intro h
      exact absurd h.1 hn

end Circuit

end AffinePhase
