import AffinePhase.Proofs.Circuit.Text
import AffinePhase.Proofs.Element.ExactPhase

/-!
# Circuits that calls lead to

A circuit is empty, or read from a text, or synthesized from an element, and is then extended by
instructions and by other circuits, inverted, conjugated and transposed. An extension that is
refused leaves it as it was. None of these calls can make up a number of qubits that does not fit
into 64 bits, and so every circuit that they lead to can be written and read back.

## Main definitions

* `Circuit.attempt`: what a circuit becomes by a call that may be refused.
* `Circuit.Reachable`: the circuits that calls lead to.

## Main results

* `Circuit.Reachable.numQubits_lt`: the number of qubits fits into 64 bits.
* `Circuit.Reachable.read_back`: a printed circuit is read back.
-/

namespace AffinePhase

open Text

/-- **A synthesized circuit** has the qubits of its element, whether this is valid or not. -/
theorem Element.numQubits_toCircuit {e : Element} {c : Circuit} (h : e.toCircuit = .ok c) :
    c.numQubits = e.numQubits := by
  obtain ⟨-, -, h⟩ := Result.bind_eq_ok.mp h
  obtain ⟨reduction, -, h⟩ := Result.bind_eq_ok.mp h
  obtain ⟨diagonal, hdiagonal, happend⟩ := Result.bind_eq_ok.mp h
  obtain ⟨-, hn, -⟩ := Circuit.append_eq_ok_iff.mp happend
  exact hn.trans (numQubits_diagonalCircuit hdiagonal)

namespace Circuit

variable {c d : Circuit} {n : ℕ}

/-- What a circuit becomes by a call with the given outcome: if the call is refused, nothing is
changed. -/
def attempt (c : Circuit) : Result Circuit → Circuit
  | .ok d => d
  | .error _ => c

/-- What an extension keeps, an attempt at it keeps. -/
theorem attempt_of {P : Circuit → Prop} {r : Result Circuit} (hc : P c)
    (hr : ∀ d, r = .ok d → P d) : P (c.attempt r) := by
  cases r with
  | ok d => exact hr d rfl
  | error _ => exact hc

/-- The circuits that calls lead to, those that are refused among them. -/
inductive Reachable : Circuit → Prop
  /-- A circuit without instructions; how much memory it is given at once makes no difference. -/
  | empty {n : ℕ} (hn : n < indexBound) : Reachable (empty n)
  /-- A circuit read from a text. -/
  | parsed {text : List Char} {c : Circuit} (h : parse text = .ok c) : Reachable c
  /-- The circuit of an element. -/
  | synthesized {e : Element} {c : Circuit} (hn : e.numQubits < indexBound)
      (h : e.toCircuit = .ok c) : Reachable c
  /-- An attempt to add an instruction. -/
  | push {c : Circuit} (hc : c.Reachable) (gate : Gate) (qubits : List ℕ) :
      Reachable (c.attempt (c.push gate qubits))
  /-- An attempt to append a circuit. -/
  | append {c d : Circuit} (hc : c.Reachable) (hd : d.Reachable) :
      Reachable (c.attempt (c.append d))
  /-- The inverse. -/
  | inverse {c : Circuit} (hc : c.Reachable) : Reachable c.inverse
  /-- The complex conjugate. -/
  | conjugate {c : Circuit} (hc : c.Reachable) : Reachable c.conjugate
  /-- The transpose. -/
  | transpose {c : Circuit} (hc : c.Reachable) : Reachable c.transpose

namespace Reachable

/-- **Numbers of qubits fit into 64 bits**, since only the first call on a circuit sets one. -/
theorem numQubits_lt (h : c.Reachable) : c.numQubits < indexBound := by
  induction h with
  | empty hn => exact hn
  | parsed h =>
      obtain ⟨header, ls, -, hheader, -⟩ := parse_eq_ok_iff.mp h
      obtain ⟨count, -, digits, -, -, -, -, hn⟩ := hheader
      exact hn
  | synthesized hn h => exact (Element.numQubits_toCircuit h).symm ▸ hn
  | push _ gate qubits ih =>
      refine attempt_of (P := fun c => c.numQubits < indexBound) ih fun d hd => ?_
      obtain ⟨-, hn, -⟩ := push_eq_ok_iff.mp hd
      exact hn.symm ▸ ih
  | append _ _ ih =>
      refine attempt_of (P := fun c => c.numQubits < indexBound) ih fun d hd => ?_
      obtain ⟨-, hn, -⟩ := append_eq_ok_iff.mp hd
      exact hn.symm ▸ ih
  | inverse _ ih => exact ih
  | conjugate _ ih => exact ih
  | transpose _ ih => exact ih

/-- **Circuits that calls lead to can be read back** from their printed form. -/
theorem read_back (h : c.Reachable) : parse c.text = .ok c :=
  c.parse_text h.numQubits_lt

/-- A circuit of one gate is printed after it has been inverted, and read back. -/
theorem read_back_of_pushed :
    ((Circuit.empty 3).attempt ((Circuit.empty 3).push .t [2])).inverse.text =
        "qubits 3\nTInv 2".toList ∧
      parse ((Circuit.empty 3).attempt ((Circuit.empty 3).push .t [2])).inverse.text =
        .ok ((Circuit.empty 3).attempt ((Circuit.empty 3).push .t [2])).inverse :=
  ⟨by rfl, read_back (.inverse (.push (.empty (by decide)) .t [2]))⟩

end Reachable

end Circuit

end AffinePhase
