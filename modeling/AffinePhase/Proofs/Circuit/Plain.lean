import AffinePhase.Circuit.Text
import AffinePhase.Proofs.Circuit.Instruction
import AffinePhase.Proofs.InPlace

/-!
# Circuits as they are stored

A circuit is stored as a number of qubits and a list of instructions, and nothing in this form says
that the instructions act on the qubits. It is extended in place. Only an instruction that is added
is checked; a circuit that is appended is trusted, and so are the instructions whose gates are
replaced. Each operation on plain circuits follows the one on circuits, whose type says that the
instructions act on the qubits: on the stored form of a circuit both give the same outcome.

## Main definitions

* `PlainCircuit`, `Circuit.plain`: what is stored of a circuit.
* `PlainCircuit.push`, `PlainCircuit.append`: extension in place.
* `PlainCircuit.mapped`, `PlainCircuit.parse`: replacing gates without a check, and reading.

## Main results

* `Circuit.runOn_push`, `Circuit.runOn_append`: extension of a stored circuit.
* `Circuit.map_plain_parse`: reading gives a stored circuit.
-/

namespace AffinePhase

open InPlace

/-- A circuit as it is stored, whatever its instructions are. -/
structure PlainCircuit where
  /-- The number of qubits. -/
  numQubits : ℕ
  /-- The instructions, first applied first. -/
  instructions : List Instruction
  deriving DecidableEq

namespace PlainCircuit

/-- The circuit without instructions. -/
def empty (n : ℕ) : PlainCircuit := ⟨n, []⟩

/-- Adds an instruction at the end after it has been checked. -/
def push (gate : Gate) (qubits : List ℕ) : InPlace PlainCircuit Unit := do
  let a ← look fun c => Instruction.of gate qubits c.numQubits
  edit fun c => .ok { c with instructions := c.instructions ++ [a] }

/-- Adds the instructions of a circuit at the end. Only the numbers of qubits are compared. -/
def append (d : PlainCircuit) : InPlace PlainCircuit Unit := do
  look fun c => Result.sameSize c.numQubits d.numQubits
  edit fun c => .ok { c with instructions := c.instructions ++ d.instructions }

/-- Replaces every gate, in the same or in reverse order. Nothing is checked. -/
def mapped (reversed : Bool) (f : Gate → Gate) (c : PlainCircuit) : PlainCircuit :=
  { c with instructions :=
      (if reversed then c.instructions.reverse else c.instructions).map (Instruction.mapGate f) }

/-- Inverse gates in reverse order. -/
def inverse (c : PlainCircuit) : PlainCircuit := c.mapped true Gate.inverse

/-- Conjugated gates in the same order. -/
def conjugate (c : PlainCircuit) : PlainCircuit := c.mapped false Gate.conjugate

/-- Transposed gates in reverse order. -/
def transpose (c : PlainCircuit) : PlainCircuit := c.mapped true Gate.transpose

/-- Reads an instruction and adds it to a circuit. -/
def parseLine (c : PlainCircuit) (number : ℕ) (line : List Char) : Result PlainCircuit := do
  let words := Text.words line
  let name := words.headD []
  match Gate.parse? name with
  | none => throw (.unsupported (.unknownGate name number))
  | some gate =>
      let qubits ← words.tail.mapM (Circuit.parseIndex number)
      (push gate qubits).execute c

/-- Reads a circuit. The instructions are added in the order of the lines. -/
def parse (text : List Char) : Result PlainCircuit :=
  match Circuit.contentLines text with
  | [] => .error (.parse 1 .missingHeader)
  | (number, header) :: lines => do
      let n ← Circuit.parseHeader number header
      lines.foldlM (fun c (number, line) => c.parseLine number line) (empty n)

variable {gate : Gate} {qubits : List ℕ}

/-- **Adding an instruction does all or nothing**, to any circuit. -/
theorem runOn_push (c : PlainCircuit) : (push gate qubits).runOn c =
    allOrNothing c ((Instruction.of gate qubits c.numQubits).map fun a =>
      { c with instructions := c.instructions ++ [a] }) :=
  runOn_look_edit ..

/-- **Appending a circuit does all or nothing**, whatever the circuits are. -/
theorem runOn_append (c d : PlainCircuit) : (append d).runOn c =
    allOrNothing c ((Result.sameSize c.numQubits d.numQubits).map fun _ =>
      { c with instructions := c.instructions ++ d.instructions }) :=
  runOn_look_edit ..

/-- An instruction that is refused leaves any circuit as it was. -/
theorem eq_of_push_eq_error {c c' : PlainCircuit} {failure : Failure}
    (h : (push gate qubits).runOn c = (.error failure, c')) :
    Instruction.IsRefused gate qubits c.numQubits failure ∧ c' = c := by
  obtain ⟨hfails, hsame⟩ := eq_error_of_allOrNothing c.runOn_push h
  exact ⟨Instruction.of_eq_error_iff.mp (Result.map_eq_error.mp hfails), hsame⟩

/-- A circuit that cannot be appended leaves any circuit as it was. -/
theorem eq_of_append_eq_error {c c' d : PlainCircuit} {failure : Failure}
    (h : (append d).runOn c = (.error failure, c')) :
    (c.numQubits ≠ d.numQubits ∧ failure = .dimensionMismatch c.numQubits d.numQubits) ∧
      c' = c := by
  obtain ⟨hfails, hsame⟩ := eq_error_of_allOrNothing (c.runOn_append d) h
  exact ⟨Result.require_eq_error.mp (Result.map_eq_error.mp hfails), hsame⟩

end PlainCircuit

namespace Circuit

variable {gate : Gate} {qubits : List ℕ}

/-- What is stored of a circuit. -/
def plain (c : Circuit) : PlainCircuit := ⟨c.numQubits, c.instructions⟩

/-- The stored form of a circuit whose latest instruction comes first. -/
def plainReversed (c : Circuit) : PlainCircuit := c.reversed.plain

/-- **Adding an instruction** to a stored circuit. -/
theorem runOn_push (c : Circuit) : (PlainCircuit.push gate qubits).runOn c.plain =
    allOrNothing c.plain ((c.push gate qubits).map plain) := by
  rw [PlainCircuit.runOn_push, push]
  split
  · rename_i a ha
    have hchecked : Instruction.of gate qubits c.plain.numQubits = .ok a := ha
    rw [hchecked]
    rfl
  · rename_i failure hfailure
    have hchecked : Instruction.of gate qubits c.plain.numQubits = .error failure := hfailure
    rw [hchecked]
    rfl

/-- **Appending a circuit** to a stored circuit. -/
theorem runOn_append (c d : Circuit) : (PlainCircuit.append d.plain).runOn c.plain =
    allOrNothing c.plain ((c.append d).map plain) := by
  rw [PlainCircuit.runOn_append, append]
  split
  · rename_i hn
    have hchecked : Result.sameSize c.plain.numQubits d.plain.numQubits = .ok () :=
      Result.sameSize_eq_ok.mpr hn
    rw [hchecked]
    rfl
  · rename_i hn
    have hchecked : Result.sameSize c.plain.numQubits d.plain.numQubits =
        .error (.dimensionMismatch c.numQubits d.numQubits) :=
      Result.require_eq_error.mpr ⟨hn, rfl⟩
    rw [hchecked]
    rfl

theorem plain_inverse (c : Circuit) : c.inverse.plain = c.plain.inverse := by
  rw [plain, PlainCircuit.inverse, PlainCircuit.mapped, if_pos rfl, List.map_reverse]
  rfl

theorem plain_conjugate (c : Circuit) : c.conjugate.plain = c.plain.conjugate := rfl

theorem plain_transpose (c : Circuit) : c.transpose.plain = c.plain.transpose := by
  rw [plain, PlainCircuit.transpose, PlainCircuit.mapped, if_pos rfl, List.map_reverse]
  rfl

/-- An instruction in front of the reversed ones is an instruction at the end. -/
theorem map_plainReversed_precede (c : Circuit) :
    (c.precede gate qubits).map plainReversed =
      (PlainCircuit.push gate qubits).execute c.plainReversed := by
  rw [plainReversed, execute_of_allOrNothing (runOn_push _), ← reversed_precede, reversed_reversed]
  cases c.precede gate qubits <;> rfl

/-- **Reading gives a stored circuit**, the same one and with the same failures, although nothing
but the single instructions is checked. -/
theorem map_plain_parse (text : List Char) : (parse text).map plain = PlainCircuit.parse text := by
  have hline : ∀ (c : Circuit) (t : ℕ × List Char),
      (c.parseLine t.1 t.2).map plainReversed = c.plainReversed.parseLine t.1 t.2 := by
    rintro c ⟨number, line⟩
    show (c.parseLine number line).map plainReversed = c.plainReversed.parseLine number line
    rw [parseLine, PlainCircuit.parseLine]
    cases Gate.parse? ((Text.words line).headD []) with
    | none => rfl
    | some gate => exact Result.map_bind fun qubits => c.map_plainReversed_precede
  rw [parse, PlainCircuit.parse]
  cases contentLines text with
  | nil => rfl
  | cons first lines =>
      refine Result.map_bind fun n => ?_
      have hlines := Result.map_foldlM (g := fun c t => PlainCircuit.parseLine c t.1 t.2) hline
        lines (empty n)
      refine Eq.trans ?_ hlines
      cases lines.foldlM (fun c t => c.parseLine t.1 t.2) (empty n) <;> rfl

end Circuit

end AffinePhase
