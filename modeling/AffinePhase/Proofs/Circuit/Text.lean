import AffinePhase.Proofs.Circuit.Grammar

/-!
# Reading circuits back

A printed circuit is a text of lines of words. It describes the circuit that was printed, so that
reading gives this circuit back, whatever its size.

## Main definitions

* `Instruction.words`: the words of an instruction's line.

## Main results

* `Circuit.writtenLines_text`: the lines of a printed circuit.
* `Circuit.describes_text`: a printed circuit describes itself.
* `Circuit.parse_text`: a printed circuit is read back.
-/

namespace AffinePhase

open Text

/-- The words of an instruction's line: the name of the gate, and the indices. -/
def Instruction.words (a : Instruction) : List (List Char) :=
  a.gate.name :: a.qubits.map decimal

/-- The name of a gate is a word. -/
theorem Gate.isWord_name (g : Gate) : IsWord g.name := by
  cases g <;> decide

/-- The parts of an instruction are words. -/
theorem Instruction.isWord_of_mem_words (a : Instruction) : ∀ w ∈ a.words, IsWord w := by
  rw [words, List.forall_mem_cons, List.forall_mem_map]
  exact ⟨a.gate.isWord_name, fun q _ => isWord_decimal q⟩

/-- The words of a line are the parts of its instruction. -/
theorem Instruction.words_line (a : Instruction) : Text.words a.line = a.words :=
  words_joined a.isWord_of_mem_words

/-- The decimal form of an index denotes it. -/
theorem Text.denotes_decimal {n : ℕ} (hn : n < indexBound) : Denotes (decimal n) n :=
  index?_eq_some_iff.mp (index?_decimal hn)

/-- **A printed instruction** is a line of the grammar. -/
theorem Instruction.isInstructionLine {a : Instruction} {n : ℕ} (ha : a.ActsOn n)
    (hn : n < indexBound) : Circuit.IsInstructionLine n a.line a := by
  have hqubits : List.Forall₂ Denotes (a.qubits.map decimal) a.qubits := by
    rw [List.forall₂_map_left_iff, List.forall₂_same]
    exact fun q hq => denotes_decimal ((ha.2.1 q hq).trans hn)
  exact ⟨a.gate.name, a.qubits.map decimal, a.words_line, rfl, hqubits, ha⟩

namespace Circuit

/-- The first line, as a line of words. -/
def headerLine (n : ℕ) : List Char :=
  joined " " [headerWord, decimal n]

/-- The parts of the first line are words. -/
theorem isWord_of_mem_header (n : ℕ) : ∀ w ∈ [headerWord, decimal n], IsWord w := by
  simp only [List.forall_mem_cons, List.not_mem_nil, false_implies, implies_true, and_true]
  exact ⟨by decide, isWord_decimal n⟩

/-- The words of the first line are its parts. -/
theorem words_headerLine (n : ℕ) : words (headerLine n) = [headerWord, decimal n] :=
  words_joined (isWord_of_mem_header n)

/-- Printing joins the lines. -/
theorem text_eq (c : Circuit) :
    c.text = joined "\n" (headerLine c.numQubits :: c.instructions.map Instruction.line) := by
  rw [text, headerLine, joined_cons_cons, joined_singleton]

/-- **The lines of a printed circuit** are the header and those of the instructions. -/
theorem writtenLines_text (c : Circuit) :
    writtenLines c.text = (1, headerLine c.numQubits) ::
      ((c.instructions.map Instruction.line).zipIdx 2).map
        fun (line, number) => (number, line) := by
  have hends : ∀ l ∈ headerLine c.numQubits :: c.instructions.map Instruction.line,
      '\n' ∉ l ∧ '\r' ∉ l := by
    rw [List.forall_mem_cons, List.forall_mem_map]
    exact ⟨lineEnds_not_mem_joined (isWord_of_mem_header _),
      fun a _ => lineEnds_not_mem_joined a.isWord_of_mem_words⟩
  have hwords : ∀ l ∈ headerLine c.numQubits :: c.instructions.map Instruction.line,
      words l ≠ [] := by
    rw [List.forall_mem_cons, List.forall_mem_map, words_headerLine]
    exact ⟨List.cons_ne_nil _ _, fun a _ => a.words_line ▸ List.cons_ne_nil _ _⟩
  rw [text_eq, writtenLines_joined hends hwords]
  rfl

/-- **A printed circuit describes itself** if its number of qubits fits into 64 bits. -/
theorem describes_text (c : Circuit) (hn : c.numQubits < indexBound) : Describes c.text c := by
  have hinstructions : List.Forall₂ (IsInstructionLine c.numQubits)
      (((c.instructions.map Instruction.line).zipIdx 2).map Prod.fst) c.instructions := by
    rw [List.zipIdx_map_fst, List.forall₂_map_left_iff, List.forall₂_same]
    exact fun a ha => Instruction.isInstructionLine (c.actsOn a ha) hn
  refine ⟨_, _, writtenLines_text c, ⟨_, words_headerLine _, denotes_decimal hn⟩, ?_⟩
  rw [List.forall₂_map_left_iff]
  exact List.forall₂_map_left_iff.mp hinstructions

/-- **A printed circuit is read back** if its number of qubits fits into 64 bits. -/
theorem parse_text (c : Circuit) (hn : c.numQubits < indexBound) : parse c.text = .ok c :=
  parse_eq_ok_iff.mpr (c.describes_text hn)

end Circuit

end AffinePhase
