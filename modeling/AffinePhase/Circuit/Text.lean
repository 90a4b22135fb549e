import AffinePhase.Circuit.Basic
import AffinePhase.Text.Basic

/-!
# Circuits as text

The first line of a circuit says `qubits N`; each further line is an instruction, a gate's name
and the indices of its qubits. Lines without a word are passed over, words are separated by any
blanks, and gate names are read in upper or lower case. The first line that cannot be read, or
that is no instruction on `N` qubits, decides the failure.

## Main definitions

* `Circuit.text`: the printed form.
* `Circuit.parse`: reading.
-/

namespace AffinePhase

/-- An instruction as a line: the name of the gate and the indices, separated by spaces. -/
def Instruction.line (a : Instruction) : List Char :=
  Text.joined " " (a.gate.name :: a.qubits.map Text.decimal)

namespace Circuit

/-- The word that begins a circuit. -/
def headerWord : List Char := "qubits".toList

/-- A circuit as text, with no line feed after the last line. -/
def text (c : Circuit) : List Char :=
  Text.joined "\n"
    ((headerWord ++ " ".toList ++ Text.decimal c.numQubits) :: c.instructions.map Instruction.line)

/-- The lines that hold a word, without the blanks around them, with their numbers. -/
def contentLines (text : List Char) : List (Nat × List Char) :=
  ((Text.numberedLines text).map fun (number, line) => (number, Text.trim line)).filter
    fun (_, line) => !line.isEmpty

/-- Reads an index on the line with the given number. -/
def parseIndex (number : Nat) (word : List Char) : Result Nat :=
  match Text.index? word with
  | some n => .ok n
  | none => .error (.parse number (.badIndex word))

/-- Reads the number of qubits from the first line. -/
def parseHeader (number : Nat) (line : List Char) : Result Nat :=
  match Text.words line with
  | [word, count] =>
      if word = headerWord then parseIndex number count
      else .error (.parse number (.badHeader line))
  | _ => .error (.parse number (.badHeader line))

/-- Reads an instruction and puts it before those of a circuit. -/
def parseLine (c : Circuit) (number : Nat) (line : List Char) : Result Circuit := do
  let words := Text.words line
  let name := words.headD []
  match Gate.parse? name with
  | none => throw (.unsupported (.unknownGate name number))
  | some gate =>
      let qubits ← words.tail.mapM (parseIndex number)
      c.precede gate qubits

/-- Reads a circuit. The lines are read in order, and each instruction is put before those that
have been read; the result is reversed once. -/
def parse (text : List Char) : Result Circuit :=
  match contentLines text with
  | [] => .error (.parse 1 .missingHeader)
  | (number, header) :: lines => do
      let n ← parseHeader number header
      let latestFirst ← lines.foldlM (fun c (number, line) => c.parseLine number line) (empty n)
      return latestFirst.reversed

end Circuit

end AffinePhase
