import AffinePhase.Circuit.Text
import AffinePhase.Element.Synthesis
import AffinePhase.Exchange.Datum

/-!
# Exchanging gates, circuits and elements

A gate is exchanged by its name. A circuit is exchanged as its text, and an element as the text of
a circuit for it: writing synthesizes the circuit, reading applies its gates to the identity. Each
kind of value has a schema: its name, a description for readers, and either all its texts or some
examples of them.

## Main definitions

* `Gate.named`, `Gate.coded`, `Gate.read`: a gate from a name in any case, from a code, and from
  its exact name.
* `Circuit.read`, `Element.read`: reading a circuit and an element.
* `Circuit.written`, `Element.written`: the texts to be read back.
* `TextSchema`: a description of a kind of texts.
-/

namespace AffinePhase

/-! ### Gates -/

/-- Why a gate cannot be told. -/
inductive GateFault where
  /-- The text is no gate's name, in whatever case. -/
  | unknownText
  /-- There is no gate with this code. -/
  | unknownCode (code : Nat)
  /-- The text is not exactly the name of a gate. -/
  | unknownName (name : List Char)
  deriving DecidableEq

namespace GateFault

/-- The names of all gates between backquotes, separated by commas. -/
def choices : List Char :=
  Text.joined ", " (Gate.all.map fun g => "`".toList ++ g.name ++ "`".toList)

/-- The wording of a fault. -/
def message : GateFault → List Char
  | unknownText => "Invalid `Gate` string representation".toList
  | unknownCode code =>
      "`".toList ++ Text.decimal code ++ "` does not correspond to a unit variant".toList
  | unknownName name =>
      "unknown variant `".toList ++ name ++ "`, expected one of ".toList ++ choices

end GateFault

namespace Gate

/-- The gate with the given name in upper or lower case. -/
def named (text : List Char) : Except GateFault Gate :=
  match parse? text with
  | some g => .ok g
  | none => .error .unknownText

/-- The gate with the given code. -/
def coded (code : Nat) : Except GateFault Gate :=
  match ofCode? code with
  | some g => .ok g
  | none => .error (.unknownCode code)

/-- Reads a gate from its exact name. -/
def read (name : List Char) : Except GateFault Gate :=
  match ofName? name with
  | some g => .ok g
  | none => .error (.unknownName name)

end Gate

/-! ### Circuits and elements -/

/-- Why a circuit or an element cannot be read. -/
inductive ReadFailure where
  /-- The value is no text. -/
  | notText (found : Datum)
  /-- The text is no circuit. -/
  | circuit (cause : Failure)
  /-- The circuit gives no element. -/
  | element (cause : Failure)

/-- The wording of a failure to read. -/
def ReadFailure.message : ReadFailure → List Char
  | notText found => "invalid type: ".toList ++ found.described ++ ", expected a string".toList
  | circuit cause => "failed to parse Circuit: ".toList ++ cause.message
  | element cause => "failed to parse CnotDihedral: ".toList ++ cause.message

namespace Circuit

/-- The text by which a circuit is exchanged. -/
def written (c : Circuit) : List Char :=
  c.text

/-- Reads a circuit. -/
def read : Datum → Except ReadFailure Circuit
  | .text s => (parse s).mapError .circuit
  | found => .error (.notText found)

end Circuit

namespace Element

/-- The text by which an element is exchanged: that of a circuit for it. -/
def written (e : Element) : Result (List Char) := do
  let c ← e.toCircuit
  return c.written

/-- The element of a circuit that was read. -/
def readCircuit (c : Circuit) : Except ReadFailure Element := do
  let e ← (ofCircuit c).mapError .element
  e.validate.mapError .element
  return e

/-- Reads an element. -/
def read (found : Datum) : Except ReadFailure Element := do
  let c ← Circuit.read found
  readCircuit c

end Element

/-! ### Descriptions -/

/-- A description of a kind of texts. -/
structure TextSchema where
  /-- The name of the kind. -/
  name : List Char
  /-- What the texts mean. -/
  description : List Char
  /-- All texts of the kind, if it is a list of choices. -/
  choices : List (List Char)
  /-- Some texts of the kind, if it is not. -/
  examples : List (List Char)
  deriving DecidableEq

namespace TextSchema

/-- Gates are exchanged by their names. -/
def gate : TextSchema where
  name := "Gate".toList
  description :=
    ("Generators of the CNOT-dihedral group, as they appear in circuits.\n\n" ++
      "`T = diag(1, ω)` with `ω = e^\x7biπ/4\x7d`, `S = T²`, `Z = T⁴`; the remaining\n" ++
      "variants are the usual Pauli, CNOT, CZ and SWAP gates.").toList
  choices := Gate.all.map Gate.name
  examples := []

/-- Circuits are exchanged as lines of text. -/
def circuit : TextSchema where
  name := "Circuit".toList
  description :=
    ("A circuit over CNOT-dihedral generators. " ++
      "The first line is 'qubits N', followed by one instruction per line: " ++
      "a gate name (I, X, Y, Z, T, TInv, S, SInv, ControlledX, ControlledZ, Swap) " ++
      "and its qubit indices separated by spaces.").toList
  choices := []
  examples := ["qubits 1\nT 0".toList, "qubits 2\nControlledX 0 1\nS 1".toList]

/-- Elements are exchanged as circuits. -/
def element : TextSchema :=
  { circuit with
    name := "CnotDihedral".toList
    description :=
      ("A CNOT-dihedral group element, written as a circuit that implements it " ++
        "(see Circuit).").toList }

/-- The schema with the given name. -/
def find? (name : List Char) : Option TextSchema :=
  [gate, circuit, element].find? fun schema => schema.name = name

end TextSchema

end AffinePhase
