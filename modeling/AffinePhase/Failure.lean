import AffinePhase.Gate
import AffinePhase.Text.Basic
import AffinePhase.Text.Quoted

/-!
# Why an operation gives no result

Every operation on polynomials, affine maps, circuits and group elements that can fail answers
with the cause. Most causes have a message; a broken contract has none, since it is an error of
the caller: an index past the end of a table, or parts that do not fit together.

## Main definitions

* `Failure`: the causes.
* `Failure.message`: their wording.
* `Result`: a value or the cause of its absence.
-/

namespace AffinePhase

/-- What is wrong with the parts of a group element or a polynomial. -/
inductive Defect where
  /-- A table of the polynomial does not have one entry for each of its terms. -/
  | termCount
  /-- The polynomial has a constant term. -/
  | constantTerm
  /-- A coefficient does not occur in group elements. -/
  | coefficientRange
  /-- The affine part acts on another number of bits. -/
  | affineSize
  /-- The linear part has no inverse. -/
  | singular
  /-- A term is addressed that a table is too short for. -/
  | missingTerm
  /-- No circuit has this phase polynomial. -/
  | notSynthesizable
  deriving DecidableEq, Repr

/-- The wording of a defect. -/
def Defect.message : Defect → String
  | termCount => "phase polynomial has the wrong number of terms"
  | constantTerm => "phase polynomial has a nonzero constant term"
  | coefficientRange => "phase polynomial coefficient outside the group range"
  | affineSize => "affine function has the wrong size"
  | singular => "linear part is not invertible over GF(2)"
  | missingTerm => "polynomial term tables do not match its variable count"
  | notSynthesizable => "phase polynomial cannot be synthesized"

/-- A request that the library does not support. -/
inductive Unsupported where
  /-- A gate is given the wrong number of qubits. -/
  | arity (gate : Gate) (qubits : List Nat)
  /-- A gate is given the same qubit twice. -/
  | repeatedQubit (gate : Gate) (qubits : List Nat)
  /-- A word in the place of a gate's name is no gate's name. -/
  | unknownGate (word : List Char) (line : Nat)
  /-- Composition on some of the qubits only, or in another order. -/
  | partialComposition (qubits : List Nat) (numQubits : Nat)
  deriving DecidableEq

/-- The wording of an unsupported request. -/
def Unsupported.message : Unsupported → List Char
  | arity gate qubits =>
      gate.name ++ " acts on ".toList ++ Text.decimal gate.arity ++ " qubit(s), got ".toList ++
        Text.decimalList qubits
  | repeatedQubit gate qubits =>
      gate.name ++ " on repeated qubits ".toList ++ Text.decimalList qubits
  | unknownGate word line =>
      "unknown gate ".toList ++ Text.quoted word ++ " on line ".toList ++ Text.decimal line
  | partialComposition qubits numQubits =>
      "composition on qubits ".toList ++ Text.decimalList qubits ++ " of a ".toList ++
        Text.decimal numQubits ++ "-qubit element".toList

/-- What is wrong with a line of circuit text. -/
inductive LineFault where
  /-- There is no line at all. -/
  | missingHeader
  /-- The first line does not say the number of qubits. -/
  | badHeader (line : List Char)
  /-- A word in the place of an index is none. -/
  | badIndex (word : List Char)
  deriving DecidableEq

/-- The wording of a fault in a line. -/
def LineFault.message : LineFault → List Char
  | missingHeader => "missing `qubits` header".toList
  | badHeader line => "expected `qubits N`, found ".toList ++ Text.quoted line
  | badIndex word => Text.quoted word ++ " is not a qubit index".toList

/-- The cause of an operation's failure. -/
inductive Failure where
  /-- The caller broke the contract of the operation. -/
  | brokenContract
  /-- Two sizes that have to agree differ. -/
  | dimensionMismatch (expected found : Nat)
  /-- A qubit index is not below the number of qubits. -/
  | qubitIndex (index numQubits : Nat)
  /-- The parts do not form a group element. -/
  | invalidElement (defect : Defect)
  /-- The request is not supported. -/
  | unsupported (request : Unsupported)
  /-- A list of indices names no term: it is too long, or an index is repeated. -/
  | invalidTerm (indices : List Nat)
  /-- A line of circuit text cannot be read. -/
  | parse (line : Nat) (fault : LineFault)
  /-- A substitution leaves a term of too high degree. -/
  | degreeOverflow (degree : Nat) (coefficient : Z8)
  deriving DecidableEq

/-- The wording of a failure. -/
def Failure.message : Failure → List Char
  | brokenContract => "broken contract".toList
  | dimensionMismatch expected found =>
      "dimension mismatch: expected ".toList ++ Text.decimal expected ++ " qubits, found ".toList ++
        Text.decimal found
  | qubitIndex index numQubits =>
      "qubit index ".toList ++ Text.decimal index ++ " is out of bounds for ".toList ++
        Text.decimal numQubits ++ " qubits".toList
  | invalidElement defect =>
      "invalid CNOT-dihedral element: ".toList ++ defect.message.toList
  | unsupported request => "unsupported operation: ".toList ++ request.message
  | invalidTerm indices =>
      "invalid polynomial term ".toList ++ Text.decimalList indices ++
        ": expected at most 3 distinct variables".toList
  | parse line fault =>
      "cannot parse circuit line ".toList ++ Text.decimal line ++ ": ".toList ++ fault.message
  | degreeOverflow degree coefficient =>
      "substitution produced a degree ".toList ++ Text.decimal degree ++
        " monomial with nonzero coefficient ".toList ++ Text.decimal coefficient.val

/-- A value, or the cause of its absence. -/
abbrev Result (α : Type) := Except Failure α

namespace Result

/-- The value, whose absence means that a contract was broken. -/
def ofOption {α : Type} : Option α → Result α
  | some a => .ok a
  | none => .error .brokenContract

/-- Succeeds exactly if the condition holds. -/
def require (condition : Prop) [Decidable condition] (failure : Failure) : Result Unit :=
  if condition then .ok () else .error failure

/-- Succeeds exactly if the two sizes agree. -/
def sameSize (expected found : Nat) : Result Unit :=
  require (expected = found) (.dimensionMismatch expected found)

/-- Succeeds exactly if all indices are below the number of qubits; otherwise the first that is
not is reported. -/
def indicesBelow (numQubits : Nat) (indices : List Nat) : Result Unit :=
  match indices.find? (numQubits ≤ ·) with
  | some index => .error (.qubitIndex index numQubits)
  | none => .ok ()

end Result

end AffinePhase
