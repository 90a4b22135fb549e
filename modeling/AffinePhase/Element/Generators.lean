import AffinePhase.Circuit.Basic
import AffinePhase.Element.Basic
import AffinePhase.Polynomial.Arithmetic

/-!
# Applying gates to elements

An element is multiplied by a gate from the left, which means that the gate acts after it. Three
elementary moves suffice: flipping an output bit, adding one output bit into another, and a phase
on an output bit. Output bit `q` carries the parity of the input bits in row `q` of the linear
part, flipped if the shift is set there, so the phase `ωᵏ` on it adds `k` times that parity to
the polynomial, or `-k` times if it is flipped, up to global phase. Every gate is a word in these
moves, again up to global phase.

## Main definitions

* `Move`, `Element.move?`: the elementary moves and their effect.
* `Gate.moves`: the word of a gate.
* `Element.leftMul`: multiplication by a gate.
* `Element.ofCircuit`: the gates of a circuit applied to the identity.
-/

namespace AffinePhase

/-- An elementary change of the output bits. -/
inductive Move where
  /-- Flips bit `q`. -/
  | flip (q : Nat)
  /-- Adds bit `control` into bit `target`. -/
  | add (control target : Nat)
  /-- Multiplies by `ωᵏ` where bit `q` is set. -/
  | phase (k : Z8) (q : Nat)
  deriving DecidableEq

/-- The moves that make up a gate, first move first. -/
def Gate.moves (gate : Gate) (qubits : List Nat) : List Move :=
  match gate, qubits with
  | .x, [q] => [.flip q]
  | .y, [q] => [.flip q, .phase 4 q]
  | .controlledX, [control, target] => [.add control target]
  | .controlledZ, [a, b] =>
      [.phase 7 b, .phase 7 a, .add b a, .phase 2 a, .add b a, .phase 7 b, .phase 7 a]
  | .swap, [a, b] => [.add a b, .add b a, .add a b]
  | gate, [q] =>
      match gate.phasePower with
      | some k => [.phase k q]
      | none => []
  | _, _ => []

namespace Element

/-- The element followed by a phase on output bit `q`. -/
def phase? (e : Element) (k : Z8) (q : Nat) : Option Element := do
  let flipped ← e.affine.shift.get? q
  let row ← e.affine.linear.row? q
  some { e with poly := e.poly.addParity row.support (if flipped then -k else k) }

/-- The element followed by a move, `none` if there is no such output bit. -/
def move? (e : Element) : Move → Option Element
  | .flip q => (e.affine.flipOutput? q).map fun f => { e with affine := f }
  | .add c t => (e.affine.addOutput? c t).map fun f => { e with affine := f }
  | .phase k q => e.phase? k q

/-- The element followed by several moves. -/
def moves? (e : Element) (ms : List Move) : Option Element :=
  ms.foldlM move? e

/-- Multiplies by a gate from the left, global phase being dropped. -/
def leftMul (e : Element) (gate : Gate) (qubits : List Nat) : Result Element := do
  let _ ← Instruction.of gate qubits e.numQubits
  Result.ofOption (e.moves? (gate.moves qubits))

/-- Multiplies by a CNOT from the left. -/
def leftMulAdd (e : Element) (control target : Nat) : Result Element :=
  e.leftMul .controlledX [control, target]

/-- Multiplies by `diag(1, ωᵏ)` from the left. -/
def leftMulPhase (e : Element) (k : Z8) (q : Nat) : Result Element := do
  Result.indicesBelow e.numQubits [q]
  Result.ofOption (e.move? (.phase k q))

/-- Multiplies by `X` from the left. -/
def leftMulFlip (e : Element) (q : Nat) : Result Element := do
  Result.indicesBelow e.numQubits [q]
  Result.ofOption (e.move? (.flip q))

/-- The gates of a circuit applied to the identity in order. -/
def ofCircuit (c : Circuit) : Result Element :=
  c.instructions.foldlM (fun e a => e.leftMul a.gate a.qubits) (identity c.numQubits)

end Element

end AffinePhase
