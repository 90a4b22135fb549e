import AffinePhase.Residue

/-!
# The generator gates

The gates that circuits are made of: the identity, the three Pauli gates, the diagonal gates
`T = diag(1, ω)`, `S = T²` and their inverses with `ω = e^{iπ/4}`, and three gates on two qubits.
Besides its name and code a gate has an inverse, a complex conjugate and a transpose among the
gates, the last two up to global phase.

## Main definitions

* `Gate.arity`, `Gate.inverse`, `Gate.conjugate`, `Gate.transpose`.
* `Gate.phasePower`: the exponent `k` of a gate `diag(1, ωᵏ)`.
* `Gate.phaseGates`: the shortest word of gates equal to `diag(1, ωᵏ)`.
* `Gate.ofCode?`, `Gate.ofName?`, `Gate.parse?`: the gate of a code, a name, a name in any case.
-/

namespace AffinePhase

/-- A generator gate. -/
inductive Gate where
  | i
  | x
  | y
  | z
  | t
  | tInv
  | s
  | sInv
  | controlledX
  | controlledZ
  | swap
  deriving DecidableEq, Repr

namespace Gate

/-- All gates, in the order of their codes. -/
def all : List Gate :=
  [i, x, y, z, t, tInv, s, sInv, controlledX, controlledZ, swap]

/-- The name of a gate in texts. -/
def name : Gate → List Char
  | i => "I".toList
  | x => "X".toList
  | y => "Y".toList
  | z => "Z".toList
  | t => "T".toList
  | tInv => "TInv".toList
  | s => "S".toList
  | sInv => "SInv".toList
  | controlledX => "ControlledX".toList
  | controlledZ => "ControlledZ".toList
  | swap => "Swap".toList

/-- The code of a gate, its place among all gates. -/
def code : Gate → Nat
  | i => 0
  | x => 1
  | y => 2
  | z => 3
  | t => 4
  | tInv => 5
  | s => 6
  | sInv => 7
  | controlledX => 8
  | controlledZ => 9
  | swap => 10

/-- Gates are ordered by their codes. -/
def compare (g h : Gate) : Ordering :=
  Ord.compare g.code h.code

/-- The gate with the given code. -/
def ofCode? (code : Nat) : Option Gate :=
  all[code]?

/-- The gate with exactly the given name. -/
def ofName? (text : List Char) : Option Gate :=
  all.find? fun g => g.name == text

/-- The gate whose name is the given text up to the case of ASCII letters. No other character has
a letter of a gate's name as its lower-case form. -/
def parse? (text : List Char) : Option Gate :=
  all.find? fun g => g.name.map Char.toLower == text.map Char.toLower

/-- The number of qubits that a gate acts on. -/
def arity : Gate → Nat
  | controlledX | controlledZ | swap => 2
  | _ => 1

/-- The inverse gate. -/
def inverse : Gate → Gate
  | t => tInv
  | tInv => t
  | s => sInv
  | sInv => s
  | g => g

/-- The gate of the complex conjugate matrix, up to global phase. -/
def conjugate (g : Gate) : Gate :=
  g.inverse

/-- The gate of the transposed matrix, up to global phase: all these matrices are symmetric. -/
def transpose (g : Gate) : Gate :=
  g

/-- The exponent `k` of a gate `diag(1, ωᵏ)` on one qubit. -/
def phasePower : Gate → Option Z8
  | t => some 1
  | s => some 2
  | z => some 4
  | sInv => some 6
  | tInv => some 7
  | _ => none

/-- The shortest word of gates equal to `diag(1, ωᵏ)`. -/
def phaseGates (k : Z8) : List Gate :=
  match k with
  | 0 => []
  | 1 => [t]
  | 2 => [s]
  | 3 => [s, t]
  | 4 => [z]
  | 5 => [z, t]
  | 6 => [sInv]
  | 7 => [tInv]

/-- The gate of a gate's code is this gate. -/
theorem ofCode?_code (g : Gate) : ofCode? g.code = some g := by
  cases g <;> rfl

/-- The gate of a gate's name is this gate. -/
theorem ofName?_name (g : Gate) : ofName? g.name = some g := by
  cases g <;> decide

/-- A gate is read from its own name. -/
theorem parse?_name (g : Gate) : parse? g.name = some g := by
  cases g <;> decide

/-- The inverse acts on as many qubits. -/
@[simp] theorem arity_inverse (g : Gate) : g.inverse.arity = g.arity := by
  cases g <;> rfl

/-- The inverse of the inverse is the gate. -/
@[simp] theorem inverse_inverse (g : Gate) : g.inverse.inverse = g := by
  cases g <;> rfl

end Gate

end AffinePhase
