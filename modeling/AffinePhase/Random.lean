import AffinePhase.BitMatrix.Elimination
import AffinePhase.Element.Generators

/-!
# Drawing from a source of random words

Randomness comes from a finite list of 64-bit words, each used once and in order. A `Draw` is a
computation that takes words from the front of the list and fails when it has run out. Numbers
below a bound are drawn without bias: the word is multiplied by the bound, the high half of the
product is the number, and a product whose low half is too large is rejected.

A random element is the identity followed by `4n + 4` gates chosen uniformly among those that fit
on `n` qubits, the identity gate left out, each on qubits chosen at random.

## Main definitions

* `Draw.below64`, `Draw.below32`: a number below a bound, from words or from their low halves.
* `Draw.sample`: distinct numbers below a bound.
* `BitVector.random`, `BitMatrix.random`, `BitMatrix.randomInvertible`.
* `Element.random`: a random element.
-/

namespace AffinePhase

/-! ### Numbers -/

/-- A computation that takes words from a source and fails when they have run out. -/
abbrev Draw (α : Type) := StateT (List Word) Option α

namespace Draw

/-- The largest low half of a product that is accepted when drawing below `range` from numbers of
`width` bits: the greatest multiple of `range` by a power of two that fits, less one. -/
def zone (width range : Nat) : Nat :=
  (range <<< (width - 1 - Nat.log2 range)) - 1

/-- A number below `range`, read from successive words by `digits`, which has `width` bits. -/
def below (width : Nat) (digits : Word → Nat) (range : Nat) : Draw Nat
  | [] => none
  | w :: ws =>
      let product := digits w * range
      if product % (1 <<< width) ≤ zone width range then
        some (product >>> width, ws)
      else
        below width digits range ws

/-- A number below `range`, from whole words. -/
def below64 (range : Nat) : Draw Nat :=
  below 64 UInt64.toNat range

/-- A number below `range`, from the low halves of words. -/
def below32 (range : Nat) : Draw Nat :=
  below 32 (fun w => w.toNat % (1 <<< 32)) range

/-- Draws one more number into distinct numbers below `j`, making them distinct numbers at most
`j`: a number drawn before makes room for `j` itself in front of it. -/
def extendSample (drawn : List Nat) (j : Nat) : Draw (List Nat) := do
  let t ← below32 (j + 1)
  match drawn.idxOf? t with
  | some position => pure (drawn.insertIdx position j)
  | none => pure (drawn ++ [t])

/-- Distinct numbers below `n`, `amount` of them. -/
def sample (n amount : Nat) : Draw (List Nat) :=
  ((List.range amount).map (n - amount + ·)).foldlM extendSample []

end Draw

/-! ### Vectors and matrices -/

/-- A vector of random bits: one word for each packed word. -/
def BitVector.random (length : Nat) : Draw BitVector := fun source =>
  (BitVector.ofWords? length (source.take (wordCount length))).map fun v =>
    (v, source.drop (wordCount length))

/-- Vectors of random bits, one after the other. -/
def BitVector.randomList (length : Nat) : Nat → Draw (List BitVector)
  | 0 => pure []
  | count + 1 => do
      let first ← BitVector.random length
      let others ← randomList length count
      pure (first :: others)

/-- A matrix of random bits, drawn row after row. -/
def BitMatrix.random (rowCount columns : Nat) : Draw BitMatrix := do
  let rows ← BitVector.randomList columns rowCount
  pure ⟨columns, rows⟩

/-- A random invertible matrix: whole matrices are drawn until one is invertible. -/
def BitMatrix.randomInvertible (n : Nat) (source : List Word) : Option (BitMatrix × List Word) :=
  match BitMatrix.random n n source with
  | none => none
  | some (candidate, rest) =>
      if candidate.isInvertible? = some true then
        some (candidate, rest)
      else if rest.length < source.length then
        BitMatrix.randomInvertible n rest
      else
        none
termination_by source.length

/-! ### Elements -/

namespace Element

/-- The gates that a random element on `n` qubits is made of. -/
def randomGates (n : Nat) : List Gate :=
  Gate.all.filter fun g => g ≠ .i && g.arity ≤ n

/-- Applies one gate, chosen among `gates`, on random qubits. -/
def randomStep (gates : List Gate) (e : Element) : Draw Element := do
  let choice ← Draw.below64 gates.length
  match gates[choice]? with
  | none => failure
  | some gate =>
      let qubits ← Draw.sample e.numQubits gate.arity
      StateT.lift (e.moves? (gate.moves qubits))

/-- A random element on `n` qubits. -/
def random (n : Nat) : Draw Element :=
  let gates := randomGates n
  if gates.isEmpty then
    pure (identity n)
  else
    (List.range (4 * n + 4)).foldlM (fun e _ => randomStep gates e) (identity n)

end Element

end AffinePhase
