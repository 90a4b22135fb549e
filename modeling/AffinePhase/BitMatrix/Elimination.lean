import AffinePhase.BitMatrix.Basic

/-!
# Gauss-Jordan elimination over the field with two elements

The reduced row echelon form is computed by one sweep over the columns. The sweep keeps the rows
and the *profile*, the list of columns that have a pivot so far; the number of pivots is the row
at which the next pivot is placed. At each column the first row from there on with its bit set is
moved up and added into every other row whose bit is set. Rank, invertibility and the inverse
are read off the result.

A sweep over a rectangular matrix never fails. On an uneven matrix it answers `none` when it
reads a bit that is not there or adds rows of different lengths.

## Main definitions

* `Sweep.step?`, `Sweep.run?`: one column of the sweep, and all of them.
* `BitMatrix.echelonize?`: the reduced matrix and its profile.
* `BitMatrix.rank?`, `BitMatrix.isInvertible?`, `BitMatrix.inverse?`.
-/

namespace AffinePhase

/-- The state of an elimination: the rows so far, and the columns that have a pivot, in order. -/
structure Sweep where
  /-- The rows so far. Row `k` of the profile's length many is the pivot row of column `k` of the
  profile. -/
  rows : List BitVector
  /-- The columns that have a pivot. -/
  profile : List Nat
  deriving DecidableEq

namespace Sweep

/-- The index of the first of some rows with bit `column` set, counted from `start`; the inner
`none` says that there is none, the outer one that a row has no such bit. -/
def firstSet? (column : Nat) : List BitVector → Nat → Option (Option Nat)
  | [], _ => some none
  | row :: rows, start => do
      if ← row.get? column then
        some (some start)
      else
        firstSet? column rows (start + 1)

/-- Adds the pivot row into a row whose bit `column` is set. -/
def clearBit? (pivot : BitVector) (column : Nat) (row : BitVector) : Option BitVector := do
  if ← row.get? column then
    row.xor? pivot
  else
    some row

/-- Clears bit `column` of every row but the pivot row by adding the pivot row into it. -/
def clearColumn? (rows : List BitVector) (pivot column : Nat) : Option (List BitVector) := do
  let source ← rows[pivot]?
  rows.zipIdx.mapM fun (row, i) => if i = pivot then some row else clearBit? source column row

/-- One column of the sweep: nothing changes if no row without a pivot has its bit set. -/
def step? (state : Sweep) (column : Nat) : Option Sweep := do
  let next := state.profile.length
  match ← firstSet? column (state.rows.drop next) next with
  | none => some state
  | some found =>
      let swapped ← BitMatrix.exchange? state.rows found next
      let cleared ← clearColumn? swapped next column
      some ⟨cleared, state.profile ++ [column]⟩

/-- Sweeps `count` columns from `column` on, stopping once every row has a pivot. -/
def run? : Nat → Nat → Sweep → Option Sweep
  | 0, _, state => some state
  | count + 1, column, state =>
      if state.profile.length = state.rows.length then
        some state
      else do
        let next ← state.step? column
        run? count (column + 1) next

end Sweep

namespace BitMatrix

/-- The reduced row echelon form and the profile, the pivot column of each nonzero row. -/
def echelonize? (m : BitMatrix) : Option (BitMatrix × List Nat) := do
  let final ← Sweep.run? m.columns 0 ⟨m.rows, []⟩
  some ({ m with rows := final.rows }, final.profile)

/-- The dimension of the row space. -/
def rank? (m : BitMatrix) : Option Nat :=
  m.echelonize?.map fun (_, profile) => profile.length

/-- Whether the matrix is square and of full rank. A matrix that is not square is not swept. -/
def isInvertible? (m : BitMatrix) : Option Bool :=
  if m.isSquare then m.rank?.map (· == m.columns) else some false

/-- The rows of `m`, each followed by the row of the identity matrix with the same index. -/
def besideIdentity (m : BitMatrix) : List BitVector :=
  List.zipWith BitVector.append m.rows (identity m.columns).rows

/-- The bits of the columns from `start` on, `count` of them. -/
def columnsFrom (m : BitMatrix) (start count : Nat) : BitMatrix :=
  ⟨count, m.rows.map fun row =>
    BitVector.ofList ((List.range count).map fun j => row.bit (start + j))⟩

/-- The inverse, from the echelon form of the matrix beside the identity. The inner `none` says
that there is none, the outer one that the matrix is square but not rectangular. -/
def inverse? (m : BitMatrix) : Option (Option BitMatrix) :=
  if m.isSquare then do
    let n := m.columns
    let augmented ← ofRows? m.besideIdentity (2 * n)
    let (reduced, profile) ← augmented.echelonize?
    if (profile.filter (· < n)).length = n then
      some (some (reduced.columnsFrom n n))
    else
      some none
  else
    some none

end BitMatrix

end AffinePhase
