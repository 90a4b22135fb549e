import AffinePhase.BitMatrix.Text
import AffinePhase.Element.Text
import AffinePhase.Circuit.Text
import AffinePhase.Circuit.Basic
import AffinePhase.Element.Composition
import AffinePhase.Element.Synthesis
import AffinePhase.Random
import AffinePhase.Text.Floating
import AffinePhase.Amplitude.Basic
import AffinePhase.Amplitude.Matrix
import AffinePhase.Exchange.Datum
import AffinePhase.Exchange.Reading
import AffinePhase.Storage
import AffinePhase.Proofs.BitMatrix.Linear
import AffinePhase.Proofs.BitMatrix.Elimination
import AffinePhase.Proofs.BitMatrix.Inverse
import AffinePhase.Proofs.BitMatrix.Block
import AffinePhase.Proofs.BitMatrix.RowSpace
import AffinePhase.Proofs.BitMatrix.Echelon
import AffinePhase.Proofs.BitMatrix.Rank
import AffinePhase.Proofs.BitMatrix.Product
import AffinePhase.Proofs.BitMatrix.Diagonal
import AffinePhase.Proofs.AffineMap
import AffinePhase.Proofs.AffineMap.Reversible
import AffinePhase.Proofs.Polynomial.Rank
import AffinePhase.Proofs.Polynomial.Sparse
import AffinePhase.Proofs.Polynomial.Table
import AffinePhase.Proofs.Polynomial.Arithmetic
import AffinePhase.Proofs.Polynomial.Parity
import AffinePhase.Proofs.Polynomial.Substitution
import AffinePhase.Proofs.Polynomial.Expansion
import AffinePhase.Proofs.Circuit.BasisMap
import AffinePhase.Proofs.Circuit.Action
import AffinePhase.Proofs.Element.Valid
import AffinePhase.Proofs.Element.Action
import AffinePhase.Proofs.Element.Composition
import AffinePhase.Proofs.Element.Generators
import AffinePhase.Proofs.Element.Gates
import AffinePhase.Proofs.Element.Reduction
import AffinePhase.Proofs.Element.Synthesis
import AffinePhase.Proofs.Element.Adjoint
import AffinePhase.Proofs.Element.ExactPhase
import AffinePhase.Proofs.Element.History
import AffinePhase.Proofs.Element.Mutation
import AffinePhase.Proofs.Circuit.Registers
import AffinePhase.Proofs.Element.Tensor
import AffinePhase.Proofs.Element.Involution
import AffinePhase.Proofs.Text.Words
import AffinePhase.Proofs.Circuit.Text
import AffinePhase.Proofs.Storage
import AffinePhase.Proofs.Exchange
import AffinePhase.Proofs.Circuit.Transforms
import AffinePhase.Proofs.Text.Lines
import AffinePhase.Proofs.Circuit.Reachable
import AffinePhase.Proofs.Circuit.WellFormed
import AffinePhase.Proofs.BitMatrix.Obtained
import AffinePhase.Proofs.Polynomial.Values
import AffinePhase.Polynomial.Bytes
import AffinePhase.Proofs.Element.Validation
import AffinePhase.Proofs.Polynomial.Bytes
import AffinePhase.Proofs.BitMatrix.Text
import AffinePhase.Proofs.Word
import AffinePhase.Proofs.BitVector.Operations
import AffinePhase.Proofs.Element.Phase
import AffinePhase.Proofs.Text.Decoding
import AffinePhase.Proofs.Polynomial.Text
import AffinePhase.Proofs.Element.Text
import AffinePhase.Proofs.Storage.Rank
import AffinePhase.Polynomial.TermMap
import AffinePhase.Proofs.Polynomial.TermMap
import AffinePhase.Proofs.Polynomial.TermMap.Evaluation
