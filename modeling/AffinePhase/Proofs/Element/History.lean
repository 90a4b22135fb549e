import AffinePhase.Proofs.Element.Adjoint

/-!
# Histories of calls

Elements are built from identities by calls: gates are applied, elements are multiplied, put side by
side, inverted, conjugated and transposed, and the second operand of a call has been built in the
same way. Such a history is a tree. A call that fails leaves the element as it was.

What one call does is said once for each call: it succeeds exactly if its operands fit, which can be
read off their sizes, and then gives a group element of a known size; otherwise it fails with a
report, never by a broken contract. It follows for every history that its element is valid and that
every further call whose operands fit succeeds.

## Main definitions

* `Operation`, `Combination`: the calls on one element and on two.
* `History`, `History.element`: a tree of calls, and the element that it leads to.
* `IsSettled`: the outcome of a call is decided by whether its operands fit.
* `Element.HasGroupParts`: the conditions on the parts of a valid element, in numbers.

## Main results

* `Element.InGroup.settled_operation`, `Element.InGroup.settled_combination`: what one call does.
* `History.element_inGroup`: what a whole history preserves.
* `History.element_valid`: every element that is obtained is valid, and fitting calls succeed.
-/

namespace AffinePhase

variable {e a b : Element} {n m : ℕ}

/-! ### Calls -/

/-- A call on one element. -/
inductive Operation where
  /-- Multiplication by a gate. -/
  | leftMul (gate : Gate) (qubits : List ℕ)
  /-- Multiplication by a CNOT gate. -/
  | leftMulAdd (control target : ℕ)
  /-- Multiplication by a phase gate, whose power is any byte. -/
  | leftMulPhase (power : UInt8) (q : ℕ)
  /-- Multiplication by an `X` gate. -/
  | leftMulFlip (q : ℕ)
  /-- The inverse. -/
  | adjoint
  /-- The complex conjugate. -/
  | conjugate
  /-- The transpose. -/
  | transpose
  deriving DecidableEq

/-- A call on two elements. -/
inductive Combination where
  /-- The product in which the other element acts first. -/
  | rightMultiply
  /-- The product in which the other element acts second. -/
  | leftMultiply
  /-- The product in either order. -/
  | compose (front : Bool)
  /-- The product in either order, on listed qubits. -/
  | composeOn (qubits : List ℕ) (front : Bool)
  /-- The other element on further qubits. -/
  | tensor
  /-- The other element on the first qubits. -/
  | expand
  deriving DecidableEq

namespace Operation

/-- The outcome of the call. -/
def apply (e : Element) : Operation → Result Element
  | leftMul gate qubits => e.leftMul gate qubits
  | leftMulAdd control target => e.leftMulAdd control target
  | leftMulPhase power q => e.leftMulPhase (Z8.ofByte power) q
  | leftMulFlip q => e.leftMulFlip q
  | adjoint => e.adjoint
  | conjugate => e.conjugate
  | transpose => e.transpose

/-- The call makes sense on `n` qubits. -/
def Fits (n : ℕ) : Operation → Prop
  | leftMul gate qubits => Instruction.ActsOn ⟨gate, qubits⟩ n
  | leftMulAdd control target => control < n ∧ target < n ∧ control ≠ target
  | leftMulPhase _ q => q < n
  | leftMulFlip q => q < n
  | adjoint => True
  | conjugate => True
  | transpose => True

instance (n : ℕ) : DecidablePred (Fits n)
  | leftMul gate qubits => inferInstanceAs
      (Decidable (qubits.length = gate.arity ∧ (∀ q ∈ qubits, q < n) ∧ qubits.Nodup))
  | leftMulAdd control target => inferInstanceAs
      (Decidable (control < n ∧ target < n ∧ control ≠ target))
  | leftMulPhase _ q => inferInstanceAs (Decidable (q < n))
  | leftMulFlip q => inferInstanceAs (Decidable (q < n))
  | adjoint => inferInstanceAs (Decidable True)
  | conjugate => inferInstanceAs (Decidable True)
  | transpose => inferInstanceAs (Decidable True)

end Operation

namespace Combination

/-- The outcome of the call. -/
def apply (e other : Element) : Combination → Result Element
  | rightMultiply => e.rightMultiply other
  | leftMultiply => e.leftMultiply other
  | compose front => e.compose other front
  | composeOn qubits front => e.composeOn other qubits front
  | tensor => Result.ofOption (e.tensor? other)
  | expand => Result.ofOption (other.tensor? e)

/-- The call makes sense on an element on `n` and another one on `m` qubits. -/
def Fits (n m : ℕ) : Combination → Prop
  | rightMultiply => n = m
  | leftMultiply => n = m
  | compose _ => n = m
  | composeOn qubits _ => qubits = List.range n ∧ n = m
  | tensor => True
  | expand => True

instance (n m : ℕ) : DecidablePred (Fits n m)
  | rightMultiply => inferInstanceAs (Decidable (n = m))
  | leftMultiply => inferInstanceAs (Decidable (n = m))
  | compose _ => inferInstanceAs (Decidable (n = m))
  | composeOn qubits _ => inferInstanceAs (Decidable (qubits = List.range n ∧ n = m))
  | tensor => inferInstanceAs (Decidable True)
  | expand => inferInstanceAs (Decidable True)

/-- The number of qubits of the outcome. -/
def size (n m : ℕ) : Combination → ℕ
  | rightMultiply => n
  | leftMultiply => n
  | compose _ => n
  | composeOn _ _ => n
  | tensor => n + m
  | expand => m + n

end Combination

/-! ### Histories -/

/-- How an element has been obtained. -/
inductive History where
  /-- The identity on `n` qubits. -/
  | identity (n : ℕ)
  /-- A call on the element obtained so far. -/
  | call (h : History) (op : Operation)
  /-- A call with another element that has a history of its own. -/
  | combine (h other : History) (c : Combination)

/-- The element after a call: a call that fails leaves it as it was. -/
def Element.after (e : Element) : Result Element → Element
  | .ok e' => e'
  | .error _ => e

namespace History

/-- The element that the calls lead to. -/
def element : History → Element
  | identity n => .identity n
  | call h op => h.element.after (op.apply h.element)
  | combine h other c => h.element.after (c.apply h.element other.element)

/-- The number of qubits, as far as the calls that fit change it. -/
def size : History → ℕ
  | identity n => n
  | call h _ => h.size
  | combine h other c => if c.Fits h.size other.size then c.size h.size other.size else h.size

end History

/-! ### The outcome of one call -/

/-- The outcome of a call is settled by whether its operands fit: if so it is a group element on
`n` qubits, and otherwise a report of the reason. -/
structure IsSettled (outcome : Result Element) (fits : Prop) (n : ℕ) : Prop where
  /-- With operands that fit the call succeeds. -/
  succeeds : fits → ∃ e, outcome = .ok e ∧ e.InGroup n
  /-- Otherwise it is refused, and this is not a broken contract. -/
  refused : ¬ fits → ∃ failure, outcome = .error failure ∧ failure ≠ .brokenContract

/-- A call that always fits is settled by its outcome. -/
theorem IsSettled.of_eq_ok {outcome : Result Element} (he : outcome = .ok e) (h : e.InGroup n) :
    IsSettled outcome True n :=
  ⟨fun _ => ⟨e, he, h⟩, fun hnot => absurd trivial hnot⟩

/-- A settled call succeeds exactly if its operands fit. -/
theorem IsSettled.exists_iff {outcome : Result Element} {fits : Prop}
    (h : IsSettled outcome fits n) : (∃ e, outcome = .ok e) ↔ fits := by
  constructor
  · rintro ⟨e, he⟩
    by_contra hnot
    obtain ⟨failure, hfailure, -⟩ := h.refused hnot
    cases he.symm.trans hfailure
  · intro hfits
    obtain ⟨e, he, -⟩ := h.succeeds hfits
    exact ⟨e, he⟩

/-- A settled call does not break a contract. -/
theorem IsSettled.ne_brokenContract {outcome : Result Element} {fits : Prop}
    (h : IsSettled outcome fits n) : outcome ≠ .error .brokenContract := by
  intro hbroken
  by_cases hfits : fits
  · obtain ⟨e, he, -⟩ := h.succeeds hfits
    cases he.symm.trans hbroken
  · obtain ⟨failure, hfailure, hne⟩ := h.refused hfits
    exact hne (Except.error.inj (hfailure.symm.trans hbroken))

namespace Element

/-- An instruction that does not act on the qubits is refused. -/
theorem InGroup.settled_leftMul (h : e.InGroup n) (gate : Gate) (qubits : List ℕ) :
    IsSettled (e.leftMul gate qubits) (Instruction.ActsOn ⟨gate, qubits⟩ n) n := by
  constructor
  · intro hacts
    obtain ⟨e', he', hgroup, -⟩ := h.exists_leftMul hacts
    exact ⟨e', he', hgroup⟩
  · intro hnot
    -- the check accepts exactly the instructions that act on the qubits, so it must have failed
    cases hof : Instruction.of gate qubits n with
    | ok i =>
        obtain ⟨rfl, hacts⟩ := Instruction.of_eq_ok_iff.mp hof
        exact absurd hacts hnot
    | error failure =>
        refine ⟨failure, ?_, (Instruction.of_eq_error_iff.mp hof).ne_brokenContract⟩
        rw [leftMul, h.numQubits_eq, hof, Result.error_bind]

/-- A move of one output bit is refused if there is no such bit. -/
theorem InGroup.settled_move (h : e.InGroup n) {q : ℕ} {move : Move}
    (hmove : q < n → move.ActsOn n) :
    IsSettled (Result.indicesBelow e.numQubits [q] >>= fun _ => Result.ofOption (e.move? move))
      (q < n) n := by
  rw [h.numQubits_eq]
  constructor
  · intro hq
    obtain ⟨e', he', hgroup, -⟩ := h.exists_move? (hmove hq)
    have hindex : Result.indicesBelow n [q] = .ok () :=
      Result.indicesBelow_eq_ok.mpr (List.forall_mem_singleton.mpr hq)
    refine ⟨e', ?_, hgroup⟩
    rw [hindex, Result.ok_bind, he', Result.ofOption_some]
  · intro hq
    cases hindex : Result.indicesBelow n [q] with
    | ok u => exact absurd (Result.indicesBelow_eq_ok.mp hindex q List.mem_cons_self) hq
    | error failure =>
        obtain ⟨-, i, -, -, -, -, rfl⟩ := Result.indicesBelow_eq_error.mp hindex
        exact ⟨_, rfl, by simp⟩

/-- **What a call on one element does.** -/
theorem InGroup.settled_operation (h : e.InGroup n) (op : Operation) :
    IsSettled (op.apply e) (op.Fits n) n := by
  cases op with
  | leftMul gate qubits => exact h.settled_leftMul gate qubits
  | leftMulAdd control target =>
      have hacts : Instruction.ActsOn ⟨.controlledX, [control, target]⟩ n ↔
          control < n ∧ target < n ∧ control ≠ target := by
        simp [Instruction.ActsOn, Gate.arity, and_assoc]
      have hsettled := h.settled_leftMul .controlledX [control, target]
      rwa [hacts] at hsettled
  | leftMulPhase power q =>
      have hacts : q < n → Move.ActsOn n (.phase (Z8.ofByte power) q) := id
      exact h.settled_move hacts
  | leftMulFlip q =>
      have hacts : q < n → Move.ActsOn n (.flip q) := id
      exact h.settled_move hacts
  | adjoint =>
      obtain ⟨d, hd, hgroup, -, -⟩ := h.exists_adjoint
      exact .of_eq_ok hd hgroup
  | conjugate => exact .of_eq_ok h.conjugate_eq_neg h.neg.1
  | transpose =>
      obtain ⟨c, -, hn, hact⟩ := h.exists_circuit
      obtain ⟨t, ht, hgroup, -⟩ := exists_ofCircuit (c := c.transpose) hn
      exact .of_eq_ok ((h.transpose_eq hn hact).trans ht) hgroup

/-- A product is refused if the numbers of qubits differ. -/
theorem InGroup.settled_product (ha : a.InGroup n) (hb : b.InGroup m) :
    IsSettled (product a b) (n = m) n := by
  constructor
  · rintro rfl
    obtain ⟨c, hc, hgroup, -⟩ := exists_product ha hb
    exact ⟨c, hc, hgroup⟩
  · intro hne
    refine ⟨.dimensionMismatch n m, ?_, by simp⟩
    rw [product, ha.numQubits_eq, hb.numQubits_eq, Result.sameSize, Result.require, if_neg hne]
    rfl

/-- The product in the other order. -/
theorem InGroup.settled_product_swap (ha : a.InGroup n) (hb : b.InGroup m) :
    IsSettled (product b a) (n = m) n := by
  constructor
  · rintro rfl
    exact (hb.settled_product ha).succeeds rfl
  · exact fun hne => (hb.settled_product ha).refused (Ne.symm hne)

/-- Composition succeeds exactly if the numbers of qubits agree. -/
theorem InGroup.settled_compose (ha : a.InGroup n) (hb : b.InGroup m) (front : Bool) :
    IsSettled (a.compose b front) (n = m) n := by
  cases front with
  | false => exact ha.settled_product_swap hb
  | true => exact ha.settled_product hb

/-- A composition on listed qubits is refused unless these are all of them in order. -/
theorem InGroup.settled_composeOn (ha : a.InGroup n) (hb : b.InGroup m) (qubits : List ℕ)
    (front : Bool) :
    IsSettled (a.composeOn b qubits front) (qubits = List.range n ∧ n = m) n := by
  have hlist : qubits.length = n ∧ qubits = List.range qubits.length ↔ qubits = List.range n := by
    constructor
    · rintro ⟨rfl, h⟩
      exact h
    · rintro rfl
      simp
  have hcompose := ha.settled_compose hb front
  rw [composeOn, ha.numQubits_eq]
  by_cases hall : qubits = List.range n
  · rw [Result.require, if_pos (hlist.mpr hall)]
    exact ⟨fun hfits => hcompose.succeeds hfits.2, fun hnot =>
      hcompose.refused fun hnm => hnot ⟨hall, hnm⟩⟩
  · rw [Result.require, if_neg (mt hlist.mp hall)]
    exact ⟨fun hfits => absurd hfits.1 hall, fun _ => ⟨_, rfl, by simp⟩⟩

/-- **What a call on two elements does.** -/
theorem InGroup.settled_combination (ha : a.InGroup n) (hb : b.InGroup m) (c : Combination) :
    IsSettled (c.apply a b) (c.Fits n m) (c.size n m) := by
  cases c with
  | rightMultiply => exact ha.settled_product hb
  | leftMultiply => exact ha.settled_product_swap hb
  | compose front => exact ha.settled_compose hb front
  | composeOn qubits front => exact ha.settled_composeOn hb qubits front
  | tensor =>
      obtain ⟨t, ht, hgroup⟩ := ha.exists_tensor? hb
      exact .of_eq_ok (Result.ofOption_eq_ok.mpr ht) hgroup
  | expand =>
      obtain ⟨t, ht, hgroup⟩ := hb.exists_tensor? ha
      exact .of_eq_ok (Result.ofOption_eq_ok.mpr ht) hgroup

end Element

/-! ### Every history -/

/-- The element after a settled call, whether it succeeds or is refused. -/
theorem IsSettled.inGroup_after {outcome : Result Element} {fits : Prop} [Decidable fits]
    (h : IsSettled outcome fits m) (he : e.InGroup n) :
    (e.after outcome).InGroup (if fits then m else n) := by
  split
  · rename_i hfits
    obtain ⟨e', rfl, hgroup⟩ := h.succeeds hfits
    exact hgroup
  · rename_i hnot
    obtain ⟨failure, rfl, -⟩ := h.refused hnot
    exact he

/-- **A history leads to a group element** on the number of qubits that its calls say. -/
theorem History.element_inGroup (h : History) : h.element.InGroup h.size := by
  induction h with
  | identity n => exact Element.inGroup_identity n
  | call h op ih =>
      -- whether the call fits or not, the number of qubits stays
      have hafter := (ih.settled_operation op).inGroup_after ih
      rwa [ite_self] at hafter
  | combine h other c ih ihother => exact (ih.settled_combination ihother c).inGroup_after ih

/-- The conditions on the parts of a group element on `n` qubits, in numbers. -/
structure Element.HasGroupParts (e : Element) (n : ℕ) : Prop where
  /-- There is no constant term. -/
  constant : e.poly.constant = 0
  /-- There is a coefficient for each variable. -/
  linearCount : e.poly.linear.size = n
  /-- There is a coefficient for each pair of variables. -/
  quadraticCount : e.poly.quadratic.size = n.choose 2
  /-- There is a coefficient for each three variables. -/
  cubicCount : e.poly.cubic.size = n.choose 3
  /-- Linear coefficients are below eight. -/
  linear : ∀ w ∈ e.poly.linear, w < 8
  /-- Quadratic coefficients are even and below eight. -/
  quadratic : ∀ w ∈ e.poly.quadratic, w < 8 ∧ w % 2 = 0
  /-- Cubic coefficients are zero or four. -/
  cubic : ∀ w ∈ e.poly.cubic, w = 0 ∨ w = 4
  /-- The linear part is a square matrix. -/
  shape : e.affine.linear.HasShape n n
  /-- The linear part has an inverse over the field with two elements. -/
  invertible : IsUnit (e.affine.linear.toMatrix n n)
  /-- The shift has a bit for each qubit. -/
  shiftLength : e.affine.shift.length = n

/-- The parts of a group element, one condition after the other. -/
theorem Element.InGroup.hasGroupParts (h : e.InGroup n) : e.HasGroupParts n := by
  obtain ⟨⟨rfl, ⟨hlinear, hquadratic, hcubic⟩, hcoeff⟩, hconst, haffine, hunit⟩ := h
  rw [binomial_eq_choose] at hquadratic hcubic
  obtain ⟨hlinear', hquadratic', hcubic'⟩ := hcoeff
  exact ⟨hconst, hlinear, hquadratic, hcubic, hlinear', hquadratic', hcubic', haffine.linear,
    hunit, haffine.shift⟩

/-- **Validity is an invariant of every history.** From identities, by any calls in any order, with
operands that have histories of their own and with calls that fail among them, every element that is
obtained passes validation: there is no constant term, the tables have their sizes and their
coefficients their ranges, and the affine map is reversible. Every further call, on the element
alone or with another one obtained in this way, succeeds exactly if its operands fit, and no call
breaks a contract. -/
theorem History.element_valid (h : History) :
    h.element.validate = .ok () ∧ h.element.numQubits = h.size ∧
      h.element.HasGroupParts h.size ∧
      (∀ op : Operation, ((∃ e, op.apply h.element = .ok e) ↔ op.Fits h.size) ∧
        op.apply h.element ≠ .error .brokenContract) ∧
      ∀ (other : History) (c : Combination),
        ((∃ e, c.apply h.element other.element = .ok e) ↔ c.Fits h.size other.size) ∧
          c.apply h.element other.element ≠ .error .brokenContract := by
  have hgroup := h.element_inGroup
  obtain ⟨hn, hvalid, -⟩ := Element.inGroup_iff.mp hgroup
  refine ⟨hvalid, hn, hgroup.hasGroupParts, fun op => ?_, fun other c => ?_⟩
  · have hsettled := hgroup.settled_operation op
    exact ⟨hsettled.exists_iff, hsettled.ne_brokenContract⟩
  · have hsettled := hgroup.settled_combination other.element_inGroup c
    exact ⟨hsettled.exists_iff, hsettled.ne_brokenContract⟩

/-- A history with calls of both kinds, one of which fails as it names a qubit twice. -/
def History.sample : History :=
  call (combine
    (call (call (call (identity 2) (.leftMul .t [1])) (.leftMulAdd 0 1)) (.leftMul .swap [1, 1]))
    (call (identity 1) (.leftMulFlip 0)) .tensor) .adjoint

/-- The element of a history on three qubits is valid, takes a phase on its last qubit but not on a
further one, and can be multiplied by itself. -/
theorem History.element_valid_of_sample :
    sample.element.validate = .ok () ∧ sample.element.numQubits = 3 ∧
      (∃ e, sample.element.leftMulPhase (Z8.ofByte 255) 2 = .ok e) ∧
      (¬ ∃ e, sample.element.leftMulPhase (Z8.ofByte 255) 3 = .ok e) ∧
      ∃ e, sample.element.rightMultiply sample.element = .ok e := by
  obtain ⟨hvalid, hn, -, hoperation, hcombination⟩ := History.element_valid sample
  have hsize : sample.size = 3 := by decide
  rw [hsize] at hn hoperation hcombination
  refine ⟨hvalid, hn, ?_, ?_, ?_⟩
  · exact (hoperation (.leftMulPhase 255 2)).1.mpr (by decide)
  · exact fun hok => absurd ((hoperation (.leftMulPhase 255 3)).1.mp hok) (by decide)
  · exact (hcombination sample .rightMultiply).1.mpr hsize.symm

end AffinePhase
