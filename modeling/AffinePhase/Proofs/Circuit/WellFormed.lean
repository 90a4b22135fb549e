import AffinePhase.Proofs.Circuit.Plain
import AffinePhase.Proofs.Element.Gates
import AffinePhase.Element.Synthesis

/-!
# Circuits that calls lead to are well formed

The circuit of an element is put together from gates on pairs of running indices; only each single
gate is checked when it is added, and the reduction of the affine part is inverted and appended
without a check. Here this is done on plain circuits, which may hold any instructions. The plain
loops follow those on circuits step by step, and so everything that calls can lead to, those that
fail among them, is the stored form of a circuit: its instructions act on its qubits, and its gates
can be applied to the identity without a failure.

## Main definitions

* `PlainReduction`, `PlainDraft`: the loops of the synthesis on plain circuits.
* `PlainCircuit.ofElement`: the plain circuit of an element.
* `PlainCircuit.Reachable`: the plain circuits that calls lead to.
* `Element.ofPlainCircuit`: the gates of a plain circuit applied to the identity.

## Main results

* `Element.map_plain_toCircuit`: the plain circuit of an element is stored of its circuit.
* `PlainCircuit.Reachable.exists_plain`: what calls lead to is stored of a circuit.
* `PlainCircuit.Reachable.well_formed`: it is well formed.
-/

namespace AffinePhase

open InPlace

/-! ### The affine part -/

/-- An affine map on the way to the identity, with the plain circuit of the gates so far. -/
structure PlainReduction where
  /-- The gates so far. -/
  circuit : PlainCircuit
  /-- The affine map followed by these gates. -/
  rest : AffineMap

namespace PlainReduction

/-- Applies an `X` gate. -/
def flip (r : PlainReduction) (q : ℕ) : Result PlainReduction := do
  let rest ← Result.ofOption (r.rest.flipOutput? q)
  let circuit ← (PlainCircuit.push .x [q]).execute r.circuit
  return ⟨circuit, rest⟩

/-- Applies a CNOT gate. -/
def add (r : PlainReduction) (control target : ℕ) : Result PlainReduction := do
  let rest ← Result.ofOption (r.rest.addOutput? control target)
  let circuit ← (PlainCircuit.push .controlledX [control, target]).execute r.circuit
  return ⟨circuit, rest⟩

/-- Entry `(i, j)` of the linear part. -/
def entry (r : PlainReduction) (i j : ℕ) : Result Bool :=
  Result.ofOption (r.rest.linear.get? i j)

/-- The first of the given rows with a bit set in a column. -/
def pivot (r : PlainReduction) (column : ℕ) : List ℕ → Result ℕ
  | [] => .error (.invalidElement .singular)
  | row :: rows => do
      if ← r.entry row column then return row else r.pivot column rows

/-- Makes the diagonal entry of a column one. -/
def placePivot (r : PlainReduction) (n column : ℕ) : Result PlainReduction := do
  if ← r.entry column column then
    return r
  else
    let pivot ← r.pivot column ((List.range n).drop (column + 1))
    let r ← r.add pivot column
    let r ← r.add column pivot
    r.add pivot column

/-- Clears one entry of a column. -/
def clearEntry (column : ℕ) (r : PlainReduction) (row : ℕ) : Result PlainReduction := do
  if row = column then
    return r
  else if ← r.entry row column then
    r.add column row
  else
    return r

/-- Makes a column a unit vector. -/
def clearColumn (n : ℕ) (r : PlainReduction) (column : ℕ) : Result PlainReduction := do
  let r ← r.placePivot n column
  (List.range n).foldlM (clearEntry column) r

/-- The map after all gates, with the plain circuit of these gates. -/
def reduced (f : AffineMap) : Result PlainReduction := do
  let n := f.numBits
  let linear ← f.shift.support.foldlM flip ⟨.empty n, f⟩
  (List.range n).foldlM (clearColumn n) linear

/-- The plain circuit that brings an affine map to the identity. -/
def reduction (f : AffineMap) : Result PlainCircuit := do
  let final ← reduced f
  Result.require (final.rest.shift.isZero ∧ final.rest.linear.isIdentity) .brokenContract
  return final.circuit

end PlainReduction

namespace Reduction

/-- What is stored of a reduction, its gates in order. -/
def plain (r : Reduction) : PlainReduction := ⟨r.latestFirst.plainReversed, r.rest⟩

/-- A flip records the same gate with and without the check. -/
theorem map_plain_flip (r : Reduction) (q : ℕ) : (r.flip q).map plain = r.plain.flip q :=
  Result.map_bind fun _ => Result.map_bind_of r.latestFirst.map_plainReversed_precede fun _ => rfl

/-- An addition records the same gate with and without the check. -/
theorem map_plain_add (r : Reduction) (control target : ℕ) :
    (r.add control target).map plain = r.plain.add control target :=
  Result.map_bind fun _ => Result.map_bind_of r.latestFirst.map_plainReversed_precede fun _ => rfl

/-- The search for a pivot does not look at the gates. -/
theorem pivot_plain (r : Reduction) (column : ℕ) (rows : List ℕ) :
    r.plain.pivot column rows = r.pivot column rows := by
  induction rows with
  | nil => rfl
  | cons row rows ih =>
      rw [PlainReduction.pivot, pivot, ih]
      rfl

/-- A pivot is placed by the same gates with and without the checks. -/
theorem map_plain_placePivot (r : Reduction) (n column : ℕ) :
    (r.placePivot n column).map plain = r.plain.placePivot n column := by
  refine Result.map_bind fun set => ?_
  cases set with
  | true => rfl
  | false =>
      rw [if_neg Bool.false_ne_true, if_neg Bool.false_ne_true, pivot_plain]
      refine Result.map_bind fun pivot => ?_
      refine Result.map_bind_of (r.map_plain_add pivot column) fun r => ?_
      exact Result.map_bind_of (r.map_plain_add column pivot) fun r => r.map_plain_add pivot column

/-- An entry is cleared by the same gates with and without the checks. -/
theorem map_plain_clearEntry (column : ℕ) (r : Reduction) (row : ℕ) :
    (clearEntry column r row).map plain = PlainReduction.clearEntry column r.plain row := by
  rw [clearEntry, PlainReduction.clearEntry]
  split
  · rfl
  · refine Result.map_bind fun set => ?_
    cases set with
    | true => exact r.map_plain_add column row
    | false => rfl

/-- A column is cleared by the same gates with and without the checks. -/
theorem map_plain_clearColumn (n : ℕ) (r : Reduction) (column : ℕ) :
    (clearColumn n r column).map plain = PlainReduction.clearColumn n r.plain column :=
  Result.map_bind_of (r.map_plain_placePivot n column) fun r =>
    Result.map_foldlM (map_plain_clearEntry column) _ r

end Reduction

/-- The plain circuit of a reduction is stored of its circuit. -/
theorem AffineMap.map_plain_reduction (f : AffineMap) :
    f.reduction.map Circuit.plain = PlainReduction.reduction f := by
  have hreduced : f.reduced.map Reduction.plain = PlainReduction.reduced f :=
    Result.map_bind_of (Result.map_foldlM Reduction.map_plain_flip _ _) fun r =>
      Result.map_foldlM (Reduction.map_plain_clearColumn f.numBits) _ r
  exact Result.map_bind_of hreduced fun r => Result.map_bind fun _ => rfl

/-! ### The diagonal part -/

/-- A plain circuit under construction and the element that it implements. -/
structure PlainDraft where
  /-- The circuit so far. -/
  circuit : PlainCircuit
  /-- The element of the circuit. -/
  element : Element

namespace PlainDraft

/-- Adds a gate. -/
def push (d : PlainDraft) (gate : Gate) (qubits : List ℕ) : Result PlainDraft := do
  let element ← d.element.leftMul gate qubits
  let circuit ← (PlainCircuit.push gate qubits).execute d.circuit
  return ⟨circuit, element⟩

/-- Adds several gates. -/
def pushAll (d : PlainDraft) (gates : List (Gate × List ℕ)) : Result PlainDraft :=
  gates.foldlM (fun d (gate, qubits) => d.push gate qubits) d

/-- Builds the cubic term over three variables if the polynomial has it. -/
def addCubic (target : PhasePolynomial) (d : PlainDraft) : Monomial → Result PlainDraft
  | [i, j, k] => do
      let wanted ← target.term [i, j, k]
      if wanted ≠ 0 then d.pushAll (Draft.cubicGadget i j k) else return d
  | _ => .ok d

/-- Brings the coefficient over two variables to its value in the polynomial. -/
def addQuadratic (target : PhasePolynomial) (d : PlainDraft) : Monomial → Result PlainDraft
  | [i, j] => do
      let current ← d.element.poly.term [i, j]
      let wanted ← target.term [i, j]
      let k := Draft.half (Z8.ofByte current - Z8.ofByte wanted)
      if k ≠ 0 then d.pushAll (Draft.quadraticGadget k i j) else return d
  | _ => .ok d

/-- Brings the coefficient of a variable to its value in the polynomial. -/
def addLinear (target : PhasePolynomial) (d : PlainDraft) (i : ℕ) : Result PlainDraft := do
  let current ← d.element.poly.term [i]
  let wanted ← target.term [i]
  d.pushAll (Draft.phaseWord (Z8.ofByte wanted - Z8.ofByte current) i)

/-- A plain circuit for the diagonal element with the phase polynomial of `e`. -/
def diagonal (e : Element) : Result PlainCircuit := do
  let n := e.numQubits
  let d ← (subsets 3 (List.range n)).foldlM (addCubic e.poly) ⟨.empty n, .identity n⟩
  let d ← (subsets 2 (List.range n)).foldlM (addQuadratic e.poly) d
  let d ← (List.range n).foldlM (addLinear e.poly) d
  Result.require (d.element.poly = e.poly) (.invalidElement .notSynthesizable)
  return d.circuit

end PlainDraft

namespace Draft

/-- What is stored of a draft, its gates in order. -/
def plain (d : Draft) : PlainDraft := ⟨d.latestFirst.plainReversed, d.element⟩

/-- Gates are appended in the same way with and without the checks. -/
theorem map_plain_pushAll (d : Draft) (gates : List (Gate × List ℕ)) :
    (d.pushAll gates).map plain = d.plain.pushAll gates := by
  refine Result.map_foldlM (g := fun d t => PlainDraft.push d t.1 t.2) (fun d t => ?_) gates d
  exact Result.map_bind fun _ =>
    Result.map_bind_of d.latestFirst.map_plainReversed_precede fun _ => rfl

/-- A cubic term is treated in the same way with and without the checks. -/
theorem map_plain_addCubic (target : PhasePolynomial) (d : Draft) (m : Monomial) :
    (addCubic target d m).map plain = PlainDraft.addCubic target d.plain m := by
  match m with
  | [i, j, k] =>
      refine Result.map_bind fun wanted => ?_
      split
      · exact d.map_plain_pushAll _
      · rfl
  | [] | [_] | [_, _] | _ :: _ :: _ :: _ :: _ => rfl

/-- A quadratic term is treated in the same way with and without the checks. -/
theorem map_plain_addQuadratic (target : PhasePolynomial) (d : Draft) (m : Monomial) :
    (addQuadratic target d m).map plain = PlainDraft.addQuadratic target d.plain m := by
  match m with
  | [i, j] =>
      refine Result.map_bind fun current => Result.map_bind fun wanted => ?_
      dsimp only
      split
      · exact d.map_plain_pushAll _
      · rfl
  | [] | [_] | _ :: _ :: _ :: _ => rfl

/-- A linear term is treated in the same way with and without the checks. -/
theorem map_plain_addLinear (target : PhasePolynomial) (d : Draft) (i : ℕ) :
    (addLinear target d i).map plain = PlainDraft.addLinear target d.plain i :=
  Result.map_bind fun _ => Result.map_bind fun _ => d.map_plain_pushAll _

end Draft

/-- The plain circuit of an element: the diagonal part, and appended to it the inverse of the
reduction. -/
def PlainCircuit.ofElement (e : Element) : Result PlainCircuit := do
  e.validate
  let reduction ← PlainReduction.reduction e.affine
  let diagonal ← PlainDraft.diagonal e
  (append reduction.inverse).execute diagonal

namespace Element

/-- The diagonal part has the same gates with and without the checks. -/
theorem map_plain_diagonalCircuit (e : Element) :
    e.diagonalCircuit.map Circuit.plain = PlainDraft.diagonal e := by
  have hcubic := Result.map_foldlM (Draft.map_plain_addCubic e.poly)
  have hquadratic := Result.map_foldlM (Draft.map_plain_addQuadratic e.poly)
  have hlinear := Result.map_foldlM (Draft.map_plain_addLinear e.poly)
  refine Result.map_bind_of (hcubic _ _) fun d => ?_
  refine Result.map_bind_of (hquadratic _ d) fun d => ?_
  exact Result.map_bind_of (hlinear _ d) fun d => Result.map_bind fun _ => rfl

/-- **Synthesis gives a stored circuit**, the same one and with the same failures, although nothing
but the single gates is checked. -/
theorem map_plain_toCircuit (e : Element) :
    e.toCircuit.map Circuit.plain = PlainCircuit.ofElement e := by
  refine Result.map_bind fun _ => ?_
  refine Result.map_bind_of e.affine.map_plain_reduction fun reduction => ?_
  refine Result.map_bind_of e.map_plain_diagonalCircuit fun diagonal => ?_
  rw [← Circuit.plain_inverse, execute_of_allOrNothing (diagonal.runOn_append reduction.inverse)]

/-- The gates of a plain circuit applied to the identity in order. -/
def ofPlainCircuit (c : PlainCircuit) : Result Element :=
  c.instructions.foldlM (fun e a => e.leftMul a.gate a.qubits) (identity c.numQubits)

end Element

/-! ### Calls -/

namespace PlainCircuit

/-- The plain circuits that calls lead to. A call that fails may have left the circuit changed. -/
inductive Reachable : PlainCircuit → Prop
  /-- A circuit without instructions; how much memory it is given at once makes no difference. -/
  | empty (n : ℕ) : Reachable (empty n)
  /-- A circuit read from a text. -/
  | parsed {text : List Char} {c : PlainCircuit} (h : parse text = .ok c) : Reachable c
  /-- The circuit of an element, which need not be valid. -/
  | synthesized {e : Element} {c : PlainCircuit} (h : ofElement e = .ok c) : Reachable c
  /-- What is left behind by adding an instruction, whether this fails or not. -/
  | push {c : PlainCircuit} (hc : c.Reachable) (gate : Gate) (qubits : List ℕ) :
      Reachable ((push gate qubits).runOn c).2
  /-- What is left behind by appending a circuit, whether this fails or not. -/
  | append {c d : PlainCircuit} (hc : c.Reachable) (hd : d.Reachable) :
      Reachable ((append d).runOn c).2
  /-- The inverse. -/
  | inverse {c : PlainCircuit} (hc : c.Reachable) : Reachable c.inverse
  /-- The complex conjugate. -/
  | conjugate {c : PlainCircuit} (hc : c.Reachable) : Reachable c.conjugate
  /-- The transpose. -/
  | transpose {c : PlainCircuit} (hc : c.Reachable) : Reachable c.transpose

variable {c : PlainCircuit}

/-- What a program that does all or nothing leaves behind is stored of a circuit. -/
theorem exists_plain_of_allOrNothing {f : InPlace PlainCircuit Unit} {d : Circuit}
    {r : Result Circuit} (h : f.runOn d.plain = allOrNothing d.plain (r.map Circuit.plain)) :
    ∃ d' : Circuit, d'.plain = (f.runOn d.plain).2 := by
  rw [h]
  cases r with
  | ok d' => exact ⟨d', rfl⟩
  | error failure => exact ⟨d, rfl⟩  -- nothing has been changed

/-- A result that follows one on circuits is stored of a circuit. -/
theorem exists_plain_of_map {r : Result Circuit} (h : r.map Circuit.plain = .ok c) :
    ∃ d : Circuit, d.plain = c := by
  cases r with
  | ok d => exact ⟨d, Except.ok.inj h⟩
  | error failure => cases h

/-- **What calls lead to is stored of a circuit.** -/
theorem Reachable.exists_plain (h : c.Reachable) : ∃ d : Circuit, d.plain = c := by
  induction h with
  | empty n => exact ⟨.empty n, rfl⟩
  | parsed h => exact exists_plain_of_map ((Circuit.map_plain_parse _).trans h)
  | synthesized h => exact exists_plain_of_map ((Element.map_plain_toCircuit _).trans h)
  | push hc gate qubits ih =>
      obtain ⟨d, rfl⟩ := ih
      exact exists_plain_of_allOrNothing d.runOn_push
  | append hc hd ihc ihd =>
      obtain ⟨d, rfl⟩ := ihc
      obtain ⟨d', rfl⟩ := ihd
      exact exists_plain_of_allOrNothing (d.runOn_append d')
  | inverse hc ih =>
      obtain ⟨d, rfl⟩ := ih
      exact ⟨d.inverse, d.plain_inverse⟩
  | conjugate hc ih =>
      obtain ⟨d, rfl⟩ := ih
      exact ⟨d.conjugate, d.plain_conjugate⟩
  | transpose hc ih =>
      obtain ⟨d, rfl⟩ := ih
      exact ⟨d.transpose, d.plain_transpose⟩

/-- **Circuits that calls lead to are well formed.** From empty circuits, from texts and from
elements, by any calls in any order and with calls that fail among them, every instruction has as
many qubits as its gate, all of them exist, and none is repeated. An instruction or a circuit that
cannot be added leaves the circuit as it was. So the gates can be applied to the identity, and the
element is that of the circuit whose stored form this is. -/
theorem Reachable.well_formed (h : c.Reachable) :
    (∀ a ∈ c.instructions, a.qubits.length = a.gate.arity ∧ (∀ q ∈ a.qubits, q < c.numQubits) ∧
      a.qubits.Nodup) ∧
    (∀ gate qubits failure c', (PlainCircuit.push gate qubits).runOn c = (.error failure, c') →
      Instruction.IsRefused gate qubits c.numQubits failure ∧ c' = c) ∧
    (∀ d failure c', (PlainCircuit.append d).runOn c = (.error failure, c') →
      (c.numQubits ≠ d.numQubits ∧ failure = .dimensionMismatch c.numQubits d.numQubits) ∧
        c' = c) ∧
    ∃ (d : Circuit) (e : Element), d.plain = c ∧ Element.ofCircuit d = .ok e ∧
      Element.ofPlainCircuit c = .ok e := by
  obtain ⟨d, rfl⟩ := h.exists_plain
  obtain ⟨e, he, -⟩ := Element.exists_ofCircuit (c := d) rfl
  exact ⟨d.actsOn, fun _ _ _ _ => eq_of_push_eq_error, fun _ _ _ => eq_of_append_eq_error,
    d, e, rfl, he, he⟩

/-- A circuit that is read and extended by an instruction. Another instruction and a circuit on
three qubits are refused, and the circuit is inverted. -/
def sample : PlainCircuit :=
  ((append (empty 3)).runOn ((push .swap [1, 1]).runOn ((push .t [1]).runOn
    ⟨2, [⟨.controlledX, [0, 1]⟩]⟩).2).2).2.inverse

/-- It has the two instructions that have passed, both act on its qubits, and they can be applied to
the identity. -/
theorem Reachable.well_formed_of_sample :
    sample = ⟨2, [⟨.tInv, [1]⟩, ⟨.controlledX, [0, 1]⟩]⟩ ∧
      (∀ a ∈ sample.instructions, a.qubits.length = a.gate.arity ∧
        (∀ q ∈ a.qubits, q < sample.numQubits) ∧ a.qubits.Nodup) ∧
      ∃ e, Element.ofPlainCircuit sample = .ok e := by
  have hparsed : parse "qubits 2\n\n controlledx 0 1".toList =
      .ok ⟨2, [⟨.controlledX, [0, 1]⟩]⟩ := by decide +kernel
  have hsample : Reachable sample :=
    .inverse (.append (.push (.push (.parsed hparsed) .t [1]) .swap [1, 1]) (.empty 3))
  obtain ⟨hacts, -, -, d, e, -, -, he⟩ := Reachable.well_formed hsample
  exact ⟨by decide +kernel, hacts, e, he⟩

end PlainCircuit

end AffinePhase
