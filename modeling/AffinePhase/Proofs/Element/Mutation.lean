import AffinePhase.Proofs.Element.History
import AffinePhase.Proofs.InPlace

/-!
# Calls that change an element in place

Gates are applied to an element by changing its polynomial and its affine map, one coefficient, one
row and one bit after the other; a gate such as `ControlledZ` is a sequence of seven moves, each of
which makes several changes. A call checks its arguments before the first change. After the checks
no change is impossible, since the qubits exist and the tables have their sizes, so a call does all
or nothing. From this follows what any sequence of calls does: those that are refused might as well
not have been made. The same holds of the two ways to set coefficients of a polynomial.

## Main definitions

* `Move.perform`, `Mutation.perform`: moves and calls, change by change.
* `performAll`: the outcomes of calls in a row, and the element that they leave behind.
* `Mutation.IsRefused`: the fault that a call is refused with.

## Main results

* `Element.InGroup.runOn_perform`: what one call leaves behind.
* `PhasePolynomial.runOn_setTermInPlace`, `PhasePolynomial.runOn_setParityInPlace`: the same for
  coefficients.
* `performAll_spec`: what a sequence of calls leaves behind.
* `refused_calls_leave_no_trace`: only the calls that succeed matter.
-/

namespace AffinePhase

open InPlace

variable {e : Element} {n : ℕ} {failure : Failure}

/-! ### Polynomials -/

namespace PhasePolynomial

variable {p : PhasePolynomial}

/-- Adds a multiple of a parity, one coefficient after the other. -/
def addParityInPlace (support : List ℕ) (k : Z8) : InPlace PhasePolynomial Unit :=
  (smallSubsets support).forM fun m =>
    edit fun p => .ok (p.addTerm m (parityCoefficient m.length * k))

/-- Sets a coefficient after the index list and the table have been checked. -/
def setTermInPlace (indices : List ℕ) (k : Z8) : InPlace PhasePolynomial Unit := do
  let m ← look fun p => monomial p.numVariables indices
  edit fun p =>
    match p.weight? m with
    | some _ => .ok (p.modifyWeight (fun _ => Z8.toByte k) m)
    | none => .error (.invalidElement .missingTerm)

/-- Overwrites the polynomial, first by zero and then by the terms of the parity, after the indices
have been checked. -/
def setParityInPlace (indices : List ℕ) : InPlace PhasePolynomial Unit := do
  look fun p => Result.indicesBelow p.numVariables (Monomial.ofList indices)
  edit fun p => .ok (zero p.numVariables)
  addParityInPlace (Monomial.ofList indices) 1

/-- Adding a parity in place cannot fail, and adds the parity. -/
theorem runOn_addParityInPlace (p : PhasePolynomial) (support : List ℕ) (k : Z8) :
    (addParityInPlace support k).runOn p = (.ok (), p.addParity support k) :=
  runOn_forM (fun p m => some (p.addTerm m (parityCoefficient m.length * k)))
    (fun _ _ _ h => Option.some.inj h ▸ rfl) (List.foldlM_pure ..)

/-- **Setting a coefficient** does all or nothing, whatever the tables of the polynomial. -/
theorem runOn_setTermInPlace (p : PhasePolynomial) (indices : List ℕ) (k : Z8) :
    (setTermInPlace indices k).runOn p = allOrNothing p (p.setTerm indices k) := by
  refine runOn_look_bind fun m _ => ?_
  rw [runOn_edit]
  cases p.weight? m <;> rfl

/-- **Setting a parity** does all or nothing: once the indices have been checked, no change is
impossible. -/
theorem runOn_setParityInPlace (p : PhasePolynomial) (indices : List ℕ) :
    (setParityInPlace indices).runOn p = allOrNothing p (p.setParity indices) := by
  refine runOn_look_bind fun u _ => ?_
  have hzero : (edit fun p : PhasePolynomial => .ok (zero p.numVariables)).runOn p =
      (.ok (), zero p.numVariables) := rfl
  rw [runOn_bind_of_ok hzero, runOn_addParityInPlace]
  rfl

end PhasePolynomial

/-! ### Moves -/

namespace AffineMap

variable {f g : AffineMap}

/-- The map with a row of its linear part added into another one, its shift being kept. -/
def addRow? (f : AffineMap) (control target : ℕ) : Option AffineMap :=
  (f.linear.addRow? control target).map fun linear => { f with linear := linear }

/-- Flips a bit of the shift. -/
def flipOutputInPlace (q : ℕ) : InPlace AffineMap Unit :=
  edit fun f => Result.ofOption (f.flipOutput? q)

/-- Adds a row into another one, then looks at the shift and flips a bit there if necessary. -/
def addOutputInPlace (control target : ℕ) : InPlace AffineMap Unit := do
  edit fun f => Result.ofOption (f.addRow? control target)
  let carried ← look fun f => Result.ofOption (f.shift.get? control)
  if carried then flipOutputInPlace target else pure ()

/-- Flipping an output bit in place. -/
theorem runOn_flipOutputInPlace {q : ℕ} (h : f.flipOutput? q = some g) :
    (flipOutputInPlace q).runOn f = (.ok (), g) :=
  runOn_edit_some (fun f : AffineMap => f.flipOutput? q) h

/-- If the operation gives a map, then its changes are possible one after the other. -/
theorem runOn_addOutputInPlace {control target : ℕ} (h : f.addOutput? control target = some g) :
    (addOutputInPlace control target).runOn f = (.ok (), g) := by
  obtain ⟨linear, hlinear, h⟩ := Option.bind_eq_some_iff.mp h
  obtain ⟨carried, hcarried, h⟩ := Option.bind_eq_some_iff.mp h
  have hrow := runOn_edit_some (fun f : AffineMap => f.addRow? control target)
    (Option.map_eq_some_iff.mpr ⟨linear, hlinear, rfl⟩)
  have hlook := runOn_look_some (s := { f with linear := linear })
    (fun f : AffineMap => f.shift.get? control) hcarried
  rw [addOutputInPlace, runOn_bind_of_ok hrow, runOn_bind_of_ok hlook]
  cases carried with
  | true =>
      obtain ⟨shift, hshift, h⟩ := Option.bind_eq_some_iff.mp h
      obtain rfl := Option.some.inj h
      refine runOn_flipOutputInPlace ?_
      rw [flipOutput?, hshift]
      rfl
  | false =>
      obtain rfl := Option.some.inj h
      rfl

end AffineMap

/-- A program on the polynomial of an element. -/
def Element.onPoly (f : InPlace PhasePolynomial Unit) : InPlace Element Unit :=
  within Element.poly (fun e p => { e with poly := p }) f

/-- A program on the affine map of an element. -/
def Element.onAffine (f : InPlace AffineMap Unit) : InPlace Element Unit :=
  within Element.affine (fun e f => { e with affine := f }) f

/-- The changes of a move, one after the other. -/
def Move.perform : Move → InPlace Element Unit
  | flip q => Element.onAffine (AffineMap.flipOutputInPlace q)
  | add control target => Element.onAffine (AffineMap.addOutputInPlace control target)
  | phase k q => do
      let flipped ← look fun e => Result.ofOption (e.affine.shift.get? q)
      let row ← look fun e => Result.ofOption (e.affine.linear.row? q)
      Element.onPoly (PhasePolynomial.addParityInPlace row.support (if flipped then -k else k))

/-- **The changes of a move are possible** one after the other if it leads anywhere at all. -/
theorem Move.runOn_perform {move : Move} {e' : Element} (h : e.move? move = some e') :
    move.perform.runOn e = (.ok (), e') := by
  cases move with
  | flip q =>
      obtain ⟨f, hf, rfl⟩ := Option.map_eq_some_iff.mp h
      exact runOn_within (AffineMap.runOn_flipOutputInPlace hf)
  | add control target =>
      obtain ⟨f, hf, rfl⟩ := Option.map_eq_some_iff.mp h
      exact runOn_within (AffineMap.runOn_addOutputInPlace hf)
  | phase k q =>
      obtain ⟨flipped, hflipped, h⟩ := Option.bind_eq_some_iff.mp h
      obtain ⟨row, hrow, h⟩ := Option.bind_eq_some_iff.mp h
      obtain rfl := Option.some.inj h
      have hlook := runOn_look_some (fun e : Element => e.affine.shift.get? q) hflipped
      have hlook' := runOn_look_some (fun e : Element => e.affine.linear.row? q) hrow
      rw [perform, runOn_bind_of_ok hlook, runOn_bind_of_ok hlook']
      exact runOn_within (PhasePolynomial.runOn_addParityInPlace ..)

/-! ### Calls -/

/-- A call that multiplies an element from the left. -/
inductive Mutation where
  /-- Multiplication by a gate. -/
  | gate (gate : Gate) (qubits : List ℕ)
  /-- Multiplication by a CNOT gate. -/
  | add (control target : ℕ)
  /-- Multiplication by a phase gate, whose power is any byte. -/
  | phase (power : UInt8) (q : ℕ)
  /-- Multiplication by an `X` gate. -/
  | flip (q : ℕ)
  deriving DecidableEq

namespace Mutation

/-- The operation that the call carries out. -/
def operation : Mutation → Operation
  | gate g qubits => .leftMul g qubits
  | add control target => .leftMulAdd control target
  | phase power q => .leftMulPhase power q
  | flip q => .leftMulFlip q

/-- The moves of a gate after its qubits have been checked. -/
def performGate (g : Gate) (qubits : List ℕ) : InPlace Element Unit := do
  let _ ← look fun e => Instruction.of g qubits e.numQubits
  (g.moves qubits).forM Move.perform

/-- A move of one output bit after the qubit has been checked. -/
def performMove (move : Move) (q : ℕ) : InPlace Element Unit := do
  look fun e => Result.indicesBelow e.numQubits [q]
  move.perform

/-- The call, change by change. -/
def perform : Mutation → InPlace Element Unit
  | gate g qubits => performGate g qubits
  | add control target => performGate .controlledX [control, target]
  | phase power q => performMove (.phase (Z8.ofByte power) q) q
  | flip q => performMove (.flip q) q

/-- The fault that a call is refused with on `n` qubits. -/
def IsRefused (n : ℕ) (failure : Failure) : Mutation → Prop
  | gate g qubits => Instruction.IsRefused g qubits n failure
  | add control target => Instruction.IsRefused .controlledX [control, target] n failure
  | phase _ q => n ≤ q ∧ failure = .qubitIndex q n
  | flip q => n ≤ q ∧ failure = .qubitIndex q n

end Mutation

namespace Element

/-- A gate is refused with the fault of its qubits, and for no other reason. -/
theorem InGroup.leftMul_eq_error_iff (h : e.InGroup n) {g : Gate} {qubits : List ℕ} :
    e.leftMul g qubits = .error failure ↔ Instruction.IsRefused g qubits n failure := by
  rw [← Instruction.of_eq_error_iff, leftMul, h.numQubits_eq, Result.bind_eq_error]
  refine or_iff_left ?_
  rintro ⟨i, hi, hfails⟩
  obtain ⟨rfl, hacts⟩ := Instruction.of_eq_ok_iff.mp hi
  obtain ⟨e', he', -⟩ := h.exists_moves? hacts.moves_actsOn
  rw [he'] at hfails
  cases hfails

/-- A move of one output bit is refused if there is no such bit, and for no other reason. -/
theorem InGroup.move_eq_error_iff (h : e.InGroup n) {q : ℕ} (move : Move)
    (hmove : q < n → move.ActsOn n) :
    (Result.indicesBelow e.numQubits [q] >>= fun _ => Result.ofOption (e.move? move)) =
      .error failure ↔ n ≤ q ∧ failure = .qubitIndex q n := by
  have hindex : Result.indicesBelow n [q] = .error failure ↔ n ≤ q ∧ failure = .qubitIndex q n := by
    rw [Result.indicesBelow_eq_error]
    constructor
    · rintro ⟨before, i, after, hsplit, -, hi, rfl⟩
      obtain rfl : q = i := by
        have hmem : i ∈ [q] := hsplit ▸ List.mem_append_right before List.mem_cons_self
        exact (List.mem_singleton.mp hmem).symm
      exact ⟨hi, rfl⟩
    · rintro ⟨hq, rfl⟩
      exact ⟨[], q, [], rfl, List.forall_mem_nil _, hq, rfl⟩
  rw [h.numQubits_eq, ← hindex, Result.bind_eq_error]
  refine or_iff_left ?_
  rintro ⟨u, hu, hfails⟩
  have hq : q < n := Result.indicesBelow_eq_ok.mp hu q List.mem_cons_self
  obtain ⟨e', he', -⟩ := h.exists_move? (hmove hq)
  rw [he'] at hfails
  cases hfails

/-- **A call is refused with its fault**, and for no other reason. -/
theorem InGroup.apply_eq_error_iff (h : e.InGroup n) (call : Mutation) :
    call.operation.apply e = .error failure ↔ call.IsRefused n failure := by
  cases call with
  | gate g qubits => exact h.leftMul_eq_error_iff
  | add control target => exact h.leftMul_eq_error_iff
  | phase power q => exact h.move_eq_error_iff (.phase (Z8.ofByte power) q) id
  | flip q => exact h.move_eq_error_iff (.flip q) id

/-- A gate does all or nothing. -/
theorem InGroup.runOn_performGate (h : e.InGroup n) (g : Gate) (qubits : List ℕ) :
    (Mutation.performGate g qubits).runOn e = allOrNothing e (e.leftMul g qubits) := by
  refine runOn_look_bind fun i hi => ?_
  rw [h.numQubits_eq] at hi
  obtain ⟨rfl, hacts⟩ := Instruction.of_eq_ok_iff.mp hi
  obtain ⟨e', he', -⟩ := h.exists_moves? hacts.moves_actsOn
  rw [he', runOn_forM Element.move? (fun _ _ _ hmove => Move.runOn_perform hmove) he']
  rfl

/-- A move of one output bit does all or nothing. -/
theorem InGroup.runOn_performMove (h : e.InGroup n) {q : ℕ} (move : Move)
    (hmove : q < n → move.ActsOn n) : (Mutation.performMove move q).runOn e = allOrNothing e
      (Result.indicesBelow e.numQubits [q] >>= fun _ => Result.ofOption (e.move? move)) := by
  refine runOn_look_bind fun u hu => ?_
  rw [h.numQubits_eq] at hu
  have hq : q < n := Result.indicesBelow_eq_ok.mp hu q List.mem_cons_self
  obtain ⟨e', he', -⟩ := h.exists_move? (hmove hq)
  rw [he', Move.runOn_perform he']
  rfl

/-- **A call does all or nothing**: it leaves behind what the operation gives, or the element as it
was. -/
theorem InGroup.runOn_perform (h : e.InGroup n) (call : Mutation) :
    call.perform.runOn e = allOrNothing e (call.operation.apply e) := by
  cases call with
  | gate g qubits => exact h.runOn_performGate g qubits
  | add control target => exact h.runOn_performGate .controlledX [control, target]
  | phase power q => exact h.runOn_performMove (.phase (Z8.ofByte power) q) id
  | flip q => exact h.runOn_performMove (.flip q) id

end Element

/-! ### Calls in a row -/

/-- The outcomes of calls in a row, and the element that they leave behind. -/
def performAll : List Mutation → Element → List (Result Unit) × Element
  | [], e => ([], e)
  | call :: calls, e =>
      let done := call.perform.runOn e
      let rest := performAll calls done.2
      (done.1 :: rest.1, rest.2)

/-- The calls that have succeeded. -/
def succeeded (calls : List Mutation) (outcomes : List (Result Unit)) : List Mutation :=
  ((calls.zip outcomes).filter fun t => t.2.isOk).map Prod.fst

/-- The outcome of the first call, and those of the others on what it leaves behind. -/
theorem performAll_cons {call : Mutation} {outcome : Result Unit} {e' : Element}
    (h : call.perform.runOn e = (outcome, e')) (calls : List Mutation) :
    performAll (call :: calls) e =
      (outcome :: (performAll calls e').1, (performAll calls e').2) := by
  rw [performAll, h]

/-- **A sequence of calls** has the outcomes that the faults of the calls determine, and the calls
that succeed lead to the same element without the others. -/
theorem performAll_spec (h : e.InGroup n) (calls : List Mutation) :
    List.Forall₂ (fun call outcome => ∀ failure, outcome = .error failure ↔
        call.IsRefused n failure) calls (performAll calls e).1 ∧
      (performAll calls e).2.InGroup n ∧
      (performAll calls e).2 = calls.foldl (fun e call => e.after (call.operation.apply e)) e ∧
      performAll (succeeded calls (performAll calls e).1) e =
        ((succeeded calls (performAll calls e).1).map fun _ => .ok (), (performAll calls e).2) := by
  -- for every element of the group, since the next call works on what this one leaves behind
  induction calls generalizing e with
  | nil => exact ⟨.nil, h, rfl, rfl⟩
  | cons call calls ih =>
      have hrun := h.runOn_perform call
      have hrefused : ∀ failure, call.operation.apply e = .error failure ↔
          call.IsRefused n failure := fun failure => h.apply_eq_error_iff call
      rw [List.foldl_cons]
      cases hcall : call.operation.apply e with
      | ok e' =>
          have he' : e'.InGroup n := by
            have hafter := (h.settled_operation call.operation).inGroup_after h
            rwa [ite_self, hcall] at hafter
          obtain ⟨houtcomes, hgroup, hfold, hrest⟩ := ih he'
          rw [hcall, allOrNothing_ok] at hrun
          rw [performAll_cons hrun]
          refine ⟨.cons (fun failure => ?_) houtcomes, hgroup, hfold, ?_⟩
          · rw [← hrefused, hcall]
            exact ⟨nofun, nofun⟩
          · show performAll (call :: succeeded calls (performAll calls e').1) e = _
            rw [performAll_cons hrun, hrest]
            rfl
      | error failure' =>
          obtain ⟨houtcomes, hgroup, hfold, hrest⟩ := ih h
          rw [hcall, allOrNothing_error] at hrun
          rw [performAll_cons hrun]
          refine ⟨.cons (fun failure => ?_) houtcomes, hgroup, hfold, hrest⟩
          rw [← hrefused, hcall, Except.error.injEq, Except.error.injEq]

/-- **Calls that are refused leave no trace.** Let any calls be made on a valid element on `n`
qubits, one after the other, each change by change. A call fails exactly if its qubits are at fault,
and with the first fault in the order of the checks. The element that is left behind is the one that
the operations lead to, and the calls that have succeeded lead to it alone, without any failure.
In the same way a coefficient or a parity that cannot be set leaves a polynomial as it was, which
may have any tables. -/
theorem refused_calls_leave_no_trace (h : e.ValidOn n) (calls : List Mutation) :
    List.Forall₂ (fun call outcome => ∀ failure, outcome = .error failure ↔
        call.IsRefused n failure) calls (performAll calls e).1 ∧
      (performAll calls e).2.ValidOn n ∧
      (performAll calls e).2 = calls.foldl (fun e call => e.after (call.operation.apply e)) e ∧
      performAll (succeeded calls (performAll calls e).1) e =
        ((succeeded calls (performAll calls e).1).map fun _ => .ok (), (performAll calls e).2) ∧
      (∀ (p : PhasePolynomial) indices k, (PhasePolynomial.setTermInPlace indices k).runOn p =
        match p.setTerm indices k with
        | .ok p' => (.ok (), p')
        | .error failure => (.error failure, p)) ∧
      ∀ (p : PhasePolynomial) indices, (PhasePolynomial.setParityInPlace indices).runOn p =
        match p.setParity indices with
        | .ok p' => (.ok (), p')
        | .error failure => (.error failure, p) := by
  obtain ⟨houtcomes, hgroup, hfold, hrest⟩ := performAll_spec (Element.validOn_iff.mp h) calls
  refine ⟨houtcomes, Element.validOn_iff.mpr hgroup, hfold, hrest, fun p indices k => ?_,
    fun p indices => ?_⟩
  · rw [PhasePolynomial.runOn_setTermInPlace]
    cases p.setTerm indices k <;> rfl
  · rw [PhasePolynomial.runOn_setParityInPlace]
    cases p.setParity indices <;> rfl

/-- Calls of every kind on three qubits, five of which are refused. -/
def Mutation.sample : List Mutation :=
  [.gate .controlledZ [0, 2], .gate .swap [1, 1], .phase 255 1, .add 0 3, .flip 2, .gate .t [0, 7],
    .gate .y [1], .phase 1 3, .add 2 0, .flip 9, .gate .swap [2, 1]]

/-- Without the refused ones, these calls lead to the same element. -/
theorem refused_calls_leave_no_trace_of_sample :
    succeeded Mutation.sample (performAll Mutation.sample Element.sample).1 =
        [.gate .controlledZ [0, 2], .phase 255 1, .flip 2, .gate .y [1], .add 2 0,
          .gate .swap [2, 1]] ∧
      (performAll [.gate .controlledZ [0, 2], .phase 255 1, .flip 2, .gate .y [1], .add 2 0,
          .gate .swap [2, 1]] Element.sample).2 =
        (performAll Mutation.sample Element.sample).2 := by
  obtain ⟨-, -, -, hrest, -, -⟩ :=
    @refused_calls_leave_no_trace Element.sample 3 (by decide +kernel) Mutation.sample
  have hsucceeded : succeeded Mutation.sample (performAll Mutation.sample Element.sample).1 =
      [.gate .controlledZ [0, 2], .phase 255 1, .flip 2, .gate .y [1], .add 2 0,
        .gate .swap [2, 1]] := by decide +kernel
  rw [hsucceeded] at hrest
  exact ⟨hsucceeded, by rw [hrest]⟩

end AffinePhase
