import AffinePhase.Proofs.Circuit.Text
import AffinePhase.Proofs.Element.Gates
import AffinePhase.Proofs.Element.Synthesis
import AffinePhase.Proofs.Storage

/-!
# Exchanging elements

An element is written as the text of a circuit and read by applying the gates of a circuit. Writing
and reading are inverse to each other for valid elements, and an element that is not valid is not
written. Reading is safe for every text: once the circuit has been read, applying its gates does not
fail and gives a valid element, so that reading fails only where the text is no circuit.

## Main results

* `Element.InGroup.exists_written`: a valid element is written and read back.
* `Element.written_eq_error`: an element that is not valid is not written.
* `Element.read_circuit_text`, `Element.read_eq_error`: what reading a text gives.
* `Element.storedRead_eq_read`: with room for the tables, storage does not matter.
* `Element.exchange_loses_nothing`: all of this together.
-/

namespace AffinePhase.Element

open Text

variable {e : Element} {c : Circuit} {n : ℕ} {text : List Char}

/-! ### Writing -/

/-- **An element that is not valid is not written**: writing fails as validation does. -/
theorem written_eq_error {failure : Failure} (h : e.validate = .error failure) :
    e.written = .error failure := by
  rw [written, toCircuit, h]
  rfl

/-- Validation of an element that is not valid fails. -/
theorem exists_validate_eq_error (h : ¬ e.IsValid) : ∃ failure, e.validate = .error failure := by
  cases hvalidate : e.validate with
  | ok _ => exact absurd hvalidate h
  | error failure => exact ⟨failure, rfl⟩

/-! ### Reading -/

/-- **A circuit that was read gives a valid element.** -/
theorem exists_readCircuit (c : Circuit) :
    ∃ d, ofCircuit c = .ok d ∧ d.InGroup c.numQubits ∧ readCircuit c = .ok d := by
  obtain ⟨d, hd, hgroup, -⟩ := exists_ofCircuit (c := c) rfl
  have hvalidate : d.validate = .ok () := (inGroup_iff.mp hgroup).2.1
  refine ⟨d, hd, hgroup, ?_⟩
  rw [readCircuit, hd]
  show (d.validate.mapError ReadFailure.element >>= fun _ => pure d) = _
  rw [hvalidate]
  rfl

/-- Reading the text of a circuit. -/
theorem read_of_parse (h : Circuit.parse text = .ok c) : read (.text text) = readCircuit c := by
  rw [read, Circuit.read, h]
  rfl

/-- A text that is no circuit is no element. -/
theorem read_eq_error {failure : Failure} (h : Circuit.parse text = .error failure) :
    read (.text text) = .error (.circuit failure) := by
  rw [read, Circuit.read, h]
  rfl

/-- **With room for the tables** of the circuit that is read, storage does not matter. -/
theorem storedRead_eq_read
    (h : ∀ c, Circuit.parse text = .ok c → Storage.TermsFit c.numQubits) :
    storedRead (.text text) = read (.text text) := by
  cases hparse : Circuit.parse text with
  | error failure =>
      rw [read_eq_error hparse, storedRead, Circuit.read, hparse]
      rfl
  | ok c =>
      rw [read_of_parse hparse, storedRead, Circuit.read, hparse]
      show ((Storage.element c.numQubits).mapError ReadFailure.element >>= fun _ =>
        readCircuit c) = _
      rw [(h c hparse).element]
      rfl

/-! ### There and back -/

/-- **A valid element is written and read back.** -/
theorem InGroup.exists_written (he : e.InGroup n) (hn : n < indexBound) :
    ∃ c, e.toCircuit = .ok c ∧ e.written = .ok c.text ∧ Circuit.parse c.text = .ok c ∧
      c.numQubits = n ∧ read (.text c.text) = .ok e := by
  obtain ⟨c, hc, hcn, hback⟩ := he.exists_toCircuit
  have hparse : Circuit.parse c.text = .ok c := c.parse_text (hcn.symm ▸ hn)
  obtain ⟨d, hd, -, hread⟩ := exists_readCircuit c
  obtain rfl : d = e := Except.ok.inj (hd.symm.trans hback)
  refine ⟨c, hc, ?_, hparse, hcn, (read_of_parse hparse).trans hread⟩
  rw [written, hc]
  rfl

/-- **Exchange loses nothing.** A valid element is written as the text of a circuit, and reading
that text gives the element back as an equality of stored values, also where tables have to be
stored; an element that is not valid is not written. A text, given room for the tables if it is a
circuit, is read exactly if it is a circuit, as the element of the circuit, which is valid;
otherwise reading fails as it does for the circuit, and never at the gates or at the validation
after them. -/
theorem exchange_loses_nothing (e : Element) (text : List Char) :
    (e.ValidOn n → n < indexBound →
      ∃ c, e.toCircuit = .ok c ∧ e.written = .ok c.text ∧ read (.text c.text) = .ok e ∧
        (Storage.TermsFit n → storedRead (.text c.text) = .ok e)) ∧
    (¬ e.IsValid → ∃ failure, e.validate = .error failure ∧ e.written = .error failure) ∧
    ((∀ c, Circuit.parse text = .ok c → Storage.TermsFit c.numQubits) →
      ((∃ d, storedRead (.text text) = .ok d) ↔ ∃ c, Circuit.parse text = .ok c) ∧
      (∀ c, Circuit.parse text = .ok c →
        ∃ d, ofCircuit c = .ok d ∧ d.ValidOn c.numQubits ∧ storedRead (.text text) = .ok d) ∧
      ∀ cause, storedRead (.text text) ≠ .error (.element cause)) := by
  refine ⟨fun hvalid hn => ?_, fun hinvalid => ?_, fun hroom => ?_⟩
  · obtain ⟨c, hc, hwritten, hparse, hcn, hread⟩ := (validOn_iff.mp hvalid).exists_written hn
    refine ⟨c, hc, hwritten, hread, fun hfits => ?_⟩
    -- the only circuit with this text is the one that was written
    rw [storedRead_eq_read, hread]
    intro c' hc'
    obtain rfl : c = c' := Except.ok.inj (hparse.symm.trans hc')
    exact hcn.symm ▸ hfits
  · obtain ⟨failure, hfailure⟩ := exists_validate_eq_error hinvalid
    exact ⟨failure, hfailure, written_eq_error hfailure⟩
  · rw [storedRead_eq_read hroom]
    cases hparse : Circuit.parse text with
    | error failure =>
        rw [read_eq_error hparse]
        exact ⟨by simp, by simp, by simp⟩
    | ok c =>
        obtain ⟨d, hd, hgroup, hread⟩ := exists_readCircuit c
        rw [read_of_parse hparse, hread]
        refine ⟨⟨fun _ => ⟨c, rfl⟩, fun _ => ⟨d, rfl⟩⟩, fun c' hc' => ?_, by simp⟩
        obtain rfl : c = c' := Except.ok.inj hc'
        exact ⟨d, hd, validOn_iff.mpr hgroup, rfl⟩

/-- An element with a constant term, which is not valid. -/
def constantSample : Element :=
  ⟨⟨0, 1, #[], #[], #[]⟩, AffineMap.identity 0⟩

/-- A circuit of a single gate. -/
def singleGate : Circuit where
  numQubits := 2
  instructions := [⟨.t, [1]⟩]
  actsOn := by simp [Instruction.ActsOn, Gate.arity]

/-- An element on three qubits is written and read back, one with a constant term is not written,
and a text with an empty line and blanks around its words is read. -/
theorem exchange_loses_nothing_of_sample :
    (∃ c : Circuit, sample.written = .ok c.text ∧ storedRead (.text c.text) = .ok sample) ∧
    (∃ failure, constantSample.written = .error failure) ∧
    ∃ d, storedRead (.text "qubits 2\n\n t +1 ".toList) = .ok d := by
  have hparse : Circuit.parse "qubits 2\n\n t +1 ".toList = .ok singleGate := by
    decide +kernel
  obtain ⟨hwritten, -, hread⟩ :=
    exchange_loses_nothing (n := 3) sample "qubits 2\n\n t +1 ".toList
  obtain ⟨c, -, hc, -, hback⟩ := hwritten (by decide +kernel) (by decide)
  obtain ⟨-, hinvalid, -⟩ := exchange_loses_nothing (n := 0) constantSample []
  obtain ⟨failure, -, hfailure⟩ := hinvalid (by decide +kernel)
  refine ⟨⟨c, hc, hback (by decide)⟩, ⟨failure, hfailure⟩, ?_⟩
  refine (hread fun c hc => ?_).1.mpr ⟨_, hparse⟩
  obtain rfl := Except.ok.inj (hparse.symm.trans hc)
  decide

end AffinePhase.Element
