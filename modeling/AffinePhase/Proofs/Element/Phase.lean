import AffinePhase.Proofs.Element.Gates
import AffinePhase.Proofs.Polynomial.Bytes

/-!
# Phases on output bits

A phase on an output bit adds a multiple of a parity to the polynomial, coefficient by coefficient
and in bytes, and the multiple is negated where the bit is flipped. What it does to basis states is
simpler: they stay, and those with the bit set gain a power. Such actions add up on one bit and
commute on any two. As an element is determined by its action, so do the phases, and the tables that
they leave are equal byte by byte.

## Main definitions

* `Element.leftMulPhaseInBytes`: a phase on an output bit, with all arithmetic in bytes.

## Main results

* `Element.leftMulPhaseInBytes_eq`: no overflow.
* `Element.InGroup.moves?_congr`: words of moves with the same action lead to the same element.
* `Element.phases_add_up`: phases add up and commute, and a word of phase gates is a phase.
-/

open scoped Fin.CommRing

namespace AffinePhase

open BasisImage

/-! ### Bytes -/

/-- The residue of a sum that is formed without a bound and reduced. -/
theorem Z8.ofByte_ofNat_add (k l : UInt8) :
    ofByte (UInt8.ofNat ((k.toNat + l.toNat) % 8)) = ofByte k + ofByte l := by
  have hbyte : (UInt8.ofNat ((k.toNat + l.toNat) % 8)).toNat = (k.toNat + l.toNat) % 8 :=
    UInt8.toNat_ofNat_of_lt' ((Nat.mod_lt _ (by decide)).trans (by decide))
  refine Fin.ext ?_
  show (UInt8.ofNat ((k.toNat + l.toNat) % 8)).toNat % 8 = (k.toNat % 8 + l.toNat % 8) % 8
  rw [hbyte]
  omega

namespace Element

variable {n : ℕ} {e e' : Element} {ms ms' : List Move} {a b q : ℕ}

/-- The exponent of a phase as a byte below eight, negated on a bit that is flipped. -/
def reducedPower (flipped : Bool) (power : UInt8) : Result UInt8 :=
  if flipped then Byte.mulReduced 7 (power % 8) else .ok (power % 8)

/-- As `phase?`, with the exponent and the coefficients in bytes. -/
def phaseInBytes (e : Element) (power : UInt8) (q : ℕ) : Result Element := do
  let flipped ← Result.ofOption (e.affine.shift.get? q)
  let reduced ← reducedPower flipped power
  let row ← Result.ofOption (e.affine.linear.row? q)
  let poly ← e.poly.addParityInBytes row.support reduced
  return { e with poly := poly }

/-- As `leftMulPhase`. -/
def leftMulPhaseInBytes (e : Element) (power : UInt8) (q : ℕ) : Result Element := do
  Result.indicesBelow e.numQubits [q]
  e.phaseInBytes power q

/-- The exponent is negated without overflow. -/
theorem reducedPower_eq (flipped : Bool) (power : UInt8) :
    reducedPower flipped power =
      .ok (Z8.toByte (if flipped then -Z8.ofByte power else Z8.ofByte power)) := by
  have hneg : ∀ k : Z8, -k = 7 * k := by decide
  rw [reducedPower, ← Z8.toByte_ofByte_eq_mod, hneg]
  cases flipped with
  | false => rfl
  | true => exact Byte.mulReduced_toByte 7 _

/-- **A phase overflows nowhere.** -/
theorem leftMulPhaseInBytes_eq (e : Element) (power : UInt8) (q : ℕ) :
    e.leftMulPhaseInBytes power q = e.leftMulPhase (Z8.ofByte power) q := by
  have hphase : e.phaseInBytes power q = Result.ofOption (e.phase? (Z8.ofByte power) q) := by
    rw [phaseInBytes, phase?]
    cases e.affine.shift.get? q with
    | none => rfl
    | some flipped =>
        rw [Result.ofOption_some, Result.ok_bind, reducedPower_eq, Result.ok_bind]
        cases e.affine.linear.row? q with
        | none => rfl
        | some row =>
            rw [Result.ofOption_some, Result.ok_bind, PhasePolynomial.addParityInBytes_eq,
              Z8.ofByte_toByte]
            rfl
  rw [leftMulPhaseInBytes, leftMulPhase, hphase]
  rfl

/-! ### Words of moves with the same action -/

/-- **Words of moves with the same action** lead to the same element. -/
theorem InGroup.moves?_congr (h : e.InGroup n) (hms : ∀ m ∈ ms, m.ActsOn n)
    (hms' : ∀ m ∈ ms', m.ActsOn n) (hact : actAll Move.act ms = actAll Move.act ms') :
    e.moves? ms = e.moves? ms' := by
  obtain ⟨e₁, he₁, h₁, hact₁⟩ := h.exists_moves? hms
  obtain ⟨e₂, he₂, h₂, hact₂⟩ := h.exists_moves? hms'
  have hsame : SameAction n e₁.act e₂.act := hact₁.trans (hact ▸ hact₂.symm)
  rw [he₁, he₂, h₁.ext_act h₂ hsame]

/-- A word of moves is its first part and then its second. -/
theorem moves?_append (h : e.moves? ms = some e') : e.moves? (ms ++ ms') = e'.moves? ms' := by
  rw [moves?, List.foldlM_append]
  exact congrArg (· >>= _) h

/-! ### Phases -/

/-- Phases on a qubit of `n` are moves on `n` qubits. -/
theorem phases_actsOn (ks : List Z8) (hq : q < n) :
    ∀ m ∈ ks.map (Move.phase · q), m.ActsOn n := by
  intro m hm
  obtain ⟨_, -, rfl⟩ := List.mem_map.mp hm
  exact hq

/-- A word of two moves acts as the first and then the second. -/
theorem actAll_pair (m m' : Move) : actAll Move.act [m, m'] = followedBy m.act m'.act := by
  rw [actAll_cons, actAll_singleton]

/-- Phases on one bit add up. -/
theorem act_phase_add (k l : Z8) (q : ℕ) :
    followedBy (Move.phase k q).act (Move.phase l q).act = (Move.phase (k + l) q).act := by
  funext index
  refine BasisImage.ext rfl ?_
  show (if index.testBit q then k else 0) + (if index.testBit q then l else 0) =
    if index.testBit q then k + l else 0
  split
  · rfl
  · exact add_zero 0

/-- Phases commute, on whatever bits. -/
theorem act_phase_comm (k l : Z8) (a b : ℕ) :
    followedBy (Move.phase k a).act (Move.phase l b).act =
      followedBy (Move.phase l b).act (Move.phase k a).act :=
  funext fun _ => BasisImage.ext rfl (add_comm _ _)

/-- **Phases on one bit** add up. -/
theorem actAll_phase (ks : List Z8) (q : ℕ) :
    actAll Move.act (ks.map (Move.phase · q)) = (Move.phase ks.sum q).act := by
  induction ks with
  | nil => exact funext fun index => BasisImage.ext rfl (ite_self (0 : Z8)).symm
  | cons k ks ih => rw [List.map_cons, actAll_cons, ih, act_phase_add, List.sum_cons]

/-- **A phase keeps the affine map**, of any element. -/
theorem affine_of_leftMulPhase {k : Z8} (h : e.leftMulPhase k q = .ok e') :
    e'.affine = e.affine := by
  obtain ⟨-, -, h⟩ := Result.bind_eq_ok.mp h
  obtain ⟨flipped, -, h⟩ := Option.bind_eq_some_iff.mp (Result.ofOption_eq_ok.mp h)
  obtain ⟨row, -, h⟩ := Option.bind_eq_some_iff.mp h
  obtain rfl := Option.some.inj h
  rfl

/-- A phase on an output bit that exists is a word of one move. -/
theorem InGroup.exists_leftMulPhase (h : e.InGroup n) (k : Z8) (hq : q < n) :
    ∃ e', e.leftMulPhase k q = .ok e' ∧ e.moves? [.phase k q] = some e' ∧ e'.InGroup n := by
  have hbelow : Result.indicesBelow e.numQubits [q] = .ok () :=
    Result.indicesBelow_eq_ok.mpr (by simpa [h.numQubits_eq] using hq)
  have hone : e.moves? [.phase k q] = e.move? (.phase k q) := by
    rw [moves?, List.foldlM_cons]
    exact bind_pure (e.move? (.phase k q))
  obtain ⟨e', he', h', -⟩ := h.exists_move? (m := .phase k q) hq
  refine ⟨e', ?_, hone.trans he', h'⟩
  rw [leftMulPhase, hbelow, Result.ok_bind, he', Result.ofOption_some]

/-- Two phases, one after the other, are a word of two moves. -/
theorem InGroup.exists_two_phases (h : e.InGroup n) (k l : Z8) (ha : a < n) (hb : b < n) :
    ∃ e₁ e₂, e.leftMulPhase k a = .ok e₁ ∧ e₁.leftMulPhase l b = .ok e₂ ∧
      e.moves? [.phase k a, .phase l b] = some e₂ := by
  obtain ⟨e₁, he₁, hmove₁, h₁⟩ := h.exists_leftMulPhase k ha
  obtain ⟨e₂, he₂, hmove₂, -⟩ := h₁.exists_leftMulPhase l hb
  exact ⟨e₁, e₂, he₁, he₂, (moves?_append hmove₁).trans hmove₂⟩

/-- Phase gates on one bit are a word of phases on it. -/
theorem InGroup.exists_leftMulAll (h : e.InGroup n) (hq : q < n) {gates : List Gate}
    (hgates : ∀ g ∈ gates, ∃ k, g.phasePower = some k) :
    ∃ e', e.leftMulAll (gates.map fun gate => (gate, [q])) = .ok e' ∧
      e.moves? ((gates.map fun g => g.phasePower.getD 0).map (Move.phase · q)) = some e' := by
  induction gates generalizing e with
  | nil => exact ⟨e, rfl, rfl⟩
  | cons gate gates ih =>
      obtain ⟨⟨k, hk⟩, hgates⟩ := List.forall_mem_cons.mp hgates
      obtain ⟨harity, hmoves⟩ := moves_of_phasePower hk q
      have hinstruction : Instruction.of gate [q] e.numQubits = .ok ⟨gate, [q]⟩ :=
        instruction_one gate harity (h.numQubits_eq.symm ▸ hq)
      obtain ⟨e₁, -, hmove₁, h₁⟩ := h.exists_leftMulPhase k hq
      have he₁ : e.leftMul gate [q] = .ok e₁ := by
        rw [leftMul, hinstruction, Result.ok_bind, hmoves, hmove₁, Result.ofOption_some]
      obtain ⟨e', he', hmove'⟩ := ih h₁ hgates
      refine ⟨e', (leftMulAll_cons he₁).trans he', ?_⟩
      rw [List.map_cons, List.map_cons, hk]
      exact (moves?_append hmove₁).trans hmove'

/-- Two phases on one bit are one. -/
theorem InGroup.phase_phase (h : e.InGroup n) (k l : Z8) (ha : a < n) :
    ∃ e₁ e₂, e.leftMulPhase k a = .ok e₁ ∧ e₁.leftMulPhase l a = .ok e₂ ∧
      e.leftMulPhase (k + l) a = .ok e₂ := by
  obtain ⟨e₁, e₂, he₁, he₂, hmoves⟩ := h.exists_two_phases k l ha ha
  obtain ⟨e₃, he₃, hmove, -⟩ := h.exists_leftMulPhase (k + l) ha
  have hword : e.moves? [.phase k a, .phase l a] = e.moves? [.phase (k + l) a] := by
    refine h.moves?_congr (phases_actsOn [k, l] ha) (phases_actsOn [k + l] ha) ?_
    rw [actAll_pair, act_phase_add, actAll_singleton]
  rw [hmoves, hmove] at hword
  exact ⟨e₁, e₂, he₁, he₂, Option.some.inj hword ▸ he₃⟩

/-- Phases on any two bits may be exchanged. -/
theorem InGroup.phase_comm (h : e.InGroup n) (k l : Z8) (ha : a < n) (hb : b < n) :
    ∃ e₁ e₂ e₃, e.leftMulPhase k a = .ok e₁ ∧ e₁.leftMulPhase l b = .ok e₃ ∧
      e.leftMulPhase l b = .ok e₂ ∧ e₂.leftMulPhase k a = .ok e₃ := by
  have hpair {k l : Z8} {a b : ℕ} (ha : a < n) (hb : b < n) :
      ∀ m ∈ [Move.phase k a, .phase l b], m.ActsOn n :=
    List.forall_mem_append.mpr ⟨phases_actsOn [k] ha, phases_actsOn [l] hb⟩
  obtain ⟨e₁, e₃, he₁, he₃, hmoves⟩ := h.exists_two_phases k l ha hb
  obtain ⟨e₂, e₄, he₂, he₄, hmoves'⟩ := h.exists_two_phases l k hb ha
  have hword : e.moves? [.phase k a, .phase l b] = e.moves? [.phase l b, .phase k a] := by
    refine h.moves?_congr (hpair ha hb) (hpair hb ha) ?_
    rw [actAll_pair, actAll_pair, act_phase_comm]
  rw [hmoves, hmoves'] at hword
  exact ⟨e₁, e₂, e₃, he₁, he₃, he₂, Option.some.inj hword ▸ he₄⟩

/-- The phase gates of an exponent are one phase. -/
theorem InGroup.leftMulAll_phaseGates (h : e.InGroup n) (k : Z8) (ha : a < n) :
    ∃ e', e.leftMulPhase k a = .ok e' ∧ e'.InGroup n ∧
      e.leftMulAll ((Gate.phaseGates k).map fun gate => (gate, [a])) = .ok e' := by
  have hpowers : ∀ g ∈ Gate.phaseGates k, ∃ d, g.phasePower = some d := by
    revert k; decide
  obtain ⟨e₁, he₁, hmove, h₁⟩ := h.exists_leftMulPhase k ha
  obtain ⟨e₂, he₂, hmoves⟩ := h.exists_leftMulAll ha hpowers
  have hword : e.moves? (((Gate.phaseGates k).map fun g => g.phasePower.getD 0).map
      (Move.phase · a)) = e.moves? [.phase k a] := by
    refine h.moves?_congr (phases_actsOn _ ha) (phases_actsOn [k] ha) ?_
    rw [actAll_phase, sum_phasePower, actAll_singleton]
  rw [hmoves, hmove] at hword
  exact ⟨e₁, he₁, h₁, Option.some.inj hword ▸ he₂⟩

/-- **Phases add up and commute.** Applied in bytes to a valid element, phases are formed without
overflow. Two of them on one bit are the phase of the sum, on any two bits they commute, and the
phase gates of an exponent are a phase with that exponent. The results are equal in every stored
byte; they are valid, and have the affine map of the element. -/
theorem phases_add_up (he : e.ValidOn n) (k l : UInt8) (ha : a < n) (hb : b < n) :
    (∃ e₁ e₂, e.leftMulPhaseInBytes k a = .ok e₁ ∧ e₁.leftMulPhaseInBytes l a = .ok e₂ ∧
      e.leftMulPhaseInBytes (UInt8.ofNat ((k.toNat + l.toNat) % 8)) a = .ok e₂) ∧
    (∃ e₁ e₂ e₃, e.leftMulPhaseInBytes k a = .ok e₁ ∧ e₁.leftMulPhaseInBytes l b = .ok e₃ ∧
      e.leftMulPhaseInBytes l b = .ok e₂ ∧ e₂.leftMulPhaseInBytes k a = .ok e₃) ∧
    ∃ e₁, e.leftMulPhaseInBytes k a = .ok e₁ ∧ e.leftMulPhase (Z8.ofByte k) a = .ok e₁ ∧
      e.leftMulAll ((Gate.phaseGates (Z8.ofByte k)).map fun gate => (gate, [a])) = .ok e₁ ∧
      e₁.ValidOn n ∧ e₁.affine = e.affine := by
  have h : e.InGroup n := validOn_iff.mp he
  simp only [leftMulPhaseInBytes_eq, Z8.ofByte_ofNat_add, validOn_iff]
  refine ⟨h.phase_phase _ _ ha, h.phase_comm _ _ ha hb, ?_⟩
  obtain ⟨e₁, he₁, h₁, hgates⟩ := h.leftMulAll_phaseGates (Z8.ofByte k) ha
  exact ⟨e₁, he₁, he₁, hgates, h₁, affine_of_leftMulPhase he₁⟩

/-- Two exponents whose sum is no byte, on bits of which one is flipped. -/
theorem phases_add_up_of_sample :
    (∃ e₁ e₂, sample.leftMulPhaseInBytes 250 0 = .ok e₁ ∧ e₁.leftMulPhaseInBytes 251 0 = .ok e₂ ∧
      sample.leftMulPhaseInBytes 5 0 = .ok e₂) ∧
    ∃ e₁ e₂ e₃, sample.leftMulPhaseInBytes 250 0 = .ok e₁ ∧ e₁.leftMulPhaseInBytes 251 1 = .ok e₃ ∧
      sample.leftMulPhaseInBytes 251 1 = .ok e₂ ∧ e₂.leftMulPhaseInBytes 250 0 = .ok e₃ := by
  obtain ⟨hsum, hcomm, -⟩ := phases_add_up (e := sample) (n := 3) (by decide +kernel) 250 251
    (a := 0) (b := 1) (by decide) (by decide)
  exact ⟨hsum, hcomm⟩

end Element

end AffinePhase
