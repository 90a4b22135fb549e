/-!
# Residues modulo eight

Phases are powers of `ω = e^{iπ/4}`, so exponents and coefficients count modulo eight. A
coefficient is stored as a byte, which may hold any value; it stands for its residue.

## Main definitions

* `Z8`: the residues.
* `Z8.ofByte`, `Z8.toByte`: the residue of a byte, and the byte below eight of a residue.
* `Z8.valuation`: how often two divides a residue, three for zero.

## Main results

* `Z8.ofByte_toByte`, `Z8.toByte_ofByte_eq_mod`: a residue is read back from its byte, and the byte
  of the residue of a byte is its remainder.
-/

namespace AffinePhase

/-- A residue modulo eight. -/
abbrev Z8 := Fin 8

namespace Z8

/-- Numerals and the ring structure of the residues are taken at this instance. -/
instance neZero_modulus : @NeZero Nat Zero.ofOfNat0 8 := ⟨Nat.succ_ne_zero 7⟩

/-- The residue of a number. -/
def ofNat (n : Nat) : Z8 :=
  Fin.ofNat 8 n

/-- The residue that a stored byte stands for. -/
def ofByte (b : UInt8) : Z8 :=
  ofNat b.toNat

/-- The byte below eight that stands for a residue. -/
def toByte (r : Z8) : UInt8 :=
  UInt8.ofNat r.val

/-- How often two divides a residue, three for zero. -/
def valuation (r : Z8) : Nat :=
  if r.val % 2 = 1 then 0
  else if r.val % 4 = 2 then 1
  else if r.val = 4 then 2
  else 3

/-- A residue is read back from its byte. -/
@[simp] theorem ofByte_toByte (r : Z8) : ofByte (toByte r) = r := by
  revert r; decide

/-- The byte of a residue, as a number. -/
theorem toNat_toByte (r : Z8) : (toByte r).toNat = r.val := by
  revert r; decide

/-- What a byte stands for is its remainder. -/
theorem toByte_ofByte_eq_mod (w : UInt8) : toByte (ofByte w) = w % 8 := by
  refine UInt8.toNat_inj.mp ?_
  rw [toNat_toByte, UInt8.toNat_mod]
  rfl

/-- A byte below eight stands for itself. -/
theorem toByte_ofByte {w : UInt8} (h : w < 8) : toByte (ofByte w) = w := by
  rw [toByte_ofByte_eq_mod]
  exact UInt8.mod_eq_of_lt h

/-- Only zero is stored as the byte zero. -/
theorem toByte_eq_zero_iff {r : Z8} : toByte r = 0 ↔ r = 0 := by
  revert r; decide

/-- A residue is stored as a byte below eight. -/
theorem toByte_lt (r : Z8) : toByte r < 8 := by
  rw [UInt8.lt_iff_toNat_lt, toNat_toByte]
  exact r.isLt

end Z8

end AffinePhase
