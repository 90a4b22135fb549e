import AffinePhase.Proofs.BitVector
import Mathlib.Algebra.Group.Nat.Defs

/-!
# Bits of a word by arithmetic

A bit is read by moving it down to the lowest place, and written by a mask that is a one moved up.
The positions of the set bits are found one at a time: the lowest one is the number of trailing
zeros, and subtracting one changes just the bits up to it, so that the common bits of a word and its
predecessor are the set bits without the lowest. Each step makes the word smaller, and so the loop
ends.

## Main definitions

* `Word.shiftedBit`, `Word.lowest`, `Word.clearLowest`: a bit, the lowest set bit, and the others.
* `Word.scan`: the positions of the set bits, by a loop.

## Main results

* `Word.shiftedBit_eq`, `Word.single_eq_shift`: shifts give the bits and the masks.
* `Word.bit_clearLowest`: the loop takes away one bit.
* `Word.scan_eq_positions`: the loop lists the positions.
-/

namespace AffinePhase.Word

variable {w : Word} {i : ℕ}

/-! ### Shifts -/

/-- Bit `i` of a word, read by moving it down to the lowest place. -/
def shiftedBit (w : Word) (i : ℕ) : Bool :=
  (w >>> UInt64.ofNat i) &&& 1 == 1

/-- An amount below 64 is not reduced. -/
theorem toNat_ofNat_mod (hi : i < 64) : (UInt64.ofNat i).toNat % 64 = i := by
  have hsize : i < UInt64.size := hi.trans (by decide)
  rw [UInt64.toNat_ofNat_of_lt' hsize, Nat.mod_eq_of_lt hi]

/-- **A bit is read** by moving it down to the lowest place. -/
theorem shiftedBit_eq (hi : i < 64) : w.shiftedBit i = w.bit i := by
  have hbit : w.bit i = w.toNat.testBit i := rfl
  have hdown : ((w >>> UInt64.ofNat i) &&& 1).toNat = w.toNat / 2 ^ i % 2 := by
    rw [UInt64.toNat_and, UInt64.toNat_shiftRight, toNat_ofNat_mod hi, UInt64.toNat_one,
      Nat.and_one_is_mod, Nat.shiftRight_eq_div_pow]
  rw [hbit, Nat.testBit_eq_decide_div_mod_eq, ← hdown, shiftedBit, Bool.eq_iff_iff, beq_iff_eq,
    decide_eq_true_eq, ← UInt64.toNat_inj]
  rfl

/-- **The mask of a bit** is a one moved up. -/
theorem single_eq_shift (hi : i < 64) : single i = 1 <<< UInt64.ofNat i := by
  refine UInt64.toNat_inj.mp ?_
  rw [UInt64.toNat_shiftLeft, toNat_ofNat_mod hi, UInt64.toNat_one, Nat.one_shiftLeft]
  exact BitVec.toNat_twoPow 64 i

/-! ### The lowest set bit -/

/-- The position of the lowest set bit: the number of zeros below it. -/
def lowest (w : Word) : ℕ :=
  w.toBitVec.ctz.toNat

/-- The word without its lowest set bit. -/
def clearLowest (w : Word) : Word :=
  w &&& (w - 1)

/-- The lowest bit is set. -/
theorem bit_lowest (hw : w ≠ 0) : w.bit w.lowest = true := by
  refine BitVec.getLsbD_true_ctz_of_ne_zero fun hzero => hw ?_
  exact UInt64.eq_of_toBitVec_eq hzero

/-- No bit below the lowest is set. -/
theorem lowest_le_of_bit (h : w.bit i = true) : w.lowest ≤ i := by
  by_contra hi
  have hbelow : w.bit i = false := BitVec.getLsbD_false_of_lt_ctz (Nat.lt_of_not_le hi)
  rw [hbelow] at h
  cases h

/-- A word is a multiple of twice its lowest bit, and this bit. -/
theorem exists_toNat_eq (hw : w ≠ 0) :
    ∃ q, w.toNat = 2 ^ (w.lowest + 1) * q + 2 ^ w.lowest := by
  have hlow : w.toNat % 2 ^ (w.lowest + 1) = 2 ^ w.lowest := by
    refine Nat.eq_of_testBit_eq fun i => ?_
    have hbit : w.toNat.testBit i = w.bit i := rfl
    rw [Nat.testBit_mod_two_pow, Nat.testBit_two_pow, hbit]
    obtain hi | rfl | hi := lt_trichotomy i w.lowest
    · have hbelow : w.bit i = false := BitVec.getLsbD_false_of_lt_ctz hi
      simp [hbelow, hi.ne']
    · simp [bit_lowest hw]
    · simp [hi.ne, show ¬ i < w.lowest + 1 by omega]
  exact ⟨w.toNat / 2 ^ (w.lowest + 1), by rw [← hlow, Nat.div_add_mod]⟩

/-- One less a word that is not zero. -/
theorem toNat_sub_one (hw : w ≠ 0) : (w - 1).toNat = w.toNat - 1 ∧ 0 < w.toNat := by
  have hpos : 0 < w.toNat := Nat.pos_of_ne_zero fun hzero => hw (UInt64.toNat_inj.mp hzero)
  exact ⟨UInt64.toNat_sub_of_le w 1 (UInt64.le_iff_toNat_le.mpr hpos), hpos⟩

/-- **Clearing the lowest bit** keeps the others. -/
theorem bit_clearLowest (hw : w ≠ 0) (i : ℕ) :
    w.clearLowest.bit i = (w.bit i && decide (i ≠ w.lowest)) := by
  obtain ⟨q, hq⟩ := exists_toNat_eq hw
  have hbit : w.bit i = (2 ^ (w.lowest + 1) * q + 2 ^ w.lowest).testBit i :=
    congrArg (Nat.testBit · i) hq
  have hone : 1 ≤ 2 ^ w.lowest := Nat.one_le_two_pow
  have hpower : 2 ^ w.lowest < 2 ^ (w.lowest + 1) := Nat.pow_lt_pow_right (by decide) (by omega)
  have hpred : (w - 1).bit i = (2 ^ (w.lowest + 1) * q + (2 ^ w.lowest - 1)).testBit i := by
    refine congrArg (Nat.testBit · i) ((toNat_sub_one hw).1.trans ?_)
    omega
  rw [clearLowest, bit_and, hpred, hbit, Nat.testBit_two_pow_mul_add q hpower,
    Nat.testBit_two_pow_mul_add q (by omega), Nat.testBit_two_pow, Nat.testBit_two_pow_sub_one]
  split
  · -- up to the lowest bit, the two words have no bit in common
    by_cases hi : i < w.lowest
    · simp [hi.ne', hi.ne]
    · have hi : i = w.lowest := by omega
      simp [hi]
  · have hne : i ≠ w.lowest := by omega
    simp [hne]

/-- Clearing the lowest bit makes a word smaller. -/
theorem toNat_clearLowest_lt (hw : w ≠ 0) : w.clearLowest.toNat < w.toNat := by
  obtain ⟨hpred, hpos⟩ := toNat_sub_one hw
  have hle : w.clearLowest.toNat ≤ w.toNat - 1 := by
    rw [clearLowest, UInt64.toNat_and, hpred]
    exact Nat.and_le_right
  omega

/-! ### The loop -/

/-- The positions of the set bits, the lowest one first, which is then cleared. -/
def scan (w : Word) : List ℕ :=
  if w = 0 then [] else w.lowest :: w.clearLowest.scan
termination_by w.toNat
decreasing_by exact toNat_clearLowest_lt ‹_›

/-- **The loop lists the positions** of the set bits. -/
theorem scan_eq_positions (w : Word) : w.scan = w.positions := by
  fun_induction scan w with
  | case1 => decide
  | case2 w hw ih =>
      have hlater : ∀ i ∈ w.clearLowest.positions, w.lowest < i := by
        intro i hi
        rw [mem_positions, bit_clearLowest hw, Bool.and_eq_true, decide_eq_true_eq] at hi
        exact lt_of_le_of_ne (lowest_le_of_bit hi.1) hi.2.symm
      rw [ih]
      refine (List.pairwise_cons.mpr ⟨hlater, pairwise_positions _⟩).eq_of_mem_iff
        w.pairwise_positions fun i => ?_
      rw [List.mem_cons, mem_positions, mem_positions, bit_clearLowest hw]
      by_cases hi : i = w.lowest
      · rw [hi, bit_lowest hw]
        simp
      · simp [hi]

end AffinePhase.Word
