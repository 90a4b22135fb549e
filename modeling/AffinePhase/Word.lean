/-!
# Machine words as sixty-four bits

A packed bit vector stores its bits in 64-bit machine words. This module fixes the reading of a
word as bits, bit `i` weighing `2 ^ i`, and gives the few word operations that packed vectors
need: a single bit, a block of low bits, packing a list of bits, counting the bits that are set
and listing their positions.

## Main results

* `Word.ext_bits`: a word is determined by its sixty-four bits.
* `Word.bit_pack`: packing a list of at most sixty-four bits can be read back.
* `Word.mem_positions`: the listed positions are exactly those of the set bits.
-/

namespace AffinePhase

/-- A machine word of sixty-four bits. -/
abbrev Word := UInt64

namespace Word

/-- Bit `i` of a word, `false` from position 64 on. -/
def bit (w : Word) (i : Nat) : Bool :=
  w.toBitVec.getLsbD i

/-- The word whose only set bit is bit `i`. -/
def single (i : Nat) : Word :=
  UInt64.ofBitVec (BitVec.twoPow 64 i)

/-- The word whose `k` lowest bits are set. -/
def low (k : Nat) : Word :=
  UInt64.ofBitVec (BitVec.ofNat 64 ((1 <<< k) - 1))

/-- Packs a list of bits into one word, first bit lowest; bits past the sixty-fourth are lost. -/
def pack : List Bool → Word
  | [] => 0
  | b :: bs => (pack bs <<< 1) ||| (if b then 1 else 0)

/-- The sixty-four bits, lowest first. -/
def bits (w : Word) : List Bool :=
  (List.range 64).map (bit w)

/-- The positions of the set bits, in increasing order. -/
def positions (w : Word) : List Nat :=
  (List.range 64).filter (bit w)

/-- The number of set bits. -/
def weight (w : Word) : Nat :=
  w.toBitVec.cpopNatRec 64 0

/-! ### The bits of each operation -/

/-- There are sixty-four bits. -/
theorem bit_of_le (w : Word) {i : Nat} (h : 64 ≤ i) : bit w i = false :=
  BitVec.getLsbD_of_ge _ _ h

/-- **Extensionality.** Two words with the same sixty-four bits are equal. -/
theorem ext_bits {v w : Word} (h : ∀ i, i < 64 → bit v i = bit w i) : v = w :=
  UInt64.eq_of_toBitVec_eq (BitVec.eq_of_getLsbD_eq h)

/-- The word zero has no bit set. -/
@[simp] theorem bit_zero (i : Nat) : bit 0 i = false := by
  simp [bit]

/-- The exclusive or is taken bit by bit. -/
@[simp] theorem bit_xor (v w : Word) (i : Nat) : bit (v ^^^ w) i = (bit v i ^^ bit w i) := by
  simp [bit]

/-- The conjunction is taken bit by bit. -/
@[simp] theorem bit_and (v w : Word) (i : Nat) : bit (v &&& w) i = (bit v i && bit w i) := by
  simp [bit]

/-- The disjunction is taken bit by bit. -/
@[simp] theorem bit_or (v w : Word) (i : Nat) : bit (v ||| w) i = (bit v i || bit w i) := by
  simp [bit]

/-- The complement is taken bit by bit, as far as there are bits. -/
theorem bit_not (w : Word) {i : Nat} (h : i < 64) : bit (~~~w) i = !bit w i := by
  simp [bit, h]

/-- The word with one bit has this bit and no other. -/
theorem bit_single (i j : Nat) : bit (single i) j = (decide (i < 64) && decide (i = j)) := by
  simp [bit, single, BitVec.getLsbD_twoPow]

/-- The word of low bits has the bits below `k`. -/
theorem bit_low (k i : Nat) : bit (low k) i = (decide (i < 64) && decide (i < k)) := by
  simp [bit, low, BitVec.getLsbD_ofNat, Nat.one_shiftLeft, Nat.testBit_two_pow_sub_one]

/-- A shift by one moves every bit up and brings in a zero. -/
theorem bit_shift_one (w : Word) {i : Nat} (h : i < 64) :
    bit (w <<< 1) i = (decide (0 < i) && bit w (i - 1)) := by
  have hamount : (1 : Word).toBitVec % 64 = 1#64 := rfl
  rw [bit, UInt64.toBitVec_shiftLeft, hamount, BitVec.shiftLeft_eq', BitVec.getLsbD_shiftLeft]
  cases i with
  | zero => rfl
  | succ i => simp [bit, h]

/-- **A packed list can be read back**, as far as it fits. -/
theorem bit_pack (bs : List Bool) {i : Nat} (h : i < 64) : bit (pack bs) i = bs[i]?.getD false := by
  induction bs generalizing i with
  | nil => simp [pack]
  | cons b bs ih =>
      cases i with
      | zero => cases b <;> simp [pack, bit]
      | succ i =>
          -- The new lowest bit does not reach the place of an old one.
          have hlowest : bit (if b then (1 : Word) else 0) (i + 1) = false := by
            cases b <;> simp [bit]
          simp [pack, bit_shift_one _ h, hlowest, ih (i := i) (by omega)]

/-- A word has sixty-four bits. -/
@[simp] theorem length_bits (w : Word) : (bits w).length = 64 := by
  simp [bits]

/-- The list of the bits has bit `i` in place `i`. -/
theorem getElem?_bits {w : Word} {i : Nat} (h : i < 64) : (bits w)[i]? = some (bit w i) := by
  simp [bits, List.getElem?_range h]

/-- A position in a word is below sixty-four. -/
theorem lt_of_mem_positions {w : Word} {i : Nat} (h : i ∈ positions w) : i < 64 :=
  List.mem_range.mp (List.mem_filter.mp h).1

/-- **The listed positions are those of the set bits.** -/
theorem mem_positions {w : Word} {i : Nat} : i ∈ positions w ↔ bit w i = true := by
  rw [positions, List.mem_filter, List.mem_range]
  refine ⟨And.right, fun h => ⟨Nat.lt_of_not_le fun hge => ?_, h⟩⟩
  rw [bit_of_le w hge] at h
  cases h

end Word

end AffinePhase
