import AffinePhase.BitVector.Basic
import Mathlib.Data.List.Sort

/-!
# Supports, bits and inner products of packed vectors

The inner product of two vectors is computed by counting the common bits word by word, and the
support of a vector by listing the bits of each word. Both are read here as statements about
single bits: the support is the sorted list of the indices below the length whose bit is set, and
the inner product of `v` and `w` is the parity `v.parityAt w.bit` of the number of indices in the
support of `v` at which `w` is set.

## Main results

* `BitVector.support_eq_filter`: the support as a filtered range.
* `BitVector.eq_iff_get?`, `BitVector.isZero_iff`: equality and zero, bit by bit.
* `BitVector.dot?_eq_some`: the inner product as a parity.
* `BitVector.parityAt_congr`: only the bits below the length matter.
-/

namespace AffinePhase

/-- The number of set bits among the lowest `n` of a word. -/
theorem Word.cpopNatRec_eq_countP (w : Word) (n : ℕ) :
    w.toBitVec.cpopNatRec n 0 = (List.range n).countP w.bit := by
  induction n with
  | zero => rfl
  | succ n ih =>
      have hbit : w.toBitVec.getLsbD n = w.bit n := rfl
      rw [BitVec.cpopNatRec_succ, BitVec.cpopNatRec_eq, ih, List.range_succ, List.countP_append,
        List.countP_singleton, Nat.zero_add, hbit]
      cases w.bit n <;> rfl

/-- The weight of a word counts its set bits. -/
theorem Word.weight_eq_countP (w : Word) : w.weight = (List.range 64).countP w.bit :=
  w.cpopNatRec_eq_countP 64

/-- The positions listed for a word increase. -/
theorem Word.pairwise_positions (w : Word) : w.positions.Pairwise (· < ·) :=
  List.pairwise_lt_range.filter _

namespace BitVector

variable {v w u : BitVector}

/-! ### Bits of a list of words -/

/-- Counting common bits word by word counts the indices at which both lists have their bit set. -/
theorem sum_weight_eq_countP (ws : List Word) :
    ∀ vs : List Word, vs.length = ws.length →
      (List.zipWith (fun a b => Word.weight (a &&& b)) vs ws).foldr (· + ·) 0 =
        (List.range (64 * vs.length)).countP fun i => packedBit vs i && packedBit ws i := by
  induction ws with
  | nil =>
      intro vs h
      rw [List.length_eq_zero_iff.mp h]
      rfl
  | cons b ws ih =>
      intro vs h
      obtain ⟨a, vs, rfl⟩ := List.exists_cons_of_length_eq_add_one h
      have hrange : 64 * (a :: vs).length = 64 + 64 * vs.length := by
        rw [List.length_cons]; omega
      have hfirst : Word.weight (a &&& b) = (List.range 64).countP
          fun i => packedBit (a :: vs) i && packedBit (b :: ws) i := by
        rw [Word.weight_eq_countP]
        refine List.countP_congr fun i hi => ?_
        have hi := List.mem_range.mp hi
        rw [packedBit_cons_of_lt a vs hi, packedBit_cons_of_lt b ws hi, Word.bit_and]
      rw [hrange, List.range_add, List.countP_append, List.countP_map, ← hfirst,
        List.zipWith_cons_cons, List.foldr_cons, ih vs (Nat.succ.inj h)]
      congr 1
      refine List.countP_congr fun i _ => ?_
      rw [Function.comp_apply, packedBit_cons_add, packedBit_cons_add]

/-! ### The support -/

/-- The support increases: within a word, and from each word to the next. -/
theorem pairwise_support (v : BitVector) : v.support.Pairwise (· < ·) := by
  have hindices : v.words.zipIdx.Pairwise fun s t => s.2 < t.2 := by
    rw [← List.pairwise_map, List.zipIdx_map_snd]
    exact List.pairwise_lt_range'
  rw [support, List.pairwise_flatMap]
  refine ⟨fun s _ => ?_, hindices.imp fun {s t} hst i hi j hj => ?_⟩
  · exact (Word.pairwise_positions s.1).map _ fun a b hab => by omega
  · obtain ⟨a, ha, rfl⟩ := List.mem_map.mp hi
    obtain ⟨b, _, rfl⟩ := List.mem_map.mp hj
    have := Word.lt_of_mem_positions ha
    omega

/-- A bit that is set stands below the length. -/
theorem lt_length_of_bit {i : ℕ} (h : v.bit i = true) : i < v.length := by
  by_contra hi
  rw [v.bit_eq_false (by omega)] at h
  cases h

/-- **The support as a filtered range**, of any bound not below the length. -/
theorem support_eq_filter (v : BitVector) {n : ℕ} (hn : v.length ≤ n) :
    v.support = (List.range n).filter v.bit := by
  refine v.pairwise_support.eq_of_mem_iff (List.pairwise_lt_range.filter _) fun i => ?_
  rw [mem_support, List.mem_filter, List.mem_range]
  exact ⟨fun h => ⟨(lt_length_of_bit h).trans_le hn, h⟩, fun h => h.2⟩

/-- The positions in the support are below the length. -/
theorem lt_of_mem_support {i : ℕ} (h : i ∈ v.support) : i < v.length :=
  lt_length_of_bit (mem_support.mp h)

/-! ### The normal form -/

/-- **Equal vectors** have the same length and the same bits. -/
theorem eq_iff_get? :
    v = w ↔ v.length = w.length ∧ ∀ i < v.length, v.get? i = w.get? i := by
  constructor
  · rintro rfl
    exact ⟨rfl, fun i _ => rfl⟩
  · rintro ⟨hlength, hbits⟩
    refine ext_bits hlength fun i hi => ?_
    have hbit := hbits i hi
    rw [get?_eq_some v hi, get?_eq_some w (hlength ▸ hi)] at hbit
    exact Option.some.inj hbit

/-- **A vector is zero** if all its bits are. -/
theorem isZero_iff : v.isZero = true ↔ ∀ i < v.length, v.get? i = some false := by
  rw [isZero, List.all_eq_true]
  constructor
  · intro h i hi
    rw [get?_eq_some v hi, bit, packedBit]
    cases hword : v.words[i / 64]? with
    | none => rw [Option.getD_none, Word.bit_zero]
    | some word =>
        have hzero : word = 0 := beq_iff_eq.mp (h word (List.mem_of_getElem? hword))
        rw [hzero, Option.getD_some, Word.bit_zero]
  · intro h
    have hzeros : v = zeros v.length := by
      refine eq_iff_get?.mpr ⟨rfl, fun i hi => ?_⟩
      rw [h i hi, get?_eq_some _ (show i < (zeros v.length).length from hi), bit_zeros]
    intro word hword
    rw [hzeros] at hword
    exact beq_iff_eq.mpr (List.eq_of_mem_replicate hword)

/-- A vector that is made of words has the length that is asked for. -/
theorem length_of_ofWords? {n : ℕ} {words : List Word} (h : ofWords? n words = some v) :
    v.length = n := by
  rw [ofWords?] at h
  split at h
  · exact Option.some.inj h ▸ rfl
  · cases h

/-- **A vector is rebuilt** from its length and its words. -/
theorem ofWords?_words (v : BitVector) : ofWords? v.length v.words = some v := by
  obtain ⟨u, hu⟩ : ∃ u, ofWords? v.length v.words = some u := ⟨_, dif_pos v.length_words⟩
  have hlength : u.length = v.length := length_of_ofWords? hu
  have hsame : u = v := by
    refine ext_bits hlength fun i hi => ?_
    rw [bit_of_ofWords? hu, decide_eq_true (hlength ▸ hi), Bool.true_and]
    rfl
  rw [hu, hsame]

/-! ### Setting a bit -/

/-- Setting a bit keeps the length. -/
theorem length_of_set? {i : ℕ} {b : Bool} (h : v.set? i b = some u) : u.length = v.length := by
  rw [set?] at h
  split at h
  · obtain rfl := Option.some.inj h
    split
    · rfl
    · exact v.length_flip i
  · cases h

/-- **Setting a bit** that exists changes this bit and no other. -/
theorem exists_set? {i : ℕ} (hi : i < v.length) (b : Bool) :
    ∃ u, v.set? i b = some u ∧ u.length = v.length ∧
      ∀ j, u.bit j = if i = j then b else v.bit j := by
  obtain ⟨u, hu⟩ : ∃ u, v.set? i b = some u := ⟨_, if_pos hi⟩
  refine ⟨u, hu, length_of_set? hu, fun j => ?_⟩
  rw [set?, if_pos hi] at hu
  obtain rfl := Option.some.inj hu
  split
  · rename_i hb
    split
    · rename_i hij
      rw [← hij, hb]
    · rfl
  · rename_i hb
    rw [bit_flip]
    by_cases hij : i = j
    · rw [← hij]
      cases b <;> simp_all
    · simp [hij]

/-! ### Parities -/

/-- The parity of the number of set bits of `v` at which `x` holds. -/
def parityAt (v : BitVector) (x : ℕ → Bool) : Bool :=
  v.support.countP x % 2 == 1

/-- Adding up the common bits of all words counts the indices at which both vectors are set. -/
theorem countP_support (h : v.length = w.length) :
    v.support.countP w.bit =
      (List.zipWith (fun a b => Word.weight (a &&& b)) v.words w.words).foldr (· + ·) 0 := by
  have hwords : v.words.length = w.words.length := by rw [v.length_words, w.length_words, h]
  rw [v.support_eq_filter v.length_le_stored, List.countP_filter,
    sum_weight_eq_countP w.words v.words hwords]
  refine List.countP_congr fun i _ => ?_
  rw [bit, bit, Bool.and_comm]

/-- **The inner product** of vectors of the same length is a parity. -/
theorem dot?_eq_some (h : v.length = w.length) : v.dot? w = some (v.parityAt w.bit) := by
  rw [dot?, if_pos h, parityAt, countP_support h]

/-- Only the bits below the length matter. -/
theorem parityAt_congr {x y : ℕ → Bool} (h : ∀ i < v.length, x i = y i) :
    v.parityAt x = v.parityAt y := by
  rw [parityAt, parityAt, List.countP_congr fun i hi => by rw [h i (lt_of_mem_support hi)]]

/-! ### Joining and placing -/

/-- A joined vector has the bits of both parts. -/
theorem length_append (v w : BitVector) : (v.append w).length = v.length + w.length := by
  rw [append, length_ofList, List.length_append, length_toList, length_toList]

/-- Only vectors of the same length have a sum. -/
theorem length_eq_of_xor? (h : v.xor? w = some u) : w.length = v.length := by
  by_contra hne
  rw [xor?, dif_neg (Ne.symm hne)] at h
  cases h

/-- A vector can be placed where it fits. -/
theorem exists_place? {offset length : ℕ} (h : offset + v.length ≤ length) :
    ∃ u, v.place? offset length = some u := by
  rw [place?, if_pos h]
  exact ⟨_, rfl⟩

/-- A vector that can be placed fits. -/
theorem le_of_place? {offset length : ℕ} (h : v.place? offset length = some u) :
    offset + v.length ≤ length := by
  by_contra hno
  rw [place?, if_neg hno] at h
  cases h

/-- Placing a placed vector once more adds the offsets. -/
theorem place?_place? {offset length : ℕ} (k : ℕ) (h : v.place? offset length = some u) :
    u.place? k (k + length) = v.place? (k + offset) (k + length) := by
  have hfits := le_of_place? h
  have hu : k + u.length ≤ k + length := by rw [length_of_place? h]
  have hv : k + offset + v.length ≤ k + length := by omega
  obtain ⟨x, hx⟩ := exists_place? hu
  obtain ⟨y, hy⟩ := exists_place? hv
  rw [hx, hy]
  refine congrArg some (ext_bits ?_ fun i _ => ?_)
  · rw [length_of_place? hx, length_of_place? hy]
  · rw [bit_of_place? hx, bit_of_place? h, bit_of_place? hy, Nat.sub_sub]
    by_cases hi : k + offset ≤ i
    · simp [hi, show k ≤ i by omega, show offset ≤ i - k by omega]
    · by_cases hk : k ≤ i
      · simp [hi, show ¬ offset ≤ i - k by omega]
      · simp [hi, hk]

end BitVector

end AffinePhase
