import AffinePhase.Proofs.BitMatrix.Obtained
import AffinePhase.Proofs.BitMatrix.Product
import AffinePhase.Proofs.Word

/-!
# Vectors as lists of bits

Vectors are read and combined a word at a time: shifts and masks address a bit, the set bits of a
word are found by clearing the lowest one, and common bits are counted word by word. None of this
shows from outside. A vector is a list of bits, and each operation does to this list what its name
says.

## Main definitions

* `Packed.index?`, `Packed.iterate?`, `Packed.scanned`: the bits, by shifts, and the set positions,
  by the loop over each word.
* `Packed.weight`, `Packed.countedDot?`: counting bits word by word.

## Main results

* `BitVector.toList_zipWith`, `BitVector.toList_of_set?` and others: the operations on vectors, as
  operations on lists.
* `Packed.index?_eq`, `Packed.scanned_eq`, `Packed.weight_eq`: the word arithmetic gives the bits.
* `operations_follow_bits`: these results for all vectors that calls lead to.
-/

namespace AffinePhase

/-! ### Lists of bits -/

namespace BitVector

variable {v w u : BitVector} {i : ℕ} {b : Bool}

/-- The list of the bits. -/
theorem toList_eq {bits : List Bool} (hlength : bits.length = v.length)
    (h : ∀ i < v.length, bits[i]? = some (v.bit i)) : v.toList = bits := by
  refine List.ext_getElem? fun i => ?_
  by_cases hi : i < v.length
  · rw [getElem?_toList v hi, h i hi]
  · rw [List.getElem?_eq_none (by simpa using hi), List.getElem?_eq_none (by omega)]

/-- Reading a bit is reading the list of the bits. -/
theorem get?_eq_getElem? (v : BitVector) (i : ℕ) : v.get? i = v.toList[i]? := by
  by_cases hi : i < v.length
  · rw [getElem?_toList v hi, get?_eq_some v hi]
  · rw [List.getElem?_eq_none (by simpa using hi), get?, if_neg hi]

/-- Vectors combined bit by bit. -/
theorem toList_zipWith {f : Bool → Bool → Bool} (hlength : u.length = v.length)
    (hsame : v.length = w.length) (h : ∀ i, u.bit i = f (v.bit i) (w.bit i)) :
    u.toList = List.zipWith f v.toList w.toList := by
  refine toList_eq ?_ fun i hi => ?_
  · rw [List.length_zipWith, length_toList, length_toList, hlength, hsame, Nat.min_self]
  · rw [List.getElem?_zipWith, getElem?_toList v (hlength ▸ hi),
      getElem?_toList w (hsame ▸ hlength ▸ hi), h]

/-- Setting a bit sets the place in the list. -/
theorem toList_of_set? (h : v.set? i b = some u) : u.toList = v.toList.set i b := by
  have hi : i < v.length := by
    by_contra hno
    rw [set?, if_neg hno] at h
    cases h
  obtain ⟨hlength, hbits⟩ := Result.of_exists_some (exists_set? hi b) h
  refine toList_eq ?_ fun j hj => ?_
  · rw [List.length_set, length_toList, hlength]
  · rw [List.getElem?_set, length_toList, hbits, getElem?_toList v (hlength ▸ hj)]
    split <;> rfl

/-- Flipping a bit negates the place in the list. -/
theorem toList_flip (hi : i < v.length) : (v.flip i).toList = v.toList.modify i (!·) := by
  refine toList_eq ?_ fun j hj => ?_
  · rw [List.length_modify, length_toList, length_flip]
  · rw [List.getElem?_modify, getElem?_toList v (by simpa using hj), bit_flip, decide_eq_true hi]
    by_cases hij : i = j <;> simp [hij]

/-- The number of set bits, counted word by word. -/
theorem weight_eq (v : BitVector) : v.weight = v.support.length := by
  have hself : List.zipWith (fun a b => Word.weight (a &&& b)) v.words v.words =
      v.words.map Word.weight := by
    rw [List.zipWith_self]
    exact List.map_congr_left fun word _ => congrArg Word.weight (UInt64.and_self)
  rw [weight, ← hself, ← countP_support rfl, List.countP_eq_length]
  exact fun i hi => mem_support.mp hi

end BitVector

/-! ### Words -/

namespace Packed

open BitVector

variable {v w : BitVector}

/-- Bit `i`, moved down to the lowest place of its word; `none` past the length. -/
def index? (p : Packed) (i : ℕ) : Option Bool :=
  if i < p.length then p.words[i / 64]?.map (·.shiftedBit (i % 64)) else none

/-- The bits in order. -/
def iterate? (p : Packed) : Option (List Bool) :=
  (List.range p.length).mapM p.index?

/-- The positions of the set bits, word by word. -/
def scanned (p : Packed) : List ℕ :=
  p.words.zipIdx.flatMap fun (word, k) => word.scan.map (64 * k + ·)

/-- The number of set bits. -/
def weight (p : Packed) : ℕ :=
  (p.words.map Word.weight).foldr (· + ·) 0

/-- The inner product, with the common bits of all words counted in a number of 32 bits. -/
def countedDot? (p q : Packed) : Option Bool := do
  guard (p.length = q.length)
  let ones ← (List.zipWith (fun a b => Word.weight (a &&& b)) p.words q.words).foldlM addCount? 0
  some (ones % 2 == 1)

/-- **Shifts give the bits.** -/
theorem index?_eq (v : BitVector) (i : ℕ) : v.packed.index? i = v.toList[i]? := by
  rw [← get?_eq_getElem?, index?, BitVector.get?]
  by_cases hi : i < v.length
  · have hstored : i / 64 < v.words.length := by
      have := v.length_le_stored
      omega
    have hword : v.packed.words[i / 64]? = some v.words[i / 64] := List.getElem?_eq_getElem hstored
    refine (if_pos hi).trans (Eq.trans ?_ (if_pos hi).symm)
    rw [hword, Option.map_some, Word.shiftedBit_eq (Nat.mod_lt i (by decide)), bit, packedBit,
      List.getElem?_eq_getElem hstored, Option.getD_some]
  · exact (if_neg hi).trans (if_neg hi).symm

/-- The iteration over packed words goes through all bits in order. -/
theorem iterate?_eq (v : BitVector) : v.packed.iterate? = some v.packed.toBits := by
  refine Result.mapM_eq_map fun i hi => ?_
  have hi : i < v.length := List.mem_range.mp hi
  rw [index?_eq, getElem?_toList v hi]
  rfl

/-- **The loop over each word** finds the set bits. -/
theorem scanned_eq (p : Packed) : p.scanned = p.support := by
  rw [scanned, support]
  simp only [Word.scan_eq_positions]

/-- The positions that the scan finds are strictly increasing. -/
theorem pairwise_scanned (v : BitVector) : v.packed.scanned.Pairwise (· < ·) := by
  rw [scanned_eq]
  exact v.pairwise_support

/-- The scan finds the positions of the set bits. -/
theorem mem_scanned_iff {i : ℕ} :
    i ∈ v.packed.scanned ↔ i < v.packed.length ∧ v.packed.index? i = some true := by
  rw [scanned_eq, index?_eq]
  refine mem_support.trans ⟨fun hbit => ?_, fun ⟨hi, hbit⟩ => ?_⟩
  · have hi : i < v.length := lt_length_of_bit hbit
    exact ⟨hi, by rw [getElem?_toList v hi, hbit]⟩
  · rw [getElem?_toList v hi] at hbit
    exact Option.some.inj hbit

/-- **The weight** is the number of set positions. -/
theorem weight_eq (v : BitVector) : v.packed.weight = v.packed.scanned.length := by
  rw [scanned_eq]
  exact v.weight_eq

/-- **The inner product** is the parity of the number of common set positions. -/
theorem countedDot?_eq (hlength : v.length = w.length) (hbound : v.length < 2 ^ 32) :
    v.packed.countedDot? w.packed =
      some ((v.packed.scanned.filter (· ∈ w.packed.scanned)).length % 2 == 1) := by
  have hcount : v.support.countP w.bit = (v.support.filter (· ∈ w.support)).length := by
    rw [List.countP_eq_length_filter]
    refine congrArg List.length (List.filter_congr fun i _ => ?_)
    rw [Bool.eq_iff_iff, decide_eq_true_eq, mem_support]
  have hdot : v.packed.countedDot? w.packed = v.countedDot? w := rfl
  rw [scanned_eq, scanned_eq, hdot, BitVector.countedDot?_eq hbound, dot?_eq_some hlength, parityAt,
    hcount]
  rfl

/-- **A sum** is formed place by place. -/
theorem exists_xor? (hlength : v.length = w.length) :
    ∃ r, v.packed.xor? w.packed = some r ∧
      r.toBits = List.zipWith (· ^^ ·) v.packed.toBits w.packed.toBits := by
  obtain ⟨u, hu⟩ : ∃ u, v.xor? w = some u := ⟨_, dif_pos hlength⟩
  refine ⟨u.packed, by rw [xor?_eq, hu, Option.map_some], ?_⟩
  rw [toBits_eq, toBits_eq, toBits_eq]
  exact toList_zipWith (length_of_xor? hu) hlength (bit_of_xor? hu)

/-- **The common bits** are found place by place. -/
theorem exists_and? (hlength : v.length = w.length) :
    ∃ r, v.packed.and? w.packed = some r ∧
      r.toBits = List.zipWith (· && ·) v.packed.toBits w.packed.toBits := by
  obtain ⟨u, hu⟩ : ∃ u, v.and? w = some u := ⟨_, dif_pos hlength⟩
  refine ⟨u.packed, by rw [and?_eq, hu, Option.map_some], ?_⟩
  rw [toBits_eq, toBits_eq, toBits_eq]
  exact toList_zipWith (length_of_and? hu) hlength (bit_of_and? hu)

/-- Joining packed vectors joins the lists of their bits. -/
theorem toBits_append (v w : BitVector) :
    (v.packed.append w.packed).toBits = v.packed.toBits ++ w.packed.toBits := by
  rw [append_eq, toBits_eq, toBits_eq, toBits_eq]
  exact toList_ofList _

/-- **A vector is placed** between zeros. -/
theorem exists_place? {offset n : ℕ} (h : offset + v.length ≤ n) :
    ∃ r, v.packed.place? offset n = some r ∧ r.length = n ∧
      r.toBits = List.replicate offset false ++ v.packed.toBits ++
        List.replicate (n - offset - v.packed.length) false := by
  obtain ⟨u, hu⟩ := BitVector.exists_place? h
  refine ⟨u.packed, by rw [place?_eq, hu, Option.map_some], length_of_place? hu, ?_⟩
  rw [BitVector.place?, if_pos h] at hu
  rw [toBits_eq, toBits_eq, ← Option.some.inj hu]
  exact toList_ofList _

/-- **Writing a bit** writes one place of the list. -/
theorem exists_assign? {i : ℕ} (hi : i < v.length) (b : Bool) :
    ∃ r, v.packed.assign? i b = some r ∧ r.toBits = v.packed.toBits.set i b := by
  obtain ⟨u, hu, -⟩ := exists_set? hi b
  refine ⟨u.packed, by rw [assign?_eq, hu, Option.map_some], ?_⟩
  rw [toBits_eq, toBits_eq, toList_of_set? hu]

/-- **Flipping a bit** flips one place of the list. -/
theorem exists_negate? {i : ℕ} (hi : i < v.length) :
    ∃ r, v.packed.negate? i = some r ∧ r.toBits = v.packed.toBits.modify i (!·) := by
  refine ⟨(v.flip i).packed, by rw [negate?_eq, flip?_eq_some v hi, Option.map_some], ?_⟩
  rw [toBits_eq, toBits_eq, toList_flip hi]

end Packed

/-- **Operations follow the bits.** The mask of a bit is a one moved up. Of any vectors that calls
lead to, the bits by shifts are a list, and the loops over each word list the set positions in
increasing order and count them. A sum and the common bits are formed place by place, and the inner
product is the parity of the number of common positions. Joining appends the lists, placing puts
zeros around one, and a write changes one place only. Collecting the bits gives the words again. -/
theorem operations_follow_bits :
    (∀ i < 64, Word.single i = 1 <<< UInt64.ofNat i) ∧
    ∀ (h k : BitVector.History) (p q : Packed), h.stored = some p → k.stored = some q →
      (p.iterate? = some p.toBits ∧ p.toBits.length = p.length ∧ Packed.collect p.toBits = p) ∧
      (∀ i, p.index? i = p.toBits[i]?) ∧
      (p.scanned = p.support ∧ p.scanned.Pairwise (· < ·) ∧
        ∀ i, i ∈ p.scanned ↔ i < p.length ∧ p.index? i = some true) ∧
      p.weight = p.scanned.length ∧
      (p.length = q.length →
        (p.length < 2 ^ 32 →
          p.countedDot? q = some ((p.scanned.filter (· ∈ q.scanned)).length % 2 == 1)) ∧
        (∃ r, p.xor? q = some r ∧ r.toBits = List.zipWith (· ^^ ·) p.toBits q.toBits) ∧
        ∃ r, p.and? q = some r ∧ r.toBits = List.zipWith (· && ·) p.toBits q.toBits) ∧
      (p.append q).toBits = p.toBits ++ q.toBits ∧
      (∀ offset n, offset + p.length ≤ n → ∃ r, p.place? offset n = some r ∧ r.length = n ∧
        r.toBits = List.replicate offset false ++ p.toBits ++
          List.replicate (n - offset - p.length) false) ∧
      ∀ i < p.length,
        (∀ b, ∃ r, p.assign? i b = some r ∧ r.toBits = p.toBits.set i b) ∧
        ∃ r, p.negate? i = some r ∧ r.toBits = p.toBits.modify i (!·) := by
  refine ⟨fun i hi => Word.single_eq_shift hi, fun h k p q hp hq => ?_⟩
  rw [BitVector.History.stored_eq] at hp hq
  obtain ⟨v, -, rfl⟩ := Option.map_eq_some_iff.mp hp
  obtain ⟨w, -, rfl⟩ := Option.map_eq_some_iff.mp hq
  refine ⟨⟨Packed.iterate?_eq v, ?_, ?_⟩, fun i => ?_,
    ⟨Packed.scanned_eq _, Packed.pairwise_scanned v, fun i => Packed.mem_scanned_iff⟩,
    Packed.weight_eq v,
    fun hlength => ⟨Packed.countedDot?_eq hlength, Packed.exists_xor? hlength,
      Packed.exists_and? hlength⟩,
    Packed.toBits_append v w, fun offset n => Packed.exists_place?,
    fun i hi => ⟨Packed.exists_assign? hi, Packed.exists_negate? hi⟩⟩
  · rw [Packed.toBits_eq]
    exact v.length_toList
  · rw [Packed.toBits_eq, Packed.collect_eq, BitVector.ofList_toList]
  · rw [Packed.toBits_eq, Packed.index?_eq]

/-- The ends of a vector of 65 bits lie in different words. -/
theorem operations_follow_bits_of_ends :
    Packed.scanned ⟨65, [1, 1]⟩ = [0, 64] ∧ Packed.weight ⟨65, [1, 1]⟩ = 2 ∧
      Packed.countedDot? ⟨65, [1, 1]⟩ ⟨65, [18446744073709551614, 1]⟩ = some true ∧
      ∃ r, Packed.place? ⟨65, [1, 1]⟩ 63 200 = some r ∧ r.length = 200 := by
  obtain ⟨-, -, ⟨hscanned, -, -⟩, hweight, hequal, -, hplace, -⟩ := operations_follow_bits.2
    (.assign (.unit 65 0) 64 true) (.negate (.ones 65) 0) ⟨65, [1, 1]⟩
    ⟨65, [18446744073709551614, 1]⟩ (by decide +kernel) (by decide +kernel)
  obtain ⟨-, -, ⟨hother, -, -⟩, -⟩ := operations_follow_bits.2
    (.negate (.ones 65) 0) (.zeros 0) ⟨65, [18446744073709551614, 1]⟩ _ (by decide +kernel) rfl
  have hends : Packed.support ⟨65, [1, 1]⟩ = [0, 64] := by decide +kernel
  have hcommon : ([0, 64].filter (· ∈ Packed.support ⟨65, [18446744073709551614, 1]⟩)) = [64] := by
    decide +kernel
  refine ⟨hscanned.trans hends, by rw [hweight, hscanned, hends]; rfl, ?_, ?_⟩
  · rw [(hequal rfl).1 (by decide), hscanned, hother, hends, hcommon]
    rfl
  · obtain ⟨r, hr, hlength, -⟩ := hplace 63 200 (by decide)
    exact ⟨r, hr, hlength⟩

end AffinePhase
