import AffinePhase.Word

/-!
# Packed bit vectors

A `BitVector` is a list of bits of a fixed length, stored in 64-bit words. The type carries its
normal form: there are exactly as many words as the length needs, and every stored bit past the
length is zero. Equality of the stored words is therefore equality of the bits, which is what
`BitVector.ext_bits` says.

Operations with a precondition return an `Option` and answer `none` exactly when it is violated:
an index at or past the length, or two operands of different lengths.

## Main definitions

* `BitVector.bit`: the bit view, `false` past the length.
* `BitVector.ofList`, `BitVector.toList`: packing and unpacking.
* `BitVector.ofWords?`: a vector from its packed words, surplus bits cleared.
* `BitVector.xor?`, `BitVector.and?`, `BitVector.dot?`: word-wise sum, product, inner product.
* `BitVector.support`: the positions of the set bits.
-/

namespace AffinePhase

/-- The number of words that hold `length` bits. -/
def wordCount (length : Nat) : Nat :=
  (length + 63) / 64

/-- Bit `i` of a list of packed words, `false` past the end. -/
def packedBit (words : List Word) (i : Nat) : Bool :=
  Word.bit (words[i / 64]?.getD 0) (i % 64)

/-- A vector of bits packed into words, in normal form. -/
structure BitVector where
  /-- The number of bits. -/
  length : Nat
  /-- The packed words, bit `i` being bit `i % 64` of word `i / 64`. -/
  words : List Word
  /-- There are exactly as many words as the length needs. -/
  length_words : words.length = wordCount length
  /-- Past the length all stored bits are zero. -/
  packedBit_eq_false : ∀ i, length ≤ i → packedBit words i = false
  deriving DecidableEq

namespace BitVector

/-- Bit `i`, `false` past the length. -/
def bit (v : BitVector) (i : Nat) : Bool :=
  packedBit v.words i

/-- Past the length no bit is set. -/
theorem bit_eq_false (v : BitVector) {i : Nat} (h : v.length ≤ i) : v.bit i = false :=
  v.packedBit_eq_false i h

/-! ### The normal form -/

/-- Bit `i` of word `k`. -/
theorem packedBit_add (words : List Word) (k : Nat) {i : Nat} (h : i < 64) :
    packedBit words (64 * k + i) = Word.bit (words[k]?.getD 0) i := by
  have hword : (64 * k + i) / 64 = k := by omega
  have hplace : (64 * k + i) % 64 = i := by omega
  rw [packedBit, hword, hplace]

/-- The first sixty-four bits are those of the first word. -/
theorem packedBit_cons_of_lt (word : Word) (words : List Word) {i : Nat} (h : i < 64) :
    packedBit (word :: words) i = word.bit i := by
  rw [packedBit, Nat.div_eq_of_lt h, Nat.mod_eq_of_lt h]
  rfl

/-- After the first sixty-four bits come those of the other words. -/
theorem packedBit_cons_add (word : Word) (words : List Word) (i : Nat) :
    packedBit (word :: words) (64 + i) = packedBit words i := by
  have hword : (64 + i) / 64 = i / 64 + 1 := by omega
  have hplace : (64 + i) % 64 = i % 64 := by omega
  rw [packedBit, packedBit, hword, hplace, List.getElem?_cons_succ]

/-- Lists of as many words with the same bits are equal. -/
theorem packedBit_ext {v w : List Word} (hlength : v.length = w.length)
    (h : ∀ i, packedBit v i = packedBit w i) : v = w := by
  refine List.ext_getElem hlength fun k hv hw => Word.ext_bits fun i hi => ?_
  have hbit := h (64 * k + i)
  rwa [packedBit_add v k hi, packedBit_add w k hi, List.getElem?_eq_getElem hv,
    List.getElem?_eq_getElem hw, Option.getD_some, Option.getD_some] at hbit

/-- **Extensionality.** Two vectors of the same length with the same bits are equal. -/
theorem ext_bits {v w : BitVector} (hlength : v.length = w.length)
    (h : ∀ i, i < v.length → v.bit i = w.bit i) : v = w := by
  have hbits : ∀ i, packedBit v.words i = packedBit w.words i := by
    intro i
    by_cases hi : i < v.length
    · exact h i hi
    · exact (v.bit_eq_false (by omega)).trans (w.bit_eq_false (by omega)).symm
  have hwords : v.words = w.words :=
    packedBit_ext (by rw [v.length_words, w.length_words, hlength]) hbits
  cases v; cases w; simp_all

/-- Clears the bits past `length` in the last word. -/
def clearTail (length : Nat) (words : List Word) : List Word :=
  words.modify (length / 64) (· &&& Word.low (length % 64))

/-- Clearing the tail keeps the bits below the length and no others. The word with the place of
`length` is the last one, or there is none and nothing has to be cleared. -/
theorem packedBit_clearTail {length : Nat} {words : List Word}
    (hcount : words.length = wordCount length) (i : Nat) :
    packedBit (clearTail length words) i = (decide (i < length) && packedBit words i) := by
  unfold wordCount at hcount
  unfold packedBit clearTail
  rw [List.getElem?_modify]
  by_cases hstored : i / 64 < words.length
  · rw [List.getElem?_eq_getElem hstored]
    by_cases hlast : length / 64 = i / 64
    · have hplace : (i < length) = (i % 64 < length % 64) := by
        apply propext; omega
      simp [hlast, Word.bit_low, hplace, Nat.mod_lt, Bool.and_comm]
    · have hi : i < length := by omega
      simp [hlast, hi]
  · have hnone : words[i / 64]? = none := by
      rw [List.getElem?_eq_none_iff]; omega
    simp [hnone]

/-- The vector of the given length with the given packed words, if there are exactly enough of
them; bits past the length are cleared. -/
def ofWords? (length : Nat) (words : List Word) : Option BitVector :=
  if hcount : words.length = wordCount length then
    some
      { length := length
        words := clearTail length words
        length_words := by simpa [clearTail] using hcount
        packedBit_eq_false := fun i h => by
          rw [packedBit_clearTail hcount]
          simp [Nat.not_lt.mpr h] }
  else
    none

/-- The bits of a vector that is made of words are those of the words below its length. -/
theorem bit_of_ofWords? {length : Nat} {words : List Word} {v : BitVector}
    (h : ofWords? length words = some v) (i : Nat) :
    v.bit i = (decide (i < length) && packedBit words i) := by
  unfold ofWords? at h
  split at h
  · rename_i hcount
    obtain rfl := Option.some.inj h
    exact packedBit_clearTail hcount i
  · cases h

/-! ### Packing and unpacking -/

/-- The given number of words, holding the first bits of a list, sixty-four to a word. -/
def packWords : Nat → List Bool → List Word
  | 0, _ => []
  | count + 1, bits => Word.pack (bits.take 64) :: packWords count (bits.drop 64)

/-- The words that hold a list of bits. -/
def packList (bits : List Bool) : List Word :=
  packWords (wordCount bits.length) bits

/-- So many words are packed as are asked for. -/
@[simp] theorem length_packWords (count : Nat) (bits : List Bool) :
    (packWords count bits).length = count := by
  induction count generalizing bits with
  | zero => rfl
  | succ count ih => rw [packWords, List.length_cons, ih]

/-- Word `k` holds the bits from `64 * k` on. -/
theorem getElem?_packWords {count k : Nat} (h : k < count) (bits : List Bool) :
    (packWords count bits)[k]? = some (Word.pack ((bits.drop (64 * k)).take 64)) := by
  induction count generalizing k bits with
  | zero => omega
  | succ count ih =>
      cases k with
      | zero => rfl
      | succ k =>
          have hdrop : 64 + 64 * k = 64 * (k + 1) := by omega
          rw [packWords, List.getElem?_cons_succ, ih (by omega), List.drop_drop, hdrop]

/-- The packed words have the bits of the list, and no others. -/
theorem packedBit_packList (bits : List Bool) (i : Nat) :
    packedBit (packList bits) i = bits[i]?.getD false := by
  unfold packedBit packList
  by_cases hstored : i / 64 < wordCount bits.length
  · have hplace : 64 * (i / 64) + i % 64 = i := by omega
    have hlow : i % 64 < 64 := by omega
    rw [getElem?_packWords hstored]
    simp [Word.bit_pack, hlow, hplace]
  · have hnone : bits[i]? = none := by
      unfold wordCount at hstored
      rw [List.getElem?_eq_none_iff]; omega
    have hword : (packWords (wordCount bits.length) bits)[i / 64]? = none := by
      rw [List.getElem?_eq_none_iff, length_packWords]; omega
    simp [hnone, hword]

/-- The vector of a list of bits. -/
def ofList (bits : List Bool) : BitVector where
  length := bits.length
  words := packList bits
  length_words := by simp [packList]
  packedBit_eq_false i h := by
    rw [packedBit_packList, List.getElem?_eq_none_iff.mpr h]
    rfl

/-- The bits in order: those of the words, as many as there are. -/
def toList (v : BitVector) : List Bool :=
  (v.words.flatMap Word.bits).take v.length

/-- The bits of words one after the other are the packed bits. -/
theorem getElem?_flatMap_bits {words : List Word} {i : Nat} (h : i < 64 * words.length) :
    (words.flatMap Word.bits)[i]? = some (packedBit words i) := by
  induction words generalizing i with
  | nil => simp at h
  | cons word words ih =>
      rw [List.flatMap_cons]
      rcases Nat.lt_or_ge i 64 with hi | hi
      · rw [List.getElem?_append_left (by simpa using hi), Word.getElem?_bits hi,
          packedBit_cons_of_lt word words hi]
      · obtain ⟨j, rfl⟩ := Nat.exists_eq_add_of_le hi
        rw [List.length_cons] at h
        rw [List.getElem?_append_right (by simp), Word.length_bits,
          Nat.add_sub_cancel_left, ih (by omega), packedBit_cons_add]

@[simp] theorem length_ofList (bits : List Bool) : (ofList bits).length = bits.length := rfl

/-- The vector of a list has the bits of the list. -/
theorem bit_ofList (bits : List Bool) (i : Nat) : (ofList bits).bit i = bits[i]?.getD false :=
  packedBit_packList bits i

/-- Every word has sixty-four bits. -/
theorem length_flatMap_bits (words : List Word) :
    (words.flatMap Word.bits).length = 64 * words.length := by
  induction words with
  | nil => rfl
  | cons word words ih =>
      rw [List.flatMap_cons, List.length_append, Word.length_bits, ih, List.length_cons]
      omega

/-- The words have room for all bits. -/
theorem length_le_stored (v : BitVector) : v.length ≤ 64 * v.words.length := by
  rw [v.length_words, wordCount]
  omega

/-- The list of the bits has bit `i` in place `i`. -/
theorem getElem?_toList (v : BitVector) {i : Nat} (h : i < v.length) :
    v.toList[i]? = some (v.bit i) := by
  have hstored := v.length_le_stored
  rw [toList, List.getElem?_take, if_pos h, getElem?_flatMap_bits (by omega), bit]

/-- There are as many bits as the length says. -/
@[simp] theorem length_toList (v : BitVector) : v.toList.length = v.length := by
  have hstored := v.length_le_stored
  rw [toList, List.length_take, length_flatMap_bits]
  omega

/-- **Unpacking and packing again** gives the same vector. -/
@[simp] theorem ofList_toList (v : BitVector) : ofList v.toList = v := by
  refine ext_bits (by simp) fun i hi => ?_
  simp only [length_ofList, length_toList] at hi
  rw [bit_ofList, getElem?_toList v hi, Option.getD_some]

/-- **Packing and unpacking** gives the same list. -/
@[simp] theorem toList_ofList (bits : List Bool) : (ofList bits).toList = bits := by
  refine List.ext_getElem? fun i => ?_
  by_cases hi : i < bits.length
  · rw [getElem?_toList _ (by simpa using hi), bit_ofList, List.getElem?_eq_getElem hi]
    rfl
  · rw [List.getElem?_eq_none_iff.mpr (by simpa using hi),
      List.getElem?_eq_none_iff.mpr (by omega)]

/-! ### Constant vectors -/

/-- The bits of the same word, so many times. -/
theorem packedBit_replicate (n : Nat) (w : Word) (i : Nat) :
    packedBit (List.replicate n w) i = (decide (i / 64 < n) && Word.bit w (i % 64)) := by
  unfold packedBit
  rw [List.getElem?_replicate]
  by_cases hstored : i / 64 < n <;> simp [hstored]

/-- The zero vector. -/
def zeros (length : Nat) : BitVector where
  length := length
  words := List.replicate (wordCount length) 0
  length_words := by simp
  packedBit_eq_false i _ := by simp [packedBit_replicate]

/-- The vector whose bits are all set. -/
def ones (length : Nat) : BitVector where
  length := length
  words := clearTail length (List.replicate (wordCount length) (Word.low 64))
  length_words := by simp [clearTail]
  packedBit_eq_false i h := by
    rw [packedBit_clearTail (by simp)]
    simp [Nat.not_lt.mpr h]

@[simp] theorem length_zeros (n : Nat) : (zeros n).length = n := rfl

/-- The zero vector has no bit set. -/
@[simp] theorem bit_zeros (n i : Nat) : (zeros n).bit i = false := by
  simp [bit, zeros, packedBit_replicate]

@[simp] theorem length_ones (n : Nat) : (ones n).length = n := rfl

/-- The vector of set bits has all bits set, but none past its length. -/
theorem bit_ones (n i : Nat) : (ones n).bit i = decide (i < n) := by
  have hlow : i % 64 < 64 := by omega
  have hstored : i < n → i / 64 < wordCount n := by unfold wordCount; omega
  rw [bit, ones, packedBit_clearTail (by simp), packedBit_replicate, Word.bit_low]
  by_cases hi : i < n
  · simp [hi, hlow, hstored hi]
  · simp [hi]

/-! ### Single bits -/

/-- Changing the word with bit `i` changes the bits of this word only. -/
theorem packedBit_modify (words : List Word) (i j : Nat) (f : Word → Word)
    (hi : i < 64 * words.length) :
    packedBit (words.modify (i / 64) f) j =
      if j / 64 = i / 64 then Word.bit (f (words[i / 64]?.getD 0)) (j % 64)
      else packedBit words j := by
  unfold packedBit
  rw [List.getElem?_modify]
  by_cases hword : i / 64 = j / 64
  · have hstored : j / 64 < words.length := by omega
    simp [hword, List.getElem?_eq_getElem hstored]
  · simp [hword, Ne.symm hword]

/-- The vector with bit `i` flipped; nothing changes if `i` is past the length. -/
def flip (v : BitVector) (i : Nat) : BitVector :=
  if hi : i < v.length then
    { v with
      words := v.words.modify (i / 64) (· ^^^ Word.single (i % 64))
      length_words := by simpa using v.length_words
      packedBit_eq_false := fun j hj => by
        have hstored := v.length_words
        unfold wordCount at hstored
        rw [packedBit_modify _ _ _ _ (by omega)]
        have hold := v.packedBit_eq_false j hj
        split
        · rename_i hword
          have hplace : ¬ i % 64 = j % 64 := by omega
          have hbit : Word.bit (v.words[i / 64]?.getD 0) (j % 64) = false := by
            rw [← hword]; exact hold
          simp [Word.bit_single, hbit, hplace]
        · exact hold }
  else v

/-- Flipping a bit keeps the length. -/
@[simp] theorem length_flip (v : BitVector) (i : Nat) : (v.flip i).length = v.length := by
  unfold flip; split <;> rfl

/-- Only the flipped bit changes. -/
theorem bit_flip (v : BitVector) (i j : Nat) :
    (v.flip i).bit j = (v.bit j ^^ (decide (i = j) && decide (i < v.length))) := by
  unfold flip
  split
  · rename_i hi
    have hstored := v.length_words
    unfold wordCount at hstored
    rw [bit, packedBit_modify _ _ _ _ (by omega)]
    have hlow : i % 64 < 64 := by omega
    split
    · rename_i hword
      have hplace : (i % 64 = j % 64) = (i = j) := by
        apply propext; omega
      simp [Word.bit_single, hlow, hplace, hi, bit, packedBit, hword]
    · rename_i hword
      have hne : i ≠ j := fun h => hword (by rw [h])
      simp [hne, bit]
  · rename_i hi
    simp [hi]

/-- Bit `i`, `none` past the length. -/
def get? (v : BitVector) (i : Nat) : Option Bool :=
  if i < v.length then some (v.bit i) else none

/-- The vector with bit `i` set to `b`, `none` past the length. -/
def set? (v : BitVector) (i : Nat) (b : Bool) : Option BitVector :=
  if i < v.length then some (if v.bit i = b then v else v.flip i) else none

/-- The vector with bit `i` flipped, `none` past the length. -/
def flip? (v : BitVector) (i : Nat) : Option BitVector :=
  if i < v.length then some (v.flip i) else none

/-- The vector of the given length whose only set bit is bit `i`, `none` if `i` is past the
length. -/
def unit? (length i : Nat) : Option BitVector :=
  (zeros length).flip? i

/-- A bit below the length can be read. -/
theorem get?_eq_some (v : BitVector) {i : Nat} (h : i < v.length) : v.get? i = some (v.bit i) := by
  simp [get?, h]

/-- A bit below the length can be flipped. -/
theorem flip?_eq_some (v : BitVector) {i : Nat} (h : i < v.length) :
    v.flip? i = some (v.flip i) := by
  simp [flip?, h]

/-! ### Word-wise operations -/

/-- An operation on words that acts bit by bit, and keeps zeros, acts bit by bit on packed bits. -/
theorem packedBit_zipWith {f : Word → Word → Word} {g : Bool → Bool → Bool}
    (hbits : ∀ a b i, Word.bit (f a b) i = g (Word.bit a i) (Word.bit b i))
    (hzero : g false false = false) {v w : List Word} (hlength : v.length = w.length) (i : Nat) :
    packedBit (List.zipWith f v w) i = g (packedBit v i) (packedBit w i) := by
  unfold packedBit
  rw [List.getElem?_zipWith]
  by_cases hstored : i / 64 < v.length
  · rw [List.getElem?_eq_getElem hstored, List.getElem?_eq_getElem (hlength ▸ hstored)]
    exact hbits _ _ _
  · rw [List.getElem?_eq_none_iff.mpr (by omega), List.getElem?_eq_none_iff.mpr (by omega)]
    simp [hzero]

/-- The sum of two vectors over the field with two elements, `none` if their lengths differ. -/
def xor? (v w : BitVector) : Option BitVector :=
  if hlength : v.length = w.length then
    some
      { length := v.length
        words := List.zipWith (· ^^^ ·) v.words w.words
        length_words := by simp [v.length_words, w.length_words, hlength]
        packedBit_eq_false := fun i h => by
          rw [packedBit_zipWith (g := Bool.xor) (fun a b i => Word.bit_xor a b i) rfl
            (by rw [v.length_words, w.length_words, hlength]),
            v.packedBit_eq_false i h, w.packedBit_eq_false i (hlength ▸ h)]
          rfl }
  else
    none

/-- The bits set in both vectors, `none` if their lengths differ. -/
def and? (v w : BitVector) : Option BitVector :=
  if hlength : v.length = w.length then
    some
      { length := v.length
        words := List.zipWith (· &&& ·) v.words w.words
        length_words := by simp [v.length_words, w.length_words, hlength]
        packedBit_eq_false := fun i h => by
          rw [packedBit_zipWith (g := Bool.and) (fun a b i => Word.bit_and a b i) rfl
            (by rw [v.length_words, w.length_words, hlength]),
            v.packedBit_eq_false i h, w.packedBit_eq_false i (hlength ▸ h)]
          rfl }
  else
    none

/-- The number of set bits. -/
def weight (v : BitVector) : Nat :=
  (v.words.map Word.weight).foldr (· + ·) 0

/-- The inner product over the field with two elements: the parity of the number of positions
set in both vectors. `none` if their lengths differ. -/
def dot? (v w : BitVector) : Option Bool :=
  if v.length = w.length then
    let common := List.zipWith (fun a b => Word.weight (a &&& b)) v.words w.words
    some (common.foldr (· + ·) 0 % 2 == 1)
  else
    none

/-- Whether no bit is set. -/
def isZero (v : BitVector) : Bool :=
  v.words.all (· == 0)

/-- Whether the vector has no bits at all. -/
def isEmpty (v : BitVector) : Bool :=
  v.length == 0

/-- The positions of the set bits, in increasing order. -/
def support (v : BitVector) : List Nat :=
  v.words.zipIdx.flatMap fun (word, k) => (Word.positions word).map (64 * k + ·)

/-! ### The bits of the word-wise operations -/

/-- A sum has the length of the first summand. -/
theorem length_of_xor? {v w u : BitVector} (h : v.xor? w = some u) : u.length = v.length := by
  rw [xor?] at h
  split at h
  · obtain rfl := Option.some.inj h
    rfl
  · cases h

/-- The sum is taken bit by bit. -/
theorem bit_of_xor? {v w u : BitVector} (h : v.xor? w = some u) (i : Nat) :
    u.bit i = (v.bit i ^^ w.bit i) := by
  rw [xor?] at h
  split at h
  · rename_i hlength
    obtain rfl := Option.some.inj h
    exact packedBit_zipWith (g := Bool.xor) (fun a b i => Word.bit_xor a b i) rfl
      (by rw [v.length_words, w.length_words, hlength]) i
  · cases h

/-- The common bits form a vector of the length of the first. -/
theorem length_of_and? {v w u : BitVector} (h : v.and? w = some u) : u.length = v.length := by
  rw [and?] at h
  split at h
  · obtain rfl := Option.some.inj h
    rfl
  · cases h

/-- The common bits are those set in both vectors. -/
theorem bit_of_and? {v w u : BitVector} (h : v.and? w = some u) (i : Nat) :
    u.bit i = (v.bit i && w.bit i) := by
  rw [and?] at h
  split at h
  · rename_i hlength
    obtain rfl := Option.some.inj h
    exact packedBit_zipWith (g := Bool.and) (fun a b i => Word.bit_and a b i) rfl
      (by rw [v.length_words, w.length_words, hlength]) i
  · cases h

/-- **The support lists exactly the set bits.** -/
theorem mem_support {v : BitVector} {i : Nat} : i ∈ v.support ↔ v.bit i = true := by
  simp only [support, List.mem_flatMap, List.mem_map, Prod.exists]
  constructor
  · rintro ⟨word, k, hmem, j, hset, rfl⟩
    have hfound : v.words[k]? = some word := List.mem_zipIdx_iff_getElem?.mp hmem
    rw [bit, packedBit_add _ _ (Word.lt_of_mem_positions hset), hfound]
    exact Word.mem_positions.mp hset
  · intro hset
    cases hfound : v.words[i / 64]? with
    | none =>
        rw [bit, packedBit, hfound, Option.getD_none, Word.bit_zero] at hset
        cases hset
    | some word =>
        rw [bit, packedBit, hfound, Option.getD_some] at hset
        exact ⟨word, i / 64, List.mem_zipIdx_iff_getElem?.mpr hfound, i % 64,
          Word.mem_positions.mpr hset, by omega⟩

/-! ### Joining and placing -/

/-- The bits of `v` followed by those of `w`. -/
def append (v w : BitVector) : BitVector :=
  ofList (v.toList ++ w.toList)

/-- The joined vector has the bits of `v` first and those of `w` after them. -/
theorem bit_append (v w : BitVector) (i : Nat) :
    (v.append w).bit i = if i < v.length then v.bit i else w.bit (i - v.length) := by
  rw [append, bit_ofList]
  rcases Nat.lt_or_ge i v.length with hi | hi
  · rw [List.getElem?_append_left (by simpa using hi), getElem?_toList v hi, if_pos hi]
    rfl
  · rw [List.getElem?_append_right (by simpa using hi), length_toList, if_neg (Nat.not_lt.mpr hi)]
    rcases Nat.lt_or_ge (i - v.length) w.length with hw | hw
    · rw [getElem?_toList w hw]
      rfl
    · rw [List.getElem?_eq_none_iff.mpr (by simpa using hw), w.bit_eq_false hw]
      rfl

/-- The bits of `v` placed at `offset` inside a zero vector of the given length, `none` if they
do not fit. -/
def place? (v : BitVector) (offset length : Nat) : Option BitVector :=
  if offset + v.length ≤ length then
    some (ofList (List.replicate offset false ++ v.toList ++
      List.replicate (length - offset - v.length) false))
  else
    none

/-- A placed vector has the length that is asked for. -/
theorem length_of_place? {v u : BitVector} {offset length : Nat}
    (h : v.place? offset length = some u) : u.length = length := by
  rw [place?] at h
  split at h
  · obtain rfl := Option.some.inj h
    simp only [length_ofList, List.length_append, List.length_replicate, length_toList]
    omega
  · cases h

/-- The placed vector has the bits of `v` from `offset` on and no others. -/
theorem bit_of_place? {v u : BitVector} {offset length : Nat}
    (h : v.place? offset length = some u) (i : Nat) :
    u.bit i = (decide (offset ≤ i) && v.bit (i - offset)) := by
  rw [place?] at h
  split at h
  · obtain rfl := Option.some.inj h
    rw [bit_ofList, List.append_assoc]
    rcases Nat.lt_or_ge i offset with hi | hi
    · rw [List.getElem?_append_left (by simpa using hi)]
      simp [hi, Nat.not_le.mpr hi]
    · rw [List.getElem?_append_right (by simpa using hi), List.length_replicate]
      rcases Nat.lt_or_ge (i - offset) v.length with hv | hv
      · rw [List.getElem?_append_left (by simpa using hv), getElem?_toList v hv]
        simp [hi]
      · rw [List.getElem?_append_right (by simpa using hv), List.getElem?_replicate,
          v.bit_eq_false hv]
        split <;> simp
  · cases h

end BitVector

end AffinePhase
