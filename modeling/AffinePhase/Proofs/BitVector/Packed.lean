import AffinePhase.BitMatrix.Basic
import AffinePhase.Proofs.BitVector
import AffinePhase.Random
import Mathlib.Algebra.Order.Floor.Div

/-!
# Word arithmetic of packed vectors

A packed vector lies in memory as a length and some words, and nothing but the operations relates
the two. This module has the operations as they work on the words: a mask sets or clears a bit, bits
are collected one at a time into the last word, sums are formed in place, a vector is placed by
setting bits of a zero vector, and surplus bits of the last word are cleared only where they can be
set. Each of them leads from the words of vectors in normal form to those of the vector that the
operation on vectors gives, so that no bit past the length is ever left.

## Main definitions

* `Packed`, `BitVector.packed`: a length and words, and those of a vector.
* `Packed.IsNormal`: the normal form.
* `Packed.clearTail`, `Packed.assign?`, `Packed.collect` and others: the operations on words.

## Main results

* `Packed.assign?_eq`, `Packed.collect_eq` and others: each operation follows that on vectors.
* `Packed.isNormal_iff`: the words in normal form are those of vectors.
-/

namespace AffinePhase

/-- A length and words. -/
structure Packed where
  /-- The number of bits. -/
  length : ℕ
  /-- The words. -/
  words : List Word
  deriving DecidableEq

/-- The length and the words of a vector. -/
def BitVector.packed (v : BitVector) : Packed :=
  ⟨v.length, v.words⟩

namespace Packed

open BitVector

variable {v w : BitVector} {p : Packed} {n i : ℕ} {b : Bool} {words : List Word}

/-- There are as many words as the length needs, and no bit is set past the length. -/
structure IsNormal (p : Packed) : Prop where
  /-- The number of words is the length divided by 64, rounded up. -/
  length_words : p.words.length = p.length ⌈/⌉ 64
  /-- The bits of the last word from the length on are zero. -/
  tail : ∀ i, p.length ≤ i → i < 64 * p.words.length → packedBit p.words i = false

/-- Bit `i`, `none` past the length. -/
def get? (p : Packed) (i : ℕ) : Option Bool :=
  if i < p.length then some (packedBit p.words i) else none

/-- Whether all words are zero. -/
def isZero (p : Packed) : Bool :=
  p.words.all (· == 0)

/-- The number of words is the length divided by sixty-four, rounded up. -/
theorem wordCount_eq (n : ℕ) : wordCount n = n ⌈/⌉ 64 :=
  (Nat.ceilDiv_eq_add_pred_div n 64).symm

/-- **The words in normal form** are those of vectors. -/
theorem isNormal_iff : p.IsNormal ↔ ∃ v : BitVector, v.packed = p := by
  constructor
  · intro h
    refine ⟨⟨p.length, p.words, h.length_words.trans (wordCount_eq _).symm, fun i hi => ?_⟩, rfl⟩
    by_cases hstored : i < 64 * p.words.length
    · exact h.tail i hi hstored
    · have hnone : p.words[i / 64]? = none := by
        rw [List.getElem?_eq_none_iff]
        omega
      rw [packedBit, hnone, Option.getD_none, Word.bit_zero]
  · rintro ⟨v, rfl⟩
    exact ⟨v.length_words.trans (wordCount_eq _), fun i hi _ => v.packedBit_eq_false i hi⟩

/-- Words with the bits of a vector are its words. -/
theorem eq_packed (hn : n = v.length) (hlength : words.length = wordCount n)
    (hbits : ∀ i, packedBit words i = v.bit i) : (⟨n, words⟩ : Packed) = v.packed := by
  have hwords : words = v.words :=
    packedBit_ext (by rw [hlength, v.length_words, hn]) hbits
  rw [packed, hn, hwords]

/-! ### Writing a bit -/

/-- A word with one bit set or cleared by a mask. -/
def assignBit (i : ℕ) (b : Bool) (word : Word) : Word :=
  if b then word ||| Word.single i else word &&& ~~~Word.single i

/-- Assigning a bit of a word changes this bit only. -/
theorem bit_assignBit {i j : ℕ} (hi : i < 64) (hj : j < 64) (b : Bool) (word : Word) :
    (assignBit i b word).bit j = if i = j then b else word.bit j := by
  cases b with
  | true =>
      show (word ||| Word.single i).bit j = _
      rw [Word.bit_or, Word.bit_single]
      by_cases hij : i = j <;> simp [hij, hj]
  | false =>
      show (word &&& ~~~Word.single i).bit j = _
      rw [Word.bit_and, Word.bit_not _ hj, Word.bit_single]
      by_cases hij : i = j <;> simp [hij, hi, hj]

/-- **Writing a bit** of a list of words changes this bit and no other. -/
theorem packedBit_modify_assignBit (h : i < 64 * words.length) (b : Bool) (j : ℕ) :
    packedBit (words.modify (i / 64) (assignBit (i % 64) b)) j =
      if i = j then b else packedBit words j := by
  have hi : i % 64 < 64 := Nat.mod_lt i (by omega)
  have hj : j % 64 < 64 := Nat.mod_lt j (by omega)
  rw [packedBit_modify _ _ _ _ h, bit_assignBit hi hj]
  by_cases hword : j / 64 = i / 64
  · have hplace : i % 64 = j % 64 ↔ i = j := by omega
    rw [if_pos hword, packedBit, hword]
    simp only [hplace]
  · have hij : i ≠ j := fun hij => hword (by rw [hij])
    rw [if_neg hword, if_neg hij]

/-! ### Constructors -/

/-- Clears the surplus bits of the last word. -/
def clearTail (p : Packed) : Packed :=
  if p.length % 64 = 0 then p
  else { p with words := p.words.modify (p.words.length - 1) (· &&& Word.low (p.length % 64)) }

/-- The zero vector. -/
def zeros (n : ℕ) : Packed :=
  ⟨n, List.replicate (wordCount n) 0⟩

/-- The vector whose bits are all set. -/
def ones (n : ℕ) : Packed :=
  clearTail ⟨n, List.replicate (wordCount n) (~~~0)⟩

/-- The vector of the given words. -/
def ofWords? (n : ℕ) (words : List Word) : Option Packed :=
  if words.length = wordCount n then some (clearTail ⟨n, words⟩) else none

/-- The vector of the next words of a source. -/
def random? (n : ℕ) (source : List Word) : Option Packed :=
  if wordCount n ≤ source.length then some (clearTail ⟨n, source.take (wordCount n)⟩) else none

/-- The words with room for one more bit: there is a new word if the last one is full. -/
def room (p : Packed) : List Word :=
  if p.length % 64 = 0 then p.words ++ [0] else p.words

/-- Adds a bit at the end. -/
def push (p : Packed) (b : Bool) : Packed :=
  ⟨p.length + 1,
    if b then p.room.modify (p.room.length - 1) (· ||| Word.single (p.length % 64)) else p.room⟩

/-- The vector of some bits, collected one at a time. -/
def collect (bits : List Bool) : Packed :=
  bits.foldl push ⟨0, []⟩

/-- There are surplus bits in the last word only if the length is no multiple of 64. -/
theorem clearTail_eq (h : words.length = wordCount n) :
    clearTail ⟨n, words⟩ = ⟨n, BitVector.clearTail n words⟩ := by
  rw [wordCount] at h
  rw [clearTail, BitVector.clearTail]
  dsimp only
  split
  · rw [List.modify_eq_self (by omega)]
  · have hlast : words.length - 1 = n / 64 := by omega
    rw [hlast]

/-- The packed vector of set bits is the vector of set bits. -/
theorem ones_eq (n : ℕ) : ones n = (BitVector.ones n).packed := by
  have hfull : (~~~0 : Word) = Word.low 64 := rfl
  rw [ones, clearTail_eq (by simp), hfull]
  rfl

/-- Construction from words gives the packed form of the vector. -/
theorem ofWords?_eq (n : ℕ) (words : List Word) :
    ofWords? n words = (BitVector.ofWords? n words).map packed := by
  rw [ofWords?, BitVector.ofWords?]
  split
  · rename_i h
    rw [clearTail_eq h]
    rfl
  · rfl

/-- A packed random vector is the packed form of a random vector. -/
theorem random?_eq (n : ℕ) (source : List Word) :
    random? n source = (BitVector.random n source).map fun drawn => drawn.1.packed := by
  have hlength :
      (source.take (wordCount n)).length = wordCount n ↔ wordCount n ≤ source.length := by
    rw [List.length_take]
    omega
  have hdrawn : random? n source = ofWords? n (source.take (wordCount n)) := by
    rw [random?, ofWords?]
    simp only [hlength]
  rw [hdrawn, ofWords?_eq, BitVector.random, Option.map_map]
  rfl

/-- There is room for one more bit. -/
theorem length_room (v : BitVector) : v.packed.room.length = wordCount (v.length + 1) := by
  have hwords : v.packed.words.length = (v.length + 63) / 64 := v.length_words
  have hlength : v.packed.length = v.length := rfl
  rw [room, wordCount, hlength]
  split
  · rw [List.length_append, hwords, List.length_singleton]
    omega
  · omega

/-- A new word has no bits. -/
theorem packedBit_room (v : BitVector) (i : ℕ) : packedBit v.packed.room i = v.bit i := by
  rw [room]
  split
  · rw [packedBit, List.getElem?_append]
    split
    · rfl
    · rename_i hbeyond
      have hnone : v.words[i / 64]? = none := List.getElem?_eq_none (Nat.le_of_not_lt hbeyond)
      rw [bit, packedBit, hnone]
      cases i / 64 - v.packed.words.length <;> rfl
  · rfl

/-- One more bit at the end leaves the others as they are. -/
theorem bit_ofList_concat (bits : List Bool) (b : Bool) (i : ℕ) :
    (ofList (bits ++ [b])).bit i = if bits.length = i then b else (ofList bits).bit i := by
  rw [bit_ofList, bit_ofList]
  rcases lt_trichotomy i bits.length with hi | rfl | hi
  · rw [if_neg (by omega), List.getElem?_append_left hi]
  · rw [if_pos rfl, List.getElem?_concat_length]
    rfl
  · have hlength : (bits ++ [b]).length ≤ i := by
      rw [List.length_append, List.length_singleton]
      omega
    rw [if_neg (by omega), List.getElem?_eq_none hlength, List.getElem?_eq_none (by omega)]

/-- **One more bit** is put into the last word. -/
theorem push_eq (bits : List Bool) (b : Bool) :
    (ofList bits).packed.push b = (ofList (bits ++ [b])).packed := by
  have hroom : (ofList bits).packed.room.length = wordCount (bits.length + 1) :=
    length_room (ofList bits)
  have hlast : (ofList bits).packed.room.length - 1 = bits.length / 64 := by
    rw [hroom, wordCount]
    omega
  have hn : bits.length + 1 = (ofList (bits ++ [b])).length := by
    rw [length_ofList, List.length_append, List.length_singleton]
  rw [push, hlast]
  cases b with
  | true =>
      refine eq_packed hn ((List.length_modify _ _ _).trans hroom) fun i => ?_
      have hinside : bits.length < 64 * (ofList bits).packed.room.length := by
        rw [hroom, wordCount]
        omega
      exact (packedBit_modify_assignBit hinside true i).trans
        (by rw [packedBit_room, bit_ofList_concat])
  | false =>
      refine eq_packed hn hroom fun i => ?_
      show packedBit (ofList bits).packed.room i = _
      rw [packedBit_room, bit_ofList_concat]
      split
      · rename_i hi
        exact bit_eq_false _ hi.le
      · rfl

/-- **Bits collected one at a time** are packed. -/
theorem collect_eq (bits : List Bool) : collect bits = (ofList bits).packed := by
  induction bits using List.reverseRecOn with
  | nil => rfl
  | append_singleton bits b ih =>
      rw [collect, List.foldl_append, List.foldl_cons, List.foldl_nil, ← push_eq]
      exact congrArg (push · b) ih

/-! ### Single bits -/

/-- The vector with bit `i` set to `b` by a mask. -/
def assign? (p : Packed) (i : ℕ) (b : Bool) : Option Packed :=
  if i < p.length then some { p with words := p.words.modify (i / 64) (assignBit (i % 64) b) }
  else none

/-- The vector with bit `i` flipped by a mask. -/
def negate? (p : Packed) (i : ℕ) : Option Packed :=
  if i < p.length then some { p with words := p.words.modify (i / 64) (· ^^^ Word.single (i % 64)) }
  else none

/-- The vector with a single bit set. -/
def unit? (n i : ℕ) : Option Packed :=
  (zeros n).assign? i true

/-- **Setting a bit by a mask** is setting it. -/
theorem assign?_eq (v : BitVector) (i : ℕ) (b : Bool) :
    v.packed.assign? i b = (v.set? i b).map packed := by
  by_cases hi : i < v.length
  · obtain ⟨u, hu, hlength, hbits⟩ := exists_set? hi b
    have hstored := v.length_le_stored
    rw [hu, assign?]
    refine (if_pos hi).trans (congrArg some (eq_packed hlength.symm ?_ fun j => ?_))
    · exact (List.length_modify _ _ _).trans v.length_words
    · rw [hbits]
      exact packedBit_modify_assignBit (show i < 64 * v.words.length by omega) b j
  · rw [assign?, set?, if_neg hi]
    exact if_neg hi

/-- Negating a bit of the packed form flips the bit. -/
theorem negate?_eq (v : BitVector) (i : ℕ) : v.packed.negate? i = (v.flip? i).map packed := by
  rw [negate?, flip?]
  have hlength : v.packed.length = v.length := rfl
  by_cases hi : i < v.length
  · rw [hlength, if_pos hi, if_pos hi, Option.map_some, BitVector.flip, dif_pos hi]
    rfl
  · rw [hlength, if_neg hi, if_neg hi, Option.map_none]

/-- The packed unit vector is the unit vector. -/
theorem unit?_eq (n i : ℕ) : unit? n i = (BitVector.unit? n i).map packed := by
  have hflip : (BitVector.zeros n).set? i true = (BitVector.zeros n).flip? i := by
    rw [set?, flip?, bit_zeros]
    rfl
  rw [BitVector.unit?, ← hflip, ← assign?_eq]
  rfl

/-! ### Two vectors -/

/-- Adds words into others, as many as there are on both sides. -/
def xorInto : List Word → List Word → List Word
  | word :: words, other :: others => (word ^^^ other) :: xorInto words others
  | words, _ => words

/-- The sum of two vectors, formed in place of the first. -/
def xor? (p q : Packed) : Option Packed :=
  if p.length = q.length then some { p with words := xorInto p.words q.words } else none

/-- The bits set in both vectors. -/
def and? (p q : Packed) : Option Packed :=
  if p.length = q.length then some ⟨p.length, List.zipWith (· &&& ·) p.words q.words⟩ else none

/-- The bits in order. -/
def toBits (p : Packed) : List Bool :=
  (List.range p.length).map (packedBit p.words)

/-- The bits of `p` followed by those of `q`. -/
def append (p q : Packed) : Packed :=
  collect (p.toBits ++ q.toBits)

/-- The positions of the set bits. -/
def support (p : Packed) : List ℕ :=
  p.words.zipIdx.flatMap fun (word, k) => (Word.positions word).map (64 * k + ·)

/-- The bits of `p` from `offset` on in a zero vector, set one at a time. -/
def place? (p : Packed) (offset n : ℕ) : Option Packed :=
  if offset + p.length ≤ n then
    p.support.foldlM (fun placed i => placed.assign? (i + offset) true) (zeros n)
  else
    none

/-- The inner product. -/
def dot? (p q : Packed) : Option Bool :=
  if p.length = q.length then
    let common := List.zipWith (fun a b => Word.weight (a &&& b)) p.words q.words
    some (common.foldr (· + ·) 0 % 2 == 1)
  else
    none

/-- The product of a matrix with the given rows and a column vector. -/
def product? (rows : List Packed) (columns : ℕ) (p : Packed) : Option Packed :=
  if p.length = columns then (rows.mapM (dot? · p)).map collect else none

/-- The sum in place, word by word, is the sum word by word. -/
theorem xorInto_eq {vs ws : List Word} (h : vs.length = ws.length) :
    xorInto vs ws = List.zipWith (· ^^^ ·) vs ws := by
  induction vs generalizing ws with
  | nil => cases ws <;> rfl
  | cons a vs ih =>
      obtain ⟨b, ws, rfl⟩ := List.exists_cons_of_length_eq_add_one h.symm
      rw [xorInto, ih (Nat.succ.inj h), List.zipWith_cons_cons]

/-- **The sum in place** is the sum. -/
theorem xor?_eq (v w : BitVector) : v.packed.xor? w.packed = (v.xor? w).map packed := by
  rw [xor?, BitVector.xor?]
  by_cases h : v.length = w.length
  · have hwords : v.words.length = w.words.length := by rw [v.length_words, w.length_words, h]
    rw [dif_pos h, Option.map_some, packed]
    exact (if_pos h).trans (congrArg some (congrArg (Packed.mk v.length) (xorInto_eq hwords)))
  · rw [dif_neg h, Option.map_none]
    exact if_neg h

/-- The product of packed forms is that of the vectors. -/
theorem and?_eq (v w : BitVector) : v.packed.and? w.packed = (v.and? w).map packed := by
  rw [and?, BitVector.and?]
  by_cases h : v.length = w.length
  · rw [dif_pos h]
    exact if_pos h
  · rw [dif_neg h]
    exact if_neg h

/-- The list of the bits of the packed form is that of the vector. -/
theorem toBits_eq (v : BitVector) : v.packed.toBits = v.toList := by
  refine List.ext_getElem? fun i => ?_
  rw [toBits, List.getElem?_map]
  by_cases hi : i < v.length
  · rw [getElem?_toList v hi, List.getElem?_range (show i < v.packed.length from hi)]
    rfl
  · rw [List.getElem?_eq_none (by simpa [packed] using hi),
      List.getElem?_eq_none (by simpa using hi)]
    rfl

/-- Joining packed forms is joining the vectors. -/
theorem append_eq (v w : BitVector) : v.packed.append w.packed = (v.append w).packed := by
  rw [append, toBits_eq, toBits_eq, collect_eq, BitVector.append]

/-- **Bits set one at a time** are those that were set before and the new ones. -/
theorem exists_foldlM_assign? {l : List ℕ} {offset : ℕ} (h : ∀ i ∈ l, i + offset < v.length) :
    ∃ u : BitVector,
      l.foldlM (fun placed i => placed.assign? (i + offset) true) v.packed = some u.packed ∧
        u.length = v.length ∧
        ∀ j, u.bit j = true ↔ v.bit j = true ∨ ∃ i ∈ l, i + offset = j := by
  induction l generalizing v with
  | nil => exact ⟨v, rfl, rfl, by simp⟩
  | cons i l ih =>
      obtain ⟨hi, hl⟩ := List.forall_mem_cons.mp h
      obtain ⟨v₁, hv₁, hlength₁, hbits₁⟩ := exists_set? hi true
      obtain ⟨u, hu, hlength, hbits⟩ := ih (v := v₁) fun k hk => hlength₁ ▸ hl k hk
      refine ⟨u, ?_, hlength.trans hlength₁, fun j => ?_⟩
      · rw [List.foldlM_cons, assign?_eq, hv₁]
        exact hu
      · rw [hbits, hbits₁, List.exists_mem_cons_iff]
        split
        · rename_i hij
          simp [hij]
        · rename_i hij
          simp [hij]

/-- **Placing by setting bits** places the vector. -/
theorem place?_eq (v : BitVector) (offset n : ℕ) :
    v.packed.place? offset n = (v.place? offset n).map packed := by
  by_cases hfits : offset + v.length ≤ n
  · obtain ⟨placed, hplaced⟩ := exists_place? hfits
    have hinside : ∀ i ∈ v.support, i + offset < (BitVector.zeros n).length := by
      intro i hi
      have := lt_of_mem_support hi
      rw [length_zeros]
      omega
    obtain ⟨u, hu, hlength, hbits⟩ := exists_foldlM_assign? hinside
    have hsame : u = placed := by
      refine ext_bits (hlength.trans (length_of_place? hplaced).symm) fun j _ => ?_
      rw [Bool.eq_iff_iff, hbits, bit_of_place? hplaced, bit_zeros, Bool.and_eq_true,
        decide_eq_true_eq]
      constructor
      · rintro (hnone | ⟨i, hi, rfl⟩)
        · cases hnone
        · exact ⟨by omega, by rw [Nat.add_sub_cancel]; exact mem_support.mp hi⟩
      · rintro ⟨hoffset, hbit⟩
        exact .inr ⟨j - offset, mem_support.mpr hbit, by omega⟩
    rw [hplaced, place?]
    exact (if_pos hfits).trans (hsame ▸ hu)
  · rw [place?, BitVector.place?, if_neg hfits]
    exact if_neg hfits

/-- The product of packed rows with a packed vector is that of the matrix with the vector. -/
theorem product?_eq (m : BitMatrix) (v : BitVector) :
    product? (m.rows.map packed) m.columns v.packed = (m.mulVec? v).map packed := by
  have hdots : (m.rows.map packed).mapM (dot? · v.packed) = m.rows.mapM (BitVector.dot? · v) := by
    rw [List.mapM_map]
    rfl
  rw [product?, BitMatrix.mulVec?, hdots]
  by_cases h : v.length = m.columns
  · refine (if_pos h).trans ?_
    rw [guard, if_pos h]
    cases m.rows.mapM (BitVector.dot? · v) with
    | none => rfl
    | some bits => exact congrArg some (collect_eq bits)
  · refine (if_neg h).trans ?_
    rw [guard, if_neg h]
    rfl

/-! ### What the normal form gives -/

/-- A vector is determined by its packed form. -/
theorem packed_injective {v w : BitVector} (h : v.packed = w.packed) : v = w := by
  obtain ⟨hlength, hwords⟩ := Packed.mk.inj h
  cases v; cases w
  simp_all

/-- **Words in normal form** are equal if they have the same length and the same bits. -/
theorem IsNormal.eq_iff {q : Packed} (hp : p.IsNormal) (hq : q.IsNormal) :
    p = q ↔ p.length = q.length ∧ ∀ i < p.length, p.get? i = q.get? i := by
  obtain ⟨v, rfl⟩ := isNormal_iff.mp hp
  obtain ⟨w, rfl⟩ := isNormal_iff.mp hq
  refine Iff.trans ?_ eq_iff_get?
  exact ⟨packed_injective, congrArg packed⟩

/-- They are zero if all bits are. -/
theorem IsNormal.isZero_iff (hp : p.IsNormal) :
    p.isZero = true ↔ ∀ i < p.length, p.get? i = some false := by
  obtain ⟨v, rfl⟩ := isNormal_iff.mp hp
  exact BitVector.isZero_iff

/-- Rebuilding a vector from them clears nothing. -/
theorem IsNormal.ofWords?_eq (hp : p.IsNormal) : ofWords? p.length p.words = some p := by
  obtain ⟨v, rfl⟩ := isNormal_iff.mp hp
  rw [Packed.ofWords?_eq]
  exact congrArg (Option.map packed) v.ofWords?_words

end Packed

end AffinePhase
