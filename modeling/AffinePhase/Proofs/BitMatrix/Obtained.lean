import AffinePhase.BitMatrix.Text
import AffinePhase.Proofs.BitMatrix.Block
import AffinePhase.Proofs.BitMatrix.Inverse
import AffinePhase.Proofs.BitVector.Packed

/-!
# Vectors and matrices that calls lead to

Vectors are made by constructors and changed, combined and multiplied by calls. Such a history is a
tree, and it can be run twice: with the operations on vectors, whose type carries the normal form,
and with the word arithmetic on a bare length and words. The two agree at every step, so that no
call leaves a bit past the length, and the words can be compared in place of the bits.

A matrix is left uneven only by storing a row of another length. All other calls keep its rows as
long as there are columns.

## Main definitions

* `BitVector.History`: a tree of calls.
* `BitVector.History.vector`, `BitVector.History.stored`: what it leads to, as a vector and in
  words.
* `BitMatrix.Obtained`: the matrices that calls lead to.

## Main results

* `BitVector.History.stored_eq`: the word arithmetic follows the operations on vectors.
* `BitMatrix.Obtained.isRectangular`: the matrices are rectangular.
* `representation_invariant`: the normal form and what it gives.
-/

namespace AffinePhase

namespace BitVector

/-! ### Histories of vectors -/

/-- A tree of calls that make a vector. -/
inductive History where
  /-- The zero vector. -/
  | zeros (n : ℕ)
  /-- The vector whose bits are all set. -/
  | ones (n : ℕ)
  /-- The vector with a single bit set. -/
  | unit (n i : ℕ)
  /-- A random vector, drawn from a source of words. -/
  | random (n : ℕ) (source : List Word)
  /-- The vector of any words. -/
  | ofWords (n : ℕ) (words : List Word)
  /-- The vector of a list of bits. -/
  | ofList (bits : List Bool)
  /-- A bit is set or cleared. -/
  | assign (h : History) (i : ℕ) (b : Bool)
  /-- A bit is flipped. -/
  | negate (h : History) (i : ℕ)
  /-- The sum, formed in place or not. -/
  | xor (h k : History)
  /-- The common bits. -/
  | and (h k : History)
  /-- One vector after the other. -/
  | append (h k : History)
  /-- The vector inside a zero vector. -/
  | place (h : History) (offset n : ℕ)
  /-- The product of any matrix and the vector. -/
  | product (m : BitMatrix) (h : History)
  /-- A row of any matrix. -/
  | row (m : BitMatrix) (i : ℕ)

namespace History

/-- The vector that the calls lead to, `none` if one of them breaks its contract. -/
def vector : History → Option BitVector
  | zeros n => some (BitVector.zeros n)
  | ones n => some (BitVector.ones n)
  | unit n i => unit? n i
  | random n source => (BitVector.random n source).map Prod.fst
  | ofWords n words => ofWords? n words
  | ofList bits => some (BitVector.ofList bits)
  | assign h i b => h.vector.bind (·.set? i b)
  | negate h i => h.vector.bind (·.flip? i)
  | xor h k => h.vector.bind fun v => k.vector.bind fun w => v.xor? w
  | and h k => h.vector.bind fun v => k.vector.bind fun w => v.and? w
  | append h k => h.vector.bind fun v => k.vector.map fun w => v.append w
  | place h offset n => h.vector.bind (·.place? offset n)
  | product m h => h.vector.bind m.mulVec?
  | row m i => m.row? i

/-- The length and words that the calls lead to by word arithmetic. -/
def stored : History → Option Packed
  | zeros n => some (Packed.zeros n)
  | ones n => some (Packed.ones n)
  | unit n i => Packed.unit? n i
  | random n source => Packed.random? n source
  | ofWords n words => Packed.ofWords? n words
  | ofList bits => some (Packed.collect bits)
  | assign h i b => h.stored.bind (·.assign? i b)
  | negate h i => h.stored.bind (·.negate? i)
  | xor h k => h.stored.bind fun p => k.stored.bind fun q => p.xor? q
  | and h k => h.stored.bind fun p => k.stored.bind fun q => p.and? q
  | append h k => h.stored.bind fun p => k.stored.map fun q => p.append q
  | place h offset n => h.stored.bind (·.place? offset n)
  | product m h => h.stored.bind (Packed.product? (m.rows.map packed) m.columns)
  | row m i => (m.rows.map packed)[i]?

/-- An operation on words that follows one on vectors does so wherever the calls before led to. -/
theorem bind_map_packed {f : Packed → Option Packed} {g : BitVector → Option BitVector}
    (h : ∀ v, f v.packed = (g v).map packed) (x : Option BitVector) :
    (x.map packed).bind f = (x.bind g).map packed := by
  cases x with
  | none => rfl
  | some v => exact h v

/-- **The word arithmetic** leads to the words of the vector. -/
theorem stored_eq (h : History) : h.stored = h.vector.map packed := by
  induction h with
  | zeros n => rfl
  | ones n => exact congrArg some (Packed.ones_eq n)
  | unit n i => exact Packed.unit?_eq n i
  | random n source =>
      rw [stored, vector, Packed.random?_eq, Option.map_map]
      rfl
  | ofWords n words => exact Packed.ofWords?_eq n words
  | ofList bits => exact congrArg some (Packed.collect_eq bits)
  | assign h i b ih =>
      rw [stored, vector, ih]
      exact bind_map_packed (fun v => Packed.assign?_eq v i b) _
  | negate h i ih =>
      rw [stored, vector, ih]
      exact bind_map_packed (fun v => Packed.negate?_eq v i) _
  | xor h k ihh ihk =>
      rw [stored, vector, ihh, ihk]
      exact bind_map_packed (fun v => bind_map_packed (Packed.xor?_eq v) _) _
  | and h k ihh ihk =>
      rw [stored, vector, ihh, ihk]
      exact bind_map_packed (fun v => bind_map_packed (Packed.and?_eq v) _) _
  | append h k ihh ihk =>
      rw [stored, vector, ihh, ihk]
      refine bind_map_packed (fun v => ?_) _
      rw [Option.map_map, Option.map_map]
      exact congrArg (Option.map · k.vector) (funext (Packed.append_eq v))
  | place h offset n ih =>
      rw [stored, vector, ih]
      exact bind_map_packed (fun v => Packed.place?_eq v offset n) _
  | product m h ih =>
      rw [stored, vector, ih]
      exact bind_map_packed (Packed.product?_eq m) _
  | row m i => rw [stored, vector, List.getElem?_map, BitMatrix.row?]

end History

end BitVector

namespace BitMatrix

variable {m : BitMatrix}

/-! ### Rows -/

/-- A random vector has the length that is asked for. -/
theorem length_of_random {n : ℕ} {v : BitVector} {source rest : List Word}
    (h : BitVector.random n source = some (v, rest)) : v.length = n := by
  obtain ⟨u, hu, hv⟩ := Option.map_eq_some_iff.mp h
  obtain ⟨rfl, -⟩ := Prod.mk.inj hv
  exact BitVector.length_of_ofWords? hu

/-- Random rows have the same length. -/
theorem length_of_randomList {n count : ℕ} {vs : List BitVector} {source rest : List Word}
    (h : BitVector.randomList n count source = some (vs, rest)) : ∀ v ∈ vs, v.length = n := by
  induction count generalizing vs source rest with
  | zero =>
      obtain ⟨rfl, -⟩ := Prod.mk.inj (Option.some.inj h)
      exact List.forall_mem_nil _
  | succ count ih =>
      obtain ⟨⟨first, source₁⟩, hfirst, h⟩ := Option.bind_eq_some_iff.mp h
      obtain ⟨⟨others, source₂⟩, hothers, h⟩ := Option.bind_eq_some_iff.mp h
      obtain ⟨rfl, -⟩ := Prod.mk.inj (Option.some.inj h)
      exact List.forall_mem_cons.mpr ⟨length_of_random hfirst, ih hothers⟩

/-- A random matrix is rectangular. -/
theorem isRectangular_of_random {r c : ℕ} {source rest : List Word}
    (h : BitMatrix.random r c source = some (m, rest)) : m.IsRectangular := by
  obtain ⟨⟨rows, source₁⟩, hrows, h⟩ := Option.bind_eq_some_iff.mp h
  obtain ⟨rfl, -⟩ := Prod.mk.inj (Option.some.inj h)
  exact length_of_randomList hrows

/-- A random invertible matrix is rectangular. -/
theorem isRectangular_of_randomInvertible {n : ℕ} {source rest : List Word}
    (h : BitMatrix.randomInvertible n source = some (m, rest)) : m.IsRectangular := by
  fun_induction BitMatrix.randomInvertible n source with
  | case1 source hnone => cases h
  | case2 source candidate rest' hdrawn hinvertible =>
      obtain ⟨rfl, -⟩ := Prod.mk.inj (Option.some.inj h)
      exact isRectangular_of_random hdrawn
  | case3 source candidate rest' hdrawn hsingular hrest ih => exact ih h
  | case4 source candidate rest' hdrawn hsingular hrest => cases h

/-- The rows of placed matrices have the length of the whole. -/
theorem length_of_blockRows? {total offset : ℕ} {ms : List BitMatrix} {rows : List BitVector}
    (h : blockRows? total offset ms = some rows) : ∀ row ∈ rows, row.length = total := by
  induction ms generalizing offset rows with
  | nil =>
      obtain rfl := Option.some.inj h
      exact List.forall_mem_nil _
  | cons m ms ih =>
      obtain ⟨placed, hplaced, h⟩ := Option.bind_eq_some_iff.mp h
      obtain ⟨rest, hrest, h⟩ := Option.bind_eq_some_iff.mp h
      obtain rfl := Option.some.inj h
      refine List.forall_mem_append.mpr ⟨?_, ih hrest⟩
      exact Result.forall_mem_of_mapM (fun _ _ _ h => BitVector.length_of_place? h) hplaced

/-- A maximum is not below the numbers that it is taken of. -/
theorem le_foldl_max (l : List ℕ) (a : ℕ) : a ≤ l.foldl max a ∧ ∀ k ∈ l, k ≤ l.foldl max a := by
  induction l generalizing a with
  | nil => exact ⟨le_rfl, List.forall_mem_nil _⟩
  | cons b l ih =>
      obtain ⟨hmax, hl⟩ := ih (max a b)
      rw [List.foldl_cons, List.forall_mem_cons]
      exact ⟨(le_max_left a b).trans hmax, (le_max_right a b).trans hmax, hl⟩

/-- Short rows are filled up to the longest. -/
theorem isRectangular_ofUneven (rows : List (List Bool)) : (ofUneven rows).IsRectangular := by
  intro row hrow
  obtain ⟨bits, hbits, rfl⟩ := List.mem_map.mp hrow
  have hlongest : bits.length ≤ (rows.map List.length).foldl max 0 :=
    (le_foldl_max _ 0).2 _ (List.mem_map_of_mem hbits)
  rw [BitVector.length_ofList, List.length_append, List.length_replicate]
  exact Nat.add_sub_of_le hlongest

/-! ### Histories of matrices -/

/-- The matrices that calls lead to. -/
inductive Obtained : BitMatrix → Prop
  /-- A zero matrix. -/
  | zeros (r c : ℕ) : Obtained (zeros r c)
  /-- An identity matrix. -/
  | identity (n : ℕ) : Obtained (identity n)
  /-- The matrix of some rows. -/
  | ofRows {rows : List BitVector} {c : ℕ} {m : BitMatrix} (h : ofRows? rows c = some m) :
      Obtained m
  /-- The matrix of some rows of bits. -/
  | ofLists {rows : List (List Bool)} {c : ℕ} {m : BitMatrix} (h : ofLists? rows c = some m) :
      Obtained m
  /-- A random matrix. -/
  | random {r c : ℕ} {source rest : List Word} {m : BitMatrix}
      (h : BitMatrix.random r c source = some (m, rest)) : Obtained m
  /-- A random invertible matrix. -/
  | randomInvertible {n : ℕ} {source rest : List Word} {m : BitMatrix}
      (h : BitMatrix.randomInvertible n source = some (m, rest)) : Obtained m
  /-- A matrix read from a text. -/
  | parsed {text : List Char} {m : BitMatrix} (h : parse text = .ok m) : Obtained m
  /-- A row is replaced by one that is as long as there are columns. -/
  | setRow {m m' : BitMatrix} {i : ℕ} {row : BitVector} (hm : m.Obtained)
      (hrow : row.length = m.columns) (h : m.setRow? i row = some m') : Obtained m'
  /-- An entry is set or cleared. -/
  | set {m m' : BitMatrix} {i j : ℕ} {b : Bool} (hm : m.Obtained) (h : m.set? i j b = some m') :
      Obtained m'
  /-- A row is added into another. -/
  | addRow {m m' : BitMatrix} {source target : ℕ} (hm : m.Obtained)
      (h : m.addRow? source target = some m') : Obtained m'
  /-- Two rows are exchanged. -/
  | swapRows {m m' : BitMatrix} {first second : ℕ} (hm : m.Obtained)
      (h : m.swapRows? first second = some m') : Obtained m'
  /-- The reduced echelon form. -/
  | echelonize {m m' : BitMatrix} {profile : List ℕ} (hm : m.Obtained)
      (h : m.echelonize? = some (m', profile)) : Obtained m'
  /-- The inverse. -/
  | inverse {m m' : BitMatrix} (hm : m.Obtained) (h : m.inverse? = some (some m')) : Obtained m'
  /-- The transpose. -/
  | transpose {m m' : BitMatrix} (hm : m.Obtained) (h : m.transpose? = some m') : Obtained m'
  /-- A product. -/
  | mul {a b m : BitMatrix} (ha : a.Obtained) (hb : b.Obtained) (h : a.mul? b = some m) :
      Obtained m
  /-- A block-diagonal sum. -/
  | blockSum {ms : List BitMatrix} {m : BitMatrix} (hms : ∀ a ∈ ms, a.Obtained)
      (h : blockSum? ms = some m) : Obtained m

/-- **Matrices are rectangular**, whatever calls lead to them. -/
theorem Obtained.isRectangular (h : m.Obtained) : m.IsRectangular := by
  induction h with
  | zeros r c => exact isRectangular_zeros r c
  | identity n => exact isRectangular_identity n
  | ofRows h => exact isRectangular_of_ofRows? h
  | ofLists h => exact isRectangular_of_ofRows? h
  | random h => exact isRectangular_of_random h
  | randomInvertible h => exact isRectangular_of_randomInvertible h
  | parsed h =>
      rw [parse] at h
      split at h
      · cases h
      · obtain rfl := Except.ok.inj h
        exact isRectangular_ofUneven _
  | setRow _ hrow h ih =>
      rw [setRow?] at h
      split at h
      · obtain rfl := Option.some.inj h
        exact ih.set _ hrow
      · cases h
  | set _ h ih =>
      obtain ⟨row, hrow, h⟩ := Option.bind_eq_some_iff.mp h
      obtain ⟨changed, hchanged, h⟩ := Option.bind_eq_some_iff.mp h
      obtain rfl := Option.some.inj h
      refine ih.set _ ((BitVector.length_of_set? hchanged).trans ?_)
      exact ih row (List.mem_of_getElem? hrow)
  | addRow _ h ih =>
      obtain ⟨-, -, h⟩ := Option.bind_eq_some_iff.mp h
      obtain ⟨added, -, h⟩ := Option.bind_eq_some_iff.mp h
      obtain ⟨row, hrow, h⟩ := Option.bind_eq_some_iff.mp h
      obtain ⟨sum, hsum, h⟩ := Option.bind_eq_some_iff.mp h
      obtain rfl := Option.some.inj h
      refine ih.set _ ((BitVector.length_of_xor? hsum).trans ?_)
      exact ih row (List.mem_of_getElem? hrow)
  | @swapRows m m' first second _ h ih =>
      obtain ⟨rows, hrows, rfl⟩ := Option.map_eq_some_iff.mp h
      obtain ⟨a, ha, hrows⟩ := Option.bind_eq_some_iff.mp hrows
      obtain ⟨b, hb, hrows⟩ := Option.bind_eq_some_iff.mp hrows
      obtain rfl := Option.some.inj hrows
      have hfirst := ih.set first (ih b (List.mem_of_getElem? hb))
      exact hfirst.set second (ih a (List.mem_of_getElem? ha))
  | echelonize _ h ih =>
      obtain ⟨reduced, profile, hreduced, hshape, -⟩ := exists_echelonize? ih.hasShape
      obtain ⟨rfl, -⟩ := Prod.mk.inj (Option.some.inj (h.symm.trans hreduced))
      exact hshape.rectangular
  | inverse _ h ih =>
      rw [inverse?] at h
      split at h
      · obtain ⟨augmented, -, h⟩ := Option.bind_eq_some_iff.mp h
        obtain ⟨⟨reduced, profile⟩, -, h⟩ := Option.bind_eq_some_iff.mp h
        dsimp only at h
        split at h
        · obtain rfl := Option.some.inj (Option.some.inj h)
          exact (hasShape_columnsFrom reduced _ _).rectangular
        · cases h
      · cases h
  | transpose _ h ih =>
      rw [transpose?] at h
      split at h
      · obtain rfl := Option.some.inj h
        intro row hrow
        obtain ⟨j, -, rfl⟩ := List.mem_map.mp hrow
        rw [BitVector.length_ofList, List.length_map, rowCount]
      · cases h
  | @mul a b m _ _ h iha ihb =>
      obtain ⟨_, hguard, -⟩ := Option.bind_eq_some_iff.mp h
      have hfits : a.columns = b.rowCount := (Option.guard_eq_some' _).mp hguard
      have hb : b.HasShape a.columns b.columns := ⟨hfits.symm, rfl, ihb⟩
      exact (Result.of_exists_some (exists_mul? iha.hasShape hb) h).1.rectangular
  | blockSum _ h ih =>
      obtain ⟨rows, hrows, rfl⟩ := Option.map_eq_some_iff.mp h
      exact length_of_blockRows? hrows

end BitMatrix

/-! ### The representation -/

/-- **The representation invariant.** Word arithmetic leads to the words of the vectors that calls
lead to, and these are in normal form: there are as many words as the length needs, and no bit is
set past the length. So they are equal if they have the same length and the same bits, they are zero
if their bits are, and rebuilding a vector from them gives them again. The matrices that calls lead
to are rectangular. -/
theorem representation_invariant :
    (∀ h : BitVector.History, h.stored = h.vector.map BitVector.packed) ∧
    (∀ (h : BitVector.History) (p : Packed), h.stored = some p →
      p.IsNormal ∧ (p.isZero = true ↔ ∀ i < p.length, p.get? i = some false) ∧
        Packed.ofWords? p.length p.words = some p) ∧
    (∀ (h k : BitVector.History) (p q : Packed), h.stored = some p → k.stored = some q →
      ((p == q) = true ↔ p.length = q.length ∧ ∀ i < p.length, p.get? i = q.get? i)) ∧
    ∀ m : BitMatrix, m.Obtained → m.IsRectangular := by
  have hnormal (h : BitVector.History) (p : Packed) (hp : h.stored = some p) : p.IsNormal := by
    rw [h.stored_eq] at hp
    obtain ⟨v, -, hv⟩ := Option.map_eq_some_iff.mp hp
    exact Packed.isNormal_iff.mpr ⟨v, hv⟩
  refine ⟨BitVector.History.stored_eq, fun h p hp => ?_, fun h k p q hp hq => ?_,
    fun m hm => hm.isRectangular⟩
  · have hp := hnormal h p hp
    exact ⟨hp, hp.isZero_iff, hp.ofWords?_eq⟩
  · rw [beq_iff_eq, (hnormal h p hp).eq_iff (hnormal k q hq)]

/-- Flipping the only bit of the last word of a vector of ones leaves a zero word. -/
theorem representation_invariant_of_ones :
    (BitVector.History.negate (.ones 65) 64).stored = some ⟨65, [18446744073709551615, 0]⟩ ∧
      Packed.IsNormal ⟨65, [18446744073709551615, 0]⟩ :=
  ⟨by rfl, (representation_invariant.2.1 (.negate (.ones 65) 64) _ (by rfl)).1⟩

end AffinePhase
