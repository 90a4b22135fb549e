import AffinePhase.Proofs.Polynomial.Parity

/-!
# Reading and writing single terms

A term is asked for by a list of its indices in any order. The list is checked and sorted, and what
is read or written is the byte that is stored for the sorted list. Together the tables behave like a
map from index sets to residues: a term that is set is read back for every order of its indices, all
other terms keep their bytes, and lists that name no term are refused in one way only. The list of
terms shows this map, without what is zero, in the order of degrees and lexicographically within a
degree.

## Main definitions

* `Monomial.Names`: the lists of indices that name a term.
* `TermFault`: what the others are refused with.
* `Monomial.Precedes`: the order by degree and then lexicographically.

## Main results

* `PhasePolynomial.monomial_eq`, `PhasePolynomial.monomial_eq_error_iff`: what the check decides.
* `PhasePolynomial.IsConsistent.term_eq`, `PhasePolynomial.IsConsistent.setTerm_eq`: reading and
  writing by the check alone.
* `PhasePolynomial.IsConsistent.pairwise_terms`: the order of the terms.
* `PhasePolynomial.IsGroupOn.term_eq_zero`: a coefficient that is zero is stored as the byte zero.
* `PhasePolynomial.terms_form_map`: the tables as a map.
-/

open scoped Fin.CommRing

namespace AffinePhase

variable {n : ℕ} {indices indices' : List ℕ} {m : Monomial} {k : Z8} {failure : Failure}

namespace Monomial

/-- A list of indices, in any order, that names a term in `n` variables. -/
structure Names (indices : List ℕ) (n : ℕ) : Prop where
  /-- There are at most three of them. -/
  degree : indices.length ≤ 3
  /-- Each of them is that of a variable. -/
  below : ∀ i ∈ indices, i < n
  /-- None is repeated. -/
  distinct : indices.Nodup

/-- Another order of the indices names the same term. -/
theorem Names.perm (h : Names indices n) (hperm : indices'.Perm indices) : Names indices' n :=
  ⟨hperm.length_eq ▸ h.degree, fun i hi => h.below i (hperm.mem_iff.mp hi),
    hperm.nodup_iff.mpr h.distinct⟩

/-- Increasing lists name the terms. -/
theorem IsTerm.names (h : m.IsTerm n) : Names m n :=
  ⟨h.degree, h.below, h.increasing.imp ne_of_lt⟩

/-- Sorting keeps a list of different indices a term. -/
theorem isTerm_ofList (hdegree : indices.length ≤ 3) (hbelow : ∀ i ∈ indices, i < n) :
    (ofList indices).IsTerm n := by
  refine ⟨pairwise_ofList indices, fun i hi => hbelow i (mem_ofList.mp hi), ?_⟩
  have hnodup : (ofList indices).Nodup := (pairwise_ofList indices).imp ne_of_lt
  have hsubset : ofList indices ⊆ indices := fun i hi => mem_ofList.mp hi
  exact (List.subperm_of_subset hnodup hsubset).length_le.trans hdegree

/-- Lists of different indices are sorted into the same list exactly if they differ in their order
only. -/
theorem ofList_eq_ofList_iff (h : indices.Nodup) (h' : indices'.Nodup) :
    ofList indices = ofList indices' ↔ indices.Perm indices' := by
  rw [List.perm_ext_iff_of_nodup h h']
  constructor
  · intro heq i
    rw [← mem_ofList, heq, mem_ofList]
  · intro hsame
    refine (pairwise_ofList indices).eq_of_mem_iff (pairwise_ofList indices') fun i => ?_
    rw [mem_ofList, mem_ofList, hsame]

/-- A monomial comes before another one if its degree is less, or if the degrees are the same and it
comes first lexicographically. -/
def Precedes (m m' : Monomial) : Prop :=
  m.length < m'.length ∨ m.length = m'.length ∧ m < m'

end Monomial

/-- The monomials of degree at most three are listed by degree and then lexicographically. -/
theorem pairwise_monomials (n : ℕ) : (monomials n).Pairwise Monomial.Precedes := by
  have hlength : ∀ {d : ℕ} {m : Monomial}, m ∈ subsets d (List.range n) → m.length = d :=
    fun hm => (mem_subsets.mp hm).2
  have hsame : ∀ d, (subsets d (List.range n)).Pairwise Monomial.Precedes := by
    intro d
    refine (pairwise_subsets List.pairwise_lt_range d).imp_of_mem fun ha hb hlt => .inr ⟨?_, hlt⟩
    rw [hlength ha, hlength hb]
  have hless : ∀ {d d' : ℕ}, d < d' → ∀ a ∈ subsets d (List.range n),
      ∀ b ∈ subsets d' (List.range n), Monomial.Precedes a b := by
    intro d d' hd a ha b hb
    exact .inl (by rwa [hlength ha, hlength hb])
  rw [monomials, PhasePolynomial.smallSubsets, List.pairwise_cons, List.pairwise_append,
    List.pairwise_append]
  refine ⟨fun m hm => .inl ?_, ⟨hsame 1, hsame 2, hless (by decide)⟩, hsame 3, ?_⟩
  · exact List.length_pos_iff.mpr (mem_smallSubsets.mp hm).2.2
  · intro a ha b hb
    rcases List.mem_append.mp ha with ha | ha
    · exact hless (by decide) a ha b hb
    · exact hless (by decide) a ha b hb

/-- What a list of indices that names no term is refused with: it is too long, or an index is not
that of a variable, of which the first is reported, or an index is repeated. -/
inductive TermFault (n : ℕ) (indices : List ℕ) : Failure → Prop
  | tooLong (h : 3 < indices.length) : TermFault n indices (.invalidTerm indices)
  | noVariable (hlength : indices.length ≤ 3) (before : List ℕ) (i : ℕ) (after : List ℕ)
      (hsplit : indices = before ++ i :: after) (hbefore : ∀ j ∈ before, j < n) (hi : n ≤ i) :
      TermFault n indices (.qubitIndex i n)
  | repeated (hlength : indices.length ≤ 3) (hbelow : ∀ i ∈ indices, i < n)
      (h : ¬ indices.Nodup) : TermFault n indices (.invalidTerm indices)

namespace PhasePolynomial

variable {p : PhasePolynomial}

/-! ### The check -/

/-- At most three different indices below `n` are those of a monomial. -/
theorem monomial_eq (hdegree : indices.length ≤ 3) (hbelow : ∀ i ∈ indices, i < n)
    (hnodup : indices.Nodup) : monomial n indices = .ok (Monomial.ofList indices) := by
  have hdegree' : indices.length ≤ maxDegree := hdegree
  rw [monomial, Result.require_eq_ok.mpr hdegree', Result.indicesBelow_eq_ok.mpr hbelow,
    Result.require_eq_ok.mpr hnodup]
  rfl

/-- A list that passes the check names a term, and is sorted. -/
theorem names_of_monomial (h : monomial n indices = .ok m) :
    Monomial.Names indices n ∧ m = Monomial.ofList indices := by
  obtain ⟨hdegree, h⟩ := Result.require_bind_eq_ok.mp h
  obtain ⟨_, hbelow, h⟩ := Result.bind_eq_ok.mp h
  obtain ⟨hnodup, h⟩ := Result.require_bind_eq_ok.mp h
  exact ⟨⟨hdegree, Result.indicesBelow_eq_ok.mp hbelow, hnodup⟩, (Except.ok.inj h).symm⟩

/-- **A list is refused** for its first fault. -/
theorem monomial_eq_error_iff :
    monomial n indices = .error failure ↔ TermFault n indices failure := by
  rw [monomial, Result.require_bind_eq_error, Result.bind_eq_error]
  constructor
  · rintro (⟨hlong, rfl⟩ | ⟨hdegree, hindex | ⟨_, hbelow, h⟩⟩)
    · exact .tooLong (not_le.mp hlong)
    · obtain ⟨before, i, after, hsplit, hbefore, hi, rfl⟩ := Result.indicesBelow_eq_error.mp hindex
      exact .noVariable hdegree before i after hsplit hbefore hi
    · obtain ⟨hrepeated, rfl⟩ | ⟨-, h⟩ := Result.require_bind_eq_error.mp h
      · exact .repeated hdegree (Result.indicesBelow_eq_ok.mp hbelow) hrepeated
      · cases h
  · intro h
    cases h with
    | tooLong h => exact .inl ⟨not_le.mpr h, rfl⟩
    | noVariable hdegree before i after hsplit hbefore hi =>
        refine .inr ⟨hdegree, .inl ?_⟩
        exact Result.indicesBelow_eq_error.mpr ⟨before, i, after, hsplit, hbefore, hi, rfl⟩
    | repeated hdegree hbelow h =>
        refine .inr ⟨hdegree, .inr ⟨(), Result.indicesBelow_eq_ok.mpr hbelow, ?_⟩⟩
        exact Result.require_bind_eq_error.mpr (.inl ⟨h, rfl⟩)

/-! ### Reading and writing -/

/-- What is done with the outcome of the check is done with a term. -/
theorem monomial_bind {α : Type} {f : Monomial → Result α} {g : Monomial → α}
    (h : ∀ m, m.IsTerm n → f m = .ok (g m)) :
    monomial n indices >>= f = (monomial n indices).map g := by
  cases hcheck : monomial n indices with
  | error failure => rfl
  | ok m =>
      obtain ⟨hnames, rfl⟩ := names_of_monomial hcheck
      exact h _ (Monomial.isTerm_ofList hnames.degree hnames.below)

/-- **A term is read** from the place of its sorted indices, once the list has been checked. -/
theorem IsConsistent.term_eq (hp : p.IsConsistent) (indices : List ℕ) :
    p.term indices = (monomial p.numVariables indices).map p.stored := by
  refine monomial_bind fun m hm => ?_
  simp only [hp.weight?_eq hm]
  rfl

/-- **A term is written** to the same place. -/
theorem IsConsistent.setTerm_eq (hp : p.IsConsistent) (indices : List ℕ) (k : Z8) :
    p.setTerm indices k = (monomial p.numVariables indices).map
      fun m => p.modifyWeight (fun _ => Z8.toByte k) m := by
  refine monomial_bind fun m hm => ?_
  simp only [hp.weight?_eq hm]
  rfl

/-- Reading a term finds the stored byte, for the indices in any order. -/
theorem IsConsistent.term_ofList (hp : p.IsConsistent) (hdegree : indices.length ≤ 3)
    (hbelow : ∀ i ∈ indices, i < p.numVariables) (hnodup : indices.Nodup) :
    p.term indices = .ok (p.stored (Monomial.ofList indices)) := by
  rw [hp.term_eq, monomial_eq hdegree hbelow hnodup]
  rfl

/-- A term with its indices in order is read without an error. -/
theorem IsConsistent.term_of_isTerm (hp : p.IsConsistent) (hm : m.IsTerm p.numVariables) :
    p.term m = .ok (p.stored m) := by
  have hterm := hp.term_ofList hm.degree hm.below hm.names.distinct
  rwa [Monomial.ofList_eq hm.increasing] at hterm

/-- Reading a term of a group element finds the stored byte. -/
theorem IsGroupOn.term_eq (hp : p.IsGroupOn n) (hm : m.IsTerm n) :
    p.term m = .ok (p.stored m) := by
  obtain ⟨rfl, hcons, -⟩ := hp
  exact hcons.term_of_isTerm hm

/-- The coefficient of a term of a group element. -/
theorem IsGroupOn.coefficient_eq_stored (hp : p.IsGroupOn n) (hm : m.IsTerm n) :
    p.coefficient m = Z8.ofByte (p.stored m) := by
  obtain ⟨rfl, hcons, -⟩ := hp
  exact hcons.coefficient_of_isTerm hm

/-- **A coefficient that is zero** is read as the byte zero. -/
theorem IsGroupOn.term_eq_zero (hp : p.IsGroupOn n) (hdegree : indices.length ≤ 3)
    (hbelow : ∀ i ∈ indices, i < n) (hnodup : indices.Nodup) (hne : indices ≠ [])
    (hzero : p.coefficient (Monomial.ofList indices) = 0) : p.term indices = .ok 0 := by
  have hterm := Monomial.isTerm_ofList hdegree hbelow
  have hne' : Monomial.ofList indices ≠ [] := by
    obtain ⟨i, hi⟩ := List.exists_mem_of_ne_nil indices hne
    exact List.ne_nil_of_mem (Monomial.mem_ofList.mpr hi)
  rw [hp.coefficient_eq_stored hterm] at hzero
  have hbyte := Z8.toByte_ofByte (hp.stored_lt hterm hne')
  rw [hzero] at hbyte
  obtain ⟨rfl, hcons, -⟩ := hp
  rw [hcons.term_ofList hdegree hbelow hnodup, ← hbyte]
  rfl

/-- **Setting a term** does not fail. The byte of the value is read back for every order of the
indices, and all other lists of indices are answered as before. -/
theorem IsConsistent.exists_setTerm (hp : p.IsConsistent)
    (h : Monomial.Names indices p.numVariables) (k : Z8) :
    ∃ q, p.setTerm indices k = .ok q ∧ q.numVariables = p.numVariables ∧ q.IsConsistent ∧
      (∀ indices', indices'.Perm indices → q.term indices' = .ok (Z8.toByte k)) ∧
      ∀ others, ¬ others.Perm indices → q.term others = p.term others := by
  have hterm := Monomial.isTerm_ofList h.degree h.below
  have hcons := hp.modifyWeight (fun _ => Z8.toByte k) hterm.degree
  have hn := numVariables_modifyWeight p (fun _ => Z8.toByte k) (Monomial.ofList indices)
  have hstored {m : Monomial} (hm : m.IsTerm p.numVariables) :=
    hp.stored_modifyWeight (fun _ => Z8.toByte k) hterm hm
  refine ⟨_, ?_, hn, hcons, fun indices' hperm => ?_, fun others hother => ?_⟩
  · rw [hp.setTerm_eq, monomial_eq h.degree h.below h.distinct]
    rfl
  · have hnames := h.perm hperm
    have hsame := (Monomial.ofList_eq_ofList_iff hnames.distinct h.distinct).mpr hperm
    rw [hcons.term_eq, hn, monomial_eq hnames.degree hnames.below hnames.distinct, hsame]
    exact congrArg Except.ok ((hstored hterm).trans (if_pos rfl))
  · rw [hcons.term_eq, hp.term_eq, hn]
    cases hcheck : monomial p.numVariables others with
    | error failure => rfl
    | ok m =>
        obtain ⟨hnames, rfl⟩ := names_of_monomial hcheck
        have hterm' := Monomial.isTerm_ofList hnames.degree hnames.below
        have hne : Monomial.ofList indices ≠ Monomial.ofList others := by
          intro heq
          exact hother ((Monomial.ofList_eq_ofList_iff hnames.distinct h.distinct).mp heq.symm)
        exact congrArg Except.ok ((hstored hterm').trans (if_neg hne))

/-- **The terms are listed in order**: by degree and then lexicographically, and so each once. -/
theorem IsConsistent.pairwise_terms (hp : p.IsConsistent) :
    p.terms.Pairwise fun a b => a.1.Precedes b.1 := by
  rw [terms, hp.weights_eq, List.map_map]
  refine List.Pairwise.filter _ ?_
  rw [List.pairwise_map]
  exact pairwise_monomials p.numVariables

/-- **Term tables form a map** from the sets of at most three variables to the residues. A term is
read for every list that names it, and set by every such list and byte; then the residue of that
byte is read for the same indices in any order, and nothing else has changed. A list that names no
term is refused both by reading and by writing, for its first fault. The terms listed are the index
sets that do not have the residue zero, as increasing lists and with their residues, strictly
increasing by degree and then lexicographically. -/
theorem terms_form_map (hp : p.IsConsistent) :
    (∀ (indices : List ℕ) (v : UInt8), Monomial.Names indices p.numVariables →
      (∃ w, p.term indices = .ok w) ∧
      ∃ q, p.setTerm indices (Z8.ofByte v) = .ok q ∧ q.numVariables = p.numVariables ∧
        q.IsConsistent ∧
        (∀ indices', indices'.Perm indices → q.term indices' = .ok (v % 8)) ∧
        ∀ others, ¬ others.Perm indices → q.term others = p.term others) ∧
    (∀ (indices : List ℕ) (v : UInt8) (failure : Failure),
      (p.term indices = .error failure ↔ TermFault p.numVariables indices failure) ∧
      (p.setTerm indices (Z8.ofByte v) = .error failure ↔
        TermFault p.numVariables indices failure)) ∧
    (∀ m k, (m, k) ∈ p.terms ↔ m.IsTerm p.numVariables ∧ k ≠ 0 ∧
      ∃ w, p.term m = .ok w ∧ Z8.ofByte w = k) ∧
    p.terms.Pairwise fun a b => a.1.Precedes b.1 := by
  refine ⟨fun indices v h => ⟨?_, ?_⟩, fun indices v failure => ⟨?_, ?_⟩, fun m k => ?_,
    hp.pairwise_terms⟩
  · exact ⟨_, hp.term_ofList h.degree h.below h.distinct⟩
  · rw [← Z8.toByte_ofByte_eq_mod]
    exact hp.exists_setTerm h (Z8.ofByte v)
  · rw [hp.term_eq, Result.map_eq_error, monomial_eq_error_iff]
  · rw [hp.setTerm_eq, Result.map_eq_error, monomial_eq_error_iff]
  · rw [hp.mem_terms]
    constructor
    · rintro ⟨hm, hk, hne⟩
      exact ⟨hm, hne, _, hp.term_of_isTerm hm, hk⟩
    · rintro ⟨hm, hne, w, hw, hk⟩
      obtain rfl := Except.ok.inj ((hp.term_of_isTerm hm).symm.trans hw)
      exact ⟨hm, hk, hne⟩

/-- Four variables with bytes above seven: a term of degree three is set by its indices in another
order, and read back in a third one. -/
theorem terms_form_map_of_reordered :
    ∃ q, setTerm ⟨4, 9, #[8, 255, 3, 0], #[0, 0, 0, 10, 0, 8], #[0, 7, 0, 1]⟩ [3, 0, 2]
        (Z8.ofByte 253) = .ok q ∧ q.term [2, 3, 0] = .ok 5 ∧ q.term [1, 2] = .ok 10 := by
  obtain ⟨q, hq, -, -, hsame, hother⟩ := ((@terms_form_map
    ⟨4, 9, #[8, 255, 3, 0], #[0, 0, 0, 10, 0, 8], #[0, 7, 0, 1]⟩ (by decide +kernel)).1
      [3, 0, 2] 253 ⟨by decide, by decide, by decide⟩).2
  exact ⟨q, hq, hsame [2, 3, 0] (by decide), (hother [1, 2] (by decide)).trans (by decide +kernel)⟩

end PhasePolynomial

end AffinePhase
