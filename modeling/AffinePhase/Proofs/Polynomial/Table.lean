import AffinePhase.Polynomial.Arithmetic
import AffinePhase.Proofs.Polynomial.Rank
import AffinePhase.Proofs.Polynomial.Sparse

/-!
# Coefficient tables

A polynomial with consistent tables has one byte for each monomial of degree at most three, at the
place that the rank of the monomial gives. Its list of terms, which walks through the tables and
never computes a rank, has exactly these bytes as its coefficients. The operations on the tables are
therefore described by what they do to `PhasePolynomial.coefficient`.

## Main definitions

* `Monomial.IsTerm`: the monomials of degree at most three in `n` variables.
* `PhasePolynomial.table`, `Monomial.rank`: where the byte of a monomial is stored.
* `PhasePolynomial.coefficient`: the coefficient of a monomial, read off the list of terms.

## Main results

* `PhasePolynomial.IsConsistent.stored_modifyWeight`: what changing one byte does to all of them.
* `PhasePolynomial.IsConsistent.weights_eq`: the terms listed are the bytes stored.
* `PhasePolynomial.IsConsistent.coefficient_of_isTerm`: a coefficient is the residue of its byte.
-/

open scoped Fin.CommRing

namespace AffinePhase

variable {n d : ℕ} {m m' : Monomial}

namespace Monomial

/-- A monomial of degree at most three in `n` variables. -/
structure IsTerm (m : Monomial) (n : ℕ) : Prop where
  /-- The indices increase. -/
  increasing : m.Pairwise (· < ·)
  /-- The indices are below `n`. -/
  below : ∀ i ∈ m, i < n
  /-- The degree is at most three. -/
  degree : m.length ≤ 3

/-- The place of a monomial in the table of its degree. -/
def rank (n : ℕ) : Monomial → ℕ
  | [a] => a
  | [a, b] => pairRank n a b
  | [a, b, c] => tripleRank n a b c
  | _ => 0

theorem isTerm_nil (n : ℕ) : IsTerm [] n :=
  ⟨.nil, fun _ h => (nomatch h), Nat.zero_le 3⟩

/-- A term is one in more variables, too. -/
theorem IsTerm.mono (h : m.IsTerm n) {n' : ℕ} (hn : n ≤ n') : m.IsTerm n' :=
  ⟨h.increasing, fun i hi => (h.below i hi).trans_le hn, h.degree⟩

/-- A term stays one if its variables are numbered after `k` others. -/
theorem IsTerm.map_add (h : m.IsTerm n) (k : ℕ) : IsTerm (m.map (· + k)) (k + n) := by
  refine ⟨h.increasing.map _ fun a b hab => Nat.add_lt_add_right hab k, fun i hi => ?_, ?_⟩
  · obtain ⟨j, hj, rfl⟩ := List.mem_map.mp hi
    have := h.below j hj
    omega
  · rw [List.length_map]
    exact h.degree

/-- A listed subset with at most three elements is a term. -/
theorem isTerm_of_mem_subsets (hd : d ≤ 3) (h : m ∈ subsets d (List.range n)) : m.IsTerm n := by
  obtain ⟨hsorted, hbelow, hlen⟩ := mem_subsets_range.mp h
  exact ⟨hsorted, hbelow, hlen ▸ hd⟩

/-- A term is listed among the subsets of its size. -/
theorem IsTerm.mem_subsets (h : m.IsTerm n) : m ∈ subsets m.length (List.range n) :=
  mem_subsets_range.mpr ⟨h.increasing, h.below, rfl⟩

/-- **The rank is the place** in the enumeration of the degree. -/
theorem IsTerm.getElem?_rank (h : m.IsTerm n) :
    (subsets m.length (List.range n))[m.rank n]? = some m := by
  obtain ⟨hsorted, hbelow, hdegree⟩ := h
  match m, hdegree with
  | [], _ => rw [List.length_nil, subsets]; rfl
  | [a], _ =>
      have ha : a < n := hbelow a List.mem_cons_self
      rw [List.length_singleton, subsets_one, rank, List.getElem?_map, List.getElem?_range ha]
      rfl
  | [a, b], _ =>
      have hab : a < b := List.rel_of_pairwise_cons hsorted List.mem_cons_self
      exact getElem?_subsets_pairRank hab (hbelow b (by simp))
  | [a, b, c], _ =>
      obtain ⟨hab, hbc⟩ := List.pairwise_cons.mp hsorted
      exact getElem?_subsets_tripleRank (hab b List.mem_cons_self)
        (List.rel_of_pairwise_cons hbc List.mem_cons_self) (hbelow c (by simp))

/-- Different monomials of the same degree have different ranks. -/
theorem IsTerm.rank_eq_iff (h : m.IsTerm n) (h' : m'.IsTerm n) (hlen : m.length = m'.length) :
    m.rank n = m'.rank n ↔ m = m' := by
  constructor
  · intro hrank
    have hm := h.getElem?_rank
    rw [hrank, hlen, h'.getElem?_rank] at hm
    exact (Option.some.inj hm).symm
  · exact fun heq => heq ▸ rfl

/-- The monomial at a place of the enumeration has that rank. -/
theorem rank_of_getElem? {i : ℕ} (hd : d ≤ 3) (h : (subsets d (List.range n))[i]? = some m) :
    m.length = d ∧ m.rank n = i := by
  have hterm := isTerm_of_mem_subsets hd (List.mem_of_getElem? h)
  have hlen : m.length = d := (mem_subsets_range.mp (List.mem_of_getElem? h)).2.2
  have hi := (List.getElem?_eq_some_iff.mp h).1
  refine ⟨hlen, ((List.getElem?_inj hi (nodup_subsets d List.nodup_range)).mp ?_).symm⟩
  rw [h, ← hlen, hterm.getElem?_rank]

end Monomial

/-- The monomials of degree at most three in `n` variables, by degree and then lexicographically. -/
def monomials (n : ℕ) : List Monomial := [] :: PhasePolynomial.smallSubsets (List.range n)

/-- Lists of subsets of different sizes have nothing in common. -/
theorem disjoint_subsets {d d' : ℕ} (hne : d ≠ d') (xs : List ℕ) :
    (subsets d xs).Disjoint (subsets d' xs) := fun _ h h' =>
  hne ((mem_subsets.mp h).2.symm.trans (mem_subsets.mp h').2)

/-- The subsets with one, two and three elements. -/
theorem mem_smallSubsets {xs m : List ℕ} :
    m ∈ PhasePolynomial.smallSubsets xs ↔ m.Sublist xs ∧ m.length ≤ 3 ∧ m ≠ [] := by
  rw [PhasePolynomial.smallSubsets, List.mem_append, List.mem_append, mem_subsets, mem_subsets,
    mem_subsets, ← and_or_left, ← and_or_left, ← List.length_pos_iff]
  refine and_congr_right fun _ => ?_
  omega

/-- No such subset is listed twice. -/
theorem nodup_smallSubsets {xs : List ℕ} (h : xs.Nodup) :
    (PhasePolynomial.smallSubsets xs).Nodup := by
  refine ((nodup_subsets 1 h).append (nodup_subsets 2 h) (disjoint_subsets (by decide) _)).append
    (nodup_subsets 3 h) ?_
  rw [List.disjoint_append_left]
  exact ⟨disjoint_subsets (by decide) _, disjoint_subsets (by decide) _⟩

/-- All terms are listed, and nothing else. -/
theorem mem_monomials : m ∈ monomials n ↔ m.IsTerm n := by
  rw [monomials, List.mem_cons, mem_smallSubsets]
  constructor
  · rintro (rfl | ⟨hsub, hlen, -⟩)
    · exact Monomial.isTerm_nil n
    · obtain ⟨hsorted, hbelow⟩ := Monomial.sublist_range_iff.mp hsub
      exact ⟨hsorted, hbelow, hlen⟩
  · intro h
    by_cases hnil : m = []
    · exact .inl hnil
    · exact .inr ⟨(mem_subsets.mp h.mem_subsets).1, h.degree, hnil⟩

/-- No term is listed twice. -/
theorem nodup_monomials (n : ℕ) : (monomials n).Nodup :=
  List.nodup_cons.mpr
    ⟨fun h => (mem_smallSubsets.mp h).2.2 rfl, nodup_smallSubsets List.nodup_range⟩

namespace PhasePolynomial

variable {p q : PhasePolynomial} {x : ℕ → Bool}

/-! ### Tables -/

/-- The table of the coefficients of a degree. -/
def table (p : PhasePolynomial) : ℕ → Array UInt8
  | 0 => #[p.constant]
  | 1 => p.linear
  | 2 => p.quadratic
  | 3 => p.cubic
  | _ => #[]

/-- The byte stored for a monomial, zero if there is none. -/
def stored (p : PhasePolynomial) (m : Monomial) : UInt8 := (p.weight? m).getD 0

/-- The byte of a monomial is found in the table of its degree at its rank. -/
theorem weight?_eq_table (hm : m.length ≤ 3) :
    p.weight? m = (p.table m.length)[m.rank p.numVariables]? := by
  match m, hm with
  | [], _ => rfl
  | [a], _ => rfl
  | [a, b], _ => rfl
  | [a, b, c], _ => rfl

/-- Changing a byte keeps the number of variables. -/
theorem numVariables_modifyWeight (p : PhasePolynomial) (f : UInt8 → UInt8) (m : Monomial) :
    (p.modifyWeight f m).numVariables = p.numVariables := by
  match m with
  | [] | [_] | [_, _] | [_, _, _] | _ :: _ :: _ :: _ :: _ => rfl

/-- Only what the stored byte becomes matters for a change. -/
theorem modify_congr {xs : Array UInt8} {i : ℕ} {f g : UInt8 → UInt8}
    (h : ∀ w, xs[i]? = some w → f w = g w) : xs.modify i f = xs.modify i g := by
  refine Array.ext_getElem? fun j => ?_
  rw [Array.getElem?_modify, Array.getElem?_modify]
  split
  · rename_i heq
    subst heq
    exact Option.map_congr h
  · rfl

/-- What a function does to other bytes does not matter. -/
theorem modifyWeight_congr {f g : UInt8 → UInt8} (h : ∀ w, p.weight? m = some w → f w = g w) :
    p.modifyWeight f m = p.modifyWeight g m := by
  match m, h with
  | [], h => rw [modifyWeight, modifyWeight, h _ rfl]
  | [_], h | [_, _], h | [_, _, _], h => rw [modifyWeight, modifyWeight, modify_congr h]
  | _ :: _ :: _ :: _ :: _, _ => rfl

/-- A change that keeps the byte changes nothing. -/
theorem modifyWeight_id (p : PhasePolynomial) (m : Monomial) : p.modifyWeight id m = p := by
  have hid : ∀ (xs : Array UInt8) (i : ℕ), xs.modify i id = xs := by
    intro xs i
    refine Array.ext_getElem? fun j => ?_
    rw [Array.getElem?_modify, Option.map_id_fun, id, ite_self]
  match m with
  | [] | _ :: _ :: _ :: _ :: _ => rfl
  | [_] | [_, _] | [_, _, _] => rw [modifyWeight, hid]

/-- Changing a byte changes one place of one table. -/
theorem table_modifyWeight (p : PhasePolynomial) (f : UInt8 → UInt8) (hm : m.length ≤ 3) (d : ℕ) :
    (p.modifyWeight f m).table d =
      if d = m.length then (p.table d).modify (m.rank p.numVariables) f else p.table d := by
  match m, hm, d with
  | [], _, 0 => simp [modifyWeight, table, Monomial.rank, Array.modify, Array.modifyM]
  | [_], _, 0 | [_, _], _, 0 | [_, _, _], _, 0 => rfl
  | [], _, 1 | [_], _, 1 | [_, _], _, 1 | [_, _, _], _, 1 => rfl
  | [], _, 2 | [_], _, 2 | [_, _], _, 2 | [_, _, _], _, 2 => rfl
  | [], _, 3 | [_], _, 3 | [_, _], _, 3 | [_, _, _], _, 3 => rfl
  | [], _, d + 4 | [_], _, d + 4 | [_, _], _, d + 4 | [_, _, _], _, d + 4 => simp [table]

/-- Two polynomials are the same if their tables are. -/
theorem ext_table (hn : p.numVariables = q.numVariables) (h : ∀ d ≤ 3, p.table d = q.table d) :
    p = q := by
  have h₀ : #[p.constant] = #[q.constant] := h 0 (by decide)
  have h₁ : p.linear = q.linear := h 1 (by decide)
  have h₂ : p.quadratic = q.quadratic := h 2 (by decide)
  have h₃ : p.cubic = q.cubic := h 3 le_rfl
  cases p; cases q; simp_all

/-- Consistent tables have as many entries as there are subsets. -/
theorem isConsistent_iff :
    p.IsConsistent ↔ ∀ d ≤ 3, (p.table d).size = p.numVariables.choose d := by
  rw [IsConsistent, binomial_eq_choose, binomial_eq_choose]
  constructor
  · rintro ⟨h₁, h₂, h₃⟩ d hd
    match d, hd with
    | 0, _ => rw [Nat.choose_zero_right]; rfl
    | 1, _ => rw [Nat.choose_one_right]; exact h₁
    | 2, _ => exact h₂
    | 3, _ => exact h₃
  · intro h
    have h₁ := h 1 (by decide)
    rw [Nat.choose_one_right] at h₁
    exact ⟨h₁, h 2 (by decide), h 3 le_rfl⟩

/-- Every monomial of degree at most three has its byte. -/
theorem IsConsistent.weight?_eq (hp : p.IsConsistent) (hm : m.IsTerm p.numVariables) :
    p.weight? m = some (p.stored m) := by
  have hlt := (List.getElem?_eq_some_iff.mp hm.getElem?_rank).1
  rw [length_subsets, List.length_range, ← isConsistent_iff.mp hp _ hm.degree] at hlt
  rw [stored, weight?_eq_table hm.degree, Array.getElem?_eq_getElem hlt]
  rfl

/-- Consistent tables have an entry for every term. -/
theorem IsConsistent.table_rank (hp : p.IsConsistent) (hm : m.IsTerm p.numVariables) :
    (p.table m.length)[m.rank p.numVariables]? = some (p.stored m) := by
  rw [← weight?_eq_table hm.degree, hp.weight?_eq hm]

/-- Every byte of a table is that of a monomial. -/
theorem IsConsistent.exists_stored (hp : p.IsConsistent) (hd : d ≤ 3) {i : ℕ}
    (hi : i < (p.table d).size) :
    ∃ m : Monomial, m.IsTerm p.numVariables ∧ m.length = d ∧ m.rank p.numVariables = i := by
  rw [isConsistent_iff.mp hp d hd] at hi
  have hlt : i < (subsets d (List.range p.numVariables)).length := by
    rwa [length_subsets, List.length_range]
  obtain ⟨hlen, hrank⟩ := Monomial.rank_of_getElem? hd (List.getElem?_eq_getElem hlt)
  exact ⟨_, Monomial.isTerm_of_mem_subsets hd (List.getElem_mem hlt), hlen, hrank⟩

/-- **The bytes of the monomials are all there is**: they determine the tables. -/
theorem IsConsistent.ext_stored (hp : p.IsConsistent) (hq : q.IsConsistent)
    (hn : p.numVariables = q.numVariables)
    (h : ∀ m : Monomial, m.IsTerm p.numVariables → p.stored m = q.stored m) : p = q := by
  refine ext_table hn fun d hd => ?_
  have hsize : (p.table d).size = (q.table d).size := by
    rw [isConsistent_iff.mp hp d hd, isConsistent_iff.mp hq d hd, hn]
  refine Array.ext hsize fun i hi hi' => ?_
  obtain ⟨m, hm, rfl, rfl⟩ := hp.exists_stored hd hi
  have hpbyte := hp.table_rank hm
  have hqbyte := hq.table_rank (hn ▸ hm)
  rw [Array.getElem?_eq_getElem hi] at hpbyte
  rw [← hn, Array.getElem?_eq_getElem hi'] at hqbyte
  rw [Option.some.inj hpbyte, Option.some.inj hqbyte, h m hm]

/-- Changing a byte keeps the sizes of the tables. -/
theorem IsConsistent.modifyWeight (hp : p.IsConsistent) (f : UInt8 → UInt8)
    (hm : m.length ≤ 3) : (p.modifyWeight f m).IsConsistent := by
  rw [isConsistent_iff] at hp ⊢
  intro d hd
  rw [table_modifyWeight p f hm, numVariables_modifyWeight]
  split
  · rw [Array.size_modify, hp d hd]
  · exact hp d hd

/-- **Changing a byte** changes the byte of one monomial. -/
theorem IsConsistent.stored_modifyWeight (hp : p.IsConsistent) (f : UInt8 → UInt8)
    (hm : m.IsTerm p.numVariables) (hm' : m'.IsTerm p.numVariables) :
    (p.modifyWeight f m).stored m' = if m = m' then f (p.stored m') else p.stored m' := by
  rw [stored, weight?_eq_table hm'.degree, table_modifyWeight p f hm.degree,
    numVariables_modifyWeight]
  by_cases hlen : m'.length = m.length
  · rw [if_pos hlen, Array.getElem?_modify, hp.table_rank hm',
      if_congr (hm.rank_eq_iff hm' hlen.symm) rfl rfl]
    split <;> rfl
  · have hne : m ≠ m' := fun heq => hlen (heq ▸ rfl)
    rw [if_neg hlen, if_neg hne, hp.table_rank hm', Option.getD_some]

/-! ### The list of terms -/

/-- There are at least as many subsets as there are indices behind the first few. -/
theorem le_choose_add (n d : ℕ) : n ≤ n.choose (d + 1) + (d + 1) := by
  induction n with
  | zero => exact Nat.zero_le _
  | succ n ih =>
      rcases Nat.lt_or_ge n (d + 1) with h | h
      · omega
      · have hpos : 0 < n.choose d := Nat.choose_pos (by omega)
        have hpascal : (n + 1).choose (d + 1) = n.choose d + n.choose (d + 1) :=
          Nat.choose_succ_succ n d
        omega

/-- A table of full size is listed with all monomials of its degree. -/
theorem tabulated_eq {d : ℕ} (hd : d + 1 ≤ 3) {table : Array UInt8}
    (hsize : table.size = n.choose (d + 1)) {w : Monomial → UInt8}
    (hw : ∀ m ∈ subsets (d + 1) (List.range n), table[Monomial.rank n m]? = some (w m)) :
    tabulated n (d + 1) table = (subsets (d + 1) (List.range n)).map fun m => (m, w m) := by
  have hlen : (subsets (d + 1) (List.range n)).length = table.size := by
    rw [length_subsets, List.length_range, hsize]
  have hrange : min n (table.size + (d + 1)) = n := min_eq_left (hsize ▸ le_choose_add n d)
  rw [tabulated, firstSubsets_eq_take, hrange, List.take_of_length_le hlen.le]
  refine List.ext_getElem (by simp [hlen]) fun i hi hi' => ?_
  rw [List.length_map] at hi'
  have hplace := Monomial.rank_of_getElem? hd (List.getElem?_eq_getElem hi')
  have hbyte := hw _ (List.getElem_mem hi')
  rw [hplace.2, Array.getElem?_eq_getElem (hlen ▸ hi')] at hbyte
  rw [List.getElem_zip, List.getElem_map, ← Option.some.inj hbyte]
  rfl

/-- **The terms listed are the bytes stored**, each monomial of degree at most three once. -/
theorem IsConsistent.weights_eq (hp : p.IsConsistent) :
    p.weights = (monomials p.numVariables).map fun m => (m, p.stored m) := by
  have hbytes : ∀ d ≤ 3, ∀ m ∈ subsets d (List.range p.numVariables),
      (p.table d)[Monomial.rank p.numVariables m]? = some (p.stored m) := by
    intro d hd m hm
    have hlen : m.length = d := (mem_subsets_range.mp hm).2.2
    rw [← hlen, hp.table_rank (Monomial.isTerm_of_mem_subsets hd hm)]
  have hsize := isConsistent_iff.mp hp
  have hlinear : (p.linear.toList.zipIdx.map fun t => ([t.2], t.1)) =
      (subsets 1 (List.range p.numVariables)).map fun m => (m, p.stored m) := by
    rw [subsets_one, List.map_map]
    refine List.ext_getElem (by simp [hp.1]) fun i hi hi' => ?_
    have hi : i < p.numVariables := by simpa using hi'
    have hterm : Monomial.IsTerm [i] p.numVariables :=
      ⟨List.pairwise_singleton _ _, fun j hj => List.mem_singleton.mp hj ▸ hi, by simp⟩
    have hbyte := hp.table_rank hterm
    have hget : p.linear[i]? = some (p.stored [i]) := hbyte
    rw [Array.getElem?_eq_getElem (hp.1 ▸ hi)] at hget
    simp [← Option.some.inj hget]
  have hquadratic : tabulated p.numVariables 2 p.quadratic =
      (subsets 2 (List.range p.numVariables)).map fun m => (m, p.stored m) :=
    tabulated_eq (by decide) (hsize 2 (by decide)) (hbytes 2 (by decide))
  have hcubic : tabulated p.numVariables 3 p.cubic =
      (subsets 3 (List.range p.numVariables)).map fun m => (m, p.stored m) :=
    tabulated_eq le_rfl (hsize 3 le_rfl) (hbytes 3 le_rfl)
  show ([], p.constant) :: (p.linear.toList.zipIdx.map fun t => ([t.2], t.1)) ++
    tabulated p.numVariables 2 p.quadratic ++ tabulated p.numVariables 3 p.cubic = _
  rw [hlinear, hquadratic, hcubic, monomials, smallSubsets, List.map_cons, List.map_append,
    List.map_append]
  rfl

/-- The terms are the monomials whose byte does not stand for zero. -/
theorem IsConsistent.mem_terms (hp : p.IsConsistent) {m : Monomial} {k : Z8} :
    (m, k) ∈ p.terms ↔ m.IsTerm p.numVariables ∧ Z8.ofByte (p.stored m) = k ∧ k ≠ 0 := by
  rw [terms, hp.weights_eq, List.map_map, List.mem_filter, List.mem_map, ← and_assoc]
  constructor
  · rintro ⟨⟨m', hm', heq⟩, hk⟩
    obtain ⟨rfl, rfl⟩ := Prod.mk.inj heq
    exact ⟨⟨mem_monomials.mp hm', rfl⟩, by simpa using hk⟩
  · rintro ⟨⟨hm, rfl⟩, hk⟩
    exact ⟨⟨m, mem_monomials.mpr hm, rfl⟩, by simpa using hk⟩

/-- The coefficient of a monomial, zero for those that are no terms. -/
def coefficient (p : PhasePolynomial) (m : Monomial) : Z8 := SparseSum.coefficient p.terms m

/-- **The coefficient of a term** is what its byte stands for. -/
theorem IsConsistent.coefficient_eq (hp : p.IsConsistent) (m : Monomial) :
    p.coefficient m = if m ∈ monomials p.numVariables then Z8.ofByte (p.stored m) else 0 := by
  rw [coefficient, terms, SparseSum.coefficient_filter, hp.weights_eq, List.map_map]
  exact SparseSum.coefficient_map (nodup_monomials _) _ m

/-- The coefficient of a term is what the stored byte stands for. -/
theorem IsConsistent.coefficient_of_isTerm (hp : p.IsConsistent) (hm : m.IsTerm p.numVariables) :
    p.coefficient m = Z8.ofByte (p.stored m) := by
  rw [hp.coefficient_eq, if_pos (mem_monomials.mpr hm)]

/-- What is no term has the coefficient zero. -/
theorem IsConsistent.coefficient_of_not_isTerm (hp : p.IsConsistent)
    (hm : ¬ m.IsTerm p.numVariables) : p.coefficient m = 0 := by
  rw [hp.coefficient_eq, if_neg fun h => hm (mem_monomials.mp h)]

end PhasePolynomial

end AffinePhase
