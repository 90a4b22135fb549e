import AffinePhase.Proofs.Text.Words

/-!
# Texts that can be taken apart

A text that was put together from parts determines them if it can be seen where a part ends. One
character is enough for that: it is in no part, and whatever follows a part begins with it. So the
parts of a joined text are found one by one at the first character of the separator, although this
has more characters, and the variables of a product are found at their letter, although nothing
stands between them.

## Main definitions

* `Text.BeginsWith`: a text that is empty or begins with a character.

## Main results

* `Text.append_inj_of_beginsWith`: a part and what follows it.
* `Text.joined_inj`: the parts of a joined text.
* `Text.decimal_injective`, `Text.subscript_injective`, `Text.flatMap_variable_injective`: numerals
  and products of variables.
-/

namespace AffinePhase.Text

variable {c : Char} {p q r s separator : List Char} {ps qs : List (List Char)}

/-! ### Parts -/

/-- The text is empty or begins with `c`. -/
def BeginsWith (c : Char) (text : List Char) : Prop :=
  ∀ d ∈ text.head?, d = c

theorem beginsWith_nil (c : Char) : BeginsWith c [] :=
  fun _ h => nomatch h

theorem beginsWith_cons (c : Char) (text : List Char) : BeginsWith c (c :: text) :=
  fun _ h => (Option.some.inj h).symm

/-- **A part ends** where a character comes that it does not have. -/
theorem append_inj_of_beginsWith (h : p ++ r = q ++ s) (hp : c ∉ p) (hq : c ∉ q)
    (hr : BeginsWith c r) (hs : BeginsWith c s) : p = q ∧ r = s := by
  induction p generalizing q with
  | nil =>
      cases q with
      | nil => exact ⟨rfl, h⟩
      | cons d q =>
          obtain rfl := hr d (by rw [← List.nil_append r, h]; rfl)
          exact absurd List.mem_cons_self hq
  | cons d p ih =>
      cases q with
      | nil =>
          obtain rfl := hs d (by rw [← List.nil_append s, ← h]; rfl)
          exact absurd List.mem_cons_self hp
      | cons d' q =>
          obtain ⟨hd, htail⟩ := List.cons.inj h
          obtain ⟨hpq, hrs⟩ :=
            ih htail (List.not_mem_of_not_mem_cons hp) (List.not_mem_of_not_mem_cons hq)
          exact ⟨congrArg₂ _ hd hpq, hrs⟩

/-- Parts with a separator in front of each begin with the first character of that. -/
theorem beginsWith_flatMap (ps : List (List Char)) :
    BeginsWith c (ps.flatMap (c :: separator ++ ·)) := by
  cases ps with
  | nil => exact beginsWith_nil c
  | cons p ps => exact beginsWith_cons c _

/-- **Parts with a separator in front of each** are found at its first character. -/
theorem flatMap_inj (hps : ∀ p ∈ ps, c ∉ p) (hqs : ∀ q ∈ qs, c ∉ q)
    (h : ps.flatMap (c :: separator ++ ·) = qs.flatMap (c :: separator ++ ·)) : ps = qs := by
  induction ps generalizing qs with
  | nil =>
      cases qs with
      | nil => rfl
      | cons q qs => cases h
  | cons p ps ih =>
      cases qs with
      | nil => cases h
      | cons q qs =>
          obtain ⟨hp, hps⟩ := List.forall_mem_cons.mp hps
          obtain ⟨hq, hqs⟩ := List.forall_mem_cons.mp hqs
          rw [List.flatMap_cons, List.flatMap_cons, List.append_assoc, List.append_assoc] at h
          obtain ⟨hpq, hrest⟩ := append_inj_of_beginsWith (List.append_cancel_left h) hp hq
            (beginsWith_flatMap ps) (beginsWith_flatMap qs)
          exact congrArg₂ _ hpq (ih hps hqs hrest)

/-- After its first part, a joined text has a separator in front of each. -/
theorem joined_cons (separator : String) (p : List Char) (ps : List (List Char)) :
    joined separator (p :: ps) = p ++ ps.flatMap (separator.toList ++ ·) := by
  induction ps generalizing p with
  | nil => rw [joined_singleton, List.flatMap_nil, List.append_nil]
  | cons next ps ih =>
      rw [joined_cons_cons, ih, List.flatMap_cons, List.append_assoc, List.append_assoc]

/-- **The parts of a joined text** are found at the first character of the separator. -/
theorem joined_inj {separator : String} {rest : List Char}
    (hseparator : separator.toList = c :: rest)
    (hps : ∀ p ∈ ps, p ≠ [] ∧ c ∉ p) (hqs : ∀ q ∈ qs, q ≠ [] ∧ c ∉ q)
    (h : joined separator ps = joined separator qs) : ps = qs := by
  cases ps with
  | nil =>
      cases qs with
      | nil => rfl
      | cons q qs =>
          rw [joined_cons] at h
          exact absurd (List.append_eq_nil_iff.mp h.symm).1 (hqs q List.mem_cons_self).1
  | cons p ps =>
      obtain ⟨hp, hps⟩ := List.forall_mem_cons.mp hps
      cases qs with
      | nil =>
          rw [joined_cons] at h
          exact absurd (List.append_eq_nil_iff.mp h).1 hp.1
      | cons q qs =>
          obtain ⟨hq, hqs⟩ := List.forall_mem_cons.mp hqs
          rw [joined_cons, joined_cons, hseparator] at h
          obtain ⟨hpq, hrest⟩ := append_inj_of_beginsWith h hp.2 hq.2
            (beginsWith_flatMap ps) (beginsWith_flatMap qs)
          exact congrArg₂ _ hpq
            (flatMap_inj (fun p hp => (hps p hp).2) (fun q hq => (hqs q hq).2) hrest)

/-! ### Numerals -/

/-- The digits of a decimal form. -/
def decimalDigits : List Char := ['0', '1', '2', '3', '4', '5', '6', '7', '8', '9']

/-- The digits of a subscript form. -/
def subscriptDigits : List Char := ['₀', '₁', '₂', '₃', '₄', '₅', '₆', '₇', '₈', '₉']

/-- A decimal form has digits only. -/
theorem mem_decimalDigits {n : ℕ} (h : c ∈ decimal n) : c ∈ decimalDigits := by
  have hdigit : c.isDigit = true := Nat.isDigit_of_mem_toDigits (by decide) (by decide) h
  have hrange : 48 ≤ c.toNat ∧ c.toNat ≤ 57 := Char.isDigit_iff_toNat.mp hdigit
  have hcodes : ∀ code < 58, 48 ≤ code → Char.ofNat code ∈ decimalDigits := by decide
  rw [← Char.ofNat_toNat c]
  exact hcodes c.toNat (by omega) hrange.1

/-- A number is determined by its decimal form. -/
theorem decimal_injective {m n : ℕ} (h : decimal m = decimal n) : m = n := by
  have hvalue := congrArg (Nat.ofDigitChars 10 · 0) h
  simpa [decimal, Nat.ofDigitChars_ten_toDigits] using hvalue

/-- The digit of a subscript form. The two kinds of digits stand in the same order. -/
def plainDigit (c : Char) : Char :=
  Char.ofNat (c.toNat - '₀'.toNat + '0'.toNat)

/-- A digit is read back from its subscript form. -/
theorem plainDigit_subscriptDigit (h : c ∈ decimalDigits) :
    plainDigit (subscriptDigit c) = c := by
  have hall : decimalDigits.all (fun c => plainDigit (subscriptDigit c) = c) = true := by
    decide
  exact of_decide_eq_true (List.all_eq_true.mp hall c h)

/-- The subscript form of a digit is a subscript digit. -/
theorem subscriptDigit_mem (h : c ∈ decimalDigits) : subscriptDigit c ∈ subscriptDigits := by
  have hall : decimalDigits.all (fun c => subscriptDigit c ∈ subscriptDigits) = true := by
    decide
  exact of_decide_eq_true (List.all_eq_true.mp hall c h)

/-- A subscript has subscript digits only. -/
theorem mem_subscriptDigits {n : ℕ} (h : c ∈ subscript n) : c ∈ subscriptDigits := by
  obtain ⟨d, hd, rfl⟩ := List.mem_map.mp h
  exact subscriptDigit_mem (mem_decimalDigits hd)

/-- A number is determined by its subscript. -/
theorem subscript_injective {m n : ℕ} (h : subscript m = subscript n) : m = n := by
  have hplain (n : ℕ) : (subscript n).map plainDigit = decimal n := by
    rw [subscript, List.map_map]
    refine (List.map_congr_left fun c hc => ?_).trans (List.map_id _)
    rw [Function.comp_apply, plainDigit_subscriptDigit (mem_decimalDigits hc), id_eq]
  refine decimal_injective ?_
  rw [← hplain, h, hplain]

/-- **The variables of a product** are found at their letter. -/
theorem flatMap_variable_injective {l l' : List ℕ}
    (h : l.flatMap Text.variable = l'.flatMap Text.variable) : l = l' := by
  have hletter (l : List ℕ) :
      l.flatMap Text.variable = (l.map subscript).flatMap ('x' :: [] ++ ·) := by
    rw [List.flatMap_map]
    rfl
  have hindices (l : List ℕ) : ∀ p ∈ l.map subscript, 'x' ∉ p := by
    intro p hp hx
    obtain ⟨i, -, rfl⟩ := List.mem_map.mp hp
    exact absurd (mem_subscriptDigits hx) (by decide)
  rw [hletter, hletter] at h
  exact (List.map_injective_iff.mpr fun _ _ => subscript_injective)
    (flatMap_inj (hindices l) (hindices l') h)

end AffinePhase.Text
