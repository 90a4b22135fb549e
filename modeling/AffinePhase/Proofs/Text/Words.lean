import AffinePhase.Text.Basic
import Mathlib.Data.List.DropRight

/-!
# Words of a text

Splitting a text into words gives the words back from which a line was put together. Where a text
is cut at a blank the words of the parts add up; that is all there is to say about words, and
trimming a text and joining words are read off it.

## Main definitions

* `Text.IsWord`: a text that is a single word.

## Main results

* `Text.words_append_blank`: the words before a blank and after it.
* `Text.words_trim`, `Text.trim_eq_nil_iff`: trimming keeps the words.
* `Text.words_joined`: the words of a line of words.
-/

namespace AffinePhase.Text

variable {c : Char} {text word : List Char} {ws : List (List Char)}

/-- A word has a character, and no blank one. -/
structure IsWord (word : List Char) : Prop where
  /-- There is a character. -/
  ne_nil : word ≠ []
  /-- No character is blank. -/
  solid : ∀ c ∈ word, isBlank c = false

/-- What it is to be a word, as a test. -/
theorem isWord_iff : IsWord word ↔ (!word.isEmpty && word.all fun c => !isBlank c) = true := by
  rw [Bool.and_eq_true, Bool.not_eq_true', List.isEmpty_eq_false_iff, List.all_eq_true]
  exact ⟨fun h => ⟨h.ne_nil, fun c hc => by rw [h.solid c hc]; rfl⟩,
    fun h => ⟨h.1, fun c hc => (Bool.not_eq_true' _).mp (h.2 c hc)⟩⟩

instance (word : List Char) : Decidable (IsWord word) :=
  decidable_of_iff' _ isWord_iff

/-- A decimal form is a word. -/
theorem isWord_decimal (n : ℕ) : IsWord (decimal n) where
  ne_nil := Nat.toDigits_ne_nil
  solid := fun c hc => by
    have hdigit : c.isDigit = true := Nat.isDigit_of_mem_toDigits (by decide) (by decide) hc
    have hrange : 48 ≤ c.toNat ∧ c.toNat ≤ 57 := Char.isDigit_iff_toNat.mp hdigit
    rw [isBlank, List.any_eq_false]
    rintro ⟨first, last⟩ hblank
    simp only [blankRanges, List.mem_cons, Prod.mk.injEq, List.not_mem_nil, or_false] at hblank
    simp only [Bool.and_eq_true, decide_eq_true_eq]
    omega

/-! ### Cutting at a blank -/

@[simp] theorem words_nil : words [] = [] := rfl

/-- **Words end at a blank**, whatever follows. -/
theorem words_append_blank (hc : isBlank c = true) (before after : List Char) :
    words (before ++ c :: after) = words before ++ words after := by
  rw [words, List.splitOnP_append_cons before after hc, List.filter_append]
  rfl

/-- A blank in front does not matter. -/
theorem words_cons_blank (hc : isBlank c = true) (text : List Char) :
    words (c :: text) = words text :=
  words_append_blank hc [] text

/-- A blank at the end does not matter. -/
theorem words_concat_blank (hc : isBlank c = true) (text : List Char) :
    words (text ++ [c]) = words text := by
  rw [words_append_blank hc, words_nil, List.append_nil]

/-- A word is its only word. -/
theorem IsWord.words_eq (h : IsWord word) : words word = [word] := by
  rw [words, List.splitOnP_eq_singleton h.solid]
  exact List.filter_cons_of_pos (by simpa using h.ne_nil)

/-- A text without words is blank. -/
theorem words_eq_nil_iff : words text = [] ↔ ∀ c ∈ text, isBlank c = true := by
  induction text with
  | nil => simp
  | cons c text ih =>
      cases hc : isBlank c with
      | true => rw [words_cons_blank hc, ih, List.forall_mem_cons, hc]; simp
      | false =>
          -- the first piece begins with `c`, so that it is a word
          obtain ⟨piece, pieces, hsplit⟩ :=
            List.exists_cons_of_ne_nil (List.splitOnP_ne_nil isBlank text)
          have hwords : words (c :: text) ≠ [] := by
            rw [words, List.splitOnP_cons_eq_if_modifyHead, if_neg (by rw [hc]; decide), hsplit]
            simp
          simp [hwords, hc]

/-! ### Trimming -/

/-- **Trimming keeps the words.** -/
theorem words_trim (text : List Char) : words (trim text) = words text := by
  have hfront (text : List Char) : words (text.dropWhile isBlank) = words text := by
    induction text with
    | nil => rfl
    | cons c text ih =>
        cases hc : isBlank c with
        | true => rw [List.dropWhile_cons_of_pos hc, ih, words_cons_blank hc]
        | false => rw [List.dropWhile_cons_of_neg (by simp [hc])]
  have hback (text : List Char) : words (text.rdropWhile isBlank) = words text := by
    induction text using List.reverseRecOn with
    | nil => rfl
    | append_singleton text c ih =>
        cases hc : isBlank c with
        | true => rw [List.rdropWhile_concat_pos _ _ _ hc, ih, words_concat_blank hc]
        | false => rw [List.rdropWhile_concat_neg _ _ _ (by simp [hc])]
  exact (hback _).trans (hfront text)

/-- Trimming leaves nothing of the texts without words. -/
theorem trim_eq_nil_iff : trim text = [] ↔ words text = [] := by
  constructor
  · intro h
    rw [← words_trim, h, words_nil]
  · intro h
    have hdropped : text.dropWhile isBlank = [] :=
      List.dropWhile_eq_nil_iff.mpr (words_eq_nil_iff.mp h)
    rw [trim, hdropped]
    rfl

/-- A blank at the end is trimmed away. -/
theorem trim_concat_blank (hc : isBlank c = true) (text : List Char) :
    trim (text ++ [c]) = trim text := by
  rw [trim, trim, List.dropWhile_append]
  split
  · rename_i hblank
    rw [List.isEmpty_iff.mp hblank, List.dropWhile_cons_of_pos hc]
    rfl
  · rw [List.reverse_concat, List.dropWhile_cons_of_pos hc]

/-! ### Joining -/

theorem joined_singleton (separator : String) (part : List Char) :
    joined separator [part] = part :=
  List.intercalate_singleton

/-- Between two parts stands the separator. -/
theorem joined_cons_cons (separator : String) (part next : List Char) (parts : List (List Char)) :
    joined separator (part :: next :: parts) =
      part ++ separator.toList ++ joined separator (next :: parts) :=
  List.intercalate_cons_cons

/-- **The words of a line of words** are those words. -/
theorem words_joined (h : ∀ w ∈ ws, IsWord w) : words (joined " " ws) = ws := by
  induction ws with
  | nil => rfl
  | cons w ws ih =>
      obtain ⟨hw, hws⟩ := List.forall_mem_cons.mp h
      cases ws with
      | nil => rw [joined_singleton, hw.words_eq]
      | cons next ws =>
          have hcut : words (w ++ ' ' :: joined " " (next :: ws)) = [w] ++ next :: ws := by
            rw [words_append_blank rfl, hw.words_eq, ih hws]
          rwa [joined_cons_cons, List.append_assoc]

/-- A joined text has the characters of the separator and of the parts, and no others. -/
theorem mem_joined {separator : String} {parts : List (List Char)}
    (h : c ∈ joined separator parts) : c ∈ separator.toList ∨ ∃ part ∈ parts, c ∈ part := by
  induction parts with
  | nil => cases h
  | cons part parts ih =>
      cases parts with
      | nil =>
          rw [joined_singleton] at h
          exact .inr ⟨part, List.mem_cons_self, h⟩
      | cons next parts =>
          rw [joined_cons_cons, List.mem_append, List.mem_append] at h
          obtain (hpart | hseparator) | hrest := h
          · exact .inr ⟨part, List.mem_cons_self, hpart⟩
          · exact .inl hseparator
          · refine (ih hrest).imp_right ?_
            rintro ⟨other, hother, hc⟩
            exact ⟨other, List.mem_cons_of_mem _ hother, hc⟩

/-- A character that is in none of the words, and is no space, is not in their line. -/
theorem not_mem_joined (hspace : c ≠ ' ') (h : ∀ w ∈ ws, c ∉ w) : c ∉ joined " " ws := by
  intro hmem
  obtain hmem | ⟨w, hw, hmem⟩ := mem_joined hmem
  · exact hspace (by simpa using hmem)
  · exact h w hw hmem

/-- A line of words has no blank but spaces. -/
theorem blank_not_mem_joined (hc : isBlank c = true) (hspace : c ≠ ' ') (h : ∀ w ∈ ws, IsWord w) :
    c ∉ joined " " ws := by
  refine not_mem_joined hspace fun w hw hmem => ?_
  have hsolid : isBlank c = false := (h w hw).solid c hmem
  exact Bool.false_ne_true (hsolid.symm.trans hc)

/-- A line of words is a single line. -/
theorem lineEnds_not_mem_joined (h : ∀ w ∈ ws, IsWord w) :
    '\n' ∉ joined " " ws ∧ '\r' ∉ joined " " ws :=
  ⟨blank_not_mem_joined rfl (by decide) h, blank_not_mem_joined rfl (by decide) h⟩

end AffinePhase.Text
