import AffinePhase.Proofs.Text.Words
import Mathlib.Data.List.Forall2

/-!
# Lines of a text

A line ends at a line feed or at a carriage return with a line feed. Cutting a text at the line
feeds alone leaves the carriage return at the end of its line, and leaves an empty line after the
last line feed; neither is seen once blanks are trimmed and blank lines are passed over.

## Main definitions

* `Text.lines`: the lines of a text.
* `Text.writtenLines`: the lines that are not blank, with their numbers.

## Main results

* `Text.exists_pieces`: lines against the pieces between line feeds.
* `Text.numberedLines_trim`: the lines that are not blank, from either of the two.
* `Text.writtenLines_joined`: the lines of a text of lines.
-/

namespace AffinePhase.Text

variable {line piece : List Char} {ls ps : List (List Char)}

/-- The lines of a text. A line feed ends a line, together with a carriage return before it, and
there is no further line after the last line end. -/
def lines : List Char → List (List Char)
  | [] => []
  | '\n' :: rest => [] :: lines rest
  | '\r' :: '\n' :: rest => [] :: lines rest
  | c :: rest =>
      match lines rest with
      | [] => [[c]]
      | line :: others => (c :: line) :: others

/-- The lines that are not blank, with their numbers, the first line of the text being line 1. -/
def writtenLines (text : List Char) : List (ℕ × List Char) :=
  (((lines text).zipIdx 1).map fun (line, number) => (number, line)).filter
    fun (_, line) => !line.all isBlank

/-- A piece between line feeds is a line, with or without the carriage return at its end. -/
def IsPieceOf (line piece : List Char) : Prop :=
  piece = line ∨ piece = line ++ ['\r']

/-- A line feed ends an empty line. -/
theorem splitOn_cons_feed (rest : List Char) :
    ('\n' :: rest).splitOn '\n' = [] :: rest.splitOn '\n' :=
  List.splitOn_cons_eq_if_modifyHead _ _

/-- Any other character belongs to the first line. -/
theorem splitOn_cons_of_ne {c : Char} (hc : c ≠ '\n') (rest : List Char) :
    (c :: rest).splitOn '\n' = (rest.splitOn '\n').modifyHead (List.cons c) := by
  rw [List.splitOn_cons_eq_if_modifyHead, if_neg (by simpa using hc)]

/-- **The pieces between line feeds** are the lines, and possibly an empty piece at the end. -/
theorem exists_pieces (text : List Char) :
    ∃ pieces tail, text.splitOn '\n' = pieces ++ tail ∧ (tail = [] ∨ tail = [[]]) ∧
      List.Forall₂ IsPieceOf (lines text) pieces := by
  fun_induction lines text with
  | case1 => exact ⟨[], [[]], rfl, .inr rfl, .nil⟩
  | case2 rest ih =>
      obtain ⟨pieces, tail, hsplit, htail, hpieces⟩ := ih
      refine ⟨[] :: pieces, tail, ?_, htail, .cons (.inl rfl) hpieces⟩
      rw [splitOn_cons_feed, hsplit, List.cons_append]
  | case3 rest ih =>
      obtain ⟨pieces, tail, hsplit, htail, hpieces⟩ := ih
      refine ⟨['\r'] :: pieces, tail, ?_, htail, .cons (.inr rfl) hpieces⟩
      rw [splitOn_cons_of_ne (by decide), splitOn_cons_feed, hsplit]
      rfl
  | case4 c rest hc _ hrest ih =>
      -- a text without lines is a single empty piece, which becomes the line
      obtain ⟨pieces, tail, hsplit, htail, hpieces⟩ := ih
      rw [hrest] at hpieces
      obtain rfl := List.forall₂_nil_left_iff.mp hpieces
      have hempty : rest.splitOn '\n' = [[]] := by
        rcases htail with rfl | rfl
        · exact absurd hsplit (List.splitOn_ne_nil _ _)
        · exact hsplit
      refine ⟨[[c]], [], ?_, .inl rfl, .cons (.inl rfl) .nil⟩
      rw [splitOn_cons_of_ne hc, hempty]
      rfl
  | case5 c rest hc _ line others hrest ih =>
      obtain ⟨pieces, tail, hsplit, htail, hpieces⟩ := ih
      rw [hrest] at hpieces
      obtain ⟨piece, pieces, hpiece, hothers, rfl⟩ := List.forall₂_cons_left_iff.mp hpieces
      refine ⟨(c :: piece) :: pieces, tail, ?_, htail, .cons ?_ hothers⟩
      · rw [splitOn_cons_of_ne hc, hsplit]
        rfl
      · rcases hpiece with rfl | rfl
        · exact .inl rfl
        · exact .inr rfl

/-! ### Blank lines -/

/-- A piece is trimmed to the same text as its line. -/
theorem IsPieceOf.trim_eq (h : IsPieceOf line piece) : trim piece = trim line := by
  rcases h with rfl | rfl
  · rfl
  · exact trim_concat_blank rfl line

/-- A line is blank if it has no word. -/
theorem all_isBlank_iff : line.all isBlank = true ↔ words line = [] := by
  rw [List.all_eq_true, words_eq_nil_iff]

/-- Nothing is left of a blank line when it is trimmed. -/
theorem isEmpty_trim (line : List Char) : (trim line).isEmpty = line.all isBlank := by
  rw [Bool.eq_iff_iff, List.isEmpty_iff, trim_eq_nil_iff, all_isBlank_iff]

/-- The pieces and the lines agree when they are trimmed and numbered. -/
theorem map_trim_pieces (h : List.Forall₂ IsPieceOf ls ps) (k : ℕ) :
    (ps.zipIdx k).map (fun (piece, i) => (i + 1, trim piece)) =
      (ls.zipIdx (k + 1)).map fun (line, number) => (number, trim line) := by
  induction h generalizing k with
  | nil => rfl
  | cons hpiece _ ih =>
      rw [List.zipIdx_cons, List.zipIdx_cons, List.map_cons, List.map_cons, ih]
      simp only [hpiece.trim_eq]

/-- **Trimmed lines** that are not blank are the same with either way to cut the text. -/
theorem numberedLines_trim (text : List Char) :
    ((numberedLines text).map fun (number, line) => (number, trim line)).filter
        (fun (_, line) => !line.isEmpty) =
      (writtenLines text).map fun (number, line) => (number, trim line) := by
  obtain ⟨pieces, tail, hsplit, htail, hpieces⟩ := exists_pieces text
  have htail : ((tail.zipIdx pieces.length).map fun (piece, i) => (i + 1, trim piece)).filter
      (fun (_, line) => !line.isEmpty) = [] := by
    rcases htail with rfl | rfl
    · rfl
    · rfl
  have hpieces : (text.splitOn '\n').zipIdx.map (fun (piece, i) => (i + 1, trim piece)) =
      ((lines text).zipIdx 1).map (fun (line, number) => (number, trim line)) ++
        (tail.zipIdx pieces.length).map fun (piece, i) => (i + 1, trim piece) := by
    rw [hsplit, List.zipIdx_append, List.map_append, map_trim_pieces hpieces]
    simp only [Nat.zero_add]
  rw [numberedLines, List.map_map]
  refine (congrArg (List.filter _) hpieces).trans ?_
  rw [List.filter_append, htail, List.append_nil, writtenLines, List.filter_map, List.filter_map,
    List.map_map]
  simp only [Function.comp_def, isEmpty_trim]

/-- A line that is not blank has a word. -/
theorem words_ne_nil_of_mem {text : List Char} {l : ℕ × List Char} (h : l ∈ writtenLines text) :
    words l.2 ≠ [] := by
  have hwritten : (!l.2.all isBlank) = true := (List.mem_filter.mp h).2
  intro hwords
  rw [all_isBlank_iff.mpr hwords] at hwritten
  cases hwritten

/-! ### Texts of lines -/

/-- A character that ends no line belongs to the first line. -/
theorem lines_cons {c : Char} (hfeed : c ≠ '\n') (hreturn : c ≠ '\r') (rest : List Char) :
    lines (c :: rest) =
      match lines rest with
      | [] => [[c]]
      | line :: others => (c :: line) :: others := by
  rw [lines]
  · exact hfeed
  · rintro - rfl -
    exact hreturn rfl

/-- A line without line ends stands in front of the lines after it. -/
theorem lines_append_feed (hfeed : '\n' ∉ line) (hreturn : '\r' ∉ line) (rest : List Char) :
    lines (line ++ '\n' :: rest) = line :: lines rest := by
  induction line with
  | nil => rfl
  | cons c line ih =>
      rw [List.mem_cons, not_or] at hfeed hreturn
      rw [List.cons_append, lines_cons (Ne.symm hfeed.1) (Ne.symm hreturn.1), ih hfeed.2 hreturn.2]

/-- It is the only line if nothing follows, unless it is empty. -/
theorem lines_eq_singleton (hfeed : '\n' ∉ line) (hreturn : '\r' ∉ line) (hne : line ≠ []) :
    lines line = [line] := by
  induction line with
  | nil => exact absurd rfl hne
  | cons c line ih =>
      rw [List.mem_cons, not_or] at hfeed hreturn
      rw [lines_cons (Ne.symm hfeed.1) (Ne.symm hreturn.1)]
      cases line with
      | nil => rfl
      | cons next line => rw [ih hfeed.2 hreturn.2 (List.cons_ne_nil _ _)]

/-- **The lines of a text of lines** are those lines. -/
theorem lines_joined (hends : ∀ l ∈ ls, '\n' ∉ l ∧ '\r' ∉ l) (hne : ∀ l ∈ ls, l ≠ []) :
    lines (joined "\n" ls) = ls := by
  induction ls with
  | nil => rfl
  | cons l ls ih =>
      obtain ⟨hl, hls⟩ := List.forall_mem_cons.mp hends
      obtain ⟨hnel, hnels⟩ := List.forall_mem_cons.mp hne
      cases ls with
      | nil => rw [joined_singleton, lines_eq_singleton hl.1 hl.2 hnel]
      | cons next ls =>
          have hcut : lines (l ++ '\n' :: joined "\n" (next :: ls)) = l :: next :: ls := by
            rw [lines_append_feed hl.1 hl.2, ih hls hnels]
          rwa [joined_cons_cons, List.append_assoc]

/-- **A text in which every line has a word** keeps all its lines. -/
theorem writtenLines_joined (hends : ∀ l ∈ ls, '\n' ∉ l ∧ '\r' ∉ l)
    (hwords : ∀ l ∈ ls, words l ≠ []) :
    writtenLines (joined "\n" ls) = (ls.zipIdx 1).map fun (line, number) => (number, line) := by
  have hne : ∀ l ∈ ls, l ≠ [] := fun l hl hnil => hwords l hl (by rw [hnil, words_nil])
  rw [writtenLines, lines_joined hends hne]
  refine List.filter_eq_self.mpr fun entry hentry => ?_
  obtain ⟨⟨l, i⟩, hmem, rfl⟩ := List.mem_map.mp hentry
  show (!l.all isBlank) = true
  rw [Bool.not_eq_true', ← Bool.not_eq_true, all_isBlank_iff]
  exact hwords l (List.fst_mem_of_mem_zipIdx hmem)

end AffinePhase.Text
