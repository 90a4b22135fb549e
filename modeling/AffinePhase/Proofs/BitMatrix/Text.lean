import AffinePhase.Proofs.BitMatrix.Obtained
import AffinePhase.Proofs.Text.Words

/-!
# Reading matrices back

A text is cut into pieces at the characters that end a row. A piece with a digit is a row, and its
digits are the bits; the other pieces are dropped, so that it does not matter whether a row is ended
once or several times. Where a text is cut the rows of the parts add up, and both printed forms are
read back from that.

Reading goes through the pieces in order, and through the characters of each piece, and stops at the
first character without a meaning. No such character ends a row, so it is the first one of the whole
text.

## Main definitions

* `Mark.alphabet`: the characters with a meaning.
* `BitMatrix.writtenRows`: the rows of a text, piece by piece.
* `BitMatrix.readPieces`: reading by a loop over the pieces.

## Main results

* `BitMatrix.textRows_eq`: what the rows of a text are.
* `BitMatrix.readPieces_eq`: the loop over the pieces reads the same matrices.
* `BitMatrix.parse_eq_error_iff`: which texts are refused, and for which character.
* `BitMatrix.parse_printed`: the printed forms are read back.
* `BitMatrix.parse_decides_text`: these results together.
-/

namespace AffinePhase

/-! ### Characters -/

namespace Mark

/-- The characters that end a row. -/
def rowEnds : List Char := ['|', '[', ']', ';', '\n']

/-- The characters that are passed over. -/
def blanks : List Char := [' ', ',', '\t', '\r']

/-- The characters that stand for a bit. -/
def digits : List Char := ['0', '1', '.']

/-- The characters with a meaning. -/
def alphabet : List Char := digits ++ rowEnds ++ blanks

/-- **The meaning of a character** depends on the list that it is in. -/
theorem ofChar?_eq (c : Char) :
    ofChar? c =
      if c ∈ rowEnds then some .separator
      else if c ∈ blanks then some .blank
      else if c ∈ digits then some (.digit (c == '1'))
      else none := by
  unfold ofChar?
  split
  all_goals simp_all [rowEnds, blanks, digits]

/-- The characters without a meaning are those outside the alphabet. -/
theorem isNone_ofChar?_iff {c : Char} : (ofChar? c).isNone = true ↔ c ∉ alphabet := by
  rw [ofChar?_eq, alphabet, List.mem_append, List.mem_append]
  split_ifs <;> simp_all

/-- A blank is no digit. -/
theorem not_mem_digits : ∀ c ∈ blanks, c ∉ digits := by
  simp [blanks, digits]

end Mark

namespace BitMatrix

variable {c : Char} {piece text : List Char} {pieces : List (List Char)} {row : List Bool}
  {rows : List (List Bool)} {m : BitMatrix}

/-! ### Rows of a text -/

/-- The bits of a piece of text: `1` is set, the other digits are not. -/
def pieceBits (piece : List Char) : List Bool :=
  (piece.filter (· ∈ Mark.digits)).map (· == '1')

/-- The rows of pieces of text, one for each piece that has a digit. -/
def pieceRows (pieces : List (List Char)) : List (List Bool) :=
  (pieces.filter fun piece => piece.any (· ∈ Mark.digits)).map pieceBits

/-- The rows of a text: those of its longest pieces without a row end. -/
def writtenRows (text : List Char) : List (List Bool) :=
  pieceRows (text.splitOnP (· ∈ Mark.rowEnds))

/-- A piece has bits if it has digits. -/
theorem isEmpty_pieceBits (piece : List Char) :
    (pieceBits piece).isEmpty = !piece.any (· ∈ Mark.digits) := by
  rw [pieceBits, List.isEmpty_map, Bool.eq_iff_iff]
  simp

/-- The rows of pieces are that of the first, unless it is empty, and those of the others. -/
theorem pieceRows_cons (piece : List Char) (pieces : List (List Char)) :
    pieceRows (piece :: pieces) = consRow (pieceBits piece) (pieceRows pieces) := by
  rw [consRow, isEmpty_pieceBits, pieceRows, pieceRows, List.filter_cons]
  cases piece.any (· ∈ Mark.digits) <;> rfl

/-- The bits of a piece are those of its digits. -/
theorem pieceBits_cons (c : Char) (piece : List Char) :
    pieceBits (c :: piece) =
      if c ∈ Mark.digits then (c == '1') :: pieceBits piece else pieceBits piece := by
  rw [pieceBits, pieceBits, List.filter_cons]
  by_cases hdigit : c ∈ Mark.digits <;> simp [hdigit]

/-- The digits before the first row end are those of the first piece. -/
theorem splitRows_eq (text : List Char) :
    ∃ piece pieces, text.splitOnP (· ∈ Mark.rowEnds) = piece :: pieces ∧
      splitRows text = (pieceBits piece, pieceRows pieces) := by
  induction text with
  | nil => exact ⟨[], [], rfl, rfl⟩
  | cons c text ih =>
      obtain ⟨piece, pieces, hsplit, hrows⟩ := ih
      rw [List.splitOnP_cons_eq_if_modifyHead, hsplit, splitRows, hrows, Mark.ofChar?_eq]
      by_cases hend : c ∈ Mark.rowEnds
      · refine ⟨[], piece :: pieces, if_pos (decide_eq_true hend), ?_⟩
        rw [if_pos hend, pieceRows_cons]
        rfl
      · refine ⟨c :: piece, pieces, if_neg (by simpa using hend), ?_⟩
        rw [if_neg hend, pieceBits_cons]
        by_cases hblank : c ∈ Mark.blanks
        · have hdigit : c ∉ Mark.digits := Mark.not_mem_digits c hblank
          rw [if_pos hblank, if_neg hdigit]
        · rw [if_neg hblank]
          by_cases hdigit : c ∈ Mark.digits
          · rw [if_pos hdigit, if_pos hdigit]
          · rw [if_neg hdigit, if_neg hdigit]

/-- **The rows of a text** are those of its pieces. -/
theorem textRows_eq (text : List Char) : textRows text = writtenRows text := by
  obtain ⟨piece, pieces, hsplit, hrows⟩ := splitRows_eq text
  rw [textRows, hrows, writtenRows, hsplit, pieceRows_cons]

/-- **Where a text is cut at a row end** the rows of the parts add up. -/
theorem writtenRows_append_end (hc : c ∈ Mark.rowEnds) (before after : List Char) :
    writtenRows (before ++ c :: after) = writtenRows before ++ writtenRows after := by
  rw [writtenRows, List.splitOnP_append_cons before after (decide_eq_true hc), pieceRows,
    List.filter_append, List.map_append]
  rfl

/-! ### Reading piece by piece -/

/-- One more character of a row. -/
def readChar (row : List Bool) (c : Char) : Except ForeignCharacter (List Bool) :=
  match Mark.ofChar? c with
  | some (.digit b) => .ok (row ++ [b])
  | some .blank => .ok row
  | _ => .error ⟨c⟩

/-- One more piece, which is a row unless it is empty. -/
def readPiece (rows : List (List Bool)) (piece : List Char) :
    Except ForeignCharacter (List (List Bool)) :=
  (piece.foldlM readChar []).map fun row => if row.isEmpty then rows else rows ++ [row]

/-- The matrix of rows filled up to the longest, `none` if a row is then not as long as there are
columns. -/
def ofFilled? (rows : List (List Bool)) : Option BitMatrix :=
  let columns := (rows.map List.length).max?.getD 0
  ofLists? (rows.map (List.rightpad columns false)) columns

/-- Reads the pieces of a text in order, and makes a matrix of the rows. -/
def readPieces (text : List Char) : Except ForeignCharacter (Option BitMatrix) :=
  ((text.splitOnP (· ∈ Mark.rowEnds)).foldlM readPiece []).map ofFilled?

/-- A value, unless a text has a character without a meaning. -/
def unlessForeign {α : Type} (text : List Char) (a : α) : Except ForeignCharacter α :=
  match text.find? fun c => (Mark.ofChar? c).isNone with
  | some c => .error ⟨c⟩
  | none => .ok a

/-- Reading on after a text refuses the first character of both texts. -/
theorem unlessForeign_bind {α β : Type} {a : α} {b : β} {f : α → Except ForeignCharacter β}
    {rest : List Char} (h : f a = unlessForeign rest b) :
    unlessForeign text a >>= f = unlessForeign (text ++ rest) b := by
  rw [unlessForeign, unlessForeign, List.find?_append]
  cases text.find? fun c => (Mark.ofChar? c).isNone with
  | none => exact h
  | some c => rfl

/-- What is done with the outcome does not matter for what is refused. -/
theorem map_unlessForeign {α β : Type} (text : List Char) (a : α) (f : α → β) :
    (unlessForeign text a).map f = unlessForeign text (f a) := by
  rw [unlessForeign, unlessForeign]
  cases text.find? fun c => (Mark.ofChar? c).isNone <;> rfl

/-- A character that ends no row is refused, or adds a bit, or adds nothing. -/
theorem readChar_eq (hc : c ∉ Mark.rowEnds) (row : List Bool) :
    readChar row c = unlessForeign [c] (row ++ pieceBits [c]) := by
  rw [readChar, unlessForeign, List.find?_singleton, pieceBits_cons, Mark.ofChar?_eq, if_neg hc]
  by_cases hblank : c ∈ Mark.blanks
  · rw [if_pos hblank, if_neg (Mark.not_mem_digits c hblank)]
    exact congrArg Except.ok (List.append_nil row).symm
  · rw [if_neg hblank]
    by_cases hdigit : c ∈ Mark.digits
    · rw [if_pos hdigit, if_pos hdigit]
      rfl
    · rw [if_neg hdigit]
      rfl

/-- A piece is read up to the first character without a meaning. -/
theorem foldlM_readChar (h : ∀ c ∈ piece, c ∉ Mark.rowEnds) (row : List Bool) :
    piece.foldlM readChar row = unlessForeign piece (row ++ pieceBits piece) := by
  induction piece generalizing row with
  | nil => exact congrArg Except.ok (List.append_nil row).symm
  | cons c piece ih =>
      obtain ⟨hc, hpiece⟩ := List.forall_mem_cons.mp h
      have hbits : pieceBits (c :: piece) = pieceBits [c] ++ pieceBits piece := by
        rw [pieceBits_cons, pieceBits_cons]
        split <;> rfl
      rw [List.foldlM_cons, readChar_eq hc, hbits, ← List.append_assoc]
      exact unlessForeign_bind (ih hpiece _)

/-- A piece without an end of a row adds its row, unless a character of it is foreign. -/
theorem readPiece_eq (h : ∀ c ∈ piece, c ∉ Mark.rowEnds) (rows : List (List Bool)) :
    readPiece rows piece = unlessForeign piece (rows ++ pieceRows [piece]) := by
  rw [readPiece, foldlM_readChar h, map_unlessForeign, List.nil_append, pieceRows_cons, consRow]
  refine congrArg (unlessForeign piece) ?_
  split
  · exact (List.append_nil rows).symm
  · rfl

/-- Pieces are read up to the first character without a meaning. -/
theorem foldlM_readPiece (h : ∀ piece ∈ pieces, ∀ c ∈ piece, c ∉ Mark.rowEnds)
    (rows : List (List Bool)) :
    pieces.foldlM readPiece rows = unlessForeign pieces.flatten (rows ++ pieceRows pieces) := by
  induction pieces generalizing rows with
  | nil => exact congrArg Except.ok (List.append_nil rows).symm
  | cons piece pieces ih =>
      obtain ⟨hpiece, hpieces⟩ := List.forall_mem_cons.mp h
      have hrows : pieceRows (piece :: pieces) = pieceRows [piece] ++ pieceRows pieces := by
        rw [pieceRows_cons, pieceRows_cons, consRow, consRow]
        split <;> rfl
      rw [List.foldlM_cons, readPiece_eq hpiece, List.flatten_cons, hrows, ← List.append_assoc]
      exact unlessForeign_bind (ih hpieces _)

/-- Cutting a text at its row ends loses these only. -/
theorem flatten_splitOnP (text : List Char) :
    (text.splitOnP (· ∈ Mark.rowEnds)).flatten = text.filter (· ∉ Mark.rowEnds) := by
  induction text with
  | nil => rfl
  | cons c text ih =>
      rw [List.splitOnP_cons_eq_if_modifyHead, List.filter_cons, ← ih]
      by_cases hend : c ∈ Mark.rowEnds
      · simp [hend]
      · obtain ⟨piece, pieces, hsplit⟩ :=
          List.exists_cons_of_ne_nil (List.splitOnP_ne_nil (· ∈ Mark.rowEnds) text)
        simp [hend, hsplit]

/-- Row ends have a meaning, so nothing changes if they are left out. -/
theorem unlessForeign_filter {α : Type} (text : List Char) (a : α) :
    unlessForeign (text.filter (· ∉ Mark.rowEnds)) a = unlessForeign text a := by
  have hforeign : ∀ c, (Mark.ofChar? c).isNone = true → c ∉ Mark.rowEnds := by
    intro c hc hend
    rw [Mark.ofChar?_eq, if_pos hend] at hc
    cases hc
  have hfind : (fun c => decide (decide (c ∉ Mark.rowEnds) = true ∧
      (Mark.ofChar? c).isNone = true)) = fun c => (Mark.ofChar? c).isNone := by
    funext c
    rw [Bool.eq_iff_iff, decide_eq_true_eq, decide_eq_true_eq]
    exact and_iff_right_of_imp (hforeign c)
  rw [unlessForeign, unlessForeign, List.find?_filter, hfind]

/-- The number of columns is the length of the longest row. -/
theorem columns_ofUneven (rows : List (List Bool)) :
    (ofUneven rows).columns = (rows.map List.length).max?.getD 0 := by
  show (rows.map List.length).foldl max 0 = _
  cases rows with
  | nil => rfl
  | cons row rows => rw [List.map_cons, List.max?_cons', List.foldl_cons, Nat.zero_max]; rfl

/-- The rows are filled up to the longest. -/
theorem ofFilled?_eq (rows : List (List Bool)) : ofFilled? rows = some (ofUneven rows) := by
  rw [ofFilled?, ← columns_ofUneven, ofLists?, List.map_map, ofRows?]
  exact if_pos (isRectangular_ofUneven rows)

/-- **Reading piece by piece** gives the same matrices, and refuses the same texts for the same
characters. -/
theorem readPieces_eq (text : List Char) : readPieces text = (parse text).map some := by
  have hpieces : ∀ piece ∈ text.splitOnP (· ∈ Mark.rowEnds), ∀ c ∈ piece, c ∉ Mark.rowEnds := by
    intro piece hpiece c hc
    have hmem := List.mem_flatten_of_mem hpiece hc
    rw [flatten_splitOnP] at hmem
    exact of_decide_eq_true (List.mem_filter.mp hmem).2
  have hparse : parse text = unlessForeign text (ofUneven (textRows text)) := rfl
  rw [readPieces, foldlM_readPiece hpieces, flatten_splitOnP, unlessForeign_filter,
    map_unlessForeign, ofFilled?_eq, hparse, map_unlessForeign, textRows_eq]
  rfl

/-! ### What is read and what is refused -/

/-- **A text is refused** exactly if a character of it has no meaning, and for the first such
character. -/
theorem parse_eq_error_iff {e : ForeignCharacter} :
    parse text = .error e ↔ ∃ before after, text = before ++ e.char :: after ∧
      (∀ c ∈ before, c ∈ Mark.alphabet) ∧ e.char ∉ Mark.alphabet := by
  have hfind : parse text = .error e ↔
      (text.find? fun c => (Mark.ofChar? c).isNone) = some e.char := by
    rw [parse]
    cases text.find? fun c => (Mark.ofChar? c).isNone with
    | none => simp
    | some c => cases e; simp
  have hmeaning : ∀ c, (!(Mark.ofChar? c).isNone) = true ↔ c ∈ Mark.alphabet := by
    intro c
    rw [Bool.not_eq_true', ← Bool.not_eq_true, Mark.isNone_ofChar?_iff, not_not]
  rw [hfind, List.find?_eq_some_iff_append, Mark.isNone_ofChar?_iff]
  simp only [hmeaning]
  constructor
  · rintro ⟨hforeign, before, after, hsplit, hbefore⟩
    exact ⟨before, after, hsplit, hbefore, hforeign⟩
  · rintro ⟨before, after, hsplit, hbefore, hforeign⟩
    exact ⟨hforeign, before, after, hsplit, hbefore⟩

/-- A text is refused exactly if some character of it is foreign. -/
theorem parse_refuses_iff : (∃ e, parse text = .error e) ↔ ∃ c ∈ text, c ∉ Mark.alphabet := by
  have hfind : (∃ c ∈ text, c ∉ Mark.alphabet) ↔
      (text.find? fun c => (Mark.ofChar? c).isNone).isSome = true := by
    rw [List.find?_isSome]
    simp only [Mark.isNone_ofChar?_iff]
  rw [hfind, parse]
  cases text.find? fun c => (Mark.ofChar? c).isNone <;> simp

/-- **Any other text is read** as the matrix of its rows. -/
theorem parse_of_forall (h : ∀ c ∈ text, c ∈ Mark.alphabet) :
    parse text = .ok (ofUneven (writtenRows text)) := by
  have hfind : (text.find? fun c => (Mark.ofChar? c).isNone) = none := by
    rw [List.find?_eq_none]
    exact fun c hc => by rw [Mark.isNone_ofChar?_iff, not_not]; exact h c hc
  rw [parse, hfind, textRows_eq]

/-! ### Printed matrices -/

/-- A bit is written as a digit, which ends no row and is read as this bit. -/
theorem bitDigit_spec (b : Bool) :
    BitVector.bitDigit b ∈ Mark.digits ∧ BitVector.bitDigit b ∉ Mark.rowEnds ∧
      (BitVector.bitDigit b == '1') = b := by
  cases b <;> simp [BitVector.bitDigit, Mark.digits, Mark.rowEnds]

/-- A row is written in digits. -/
theorem forall_mem_digits (v : BitVector) : ∀ c ∈ v.digits, c ∈ Mark.digits ∧ c ∉ Mark.rowEnds := by
  intro c hc
  obtain ⟨b, -, rfl⟩ := List.mem_map.mp hc
  exact ⟨(bitDigit_spec b).1, (bitDigit_spec b).2.1⟩

/-- **A printed row** that has a bit is a row of its own. -/
theorem writtenRows_digits {v : BitVector} (h : 0 < v.length) :
    writtenRows v.digits = [v.toList] := by
  have hone : v.digits.splitOnP (· ∈ Mark.rowEnds) = [v.digits] :=
    List.splitOnP_eq_singleton fun c hc => decide_eq_false (forall_mem_digits v c hc).2
  have hfilter : v.digits.filter (· ∈ Mark.digits) = v.digits :=
    List.filter_eq_self.mpr fun c hc => decide_eq_true (forall_mem_digits v c hc).1
  have hbits : pieceBits v.digits = v.toList := by
    rw [pieceBits, hfilter, BitVector.digits, List.map_map]
    exact (List.map_congr_left fun b _ => (bitDigit_spec b).2.2).trans (List.map_id _)
  have hne : v.toList.isEmpty = false := by
    rw [List.isEmpty_eq_false_iff, ← List.length_pos_iff, BitVector.length_toList]
    exact h
  rw [writtenRows, hone, pieceRows_cons, hbits, consRow, hne]
  rfl

/-- Rows that end in a character for it are read one by one. -/
theorem writtenRows_flatMap (hc : c ∈ Mark.rowEnds) {vs : List BitVector}
    (h : ∀ v ∈ vs, 0 < v.length) :
    writtenRows (vs.flatMap fun v => v.digits ++ [c]) = vs.map BitVector.toList := by
  induction vs with
  | nil => rfl
  | cons v vs ih =>
      obtain ⟨hv, hvs⟩ := List.forall_mem_cons.mp h
      rw [List.flatMap_cons, List.append_assoc, List.singleton_append,
        writtenRows_append_end hc, writtenRows_digits hv, ih hvs]
      rfl

/-- Rows with a bar between neighbours are read one by one. -/
theorem writtenRows_joined {vs : List BitVector} (h : ∀ v ∈ vs, 0 < v.length) :
    writtenRows (Text.joined "|" (vs.map BitVector.digits)) = vs.map BitVector.toList := by
  have hbar : '|' ∈ Mark.rowEnds := List.mem_cons_self
  induction vs with
  | nil => rfl
  | cons v vs ih =>
      obtain ⟨hv, hvs⟩ := List.forall_mem_cons.mp h
      cases vs with
      | nil =>
          rw [List.map_singleton, Text.joined_singleton]
          exact writtenRows_digits hv
      | cons next vs =>
          rw [List.map_cons, List.map_cons, Text.joined_cons_cons, List.append_assoc]
          refine (writtenRows_append_end hbar _ _).trans ?_
          rw [writtenRows_digits hv]
          exact congrArg ([v.toList] ++ ·) (ih hvs)

/-- The brackets cut off pieces without digits. -/
theorem writtenRows_bracketed (h : ∀ row ∈ m.rows, 0 < row.length) :
    writtenRows m.bracketed = m.rows.map BitVector.toList := by
  have hopen : '[' ∈ Mark.rowEnds := by simp [Mark.rowEnds]
  have hclose : ']' ∈ Mark.rowEnds := by simp [Mark.rowEnds]
  have hinside := writtenRows_append_end hclose (Text.joined "|" (m.rows.map BitVector.digits)) []
  have hall := writtenRows_append_end hopen []
    (Text.joined "|" (m.rows.map BitVector.digits) ++ [']'])
  rw [hinside, writtenRows_joined h] at hall
  exact hall.trans (List.append_nil _)

/-- Digits belong to the alphabet. -/
theorem mem_alphabet_of_mem_digits (h : c ∈ Mark.digits) : c ∈ Mark.alphabet :=
  List.mem_append_left _ (List.mem_append_left _ h)

/-- Printed forms have no characters but bits and row ends. -/
theorem forall_mem_printed (m : BitMatrix) :
    (∀ c ∈ m.lines, c ∈ Mark.alphabet) ∧ ∀ c ∈ m.bracketed, c ∈ Mark.alphabet := by
  have hdigits (v : BitVector) : ∀ c ∈ v.digits, c ∈ Mark.alphabet :=
    fun c hc => mem_alphabet_of_mem_digits (forall_mem_digits v c hc).1
  have hends : ∀ c ∈ "|[]\n".toList, c ∈ Mark.alphabet := by
    simp [Mark.alphabet, Mark.rowEnds]
  constructor
  · intro c hc
    obtain ⟨row, -, hc⟩ := List.mem_flatMap.mp hc
    obtain hc | hc := List.mem_append.mp hc
    · exact hdigits row c hc
    · exact hends c (by simp [List.mem_singleton.mp hc])
  · intro c hc
    rw [bracketed, List.mem_append, List.mem_append] at hc
    obtain (hc | hc) | hc := hc
    · exact hends c (by simp_all)
    · obtain hc | ⟨part, hpart, hc⟩ := Text.mem_joined hc
      · exact hends c (by simp_all)
      · obtain ⟨row, -, rfl⟩ := List.mem_map.mp hpart
        exact hdigits row c hc
    · exact hends c (by simp_all)

/-- **Rows of the same length** are filled up with nothing. -/
theorem ofUneven_toList (hm : m.IsRectangular) (hrows : 0 < m.rowCount) :
    ofUneven (m.rows.map BitVector.toList) = m := by
  have hlengths :
      (m.rows.map BitVector.toList).map List.length = List.replicate m.rowCount m.columns := by
    rw [List.map_map, List.map_eq_replicate_iff.mpr]
    · rfl
    · exact fun row hrow => row.length_toList.trans (hm row hrow)
  have hcolumns : ((m.rows.map BitVector.toList).map List.length).foldl max 0 = m.columns := by
    refine (columns_ofUneven _).trans ?_
    rw [hlengths, List.max?_replicate_of_pos hrows]
    rfl
  have hfilled : (m.rows.map BitVector.toList).map (fun bits =>
      BitVector.ofList (bits ++ List.replicate (m.columns - bits.length) false)) = m.rows := by
    rw [List.map_map]
    refine (List.map_congr_left fun row hrow => ?_).trans (List.map_id m.rows)
    have hlength : row.toList.length = m.columns := row.length_toList.trans (hm row hrow)
    rw [Function.comp_apply, hlength, Nat.sub_self, List.replicate_zero, List.append_nil]
    exact row.ofList_toList
  rw [ofUneven, hcolumns, hfilled]

/-- **The printed forms are read back** if there is a row and a column. -/
theorem parse_printed (hm : m.IsRectangular) (hrows : 0 < m.rowCount) (hcolumns : 0 < m.columns) :
    parse m.lines = .ok m ∧ parse m.bracketed = .ok m := by
  have hend : '\n' ∈ Mark.rowEnds := by simp [Mark.rowEnds]
  have hpositive : ∀ row ∈ m.rows, 0 < row.length := fun row hrow => hm row hrow ▸ hcolumns
  obtain ⟨hlines, hbracketed⟩ := forall_mem_printed m
  constructor
  · rw [parse_of_forall hlines, lines, writtenRows_flatMap hend hpositive,
      ofUneven_toList hm hrows]
  · rw [parse_of_forall hbracketed, writtenRows_bracketed hpositive, ofUneven_toList hm hrows]

/-- The rows of a matrix made of rows of any lengths. -/
theorem rows_ofUneven (rows : List (List Bool)) :
    (ofUneven rows).rows.map BitVector.toList =
      rows.map (List.rightpad (ofUneven rows).columns false) := by
  rw [ofUneven, List.map_map]
  exact List.map_congr_left fun row _ => BitVector.toList_ofList _

/-- **The text format.** A matrix that has a row and a column is read back from both printed forms.
Reading a text by a loop over its pieces gives what `BitMatrix.parse` gives. A text is refused
exactly if it has a character outside the alphabet, and for the first such character. Any other text
is read as the matrix of its rows, filled up with zeros to the longest. -/
theorem parse_decides_text :
    (∀ m : BitMatrix, m.IsRectangular → 0 < m.rowCount → 0 < m.columns →
      parse m.lines = .ok m ∧ parse m.bracketed = .ok m) ∧
    ∀ text : List Char,
      readPieces text = (parse text).map some ∧
      ((∃ e, parse text = .error e) ↔ ∃ c ∈ text, c ∉ Mark.alphabet) ∧
      (∀ e, parse text = .error e ↔ ∃ before after, text = before ++ e.char :: after ∧
        (∀ c ∈ before, c ∈ Mark.alphabet) ∧ e.char ∉ Mark.alphabet) ∧
      ((∀ c ∈ text, c ∈ Mark.alphabet) → ∃ m : BitMatrix, parse text = .ok m ∧
        m.columns = ((writtenRows text).map List.length).max?.getD 0 ∧
        m.rows.map BitVector.toList =
          (writtenRows text).map (List.rightpad m.columns false)) := by
  refine ⟨fun m => parse_printed, fun text => ?_⟩
  refine ⟨readPieces_eq text, parse_refuses_iff, fun e => parse_eq_error_iff, fun h => ?_⟩
  exact ⟨_, parse_of_forall h, columns_ofUneven _, rows_ofUneven _⟩

/-- A matrix with two rows is read back, a short row is filled up, and a letter is refused. -/
theorem parse_decides_text_of_sample :
    (parse "[10|11]".toList = .ok ⟨2, [.ofList [true, false], .ofList [true, true]]⟩) ∧
    (∃ m : BitMatrix, parse "1;[] .,01|".toList = .ok m ∧ m.columns = 3 ∧
      m.rows.map BitVector.toList = [[true, false, false], [false, false, true]]) ∧
    parse "10 x1 y".toList = .error ⟨'x'⟩ := by
  refine ⟨?_, ?_, ?_⟩
  · exact (parse_decides_text.1 ⟨2, [.ofList [true, false], .ofList [true, true]]⟩
      (by decide +kernel) (by decide) (by decide)).2
  · obtain ⟨m, hm, hcolumns, hrows⟩ := (parse_decides_text.2 "1;[] .,01|".toList).2.2.2
      (by simp [Mark.alphabet, Mark.digits, Mark.rowEnds, Mark.blanks])
    have hwritten : writtenRows "1;[] .,01|".toList = [[true], [false, false, true]] := by
      decide +kernel
    rw [hwritten] at hcolumns hrows
    have hthree : m.columns = 3 := hcolumns
    rw [hthree] at hrows
    exact ⟨m, hm, hthree, hrows⟩
  · refine ((parse_decides_text.2 _).2.2.1 _).mpr ⟨"10 ".toList, "1 y".toList, rfl, ?_, ?_⟩
    · simp [Mark.alphabet, Mark.digits, Mark.rowEnds, Mark.blanks]
    · simp [Mark.alphabet, Mark.digits, Mark.rowEnds, Mark.blanks]

end BitMatrix

end AffinePhase
