import AffinePhase.Circuit.Text
import AffinePhase.Proofs.Circuit.Instruction
import AffinePhase.Proofs.Result
import AffinePhase.Proofs.Text.Lines
import AffinePhase.Proofs.Text.Words

/-!
# The grammar of circuit text

A circuit text is a header, the word `qubits` and a number, and a line for each instruction, a
gate's name and the numbers of its qubits. This module says so without saying how a text is read,
and says as well what is reported of a text that is no circuit: the first fault of its first faulty
line. Reading is then shown to be the decision between the two.

## Main definitions

* `Text.Denotes`, `Gate.IsNamed`: the words of the grammar.
* `Circuit.IsHeader`, `Circuit.IsInstructionLine`, `Circuit.Describes`: the lines, and the texts.
* `Circuit.IsFaultyHeader`, `Circuit.IsFaultyLine`, `Circuit.IsFaultyText`: the faults, in the order
  in which they are looked for.

## Main results

* `Circuit.parse_eq_ok_iff`: a text is read as a circuit exactly if it describes it.
* `Circuit.parse_eq_error_iff`: it is refused exactly with its first fault.
-/

namespace AffinePhase

open Text

/-! ### Words -/

/-- The word is a number in decimal digits that fits into 64 bits. There may be zeros in front of
the digits, and a plus sign in front of these. -/
def Text.Denotes (word : List Char) (n : ℕ) : Prop :=
  ∃ digits, (word = digits ∨ word = '+' :: digits) ∧ digits ≠ [] ∧
    (∀ c ∈ digits, c.isDigit = true) ∧ Nat.ofDigitChars 10 digits 0 = n ∧ n < indexBound

/-- The word is the gate's name, in upper or lower case. -/
def Gate.IsNamed (g : Gate) (word : List Char) : Prop :=
  word.map Char.toLower = g.name.map Char.toLower

namespace Text

variable {word digits : List Char} {n : ℕ}

/-- A number is read from digits, of which there is one at least, if it fits. -/
theorem digitsValue?_eq_some_iff :
    digitsValue? digits = some n ↔ digits ≠ [] ∧ (∀ c ∈ digits, c.isDigit = true) ∧
      Nat.ofDigitChars 10 digits 0 = n ∧ n < indexBound := by
  have hnumeral : (!digits.isEmpty && digits.all Char.isDigit) = true ↔
      digits ≠ [] ∧ ∀ c ∈ digits, c.isDigit = true := by
    rw [Bool.and_eq_true, Bool.not_eq_true', List.isEmpty_eq_false_iff, List.all_eq_true]
  rw [digitsValue?]
  split
  · rename_i hdigits
    obtain ⟨hne, hall⟩ := hnumeral.mp hdigits
    rw [Option.ite_none_right_eq_some, Option.some.injEq]
    constructor
    · rintro ⟨hfits, rfl⟩
      exact ⟨hne, hall, rfl, hfits⟩
    · rintro ⟨-, -, rfl, hfits⟩
      exact ⟨hfits, rfl⟩
  · rename_i hdigits
    constructor
    · intro h
      cases h
    · rintro ⟨hne, hall, -⟩
      exact absurd (hnumeral.mpr ⟨hne, hall⟩) hdigits

/-- **Indices are read** exactly as they are meant. -/
theorem index?_eq_some_iff : index? word = some n ↔ Denotes word n := by
  unfold index?
  split
  · rename_i digits
    rw [digitsValue?_eq_some_iff]
    constructor
    · intro h
      exact ⟨digits, .inr rfl, h⟩
    · rintro ⟨digits', rfl | hword, h⟩
      · -- a plus sign is no digit
        exact absurd (h.2.1 '+' List.mem_cons_self) (by decide)
      · exact (List.cons.inj hword).2 ▸ h
  · rename_i hplus
    rw [digitsValue?_eq_some_iff]
    constructor
    · intro h
      exact ⟨word, .inl rfl, h⟩
    · rintro ⟨digits, rfl | rfl, h⟩
      · exact h
      · exact absurd rfl (hplus digits)

/-- No index is read exactly from words that denote none. -/
theorem index?_eq_none_iff : index? word = none ↔ ∀ n, ¬ Denotes word n := by
  simp only [Option.eq_none_iff_forall_ne_some, ne_eq, index?_eq_some_iff]

end Text

namespace Gate

variable {g : Gate} {word : List Char}

/-- **Gates are read** exactly by their names. -/
theorem parse?_eq_some_iff : parse? word = some g ↔ g.IsNamed word := by
  constructor
  · intro h
    have hlower := List.find?_some h
    exact (beq_iff_eq.mp hlower).symm
  · intro h
    rw [← parse?_name g, parse?, parse?, h]

/-- No gate is read exactly from words that name none. -/
theorem parse?_eq_none_iff : parse? word = none ↔ ∀ g : Gate, ¬ g.IsNamed word := by
  simp only [Option.eq_none_iff_forall_ne_some, ne_eq, parse?_eq_some_iff]

end Gate

namespace Circuit

/-! ### Lines -/

/-- The line is a header that says there are `n` qubits. -/
def IsHeader (n : ℕ) (line : List Char) : Prop :=
  ∃ count, words line = [headerWord, count] ∧ Denotes count n

/-- The line is an instruction on `n` qubits. -/
def IsInstructionLine (n : ℕ) (line : List Char) (a : Instruction) : Prop :=
  ∃ name indices, words line = name :: indices ∧ a.gate.IsNamed name ∧
    List.Forall₂ Denotes indices a.qubits ∧ a.ActsOn n

/-- What is reported of a line in the place of the header. -/
inductive IsFaultyHeader (number : ℕ) (line : List Char) : Failure → Prop
  /-- The line is not the word `qubits` and one more word. -/
  | badHeader (hwords : ∀ count, words line ≠ [headerWord, count]) :
      IsFaultyHeader number line (.parse number (.badHeader (trim line)))
  /-- The second word is no number. -/
  | badCount {count : List Char} (hwords : words line = [headerWord, count])
      (hcount : ∀ n, ¬ Denotes count n) :
      IsFaultyHeader number line (.parse number (.badIndex count))

/-- What is reported of a line in the place of an instruction on `n` qubits. -/
inductive IsFaultyLine (n number : ℕ) (line : List Char) : Failure → Prop
  /-- The first word is no name of a gate. -/
  | unknownGate {name : List Char} {indices : List (List Char)}
      (hwords : words line = name :: indices) (hname : ∀ g : Gate, ¬ g.IsNamed name) :
      IsFaultyLine n number line (.unsupported (.unknownGate name number))
  /-- A further word is no number, and is the first that is none. -/
  | badIndex {gate : Gate} {name word : List Char} {before after : List (List Char)}
      (hwords : words line = name :: (before ++ word :: after)) (hname : gate.IsNamed name)
      (hbefore : ∀ w ∈ before, ∃ q, Denotes w q) (hword : ∀ q, ¬ Denotes word q) :
      IsFaultyLine n number line (.parse number (.badIndex word))
  /-- The gate does not act on these qubits. -/
  | refused {gate : Gate} {name : List Char} {indices : List (List Char)} {qubits : List ℕ}
      {failure : Failure} (hwords : words line = name :: indices) (hname : gate.IsNamed name)
      (hindices : List.Forall₂ Denotes indices qubits)
      (hrefused : Instruction.IsRefused gate qubits n failure) :
      IsFaultyLine n number line failure

variable {c d : Circuit} {n number : ℕ} {line word : List Char} {failure : Failure}

/-- An index is read from the words that denote it. -/
theorem parseIndex_eq_ok_iff : parseIndex number word = .ok n ↔ Denotes word n := by
  rw [parseIndex, ← index?_eq_some_iff]
  split
  · rename_i n' hn
    rw [hn, Except.ok.injEq, Option.some.injEq]
  · rename_i hnone
    rw [hnone]
    exact ⟨fun h => (nomatch h), fun h => (nomatch h)⟩

/-- The word that denotes no index is reported, with the number of its line. -/
theorem parseIndex_eq_error_iff :
    parseIndex number word = .error failure ↔
      (∀ q, ¬ Denotes word q) ∧ failure = .parse number (.badIndex word) := by
  rw [parseIndex, ← index?_eq_none_iff]
  split
  · rename_i n' hn
    rw [hn]
    exact ⟨fun h => (nomatch h), fun h => (nomatch h.1)⟩
  · rename_i hnone
    rw [Except.error.injEq]
    exact ⟨fun h => ⟨hnone, h.symm⟩, fun h => h.2.symm⟩

/-- Reading a header that has the right words is reading its number. -/
theorem parseHeader_of_words {count : List Char} (h : words line = [headerWord, count]) :
    parseHeader number line = parseIndex number count := by
  rw [parseHeader, h]
  exact if_pos rfl

/-- A first line of other words is reported as it is. -/
theorem parseHeader_of_ne (h : ∀ count, words line ≠ [headerWord, count]) :
    parseHeader number line = .error (.parse number (.badHeader line)) := by
  rw [parseHeader]
  split
  · rename_i word count hwords
    exact if_neg fun hword => h count (by rw [hwords, hword])
  · rfl

/-- **A header is read** as the number of qubits that it says. -/
theorem parseHeader_eq_ok_iff : parseHeader number (trim line) = .ok n ↔ IsHeader n line := by
  constructor
  · intro h
    by_cases hwords : ∃ count, words (trim line) = [headerWord, count]
    · obtain ⟨count, hcount⟩ := hwords
      rw [parseHeader_of_words hcount, parseIndex_eq_ok_iff] at h
      exact ⟨count, words_trim line ▸ hcount, h⟩
    · rw [parseHeader_of_ne (not_exists.mp hwords)] at h
      cases h
  · rintro ⟨count, hwords, hcount⟩
    rw [parseHeader_of_words ((words_trim line).trans hwords), parseIndex_eq_ok_iff.mpr hcount]

/-- **A line that is no header** is reported. -/
theorem parseHeader_eq_error_iff :
    parseHeader number (trim line) = .error failure ↔ IsFaultyHeader number line failure := by
  constructor
  · intro h
    by_cases hwords : ∃ count, words (trim line) = [headerWord, count]
    · obtain ⟨count, hcount⟩ := hwords
      rw [parseHeader_of_words hcount, parseIndex_eq_error_iff] at h
      obtain ⟨hnone, rfl⟩ := h
      exact .badCount (words_trim line ▸ hcount) hnone
    · have hwords := not_exists.mp hwords
      rw [parseHeader_of_ne hwords] at h
      obtain rfl := Except.error.inj h
      exact .badHeader (words_trim line ▸ hwords)
  · intro h
    cases h with
    | badHeader hwords =>
        exact parseHeader_of_ne (words_trim line ▸ hwords)
    | badCount hwords hcount =>
        rw [parseHeader_of_words ((words_trim line).trans hwords)]
        exact parseIndex_eq_error_iff.mpr ⟨hcount, rfl⟩

/-- Reading a line that begins with the name of a gate. -/
theorem parseLine_of_words {gate : Gate} {name : List Char} {indices : List (List Char)}
    (hwords : words line = name :: indices) (hname : gate.IsNamed name) :
    c.parseLine number line = indices.mapM (parseIndex number) >>= c.precede gate := by
  rw [parseLine, hwords]
  simp only [List.headD_cons, List.tail_cons, Gate.parse?_eq_some_iff.mpr hname]

/-- The first word is reported if it names no gate, whatever follows. -/
theorem parseLine_of_unknown {name : List Char} {indices : List (List Char)}
    (hwords : words line = name :: indices) (hname : ∀ g : Gate, ¬ g.IsNamed name) :
    c.parseLine number line = .error (.unsupported (.unknownGate name number)) := by
  rw [parseLine, hwords]
  simp only [List.headD_cons, Gate.parse?_eq_none_iff.mpr hname]
  rfl

/-- The words of an instruction are read as its qubits. -/
theorem mapM_parseIndex_eq_ok_iff {indices : List (List Char)} {qubits : List ℕ} :
    indices.mapM (parseIndex number) = .ok qubits ↔ List.Forall₂ Denotes indices qubits := by
  simp only [Result.mapM_eq_ok, parseIndex_eq_ok_iff]

/-- **A line is read** as the instruction on it. -/
theorem parseLine_eq_ok_iff (hne : words line ≠ []) :
    c.parseLine number (trim line) = .ok d ↔ ∃ a, IsInstructionLine c.numQubits line a ∧
      d.numQubits = c.numQubits ∧ d.instructions = a :: c.instructions := by
  obtain ⟨name, indices, hwords⟩ := List.exists_cons_of_ne_nil hne
  have htrim : words (trim line) = name :: indices := (words_trim line).trans hwords
  constructor
  · intro h
    by_cases hname : ∃ gate : Gate, gate.IsNamed name
    · obtain ⟨gate, hgate⟩ := hname
      rw [parseLine_of_words htrim hgate, Result.bind_eq_ok] at h
      obtain ⟨qubits, hqubits, hprecede⟩ := h
      obtain ⟨hacts, hresult⟩ := precede_eq_ok_iff.mp hprecede
      exact ⟨⟨gate, qubits⟩,
        ⟨name, indices, hwords, hgate, mapM_parseIndex_eq_ok_iff.mp hqubits, hacts⟩, hresult⟩
    · rw [parseLine_of_unknown htrim (not_exists.mp hname)] at h
      cases h
  · rintro ⟨a, ⟨name', indices', hwords', hname, hindices, hacts⟩, hresult⟩
    rw [parseLine_of_words ((words_trim line).trans hwords') hname,
      mapM_parseIndex_eq_ok_iff.mpr hindices]
    exact precede_eq_ok_iff.mpr ⟨hacts, hresult⟩

/-- **A line that is no instruction** is reported with its first fault. -/
theorem parseLine_eq_error_iff (hne : words line ≠ []) :
    c.parseLine number (trim line) = .error failure ↔
      IsFaultyLine c.numQubits number line failure := by
  obtain ⟨name, indices, hwords⟩ := List.exists_cons_of_ne_nil hne
  have htrim : words (trim line) = name :: indices := (words_trim line).trans hwords
  constructor
  · intro h
    by_cases hname : ∃ gate : Gate, gate.IsNamed name
    · obtain ⟨gate, hgate⟩ := hname
      rw [parseLine_of_words htrim hgate, Result.bind_eq_error] at h
      rcases h with hindex | ⟨qubits, hqubits, hprecede⟩
      · obtain ⟨before, word, after, rfl, hbefore, hword⟩ := Result.mapM_eq_error.mp hindex
        obtain ⟨hnone, rfl⟩ := parseIndex_eq_error_iff.mp hword
        simp only [parseIndex_eq_ok_iff] at hbefore
        exact .badIndex hwords hgate hbefore hnone
      · exact .refused hwords hgate (mapM_parseIndex_eq_ok_iff.mp hqubits)
          (precede_eq_error_iff.mp hprecede)
    · have hname := not_exists.mp hname
      rw [parseLine_of_unknown htrim hname] at h
      obtain rfl := Except.error.inj h
      exact .unknownGate hwords hname
  · intro h
    cases h with
    | unknownGate hwords' hname =>
        exact parseLine_of_unknown ((words_trim line).trans hwords') hname
    | badIndex hwords' hname hbefore hword =>
        rw [parseLine_of_words ((words_trim line).trans hwords') hname, Result.bind_eq_error]
        refine .inl (Result.mapM_eq_error.mpr ⟨_, _, _, rfl, fun w hw => ?_, ?_⟩)
        · obtain ⟨q, hq⟩ := hbefore w hw
          exact ⟨q, parseIndex_eq_ok_iff.mpr hq⟩
        · exact parseIndex_eq_error_iff.mpr ⟨hword, rfl⟩
    | refused hwords' hname hindices hrefused =>
        rw [parseLine_of_words ((words_trim line).trans hwords') hname,
          mapM_parseIndex_eq_ok_iff.mpr hindices]
        exact precede_eq_error_iff.mpr hrefused

/-! ### Runs over the lines -/

section Lines

variable {ls : List (ℕ × List Char)}

/-- There is a circuit with further instructions in front of those of `c`. -/
theorem exists_prepend {as : List Instruction} (h : ∀ a ∈ as, a.ActsOn c.numQubits) :
    ∃ d : Circuit, d.numQubits = c.numQubits ∧ d.instructions = as ++ c.instructions :=
  ⟨⟨c.numQubits, as ++ c.instructions, List.forall_mem_append.mpr ⟨h, c.actsOn⟩⟩, rfl, rfl⟩

/-- The instructions on lines act on the qubits. -/
theorem actsOn_of_forall₂ {as : List Instruction}
    (h : List.Forall₂ (fun l a => IsInstructionLine n l.2 a) ls as) : ∀ a ∈ as, a.ActsOn n := by
  induction h with
  | nil => exact List.forall_mem_nil _
  | cons ha _ ih =>
      obtain ⟨-, -, -, -, -, hacts⟩ := ha
      exact List.forall_mem_cons.mpr ⟨hacts, ih⟩

/-- **Lines are read** as the instructions on them, the latest first. -/
theorem foldlM_parseLine_eq_ok_iff (hne : ∀ l ∈ ls, words l.2 ≠ []) :
    ls.foldlM (fun c l => c.parseLine l.1 (trim l.2)) c = .ok d ↔
      ∃ as, List.Forall₂ (fun l a => IsInstructionLine c.numQubits l.2 a) ls as ∧
        d.numQubits = c.numQubits ∧ d.instructions = as.reverse ++ c.instructions := by
  induction ls generalizing c with
  | nil =>
      rw [List.foldlM_nil]
      constructor
      · intro h
        obtain rfl := Except.ok.inj h
        exact ⟨[], .nil, rfl, rfl⟩
      · rintro ⟨as, has, hn, hinstructions⟩
        obtain rfl := List.forall₂_nil_left_iff.mp has
        exact congrArg Except.ok (ext hn hinstructions).symm
  | cons l ls ih =>
      obtain ⟨hl, hls⟩ := List.forall_mem_cons.mp hne
      rw [List.foldlM_cons, Result.bind_eq_ok]
      constructor
      · rintro ⟨c₁, hfirst, hrest⟩
        obtain ⟨a, ha, hn₁, hinstructions₁⟩ := (parseLine_eq_ok_iff hl).mp hfirst
        obtain ⟨as, has, hn, hinstructions⟩ := (ih hls).mp hrest
        rw [hn₁] at has hn
        refine ⟨a :: as, .cons ha has, hn, ?_⟩
        rw [hinstructions, hinstructions₁, List.reverse_cons, List.append_assoc,
          List.singleton_append]
      · rintro ⟨as, hall, hn, hinstructions⟩
        obtain ⟨a, as, ha, has, rfl⟩ := List.forall₂_cons_left_iff.mp hall
        obtain ⟨hacts, -⟩ := List.forall_mem_cons.mp (actsOn_of_forall₂ hall)
        obtain ⟨c₁, hn₁, hinstructions₁⟩ := exists_prepend (List.forall_mem_singleton.mpr hacts)
        refine ⟨c₁, (parseLine_eq_ok_iff hl).mpr ⟨a, ha, hn₁, hinstructions₁⟩, (ih hls).mpr ?_⟩
        rw [hn₁, hinstructions₁]
        refine ⟨as, has, hn, ?_⟩
        rw [hinstructions, List.reverse_cons, List.append_assoc]

/-- **The first faulty line** decides what is reported. -/
theorem foldlM_parseLine_eq_error_iff (hne : ∀ l ∈ ls, words l.2 ≠ []) :
    ls.foldlM (fun c l => c.parseLine l.1 (trim l.2)) c = .error failure ↔
      ∃ before l after as, ls = before ++ l :: after ∧
        List.Forall₂ (fun l a => IsInstructionLine c.numQubits l.2 a) before as ∧
        IsFaultyLine c.numQubits l.1 l.2 failure := by
  rw [Result.foldlM_eq_error]
  constructor
  · rintro ⟨before, l, after, c₁, rfl, hbefore, hl⟩
    obtain ⟨hnebefore, hne⟩ := List.forall_mem_append.mp hne
    obtain ⟨as, has, hn, -⟩ := (foldlM_parseLine_eq_ok_iff hnebefore).mp hbefore
    rw [parseLine_eq_error_iff (hne l List.mem_cons_self), hn] at hl
    exact ⟨before, l, after, as, rfl, has, hl⟩
  · rintro ⟨before, l, after, as, rfl, has, hl⟩
    obtain ⟨hnebefore, hne⟩ := List.forall_mem_append.mp hne
    have hacts : ∀ a ∈ as.reverse, a.ActsOn c.numQubits := fun a ha =>
      actsOn_of_forall₂ has a (List.mem_reverse.mp ha)
    obtain ⟨c₁, hn, hinstructions⟩ := exists_prepend hacts
    refine ⟨before, l, after, c₁, rfl, ?_, ?_⟩
    · exact (foldlM_parseLine_eq_ok_iff hnebefore).mpr ⟨as, has, hn, hinstructions⟩
    · rwa [parseLine_eq_error_iff (hne l List.mem_cons_self), hn]

end Lines

/-! ### Texts -/

/-- The text describes the circuit: its first line with a word is a header, and each further one is
the next instruction. -/
def Describes (text : List Char) (c : Circuit) : Prop :=
  ∃ header ls, writtenLines text = header :: ls ∧ IsHeader c.numQubits header.2 ∧
    List.Forall₂ (fun l a => IsInstructionLine c.numQubits l.2 a) ls c.instructions

/-- What is reported of a text that describes no circuit: that it has no line, or else the fault of
the first faulty line. -/
inductive IsFaultyText (text : List Char) : Failure → Prop
  /-- All lines are blank. -/
  | missingHeader (hlines : writtenLines text = []) : IsFaultyText text (.parse 1 .missingHeader)
  /-- The first line is no header. -/
  | badHeader {header : ℕ × List Char} {ls : List (ℕ × List Char)} {failure : Failure}
      (hlines : writtenLines text = header :: ls)
      (hheader : IsFaultyHeader header.1 header.2 failure) : IsFaultyText text failure
  /-- A further line is no instruction, and is the first that is none. -/
  | badLine {header l : ℕ × List Char} {before after : List (ℕ × List Char)} {n : ℕ}
      {as : List Instruction} {failure : Failure}
      (hlines : writtenLines text = header :: (before ++ l :: after))
      (hheader : IsHeader n header.2)
      (hbefore : List.Forall₂ (fun l a => IsInstructionLine n l.2 a) before as)
      (hline : IsFaultyLine n l.1 l.2 failure) : IsFaultyText text failure

variable {text : List Char}

/-- Reading goes through the lines that are not blank. -/
theorem contentLines_eq (text : List Char) :
    contentLines text = (writtenLines text).map fun l => (l.1, trim l.2) :=
  numberedLines_trim text

/-- The lines after the first one have words. -/
theorem words_ne_nil_of_cons {header : ℕ × List Char} {ls : List (ℕ × List Char)}
    (h : writtenLines text = header :: ls) : ∀ l ∈ ls, words l.2 ≠ [] :=
  fun _ hl => words_ne_nil_of_mem (h ▸ List.mem_cons_of_mem header hl)

/-- A text without words has no first line. -/
theorem parse_of_nil (h : writtenLines text = []) :
    parse text = .error (.parse 1 .missingHeader) := by
  rw [parse, contentLines_eq, h]
  rfl

/-- The lines that hold a word are read in order. -/
theorem parse_of_cons {header : ℕ × List Char} {ls : List (ℕ × List Char)}
    (h : writtenLines text = header :: ls) :
    parse text = parseHeader header.1 (trim header.2) >>= fun n =>
      ls.foldlM (fun c l => c.parseLine l.1 (trim l.2)) (empty n) >>= fun c => .ok c.reversed := by
  rw [parse, contentLines_eq, h]
  simp only [List.map_cons, List.foldlM_map]
  rfl

/-- **Reading accepts the texts that describe a circuit**, and gives the circuit. -/
theorem parse_eq_ok_iff : parse text = .ok c ↔ Describes text c := by
  cases hlines : writtenLines text with
  | nil =>
      rw [parse_of_nil hlines]
      exact ⟨fun h => (nomatch h), fun ⟨_, _, h, _⟩ => (nomatch hlines.symm.trans h)⟩
  | cons header ls =>
      have hne := words_ne_nil_of_cons hlines
      rw [parse_of_cons hlines, Result.bind_eq_ok]
      constructor
      · rintro ⟨n, hheader, hrun⟩
        obtain ⟨d, hd, hc⟩ := Result.bind_eq_ok.mp hrun
        obtain rfl := Except.ok.inj hc
        obtain ⟨as, has, hn, hinstructions⟩ := (foldlM_parseLine_eq_ok_iff hne).mp hd
        have hn : d.reversed.numQubits = n := hn
        have has' : d.reversed.instructions = as := by
          show d.instructions.reverse = as
          rw [hinstructions, List.reverse_append, List.reverse_reverse]
          rfl
        refine ⟨header, ls, hlines, ?_, ?_⟩
        · rw [hn]
          exact parseHeader_eq_ok_iff.mp hheader
        · rwa [hn, has']
      · rintro ⟨header', ls', hlines', hheader, hinstructions⟩
        obtain ⟨rfl, rfl⟩ := List.cons.inj (hlines.symm.trans hlines')
        refine ⟨c.numQubits, parseHeader_eq_ok_iff.mpr hheader, Result.bind_eq_ok.mpr ?_⟩
        refine ⟨c.reversed, (foldlM_parseLine_eq_ok_iff hne).mpr ?_, ?_⟩
        · exact ⟨c.instructions, hinstructions, rfl, (List.append_nil _).symm⟩
        · rw [reversed_reversed]

/-- **Reading refuses all other texts**, with the first fault of the first faulty line. -/
theorem parse_eq_error_iff : parse text = .error failure ↔ IsFaultyText text failure := by
  cases hlines : writtenLines text with
  | nil =>
      rw [parse_of_nil hlines, Except.error.injEq]
      constructor
      · rintro rfl
        exact .missingHeader hlines
      · intro h
        cases h with
        | missingHeader _ => rfl
        | badHeader hlines' _ => cases hlines.symm.trans hlines'
        | badLine hlines' _ _ _ => cases hlines.symm.trans hlines'
  | cons header ls =>
      have hne := words_ne_nil_of_cons hlines
      rw [parse_of_cons hlines, Result.bind_eq_error]
      constructor
      · rintro (hheader | ⟨n, hheader, hrun⟩)
        · exact .badHeader hlines (parseHeader_eq_error_iff.mp hheader)
        rcases Result.bind_eq_error.mp hrun with hrun | ⟨d, -, hpure⟩
        · obtain ⟨before, l, after, as, rfl, hbefore, hl⟩ :=
            (foldlM_parseLine_eq_error_iff hne).mp hrun
          exact .badLine hlines (parseHeader_eq_ok_iff.mp hheader) hbefore hl
        · cases hpure
      · intro h
        cases h with
        | missingHeader hlines' => cases hlines.symm.trans hlines'
        | badHeader hlines' hheader =>
            obtain ⟨rfl, rfl⟩ := List.cons.inj (hlines.symm.trans hlines')
            exact .inl (parseHeader_eq_error_iff.mpr hheader)
        | @badLine _ l before after n as _ hlines' hheader hbefore hline =>
            obtain ⟨rfl, rfl⟩ := List.cons.inj (hlines.symm.trans hlines')
            refine .inr ⟨n, parseHeader_eq_ok_iff.mpr hheader, Result.bind_eq_error.mpr (.inl ?_)⟩
            exact (foldlM_parseLine_eq_error_iff hne).mpr
              ⟨before, l, after, as, rfl, hbefore, hline⟩

/-- **Reading decides the grammar.** A text is read as a circuit exactly if it describes this
circuit, and otherwise its first fault is reported; of every text there is one or the other. -/
theorem parse_decides_grammar (text : List Char) :
    (∀ c, parse text = .ok c ↔ Describes text c) ∧
      (∀ failure, parse text = .error failure ↔ IsFaultyText text failure) ∧
      ((∃ c, Describes text c) ∨ ∃ failure, IsFaultyText text failure) := by
  refine ⟨fun c => parse_eq_ok_iff, fun failure => parse_eq_error_iff, ?_⟩
  cases h : parse text with
  | ok c => exact .inl ⟨c, parse_eq_ok_iff.mp h⟩
  | error failure => exact .inr ⟨failure, parse_eq_error_iff.mp h⟩

-- blank lines are counted, and a word that is no number is reported before their wrong number
example : parse "qubits 2\r\n\r\ntINV +01\r\nSwap 1 one 0".toList =
    .error (.parse 4 (.badIndex "one".toList)) := by
  rfl

end Circuit

end AffinePhase
