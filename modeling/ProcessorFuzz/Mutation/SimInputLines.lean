import ProcessorFuzz.Mutation.SimInput

/-!
# The lines of a test file

The reader is followed line by line: each line of a saved word has its label or blanks in the first
eight columns and its text in the next 42, whatever is printed behind them. From the lines of a word
the reader makes the word, and from the words of a part the part.
-/

namespace ProcessorFuzz.Mutation

open Library Word

/-- What `save` prints in a line: the instruction and, in the main part, the interrupt value. -/
def printLine (part : Part) (inst : Text) (int : ℤ) : Text :=
  Text.ljust 50 inst ++ if part = .mainPart then Text.zeroPadInt 2 4 int else []

/-- The first eight columns of a line: a label or blanks. -/
inductive Columns (part : Part) : Option ℤ → Text → Prop
  | label (label : ℤ) (h₀ : 0 ≤ label) (h : label < 100000) :
    Columns part (some label) (Text.ljust 8 (labelText part label))
  | blanks : Columns part none (List.replicate 8 ' ')

theorem part_text_subset (part : Part) : ∀ c ∈ part.text, c ∈ "_pls: ".toList := by
  cases part <;> decide

namespace Columns

variable {part : Part} {label : Option ℤ} {columns : Text}

theorem length (h : Columns part label columns) : columns.length = 8 := by
  cases h with
  | label label h₀ h => rw [Text.length_ljust, Nat.max_eq_left (length_labelText h₀ h)]
  | blanks => rfl

/-- The characters of the first eight columns. -/
theorem mem (h : Columns part label columns) {c : Char} (hc : c ∈ columns) :
    c ∈ "_pls: ".toList ∨ c.isDigit = true := by
  cases h with
  | label label h₀ h =>
    lift label to ℕ using h₀
    have hstr : Text.str (label : ℤ) = Text.dec label := rfl
    rw [Text.ljust_eq_append, labelText, hstr] at hc
    rcases List.mem_append.mp hc with hc | hc
    · rcases List.mem_append.mp hc with hc | hc
      · rcases List.mem_append.mp hc with hc | hc
        · left
          exact part_text_subset part c hc
        · exact Or.inr (Text.isDigit_of_mem_dec hc)
      · left
        rw [List.mem_singleton.mp hc]
        decide
    · left
      rw [List.eq_of_mem_replicate hc]
      decide
  | blanks =>
    left
    rw [List.eq_of_mem_replicate hc]
    decide

theorem not_mem (h : Columns part label columns) {c : Char} (hc : c ∉ "_pls: ".toList)
    (hdigit : c.isDigit = false) : c ∉ columns := by
  intro hmem
  rcases h.mem hmem with hmem | hmem
  · exact hc hmem
  · rw [hdigit] at hmem
    exact Bool.noConfusion hmem

theorem linePart (h : Columns part label columns) (rest : Text) :
    Reader.linePart (columns ++ rest) = label.map fun _ ↦ part := by
  have htake : (columns ++ rest).take 2 = columns.take 2 :=
    List.take_append_of_le_length (by rw [h.length]; decide)
  unfold Reader.linePart
  rw [htake]
  cases h with
  | label label h₀ h =>
    have hpart : (Text.ljust 8 (labelText part label)).take 2 = part.text := by
      have hlength : part.text.length = 2 := by cases part <;> rfl
      rw [Text.ljust_eq_append, labelText, List.append_assoc, List.append_assoc,
        List.take_left' hlength]
    rw [hpart]
    cases part <;> rfl
  | blanks => rfl

/-- The label is read back. -/
theorem readLabel {label : ℤ} (h : Columns part (some label) columns) (rest : Text)
    (tuples : List (ℤ × List Text)) :
    Reader.readLabel (columns ++ rest) tuples = .ok (tuples ++ [(label, [])]) := by
  have htake : (columns ++ rest).take 8 = columns := List.take_left' h.length
  cases h with
  | label label h₀ h =>
    lift label to ℕ using h₀
    have hstr : Text.str (label : ℤ) = Text.dec label := rfl
    have hcolon : ':' ∉ part.text ++ Text.dec label := by
      intro hmem
      rcases List.mem_append.mp hmem with hmem | hmem
      · cases part <;> exact absurd hmem (by decide)
      · exact Text.not_mem_dec (by decide) hmem
    have hsplit : (Text.split [':'] (Text.ljust 8 (labelText part (label : ℤ))))[0]? =
        some (part.text ++ Text.dec label) := by
      rw [Text.ljust_eq_append, labelText, hstr, List.append_assoc, List.singleton_append,
        Text.split_append_cons hcolon]
      rfl
    have hdrop : (part.text ++ Text.dec label).drop 2 = Text.dec label :=
      List.drop_left' (by cases part <;> rfl)
    rw [Reader.readLabel, htake, hsplit, Option.getD_some, hdrop, Text.int_dec]
    rfl

end Columns

/-- A printed line: its first eight columns, a text, and in the main part an interrupt value. -/
structure IsLine (part : Part) (label : Option ℤ) (text inst : Text) (int : ℤ) : Prop where
  columns : ∃ columns, Columns part label columns ∧ inst = columns ++ text
  wide : 42 ≤ text.length
  noData : ¬ "data:".toList <:+: Text.rstrip text
  lineText : Text.IsLineText text
  int_nonneg : 0 ≤ int
  int_le : int ≤ 15

namespace IsLine

variable {part : Part} {label : Option ℤ} {text inst : Text} {int : ℤ}

/-- The interrupt value behind the instruction. -/
def tail (part : Part) (int : ℤ) : Text :=
  if part = .mainPart then Text.zeroPadInt 2 4 int else []

theorem printLine_eq (h : IsLine part label text inst int) :
    printLine part inst int = inst ++ tail part int := by
  obtain ⟨columns, hcolumns, rfl⟩ := h.columns
  have hlength : 50 ≤ (columns ++ text).length := by
    rw [List.length_append, hcolumns.length]
    have := h.wide
    omega
  rw [printLine, Text.ljust_eq_append, Nat.sub_eq_zero_of_le hlength]
  exact congrArg (· ++ _) (List.append_nil _)

theorem isNumeral_tail (h : IsLine part label text inst int) :
    Text.IsNumeral 2 (tail part int) := by
  unfold tail
  split
  · obtain ⟨n, hn⟩ := Int.eq_ofNat_of_zero_le h.int_nonneg
    rw [hn]
    exact Text.isNumeral_zeroPad (by decide) (by decide) 4 n
  · exact fun c hc ↦ absurd hc List.not_mem_nil

theorem isLineText (h : IsLine part label text inst int) :
    Text.IsLineText (printLine part inst int) := by
  rw [h.printLine_eq]
  obtain ⟨columns, hcolumns, rfl⟩ := h.columns
  refine ((?_ : Text.IsLineText columns).append h.lineText).append h.isNumeral_tail.isLineText
  intro c hc
  constructor
  · rintro rfl
    exact hcolumns.not_mem (by decide) (by decide) hc
  · rintro rfl
    exact hcolumns.not_mem (by decide) (by decide) hc

/-- Only the text of a line could contain `data:`. -/
theorem not_data (h : IsLine part label text inst int) :
    ¬ "data:".toList <:+: printLine part inst int ++ ['\n'] := by
  rw [h.printLine_eq]
  obtain ⟨columns, hcolumns, rfl⟩ := h.columns
  obtain ⟨blanks, htext, hblanks⟩ := Text.exists_rstrip_append text
  have hsplit : columns ++ text ++ tail part int ++ ['\n'] =
      columns ++ (Text.rstrip text ++ (blanks ++ tail part int ++ ['\n'])) := by
    conv_lhs => rw [htext]
    simp only [List.append_assoc]
  have hcolon : ':' ∉ blanks ++ tail part int ++ ['\n'] := by
    intro hmem
    rcases List.mem_append.mp hmem with hmem | hmem
    · rcases List.mem_append.mp hmem with hmem | hmem
      · exact absurd (hblanks ':' hmem) (by decide)
      · exact h.isNumeral_tail.ne_of_digitValue (fun d _ ↦ by simp [Text.digitValue]) ':' hmem rfl
    · exact absurd hmem (by decide)
  rw [hsplit, show "data:".toList = 'd' :: "ata:".toList from rfl,
    Text.infix_append_iff_of_not_mem (hcolumns.not_mem (by decide) (by decide))]
  rw [show 'd' :: "ata:".toList = "data".toList ++ [':'] from rfl,
    Text.infix_append_iff_of_not_mem_right hcolon]
  exact h.noData

/-- Columns 8 to 50 of a line. -/
theorem slice_text (h : IsLine part label text inst int) :
    Text.slice (printLine part inst int ++ ['\n']) 8 50 = text.take 42 := by
  rw [h.printLine_eq]
  obtain ⟨columns, hcolumns, rfl⟩ := h.columns
  have hsplit : columns ++ text ++ tail part int ++ ['\n'] =
      columns ++ text.take 42 ++ (text.drop 42 ++ tail part int ++ ['\n']) := by
    conv_lhs => rw [← List.take_append_drop 42 text]
    simp only [List.append_assoc]
  have hwide := h.wide
  rw [hsplit]
  apply Text.slice_append_append (a := 8) (b := 50)
  · exact hcolumns.length
  · rw [hcolumns.length, List.length_take]
    omega

/-- The interrupt value at the end of a main line. -/
theorem int_slice (h : IsLine .mainPart label text inst int) :
    Text.int 2 (Text.slice (printLine .mainPart inst int ++ ['\n']) (-5) (-1)) = .ok int := by
  obtain ⟨n, rfl⟩ := Int.eq_ofNat_of_zero_le h.int_nonneg
  have hn : n < 2 ^ 4 := by
    have := h.int_le
    omega
  have htail : tail .mainPart (n : ℤ) = Text.zeroPad 2 4 n := rfl
  have hlength : (Text.zeroPad 2 4 n).length = 4 :=
    Text.length_zeroPad (by decide) (by decide) hn
  have htotal : (inst ++ Text.zeroPad 2 4 n ++ ['\n']).length = inst.length + 5 := by
    rw [List.length_append, List.length_append, hlength]
    rfl
  have hfirst : Text.sliceBound (inst.length + 5) (-5) = inst.length := by
    unfold Text.sliceBound
    rw [if_pos (by decide)]
    omega
  have hlast : Text.sliceBound (inst.length + 5) (-1) = inst.length + 4 := by
    unfold Text.sliceBound
    rw [if_pos (by decide)]
    omega
  have hslice : Text.slice (inst ++ Text.zeroPad 2 4 n ++ ['\n']) (-5) (-1) =
      Text.zeroPad 2 4 n := by
    unfold Text.slice
    rw [htotal, hfirst, hlast, List.take_left' (by rw [List.length_append, hlength]),
      List.drop_left]
  rw [h.printLine_eq, htail, hslice]
  exact Text.int_binPad 4 n

end IsLine

/-- The tuple that is read for a word. -/
def wordTuple (w : Word) : ℤ × List Text :=
  (w.label, w.retInsts.map fun inst ↦ (inst.drop 8).take 42)

/-- A word whose lines are in the columns of the format, whatever their length. -/
structure Columned (part : Part) (w : Word) : Prop where
  printed : Printed part w
  label_nonneg : 0 ≤ w.label
  label_lt : w.label < 100000
  noData : ∀ inst ∈ w.retInsts, ¬ "data:".toList <:+: Text.rstrip (inst.drop 8)
  lineText : ∀ inst ∈ w.retInsts, Text.IsLineText (inst.drop 8)

/-- A word that the format can hold. -/
structure Readable (part : Part) (w : Word) : Prop where
  made : Made part w
  label_nonneg : 0 ≤ w.label
  label_lt : w.label < 100000
  short : ∀ inst ∈ w.retInsts, (Text.rstrip (inst.drop 8)).length ≤ 42
  noData : ∀ inst ∈ w.retInsts, ¬ "data:".toList <:+: Text.rstrip (inst.drop 8)
  lineText : ∀ inst ∈ w.retInsts, Text.IsLineText (inst.drop 8)

theorem Readable.columned {part : Part} {w : Word} (h : Readable part w) : Columned part w :=
  ⟨h.made.printed, h.label_nonneg, h.label_lt, h.noData, h.lineText⟩

namespace Columned

variable {part : Part} {w : Word}

/-- A line of the word in its columns. -/
theorem isLine (h : Columned part w) {label : Option ℤ} {columns inst : Text} {int : ℤ}
    (hinst : inst ∈ w.retInsts) (hcolumns : Columns part label columns)
    (hin : InColumns columns inst) (h₀ : 0 ≤ int) (hle : int ≤ 15) :
    IsLine part label (inst.drop 8) inst int := by
  obtain ⟨text, hwide, rfl⟩ := hin
  have hdrop : (columns ++ text).drop 8 = text := List.drop_left' hcolumns.length
  exact {
    columns := ⟨columns, hcolumns, by rw [hdrop]⟩
    wide := by rwa [hdrop]
    noData := h.noData _ hinst
    lineText := h.lineText _ hinst
    int_nonneg := h₀
    int_le := hle }

/-- The first line of a word has its label, the others have blanks. -/
theorem lines (h : Columned part w) : ∃ first rest, w.retInsts = first :: rest ∧
    (∀ int : ℤ, 0 ≤ int → int ≤ 15 → IsLine part (some w.label) (first.drop 8) first int) ∧
    ∀ inst ∈ rest, ∀ int : ℤ, 0 ≤ int → int ≤ 15 →
      IsLine part none (inst.drop 8) inst int := by
  obtain ⟨first, rest, hlines, hfirst, hrest⟩ := h.printed.lines
  refine ⟨first, rest, hlines, fun int h₀ hle ↦ ?_, fun inst hinst int h₀ hle ↦ ?_⟩
  · have hmem : first ∈ w.retInsts := hlines ▸ List.mem_cons_self
    exact h.isLine hmem (.label w.label h.label_nonneg h.label_lt)
      (hfirst h.label_nonneg h.label_lt) h₀ hle
  · have hmem : inst ∈ w.retInsts := hlines ▸ List.mem_cons_of_mem first hinst
    exact h.isLine hmem .blanks (hrest inst hinst) h₀ hle

end Columned

namespace Reader

/-- Every label read has been counted. -/
def Counted (r : Reader) : Prop := ∀ part, r.num part = (r.tuples part).length

/-- The reader inside a word of which it has read some lines. -/
def inWord (r : Reader) (part : Part) (label : ℤ) (texts : List Text) (ints : List ℤ) : Reader where
  ints := if part = .mainPart then r.ints ++ ints else r.ints
  tuples := Function.update r.tuples part (r.tuples part ++ [(label, texts)])
  num := Function.update r.num part (r.num part + 1)
  part := some part
  tmp := some (part, r.num part + 1)

theorem Counted.inWord {r : Reader} (h : r.Counted) (part : Part) (label : ℤ)
    (texts : List Text) (ints : List ℤ) : (r.inWord part label texts ints).Counted := by
  intro other
  by_cases hother : other = part
  · subst hother
    simp [Reader.inWord, h other]
  · simp [Reader.inWord, hother, h other]

/-- A line that leads into a word continues it. -/
theorem readLine_inWord {r r' : Reader} (hr : r.Counted) {part : Part} {label : ℤ}
    {texts : List Text} {ints : List ℤ} {lineLabel : Option ℤ} {text inst : Text} {int : ℤ}
    (h : IsLine part lineLabel text inst int)
    (henter : r'.enter (printLine part inst int ++ ['\n']) =
      .ok (r.inWord part label texts ints)) :
    r'.readLine (printLine part inst int ++ ['\n']) =
      .ok (r.inWord part label (texts ++ [text.take 42]) (ints ++ [int])) := by
  have hmodify : (r.tuples part ++ [(label, texts)]).modify (r.tuples part).length
      (fun tup ↦ (tup.1, tup.2 ++ [text.take 42])) =
      r.tuples part ++ [(label, texts ++ [text.take 42])] := by
    simp [List.modify_eq_take_cons_drop]
  have happend : (r.inWord part label texts ints).append (text.take 42) =
      .ok (r.inWord part label (texts ++ [text.take 42]) ints) := by
    simp [append, inWord, hr part, hmodify]
  rw [readLine, henter, ok_bind, h.slice_text, happend, ok_bind]
  by_cases hpart : part = .mainPart
  · subst hpart
    rw [h.int_slice]
    simp [inWord, pure, Except.pure]
  · simp [inWord, hpart, pure, Except.pure]

theorem linePart_printLine {part : Part} {label : Option ℤ} {text inst : Text} {int : ℤ}
    (h : IsLine part label text inst int) :
    linePart (printLine part inst int ++ ['\n']) = label.map fun _ ↦ part := by
  rw [h.printLine_eq]
  obtain ⟨columns, hcolumns, rfl⟩ := h.columns
  rw [List.append_assoc, List.append_assoc]
  exact hcolumns.linePart _

/-- The line with the label begins the word. -/
theorem readLine_label {r : Reader} (hr : r.Counted) {part : Part} {label : ℤ} {text inst : Text}
    {int : ℤ} (h : IsLine part (some label) text inst int) :
    r.readLine (printLine part inst int ++ ['\n']) =
      .ok (r.inWord part label [text.take 42] [int]) := by
  have hlabel : readLabel (printLine part inst int ++ ['\n']) (r.tuples part) =
      .ok (r.tuples part ++ [(label, [])]) := by
    rw [h.printLine_eq]
    obtain ⟨columns, hcolumns, rfl⟩ := h.columns
    rw [List.append_assoc, List.append_assoc]
    exact hcolumns.readLabel _ _
  change _ = Except.ok (r.inWord part label ([] ++ [text.take 42]) ([] ++ [int]))
  apply readLine_inWord hr h
  rw [enter, linePart_printLine h, Option.map_some]
  simp only [hlabel, ok_bind]
  simp [inWord, pure, Except.pure]

/-- A line with blanks continues it. -/
theorem readLine_blanks {r : Reader} (hr : r.Counted) {part : Part} {label : ℤ}
    {texts : List Text} {ints : List ℤ} {text inst : Text} {int : ℤ}
    (h : IsLine part none text inst int) :
    (r.inWord part label texts ints).readLine (printLine part inst int ++ ['\n']) =
      .ok (r.inWord part label (texts ++ [text.take 42]) (ints ++ [int])) := by
  apply readLine_inWord hr h
  rw [enter, linePart_printLine h]
  rfl

/-- An interrupt value fits into four binary digits. -/
def IsInt (int : ℤ) : Prop := 0 ≤ int ∧ int ≤ 15

/-- The lines of a part, as they are read. -/
def lines (part : Part) (insts : List Text) (ints : List ℤ) : List Text :=
  (insts.zip ints).map fun entry ↦ printLine part entry.1 entry.2 ++ ['\n']

theorem lines_append (part : Part) {insts : List Text} {ints : List ℤ}
    (h : insts.length = ints.length) (insts' : List Text) (ints' : List ℤ) :
    lines part (insts ++ insts') (ints ++ ints') = lines part insts ints ++ lines part insts' ints' := by
  rw [lines, List.zip_append h, List.map_append]
  rfl

theorem foldlM_blanks {r : Reader} (hr : r.Counted) {part : Part} {label : ℤ}
    {insts : List Text} {ints : List ℤ} (hlength : insts.length = ints.length)
    (hints : ∀ int ∈ ints, IsInt int)
    (h : ∀ inst ∈ insts, ∀ int : ℤ, 0 ≤ int → int ≤ 15 →
      IsLine part none (inst.drop 8) inst int) (texts : List Text) (ints₀ : List ℤ) :
    (lines part insts ints).foldlM readLine (r.inWord part label texts ints₀) =
      .ok (r.inWord part label (texts ++ insts.map fun inst ↦ (inst.drop 8).take 42)
        (ints₀ ++ ints)) := by
  induction insts generalizing ints texts ints₀ with
  | nil =>
    obtain rfl := List.eq_nil_of_length_eq_zero hlength.symm
    simp [lines, pure, Except.pure]
  | cons inst insts ih =>
    cases ints with
    | nil => exact nomatch hlength
    | cons int ints =>
      obtain ⟨h₀, hle⟩ := hints int List.mem_cons_self
      have hline := h inst List.mem_cons_self int h₀ hle
      have hrest := ih (by simpa using hlength)
        (fun int hint ↦ hints int (List.mem_cons_of_mem _ hint))
        (fun inst hinst ↦ h inst (List.mem_cons_of_mem _ hinst))
        (texts ++ [(inst.drop 8).take 42]) (ints₀ ++ [int])
      calc
        (lines part (inst :: insts) (int :: ints)).foldlM readLine
            (r.inWord part label texts ints₀)
            = (lines part insts ints).foldlM readLine
              (r.inWord part label (texts ++ [(inst.drop 8).take 42]) (ints₀ ++ [int])) := by
          rw [lines, List.zip_cons_cons, List.map_cons, List.foldlM_cons,
            readLine_blanks hr hline, ok_bind]
          rfl
        _ = _ := by
          rw [hrest, List.append_assoc, List.append_assoc]
          rfl

/-- The lines of a word are read as the word. -/
theorem foldlM_word {r : Reader} (hr : r.Counted) {part : Part} {w : Word}
    (hw : Columned part w) {ints : List ℤ} (hlength : w.retInsts.length = ints.length)
    (hints : ∀ int ∈ ints, IsInt int) :
    (lines part w.retInsts ints).foldlM readLine r =
      .ok (r.inWord part w.label (wordTuple w).2 ints) := by
  obtain ⟨first, rest, hlines, hfirst, hrest⟩ := hw.lines
  rw [wordTuple, hlines]
  cases ints with
  | nil =>
    rw [hlines] at hlength
    exact nomatch hlength
  | cons int ints =>
    obtain ⟨h₀, hle⟩ := hints int List.mem_cons_self
    have hlength' : rest.length = ints.length := by
      rw [hlines] at hlength
      simpa using hlength
    rw [lines, List.zip_cons_cons, List.map_cons, List.foldlM_cons,
      readLine_label hr (hfirst int h₀ hle), ok_bind]
    exact foldlM_blanks hr hlength' (fun int hint ↦ hints int (List.mem_cons_of_mem _ hint))
      hrest [(first.drop 8).take 42] [int]

/-- What the reader knows after the words of a part. -/
structure Reads (part : Part) (words : List Word) (ints : List ℤ) (r r' : Reader) : Prop where
  tuples : r'.tuples = Function.update r.tuples part (r.tuples part ++ words.map wordTuple)
  ints : r'.ints = if part = .mainPart then r.ints ++ ints else r.ints
  counted : r'.Counted

theorem foldlM_words {r : Reader} (hr : r.Counted) {part : Part} {words : List Word}
    (hwords : ∀ w ∈ words, Columned part w) {ints : List ℤ}
    (hlength : (words.flatMap retInsts).length = ints.length) (hints : ∀ int ∈ ints, IsInt int) :
    ∃ r', (lines part (words.flatMap retInsts) ints).foldlM readLine r = .ok r' ∧
      Reads part words ints r r' := by
  induction words generalizing r ints with
  | nil =>
    obtain rfl := List.eq_nil_of_length_eq_zero hlength.symm
    refine ⟨r, rfl, ?_, ?_, hr⟩
    · rw [List.map_nil, List.append_nil, Function.update_eq_self]
    · rw [List.append_nil, ite_self]
  | cons w words ih =>
    rw [List.flatMap_cons, List.length_append] at hlength
    have hsplit : ints = ints.take w.retInsts.length ++ ints.drop w.retInsts.length :=
      (List.take_append_drop _ _).symm
    have htake : w.retInsts.length = (ints.take w.retInsts.length).length := by
      rw [List.length_take]
      omega
    have hword := foldlM_word hr (hwords w List.mem_cons_self) htake
      fun int hint ↦ hints int (List.mem_of_mem_take hint)
    have hdrop : (words.flatMap retInsts).length = (ints.drop w.retInsts.length).length := by
      rw [List.length_drop]
      omega
    obtain ⟨r', hrun, hreads⟩ := ih
      (hr.inWord part w.label (wordTuple w).2 (ints.take w.retInsts.length))
      (fun w hw ↦ hwords w (List.mem_cons_of_mem _ hw)) hdrop
      fun int hint ↦ hints int (List.mem_of_mem_drop hint)
    refine ⟨r', ?_, ?_, ?_, hreads.counted⟩
    · rw [List.flatMap_cons]
      conv_lhs => rw [hsplit]
      rw [lines_append part htake, List.foldlM_append, hword, ok_bind, hrun]
    · rw [hreads.tuples]
      simp [inWord, wordTuple]
    · rw [hreads.ints]
      by_cases hpart : part = .mainPart
      · simp [inWord, hpart, List.take_append_drop]
      · simp [inWord, hpart]

end Reader

end ProcessorFuzz.Mutation
