import ProcessorFuzz.Library.Reading

/-!
# Comma separated values

The excel dialect of Python's `csv`. A writer puts a field into quotes when it has a comma, a quote
or a line break in it, doubles the quotes inside, and ends a row with `'\r\n'`. A reader feeds the
lines of a file to a state machine, one character at a time, and a quoted field may go on in the
next line.

What was written is read back, as long as no field has a carriage return in it, which a file opened
in text mode loses, and none is longer than the limit of the reader.
-/

namespace ProcessorFuzz.Library.Csv

def isBreak (c : Char) : Bool := c == '\n' || c == '\r'

/-- The characters that force quotes. -/
def isSpecial (c : Char) : Bool := c == ',' || c == '\"' || isBreak c

def doubleQuotes (field : Text) : Text :=
  field.flatMap fun c ↦ if c = '\"' then ['\"', '\"'] else [c]

def isQuoted (alone : Bool) (field : Text) : Bool :=
  field.any isSpecial || (alone && field.isEmpty)

/-- A field. One that is alone in its row is also put into quotes when it is empty. -/
def writeField (alone : Bool) (field : Text) : Text :=
  if isQuoted alone field then '\"' :: doubleQuotes field ++ ['\"'] else field

/-- The fields of a row behind the first one. -/
def writeFields (fields : List Text) : Text :=
  fields.flatMap fun field ↦ ',' :: writeField false field

def writeRow : List Text → Text
  | [] => "\r\n".toList
  | field :: fields => writeField fields.isEmpty field ++ writeFields fields ++ "\r\n".toList

def writeRows (rows : List (List Text)) : Text := rows.flatMap writeRow

inductive State
  | startRecord
  | startField
  | inField
  | inQuotedField
  | quoteInQuotedField
  | eatCrnl
  deriving DecidableEq, Repr

structure Reader where
  state : State
  field : Text
  fields : List Text
  deriving DecidableEq, Repr

/-- `csv.field_size_limit()` -/
def fieldLimit : ℕ := 131072

namespace Reader

def start : Reader := ⟨.startRecord, [], []⟩

/-- `parse_save_field` -/
def saveField (r : Reader) (state : State) : Reader := ⟨state, [], r.fields ++ [r.field]⟩

/-- `parse_add_char` -/
def addChar (r : Reader) (state : State) (c : Char) : Option Reader :=
  if r.field.length < fieldLimit then some ⟨state, r.field ++ [c], r.fields⟩ else none

/-- The state `START_FIELD`. -/
def feedStart (r : Reader) (c : Char) : Option Reader :=
  if isBreak c then some (r.saveField .eatCrnl)
  else if c = '\"' then some { r with state := .inQuotedField }
  else if c = ',' then some (r.saveField .startField)
  else r.addChar .inField c

/-- `parse_process_char` of a character of the line; none when it raises `csv.Error`. -/
def feed (r : Reader) (c : Char) : Option Reader :=
  match r.state with
  | .startRecord => if isBreak c then some { r with state := .eatCrnl } else r.feedStart c
  | .startField => r.feedStart c
  | .inField =>
    if isBreak c then some (r.saveField .eatCrnl)
    else if c = ',' then some (r.saveField .startField)
    else r.addChar .inField c
  | .inQuotedField =>
    if c = '\"' then some { r with state := .quoteInQuotedField } else r.addChar .inQuotedField c
  | .quoteInQuotedField =>
    if c = '\"' then r.addChar .inQuotedField c
    else if c = ',' then some (r.saveField .startField)
    else if isBreak c then some (r.saveField .eatCrnl)
    else r.addChar .inField c
  | .eatCrnl => if isBreak c then some r else none

/-- `parse_process_char` of the end of a line. -/
def endLine (r : Reader) : Reader :=
  match r.state with
  | .startRecord => r
  | .startField | .inField | .quoteInQuotedField => r.saveField .startRecord
  | .inQuotedField => r
  | .eatCrnl => { r with state := .startRecord }

/-- The rows of the lines. A record that is open at the end of the file is returned as it is. -/
def readRows : Reader → List Text → Option (List (List Text))
  | r, [] =>
    if r.field ≠ [] ∨ r.state = .inQuotedField then some [r.fields ++ [r.field]] else some []
  | r, line :: lines => do
    let r ← line.foldlM feed r
    if r.endLine.state = .startRecord then
      let rows ← readRows start lines
      return r.endLine.fields :: rows
    else readRows r.endLine lines

end Reader

/-- `list(csv.reader(fd))` of a file opened in text mode. -/
def readRows (contents : Text) : Option (List (List Text)) :=
  Reader.start.readRows (Text.readlines contents)

namespace Reader

/-- The state machine on the characters of a file whose last line is complete. -/
def readText : Reader → Text → Option (List (List Text))
  | r, [] => readRows r []
  | r, c :: text => do
    let r ← r.feed c
    if c = '\n' then
      if r.endLine.state = .startRecord then
        let rows ← readText start text
        return r.endLine.fields :: rows
      else readText r.endLine text
    else readText r text

theorem readRows_linesFrom {text : Text} (htext : ∀ c ∈ text.getLast?, c = '\n')
    {current : Text} (hcurrent : text = [] → current = []) (r : Reader) :
    r.readRows (Text.linesFrom current text) = current.foldlM feed r >>= fun r ↦ r.readText text := by
  induction text generalizing current r with
  | nil =>
    rw [hcurrent rfl]
    rfl
  | cons c text ih =>
    have hlast : ∀ d ∈ text.getLast?, d = '\n' := by
      intro d hd
      refine htext d ?_
      cases text with
      | nil => exact nomatch hd
      | cons e text => rwa [List.getLast?_cons_cons]
    have hfold : (current ++ [c]).foldlM feed r = current.foldlM feed r >>= fun r ↦ r.feed c := by
      rw [List.foldlM_append]
      simp
    by_cases hc : c = '\n'
    · have hnext (r : Reader) : r.readRows (Text.linesFrom [] text) = r.readText text := by
        rw [ih hlast fun _ ↦ rfl]
        rfl
      rw [Text.linesFrom, if_pos hc, readRows, hfold, bind_assoc]
      simp only [readText, if_pos hc, hnext]
    · have hne : text ≠ [] := by
        rintro rfl
        exact hc (htext c rfl)
      rw [Text.linesFrom, if_neg hc, ih hlast fun h ↦ absurd h hne, hfold, bind_assoc]
      simp only [readText, if_neg hc]

/-- A field that the file can hold. -/
structure Holds (field : Text) : Prop where
  noReturn : '\r' ∉ field
  short : field.length ≤ fieldLimit

/-- The reader behind a field and in front of its delimiter. -/
def behind (r : Reader) (alone : Bool) (field : Text) : Reader :=
  if isQuoted alone field then ⟨.quoteInQuotedField, field, r.fields⟩
  else if field = [] then r
  else ⟨.inField, field, r.fields⟩

theorem readText_quoted {field : Text} (hreturn : '\r' ∉ field) (before : Text)
    (hshort : (before ++ field).length ≤ fieldLimit) (fields : List Text) (rest : Text) :
    readText ⟨.inQuotedField, before, fields⟩ (doubleQuotes field ++ rest) =
      readText ⟨.inQuotedField, before ++ field, fields⟩ rest := by
  induction field generalizing before with
  | nil => rw [List.append_nil]; rfl
  | cons c field ih =>
    have hlt : before.length < fieldLimit := by
      rw [List.length_append, List.length_cons] at hshort
      omega
    have hnext := ih (List.not_mem_of_not_mem_cons hreturn) (before ++ [c]) (by simpa using hshort)
    rw [List.append_assoc, List.singleton_append] at hnext
    by_cases hquote : c = '\"'
    · subst hquote
      have hdouble : doubleQuotes ('\"' :: field) ++ rest =
          '\"' :: '\"' :: (doubleQuotes field ++ rest) := by
        simp [doubleQuotes]
      rw [hdouble]
      simpa [readText, feed, addChar, hlt] using hnext
    · have hsingle : doubleQuotes (c :: field) ++ rest = c :: (doubleQuotes field ++ rest) := by
        simp [doubleQuotes, hquote]
      rw [hsingle, readText]
      simpa [feed, addChar, hlt, hquote, endLine] using hnext

theorem readText_plain {field : Text} (hplain : ∀ c ∈ field, isSpecial c = false) (before : Text)
    (hshort : (before ++ field).length ≤ fieldLimit) (fields : List Text) (rest : Text) :
    readText ⟨.inField, before, fields⟩ (field ++ rest) =
      readText ⟨.inField, before ++ field, fields⟩ rest := by
  induction field generalizing before with
  | nil => rw [List.append_nil, List.nil_append]
  | cons c field ih =>
    obtain ⟨hc, hrest⟩ := List.forall_mem_cons.mp hplain
    have hlt : before.length < fieldLimit := by
      rw [List.length_append, List.length_cons] at hshort
      omega
    have hnext := ih hrest (before ++ [c]) (by simpa using hshort)
    rw [List.append_assoc, List.singleton_append] at hnext
    simp only [isSpecial, isBreak, Bool.or_eq_false_iff, beq_eq_false_iff_ne] at hc
    rw [List.cons_append, readText]
    simpa [feed, isBreak, addChar, hlt, hc] using hnext

/-- A field is read character by character. -/
theorem readText_writeField {field : Text} (hfield : Holds field) {r : Reader}
    (hstate : r.state = .startRecord ∨ r.state = .startField) (hr : r.field = []) (alone : Bool)
    (rest : Text) :
    r.readText (writeField alone field ++ rest) = (r.behind alone field).readText rest := by
  have hfeed (c : Char) (hc : isBreak c = false) : r.feed c = r.feedStart c := by
    rcases hstate with h | h <;> simp [feed, h, hc]
  by_cases hquoted : isQuoted alone field = true
  · have hopen : r.readText (writeField alone field ++ rest) =
        readText ⟨.inQuotedField, [], r.fields⟩ (doubleQuotes field ++ '\"' :: rest) := by
      rw [writeField, if_pos hquoted, List.cons_append, List.cons_append, readText, hfeed _ rfl]
      simp [feedStart, isBreak, hr]
    rw [hopen, readText_quoted hfield.noReturn [] (by simpa using hfield.short)]
    simp [readText, feed, behind, hquoted]
  · have hplain : ∀ c ∈ field, isSpecial c = false := by
      rw [isQuoted, Bool.or_eq_true, not_or] at hquoted
      simpa using hquoted.1
    rw [writeField, if_neg hquoted]
    cases field with
    | nil => rw [behind, if_neg hquoted, if_pos rfl, List.nil_append]
    | cons c field =>
      obtain ⟨hc, hrest⟩ := List.forall_mem_cons.mp hplain
      have hbreak : isBreak c = false := (Bool.or_eq_false_iff.mp hc).2
      have hfirst : r.feed c = some ⟨.inField, [c], r.fields⟩ := by
        have hlt : 0 < fieldLimit := by decide
        simp only [isSpecial, isBreak, Bool.or_eq_false_iff, beq_eq_false_iff_ne] at hc
        rw [hfeed c hbreak]
        simp [feedStart, isBreak, addChar, hr, hc, hlt]
      have hnl : c ≠ '\n' := by
        rintro rfl
        exact absurd hbreak (by decide)
      rw [List.cons_append, readText, hfirst]
      simp only [Option.bind_eq_bind, Option.bind_some, if_neg hnl]
      rw [readText_plain hrest [c] (by simpa using hfield.short), behind, if_neg hquoted,
        if_neg (List.cons_ne_nil c field)]
      rfl

theorem readText_comma {r : Reader} (hr : r.state = .startRecord ∨ r.state = .startField)
    (hfield : r.field = []) (alone : Bool) (field rest : Text) :
    (r.behind alone field).readText (',' :: rest) =
      readText ⟨.startField, [], r.fields ++ [field]⟩ rest := by
  rw [readText, behind]
  split
  · simp [feed, saveField]
  · split
    · next hnil =>
      rcases hr with h | h <;> simp [feed, feedStart, isBreak, saveField, h, hfield, hnil]
    · simp [feed, isBreak, saveField]

/-- The end of a row whose last field is not the only one, or is not empty, or is in quotes. -/
theorem readText_break {r : Reader} (hfield : r.field = []) {alone : Bool} {field : Text}
    (hstart : r.state = .startField ∨ alone = true) (rest : Text) :
    (r.behind alone field).readText ('\n' :: rest) =
      readText start rest >>= fun rows ↦ some ((r.fields ++ [field]) :: rows) := by
  rw [readText, behind]
  split
  · simp [feed, isBreak, saveField, endLine, pure]
  · next hquoted =>
    split
    · next hnil =>
      have hstate : r.state = .startField := by
        rcases hstart with h | rfl
        · exact h
        · exact absurd (by simp [isQuoted, hnil]) hquoted
      simp [feed, feedStart, isBreak, saveField, endLine, hstate, hfield, hnil, pure]
    · simp [feed, isBreak, saveField, endLine, pure]

/-- The fields behind the first one, to the end of the row. -/
theorem readText_writeFields {fields : List Text} (hfields : ∀ field ∈ fields, Holds field)
    {r : Reader} (hr : r.state = .startRecord ∨ r.state = .startField) (hfield : r.field = [])
    {alone : Bool} {field : Text} (hstart : r.state = .startField ∨ alone = fields.isEmpty)
    (rest : Text) :
    (r.behind alone field).readText (writeFields fields ++ '\n' :: rest) =
      readText start rest >>= fun rows ↦ some ((r.fields ++ field :: fields) :: rows) := by
  induction fields generalizing r field alone with
  | nil => exact readText_break hfield hstart rest
  | cons next fields ih =>
    obtain ⟨hnext, hrest⟩ := List.forall_mem_cons.mp hfields
    have hwrite : writeFields (next :: fields) ++ '\n' :: rest =
        ',' :: (writeField false next ++ (writeFields fields ++ '\n' :: rest)) := by
      simp [writeFields]
    rw [hwrite, readText_comma hr hfield, readText_writeField hnext (.inr rfl) rfl,
      ih hrest (.inr rfl) rfl (.inl rfl)]
    simp

end Reader

open Reader

/-- A row as it stands in a file that was opened in text mode. -/
theorem readText_writeRow {row : List Text} (hrow : ∀ field ∈ row, Holds field) (rest : Text) :
    ∃ line, writeRow row = line ++ "\r\n".toList ∧ '\r' ∉ line ∧
      readText Reader.start (line ++ '\n' :: rest) =
        readText Reader.start rest >>= fun rows ↦ some (row :: rows) := by
  have hwrite (alone : Bool) (field : Text) (hfield : Holds field) :
      '\r' ∉ writeField alone field := by
    have hdouble : '\r' ∉ doubleQuotes field := by
      intro hmem
      obtain ⟨c, hc, hin⟩ := List.mem_flatMap.mp hmem
      split at hin
      · simp at hin
      · exact hfield.noReturn (List.mem_singleton.mp hin ▸ hc)
    rw [writeField]
    split
    · simpa using hdouble
    · exact hfield.noReturn
  cases row with
  | nil => exact ⟨[], rfl, List.not_mem_nil, by simp [readText, feed, isBreak, endLine, pure]; rfl⟩
  | cons field fields =>
    obtain ⟨hfield, hfields⟩ := List.forall_mem_cons.mp hrow
    refine ⟨writeField fields.isEmpty field ++ writeFields fields, rfl, ?_, ?_⟩
    · intro hmem
      rcases List.mem_append.mp hmem with hmem | hmem
      · exact hwrite _ field hfield hmem
      · obtain ⟨next, hnext, hin⟩ := List.mem_flatMap.mp hmem
        rcases List.mem_cons.mp hin with heq | hin
        · exact absurd heq (by decide)
        · exact hwrite false next (hfields next hnext) hin
    · rw [List.append_assoc, readText_writeField hfield (.inl rfl) rfl,
        readText_writeFields hfields (.inl rfl) rfl (.inr rfl)]
      rfl

theorem translateNewlines_line {line : Text} (h : '\r' ∉ line) (rest : Text) :
    Text.translateNewlines (line ++ "\r\n".toList ++ rest) =
      line ++ '\n' :: Text.translateNewlines rest := by
  induction line with
  | nil => rfl
  | cons c line ih =>
    obtain ⟨hc, hline⟩ := not_or.mp (mt List.mem_cons.mpr h)
    rw [List.cons_append, List.cons_append, Text.translateNewlines_cons (Ne.symm hc), ih hline,
      List.cons_append]

/-- The file as it is read: every row ends with a line feed. -/
theorem translateNewlines_writeRows {rows : List (List Text)}
    (hrows : ∀ row ∈ rows, ∀ field ∈ row, Holds field) :
    (∀ c ∈ (Text.translateNewlines (writeRows rows)).getLast?, c = '\n') ∧
      Reader.start.readText (Text.translateNewlines (writeRows rows)) = some rows := by
  induction rows with
  | nil => exact ⟨fun c hc ↦ absurd hc (by simp [writeRows, Text.translateNewlines]), rfl⟩
  | cons row rows ih =>
    obtain ⟨hrow, hrest⟩ := List.forall_mem_cons.mp hrows
    obtain ⟨hlast, hread⟩ := ih hrest
    obtain ⟨line, hline, hreturn, hfirst⟩ :=
      readText_writeRow hrow (Text.translateNewlines (writeRows rows))
    have htext : Text.translateNewlines (writeRows (row :: rows)) =
        line ++ '\n' :: Text.translateNewlines (writeRows rows) := by
      rw [writeRows, List.flatMap_cons, hline, translateNewlines_line hreturn]
      rfl
    rw [htext]
    constructor
    · intro c hc
      rw [List.getLast?_append, List.getLast?_cons] at hc
      cases hl : (Text.translateNewlines (writeRows rows)).getLast? with
      | none => simpa [hl, eq_comm] using hc
      | some d =>
        have hd : d = c := by simpa [hl] using hc
        exact hd ▸ hlast d hl
    · rw [hfirst, hread]
      rfl

/-- The rows that were written are the rows that are read. -/
theorem readRows_writeRows {rows : List (List Text)}
    (hrows : ∀ row ∈ rows, ∀ field ∈ row, Holds field) : readRows (writeRows rows) = some rows := by
  obtain ⟨hlast, hread⟩ := translateNewlines_writeRows hrows
  rw [readRows, Text.readlines, readRows_linesFrom hlast fun _ ↦ rfl]
  exact hread

end ProcessorFuzz.Library.Csv
