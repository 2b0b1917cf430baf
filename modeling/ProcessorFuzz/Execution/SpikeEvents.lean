import ProcessorFuzz.Execution.TraceCsv

/-!
# The log of a simulation

With `-l` and `--log-commits` the Spike fork writes a line for every instruction, for its effects,
for a trap and for repetitions. None of these lines is recognized by `CORE_RE`. So the trace file of
a simulation has no row, and what `trace_compare` returns depends on the RTL log alone.
-/

namespace ProcessorFuzz.Execution.SpikeEvents

open Library SpikeLog SpikeTrace TraceCsv
open Common.TraceCompare (Toplevel isDelayed findStart compareRows comparison traceCompare)

/-- A text that Spike prints with `%s`: a disassembly, the name of a trap or of a register. None of
them has a bracket. -/
abbrev Printed := { text : Text // '[' ∉ text ∧ Text.IsLineText text }

/-- `commit_log_print_value` of a number of so many bytes. -/
def valueText (bytes : ℕ) (value : UInt64) : Text :=
  "0x".toList ++ Text.hexPad (if bytes = 1 then 1 else 2 * bytes) value.toNat

/-- An entry of `log_reg_write`. -/
inductive RegWrite
  | xreg (rd : ℕ) (value : UInt64)
  | freg (rd : ℕ) (value : UInt64)
  | csr (number : ℕ) (name : Printed) (value : UInt64)

def RegWrite.text : RegWrite → Text
  | xreg rd value => " x".toList ++ Text.decPad 2 rd ++ " ".toList ++ valueText 8 value
  | freg rd value => " f".toList ++ Text.decPad 2 rd ++ " ".toList ++ valueText 8 value
  | csr number name value =>
    " c".toList ++ Text.dec number ++ "_".toList ++ name ++ " ".toList ++ valueText 8 value

/-- An entry of `log_mem_write`. -/
structure Store where
  addr : UInt64
  value : UInt64
  bytes : ℕ

def loadText (addr : UInt64) : Text := " mem ".toList ++ valueText 8 addr

def Store.text (store : Store) : Text :=
  " mem ".toList ++ valueText 8 store.addr ++ " ".toList ++ valueText store.bytes store.value

/-- What Spike reports: an instruction, repetitions of one, a trap, its value and the effects of an
instruction. -/
inductive Event
  | instruction (id : UInt32) (state : State) (bits : UInt64) (disassembly : Printed)
  | executed (id : UInt32) (executions : UInt64)
  | exception (id : UInt32) (name : Printed) (epc : UInt64)
  | tval (id : UInt32) (value : UInt64)
  | commit (priv : ℕ) (pc : UInt64) (length : ℕ) (bits : UInt64) (writes : List RegWrite)
    (loads : List UInt64) (stores : List Store)

/-- `core %3d:` -/
def coreText (id : UInt32) : Text := "core ".toList ++ Text.decPad 3 id.toNat ++ ":".toList

/-- A line without its line feed. -/
def Event.text : Event → Text
  | instruction id state bits disassembly =>
    lineHeader id state bits ++ "[".toList ++ csrValues state ++ "]".toList ++ " ".toList ++
      disassembly
  | executed id executions =>
    coreText id ++ " Executed ".toList ++ Text.hex executions.toNat ++ " times".toList
  | exception id name epc =>
    coreText id ++ " exception ".toList ++ name ++ ", epc ".toList ++ valueText 8 epc
  | tval id value => coreText id ++ "           tval ".toList ++ valueText 8 value
  | commit priv pc length bits writes loads stores =>
    Text.dec priv ++ " ".toList ++ valueText 8 pc ++ " (".toList ++ valueText length bits ++
      ")".toList ++ writes.flatMap RegWrite.text ++ loads.flatMap loadText ++
      stores.flatMap Store.text

def Event.IsInstruction : Event → Prop
  | instruction .. => True
  | _ => False

/-- The log file. -/
def logText (events : List Event) : Text := events.flatMap fun event ↦ event.text ++ ['\n']

/-- The characters that neither a number nor the punctuation of the log has. -/
def Foreign (c : Char) : Prop := c = '[' ∨ c = '\n' ∨ c = '\r'

theorem Foreign.not_hex {c : Char} (h : Foreign c) : Text.isHexDigit c = false := by
  rcases h with rfl | rfl | rfl <;> rfl

theorem Foreign.not_decPad {c : Char} (h : Foreign c) (width n : ℕ) : c ∉ Text.decPad width n := by
  have hdigit : c.isDigit = false := by rcases h with rfl | rfl | rfl <;> rfl
  have hblank : c ≠ ' ' := by rcases h with rfl | rfl | rfl <;> decide
  rw [Text.decPad, List.mem_append, not_or]
  exact ⟨fun hmem ↦ hblank (List.eq_of_mem_replicate hmem), Text.not_mem_dec hdigit⟩

theorem Foreign.not_dec {c : Char} (h : Foreign c) (n : ℕ) : c ∉ Text.dec n :=
  Text.not_mem_dec (by rcases h with rfl | rfl | rfl <;> rfl)

theorem Foreign.not_printed {c : Char} (h : Foreign c) (text : Printed) : c ∉ (text : Text) := by
  rcases h with rfl | rfl | rfl
  · exact text.2.1
  · exact fun hmem ↦ (text.2.2 _ hmem).1 rfl
  · exact fun hmem ↦ (text.2.2 _ hmem).2 rfl

theorem Foreign.not_valueText {c : Char} (h : Foreign c) (bytes : ℕ) (value : UInt64) :
    c ∉ valueText bytes value := by
  rw [valueText, List.mem_append, not_or]
  exact ⟨by rcases h with rfl | rfl | rfl <;> decide, not_mem_hexPad h.not_hex _ _⟩

theorem Foreign.not_regWrite {c : Char} (h : Foreign c) (write : RegWrite) : c ∉ write.text := by
  cases write with
  | xreg rd value =>
    simp only [RegWrite.text, List.mem_append, h.not_decPad, h.not_valueText, or_false]
    rcases h with rfl | rfl | rfl <;> decide
  | freg rd value =>
    simp only [RegWrite.text, List.mem_append, h.not_decPad, h.not_valueText, or_false]
    rcases h with rfl | rfl | rfl <;> decide
  | csr number name value =>
    simp only [RegWrite.text, List.mem_append, h.not_dec, h.not_printed, h.not_valueText, or_false]
    rcases h with rfl | rfl | rfl <;> decide

theorem Foreign.not_loadText {c : Char} (h : Foreign c) (addr : UInt64) : c ∉ loadText addr := by
  simp only [loadText, List.mem_append, h.not_valueText, or_false]
  rcases h with rfl | rfl | rfl <;> decide

theorem Foreign.not_store {c : Char} (h : Foreign c) (store : Store) : c ∉ store.text := by
  simp only [Store.text, List.mem_append, h.not_valueText, or_false]
  rcases h with rfl | rfl | rfl <;> decide

theorem Foreign.not_coreText {c : Char} (h : Foreign c) (id : UInt32) : c ∉ coreText id := by
  simp only [coreText, List.mem_append, h.not_decPad, or_false]
  rcases h with rfl | rfl | rfl <;> decide

theorem Foreign.not_hexText {c : Char} (h : Foreign c) (n : ℕ) : c ∉ Text.hex n := by
  intro hmem
  have hdigit := Text.isHexDigit_of_mem_hex hmem
  rw [h.not_hex] at hdigit
  exact Bool.noConfusion hdigit

/-- Only an instruction line has a bracket, and no line has a line break. -/
theorem Foreign.not_text {c : Char} (h : Foreign c) {event : Event}
    (hevent : c ≠ '[' ∨ ¬ event.IsInstruction) : c ∉ event.text := by
  cases event with
  | instruction id state bits disassembly =>
    have hne : c ≠ '[' := hevent.resolve_right fun hnot ↦ hnot trivial
    have hvalues : c ∉ csrValues state := by
      apply not_mem_csrValues state h.not_hex <;> rcases h with rfl | rfl | rfl <;> decide
    unfold Event.text lineHeader
    simp only [List.mem_append, h.not_decPad, h.not_printed,
      not_mem_hexPad h.not_hex, hvalues, or_false]
    rcases h with rfl | rfl | rfl
    · exact absurd rfl hne
    · decide
    · decide
  | executed id executions =>
    simp only [Event.text, List.mem_append, h.not_coreText, h.not_hexText, or_false, false_or]
    rcases h with rfl | rfl | rfl <;> decide
  | exception id name epc =>
    simp only [Event.text, List.mem_append, h.not_coreText, h.not_printed, h.not_valueText, or_false,
      false_or]
    rcases h with rfl | rfl | rfl <;> decide
  | tval id value =>
    simp only [Event.text, List.mem_append, h.not_coreText, h.not_valueText, or_false, false_or]
    rcases h with rfl | rfl | rfl <;> decide
  | commit priv pc length bits writes loads stores =>
    simp only [Event.text, List.mem_append, List.mem_flatMap, h.not_dec, h.not_valueText,
      h.not_regWrite, h.not_loadText, h.not_store, and_false, exists_false, or_false, false_or]
    rcases h with rfl | rfl | rfl <;> decide

theorem isLineText_text (event : Event) : Text.IsLineText event.text := by
  intro c hc
  constructor
  · rintro rfl
    exact Foreign.not_text (.inr (.inl rfl)) (.inl (by decide)) hc
  · rintro rfl
    exact Foreign.not_text (.inr (.inr rfl)) (.inl (by decide)) hc

/-- `CORE_RE` matches no line that Spike writes. -/
theorem match?_event_eq_none (event : Event) : coreRe.match? (event.text ++ ['\n']) = none := by
  have hother (hevent : ¬ event.IsInstruction) :
      coreRe.match? (event.text ++ ['\n']) = none := by
    by_contra hne
    obtain ⟨groups, hmatch⟩ := Option.ne_none_iff_exists'.mp hne
    obtain ⟨before, values, instr, rest, hline, -⟩ := match?_coreRe hmatch
    have hbracket : '[' ∈ event.text ++ ['\n'] := by
      rw [hline]
      simp
    rcases List.mem_append.mp hbracket with hmem | hmem
    · exact Foreign.not_text (.inl rfl) (.inr hevent) hmem
    · exact absurd (List.mem_singleton.mp hmem) (by decide)
  cases event with
  | instruction id state bits disassembly => exact match?_instructionLine_eq_none disassembly.2.1
  | executed | exception | tval | commit => exact hother not_false

theorem readlines_logText (events : List Event) :
    Text.readlines (logText events) = events.map fun event ↦ event.text ++ ['\n'] := by
  have hlines : ∀ line ∈ events.map Event.text, Text.IsLineText line := by
    intro line hline
    obtain ⟨event, -, rfl⟩ := List.mem_map.mp hline
    exact isLineText_text event
  calc
    Text.readlines (logText events)
        = Text.readlines ((events.map Event.text).flatMap fun line ↦ line ++ ['\n']) := by
      rw [logText, List.flatMap_map]
    _ = (events.map Event.text).map fun line ↦ line ++ ['\n'] := Text.readlines_flatMap hlines
    _ = events.map fun event ↦ event.text ++ ['\n'] := by rw [List.map_map]; rfl

theorem readSpikeTrace_logText (events : List Event) :
    readSpikeTrace .trampoline (Text.readlines (logText events)) = [] := by
  apply readSpikeTrace_eq_nil _ (.inl rfl)
  rw [readlines_logText]
  intro line hline
  obtain ⟨event, -, rfl⟩ := List.mem_map.mp hline
  exact match?_event_eq_none event

theorem processSpikeSimLog_logText (events : List Event) :
    processSpikeSimLog (logText events) = .ok (Csv.writeRows [header]) := by
  rw [processSpikeSimLog, readSpikeTrace_logText]
  rfl

theorem readRows_header : Csv.readRows (Csv.writeRows [header]) = some [header] := by
  apply Csv.readRows_writeRows
  intro row hrow field hfield
  obtain rfl := List.mem_singleton.mp hrow
  have hall : ∀ field ∈ header, '\r' ∉ field ∧ field.length ≤ 10 := by decide
  obtain ⟨hreturn, hlength⟩ := hall field hfield
  exact ⟨hreturn, hlength.trans (by decide)⟩

theorem traceCompareFiles_header (rtlLog : Text) (toplevel : Toplevel) :
    traceCompareFiles (Csv.writeRows [header]) rtlLog toplevel = (do
      let _ ← findStart toplevel (Text.readlines rtlLog) 10 0 none
      .ok (if (Text.readlines rtlLog).length = 1 then -1 else 0)) := by
  rw [traceCompareFiles, readRows_header]
  simp only [traceCompare, comparison, List.tail_cons, bind_assoc]
  congr 1
  funext found
  split <;> rfl

/-- The first lines of an RTL log have a program counter, unless they are delayed write-backs. -/
def StartsWell (lines : List Text) : Prop :=
  ∀ i < 10, ∃ line, lines[i]? = some line ∧ (isDelayed line = true ∨ 2 < (Text.words line).length)

/-- The search for the start comes to its end. -/
theorem exists_findStart {lines : List Text} (h : StartsWell lines) (toplevel : Toplevel) :
    ∃ r, findStart toplevel lines 10 0 none = .ok r := by
  have hfrom (fuel x : ℕ) (hfuel : x + fuel = 10) (pcRtl : Option Text) :
      ∃ r, findStart toplevel lines fuel x pcRtl = .ok r := by
    induction fuel generalizing x pcRtl with
    | zero => exact ⟨_, rfl⟩
    | succ fuel ih =>
      obtain ⟨line, hline, hwords⟩ := h x (by omega)
      unfold findStart
      rw [Text.item_of_getElem? hline, ok_bind]
      split
      · exact ih (x + 1) (by omega) pcRtl
      · next hdelayed =>
        have hlt := hwords.resolve_left hdelayed
        have hfield : Text.item (Text.words line) 2 = .ok ((Text.words line)[2]) :=
          Text.item_of_getElem? (List.getElem?_eq_getElem hlt)
        rw [hfield, ok_bind]
        split
        · exact ⟨_, rfl⟩
        · exact ih (x + 1) (by omega) _
  exact hfrom 10 0 rfl none

/-- Whatever Spike has executed, its trace file has the header alone, and the comparison with an RTL
log looks at no instruction. It searches the RTL log for its start, where it raises an exception if
one of the first ten lines is missing or too short, and then returns zero, except for a log of a
single line. -/
theorem traceCompareFiles_logText (events : List Event) (rtlLog : Text) (toplevel : Toplevel) :
    processSpikeSimLog (logText events) = .ok (Csv.writeRows [header]) ∧
      traceCompareFiles (Csv.writeRows [header]) rtlLog toplevel = (do
        let _ ← findStart toplevel (Text.readlines rtlLog) 10 0 none
        .ok (if (Text.readlines rtlLog).length = 1 then -1 else 0)) :=
  ⟨processSpikeSimLog_logText events, traceCompareFiles_header rtlLog toplevel⟩

end ProcessorFuzz.Execution.SpikeEvents
