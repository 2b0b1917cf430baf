import ProcessorFuzz.Execution.SpikeLog
import ProcessorFuzz.Library.Regex

/-!
# Reading the Spike log

`read_spike_trace` scans the log with `CORE_RE` for instruction lines and with the commit
expressions for their effects. The expression expects nine register values, the last one `dcsr`,
while the writer prints eight. The two can therefore never agree: where the expression matches at
all, it matches inside the disassembly, and what it reports as the disassembly is a proper part of
what was written.
-/

namespace ProcessorFuzz.Execution.SpikeTrace

open Library SpikeLog

/-- The group names of the log expressions. -/
inductive Field
  | pri | addr | bin | mstatus | frm | fflags | mcause | scause | medeleg | mcounteren | scounteren
  | dcsr | instr | reg | val | storeAddr | csr
  deriving DecidableEq, Repr

/-- `(?P<name>[a-f0-9]+?)` -/
def hexField (name : Field) : Regex Field := .group name (.rep 1 false Text.isHexDigit)

/-- `(?P<name>.*?)` -/
def lazyField (name : Field) : Regex Field := .group name (.rep 0 false Regex.dot)

/-- `.*` -/
def anything : Regex Field := .rep 0 true Regex.dot

def lit (literal : String) : Regex Field := .text literal.toList

/-- The register values `CORE_RE` asks for. -/
def coreCsrs : List Field :=
  [.mstatus, .frm, .fflags, .mcause, .scause, .medeleg, .mcounteren, .scounteren, .dcsr]

/-- The register values with a comma between two of them, then the rest of the expression. -/
def csrFields (rest : List (Regex Field)) : List Field → List (Regex Field)
  | [] => rest
  | [name] => hexField name :: rest
  | name :: names => hexField name :: lit "," :: csrFields rest names

def coreRe : Regex Field :=
  .concat ([lit "core", anything, lit "0x", hexField .addr, lit " (0x", lazyField .bin, lit ") [0x"] ++
    csrFields [lit "] ", lazyField .instr, .endOfLine] coreCsrs)

/-- `core .*(?P<pri>\\d) 0x(?P<addr>[a-f0-9]+?) \\((?P<bin>.*?)\\)`, the start of every effect line. -/
def effectHead : List (Regex Field) :=
  [lit "core ", anything, .group .pri (.char Regex.digit), lit " 0x", hexField .addr, lit " (",
    lazyField .bin, lit ")"]

def rdRe : Regex Field :=
  .concat (effectHead ++ [anything, lit " ",
    .group .reg (.concat [.char (fun c ↦ c == 'x' || c == 'f'), .rep 0 true Char.isWhitespace,
      .rep 0 false Regex.digit]),
    lit " 0x", .group .val (.rep 1 true Text.isHexDigit)])

def memRe : Regex Field :=
  .concat (effectHead ++ [lit " mem 0x", hexField .storeAddr, lit " 0x",
    .group .val (.rep 1 true Text.isHexDigit)])

def csrRe : Regex Field :=
  .concat (effectHead ++ [lit " c", .rep 1 true Regex.digit, lit "_",
    .group .csr (.rep 1 false fun c ↦ c.isLower || c.isDigit), lit " 0x",
    .group .val (.rep 1 true Text.isHexDigit)])

def otherRe : Regex Field := .concat (effectHead ++ [.endOfLine])

/-- `core.*: 0x0*1010 ` -/
def endTrampolineRe : Regex Field :=
  .concat [lit "core", anything, lit ": 0x", .rep 0 true (· == '0'), lit "1010 "]

/-- The members of `RiscvInstructionTraceEntry` that the parser sets without `full_trace`. -/
structure TraceEntry where
  gpr : List Text := []
  pc : Text := []
  binary : Text := []
  instrStr : Text := []
  mode : Text := []
  mstatus : Text := []
  frm : Text := []
  fflags : Text := []
  mcause : Text := []
  scause : Text := []
  medeleg : Text := []
  mcounteren : Text := []
  scounteren : Text := []
  deriving DecidableEq, Repr

/-- `match.group(name)` of a group that took part in the match. -/
def groupOf (groups : Regex.Groups Field) (name : Field) : Text := (groups.lookup name).getD []

/-- `disasm.replace('pc + ', '').replace('pc - ', '-')` -/
def normalize (disasm : Text) : Text :=
  Text.replace "pc - ".toList "-".toList (Text.replace "pc + ".toList [] disasm)

def readSpikeInstr (groups : Regex.Groups Field) : TraceEntry where
  instrStr := normalize (groupOf groups .instr)
  pc := groupOf groups .addr
  binary := groupOf groups .bin
  mstatus := groupOf groups .mstatus
  frm := groupOf groups .frm
  fflags := groupOf groups .fflags
  mcause := groupOf groups .mcause
  scause := groupOf groups .scause
  medeleg := groupOf groups .medeleg
  mcounteren := groupOf groups .mcounteren
  scounteren := groupOf groups .scounteren

def xregNames : List String :=
  ["zero", "ra", "sp", "gp", "tp", "t0", "t1", "t2", "s0", "s1", "a0", "a1", "a2", "a3", "a4", "a5",
    "a6", "a7", "s2", "s3", "s4", "s5", "s6", "s7", "s8", "s9", "s10", "s11", "t3", "t4", "t5", "t6"]

def fregNames : List String :=
  ["ft0", "ft1", "ft2", "ft3", "ft4", "ft5", "ft6", "ft7", "fs0", "fs1", "fa0", "fa1", "fa2", "fa3",
    "fa4", "fa5", "fa6", "fa7", "fs2", "fs3", "fs4", "fs5", "fs6", "fs7", "fs8", "fs9", "fs10",
    "fs11", "ft8", "ft9", "ft10", "ft11"]

def gprToAbi (gpr : Text) : Text :=
  let switcher := xregNames.mapIdx (fun i name ↦ ('x' :: Text.dec i, name.toList)) ++
    fregNames.mapIdx (fun i name ↦ ('f' :: Text.dec i, name.toList))
  (switcher.lookup gpr).getD "na".toList

/-- What a line that is not an instruction line adds to the entry in hand. -/
def commit (line : Text) (entry : TraceEntry) : TraceEntry :=
  let entry := match rdRe.match? line with
    | some m =>
      { entry with
        gpr := entry.gpr ++ [gprToAbi (Text.replace " ".toList [] (groupOf m .reg)) ++ ":".toList ++
          groupOf m .val]
        mode := groupOf m .pri }
    | none => entry
  let entry := match memRe.match? line with
    | some m => { entry with mode := groupOf m .pri }
    | none => entry
  let entry := match csrRe.match? line with
    | some m =>
      { entry with
        gpr := entry.gpr ++ [groupOf m .csr ++ ":".toList ++ groupOf m .val]
        mode := groupOf m .pri }
    | none => entry
  match otherRe.match? line with
  | some m => { entry with mode := groupOf m .pri }
  | none => entry

/-- The states of the reader's loop. -/
inductive Phase
  | trampoline
  | instr
  | effect (entry : TraceEntry)

/-- `read_spike_trace`: the entries yielded, each with its illegal-instruction flag. -/
def readSpikeTrace : Phase → List Text → List (TraceEntry × Bool)
  | .effect entry, [] => [(entry, false)]
  | _, [] => []
  | .trampoline, line :: rest =>
    if (endTrampolineRe.match? line).isSome then readSpikeTrace .instr rest
    else readSpikeTrace .trampoline rest
  | .instr, line :: rest =>
    match coreRe.match? line with
    | none => readSpikeTrace .instr rest
    | some m =>
      let entry := readSpikeInstr m
      -- the entry in hand is still yielded after the break
      if entry.instrStr = "ecall".toList then [(entry, false)]
      else readSpikeTrace (.effect entry) rest
  | .effect entry, line :: rest =>
    match coreRe.match? line with
    | some m =>
      let next := readSpikeInstr m
      (entry, false) ::
        (if next.instrStr = "ecall".toList then [(next, false)]
        else readSpikeTrace (.effect next) rest)
    | none =>
      if "trap_illegal_instruction".toList <:+: line then
        (entry, true) :: readSpikeTrace .instr rest
      else readSpikeTrace (.effect (commit line entry)) rest

/-- The register values between the brackets of the expression. -/
theorem parses_csrFields {names : List Field} (hnames : names ≠ []) {tail : List (Regex Field)}
    {input rest : Text} {groups : Regex.Groups Field}
    (h : Regex.Parses (.concat (csrFields tail names)) input rest groups) :
    ∃ values after new new', input = values ++ after ∧ groups = new ++ new' ∧
      new.map Prod.fst = names ∧ values.count ',' = names.length - 1 ∧
      (∀ c ∈ values, Text.isHexDigit c = true ∨ c = ',') ∧
      Regex.Parses (.concat tail) after rest new' := by
  induction names generalizing input groups with
  | nil => exact absurd rfl hnames
  | cons name names ih =>
    have hcount : ∀ value : Text, (∀ c ∈ value, Text.isHexDigit c = true) → value.count ',' = 0 :=
      fun value hall ↦ List.count_eq_zero_of_not_mem fun hmem ↦
        absurd (hall ',' hmem) (by decide)
    cases names with
    | nil =>
      obtain ⟨value, after, new, new', hfield, htail, rfl, rfl⟩ :=
        Regex.parses_concat_cons_iff.mp h
      obtain ⟨hall, -, rfl⟩ := Regex.parses_field_iff.mp hfield
      exact ⟨value, after, _, new', rfl, rfl, rfl, hcount value hall,
        fun c hc ↦ .inl (hall c hc), htail⟩
    | cons name' names =>
      obtain ⟨value, after, new, new', hfield, htail, rfl, rfl⟩ :=
        Regex.parses_concat_cons_iff.mp h
      obtain ⟨hall, -, rfl⟩ := Regex.parses_field_iff.mp hfield
      obtain ⟨comma, others, _, _, hcomma, hothers, rfl, rfl⟩ :=
        Regex.parses_concat_cons_iff.mp htail
      obtain ⟨rfl, rfl⟩ := Regex.parses_text_iff.mp hcomma
      obtain ⟨values, after, new, new', rfl, rfl, hnew, hvalues, hchars, hafter⟩ :=
        ih (by simp) hothers
      refine ⟨value ++ ",".toList ++ values, after, (name, value) :: new, new', by simp, by simp,
        by simp [hnew], ?_, ?_, hafter⟩
      · rw [List.count_append, List.count_append, hcount value hall, hvalues]
        simp
        omega
      · intro c hc
        rcases List.mem_append.mp hc with hc | hc
        · rcases List.mem_append.mp hc with hc | hc
          · exact .inl (hall c hc)
          · exact .inr (List.mem_singleton.mp hc)
        · exact hchars c hc

/-- A line that `CORE_RE` matches: nine values in a bracket, then the reported disassembly. -/
theorem match?_coreRe {line : Text} {groups : Regex.Groups Field}
    (h : coreRe.match? line = some groups) :
    ∃ before values instr rest, line = before ++ '[' :: (values ++ "] ".toList ++ instr ++ rest) ∧
      (rest = [] ∨ rest = ['\n']) ∧ values.count ',' = 8 ∧ ']' ∉ values ∧
      groupOf groups .instr = instr := by
  obtain ⟨consumed, rest, rfl, hparse⟩ := Regex.match?_sound h
  obtain ⟨s₁, r₁, g₁, g₁', h₁, p₁, rfl, rfl⟩ := Regex.parses_concat_cons_iff.mp hparse
  obtain ⟨s₂, r₂, g₂, g₂', h₂, p₂, rfl, rfl⟩ := Regex.parses_concat_cons_iff.mp p₁
  obtain ⟨s₃, r₃, g₃, g₃', h₃, p₃, rfl, rfl⟩ := Regex.parses_concat_cons_iff.mp p₂
  obtain ⟨s₄, r₄, g₄, g₄', h₄, p₄, rfl, rfl⟩ := Regex.parses_concat_cons_iff.mp p₃
  obtain ⟨s₅, r₅, g₅, g₅', h₅, p₅, rfl, rfl⟩ := Regex.parses_concat_cons_iff.mp p₄
  obtain ⟨s₆, r₆, g₆, g₆', h₆, p₆, rfl, rfl⟩ := Regex.parses_concat_cons_iff.mp p₅
  obtain ⟨s₇, r₇, g₇, g₇', h₇, p₇, rfl, rfl⟩ := Regex.parses_concat_cons_iff.mp p₆
  obtain ⟨-, rfl⟩ := Regex.parses_text_iff.mp h₁
  obtain ⟨-, -, rfl⟩ := Regex.parses_rep_iff.mp h₂
  obtain ⟨-, rfl⟩ := Regex.parses_text_iff.mp h₃
  obtain ⟨-, -, rfl⟩ := Regex.parses_field_iff.mp h₄
  obtain ⟨-, rfl⟩ := Regex.parses_text_iff.mp h₅
  obtain ⟨-, -, rfl⟩ := Regex.parses_field_iff.mp h₆
  obtain ⟨rfl, rfl⟩ := Regex.parses_text_iff.mp h₇
  obtain ⟨values, after, new, new', rfl, rfl, hnew, hcommas, hchars, hafter⟩ :=
    parses_csrFields (by decide) p₇
  obtain ⟨s₈, r₈, g₈, g₈', h₈, p₈, rfl, rfl⟩ := Regex.parses_concat_cons_iff.mp hafter
  obtain ⟨instr, r₉, g₉, g₉', h₉, p₉, rfl, rfl⟩ := Regex.parses_concat_cons_iff.mp p₈
  obtain ⟨s₁₀, r₁₀, g₁₀, g₁₀', h₁₀, p₁₀, rfl, rfl⟩ := Regex.parses_concat_cons_iff.mp p₉
  obtain ⟨rfl, rfl⟩ := Regex.parses_text_iff.mp h₈
  obtain ⟨-, -, rfl⟩ := Regex.parses_field_iff.mp h₉
  obtain ⟨rfl, rfl⟩ := Regex.parses_concat_nil_iff.mp p₁₀
  obtain ⟨hend, rfl, rfl⟩ := Regex.parses_endOfLine_iff.mp h₁₀
  refine ⟨s₁ ++ s₂ ++ s₃ ++ s₄ ++ s₅ ++ s₆ ++ ") ".toList, "0x".toList ++ values, instr, rest, ?_,
    by simpa using hend, ?_, ?_, ?_⟩
  · simp
  · simpa [coreCsrs] using hcommas
  · simp
    intro hmem
    rcases hchars ']' hmem with h | h <;> exact absurd h (by decide)
  · have hother : new.lookup Field.instr = none := by
      rw [List.lookup_eq_none_iff]
      intro item hitem
      have hname : item.1 ∈ coreCsrs := hnew ▸ List.mem_map_of_mem hitem
      rw [bne_iff_ne]
      rintro heq
      rw [← heq] at hname
      exact absurd hname (by decide)
    simp [groupOf, List.lookup_append, List.lookup_cons, hother]
    rfl

/-- The entry that recovers every value of an instruction line, in the writer's spelling. -/
def writtenEntry (state : State) (bits : UInt64) (disassembly : Text) : TraceEntry where
  pc := Text.hexPad 16 state.pc.toNat
  binary := Text.hexPad 8 bits.toNat
  instrStr := normalize disassembly
  mstatus := Text.hexPad 16 state.mstatus.toNat
  frm := Text.hexPad 1 state.frm.toNat
  fflags := Text.hexPad 2 state.fflags.toNat
  mcause := Text.hexPad 2 state.mcause.toNat
  scause := Text.hexPad 2 state.scause.toNat
  medeleg := Text.hexPad 8 state.medeleg.toNat
  mcounteren := Text.hexPad 8 state.mcounteren.toNat
  scounteren := Text.hexPad 8 state.scounteren.toNat

/-- The written line is matched, and the match gives back what was written. -/
def Agrees (id : UInt32) (state : State) (bits : UInt64) (disassembly : Text) : Prop :=
  ∃ groups, coreRe.match? (instructionLine id state bits disassembly) = some groups ∧
    readSpikeInstr groups = writtenEntry state bits disassembly

theorem count_normalize (disasm : Text) : (normalize disasm).count ']' = disasm.count ']' := by
  rw [normalize, Text.count_replace (by decide) (by decide) (by decide),
    Text.count_replace (by decide) (by decide) (by decide)]

theorem takeWhile_bracket {values after : Text} (h : ']' ∉ values) :
    (values ++ ']' :: after).takeWhile (· ≠ ']') = values := by
  rw [List.takeWhile_append_of_pos]
  · simp
  · intro c hc
    simpa using fun heq : c = ']' ↦ h (heq ▸ hc)

/-- The bracket of the writer holds eight values, the bracket of the expression nine. -/
theorem csrValues_ne_matched {state : State} {values written matched : Text}
    (hclose : ']' ∉ values) (hcommas : values.count ',' = 8) :
    csrValues state ++ ']' :: written ≠ values ++ ']' :: matched := by
  intro heq
  have hclose' : ']' ∉ csrValues state :=
    not_mem_csrValues state (by decide) (by decide) (by decide)
  have htake := congrArg (List.takeWhile (· ≠ ']')) heq
  rw [takeWhile_bracket hclose', takeWhile_bracket hclose] at htake
  rw [← htake, count_comma_csrValues] at hcommas
  exact absurd hcommas (by decide)

/-- Two ways to cut a text at an occurrence of `c`, the first of them at its first occurrence. -/
theorem exists_of_append_cons_eq {first tail before after : Text} {c : Char} (h : c ∉ first)
    (heq : first ++ tail = before ++ c :: after) :
    ∃ middle, before = first ++ middle ∧ tail = middle ++ c :: after := by
  rcases List.append_eq_append_iff.mp heq with ⟨middle, hbefore, htail⟩ | ⟨middle, hfirst, hafter⟩
  · exact ⟨middle, hbefore, htail⟩
  · cases middle with
    | nil => exact ⟨[], by simpa using hfirst.symm, by simpa using hafter.symm⟩
    | cons d middle =>
      obtain ⟨rfl, -⟩ := List.cons_eq_cons.mp hafter
      exact absurd (hfirst ▸ List.mem_append_right before List.mem_cons_self) h

/-- A match of an instruction line lies inside the disassembly. -/
theorem exists_of_match?_instructionLine {id : UInt32} {state : State} {bits : UInt64}
    {disassembly : Text} {groups : Regex.Groups Field}
    (h : coreRe.match? (instructionLine id state bits disassembly) = some groups) :
    ∃ before values rest, disassembly ++ ['\n'] =
      before ++ '[' :: (values ++ "] ".toList ++ groupOf groups .instr ++ rest) ∧
      (rest = [] ∨ rest = ['\n']) := by
  obtain ⟨before, values, instr, rest, hline, hrest, hcommas, hclose, rfl⟩ := match?_coreRe h
  have hwritten : instructionLine id state bits disassembly = lineHeader id state bits ++
      '[' :: (csrValues state ++ ']' :: (' ' :: (disassembly ++ ['\n']))) := by
    simp [instructionLine]
  rw [hwritten] at hline
  obtain ⟨middle, -, htail⟩ :=
    exists_of_append_cons_eq (bracket_not_mem_lineHeader id state bits) hline
  cases middle with
  | nil =>
    have hvalues := (List.cons_eq_cons.mp htail).2
    simp only [List.append_assoc] at hvalues
    exact absurd hvalues (csrValues_ne_matched hclose hcommas)
  | cons c middle =>
    -- past the bracket of the writer, whose values contain no other one
    have hsplit : csrValues state ++ "] ".toList ++ (disassembly ++ ['\n']) =
        middle ++ '[' :: (values ++ "] ".toList ++ groupOf groups .instr ++ rest) := by
      simpa using (List.cons_eq_cons.mp htail).2
    have hopen : '[' ∉ csrValues state ++ "] ".toList := by
      rw [List.mem_append, not_or]
      exact ⟨not_mem_csrValues state (by decide) (by decide) (by decide), by decide⟩
    obtain ⟨before, -, htext⟩ := exists_of_append_cons_eq hopen hsplit
    exact ⟨before, values, rest, htext, hrest⟩

/-- Spike's own disassembly has no bracket, so the reader sees no instruction at all. -/
theorem match?_instructionLine_eq_none {id : UInt32} {state : State} {bits : UInt64}
    {disassembly : Text} (h : '[' ∉ disassembly) :
    coreRe.match? (instructionLine id state bits disassembly) = none := by
  by_contra hne
  obtain ⟨groups, hmatch⟩ := Option.ne_none_iff_exists'.mp hne
  obtain ⟨before, values, rest, htext, -⟩ := exists_of_match?_instructionLine hmatch
  have hmem : '[' ∈ disassembly ++ ['\n'] := by
    rw [htext]
    simp
  rcases List.mem_append.mp hmem with hmem | hmem
  · exact h hmem
  · exact absurd (List.mem_singleton.mp hmem) (by decide)

/-- No instruction line agrees with the reader: what is reported as the disassembly lies behind a
closing bracket of the disassembly that was written. -/
theorem not_agrees (id : UInt32) (state : State) (bits : UInt64) (disassembly : Text) :
    ¬ Agrees id state bits disassembly := by
  rintro ⟨groups, hmatch, hentry⟩
  obtain ⟨before, values, rest, htext, hrest⟩ := exists_of_match?_instructionLine hmatch
  have hnormal : normalize (groupOf groups .instr) = normalize disassembly :=
    congrArg TraceEntry.instrStr hentry
  have hcount : (groupOf groups .instr).count ']' = disassembly.count ']' := by
    rw [← count_normalize, hnormal, count_normalize]
  have htotal := congrArg (List.count ']') htext
  rcases hrest with rfl | rfl <;> simp [List.count_append] at htotal <;> omega

/-- The reset state, about to execute a no-operation. -/
def resetState : State where
  pc := 0x80000000
  mstatus := 0x0000000a00000000
  frm := 0
  fflags := 0
  mcause := 0
  scause := 0
  medeleg := 0
  mcounteren := 0
  scounteren := 0

theorem not_agrees_resetState : ¬ Agrees 0 resetState 0x13 "nop".toList := by
  rintro ⟨groups, hmatch, -⟩
  have hnone : coreRe.match? (instructionLine 0 resetState 0x13 "nop".toList) = none :=
    match?_instructionLine_eq_none (by decide)
  rw [hnone] at hmatch
  cases hmatch

/-- Lines that the core expression never matches yield an empty trace. -/
theorem readSpikeTrace_eq_nil {lines : List Text} (h : ∀ line ∈ lines, coreRe.match? line = none)
    {phase : Phase} (hphase : phase = .trampoline ∨ phase = .instr) :
    readSpikeTrace phase lines = [] := by
  induction lines generalizing phase with
  | nil => rcases hphase with rfl | rfl <;> rfl
  | cons line rest ih =>
    have hline := h line List.mem_cons_self
    have hrest : ∀ line ∈ rest, coreRe.match? line = none :=
      fun line hmem ↦ h line (List.mem_cons_of_mem _ hmem)
    rcases hphase with rfl | rfl
    · rw [readSpikeTrace]
      split
      · exact ih hrest (.inr rfl)
      · exact ih hrest (.inl rfl)
    · rw [readSpikeTrace, hline]
      exact ih hrest (.inr rfl)

/-- A log of instruction lines as Spike disassembles them is read as an empty trace. -/
theorem readSpikeTrace_instructionLines (id : UInt32)
    (lines : List (State × UInt64 × { disassembly : Text // '[' ∉ disassembly })) :
    readSpikeTrace .trampoline
      (lines.map fun line ↦ instructionLine id line.1 line.2.1 line.2.2) = [] := by
  apply readSpikeTrace_eq_nil _ (.inl rfl)
  intro line hline
  obtain ⟨⟨state, bits, disassembly, hbracket⟩, -, rfl⟩ := List.mem_map.mp hline
  exact match?_instructionLine_eq_none hbracket

end ProcessorFuzz.Execution.SpikeTrace
