import ProcessorFuzz.Library.Text

/-!
# The Spike log writer

`processor_t::disasm` of the Spike fork writes one line for each executed instruction: the program
counter, the instruction bits, eight control and status registers and the disassembly. A repeated
instruction only increments a counter, which is reported in front of the next line.
-/

namespace ProcessorFuzz.Execution.SpikeLog

open Library

/-- The fields of `state_t` that reach the log. -/
structure State where
  pc : UInt64
  mstatus : UInt64
  frm : UInt32
  fflags : UInt32
  mcause : UInt64
  scause : UInt64
  medeleg : UInt64
  mcounteren : UInt32
  scounteren : UInt32
  deriving DecidableEq, Repr

structure Processor where
  id : UInt32
  state : State
  lastPc : UInt64 := 1
  lastBits : UInt64
  executions : UInt64 := 1

/-- The macro `insn_length`. -/
def insnLength (x : UInt64) : UInt64 :=
  if x &&& 0x03 < 0x03 then 2
  else if x &&& 0x1f < 0x1f then 4
  else if x &&& 0x3f < 0x3f then 6
  else 8

/-- `insn_t::bits`. -/
def insnBits (b : UInt64) : UInt64 := b &&& ~~~((0 - 1) <<< (insnLength b * 8))

/-- Everything up to the bracket with the register values. -/
def lineHeader (id : UInt32) (state : State) (bits : UInt64) : Text :=
  "core ".toList ++ Text.decPad 3 id.toNat ++ ": 0x".toList ++ Text.hexPad 16 state.pc.toNat ++
    " (0x".toList ++ Text.hexPad 8 bits.toNat ++ ") ".toList

/-- The register values between the brackets. -/
def csrValues (state : State) : Text :=
  "0x".toList ++ Text.hexPad 16 state.mstatus.toNat ++
    ",".toList ++ Text.hexPad 1 state.frm.toNat ++
    ",".toList ++ Text.hexPad 2 state.fflags.toNat ++
    ",".toList ++ Text.hexPad 2 state.mcause.toNat ++
    ",".toList ++ Text.hexPad 2 state.scause.toNat ++
    ",".toList ++ Text.hexPad 8 state.medeleg.toNat ++
    ",".toList ++ Text.hexPad 8 state.mcounteren.toNat ++
    ",".toList ++ Text.hexPad 8 state.scounteren.toNat

def instructionLine (id : UInt32) (state : State) (bits : UInt64) (disassembly : Text) : Text :=
  lineHeader id state bits ++ "[".toList ++ csrValues state ++ "]".toList ++
    " ".toList ++ disassembly ++ "\n".toList

def executedLine (id : UInt32) (executions : UInt64) : Text :=
  "core ".toList ++ Text.decPad 3 id.toNat ++ ": Executed ".toList ++
    Text.hex executions.toNat ++ " times\n".toList

/-- `processor_t::disasm`: the new processor and the lines written. -/
def disasm (p : Processor) (insn : UInt64) (disassembly : Text) : Processor × List Text :=
  let bits := insnBits insn &&& ((1 <<< (8 * insnLength (insnBits insn))) - 1)
  if p.lastPc ≠ p.state.pc ∨ p.lastBits ≠ bits then
    let executed := if p.executions ≠ 1 then [executedLine p.id p.executions] else []
    ({ p with lastPc := p.state.pc, lastBits := bits, executions := 1 },
      executed ++ [instructionLine p.id p.state bits disassembly])
  else ({ p with executions := p.executions + 1 }, [])

theorem not_mem_hexPad {c : Char} (hc : Text.isHexDigit c = false) (width n : ℕ) :
    c ∉ Text.hexPad width n := by
  intro h
  rw [Text.isHexDigit_of_mem_hexPad h] at hc
  exact Bool.noConfusion hc

/-- The bracket of the register values is the first one on the line. -/
theorem bracket_not_mem_lineHeader (id : UInt32) (state : State) (bits : UInt64) :
    '[' ∉ lineHeader id state bits := by
  have hhex : ∀ width n, '[' ∉ Text.hexPad width n := not_mem_hexPad (by decide)
  have hdec : '[' ∉ Text.decPad 3 id.toNat := by
    intro h
    rcases List.mem_append.mp h with h | h
    · exact absurd (List.eq_of_mem_replicate h) (by decide)
    · exact Text.not_mem_dec (by decide) h
  unfold lineHeader
  simp only [List.mem_append, hhex, hdec]
  decide

/-- Between the brackets stand hexadecimal digits, commas and the prefix `0x`. -/
theorem not_mem_csrValues (state : State) {c : Char} (hhex : Text.isHexDigit c = false)
    (hx : c ∉ "0x".toList) (hcomma : c ∉ ",".toList) : c ∉ csrValues state := by
  unfold csrValues
  simp only [List.mem_append, not_mem_hexPad hhex, hx, hcomma, or_self, not_false_eq_true]

/-- Eight values are separated by seven commas. -/
theorem count_comma_csrValues (state : State) : (csrValues state).count ',' = 7 := by
  have hfield : ∀ width n, (Text.hexPad width n).count ',' = 0 := fun width n ↦
    List.count_eq_zero_of_not_mem (not_mem_hexPad (by decide) width n)
  unfold csrValues
  simp only [List.count_append, hfield]
  decide

end ProcessorFuzz.Execution.SpikeLog
