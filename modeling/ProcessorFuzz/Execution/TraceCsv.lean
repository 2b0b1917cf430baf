import ProcessorFuzz.Common.TraceCompare
import ProcessorFuzz.Execution.PseudoInstr
import ProcessorFuzz.Library.Csv

/-!
# The trace as a CSV file

`process_spike_sim_log` writes an entry of the Spike log as a row of a CSV file, and `trace_compare`
reads the rows back. The file is transparent: the comparison sees the columns that the parser has
filled, whatever characters the disassembly has.

The lines that the Spike fork writes are never recognized by the parser, though. So the file of a
simulation holds the header only, and the comparison of the traces compares nothing.
-/

namespace ProcessorFuzz.Execution.TraceCsv

open Library SpikeTrace Common.TraceCompare

/-- A `RiscvInstructionTraceEntry` of a full trace. -/
structure FullEntry extends TraceEntry where
  csr : List Text
  instr : Text
  operand : Text

/-- `read_spike_instr` with `full_trace`. The disassembly and the bits of an entry never change
after it was read, so the operands may as well be taken from the entry that is yielded. -/
def fullEntry (entry : TraceEntry) : Except PyError FullEntry := do
  let (instr, operand) ← PseudoInstr.operandsOf entry.instrStr entry.binary
  .ok { entry with csr := [], instr, operand }

/-- The fields of the file. -/
inductive Column
  | pc | instr | gpr | csr | binary | mode | instrStr | operand | pad | mstatus | frm | fflags
  | mcause | scause | medeleg | mcounteren | scounteren

/-- The fields in the order of `start_new_trace`. -/
def columns : List Column :=
  [.pc, .instr, .gpr, .csr, .binary, .mode, .instrStr, .operand, .pad, .mstatus, .frm, .fflags,
    .mcause, .scause, .medeleg, .mcounteren, .scounteren]

def Column.name : Column → String
  | pc => "pc"
  | instr => "instr"
  | gpr => "gpr"
  | csr => "csr"
  | binary => "binary"
  | mode => "mode"
  | instrStr => "instr_str"
  | operand => "operand"
  | pad => "pad"
  | mstatus => "mstatus"
  | frm => "frm"
  | fflags => "fflags"
  | mcause => "mcause"
  | scause => "scause"
  | medeleg => "medeleg"
  | mcounteren => "mcounteren"
  | scounteren => "scounteren"

/-- The values of `write_trace_entry`, which has none for `pad`. -/
def FullEntry.value (entry : FullEntry) : Column → Text
  | .pc => entry.pc
  | .instr => entry.instr
  | .gpr => ";".toList.intercalate entry.gpr
  | .csr => ";".toList.intercalate entry.csr
  | .binary => entry.binary
  | .mode => entry.mode
  | .instrStr => entry.instrStr
  | .operand => entry.operand
  | .pad => []
  | .mstatus => entry.mstatus
  | .frm => entry.frm
  | .fflags => entry.fflags
  | .mcause => entry.mcause
  | .scause => entry.scause
  | .medeleg => entry.medeleg
  | .mcounteren => entry.mcounteren
  | .scounteren => entry.scounteren

def header : List Text := columns.map fun column ↦ column.name.toList

def entryRow (entry : FullEntry) : List Text := columns.map entry.value

/-- `process_spike_sim_log`: the contents of the CSV file. A full trace has every entry. -/
def processSpikeSimLog (log : Text) : Except PyError Text := do
  let entries ← (readSpikeTrace .trampoline (Text.readlines log)).mapM fun entry ↦
    fullEntry entry.1
  .ok (Csv.writeRows (header :: entries.map entryRow))

/-- `trace_compare` of the two files. An exception of the reader is caught. -/
def traceCompareFiles (isaCsv rtlLog : Text) (toplevel : Toplevel) : Except PyError ℤ := do
  let lines := Text.readlines rtlLog
  match Csv.readRows isaCsv with
  | some rows => traceCompare toplevel rows lines
  | none => do
    let _ ← findStart toplevel lines 10 0 none
    .ok 0

end ProcessorFuzz.Execution.TraceCsv
