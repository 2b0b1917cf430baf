import ProcessorFuzz.Execution.SpikeTrace
import ProcessorFuzz.Library.Reading

/-!
# Pseudo instructions in the trace

For a full trace the parser of the Spike log splits the disassembly into an opcode and its operands.
`convert_pseudo_instr` turns a pseudo instruction into the regular instruction that it stands for,
and `process_instr` brings the offset of a jump into decimal notation.
-/

namespace ProcessorFuzz.Execution.PseudoInstr

open Library Library.Text

/-- What happens to the operands of a pseudo instruction. -/
inductive Rewrite
  /-- Other operands in their place. -/
  | fixed (operands : String)
  /-- `head + operands + tail` -/
  | around (head tail : String)
  /-- `o[0] + ",zero," + o[1]` -/
  | zeroBetween
  /-- `o[1] + "," + o[0] + "," + o[2]` -/
  | swapped
  deriving DecidableEq, Repr

def Rewrite.apply (rewrite : Rewrite) (operands : Text) : Except PyError Text :=
  let o := split ",".toList operands
  match rewrite with
  | fixed operands => .ok operands.toList
  | around head tail => .ok (head.toList ++ operands ++ tail.toList)
  | zeroBetween => do .ok ((← item o 0) ++ ",zero,".toList ++ (← item o 1))
  | swapped => do
    .ok ((← item o 1) ++ ",".toList ++ (← item o 0) ++ ",".toList ++ (← item o 2))

/-- The pseudo instructions, the regular ones they stand for and what happens to the operands. -/
def pseudoInstrs : List (String × String × Rewrite) :=
  [("nop", "addi", .fixed "zero,zero,0"), ("mv", "addi", .around "" ",0"),
    ("not", "xori", .around "" ",-1"), ("neg", "sub", .zeroBetween),
    ("negw", "subw", .zeroBetween), ("sext.w", "addiw", .around "" ",0"),
    ("seqz", "sltiu", .around "" ",1"), ("snez", "sltu", .zeroBetween),
    ("sltz", "slt", .around "" ",zero"), ("sgtz", "slt", .zeroBetween),
    ("beqz", "beq", .zeroBetween), ("bnez", "bne", .zeroBetween), ("bgez", "bge", .zeroBetween),
    ("bltz", "blt", .zeroBetween), ("blez", "bge", .around "zero," ""),
    ("bgtz", "blt", .around "zero," ""), ("bgt", "blt", .swapped), ("ble", "bge", .swapped),
    ("bgtu", "bltu", .swapped), ("bleu", "bgeu", .swapped), ("csrr", "csrrw", .around "" ",zero"),
    ("csrw", "csrrw", .around "zero," ""), ("csrs", "csrrs", .around "zero," ""),
    ("csrc", "csrrc", .around "zero," ""), ("csrwi", "csrrwi", .around "zero," ""),
    ("csrsi", "csrrsi", .around "zero," ""), ("csrci", "csrrci", .around "zero," ""),
    ("jr", "jalr", .around "zero," ",0"), ("j", "jal", .around "zero," ""),
    ("rev.p", "grevi", .around "" ",1"), ("rev2.n", "grevi", .around "" ",2"),
    ("rev.n", "grevi", .around "" ",3"), ("rev4.b", "grevi", .around "" ",4"),
    ("rev2.b", "grevi", .around "" ",6"), ("rev.b", "grevi", .around "" ",7"),
    ("rev8.h", "grevi", .around "" ",8"), ("rev4.h", "grevi", .around "" ",12"),
    ("rev2.h", "grevi", .around "" ",14"), ("rev.h", "grevi", .around "" ",15"),
    ("rev16", "grevi", .around "" ",16"), ("rev8", "grevi", .around "" ",24"),
    ("rev4", "grevi", .around "" ",28"), ("rev2", "grevi", .around "" ",30"),
    ("rev", "grevi", .around "" ",31"), ("orc.p", "gorci", .around "" ",1"),
    ("orc2.n", "gorci", .around "" ",2"), ("orc.n", "gorci", .around "" ",3"),
    ("orc4.b", "gorci", .around "" ",4"), ("orc2.b", "gorci", .around "" ",6"),
    ("orc.b", "gorci", .around "" ",7"), ("orc8.h", "gorci", .around "" ",8"),
    ("orc4.h", "gorci", .around "" ",12"), ("orc2.h", "gorci", .around "" ",14"),
    ("orc.h", "gorci", .around "" ",15"), ("orc16", "gorci", .around "" ",16"),
    ("orc8", "gorci", .around "" ",24"), ("orc4", "gorci", .around "" ",28"),
    ("orc2", "gorci", .around "" ",30"), ("orc", "gorci", .around "" ",31"),
    ("zext.b", "andi", .around "" ",255"), ("zext.h", "pack", .around "" ",zero"),
    ("zext.w", "pack", .around "" ",zero"), ("zip.n", "shfli", .around "" ",1"),
    ("unzip.n", "unshfli", .around "" ",1"), ("zip2.b", "shfli", .around "" ",2"),
    ("unzip2.b", "unshfli", .around "" ",2"), ("zip.b", "shfli", .around "" ",3"),
    ("unzip.b", "unshfli", .around "" ",3"), ("zip4.h", "shfli", .around "" ",4"),
    ("unzip4.h", "unshfli", .around "" ",4"), ("zip2.h", "shfli", .around "" ",6"),
    ("unzip2.h", "unshfli", .around "" ",6"), ("zip.h", "shfli", .around "" ",7"),
    ("unzip.h", "unshfli", .around "" ",7"), ("zip8", "shfli", .around "" ",8"),
    ("unzip8", "unshfli", .around "" ",8"), ("zip4", "shfli", .around "" ",12"),
    ("unzip4", "unshfli", .around "" ",12"), ("zip2", "shfli", .around "" ",14"),
    ("unzip2", "unshfli", .around "" ",14"), ("zip", "shfli", .around "" ",15"),
    ("unzip", "unshfli", .around "" ",15")]

/-- The groups of `BASE_RE`. -/
inductive BaseField
  | rd | imm | rs1
  deriving DecidableEq, Repr

def isNameChar (c : Char) : Bool := c.isLower || c.isDigit

/-- `(?P<rd>[a-z0-9]+?),(?P<imm>[\\-0-9]*?)\\((?P<rs1>[a-z0-9]+?)\\)` -/
def baseRe : Regex BaseField :=
  .concat [.group .rd (.rep 1 false isNameChar), .text ",".toList,
    .group .imm (.rep 0 false fun c ↦ c == '-' || c.isDigit), .text "(".toList,
    .group .rs1 (.rep 1 false isNameChar), .text ")".toList]

def baseGroup (groups : Regex.Groups BaseField) (name : BaseField) : Text :=
  (groups.lookup name).getD []

def convertJalr (operands : Text) : Text :=
  let operands := match baseRe.search? operands with
    | some m => baseGroup m .rd ++ ",".toList ++ baseGroup m .rs1 ++ ",".toList ++ baseGroup m .imm
    | none => operands
  if ',' ∈ operands then operands else "ra,".toList ++ operands ++ ",0".toList

def convertRet (binary : Text) : Except PyError (Text × Text) := do
  if (← item binary (-1)) = '2' then .ok ("c.jr".toList, "ra".toList)
  else .ok ("jalr".toList, "zero,ra,0".toList)

def convertPseudoInstr (instrName operands binary : Text) : Except PyError (Text × Text) :=
  match pseudoInstrs.find? fun entry ↦ entry.1.toList = instrName with
  | some (_, regular, rewrite) => do .ok (regular.toList, ← rewrite.apply operands)
  | none =>
    if instrName = "jal".toList then
      .ok (instrName, if ',' ∈ operands then operands else "ra,".toList ++ operands)
    else if instrName = "jalr".toList then .ok (instrName, convertJalr operands)
    else if instrName = "ret".toList then convertRet binary
    else .ok (instrName, operands)

/-- Spike's offset of a jump, which is hexadecimal, in decimal notation. -/
def jumpOffset (imm : Text) : Except PyError Text := do
  if (← item imm 0) = '-' then .ok ("-".toList ++ str (← int 16 (imm.drop 1)))
  else .ok (str (← int 16 imm))

/-- The operands up to the last comma, and the text behind it. -/
def splitLast (operand : Text) : Text × Text :=
  (operand.rdropWhile (· ≠ ','), operand.rtakeWhile (· ≠ ','))

/-- The operands of an instruction. -/
def processInstr (instr operand : Text) : Except PyError Text := do
  let operand ←
    if instr = "jal".toList then do
      let (before, imm) := splitLast operand
      .ok (before ++ (← jumpOffset imm))
    else .ok operand
  .ok (Text.replace ")".toList [] (Text.replace "(".toList ",".toList operand))

/-- `instr.instr` and `instr.operand` of a full trace, from the disassembly and the bits. -/
def operandsOf (disasm binary : Text) : Except PyError (Text × Text) := do
  let opcode ← item (split " ".toList disasm) 0
  let operand := Text.replace " ".toList [] (disasm.drop opcode.length)
  let (instr, operand) ← convertPseudoInstr opcode operand binary
  .ok (instr, ← processInstr instr operand)

end ProcessorFuzz.Execution.PseudoInstr
