import ProcessorFuzz.Library.Stateful
import ProcessorFuzz.Mutation.RiscvDefinitions
import ProcessorFuzz.Mutation.Word

/-!
# The instruction generator

`get_word` picks an opcode and builds the template of a word around its syntax, `populate_word`
draws the operands of the template and prints the word. The generator counts the words of each part
and remembers the registers and immediates it has drawn, so as to draw them again.
-/

namespace ProcessorFuzz.Mutation

open Library Library.Stateful RiscvDefinitions

/-- The types of words, `NONE` to `CSR`. -/
inductive WordType
  | none
  | cfJ
  | cfBr
  | cfRet
  | memR
  | memW
  | csr
  deriving DecidableEq, Repr

/-- A word with its template. -/
structure GenWord extends Word where
  tpe : WordType
  xregs : List Text
  fregs : List Text
  imms : List (Text × ℕ)
  symbols : List Text

/-- The constructor. -/
def GenWord.new (label : ℤ) (insts : List Text) (tpe : WordType) (operands : OpcodeEntry) :
    GenWord where
  toWord := Word.new label insts operands.xregs operands.fregs operands.imms operands.symbols
  tpe
  xregs := operands.xregs
  fregs := operands.fregs
  imms := operands.imms
  symbols := operands.symbols

/-- A word that is populated already: its template is not read again. -/
def Word.toGen (w : Word) : GenWord where
  toWord := w
  tpe := .none
  xregs := []
  fregs := []
  imms := []
  symbols := []

/-- The functions of `word.py` from an opcode and its entry to the type of a word, its instructions
and the entry with the operands that they add. -/
abbrev WordFunction := Text → OpcodeEntry → Stateful Draws (WordType × List Text × OpcodeEntry)

/-- `syntax.format(arg)` of a syntax with at most one field. -/
def format (asm arg : Text) : Text := Text.replace "\x7b\x7d".toList arg asm

namespace OpcodeEntry

def addXregs (e : OpcodeEntry) (xregs : List Text) : OpcodeEntry :=
  { e with xregs := e.xregs ++ xregs }

def addImms (e : OpcodeEntry) (imms : List (Text × ℕ)) : OpcodeEntry :=
  { e with imms := e.imms ++ imms }

def addSymbol (e : OpcodeEntry) : OpcodeEntry :=
  { e with symbols := e.symbols ++ ["symbol".toList] }

end OpcodeEntry

open OpcodeEntry

def wordJal : WordFunction := fun _ e ↦ return (.cfJ, [e.asm], e)

def wordJalr : WordFunction := fun _ e ↦
  return (.cfJ, ["la xreg1, symbol".toList, e.asm], addSymbol e)

def wordBranch : WordFunction := fun _ e ↦ return (.cfBr, [e.asm], e)

def wordRet : WordFunction := fun _ e ↦
  let epc :=
    if e.asm = "mret".toList then "mepc".toList
    else if e.asm = "sret".toList then "sepc".toList
    else "uepc".toList
  return (.cfRet, ["la xreg0, symbol".toList, "csrrw zero, ".toList ++ epc ++ ", xreg0".toList,
    e.asm], addSymbol (addXregs e ["xreg0".toList]))

/-- The address mask that one memory word in ten has, with its register. -/
def maskAddr : Stateful Draws (List Text × List Text) := do
  let rand ← Draws.random
  if Draws.below rand 1 10 then
    return (["lui xreg2, 0xffe00".toList, "xor xreg1, xreg1, xreg2".toList], ["xreg2".toList])
  else return ([], [])

/-- The common body of `word_mem_r` and `word_mem_w`. -/
def wordMem (tpe : WordType) : WordFunction := fun _ e ↦ do
  let (mask, xregs) ← maskAddr
  return (tpe, ["la xreg1, symbol".toList] ++ mask ++ [e.asm], addSymbol (addXregs e xregs))

def wordMemR : WordFunction := wordMem .memR

def wordMemW : WordFunction := wordMem .memW

def wordAtomic : WordFunction := fun opcode e ↦ do
  let (mask, xregs) ← maskAddr
  return (.memW, ["la xreg1, symbol".toList, "addi xreg1, xreg1, imm6".toList] ++ mask ++ [e.asm],
    addSymbol (addImms (addXregs e xregs)
      [("imm6".toList, if opcode ∈ rv64.keys then 8 else 4)]))

/-- The name of the register that the `i`-th round of `word_csr_r` fills. -/
def bitsReg (i : ℕ) : Text := "xreg".toList ++ Text.dec (i + 2)

/-- The rounds of `word_csr_r`, which set some bits of the value to be written. -/
def setBits : List ℕ → Stateful Draws (List Text × List Text)
  | [] => return ([], [])
  | i :: is => do
    let setBits ← Draws.choice [1, 3]
    let offset ← Draws.randint 0 31
    let (insts, xregs) ← Mutation.setBits is
    return (["addi ".toList ++ bitsReg i ++ ", zero, ".toList ++ Text.dec setBits,
      "slli ".toList ++ bitsReg i ++ ", ".toList ++ bitsReg i ++ ", ".toList ++ Text.str offset,
      "add xreg1, xreg1, ".toList ++ bitsReg i] ++ insts, bitsReg i :: xregs)

def wordCsrR : WordFunction := fun _ e ↦ do
  let csr ← Draws.choice csrNames
  if "pmpaddr".toList <:+: csr.name then
    return (.memR, ["la xreg1, symbol".toList, "srai xreg1, xreg1, 1".toList,
      format e.asm csr.name], addSymbol e)
  else do
    let rounds ← Draws.randint 0 3
    let (insts, xregs) ← setBits (List.range rounds.toNat)
    return (.csr, ["xor xreg1, xreg1, xreg1".toList] ++ insts ++ [format e.asm csr.name],
      addXregs e xregs)

def wordCsrI : WordFunction := fun _ e ↦ do
  let csr ← Draws.choice csrNames
  return (.csr, [format e.asm csr.name], e)

def wordSfence : WordFunction := fun _ e ↦ do
  let ptSymbol ← Draws.choice (["pt0", "pt1", "pt2", "pt3"].map String.toList)
  return (.none, ["li xreg0, uimm1".toList, "la xreg1, ".toList ++ ptSymbol,
    "addi xreg1, xreg1, uimm6".toList, e.asm],
    addImms e [("uimm1".toList, 1), ("uimm6".toList, 8)])

def wordFp : WordFunction := fun _ e ↦ do
  let rm ← Draws.choice (["rne", "rtz", "rdn", "rup", "rmm", "dyn"].map String.toList)
  return (.none, [format e.asm rm], e)

/-- `opcodes_words`, in source order. The double and quad precision opcodes of the last entry are
not in the map of `RV64G`. -/
def opcodesWords : List (List Text × WordFunction) :=
  [(["jal".toList], wordJal),
    (["jalr".toList], wordJalr),
    (rv32iBtype.keys, wordBranch),
    (["mret", "sret", "uret"].map String.toList, wordRet),
    (["lb", "lh", "lw", "ld", "lbu", "lhu", "lwu", "flw", "fld", "flq"].map String.toList,
      wordMemR),
    (["sb", "sh", "sw", "sd", "fsw", "fsd", "fsq"].map String.toList, wordMemW),
    (rv32a.keys ++ rv64a.keys, wordAtomic),
    (["csrrw", "csrrs", "csrrc"].map String.toList, wordCsrR),
    (["csrrwi", "csrrsi", "csrrci"].map String.toList, wordCsrI),
    (["sfence.vma".toList], wordSfence),
    (rv32f.keys ++ rv64f.keys, wordFp)]

/-- `opcodes_map` for the instruction set `RV64G`. -/
def opcodesMap : OpcodeTable :=
  [trapRet, rv32i, rv64i, rv32a, rv64a, rv32f, rv64f, rvZifencei, rvZicsr, rv32m, rv64m].foldl
    OpcodeTable.update []

/-- The counters `prefix_num`, `main_num` and `suffix_num`, and the sets of used numbers. -/
structure InstGenerator where
  num : Part → ℕ
  usedXNums : List ℕ
  usedFNums : List ℕ
  usedImms : List ℕ

/-- `reset`. -/
def InstGenerator.start : InstGenerator where
  num _ := 0
  usedXNums := []
  usedFNums := []
  usedImms := []

/-- The methods of the generator change it and draw random outcomes. -/
abbrev Generating := Stateful (InstGenerator × Draws)

namespace Generating

/-- `xNums` and `fNums`. -/
def nums : List ℕ := List.range 32

/-- `len(used) > 0 and random.random() < thres`, with the threshold `0.2`. -/
def reuses (used : List ℕ) : Generating Bool :=
  if used = [] then return false
  else do
    let rand ← onSnd Draws.random
    return Draws.below rand 1 5

/-- A number from a list, which is used from now on. -/
def newXNum (nums : List ℕ) : Generating ℕ := do
  let xNum ← onSnd (Draws.choice nums)
  write fun s ↦ ({ s.1 with usedXNums := s.1.usedXNums.insert xNum }, s.2)
  return xNum

/-- The number of a register: only where the whole region is allowed, a used one again. -/
def drawXNum (region : ℕ × ℕ) : Generating ℕ := do
  let used ← read fun s ↦ s.1.usedXNums
  let reuse ← reuses (if region = (0, 31) then used else [])
  if reuse then onSnd (Draws.choice used) else newXNum ((nums.take region.2).drop region.1)

/-- Another number for `x0`. -/
def replaceZero (xNum : ℕ) : Stateful Draws ℕ :=
  if xNum = 0 then Draws.choice (nums.drop 1) else return xNum

def getXregs (region : ℕ × ℕ) (noZero : Bool) : Generating Text := do
  let xNum ← drawXNum region
  let xNum ← onSnd (bif noZero then replaceZero xNum else pure xNum)
  return 'x' :: Text.dec xNum

def newFNum : Generating ℕ := do
  let fNum ← onSnd (Draws.choice nums)
  write fun s ↦ ({ s.1 with usedFNums := s.1.usedFNums.insert fNum }, s.2)
  return fNum

def drawFNum : Generating ℕ := do
  let used ← read fun s ↦ s.1.usedFNums
  let reuse ← reuses used
  if reuse then onSnd (Draws.choice used) else newFNum

def getFregs : Generating Text := do
  let fNum ← drawFNum
  return 'f' :: Text.dec fNum

/-- The sign of an immediate and the number of its bits. -/
def immShape (iName : Text) : Stateful Draws (Text × ℤ) :=
  if "uimm".toList <:+: iName then do
    let width ← lift (Text.int 10 (iName.drop 4))
    return ([], width)
  else do
    let sign ← Draws.choice [[], ['-']]
    let width ← lift (Text.int 10 (iName.drop 3))
    return (sign, width - 1)

/-- `mask & ~(align - 1)`. -/
def alignMask (mask align : ℕ) : ℕ :=
  if align = 0 then 0 else mask - (mask &&& (align - 1))

/-- A number up to the mask, which is used from now on. -/
def newImm (mask : ℕ) : Generating ℕ := do
  let imm ← onSnd (Draws.randint 0 mask)
  write fun s ↦ ({ s.1 with usedImms := s.1.usedImms.insert imm.toNat }, s.2)
  return imm.toNat

/-- The number that is masked to an immediate. -/
def immNum (mask : ℕ) : Generating ℕ := do
  let used ← read fun s ↦ s.1.usedImms
  let rand ← onSnd Draws.random
  if used ≠ [] ∧ Draws.below rand 1 5 then onSnd (Draws.choice used)
  else if Draws.below rand 2 5 then onSnd (Draws.choice [0x0, 0xffffffff])
  else newImm mask

def getImm (iName : Text) (align : ℕ) : Generating Text := do
  lift (assert (align &&& (align - 1) = 0) "align must be power of 2")
  let (sign, width) ← onSnd (immShape iName)
  if width < 0 then lift (.error .valueError)
  else do
    let rand ← onSnd Draws.random
    let mask := if Draws.below rand 1 1 then alignMask (2 ^ width.toNat - 1) align else 0
    let imm ← immNum mask
    return sign ++ Text.dec (mask &&& imm)

/-- The label of a data word. -/
def dataSymbol : Stateful Draws Text := do
  let n ← Draws.randint 0 5
  let k ← Draws.randint 0 27
  return "d_".toList ++ Text.str n ++ "_".toList ++ Text.str k

/-- A label of the part. -/
def partSymbol (low high : ℤ) (part : Part) : Stateful Draws Text := do
  let num ← Draws.randint low high
  return part.text ++ Text.str num

def getSymbol (tpe : WordType) (myLabel maxLabel : ℤ) (part : Part) : Stateful Draws Text :=
  match tpe with
  | .memW => dataSymbol
  | .memR => do
    let rand ← Draws.random
    if Draws.below rand 1 5 then partSymbol 0 maxLabel part else dataSymbol
  | _ => partSymbol (myLabel + 1) maxLabel part

def wordFunction (opcode : Text) : WordFunction :=
  match opcodesWords.find? fun entry ↦ opcode ∈ entry.1 with
  | none => fun _ e ↦ return (.none, [e.asm], e)
  | some entry => entry.2

/-- The opcodes that a word of the part may have. -/
def partOpcodes : Part → List Text
  | .prefixPart => rvZicsr.keys
  | .mainPart => opcodesMap.keys
  | .suffixPart => opcodesMap.keys

def getWord (part : Part) : Generating GenWord := do
  let opcode ← onSnd (Draws.choice (partOpcodes part))
  let label ← read fun s ↦ s.1.num part
  write fun s ↦ ({ s.1 with num := Function.update s.1.num part (label + 1) }, s.2)
  match opcodesMap.lookup opcode with
  | none => lift (.error .typeError)
  | some entry => do
    let (tpe, insts, operands) ← onSnd (wordFunction opcode opcode entry)
    return GenWord.new label insts tpe operands

/-- One loop of `populate_word`, over the operands of one kind. -/
def fill {ι : Type} (operands : List ι) (name : ι → Text) (value : ι → Generating Text)
    (opvals : Dict Text Text) : Generating (Dict Text Text) :=
  operands.foldlM (fun opvals operand ↦ do
    let val ← value operand
    return opvals.set (name operand) val) opvals

def populateWord (w : GenWord) (maxLabel : ℤ) (part : Part) : Generating GenWord :=
  if w.populated then return w
  else do
    let region := if part = .prefixPart then (10, 15) else (0, 31)
    let opvals ← fill w.xregs id (fun _ ↦
      if w.tpe = .none then getXregs (0, 31) false else getXregs region true) Dict.empty
    let opvals ← fill w.fregs id (fun _ ↦ getFregs) opvals
    let opvals ← fill w.imms Prod.fst (fun imm ↦ getImm imm.1 imm.2) opvals
    let opvals ← fill w.symbols id (fun _ ↦ onSnd (getSymbol w.tpe w.label maxLabel part)) opvals
    let word ← lift (w.toWord.populate opvals part)
    return { w with toWord := word }

end Generating

end ProcessorFuzz.Mutation
