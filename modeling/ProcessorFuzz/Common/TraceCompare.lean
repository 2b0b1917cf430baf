import ProcessorFuzz.Library.Reading

/-!
# The comparison of two traces

`trace_compare` walks over the rows that the ISA simulator has written and over the lines of the RTL
log. The line of a row is found by an offset, which grows with every line of a delayed write-back
that is passed over. All exceptions of the loop are caught, and the verdict is then what it was
before the row.
-/

namespace ProcessorFuzz.Common.TraceCompare

open Library Library.Text

/-- The values of `toplevel` that the comparison tells apart. -/
inductive Toplevel
  | boomTile
  | rocketTile
  | other
  deriving DecidableEq, Repr

def regNames : List (String × ℕ) :=
  [("zero", 0), ("ra", 1), ("sp", 2), ("gp", 3), ("tp", 4), ("t0", 5), ("t1", 6), ("t2", 7),
    ("s0", 8), ("fp", 8), ("s1", 9), ("a0", 10), ("a1", 11), ("a2", 12), ("a3", 13), ("a4", 14),
    ("a5", 15), ("a6", 16), ("a7", 17), ("s2", 18), ("s3", 19), ("s4", 20), ("s5", 21), ("s6", 22),
    ("s7", 23), ("s8", 24), ("s9", 25), ("s10", 26), ("s11", 27), ("t3", 28), ("t4", 29),
    ("t5", 30), ("t6", 31)]

def fregNames : List (String × ℕ) :=
  [("ft0", 0), ("ft1", 1), ("ft2", 2), ("ft3", 3), ("ft4", 4), ("ft5", 5), ("ft6", 6), ("ft7", 7),
    ("fs0", 8), ("fs1", 9), ("fa0", 10), ("fa1", 11), ("fa2", 12), ("fa3", 13), ("fa4", 14),
    ("fa5", 15), ("fa6", 16), ("fa7", 17), ("fs2", 18), ("fs3", 19), ("fs4", 20), ("fs5", 21),
    ("fs6", 22), ("fs7", 23), ("fs8", 24), ("fs9", 25), ("fs10", 26), ("fs11", 27), ("ft8", 28),
    ("ft9", 29), ("ft10", 30), ("ft11", 31)]

/-- `reg_map[reg]` or `freg_map[reg]`. -/
def regNumber (names : List (String × ℕ)) (reg : Text) : Except PyError ℕ :=
  match names.find? fun entry ↦ entry.1.toList = reg with
  | none => .error .keyError
  | some entry => .ok entry.2

def texts (literals : List String) : List Text := literals.map String.toList

def fInstr : List Text := texts
  ["flw", "fsw", "fmadd.s", "fmsub.s", "fnmsub.s", "fnmadd.s", "fadd.s", "fsub.s", "fmul.s",
    "fdiv.s", "fsqrt.s", "fsgnj.s", "fsgnjn.s", "fsgnjx.s", "fmin.s", "fmax.s", "fcvt.w.s",
    "fcvt.wu.s", "fmv.x.w", "feq.s", "flt.s", "fle.s", "fclass.s", "fcvt.s.w", "fcvt.s.wu",
    "fmv.w.x", "fcvt.l.s", "fcvt.lu.s", "fcvt.s.l", "fcvt.s.lu"]

def dInstr : List Text := texts
  ["fld", "fsd", "fmadd.d", "fmsub.d", "fnmsub.d", "fnmadd.d", "fadd.d", "fsub.d", "fmul.d",
    "fdiv.d", "fsqrt.d", "fsgnj.d", "fsgnjn.d", "fsgnjx.d", "fmin.d", "fmax.d", "fcvt.s.d",
    "fcvt.d.s", "feq.d", "flt.d", "fle.d", "fclass.d", "fcvt.w.d", "fcvt.wu.d", "fcvt.d.w",
    "fcvt.d.wu", "fcvt.l.d", "fcvt.lu.d", "fmv.x.d", "fcvt.d.l", "fcvt.d.lu", "fmv.d.x"]

def ignoreList : List Text := texts
  ["csrw    minstret", "mret", "sret", "ebreak", "csrw    mepc", "csrwi   mstatus",
    "csrs    mstatus", "csrs    medeleg", "csrw    medeleg", "csrw    mstatus", "ecall",
    "csrr    sp, mtval"]

/-- The registers whose reads may differ. -/
def ignoredCsrs : List Text := texts
  ["fcsr", "medeleg", "mstatus", "mcause", "fflags", "scause", "sstatus"]

/-- `text.zfill(width)` -/
def zfill (width : ℕ) (text : Text) : Text :=
  let zeros := List.replicate (width - text.length) '0'
  match text with
  | '+' :: rest => '+' :: (zeros ++ rest)
  | '-' :: rest => '-' :: (zeros ++ rest)
  | text => zeros ++ text

/-- The write-back value of a row or line without one. -/
def noWdata : Text := List.replicate 16 '0'

/-- The columns of an ISA row after their preparation. -/
structure IsaRow where
  pc : Text
  instr : Text
  wdata : Text
  mode : Text
  instrStr : Text
  mstatus : Text
  frm : Text
  fflags : Text
  mcause : Text
  scause : Text
  medeleg : Text
  mcounteren : Text
  scounteren : Text
  deriving DecidableEq, Repr

/-- The value behind the first colon. -/
def gprWdata (gpr : Text) : Except PyError Text :=
  if (split ":".toList gpr).length < 2 then .ok noWdata else item (split ":".toList gpr) 1

/-- The columns of a row; an empty mode is that of the row before. -/
def readIsaRow (modeBefore : Text) (line : List Text) : Except PyError IsaRow := do
  let pc ← item line 0
  let instr ← item line 4
  let gpr ← item (split ";".toList (← item line 2)) 0
  let wdata ← gprWdata gpr
  let mode ← item line 5
  let instrStr ← item line 6
  let mstatus ← item line 9
  let frm ← item line 10
  let fflags ← item line 11
  let mcause ← item line 12
  let scause ← item line 13
  let medeleg ← item line 14
  let mcounteren ← item line 15
  let scounteren ← item line 16
  .ok
    { pc := pc.drop 8
      instr := instr
      wdata := wdata
      mode := if mode = [] then modeBefore else mode
      instrStr := instrStr
      mstatus := zfill 16 mstatus
      frm := zfill 1 frm
      fflags := zfill 2 fflags
      mcause := [← item (zfill 2 mcause) (-1)]
      scause := [← item (zfill 2 scause) (-1)]
      medeleg := zfill 16 medeleg
      mcounteren := zfill 8 mcounteren
      scounteren := zfill 8 scounteren }

/-- `'DELAYED' in line` -/
def isDelayed (line : Text) : Bool := decide ("DELAYED".toList <:+: line)

/-- `'EXCEPTION' in line` -/
def isException (line : Text) : Bool := decide ("EXCEPTION".toList <:+: line)

/-- How many characters precede the 32 bits of a program counter. -/
def pcSkip : Toplevel → ℕ
  | .boomTile => 10
  | .rocketTile | .other => 4

/-- The search for the first instruction: its line, if it is found, and the last `pc_rtl`. -/
def findStart (toplevel : Toplevel) (lines : List Text) :
    ℕ → ℕ → Option Text → Except PyError (Option ℕ × Option Text)
  | 0, _, pcRtl => .ok (none, pcRtl)
  | fuel + 1, x, pcRtl => do
    let line ← item lines x
    if isDelayed line then findStart toplevel lines fuel (x + 1) pcRtl
    else
      let field ← item (words line) 2
      if field.drop (pcSkip toplevel) = "80000000".toList then
        .ok (some x, some (field.drop (pcSkip toplevel)))
      else findStart toplevel lines fuel (x + 1) (some (field.drop (pcSkip toplevel)))

/-- The columns of a line of the RTL log. -/
structure RtlLine where
  pc : Text
  instr : Text
  wdata : Text
  mode : Text
  mstatus : Text
  fflags : Text
  mcause : Text
  scause : Text
  medeleg : Text
  mcounteren : Text
  scounteren : Text
  deriving DecidableEq, Repr

/-- `pc_rtl`, which has the last value of the search when `toplevel` is neither of the two. -/
def readPc (toplevel : Toplevel) (pcFound : Option Text) (rtlLine : List Text) :
    Except PyError Text :=
  match toplevel, pcFound with
  | .other, some pc => .ok pc
  | .other, none => .error (.unboundLocalError "pc_rtl")
  | _, _ => do .ok ((← item rtlLine 2).drop (pcSkip toplevel))

/-- The words of a line; the one for Rocket has no `fflags`, so those of the row are taken. -/
def readRtlLine (toplevel : Toplevel) (pcFound : Option Text) (isa : IsaRow)
    (rtlLine : List Text) : Except PyError RtlLine := do
  let pc ← readPc toplevel pcFound rtlLine
  let instr ← item rtlLine 3
  let wdata ← item rtlLine 4
  let mode ← item rtlLine 1
  let mstatus ← item rtlLine 5
  if toplevel = .rocketTile then
    .ok
      { pc := pc
        instr := instr.drop 2
        wdata := wdata.drop 2
        mode := mode
        mstatus := mstatus
        fflags := isa.fflags
        mcause := [← item (← item rtlLine 6) (-1)]
        scause := [← item (← item rtlLine 7) (-1)]
        medeleg := ← item rtlLine 8
        mcounteren := ← item rtlLine 9
        scounteren := ← item rtlLine 10 }
  else
    let _ ← item rtlLine 6
    .ok
      { pc := pc
        instr := instr.drop 2
        wdata := wdata.drop 2
        mode := mode
        mstatus := mstatus
        fflags := zfill 2 (← item rtlLine 7)
        mcause := [← item (← item rtlLine 8) (-1)]
        scause := [← item (← item rtlLine 9) (-1)]
        medeleg := ← item rtlLine 10
        mcounteren := ← item rtlLine 11
        scounteren := ← item rtlLine 12 }

/-- The register that a delayed write-back names. -/
def delayedReg (line : Text) : Except PyError Text := do
  item (words (← item (split "=".toList line) 0)) 1

def delayedValue (line : Text) : Except PyError Text := do
  .ok (rstrip (← item (words (← item (split "=".toList line) 1)) 0))

/-- The scan over the lines from `k` for the delayed write-back of a register. -/
def findDelayed (reg : Text) : ℕ → List Text → Except PyError (Option (ℕ × Text))
  | _, [] => .ok none
  | k, line :: rest =>
    if isDelayed line then do
      if (← delayedReg line) = reg then .ok (some (k, ← delayedValue line))
      else findDelayed reg (k + 1) rest
    else findDelayed reg (k + 1) rest

/-- `isa_wb_reg`: the register that the first operand names. -/
def wbReg (instrStr : Text) : Except PyError Text := do
  let reg := (← item (words instrStr) 1).dropLast
  if (← item reg 0) = 'f' then .ok ('f' :: dec (← regNumber fregNames reg))
  else .ok ('r' :: dec (← regNumber regNames reg))

/-- `'deadbeef' in wdata` -/
def isUnresolved (wdata : Text) : Bool := decide ("deadbeef".toList <:+: wdata)

/-- The delayed write-back that replaces the value of line `i`, if there is one. -/
def resolve (lines : List Text) (i : ℕ) (instrStr wdata : Text) :
    Except PyError (Option (ℕ × Text)) := do
  if isUnresolved wdata then findDelayed (← wbReg instrStr) (i + 1) (lines.drop (i + 1))
  else .ok none

/-- `wdata_isa` and `wdata_rtl` of instructions whose values are not compared. -/
def adjustWdata (op : Text) (isa : IsaRow) (rtl : RtlLine) : Text × Text :=
  let wdataRtl := if op ∈ texts ["j", "ret"] then noWdata else rtl.wdata
  let (wdataIsa, wdataRtl) :=
    if op ∈ texts ["csrw", "csrwi"] then (noWdata, noWdata) else (isa.wdata, wdataRtl)
  if "csrr    sp, mip".toList <:+: rstrip isa.instrStr ∧ wdataIsa = "0000000000000080".toList ∧
      wdataRtl = noWdata then
    (wdataRtl, wdataRtl)
  else (wdataIsa, wdataRtl)

def adjustMstatus (isa : IsaRow) (rtl : RtlLine) : Text :=
  if rstrip isa.instrStr ∈ texts ["jal     0x10", "auipc   t6, 0x20"] ∧
      isa.mstatus = "8000000a00006000".toList ∧ rtl.mstatus = "8000000a00007800".toList then
    rtl.mstatus
  else isa.mstatus

/-- All compared fields are equal, except the program counters, which are compared before. -/
def Agree (isa : IsaRow) (rtl : RtlLine) : Prop :=
  isa.instr = rtl.instr ∧ isa.wdata = rtl.wdata ∧ isa.mode = rtl.mode ∧ isa.mstatus = rtl.mstatus ∧
    isa.fflags = rtl.fflags ∧ rtl.mcause = isa.mcause ∧ rtl.scause = isa.scause ∧
    rtl.medeleg = isa.medeleg ∧ rtl.mcounteren = isa.mcounteren ∧ rtl.scounteren = isa.scounteren

instance (isa : IsaRow) (rtl : RtlLine) : Decidable (Agree isa rtl) :=
  inferInstanceAs (Decidable (_ ∧ _))

/-- `get_FS` -/
def getFS (mstatus : Text) : Except PyError ℤ := do
  .ok ((← int 16 mstatus) / 2 ^ 13 % 4)

/-- `unpack` of the bytes that the text spells in hexadecimal. The exceptions of `unhexlify` and
`unpack` stand here as one. -/
def unpack (bytes : ℕ) (text : Text) : Except PyError ℕ :=
  if text.length = 2 * bytes ∧ ∀ c ∈ text, (digitValue c).any (· < 16) then
    .ok (numeralValue 16 text)
  else .error .valueError

/-- A pattern of `1 + exponent + fraction` bits that is not a number. -/
def isNaN (exponent fraction bits : ℕ) : Prop :=
  bits / 2 ^ fraction % 2 ^ exponent = 2 ^ exponent - 1 ∧ bits % 2 ^ fraction ≠ 0

instance (exponent fraction bits : ℕ) : Decidable (isNaN exponent fraction bits) :=
  inferInstanceAs (Decidable (_ ∧ _))

/-- Two patterns are equal as floats, or both are not a number. -/
def floatsAgree (exponent fraction left right : ℕ) : Prop :=
  (isNaN exponent fraction left ∧ isNaN exponent fraction right) ∨
    (¬isNaN exponent fraction left ∧ ¬isNaN exponent fraction right ∧
      (left = right ∨
        left % 2 ^ (exponent + fraction) = 0 ∧ right % 2 ^ (exponent + fraction) = 0))

instance (exponent fraction left right : ℕ) :
    Decidable (floatsAgree exponent fraction left right) :=
  inferInstanceAs (Decidable (_ ∨ _))

/-- The comparison of two different results of a floating point instruction. -/
def compareFloats (op wdataIsa wdataRtl : Text) : Except PyError Bool := do
  let _ ← int 16 wdataIsa
  let _ ← int 16 wdataRtl
  if op ∈ fInstr then
    .ok (decide (floatsAgree 8 23 (← unpack 4 (wdataIsa.drop 8)) (← unpack 4 (wdataRtl.drop 8))))
  else .ok (decide (floatsAgree 11 52 (← unpack 8 wdataIsa) (← unpack 8 wdataRtl)))

/-- `int(wdata_p, 16)`; before the first row `wdata_p` is a number, not a text. -/
def intBefore : Option Text → Except PyError Unit
  | none => .error .typeError
  | some wdata => do
    let _ ← int 16 wdata
    .ok ()

/-- What the messages about known bugs evaluate, which can raise. -/
def reportBugs (op : Text) (wdataBefore : Option Text) (instrStrBefore : Text) (isa : IsaRow)
    (rtl : RtlLine) : Except PyError Unit := do
  if op ∈ texts ["sc.w", "sc.d"] then
    intBefore wdataBefore
    if (← int 16 isa.wdata) = 1 then
      let _ ← int 16 rtl.wdata
  if (← getFS isa.mstatus) ≠ (← getFS rtl.mstatus) then
    if (← item (words instrStrBefore) 0) ∈ texts ["csrw", "csrwi"] then
      let _ ← item (words instrStrBefore) 1
  let _ ← int 16 isa.fflags
  let _ ← int 16 rtl.fflags
  if (← item op 0) = 'f' then
    let _ ← int 16 isa.instr

/-- The instructions whose rows are never a mismatch. -/
def isIgnored (instrStr : Text) : Except PyError Bool := do
  .ok (decide ((← item (split ",".toList instrStr) 0) ∈ ignoreList ∨
    instrStr = "csrr    sp, mtval".toList))

/-- A read of one of the registers that may differ. -/
def isIgnoredRead (instrStr : Text) : Except PyError Bool := do
  if (split ",".toList instrStr).length = 3 then
    .ok (decide (((← item (split ",".toList instrStr) 1).dropWhile isSpace) ∈ ignoredCsrs))
  else .ok false

/-- The destination is the register zero. -/
def isToZero (instrStr : Text) : Except PyError Bool := do
  if "zero".toList <:+: instrStr then
    .ok (decide ((← item (split ",".toList (← item (words instrStr) 1)) 0) = "zero".toList))
  else .ok false

/-- `mismatch` after the results of a floating point instruction have been compared as numbers. -/
def floatMismatch (mismatch : Bool) (op : Text) (isa : IsaRow) (rtl : RtlLine) :
    Except PyError Bool := do
  if mismatch ∧ isa.wdata ≠ rtl.wdata ∧ op ∈ fInstr ++ dInstr then
    .ok !(← compareFloats op isa.wdata rtl.wdata)
  else .ok mismatch

def readMismatch (mismatch : Bool) (instrStr : Text) : Except PyError Bool := do
  if mismatch then .ok !(← isIgnoredRead instrStr) else .ok false

/-- The special cases of a row that does not agree with its line, in their order; the value of
`mismatch` after them. -/
def handleMismatch (op : Text) (wdataBefore : Option Text) (instrStrBefore : Text) (isa : IsaRow)
    (rtl : RtlLine) (rtlLine : List Text) : Except PyError Bool := do
  reportBugs op wdataBefore instrStrBefore isa rtl
  let mismatch := decide ("EXCEPTION".toList ∉ rtlLine)
  let mismatch ← floatMismatch mismatch op isa rtl
  let mismatch ← readMismatch (mismatch && !(← isIgnored isa.instrStr)) isa.instrStr
  .ok (mismatch && !(← isToZero isa.instrStr))

/-- The variables that live on from one row to the next. -/
structure State where
  rtlTraceStart : ℕ
  mismatch : Bool
  returnVal : ℤ
  mode : Text
  wdataBefore : Option Text
  instrStrBefore : Text
  deriving DecidableEq, Repr

def State.initial (rtlTraceStart : ℕ) : State where
  rtlTraceStart := rtlTraceStart
  mismatch := false
  returnVal := 0
  mode := []
  wdataBefore := none
  instrStrBefore := []

/-- How the comparison of a row ends. -/
inductive Outcome
  | raised
  | stopped (returnVal : ℤ)
  | next (s : State)
  deriving DecidableEq, Repr

/-- The comparison of a row with the line at `index`, and the delayed write-back that has replaced
the value of the line. -/
structure Round where
  index : ℕ
  resolved : Option (ℕ × Text)
  outcome : Outcome
  deriving DecidableEq, Repr

/-- The offset is moved on while the lines from that of the row are delayed write-backs. -/
def skipDelayed : ℕ → List Text → Except PyError ℕ
  | _, [] => .error .indexError
  | start, line :: rest => if isDelayed line then skipDelayed (start + 1) rest else .ok start

/-- An exception of Rocket at another program counter is passed over, too. -/
def skipException (toplevel : Toplevel) (lines : List Text) (j start : ℕ) (pcIsa : Text) :
    Except PyError ℕ := do
  let line ← item lines (start + j : ℕ)
  if isException line ∧ toplevel = .rocketTile then
    if (← item (words line) 2).drop 4 ≠ pcIsa then .ok (start + 1) else .ok start
  else .ok start

/-- `mismatch` and `not_found` after the fields of a row have been compared. -/
def compareFields (lines : List Text) (i : ℕ) (op : Text) (isa : IsaRow) (rtl : RtlLine)
    (rtlLine : List Text) (s : State) : Except PyError (Bool × Bool) := do
  if Agree isa rtl then .ok (s.mismatch, false)
  else
    .ok (← handleMismatch op s.wdataBefore s.instrStrBefore isa rtl rtlLine,
      decide (i + 1 = lines.length))

/-- The end of a row whose program counter is right. -/
def finishRow (lines : List Text) (i : ℕ) (op : Text) (resolved : Option (ℕ × Text)) (isa : IsaRow)
    (rtl : RtlLine) (rtlLine : List Text) (s : State) : Except PyError Outcome := do
  let (mismatch, notFound) ← compareFields lines i op isa rtl rtlLine s
  -- the flag for a delayed result is set at the last line, so an empty scan does not set it
  if isUnresolved rtl.wdata ∧ resolved = none ∧ i + 1 < lines.length then .ok (.stopped s.returnVal)
  else if notFound then .ok (.stopped (if mismatch then -1 else s.returnVal))
  else
    .ok (.next
      { s with
        mismatch := mismatch
        returnVal := if mismatch then -1 else s.returnVal
        mode := isa.mode
        wdataBefore := some isa.wdata
        instrStrBefore := isa.instrStr })

/-- The words of line `i` and what they say. -/
def readLine (toplevel : Toplevel) (pcFound : Option Text) (lines : List Text) (i : ℕ)
    (isa : IsaRow) : Except PyError (List Text × RtlLine) := do
  let rtlLine := words (← item lines (i : ℕ))
  .ok (rtlLine, ← readRtlLine toplevel pcFound isa rtlLine)

/-- A row is compared with line `i`. -/
def compareLine (toplevel : Toplevel) (pcFound : Option Text) (lines : List Text) (i : ℕ)
    (op : Text) (isa : IsaRow) (s : State) : Round :=
  match readLine toplevel pcFound lines i isa with
  | .error _ => ⟨i, none, .raised⟩
  | .ok (rtlLine, rtl) =>
    if isa.pc ≠ rtl.pc then ⟨i, none, .stopped (-1)⟩
    else
      let (wdataIsa, wdataRtl) := adjustWdata op isa rtl
      match resolve lines i isa.instrStr wdataRtl with
      | .error _ => ⟨i, none, .raised⟩
      | .ok resolved =>
        match finishRow lines i op resolved
          { isa with wdata := wdataIsa, mstatus := adjustMstatus isa rtl }
          { rtl with wdata := (resolved.map Prod.snd).getD wdataRtl } rtlLine s with
        | .error _ => ⟨i, resolved, .raised⟩
        | .ok outcome => ⟨i, resolved, outcome⟩

/-- The comparison of row `j`; it raises before there is a line for the row, or it is a round. -/
def compareRow (toplevel : Toplevel) (pcFound : Option Text) (lines : List Text) (j : ℕ)
    (row : List Text) (s : State) : Except PyError Round := do
  let isa ← readIsaRow s.mode row
  let start ← skipDelayed s.rtlTraceStart (lines.drop (s.rtlTraceStart + j))
  let op ← item (words isa.instrStr) 0
  if op ∈ texts ["lr.w", "lr.d"] then
    intBefore s.wdataBefore
  let start ← skipException toplevel lines j start isa.pc
  .ok (compareLine toplevel pcFound lines (start + j) op isa { s with rtlTraceStart := start })

/-- The rounds of the rows from `j` on, and `return_val` at the end. -/
def compareRows (toplevel : Toplevel) (pcFound : Option Text) (lines : List Text) :
    ℕ → List (List Text) → State → List Round × ℤ
  | _, [], s => ([], s.returnVal)
  | j, row :: rows, s =>
    match compareRow toplevel pcFound lines j row s with
    | .error _ => ([], s.returnVal)
    | .ok round =>
      match round.outcome with
      | .raised => ([round], s.returnVal)
      | .stopped returnVal => ([round], returnVal)
      | .next t =>
        let (rounds, returnVal) := compareRows toplevel pcFound lines (j + 1) rows t
        (round :: rounds, returnVal)

/-- The body of `trace_compare` for the rows of the CSV file, the first of which is the header, and
the lines of the RTL log. Only the search for the start is outside of the `try` statement. -/
def comparison (toplevel : Toplevel) (csv : List (List Text)) (lines : List Text) :
    Except PyError (List Round × ℤ) := do
  let (start, pcFound) ← findStart toplevel lines 10 0 none
  if lines.length = 1 then .ok ([], -1)
  else .ok (compareRows toplevel pcFound lines 0 csv.tail (State.initial (start.getD 0)))

def traceCompare (toplevel : Toplevel) (csv : List (List Text)) (lines : List Text) :
    Except PyError ℤ := do
  .ok (← comparison toplevel csv lines).2

end ProcessorFuzz.Common.TraceCompare
