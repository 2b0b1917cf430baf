import ProcessorFuzz.Common.TraceAlignment

/-!
# What the verdict of a comparison stands for

The verdict 0 should say that every row has been compared with a line and agrees with it, up to the
exceptions that are coded for the row. But an exception of the loop, a delayed result that is not
found and the end of the log end the loop with the verdict of the rows before. So the verdict stands
for this exactly if no row ends the loop in one of these ways before a difference is reported. For
a tile that is neither of the two known ones `pc_rtl` is not read in the loop, and the lines have to
be at the program counters of their rows on their own.
-/

namespace ProcessorFuzz.Common.TraceCompare

open Library Library.Text

variable {toplevel : Toplevel} {pcFound : Option Text} {lines : List Text} {i j : ℕ}
  {op : Text} {isa : IsaRow} {rtl : RtlLine} {rtlLine : List Text} {s t : State}
  {row : List Text} {wdataBefore : Option Text} {instrStrBefore : Text}

/-- The exceptions that are coded for a row that does not agree with its line: the line is that of
an exception, the instruction is ignored, it reads a register that may differ, its destination is
zero, or its results are equal as floats. -/
inductive Excused (op : Text) (isa : IsaRow) (rtl : RtlLine) (rtlLine : List Text) : Prop
  | exceptionLine (h : "EXCEPTION".toList ∈ rtlLine)
  | ignored (h : isIgnored isa.instrStr = .ok true)
  | ignoredRead (h : isIgnoredRead isa.instrStr = .ok true)
  | toZero (h : isToZero isa.instrStr = .ok true)
  | floats (hwdata : isa.wdata ≠ rtl.wdata) (hop : op ∈ fInstr ++ dInstr)
      (h : compareFloats op isa.wdata rtl.wdata = .ok true)

/-- `int(text, 16)` returns. -/
def IsHex (text : Text) : Prop := ∃ z, int 16 text = .ok z

/-- `unhexlify` and `unpack` return. -/
def IsPattern (bytes : ℕ) (text : Text) : Prop :=
  text.length = 2 * bytes ∧ ∀ c ∈ text, (digitValue c).any (· < 16)

/-- A result that can be compared as a float. -/
structure IsFloat (op wdata : Text) : Prop where
  hex : IsHex wdata
  single : op ∈ fInstr → IsPattern 4 (wdata.drop 8)
  double : op ∉ fInstr → IsPattern 8 wdata

/-- What the messages about known bugs evaluate can be evaluated. -/
structure Reportable (op : Text) (wdataBefore : Option Text) (instrStrBefore : Text) (isa : IsaRow)
    (rtl : RtlLine) : Prop where
  storeConditional : op ∈ texts ["sc.w", "sc.d"] → (∃ wdata ∈ wdataBefore, IsHex wdata) ∧
    IsHex isa.wdata ∧ (int 16 isa.wdata = .ok 1 → IsHex rtl.wdata)
  mstatus : IsHex isa.mstatus ∧ IsHex rtl.mstatus
  instrBefore : getFS isa.mstatus ≠ getFS rtl.mstatus → ∃ word,
    item (words instrStrBefore) 0 = .ok word ∧
      (word ∈ texts ["csrw", "csrwi"] → ∃ operands, item (words instrStrBefore) 1 = .ok operands)
  fflags : IsHex isa.fflags ∧ IsHex rtl.fflags
  instr : op.head? = some 'f' → IsHex isa.instr

/-- What the special cases of a row that does not agree with its line evaluate can be evaluated. -/
structure Judgeable (op : Text) (wdataBefore : Option Text) (instrStrBefore : Text) (isa : IsaRow)
    (rtl : RtlLine) (rtlLine : List Text) : Prop where
  reportable : Reportable op wdataBefore instrStrBefore isa rtl
  floats : "EXCEPTION".toList ∉ rtlLine → isa.wdata ≠ rtl.wdata → op ∈ fInstr ++ dInstr →
    IsFloat op isa.wdata ∧ IsFloat op rtl.wdata
  zero : "zero".toList <:+: isa.instrStr → ∃ operands, item (words isa.instrStr) 1 = .ok operands

/-- The values of the row that are compared. -/
def comparedIsa (op : Text) (isa : IsaRow) (rtl : RtlLine) : IsaRow :=
  { isa with wdata := (adjustWdata op isa rtl).1, mstatus := adjustMstatus isa rtl }

/-- The values of the line that are compared, with a delayed write-back that has been found. -/
def comparedRtl (op : Text) (isa : IsaRow) (rtl : RtlLine) (resolved : Option (ℕ × Text)) :
    RtlLine :=
  { rtl with wdata := (resolved.map Prod.snd).getD (adjustWdata op isa rtl).2 }

/-- A result that is delayed has been found. -/
def IsFound (op : Text) (isa : IsaRow) (rtl : RtlLine) (resolved : Option (ℕ × Text)) : Prop :=
  isUnresolved (adjustWdata op isa rtl).2 = true → resolved ≠ none

/-- The row agrees with its line, up to the exceptions that are coded for it. -/
def IsAccepted (op : Text) (isa : IsaRow) (rtl : RtlLine) (rtlLine : List Text)
    (resolved : Option (ℕ × Text)) : Prop :=
  Agree (comparedIsa op isa rtl) (comparedRtl op isa rtl resolved) ∨
    Excused op (comparedIsa op isa rtl) (comparedRtl op isa rtl resolved) rtlLine

/-- The mode after the rows: the last one that is not empty. -/
def modeAfter (mode : Text) (rows : List (List Text)) : Text :=
  rows.foldl (fun mode row ↦ if row[5]?.getD [] = [] then mode else row[5]?.getD []) mode

/-- The comparison of a row has come to its end, and nothing that it compares differs. A delayed
write-back that replaces the value of its line is the first later one for the destination of the
row. -/
structure Round.Passes (toplevel : Toplevel) (pcFound : Option Text) (lines : List Text)
    (modeBefore : Text) (row : List Text) (round : Round) : Prop where
  completed : round.outcome ≠ .raised
  pair : ∃ isa op rtlLine rtl, readIsaRow modeBefore row = .ok isa ∧
    item (words isa.instrStr) 0 = .ok op ∧
    readLine toplevel pcFound lines round.index isa = .ok (rtlLine, rtl) ∧ isa.pc = rtl.pc ∧
    (∀ k value, round.resolved = some (k, value) → ∃ reg, wbReg isa.instrStr = .ok reg ∧
      IsFirstDelayed lines round.index reg k value) ∧
    IsFound op isa rtl round.resolved ∧ IsAccepted op isa rtl rtlLine round.resolved

/-- The program counter in a line, which is `pc_rtl` for the two known values of `toplevel`. -/
def linePc (toplevel : Toplevel) (rtlLine : List Text) : Except PyError Text := do
  .ok ((← item rtlLine 2).drop (pcSkip toplevel))

/-- The line of a row is at the program counter of the row. -/
def IsPlaced (toplevel : Toplevel) (lines : List Text) (modeBefore : Text) (row : List Text)
    (i : ℕ) : Prop :=
  ∃ isa line, readIsaRow modeBefore row = .ok isa ∧ item lines (i : ℕ) = .ok line ∧
    linePc toplevel (words line) = .ok isa.pc

/-- A row is accepted: it passes the comparison with a line at its program counter. -/
structure Round.Accepts (toplevel : Toplevel) (pcFound : Option Text) (lines : List Text)
    (modeBefore : Text) (row : List Text) (round : Round) : Prop
    extends round.Passes toplevel pcFound lines modeBefore row where
  placed : IsPlaced toplevel lines modeBefore row round.index

/-- If the verdict is 0, then every row has been compared with a line and is accepted. -/
def Sound (toplevel : Toplevel) (csv : List (List Text)) (lines : List Text) : Prop :=
  ∀ start pcFound rounds, findStart toplevel lines 10 0 none = .ok (start, pcFound) →
    comparison toplevel csv lines = .ok (rounds, 0) →
      rounds.length = csv.tail.length ∧
      ∀ j row (round : Round), csv.tail[j]? = some row → rounds[j]? = some round →
        round.Accepts toplevel pcFound lines (modeAfter [] (csv.tail.take j)) row

/-- A row and a line can be read before row `j` is compared with line `start + j`. -/
structure Readable (toplevel : Toplevel) (pcFound : Option Text) (lines : List Text) (j : ℕ)
    (row : List Text) (s : State) (isa : IsaRow) (op : Text) (start : ℕ) (rtlLine : List Text)
    (rtl : RtlLine) : Prop where
  row : readIsaRow s.mode row = .ok isa
  opcode : item (words isa.instrStr) 0 = .ok op
  loadReserved : op ∈ texts ["lr.w", "lr.d"] → ∃ wdata ∈ s.wdataBefore, IsHex wdata
  offset : ∃ skipped, skipDelayed s.rtlTraceStart (lines.drop (s.rtlTraceStart + j)) = .ok skipped ∧
    skipException toplevel lines j skipped isa.pc = .ok start
  line : readLine toplevel pcFound lines (start + j) isa = .ok (rtlLine, rtl)

/-- The fields of a row can be compared. The result may only be missing at the end of the log, where
the row is reported, and a row that is excused there is the last one. -/
structure Comparable (lines : List Text) (i : ℕ) (isLast : Prop) (op : Text) (isa : IsaRow)
    (rtl : RtlLine) (rtlLine : List Text) (resolved : Option (ℕ × Text)) (s : State) : Prop where
  judgeable : ¬Agree (comparedIsa op isa rtl) (comparedRtl op isa rtl resolved) →
    Judgeable op s.wdataBefore s.instrStrBefore (comparedIsa op isa rtl)
      (comparedRtl op isa rtl resolved) rtlLine
  found : IsFound op isa rtl resolved ∨
    i + 1 = lines.length ∧ ¬IsAccepted op isa rtl rtlLine resolved
  last : i + 1 = lines.length → IsAccepted op isa rtl rtlLine resolved →
    Agree (comparedIsa op isa rtl) (comparedRtl op isa rtl resolved) ∨ isLast

/-- A row does not end the loop, or it ends it with a difference. -/
def Finishes (toplevel : Toplevel) (pcFound : Option Text) (lines : List Text) (j : ℕ)
    (isLast : Prop) (row : List Text) (s : State) : Prop :=
  ∃ isa op start rtlLine rtl, Readable toplevel pcFound lines j row s isa op start rtlLine rtl ∧
    (isa.pc = rtl.pc → ∃ resolved,
      resolve lines (start + j) isa.instrStr (adjustWdata op isa rtl).2 = .ok resolved ∧
        Comparable lines (start + j) isLast op isa rtl rtlLine resolved s)

/-- No row from `j` on ends the loop before a difference is reported. -/
def Completes (toplevel : Toplevel) (pcFound : Option Text) (lines : List Text) :
    ℕ → List (List Text) → State → Prop
  | _, [], _ => True
  | j, row :: rows, s => Finishes toplevel pcFound lines j (rows = []) row s ∧
      ∀ round t, compareRow toplevel pcFound lines j row s = .ok round →
        round.outcome = .next t → t.returnVal = 0 →
          Completes toplevel pcFound lines (j + 1) rows t

/-- The comparison comes to row `k` in state `s'`, with the verdict still 0. -/
inductive Reaches (toplevel : Toplevel) (pcFound : Option Text) (lines : List Text) :
    ℕ → List (List Text) → State → ℕ → List Text → State → Prop
  | here {j : ℕ} {row : List Text} {rows : List (List Text)} {s : State} :
    Reaches toplevel pcFound lines j (row :: rows) s j row s
  | later {j k : ℕ} {row row' : List Text} {rows : List (List Text)} {s s' t : State}
    {round : Round} (h : compareRow toplevel pcFound lines j row s = .ok round)
    (hnext : round.outcome = .next t) (hzero : t.returnVal = 0)
    (hrest : Reaches toplevel pcFound lines (j + 1) rows t k row' s') :
    Reaches toplevel pcFound lines j (row :: rows) s k row' s'

/-- The line of row `j` is at the program counter of the row. -/
def Placed (toplevel : Toplevel) (pcFound : Option Text) (lines : List Text) (j : ℕ)
    (row : List Text) (s : State) : Prop :=
  ∀ isa op start rtlLine rtl, Readable toplevel pcFound lines j row s isa op start rtlLine rtl →
    linePc toplevel rtlLine = .ok isa.pc

/-- The verdict after a row, if the row has come to its end. -/
def Outcome.returnVal : Outcome → Option ℤ
  | .raised => none
  | .stopped returnVal => some returnVal
  | .next s => some s.returnVal

variable {resolved : Option (ℕ × Text)} {outcome : Outcome} {isLast : Prop}

/-- What is read of a row and a line is determined by them. -/
theorem Readable.unique {isa' : IsaRow} {op' : Text} {start start' : ℕ} {rtlLine' : List Text}
    {rtl' : RtlLine} (h : Readable toplevel pcFound lines j row s isa op start rtlLine rtl)
    (h' : Readable toplevel pcFound lines j row s isa' op' start' rtlLine' rtl') :
    isa = isa' ∧ op = op' ∧ start = start' ∧ rtlLine = rtlLine' ∧ rtl = rtl' := by
  obtain rfl := Except.ok.inj (h.row.symm.trans h'.row)
  obtain ⟨skipped, hskipped, hstart⟩ := h.offset
  obtain ⟨skipped', hskipped', hstart'⟩ := h'.offset
  obtain rfl := Except.ok.inj (hskipped.symm.trans hskipped')
  obtain rfl := Except.ok.inj (hstart.symm.trans hstart')
  obtain ⟨rfl, rfl⟩ := Prod.mk.inj (Except.ok.inj (h.line.symm.trans h'.line))
  exact ⟨rfl, Except.ok.inj (h.opcode.symm.trans h'.opcode), rfl, rfl, rfl⟩

variable {round : Round}

/-- The row and the line that have been compared, up to what the comparison says. -/
theorem Round.Passes.intro {modeBefore : Text} (hrow : readIsaRow modeBefore row = .ok isa)
    (hopcode : item (words isa.instrStr) 0 = .ok op)
    (hline : readLine toplevel pcFound lines i isa = .ok (rtlLine, rtl)) (hpc : isa.pc = rtl.pc)
    (hresolve : resolve lines i isa.instrStr (adjustWdata op isa rtl).2 = .ok resolved)
    (hcompleted : outcome ≠ .raised) (hfound : IsFound op isa rtl resolved)
    (haccepted : IsAccepted op isa rtl rtlLine resolved) :
    Round.Passes toplevel pcFound lines modeBefore row ⟨i, resolved, outcome⟩ := by
  have hdelayed : ∀ k value, resolved = some (k, value) → ∃ reg,
      wbReg isa.instrStr = .ok reg ∧ IsFirstDelayed lines i reg k value :=
    fun k value h ↦ isFirstDelayed_of_resolve (hresolve.trans (congrArg _ h))
  exact ⟨hcompleted, isa, op, rtlLine, rtl, hrow, hopcode, hline, hpc, hdelayed, hfound, haccepted⟩

end ProcessorFuzz.Common.TraceCompare
