import ProcessorFuzz.Library.Dict
import ProcessorFuzz.Library.Reading
import ProcessorFuzz.Mutation.RiscvDefinitions

/-!
# The signature file of the RTL simulation

`save_signature` prints the signature region and then the six data sections, two words of memory
to a line, the upper word first. `read_symbols` turns the addresses of the output symbols into word
indexes, and `read_sig` recomputes the line and the column of every word from them. The sections
follow the region without a mark, so the reader carries a running line index through them.

For a layout with aligned symbols the two are inverse to each other: what is read for a symbol is
the word of memory at its address, and a section is read in address order.
-/

namespace ProcessorFuzz.Execution.SignatureFile

open Library Mutation.RiscvDefinitions

/-- The lookups into a memory dictionary, from addresses to words. -/
abbrev Memory := ℕ → Option ℕ

/-- `memory[addr]`. -/
def load (memory : Memory) (addr : ℕ) : Except PyError ℕ :=
  match memory addr with
  | none => .error .keyError
  | some word => .ok word

/-- `range(start, stop, step)`. -/
def rangeStep (start stop step : ℕ) : List ℕ :=
  (List.range ((stop - start + (step - 1)) / step)).map fun k ↦ start + step * k

/-- The line `'{:016x}{:016x}\n'` for the two words at `i`. -/
def dump (memory : Memory) (i : ℕ) : Except PyError Text := do
  let high ← load memory (i + 8)
  let low ← load memory i
  .ok (Text.hexPad 16 high ++ Text.hexPad 16 low ++ "\n".toList)

def dumpRange (memory : Memory) (fd : Text) (start stop : ℕ) : Except PyError Text :=
  (rangeStep start stop 16).foldlM (fun fd i ↦ do
    let line ← dump memory i
    .ok (fd ++ line)) fd

/-- `rvRTLhost.save_signature`: the text written. -/
def saveSignature (memory : Memory) (sigStart sigEnd : ℕ) (dataAddrs : List (ℕ × ℕ)) :
    Except PyError Text := do
  let fd ← dumpRange memory [] sigStart sigEnd
  dataAddrs.foldlM (fun fd addrs ↦ dumpRange memory fd addrs.1 addrs.2) fd

/-- `RTL_Simulator._save_signature`: nothing is written without a file name. -/
def rtlSimulatorSaveSignature (rtlSigFile : Option Text) (memory : Memory) (sigStart sigEnd : ℕ)
    (dataAddrs : List (ℕ × ℕ)) : Except PyError (Option Text) :=
  match rtlSigFile with
  | none => .ok none
  | some file =>
    if file.isEmpty then .ok none
    else do
      let contents ← saveSignature memory sigStart sigEnd dataAddrs
      .ok (some contents)

/-- `symbols[name]`. -/
def symbol (symbols : Dict Text ℕ) (name : Text) : Except PyError ℕ :=
  match symbols.get? name with
  | none => .error .keyError
  | some addr => .ok addr

def xregSymbol (i : ℕ) : Text := "reg_x".toList ++ Text.dec i ++ "_output".toList

def fregSymbol (i : ℕ) : Text := "reg_f".toList ++ Text.dec i ++ "_output".toList

def csrSymbol (csr : CsrName) : Text := csr.name ++ "_output".toList

def dataStartSymbol (i : ℕ) : Text := "_random_data".toList ++ Text.dec i

def dataEndSymbol (i : ℕ) : Text := "_end_data".toList ++ Text.dec i

def dataKey (i : ℕ) : Text := "data".toList ++ Text.dec i

/-- The result of `read_symbols`. -/
structure Indexes where
  xregIdxes : List ℤ
  fregIdxes : List ℤ
  csrIdxes : Dict CsrName ℤ
  dataSymbols : List (ℕ × ℕ)
  dataIdxStart : ℤ

/-- The index of the word that a symbol names. -/
def wordIndex (symbols : Dict Text ℕ) (symbolStart : ℕ) (name : Text) : Except PyError ℤ := do
  let addr ← symbol symbols name
  .ok (((addr : ℤ) - symbolStart) / 8)

/-- The addresses of the data sections, as the simulator and the reader look them up. -/
def dataSections (symbols : Dict Text ℕ) : Except PyError (List (ℕ × ℕ)) :=
  (List.range 6).mapM fun i ↦ do
    let dataStart ← symbol symbols (dataStartSymbol i)
    let dataEnd ← symbol symbols (dataEndSymbol i)
    .ok (dataStart, dataEnd)

def readSymbols (symbols : Dict Text ℕ) : Except PyError Indexes := do
  let symbolStart ← symbol symbols "begin_signature".toList
  let symbolEnd ← symbol symbols "end_signature".toList
  let xregIdxes ← (List.range 32).mapM fun i ↦ wordIndex symbols symbolStart (xregSymbol i)
  let fregIdxes ← (List.range 32).mapM fun i ↦ wordIndex symbols symbolStart (fregSymbol i)
  let csrIdxes ← csrNames.foldlM (fun idxes csr ↦ do
    let idx ← wordIndex symbols symbolStart (csrSymbol csr)
    .ok (idxes.set csr idx)) Dict.empty
  let dataSymbols ← dataSections symbols
  .ok { xregIdxes, fregIdxes, csrIdxes, dataSymbols
        dataIdxStart := ((symbolEnd : ℤ) - symbolStart) / (2 * 8) }

/-- The result of `read_sig`. -/
structure SignatureValues where
  xregVals : List ℤ
  fregVals : List ℤ
  csrVals : Dict CsrName ℤ
  dataVals : Dict Text (List ℤ)

/-- `int(lines[idx // 2][16 - 16 * (idx % 2):32 - 16 * (idx % 2)], 16)`. -/
def readWord (lines : List Text) (idx : ℤ) : Except PyError ℤ := do
  let line ← Text.item lines (idx / 2)
  Text.int 16 (Text.slice line (16 - 16 * (idx % 2)) (32 - 16 * (idx % 2)))

/-- The words of a data section of `size` bytes that starts at line `dataIdxStart`. -/
def readSection (lines : List Text) (dataIdxStart size : ℤ) : Except PyError (List ℤ) :=
  (List.range (size / 16).toNat).foldlM (fun data (j : ℕ) ↦ do
    let words ← Text.item lines (dataIdxStart + j)
    let low ← Text.int 16 (Text.slice words 16 32)
    let high ← Text.int 16 (Text.slice words 0 16)
    .ok (data ++ [low, high])) []

/-- One round of the loop over the data sections, with the running line index. -/
def dataStep (lines : List Text) (dataSymbols : List (ℕ × ℕ))
    (state : Dict Text (List ℤ) × ℤ) (i : ℕ) : Except PyError (Dict Text (List ℤ) × ℤ) := do
  let addrs ← Text.item dataSymbols i
  let sectionSize : ℤ := (addrs.2 : ℤ) - addrs.1
  let data ← readSection lines state.2 sectionSize
  .ok (state.1.set (dataKey i) data, state.2 + sectionSize / 16)

/-- `csr_idxes[csr_name]`. -/
def csrIndex (csrIdxes : Dict CsrName ℤ) (csr : CsrName) : Except PyError ℤ :=
  match csrIdxes.get? csr with
  | none => .error .keyError
  | some idx => .ok idx

def readSig (contents : Text) (indexes : Indexes) : Except PyError SignatureValues := do
  let lines := Text.readlines contents
  let xregVals ← indexes.xregIdxes.mapM (readWord lines)
  let fregVals ← indexes.fregIdxes.mapM (readWord lines)
  let csrVals ← csrNames.foldlM (fun vals csr ↦ do
    let idx ← csrIndex indexes.csrIdxes csr
    let val ← readWord lines idx
    .ok (vals.set csr val)) Dict.empty
  let (dataVals, _) ← (List.range 6).foldlM (dataStep lines indexes.dataSymbols)
    (Dict.empty, indexes.dataIdxStart)
  .ok { xregVals, fregVals, csrVals, dataVals }

/-- Where the linker puts the output symbols and the data sections. -/
structure Layout where
  sigStart : ℕ
  sigEnd : ℕ
  xreg : ℕ → ℕ
  freg : ℕ → ℕ
  csr : CsrName → ℕ
  dataStart : ℕ → ℕ
  dataEnd : ℕ → ℕ

namespace Layout

/-- An output symbol: an aligned word of the signature region. -/
structure Output (layout : Layout) (addr : ℕ) : Prop where
  aligned : 8 ∣ addr
  le : layout.sigStart ≤ addr
  lt : addr < layout.sigEnd

structure Aligned (layout : Layout) : Prop where
  sigStart : 16 ∣ layout.sigStart
  sigEnd : 16 ∣ layout.sigEnd
  xreg : ∀ i < 32, layout.Output (layout.xreg i)
  freg : ∀ i < 32, layout.Output (layout.freg i)
  csr : ∀ csr ∈ csrNames, layout.Output (layout.csr csr)
  dataLe : ∀ i < 6, layout.dataStart i ≤ layout.dataEnd i
  dataSize : ∀ i < 6, 16 ∣ layout.dataEnd i - layout.dataStart i

/-- The symbol table has the addresses of the layout. -/
structure Describes (layout : Layout) (symbols : Dict Text ℕ) : Prop where
  sigStart : symbols.get? "begin_signature".toList = some layout.sigStart
  sigEnd : symbols.get? "end_signature".toList = some layout.sigEnd
  xreg : ∀ i < 32, symbols.get? (xregSymbol i) = some (layout.xreg i)
  freg : ∀ i < 32, symbols.get? (fregSymbol i) = some (layout.freg i)
  csr : ∀ csr ∈ csrNames, symbols.get? (csrSymbol csr) = some (layout.csr csr)
  dataStart : ∀ i < 6, symbols.get? (dataStartSymbol i) = some (layout.dataStart i)
  dataEnd : ∀ i < 6, symbols.get? (dataEndSymbol i) = some (layout.dataEnd i)

def dataAddrs (layout : Layout) : List (ℕ × ℕ) :=
  (List.range 6).map fun i ↦ (layout.dataStart i, layout.dataEnd i)

end Layout

/-- The memory holds these words from `start` to `stop`. -/
def Holds (memory : Memory) (word : ℕ → UInt64) (start stop : ℕ) : Prop :=
  ∀ k, start + 8 * k < stop → memory (start + 8 * k) = some (word (start + 8 * k)).toNat

structure Layout.Stored (layout : Layout) (memory : Memory) (word : ℕ → UInt64) : Prop where
  region : Holds memory word layout.sigStart layout.sigEnd
  data : ∀ i < 6, Holds memory word (layout.dataStart i) (layout.dataEnd i)

/-- The words from `start` to `stop` in address order. -/
def wordsBetween (word : ℕ → UInt64) (start stop : ℕ) : List ℤ :=
  (rangeStep start stop 8).map fun addr ↦ ((word addr).toNat : ℤ)

theorem rangeStep_of_dvd {start stop step : ℕ} (hstep : 0 < step) (h : step ∣ stop - start) :
    rangeStep start stop step =
      (List.range ((stop - start) / step)).map fun k ↦ start + step * k := by
  obtain ⟨n, hn⟩ := h
  have hcount : (stop - start + (step - 1)) / step = (stop - start) / step := by
    rw [hn, Nat.mul_add_div hstep, Nat.mul_div_cancel_left n hstep,
      Nat.div_eq_of_lt (by omega), Nat.add_zero]
  rw [rangeStep, hcount]

/-- The line of the two words at `i`, without its line feed. -/
def wordsLine (word : ℕ → UInt64) (i : ℕ) : Text :=
  Text.hexPad 16 (word (i + 8)).toNat ++ Text.hexPad 16 (word i).toNat

def regionLines (word : ℕ → UInt64) (start stop : ℕ) : List Text :=
  (rangeStep start stop 16).map (wordsLine word)

/-- The lines of the data sections. -/
def sectionLines (word : ℕ → UInt64) (dataAddrs : List (ℕ × ℕ)) : List Text :=
  dataAddrs.flatMap fun addrs ↦ regionLines word addrs.1 addrs.2

def writeLines (lines : List Text) : Text := lines.flatMap fun line ↦ line ++ ['\n']

theorem writeLines_append (left right : List Text) :
    writeLines (left ++ right) = writeLines left ++ writeLines right :=
  List.flatMap_append

theorem isLineText_wordsLine (word : ℕ → UInt64) (i : ℕ) :
    Text.IsLineText (wordsLine word i) :=
  (Text.isLineText_hexPad 16 _).append (Text.isLineText_hexPad 16 _)

theorem dump_eq_ok {memory : Memory} {word : ℕ → UInt64} {i : ℕ}
    (hlow : memory i = some (word i).toNat) (hhigh : memory (i + 8) = some (word (i + 8)).toNat) :
    dump memory i = .ok (wordsLine word i ++ ['\n']) := by
  unfold dump load
  rw [hlow, hhigh]
  rfl

theorem length_regionLines {word : ℕ → UInt64} {start stop : ℕ} (h : 16 ∣ stop - start) :
    (regionLines word start stop).length = (stop - start) / 16 := by
  rw [regionLines, rangeStep_of_dvd (by decide) h]
  simp

theorem getElem?_regionLines (word : ℕ → UInt64) {start stop k : ℕ} (h : 16 ∣ stop - start)
    (hk : k < (stop - start) / 16) :
    (regionLines word start stop)[k]? = some (wordsLine word (start + 16 * k)) := by
  rw [regionLines, rangeStep_of_dvd (by decide) h]
  simp [hk]

/-- A range of memory is written as its lines. -/
theorem dumpRange_eq_ok {memory : Memory} {word : ℕ → UInt64} {start stop : ℕ}
    (h : 16 ∣ stop - start) (hholds : Holds memory word start stop) (fd : Text) :
    dumpRange memory fd start stop = .ok (fd ++ writeLines (regionLines word start stop)) := by
  have hstep : ∀ i ∈ rangeStep start stop 16, ∀ fd : Text,
      (do let line ← dump memory i; .ok (fd ++ line)) =
        (Except.ok (fd ++ (wordsLine word i ++ ['\n'])) : Except PyError Text) := by
    intro i hi fd
    rw [rangeStep_of_dvd (by decide) h, List.mem_map] at hi
    obtain ⟨k, hk, rfl⟩ := hi
    have hlt : k < (stop - start) / 16 := List.mem_range.mp hk
    have hlow := hholds (2 * k) (by omega)
    have hhigh := hholds (2 * k + 1) (by omega)
    rw [show start + 8 * (2 * k) = start + 16 * k by omega] at hlow
    rw [show start + 8 * (2 * k + 1) = start + 16 * k + 8 by omega] at hhigh
    rw [dump_eq_ok hlow hhigh, ok_bind]
  rw [dumpRange, foldlM_eq_ok hstep, List.foldl_append_eq_append, writeLines, regionLines,
    List.flatMap_map, List.flatMap_def]

/-- Every section that the memory holds is appended to the file. -/
theorem foldlM_dumpRange {memory : Memory} {word : ℕ → UInt64} {dataAddrs : List (ℕ × ℕ)}
    (h : ∀ addrs ∈ dataAddrs, 16 ∣ addrs.2 - addrs.1 ∧ Holds memory word addrs.1 addrs.2)
    (fd : Text) :
    dataAddrs.foldlM (fun fd addrs ↦ dumpRange memory fd addrs.1 addrs.2) fd =
      .ok (fd ++ writeLines (sectionLines word dataAddrs)) := by
  induction dataAddrs generalizing fd with
  | nil => simp [writeLines, sectionLines, pure, Except.pure]
  | cons addrs dataAddrs ih =>
    obtain ⟨hsize, hholds⟩ := h addrs List.mem_cons_self
    rw [List.foldlM_cons, dumpRange_eq_ok hsize hholds, ok_bind,
      ih fun a ha ↦ h a (List.mem_cons_of_mem addrs ha), sectionLines, sectionLines,
      List.flatMap_cons, writeLines_append, List.append_assoc]

theorem saveSignature_eq_ok {memory : Memory} {word : ℕ → UInt64} {sigStart sigEnd : ℕ}
    {dataAddrs : List (ℕ × ℕ)} (hsize : 16 ∣ sigEnd - sigStart)
    (hregion : Holds memory word sigStart sigEnd)
    (hdata : ∀ addrs ∈ dataAddrs, 16 ∣ addrs.2 - addrs.1 ∧ Holds memory word addrs.1 addrs.2) :
    saveSignature memory sigStart sigEnd dataAddrs =
      .ok (writeLines (regionLines word sigStart sigEnd ++ sectionLines word dataAddrs)) := by
  rw [saveSignature, dumpRange_eq_ok hsize hregion, ok_bind, foldlM_dumpRange hdata,
    List.nil_append, writeLines_append]

/-- Every line that is written consists of hexadecimal digits. -/
theorem isLineText_of_mem {word : ℕ → UInt64} {start stop : ℕ} {dataAddrs : List (ℕ × ℕ)} :
    ∀ line ∈ regionLines word start stop ++ sectionLines word dataAddrs,
      Text.IsLineText line := by
  have hregion : ∀ start stop, ∀ line ∈ regionLines word start stop, Text.IsLineText line := by
    intro start stop line hline
    obtain ⟨i, -, rfl⟩ := List.mem_map.mp hline
    exact isLineText_wordsLine word i
  intro line hline
  rcases List.mem_append.mp hline with hline | hline
  · exact hregion _ _ line hline
  · obtain ⟨addrs, -, hline⟩ := List.mem_flatMap.mp hline
    exact hregion _ _ line hline

theorem length_hexPad_word (w : UInt64) : (Text.hexPad 16 w.toNat).length = 16 :=
  Text.length_hexPad (by decide) w.toNat_lt

theorem slice_high (word : ℕ → UInt64) (i : ℕ) :
    Text.slice (wordsLine word i ++ ['\n']) 0 16 = Text.hexPad 16 (word (i + 8)).toNat := by
  have hlength := length_hexPad_word (word (i + 8))
  have hline : wordsLine word i ++ ['\n'] =
      [] ++ Text.hexPad 16 (word (i + 8)).toNat ++
        (Text.hexPad 16 (word i).toNat ++ ['\n']) := by
    simp [wordsLine]
  rw [hline]
  exact Text.slice_append_append [] _ _ rfl (by rw [hlength]; rfl)

theorem slice_low (word : ℕ → UInt64) (i : ℕ) :
    Text.slice (wordsLine word i ++ ['\n']) 16 32 = Text.hexPad 16 (word i).toNat := by
  have hhigh := length_hexPad_word (word (i + 8))
  have hlow := length_hexPad_word (word i)
  exact Text.slice_append_append _ _ _ hhigh (by rw [hhigh, hlow])

/-- The word with index `2 k` is in the right column of line `k`, the next one in the left. -/
theorem readWord_eq_ok {lines : List Text} {word : ℕ → UInt64} {start j : ℕ}
    (hline : lines[j / 2]? = some (wordsLine word (start + 16 * (j / 2)) ++ ['\n'])) :
    readWord lines j = .ok ((word (start + 8 * j)).toNat : ℤ) := by
  have hitem : Text.item lines ((j : ℤ) / 2) =
      .ok (wordsLine word (start + 16 * (j / 2)) ++ ['\n']) := by
    have hcast : ((j : ℤ) / 2) = ((j / 2 : ℕ) : ℤ) := by omega
    rw [hcast]
    exact Text.item_of_getElem? hline
  unfold readWord
  rw [hitem, ok_bind]
  rcases Nat.mod_two_eq_zero_or_one j with hparity | hparity
  · have hcolumn : (j : ℤ) % 2 = 0 := by omega
    have haddr : start + 16 * (j / 2) = start + 8 * j := by omega
    rw [hcolumn, haddr]
    exact (congrArg (Text.int 16) (slice_low word (start + 8 * j))).trans (Text.int_hexPad 16 _)
  · have hcolumn : (j : ℤ) % 2 = 1 := by omega
    have haddr : start + 16 * (j / 2) + 8 = start + 8 * j := by omega
    rw [hcolumn, ← haddr]
    exact (congrArg (Text.int 16) (slice_high word (start + 16 * (j / 2)))).trans
      (Text.int_hexPad 16 _)

/-- A section is read in address order. -/
theorem readSection_eq_ok {lines : List Text} {word : ℕ → UInt64} {base start stop : ℕ}
    (hle : start ≤ stop) (hsize : 16 ∣ stop - start)
    (hlines : ∀ k < (stop - start) / 16,
      lines[base + k]? = some (wordsLine word (start + 16 * k) ++ ['\n'])) :
    readSection lines base ((stop : ℤ) - start) = .ok (wordsBetween word start stop) := by
  have hcount : (((stop : ℤ) - start) / 16).toNat = (stop - start) / 16 := by omega
  have hstep : ∀ j ∈ List.range ((stop - start) / 16), ∀ data : List ℤ,
      (do
        let words ← Text.item lines ((base : ℤ) + j)
        let low ← Text.int 16 (Text.slice words 16 32)
        let high ← Text.int 16 (Text.slice words 0 16)
        .ok (data ++ [low, high])) =
        (Except.ok (data ++ [((word (start + 16 * j)).toNat : ℤ),
          ((word (start + 16 * j + 8)).toNat : ℤ)]) : Except PyError (List ℤ)) := by
    intro j hj data
    have hitem := Text.item_of_getElem? (hlines j (List.mem_range.mp hj))
    rw [Nat.cast_add] at hitem
    rw [hitem, ok_bind, slice_low, Text.int_hexPad, ok_bind, slice_high, Text.int_hexPad, ok_bind]
  rw [readSection, hcount, foldlM_eq_ok hstep, List.foldl_append_eq_append, List.nil_append,
    wordsBetween, rangeStep_of_dvd (by decide) ((by decide : 8 ∣ 16).trans hsize)]
  congr 1
  obtain ⟨n, hn⟩ := hsize
  rw [hn, Nat.mul_div_cancel_left n (by decide), show 16 * n / 8 = 2 * n by omega]
  clear hn hlines hcount hstep
  induction n with
  | zero => rfl
  | succ n ih =>
    rw [List.range_succ, List.map_append, List.flatten_append, ih,
      show 2 * (n + 1) = 2 * n + 1 + 1 by omega, List.range_succ, List.range_succ]
    simp [show 8 * (2 * n) = 16 * n by omega, show 8 * (2 * n + 1) = 16 * n + 8 by omega,
      Nat.add_assoc]

namespace Layout

variable (layout : Layout) (word : ℕ → UInt64)

/-- The lines of the first `n` sections. -/
def linesUpTo (n : ℕ) : List Text :=
  (List.range n).flatMap fun i ↦ regionLines word (layout.dataStart i) (layout.dataEnd i)

theorem sectionLines_dataAddrs : sectionLines word layout.dataAddrs = layout.linesUpTo word 6 := by
  rw [sectionLines, dataAddrs, List.flatMap_map]
  rfl

theorem linesUpTo_succ (n : ℕ) :
    layout.linesUpTo word (n + 1) =
      layout.linesUpTo word n ++ regionLines word (layout.dataStart n) (layout.dataEnd n) := by
  rw [linesUpTo, List.range_succ, List.flatMap_append]
  simp [linesUpTo]

theorem linesUpTo_prefix {m n : ℕ} (h : m ≤ n) :
    layout.linesUpTo word m <+: layout.linesUpTo word n := by
  induction n, h using Nat.le_induction with
  | base => exact List.prefix_rfl
  | succ n _ ih =>
    rw [linesUpTo_succ]
    exact ih.trans (List.prefix_append _ _)

/-- The lines of the whole file. -/
def fileLines : List Text :=
  regionLines word layout.sigStart layout.sigEnd ++ layout.linesUpTo word 6

end Layout

section Reading

variable {layout : Layout} {word : ℕ → UInt64}

theorem getElem?_map_of_getElem? {lines : List Text} {k : ℕ} {line : Text}
    (h : lines[k]? = some line) :
    (lines.map fun line ↦ line ++ ['\n'])[k]? = some (line ++ ['\n']) := by
  rw [List.getElem?_map, h]
  rfl

theorem getElem?_region (word : ℕ → UInt64) (haligned : layout.Aligned) {k : ℕ}
    (hk : k < (layout.sigEnd - layout.sigStart) / 16) :
    (layout.fileLines word)[k]? = some (wordsLine word (layout.sigStart + 16 * k)) := by
  have hsize : 16 ∣ layout.sigEnd - layout.sigStart :=
    Nat.dvd_sub haligned.sigEnd haligned.sigStart
  rw [Layout.fileLines, List.getElem?_append_left (by rwa [length_regionLines hsize])]
  exact getElem?_regionLines word hsize hk

/-- Section `i` starts after the region and the sections before it. -/
theorem getElem?_section (word : ℕ → UInt64) (haligned : layout.Aligned) {i k : ℕ} (hi : i < 6)
    (hk : k < (layout.dataEnd i - layout.dataStart i) / 16) :
    (layout.fileLines word)[(layout.sigEnd - layout.sigStart) / 16 +
        (layout.linesUpTo word i).length + k]? =
      some (wordsLine word (layout.dataStart i + 16 * k)) := by
  have hregion : (regionLines word layout.sigStart layout.sigEnd).length =
      (layout.sigEnd - layout.sigStart) / 16 :=
    length_regionLines (Nat.dvd_sub haligned.sigEnd haligned.sigStart)
  have hline := getElem?_regionLines word (haligned.dataSize i hi) hk
  obtain ⟨rest, hrest⟩ := layout.linesUpTo_prefix word (Nat.succ_le_of_lt hi)
  rw [Layout.fileLines, ← hrest, Layout.linesUpTo_succ, ← hregion, Nat.add_assoc,
    List.getElem?_append_right (Nat.le_add_right _ _), Nat.add_sub_cancel_left, List.append_assoc,
    List.getElem?_append_right (Nat.le_add_right _ _), Nat.add_sub_cancel_left]
  rw [List.getElem?_append_left (List.getElem?_eq_some_iff.mp hline).1]
  exact hline

/-- The index that `read_symbols` computes for an output symbol leads `read_sig` to its word. -/
theorem readWord_output (haligned : layout.Aligned) {addr : ℕ} (h : layout.Output addr) :
    readWord ((layout.fileLines word).map fun line ↦ line ++ ['\n'])
      (((addr : ℤ) - layout.sigStart) / 8) = .ok ((word addr).toNat : ℤ) := by
  obtain ⟨m, hm⟩ := h.aligned
  obtain ⟨s, hs⟩ := haligned.sigStart
  obtain ⟨e, he⟩ := haligned.sigEnd
  have hle := h.le
  have hlt := h.lt
  have hidx : ((addr : ℤ) - layout.sigStart) / 8 = ((m - 2 * s : ℕ) : ℤ) := by omega
  have haddr : layout.sigStart + 8 * (m - 2 * s) = addr := by omega
  have hline := getElem?_region word haligned (k := (m - 2 * s) / 2) (by omega)
  rw [hidx, readWord_eq_ok (getElem?_map_of_getElem? hline), haddr]

/-- What one round of the loop over the sections does. -/
theorem dataStep_eq_ok (haligned : layout.Aligned) {n : ℕ} (hn : n < 6)
    (d : Dict Text (List ℤ)) :
    dataStep ((layout.fileLines word).map fun line ↦ line ++ ['\n']) layout.dataAddrs
        (d, (((layout.sigEnd - layout.sigStart) / 16 + (layout.linesUpTo word n).length : ℕ) : ℤ))
        n =
      .ok (d.set (dataKey n) (wordsBetween word (layout.dataStart n) (layout.dataEnd n)),
        (((layout.sigEnd - layout.sigStart) / 16 +
          (layout.linesUpTo word (n + 1)).length : ℕ) : ℤ)) := by
  have hitem : Text.item layout.dataAddrs n = .ok (layout.dataStart n, layout.dataEnd n) := by
    apply Text.item_of_getElem?
    simp [Layout.dataAddrs, hn]
  have hle := haligned.dataLe n hn
  have hsize := haligned.dataSize n hn
  have hread := readSection_eq_ok hle hsize fun k hk ↦
    getElem?_map_of_getElem? (getElem?_section word haligned hn hk)
  have hnext : (layout.linesUpTo word (n + 1)).length =
      (layout.linesUpTo word n).length + (layout.dataEnd n - layout.dataStart n) / 16 := by
    rw [Layout.linesUpTo_succ, List.length_append, length_regionLines hsize]
  unfold dataStep
  rw [hitem, ok_bind]
  dsimp only
  rw [hread, ok_bind, hnext]
  congr 2
  omega

/-- The run of the loop over the first `n` sections. -/
theorem foldlM_dataStep (haligned : layout.Aligned) {n : ℕ} (hn : n ≤ 6) :
    (List.range n).foldlM
        (dataStep ((layout.fileLines word).map fun line ↦ line ++ ['\n']) layout.dataAddrs)
        (Dict.empty, (((layout.sigEnd - layout.sigStart) / 16 : ℕ) : ℤ)) =
      .ok ((List.range n).foldl (fun d i ↦ d.set (dataKey i)
          (wordsBetween word (layout.dataStart i) (layout.dataEnd i))) Dict.empty,
        (((layout.sigEnd - layout.sigStart) / 16 + (layout.linesUpTo word n).length : ℕ) : ℤ)) := by
  induction n with
  | zero => rfl
  | succ n ih =>
    rw [List.range_succ, List.foldlM_append, ih (by omega), ok_bind, List.foldlM_cons,
      dataStep_eq_ok haligned (by omega), List.foldl_append]
    rfl

theorem wordIndex_eq_ok {symbols : Dict Text ℕ} {name : Text} {addr : ℕ}
    (h : symbols.get? name = some addr) (symbolStart : ℕ) :
    wordIndex symbols symbolStart name = .ok (((addr : ℤ) - symbolStart) / 8) := by
  unfold wordIndex symbol
  rw [h]
  rfl

theorem dataSections_eq_ok {symbols : Dict Text ℕ} (h : layout.Describes symbols) :
    dataSections symbols = .ok layout.dataAddrs := by
  apply mapM_eq_ok
  intro i hi
  have hlt := List.mem_range.mp hi
  unfold symbol
  rw [h.dataStart i hlt, h.dataEnd i hlt]
  rfl

/-- The indexes of a layout. -/
def Layout.indexes (layout : Layout) : Indexes where
  xregIdxes := (List.range 32).map fun i ↦ ((layout.xreg i : ℤ) - layout.sigStart) / 8
  fregIdxes := (List.range 32).map fun i ↦ ((layout.freg i : ℤ) - layout.sigStart) / 8
  csrIdxes := csrNames.foldl (fun idxes csr ↦
    idxes.set csr (((layout.csr csr : ℤ) - layout.sigStart) / 8)) Dict.empty
  dataSymbols := layout.dataAddrs
  dataIdxStart := ((layout.sigEnd : ℤ) - layout.sigStart) / (2 * 8)

theorem readSymbols_eq_ok {symbols : Dict Text ℕ} (h : layout.Describes symbols) :
    readSymbols symbols = .ok layout.indexes := by
  have hstart : symbol symbols "begin_signature".toList = .ok layout.sigStart := by
    rw [symbol, h.sigStart]
  have hend : symbol symbols "end_signature".toList = .ok layout.sigEnd := by
    rw [symbol, h.sigEnd]
  have hxreg := mapM_eq_ok fun i hi ↦
    wordIndex_eq_ok (h.xreg i (List.mem_range.mp hi)) layout.sigStart
  have hfreg := mapM_eq_ok fun i hi ↦
    wordIndex_eq_ok (h.freg i (List.mem_range.mp hi)) layout.sigStart
  have hcsr : ∀ csr ∈ csrNames, ∀ idxes : Dict CsrName ℤ,
      (do
        let idx ← wordIndex symbols layout.sigStart (csrSymbol csr)
        .ok (idxes.set csr idx)) =
        (Except.ok (idxes.set csr (((layout.csr csr : ℤ) - layout.sigStart) / 8)) :
          Except PyError (Dict CsrName ℤ)) := by
    intro csr hmem idxes
    rw [wordIndex_eq_ok (h.csr csr hmem), ok_bind]
  unfold readSymbols
  rw [hstart, ok_bind, hend, ok_bind, hxreg, ok_bind, hfreg, ok_bind, foldlM_eq_ok hcsr, ok_bind,
    dataSections_eq_ok h, ok_bind]
  rfl

/-- The values that the memory has at the symbols. -/
structure Layout.Shows (layout : Layout) (word : ℕ → UInt64) (values : SignatureValues) : Prop where
  xreg : values.xregVals = (List.range 32).map fun i ↦ ((word (layout.xreg i)).toNat : ℤ)
  freg : values.fregVals = (List.range 32).map fun i ↦ ((word (layout.freg i)).toNat : ℤ)
  csr : ∀ csr ∈ csrNames, values.csrVals.get? csr = some ((word (layout.csr csr)).toNat : ℤ)
  data : ∀ i < 6, values.dataVals.get? (dataKey i) =
    some (wordsBetween word (layout.dataStart i) (layout.dataEnd i))

theorem readlines_fileLines :
    Text.readlines (writeLines (layout.fileLines word)) =
      (layout.fileLines word).map fun line ↦ line ++ ['\n'] := by
  apply Text.readlines_flatMap
  rw [Layout.fileLines, ← Layout.sectionLines_dataAddrs]
  exact isLineText_of_mem

theorem get?_csrs (value : CsrName → ℤ) (csr : CsrName) :
    (csrNames.foldl (fun d csr ↦ d.set csr (value csr)) Dict.empty).get? csr =
      some (value csr) :=
  Dict.get?_foldl_set (fun csr ↦ csr) value (mem_csrNames csr) (fun _ _ h ↦ h) Dict.empty

theorem readCsrs_eq_ok (haligned : layout.Aligned) :
    csrNames.foldlM (fun vals csr ↦ do
      let idx ← csrIndex layout.indexes.csrIdxes csr
      let val ← readWord ((layout.fileLines word).map fun line ↦ line ++ ['\n']) idx
      .ok (vals.set csr val)) Dict.empty =
      (Except.ok (csrNames.foldl (fun vals csr ↦
        vals.set csr ((word (layout.csr csr)).toNat : ℤ)) Dict.empty) :
          Except PyError (Dict CsrName ℤ)) := by
  apply foldlM_eq_ok
  intro csr hmem vals
  have hidx : layout.indexes.csrIdxes.get? csr =
      some (((layout.csr csr : ℤ) - layout.sigStart) / 8) :=
    get?_csrs (fun csr ↦ ((layout.csr csr : ℤ) - layout.sigStart) / 8) csr
  rw [csrIndex, hidx, ok_bind, readWord_output haligned (haligned.csr csr hmem), ok_bind]

/-- The values that the memory has at the symbols of a layout. -/
def Layout.values (layout : Layout) (word : ℕ → UInt64) : SignatureValues where
  xregVals := (List.range 32).map fun i ↦ ((word (layout.xreg i)).toNat : ℤ)
  fregVals := (List.range 32).map fun i ↦ ((word (layout.freg i)).toNat : ℤ)
  csrVals := csrNames.foldl (fun vals csr ↦
    vals.set csr ((word (layout.csr csr)).toNat : ℤ)) Dict.empty
  dataVals := (List.range 6).foldl (fun d i ↦ d.set (dataKey i)
    (wordsBetween word (layout.dataStart i) (layout.dataEnd i))) Dict.empty

/-- The lines of a layout are read as the words at its symbols. -/
theorem readSig_eq_ok (haligned : layout.Aligned) :
    readSig (writeLines (layout.fileLines word)) layout.indexes = .ok (layout.values word) := by
  have hxreg : layout.indexes.xregIdxes.mapM
      (readWord ((layout.fileLines word).map fun line ↦ line ++ ['\n'])) =
      .ok (layout.values word).xregVals := by
    rw [Layout.indexes, List.mapM_map]
    exact mapM_eq_ok fun i hi ↦ readWord_output haligned (haligned.xreg i (List.mem_range.mp hi))
  have hfreg : layout.indexes.fregIdxes.mapM
      (readWord ((layout.fileLines word).map fun line ↦ line ++ ['\n'])) =
      .ok (layout.values word).fregVals := by
    rw [Layout.indexes, List.mapM_map]
    exact mapM_eq_ok fun i hi ↦ readWord_output haligned (haligned.freg i (List.mem_range.mp hi))
  have hstart : layout.indexes.dataIdxStart =
      (((layout.sigEnd - layout.sigStart) / 16 : ℕ) : ℤ) := by
    have hzero := haligned.xreg 0 (by decide)
    have hle := hzero.le
    have hlt := hzero.lt
    show ((layout.sigEnd : ℤ) - layout.sigStart) / (2 * 8) = _
    omega
  unfold readSig
  dsimp only
  rw [readlines_fileLines, hxreg, ok_bind, hfreg, ok_bind, readCsrs_eq_ok haligned, ok_bind,
    hstart, show layout.indexes.dataSymbols = layout.dataAddrs from rfl,
    foldlM_dataStep haligned le_rfl, ok_bind]
  rfl

theorem Layout.shows_values (layout : Layout) (word : ℕ → UInt64) :
    layout.Shows word (layout.values word) where
  xreg := rfl
  freg := rfl
  csr csr _ := get?_csrs (fun csr ↦ ((word (layout.csr csr)).toNat : ℤ)) csr
  data i hi := by
    apply Dict.get?_foldl_set dataKey _ (List.mem_range.mpr hi)
    intro j _ h
    exact Text.dec_injective (List.append_cancel_left h)

/-- What `save_signature` writes for a layout, `read_sig` reads back word by word. -/
theorem readSig_saveSignature {symbols : Dict Text ℕ} {memory : Memory} (haligned : layout.Aligned)
    (hsymbols : layout.Describes symbols) (hmemory : layout.Stored memory word) :
    ∃ dataAddrs contents indexes values,
      dataSections symbols = .ok dataAddrs ∧
      saveSignature memory layout.sigStart layout.sigEnd dataAddrs = .ok contents ∧
      (∀ file ≠ [], rtlSimulatorSaveSignature (some file) memory layout.sigStart layout.sigEnd
        dataAddrs = .ok (some contents)) ∧
      readSymbols symbols = .ok indexes ∧
      readSig contents indexes = .ok values ∧
      layout.Shows word values := by
  have hdata : ∀ addrs ∈ layout.dataAddrs,
      16 ∣ addrs.2 - addrs.1 ∧ Holds memory word addrs.1 addrs.2 := by
    intro addrs haddrs
    obtain ⟨i, hi, rfl⟩ := List.mem_map.mp haddrs
    have hlt := List.mem_range.mp hi
    exact ⟨haligned.dataSize i hlt, hmemory.data i hlt⟩
  have hsave : saveSignature memory layout.sigStart layout.sigEnd layout.dataAddrs =
      .ok (writeLines (layout.fileLines word)) := by
    rw [saveSignature_eq_ok (Nat.dvd_sub haligned.sigEnd haligned.sigStart) hmemory.region hdata,
      Layout.sectionLines_dataAddrs]
    rfl
  refine ⟨layout.dataAddrs, writeLines (layout.fileLines word), layout.indexes,
    layout.values word, dataSections_eq_ok hsymbols, hsave, ?_, readSymbols_eq_ok hsymbols,
    readSig_eq_ok haligned, layout.shows_values word⟩
  intro file hfile
  have hempty : file.isEmpty = false := by simpa using hfile
  simp only [rtlSimulatorSaveSignature, hempty, hsave, ok_bind]
  rfl

end Reading

/-- The output symbols of a test, each with its address. -/
def Layout.symbolEntries (layout : Layout) : List (List (Text × ℕ)) :=
  [[("begin_signature".toList, layout.sigStart), ("end_signature".toList, layout.sigEnd)],
    (List.range 32).map fun i ↦ (xregSymbol i, layout.xreg i),
    (List.range 32).map fun i ↦ (fregSymbol i, layout.freg i),
    csrNames.map fun csr ↦ (csrSymbol csr, layout.csr csr),
    (List.range 6).map fun i ↦ (dataStartSymbol i, layout.dataStart i),
    (List.range 6).map fun i ↦ (dataEndSymbol i, layout.dataEnd i)]

def symbolNames : List Text :=
  ["begin_signature".toList, "end_signature".toList] ++ (List.range 32).map xregSymbol ++
    (List.range 32).map fregSymbol ++ csrNames.map csrSymbol ++
    (List.range 6).map dataStartSymbol ++ (List.range 6).map dataEndSymbol

theorem symbolNames_nodup : symbolNames.Nodup := by decide

/-- The symbol table that the linker writes for a layout. -/
def Layout.symbols (layout : Layout) : Dict Text ℕ where
  entries := layout.symbolEntries.flatten
  nodup := by
    have hnames : layout.symbolEntries.flatten.map Prod.fst = symbolNames := rfl
    rw [hnames]
    exact symbolNames_nodup

theorem Layout.get?_symbols (layout : Layout) {group : List (Text × ℕ)} {name : Text} {addr : ℕ}
    (hgroup : group ∈ layout.symbolEntries) (hentry : (name, addr) ∈ group) :
    layout.symbols.get? name = some addr :=
  Dict.get?_eq_some_iff.mpr (List.mem_flatten.mpr ⟨group, hgroup, hentry⟩)

theorem Layout.describes_symbols (layout : Layout) : layout.Describes layout.symbols := by
  have hrange : ∀ {α : Type} {n i : ℕ} (f : ℕ → α), i < n → f i ∈ (List.range n).map f :=
    fun f hi ↦ List.mem_map_of_mem (List.mem_range.mpr hi)
  constructor
  · exact layout.get?_symbols (.head _) (.head _)
  · exact layout.get?_symbols (.head _) (.tail _ (.head _))
  · intro i hi
    exact layout.get?_symbols (.tail _ (.head _))
      (hrange (fun i ↦ (xregSymbol i, layout.xreg i)) hi)
  · intro i hi
    exact layout.get?_symbols (.tail _ (.tail _ (.head _)))
      (hrange (fun i ↦ (fregSymbol i, layout.freg i)) hi)
  · intro csr hmem
    exact layout.get?_symbols (.tail _ (.tail _ (.tail _ (.head _))))
      (List.mem_map_of_mem (f := fun csr ↦ (csrSymbol csr, layout.csr csr)) hmem)
  · intro i hi
    exact layout.get?_symbols (.tail _ (.tail _ (.tail _ (.tail _ (.head _)))))
      (hrange (fun i ↦ (dataStartSymbol i, layout.dataStart i)) hi)
  · intro i hi
    exact layout.get?_symbols (.tail _ (.tail _ (.tail _ (.tail _ (.tail _ (.head _))))))
      (hrange (fun i ↦ (dataEndSymbol i, layout.dataEnd i)) hi)

/-- A linked test: 94 output words and six sections of four words. -/
def linkedLayout : Layout where
  sigStart := 0x80002000
  sigEnd := 0x800022f0
  xreg i := 0x80002000 + 8 * i
  freg i := 0x80002100 + 8 * i
  csr csr := 0x80002200 + 8 * csrNames.idxOf csr
  dataStart i := 0x80003000 + 0x40 * i
  dataEnd i := 0x80003020 + 0x40 * i

theorem linkedLayout_aligned : linkedLayout.Aligned where
  sigStart := by decide
  sigEnd := by decide
  xreg i hi := ⟨by simp [linkedLayout]; omega, by simp [linkedLayout],
    by simp [linkedLayout]; omega⟩
  freg i hi := ⟨by simp [linkedLayout]; omega, by simp [linkedLayout]; omega,
    by simp [linkedLayout]; omega⟩
  csr csr _ := by cases csr <;> exact ⟨by decide, by decide, by decide⟩
  dataLe i _ := by simp [linkedLayout]
  dataSize i _ := by simp [linkedLayout]; omega

theorem readSig_saveSignature_linked :
    ∃ dataAddrs contents indexes values,
      dataSections linkedLayout.symbols = .ok dataAddrs ∧
      saveSignature (fun addr ↦ some (UInt64.ofNat (addr * addr)).toNat) linkedLayout.sigStart
        linkedLayout.sigEnd dataAddrs = .ok contents ∧
      (∀ file ≠ [], rtlSimulatorSaveSignature (some file)
        (fun addr ↦ some (UInt64.ofNat (addr * addr)).toNat) linkedLayout.sigStart
        linkedLayout.sigEnd dataAddrs = .ok (some contents)) ∧
      readSymbols linkedLayout.symbols = .ok indexes ∧
      readSig contents indexes = .ok values ∧
      linkedLayout.Shows (fun addr ↦ UInt64.ofNat (addr * addr)) values :=
  readSig_saveSignature linkedLayout_aligned linkedLayout.describes_symbols
    { region := fun _ _ ↦ rfl
      data := fun _ _ _ _ ↦ rfl }

end ProcessorFuzz.Execution.SignatureFile
