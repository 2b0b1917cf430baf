import ProcessorFuzz.Execution.RtlMemory
import ProcessorFuzz.Mutation.SimInput

/-!
# The preprocessor

`process` turns a test and its data into an assembly file: the lines of a template with the three
parts of the test and the six data sections inserted behind their labels. It pops one interrupt
value for every main instruction, and writes the addresses of the interrupts once the program is
linked.

A data section is emitted in pairs of words. All but the first two and the last two pairs have a
label, numbered from zero, for the memory accesses of the test.
-/

namespace ProcessorFuzz.Execution.Preprocessor

open Library Mutation SignatureFile RtlMemory

/-- A line `f'{label:<16}.dword 0x{low:016x}, 0x{high:016x}\n'` of a data section. -/
structure DataLine where
  label : Text
  low : ℤ
  high : ℤ
  deriving DecidableEq

def DataLine.text (line : DataLine) : Text :=
  Text.ljust 16 line.label ++ ".dword 0x".toList ++ Text.zeroPadInt 16 16 line.low ++
    ", 0x".toList ++ Text.zeroPadInt 16 16 line.high ++ "\n".toList

/-- `f'd_{n}_{k}'`. -/
def dataLabel (n k : ℕ) : Text := "d_".toList ++ Text.dec n ++ "_".toList ++ Text.dec k

/-- One round of the loop over a section. The state is the counter `k` and the lines so far. -/
def dataStep (data : List ℤ) (n start stop : ℕ) (state : ℕ × List DataLine) (i : ℕ) :
    Except PyError (ℕ × List DataLine) := do
  let low ← Text.item data i
  let high ← Text.item data (i + 1 : ℕ)
  if start + 2 < i ∧ i + 4 < stop then
    .ok (state.1 + 1, state.2 ++ [{ label := dataLabel n state.1 ++ ":".toList, low, high }])
  else .ok (state.1, state.2 ++ [{ label := [], low, high }])

/-- The lines of section `n`. -/
def emitSection (data : List ℤ) (sectionSize n : ℕ) : Except PyError (List DataLine) := do
  let start := n * sectionSize
  let stop := start + sectionSize
  let state ← (rangeStep start stop 2).foldlM (dataStep data n start stop) (0, [])
  .ok state.2

/-- `_random_data{n}`, `_fuzz_main:` and so on, somewhere in a line of the template. -/
def Marks (marker : Text) (line : Text) : Prop := marker <:+: line

instance (marker line : Text) : Decidable (Marks marker line) :=
  inferInstanceAs (Decidable (marker <:+: line))

/-- The data sections that belong behind a line of the template. -/
def dataInsertion (data : List ℤ) (sectionSize numDataSections : ℕ) (line : Text) :
    Except PyError (List Text) :=
  (List.range numDataSections).foldlM (fun assembly n ↦
    if Marks (dataStartSymbol n) line then do
      let lines ← emitSection data sectionSize n
      .ok (assembly ++ lines.map DataLine.text)
    else .ok assembly) []

/-- `f'{inst};\n'`. -/
def instLine (inst : Text) : Text := inst ++ ";\n".toList

/-- The suffix, with illegal rounding modes thrown in. -/
def suffixInsertion (suffixInsts : List Text) (draws : Draws) :
    Except PyError (List Text × Draws) :=
  suffixInsts.foldlM (fun state inst ↦ do
    let (a, draws) ← state.2.randint 0 7
    let illegal := if "fnmadd.s".toList <:+: inst ∧ a = 6 then [".word 0xa106e5cf;\n".toList] else []
    .ok (state.1 ++ illegal ++ [instLine inst], draws)) ([], draws)

/-- The parts of a test as lists of lines. -/
structure Parts where
  prefixInsts : List Text
  insts : List Text
  suffixInsts : List Text

/-- A line of the template with everything that is inserted behind it. -/
def expandLine (parts : Parts) (data : List ℤ) (sectionSize numDataSections : ℕ)
    (state : List Text × Draws) (line : Text) : Except PyError (List Text × Draws) := do
  let prefixLines :=
    if Marks "_fuzz_prefix:".toList line then parts.prefixInsts.map instLine else []
  let mainLines := if Marks "_fuzz_main:".toList line then parts.insts.map instLine else []
  let (suffixLines, draws) ←
    suffixInsertion (if Marks "_fuzz_suffix:".toList line then parts.suffixInsts else []) state.2
  let dataLines ← dataInsertion data sectionSize numDataSections line
  .ok (state.1 ++ line :: (prefixLines ++ mainLines ++ suffixLines ++ dataLines), draws)

/-- The loop over the lines of the template. -/
def assemble (parts : Parts) (data : List ℤ) (sectionSize numDataSections : ℕ)
    (templateLines : List Text) (draws : Draws) : Except PyError (List Text × Draws) :=
  templateLines.foldlM (expandLine parts data sectionSize numDataSections) ([], draws)

/-- One value is popped for each instruction; `la` is expanded into two instructions. -/
def popInts : List Text → List ℤ → Except PyError (List ℤ)
  | [], _ => .ok []
  | _ :: _, [] => .error .indexError
  | inst :: insts, int :: ints => do
    let rest ← popInts insts ints
    .ok ((if "la".toList <:+: inst then [int, 0] else [int]) ++ rest)

/-- The interrupt file: the addresses of the instructions that are interrupted. -/
def rtlIntrFile (fuzzMain : ℕ) (ints : List ℤ) : Text :=
  ints.zipIdx.flatMap fun entry ↦
    if entry.1 = 0 then []
    else Text.hexPad 16 (fuzzMain + 4 * entry.2) ++ ":".toList ++ Text.zeroPadInt 2 4 entry.1 ++
      "\n".toList

/-- The index of the template `V_U`. -/
def templateVU : ℕ := 3

/-- The toolchain: the hex file and the symbols of an assembly file, none when it does not
compile. -/
abbrev Toolchain := Text → Option (Text × Dict Text ℕ)

/-- The files that `process` writes, and the input of the RTL simulation. -/
structure Processed where
  siFile : Text
  asmFile : Text
  rtlInput : Option RtlInput

/-- The assertions on the data. -/
def checkData (data : List ℤ) (numDataSections : ℕ) : Except PyError Unit := do
  assert (!data.isEmpty) "Empty data cannot be processed"
  let sectionSize := data.length / numDataSections
  assert (decide (sectionSize &&& (sectionSize - 1) = 0))
    "Number of memory blocks should be power of 2"

def process (toolchain : Toolchain) (templateLines : List Text) (simInput : SimInput)
    (data : List ℤ) (intr : Bool) (draws : Draws) (numDataSections : ℕ) :
    Except PyError (Processed × Draws) := do
  checkData data numDataSections
  let _ ← Text.item templates simInput.template
  let prefixInsts ← simInput.getPrefix
  let insts ← simInput.getInsts
  let suffixInsts ← simInput.getSuffix
  let ints ← popInts insts.dropLast simInput.ints
  let siFile ← simInput.save data
  let (assembly, draws) ← assemble { prefixInsts, insts, suffixInsts } data
    (data.length / numDataSections) numDataSections templateLines draws
  let asmFile := assembly.flatten
  match toolchain asmFile with
  | none => .ok ({ siFile, asmFile, rtlInput := none }, draws)
  | some (hexfile, symbols) => do
    let intrfile ←
      if intr then do
        let fuzzMain ← symbol symbols "_fuzz_main".toList
        .ok (rtlIntrFile fuzzMain ints)
      else .ok []
    let maxCycles := if simInput.template = templateVU then 200000 else 6000
    .ok ({ siFile, asmFile, rtlInput := some { hexfile, intrfile, data, symbols, maxCycles } },
      draws)

/-- The pair number `j` of a section: the first two and the last two have no label. -/
def pairLabel (sectionSize n j : ℕ) : Text :=
  if 2 ≤ j ∧ j + 2 < sectionSize / 2 then dataLabel n (j - 2) ++ ":".toList else []

/-- The words that a line stores. -/
def DataLine.words (line : DataLine) : List ℤ := [line.low, line.high]

/-- The line of pair number `j`. -/
def pairLine (data : List ℤ) (sectionSize n j : ℕ) : DataLine where
  label := pairLabel sectionSize n j
  low := data.getD (n * sectionSize + 2 * j) 0
  high := data.getD (n * sectionSize + 2 * j + 1) 0

/-- The value of `k` after the first `j` pairs. -/
def labelCount (sectionSize j : ℕ) : ℕ := min (j - 2) (sectionSize / 2 - 4)

theorem item_eq_getD {data : List ℤ} {i : ℕ} (h : i < data.length) :
    Text.item data i = .ok (data.getD i 0) := by
  have hget : data[i]? = some (data.getD i 0) := by
    rw [List.getD_eq_getElem?_getD, List.getElem?_eq_getElem h, Option.getD_some]
  exact Text.item_of_getElem? hget

section Emission

variable {data : List ℤ} {sectionSize n : ℕ}

/-- A round of the loop appends the line of its pair. -/
theorem dataStep_eq_ok (heven : 2 ∣ sectionSize) (hlength : (n + 1) * sectionSize ≤ data.length)
    {j : ℕ} (hj : j < sectionSize / 2) (lines : List DataLine) :
    dataStep data n (n * sectionSize) (n * sectionSize + sectionSize)
      (labelCount sectionSize j, lines) (n * sectionSize + 2 * j) =
      .ok (labelCount sectionSize (j + 1), lines ++ [pairLine data sectionSize n j]) := by
  have hnext : (n + 1) * sectionSize = n * sectionSize + sectionSize := Nat.succ_mul n sectionSize
  have hlow : n * sectionSize + 2 * j < data.length := by omega
  have hhigh : n * sectionSize + 2 * j + 1 < data.length := by omega
  rw [dataStep, item_eq_getD hlow, ok_bind, item_eq_getD hhigh, ok_bind]
  by_cases hlabel : 2 ≤ j ∧ j + 2 < sectionSize / 2
  · have hcount : labelCount sectionSize j = j - 2 := by
      rw [labelCount]
      omega
    have hcount' : labelCount sectionSize (j + 1) = j - 2 + 1 := by
      rw [labelCount]
      omega
    rw [if_pos (by omega), hcount, hcount', pairLine, pairLabel, if_pos hlabel]
  · have hcount : labelCount sectionSize (j + 1) = labelCount sectionSize j := by
      rw [labelCount, labelCount]
      omega
    rw [if_neg (by omega), hcount, pairLine, pairLabel, if_neg hlabel]

theorem foldlM_dataStep_eq_ok (heven : 2 ∣ sectionSize)
    (hlength : (n + 1) * sectionSize ≤ data.length) {m : ℕ} (hm : m ≤ sectionSize / 2) :
    ((List.range m).map fun j ↦ n * sectionSize + 2 * j).foldlM
      (dataStep data n (n * sectionSize) (n * sectionSize + sectionSize)) (0, []) =
      .ok (labelCount sectionSize m, (List.range m).map (pairLine data sectionSize n)) := by
  induction m with
  | zero =>
    rw [labelCount, Nat.zero_sub, Nat.zero_min]
    rfl
  | succ m ih =>
    rw [List.range_succ, List.map_append, List.map_append, List.foldlM_append, ih (by omega),
      ok_bind, List.map_singleton, List.map_singleton, List.foldlM_cons,
      dataStep_eq_ok heven hlength (by omega)]
    rfl

/-- A section is emitted pair by pair, from its first word to its last. -/
theorem emitSection_eq_ok (heven : 2 ∣ sectionSize)
    (hlength : (n + 1) * sectionSize ≤ data.length) :
    emitSection data sectionSize n =
      .ok ((List.range (sectionSize / 2)).map (pairLine data sectionSize n)) := by
  have hrange : rangeStep (n * sectionSize) (n * sectionSize + sectionSize) 2 =
      (List.range (sectionSize / 2)).map fun j ↦ n * sectionSize + 2 * j := by
    rw [rangeStep_of_dvd (by decide) (by rwa [Nat.add_sub_cancel_left]), Nat.add_sub_cancel_left]
  rw [emitSection, hrange, foldlM_dataStep_eq_ok heven hlength le_rfl]
  rfl

/-- Pairs of consecutive words are the words in order. -/
theorem flatMap_pairs {α : Type*} (word : ℕ → α) (m : ℕ) :
    (List.range m).flatMap (fun j ↦ [word (2 * j), word (2 * j + 1)]) =
      (List.range (2 * m)).map word := by
  induction m with
  | zero => rfl
  | succ m ih =>
    rw [List.range_succ, List.flatMap_append, ih, List.flatMap_singleton,
      show 2 * (m + 1) = 2 * m + 1 + 1 by omega, List.range_succ, List.range_succ,
      List.map_append, List.map_append, List.append_assoc]
    rfl

/-- The words of a section are those of the data from `n * sectionSize` on, each once and in
order. -/
theorem words_pairLines (heven : 2 ∣ sectionSize) (hlength : (n + 1) * sectionSize ≤ data.length) :
    ((List.range (sectionSize / 2)).map (pairLine data sectionSize n)).flatMap DataLine.words =
      (data.drop (n * sectionSize)).take sectionSize := by
  have hnext : (n + 1) * sectionSize = n * sectionSize + sectionSize := Nat.succ_mul n sectionSize
  calc
    ((List.range (sectionSize / 2)).map (pairLine data sectionSize n)).flatMap DataLine.words
        = (List.range (2 * (sectionSize / 2))).map
            (fun i ↦ data.getD (n * sectionSize + i) 0) := by
      rw [List.flatMap_map, ← flatMap_pairs fun i ↦ data.getD (n * sectionSize + i) 0]
      rfl
    _ = (List.range sectionSize).map (fun i ↦ data.getD (n * sectionSize + i) 0) := by
      rw [Nat.mul_div_cancel' heven]
    _ = (data.drop (n * sectionSize)).take sectionSize := by
      apply List.ext_getElem
      · simp only [List.length_map, List.length_range, List.length_take, List.length_drop]
        omega
      · intro i hi hi'
        have hlt : i < sectionSize := by simpa using hi
        rw [List.getElem_map, List.getElem_range, List.getElem_take, List.getElem_drop,
          List.getD_eq_getElem?_getD, List.getElem?_eq_getElem (by omega), Option.getD_some]

end Emission

end ProcessorFuzz.Execution.Preprocessor
