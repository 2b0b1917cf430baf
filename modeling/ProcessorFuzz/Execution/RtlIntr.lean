import ProcessorFuzz.Execution.Preprocessor
import ProcessorFuzz.Mutation.MakeNop
import ProcessorFuzz.Mutation.SimInputRoundTrip
import Mathlib.Algebra.Order.BigOperators.Group.List

/-!
# The addresses of the interrupts

The interrupt file names an address for each main instruction that is interrupted. `process` counts
machine instructions for it: two for a line in which `la` occurs, and one for any other. The letters
also occur in `fclass.s`, `fclass.d` and `fflags`, so that the interrupts behind such a line go to
the wrong addresses.
-/

namespace ProcessorFuzz.Execution.Preprocessor

open Library Mutation SignatureFile RtlMemory

/-- What stands in a line behind its label. -/
def instText (line : Text) : Text := (line.rtakeWhile (· ≠ ':')).dropWhile Text.isSpace

/-- The line is `la rd, symbol`. -/
def IsLoadAddress (line : Text) : Prop := "la ".toList <+: instText line

instance (line : Text) : Decidable (IsLoadAddress line) :=
  inferInstanceAs (Decidable ("la ".toList <+: instText line))

/-- What the assembler makes of a line. -/
def machineInsts (line : Text) : ℕ := if IsLoadAddress line then 2 else 1

/-- What `process` takes a line for. -/
def countedInsts (line : Text) : ℕ := if "la".toList <:+: line then 2 else 1

/-- A line with the letters `la` that is no `la` instruction. -/
def Miscounted (line : Text) : Prop := "la".toList <:+: line ∧ ¬ IsLoadAddress line

instance (line : Text) : Decidable (Miscounted line) :=
  inferInstanceAs (Decidable (_ ∧ _))

theorem IsLoadAddress.infix {line : Text} (h : IsLoadAddress line) : "la".toList <:+: line := by
  have hla : "la".toList <+: "la ".toList := ⟨" ".toList, rfl⟩
  have hinst : instText line <:+: line :=
    (List.dropWhile_suffix _).isInfix.trans (List.rtakeWhile_suffix _ _).isInfix
  exact (hla.trans h).isInfix.trans hinst

theorem machineInsts_le_countedInsts (line : Text) : machineInsts line ≤ countedInsts line := by
  rw [machineInsts, countedInsts]
  by_cases h : IsLoadAddress line
  · rw [if_pos h, if_pos h.infix]
  · rw [if_neg h]
    split <;> decide

theorem machineInsts_lt_countedInsts_iff {line : Text} :
    machineInsts line < countedInsts line ↔ Miscounted line := by
  rw [machineInsts, countedInsts, Miscounted]
  by_cases h : IsLoadAddress line
  · rw [if_pos h, if_pos h.infix]
    exact iff_of_false (by decide) fun hmis ↦ hmis.2 h
  · rw [if_neg h]
    by_cases hwithin : "la".toList <:+: line
    · rw [if_pos hwithin]
      exact iff_of_true (by decide) ⟨hwithin, h⟩
    · rw [if_neg hwithin]
      exact iff_of_false (by decide) fun hmis ↦ hwithin hmis.1

/-- A line of the interrupt file. -/
def intrLine (addr : ℕ) (int : ℤ) : Text :=
  Text.hexPad 16 addr ++ ":".toList ++ Text.zeroPadInt 2 4 int ++ "\n".toList

/-- The positions of the interrupts. -/
def interrupted (ints : List ℤ) : List ℕ :=
  (List.range ints.length).filter fun j ↦ ints.getD j 0 ≠ 0

/-- The address of line `j` when each line stands for `size` machine instructions. -/
def lineAddr (size : Text → ℕ) (fuzzMain : ℕ) (lines : List Text) (j : ℕ) : ℕ :=
  fuzzMain + 4 * ((lines.take j).map size).sum

/-- A line for each interrupted instruction. -/
def intrLines (size : Text → ℕ) (fuzzMain : ℕ) (lines : List Text) (ints : List ℤ) : List Text :=
  (interrupted ints).map fun j ↦ intrLine (lineAddr size fuzzMain lines j) (ints.getD j 0)

section File

variable {size : Text → ℕ} {fuzzMain : ℕ} {line : Text} {lines : List Text} {int : ℤ}
  {ints popped : List ℤ}

theorem interrupted_cons : interrupted (int :: ints) =
    (if int = 0 then [] else [0]) ++ (interrupted ints).map Nat.succ := by
  rw [interrupted, List.length_cons, List.range_succ_eq_map, List.filter_cons, List.filter_map]
  by_cases h : int = 0
  · simp [h, interrupted, Function.comp_def]
  · simp [h, interrupted, Function.comp_def]

theorem lineAddr_succ (j : ℕ) : lineAddr size fuzzMain (line :: lines) (j + 1) =
    lineAddr size (fuzzMain + 4 * size line) lines j := by
  rw [lineAddr, lineAddr, List.take_succ_cons, List.map_cons, List.sum_cons]
  omega

theorem intrLines_cons : intrLines size fuzzMain (line :: lines) (int :: ints) =
    (if int = 0 then [] else [intrLine fuzzMain int]) ++
      intrLines size (fuzzMain + 4 * size line) lines ints := by
  have hrest : ((interrupted ints).map Nat.succ).map (fun j ↦
      intrLine (lineAddr size fuzzMain (line :: lines) j) ((int :: ints).getD j 0)) =
        intrLines size (fuzzMain + 4 * size line) lines ints := by
    rw [List.map_map]
    apply List.map_congr_left
    intro j _
    rw [Function.comp_apply, Nat.succ_eq_add_one, lineAddr_succ, List.getD_cons_succ]
  rw [intrLines, interrupted_cons, List.map_append, hrest]
  by_cases h : int = 0
  · rw [if_pos h, if_pos h, List.map_nil]
  · rw [if_neg h, if_neg h]
    rfl

theorem rtlIntrFile_cons : rtlIntrFile fuzzMain (int :: ints) =
    (if int = 0 then [] else intrLine fuzzMain int) ++ rtlIntrFile (fuzzMain + 4) ints := by
  rw [rtlIntrFile, List.zipIdx_cons', List.flatMap_cons, List.flatMap_map]
  congr 1
  apply congrArg List.flatten
  apply List.map_congr_left
  intro entry _
  have haddr : fuzzMain + 4 * (entry.2 + 1) = fuzzMain + 4 + 4 * entry.2 := by omega
  simp only [Prod.map, id, haddr]

/-- The file has the addresses that `process` counts. -/
theorem rtlIntrFile_eq (hlength : ints.length = lines.length)
    (h : popInts lines ints = .ok popped) :
    rtlIntrFile fuzzMain popped = (intrLines countedInsts fuzzMain lines ints).flatten := by
  induction lines generalizing ints popped fuzzMain with
  | nil =>
    obtain rfl := List.length_eq_zero_iff.mp hlength
    obtain rfl := Except.ok.inj h
    rfl
  | cons line lines ih =>
    cases ints with
    | nil => exact nomatch hlength
    | cons int ints =>
      obtain ⟨rest, hrest, hpopped⟩ := bind_eq_ok.mp h
      obtain rfl := Except.ok.inj hpopped
      have hfile (fuzzMain : ℕ) : rtlIntrFile fuzzMain rest = _ := ih (Nat.succ.inj hlength) hrest
      have hhead : (if int = 0 then [] else [intrLine fuzzMain int]).flatten =
          if int = 0 then [] else intrLine fuzzMain int := by
        split
        · rfl
        · exact List.flatten_singleton
      rw [intrLines_cons, List.flatten_append, hhead, ← hfile, countedInsts]
      by_cases hla : "la".toList <:+: line
      · rw [if_pos hla, if_pos hla, List.cons_append, rtlIntrFile_cons, List.singleton_append,
          rtlIntrFile_cons, if_pos rfl, List.nil_append]
      · rw [if_neg hla, if_neg hla, List.singleton_append, rtlIntrFile_cons]

theorem isLineText_intr (addr : ℕ) (int : ℤ) :
    Text.IsLineText (Text.hexPad 16 addr ++ ":".toList ++ Text.zeroPadInt 2 4 int) :=
  ((Text.isLineText_hexPad 16 addr).append (by decide)).append
    (Text.isLineText_zeroPadInt (by decide) (by decide) 4 int)

theorem readlines_intrLines :
    Text.readlines (intrLines size fuzzMain lines ints).flatten =
      intrLines size fuzzMain lines ints := by
  have hflatten : (intrLines size fuzzMain lines ints).flatten =
      ((interrupted ints).map fun j ↦ Text.hexPad 16 (lineAddr size fuzzMain lines j) ++
        ":".toList ++ Text.zeroPadInt 2 4 (ints.getD j 0)).flatMap fun line ↦ line ++ ['\n'] := by
    rw [List.flatMap_map]
    rfl
  rw [hflatten, Text.readlines_flatMap, List.map_map]
  · rfl
  · intro line hline
    obtain ⟨j, -, rfl⟩ := List.mem_map.mp hline
    exact isLineText_intr _ _

/-- The address in a line of the file. -/
def addrOf (line : Text) : ℕ := Text.numeralValue 16 (line.takeWhile (· ≠ ':'))

theorem addrOf_intrLine (addr : ℕ) : addrOf (intrLine addr int) = addr := by
  have hnumeral := @Text.isNumeral_zeroPad 16 (by decide) (by decide) 16 addr
  have hcolon : ∀ c ∈ Text.hexPad 16 addr, decide (c ≠ ':') = true := by
    intro c hc
    exact decide_eq_true (hnumeral.ne_of_digitValue (fun d _ ↦ by simp [Text.digitValue]) c hc)
  have htake : (intrLine addr int).takeWhile (· ≠ ':') = Text.hexPad 16 addr := by
    rw [intrLine, List.append_assoc, List.append_assoc, List.takeWhile_append_of_pos hcolon]
    exact List.append_nil _
  rw [addrOf, htake]
  exact Text.numeralValue_zeroPad (by decide) (by decide) 16 addr

theorem addrs_intrLines : (intrLines size fuzzMain lines ints).map addrOf =
    (interrupted ints).map (lineAddr size fuzzMain lines) := by
  rw [intrLines, List.map_map]
  apply List.map_congr_left
  intro j _
  exact addrOf_intrLine _

theorem lineAddr_le (j : ℕ) :
    lineAddr machineInsts fuzzMain lines j ≤ lineAddr countedInsts fuzzMain lines j := by
  have hsum := List.sum_le_sum (l := lines.take j) fun line _ ↦ machineInsts_le_countedInsts line
  rw [lineAddr, lineAddr]
  omega

theorem lineAddr_lt {j : ℕ} (h : ∃ line ∈ lines.take j, Miscounted line) :
    lineAddr machineInsts fuzzMain lines j < lineAddr countedInsts fuzzMain lines j := by
  obtain ⟨line, hline, hmis⟩ := h
  have hsum := List.sum_lt_sum (l := lines.take j) machineInsts countedInsts
    (fun line _ ↦ machineInsts_le_countedInsts line)
    ⟨line, hline, machineInsts_lt_countedInsts_iff.mpr hmis⟩
  rw [lineAddr, lineAddr]
  omega

/-- The file is right exactly when no line before an interrupt is miscounted: otherwise its
addresses are too high. -/
theorem intrLines_perm_iff :
    (intrLines countedInsts fuzzMain lines ints).Perm
        (intrLines machineInsts fuzzMain lines ints) ↔
      ∀ j ∈ interrupted ints, ∀ line ∈ lines.take j, ¬ Miscounted line := by
  constructor
  · intro hperm j hj line hline hmis
    have hsum := (hperm.map addrOf).sum_eq
    rw [addrs_intrLines, addrs_intrLines] at hsum
    have hlt := List.sum_lt_sum (l := interrupted ints) (lineAddr machineInsts fuzzMain lines)
      (lineAddr countedInsts fuzzMain lines) (fun k _ ↦ lineAddr_le k)
      ⟨j, hj, lineAddr_lt ⟨line, hline, hmis⟩⟩
    exact absurd hsum hlt.ne'
  · intro h
    have heq : intrLines countedInsts fuzzMain lines ints =
        intrLines machineInsts fuzzMain lines ints := by
      apply List.map_congr_left
      intro j hj
      have hsizes : (lines.take j).map countedInsts = (lines.take j).map machineInsts := by
        apply List.map_congr_left
        intro line hline
        have hnot := mt machineInsts_lt_countedInsts_iff.mp (h j hj line hline)
        exact le_antisymm (not_lt.mp hnot) (machineInsts_le_countedInsts line)
      rw [lineAddr, lineAddr, hsizes]
    rw [heq]

end File

/-- Whatever is returned, the words were populated. -/
theorem eq_of_partInsts_eq_ok {part : Part} {words : List Word} {num : ℕ} {insts : List Text}
    (h : SimInput.partInsts part words num = .ok insts) :
    insts = words.flatMap Word.retInsts ++ [Word.labelText part num] := by
  have hpopulated : ∀ w ∈ words, w.populated = true := by
    obtain ⟨lines, hlines, -⟩ := bind_eq_ok.mp h
    clear h
    generalize ([] : List Text) = acc at hlines
    induction words generalizing acc with
    | nil => exact nofun
    | cons w words ih =>
      rw [List.foldlM_cons] at hlines
      obtain ⟨acc', hacc', hrest⟩ := bind_eq_ok.mp hlines
      obtain ⟨wordInsts, hword, -⟩ := bind_eq_ok.mp hacc'
      obtain ⟨_, hassert, _⟩ := bind_eq_ok.mp hword
      exact List.forall_mem_cons.mpr ⟨assert_eq_ok.mp hassert, ih acc' hrest⟩
  rw [partInsts_eq hpopulated] at h
  exact (Except.ok.inj h).symm

variable {toolchain : Toolchain} {templateLines : List Text} {x : SimInput} {data : List ℤ}
  {draws draws' : Draws} {numDataSections : ℕ} {p : Processed} {input : RtlInput}

/-- The file that `process` writes when interrupts are asserted. -/
theorem exists_popInts_of_process
    (h : process toolchain templateLines x data true draws numDataSections = .ok (p, draws'))
    (hinput : p.rtlInput = some input) :
    ∃ fuzzMain popped, symbol input.symbols "_fuzz_main".toList = .ok fuzzMain ∧
      popInts (x.words.flatMap Word.retInsts) x.ints = .ok popped ∧
      input.intrfile = rtlIntrFile fuzzMain popped := by
  obtain ⟨_, _, h⟩ := bind_eq_ok.mp h
  obtain ⟨_, _, h⟩ := bind_eq_ok.mp h
  obtain ⟨_, _, h⟩ := bind_eq_ok.mp h
  obtain ⟨insts, hinsts, h⟩ := bind_eq_ok.mp h
  obtain ⟨_, _, h⟩ := bind_eq_ok.mp h
  obtain ⟨popped, hpopped, h⟩ := bind_eq_ok.mp h
  obtain ⟨_, _, h⟩ := bind_eq_ok.mp h
  obtain ⟨assembly, _, h⟩ := bind_eq_ok.mp h
  rw [eq_of_partInsts_eq_ok hinsts, List.dropLast_concat] at hpopped
  dsimp only at h
  split at h
  · obtain ⟨rfl, -⟩ := Prod.mk.inj (Except.ok.inj h)
    exact nomatch hinput
  · rw [if_pos rfl] at h
    obtain ⟨fuzzMain, hsymbol, h⟩ := bind_eq_ok.mp h
    obtain ⟨rfl, -⟩ := Prod.mk.inj (Except.ok.inj h)
    obtain rfl := Option.some.inj hinput
    exact ⟨fuzzMain, popped, hsymbol, hpopped, rfl⟩

/-- The interrupt file has exactly one line for each interrupted instruction, with its address in
the assembled program, if and only if no line before an interrupt has the letters `la` without being
a `la` instruction. -/
theorem process_intrfile_iff
    (hprocess : process toolchain templateLines x data true draws numDataSections =
      .ok (p, draws'))
    (hinput : p.rtlInput = some input)
    (hints : x.ints.length = (x.words.flatMap Word.retInsts).length) :
    ∃ fuzzMain, symbol input.symbols "_fuzz_main".toList = .ok fuzzMain ∧
      ((Text.readlines input.intrfile).Perm
          (intrLines machineInsts fuzzMain (x.words.flatMap Word.retInsts) x.ints) ↔
        ∀ j ∈ interrupted x.ints, ∀ line ∈ (x.words.flatMap Word.retInsts).take j,
          ¬ Miscounted line) := by
  obtain ⟨fuzzMain, popped, hsymbol, hpopped, hfile⟩ := exists_popInts_of_process hprocess hinput
  refine ⟨fuzzMain, hsymbol, ?_⟩
  rw [hfile, rtlIntrFile_eq hints hpopped, readlines_intrLines]
  exact intrLines_perm_iff

def classWord : Word where
  label := 0
  insts := ["fclass.s xreg0, freg0".toList]
  operands := ["xreg0".toList, "freg0".toList]
  populated := false
  retInsts := []

def classOpvals : Dict Text Text :=
  (Dict.empty.set "xreg0".toList "x5".toList).set "freg0".toList "f1".toList

def classTest : SimInput :=
  SimInput.new []
    [{ label := 0
       insts := ["fclass.s xreg0, freg0".toList]
       operands := ["xreg0".toList, "freg0".toList]
       populated := true
       retInsts := ["_l0:    fclass.s x5, f1                           ".toList] },
     nopWord .mainPart 1] [] [0, 5] 0 0

/-- The program starts at `0x80002000`. -/
def classToolchain : Toolchain := fun _ ↦
  some ([], Dict.empty.set "_fuzz_main".toList 0x80002000)

theorem made_classTest : ∀ w ∈ classTest.words, Word.Made .mainPart w := by
  have hclass : classWord.populate classOpvals .mainPart = .ok _ := rfl
  exact List.forall_mem_cons.mpr ⟨.populate hclass,
    List.forall_mem_singleton.mpr (made_nopWord 1)⟩

theorem exists_process_classTest : ∃ p draws' input,
    process classToolchain ["_fuzz_main:\n".toList] classTest [7] true (fun _ ↦ 0) 6 =
      .ok (p, draws') ∧ p.rtlInput = some input :=
  ⟨_, _, _, rfl, rfl⟩

theorem miscounted_classWord :
    Miscounted "_l0:    fclass.s x5, f1                           ".toList := by decide

/-- The interrupt of the second instruction goes behind it. -/
theorem not_intrfile_classTest :
    (∀ w ∈ classTest.words, Word.Made .mainPart w) ∧
      classTest.ints.length = (classTest.words.flatMap Word.retInsts).length ∧
      ∃ p draws' input fuzzMain,
        process classToolchain ["_fuzz_main:\n".toList] classTest [7] true (fun _ ↦ 0) 6 =
          .ok (p, draws') ∧ p.rtlInput = some input ∧
        symbol input.symbols "_fuzz_main".toList = .ok fuzzMain ∧
        ¬ (Text.readlines input.intrfile).Perm (intrLines machineInsts fuzzMain
          (classTest.words.flatMap Word.retInsts) classTest.ints) := by
  obtain ⟨p, draws', input, hprocess, hinput⟩ := exists_process_classTest
  obtain ⟨fuzzMain, popped, hsymbol, hpopped, hfile⟩ := exists_popInts_of_process hprocess hinput
  refine ⟨made_classTest, rfl, p, draws', input, fuzzMain, hprocess, hinput, hsymbol, ?_⟩
  rw [hfile, rtlIntrFile_eq rfl hpopped, readlines_intrLines, intrLines_perm_iff]
  intro h
  exact h 1 (by decide) _ List.mem_cons_self miscounted_classWord

theorem process_intrfile_iff_classTest : ∃ (input : RtlInput) (fuzzMain : ℕ),
    symbol input.symbols "_fuzz_main".toList = .ok fuzzMain ∧
      ((Text.readlines input.intrfile).Perm (intrLines machineInsts fuzzMain
          (classTest.words.flatMap Word.retInsts) classTest.ints) ↔
        ∀ j ∈ interrupted classTest.ints,
          ∀ line ∈ (classTest.words.flatMap Word.retInsts).take j, ¬ Miscounted line) := by
  obtain ⟨p, draws', input, hprocess, hinput⟩ := exists_process_classTest
  exact ⟨input, process_intrfile_iff hprocess hinput rfl⟩

end ProcessorFuzz.Execution.Preprocessor
