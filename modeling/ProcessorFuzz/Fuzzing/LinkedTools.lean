import ProcessorFuzz.Execution.RtlVerdict
import ProcessorFuzz.Fuzzing.FuzzLive
import ProcessorFuzz.Fuzzing.FuzzTransitions

/-!
# The tools of a linked test

`nm` lists the symbols of a program and `get_symbols` reads them back. A device that stops at its
first cycle and leaves the same word at every address is one whose runs are successful, so that its
test is judged by that word alone.
-/

namespace ProcessorFuzz.Fuzzing

open Library Mutation Execution
open Common.SpikeTransitions (Transition transitionsOf)
open Common.Transitions (Entry Kind)
open HtifSignature (leWord)
open Oracle (hostSymbols signatureOf wordAt linkedSymbols linkedProgram linkedProgramLayout)
open RtlHost (Dut Verdict hostRunTest lookups)
open RtlMemory (RtlInput Linked hostMemory)
open RtlVerdict (Adds Filled InDram Spaced)
open SignatureChecker (check)
open SpikeEvents (Event Printed logText)

/-- A line of `nm`. -/
def nmLine (entry : Text × UInt64) : Text :=
  Text.hexPad 16 entry.2.toNat ++ " T ".toList ++ entry.1

def nmListing (symbols : Dict Text UInt64) : Text :=
  symbols.entries.flatMap fun entry ↦ nmLine entry ++ ['\n']

/-- The pieces of a line between blanks. -/
theorem split_nmLine {entry : Text × UInt64} (hname : ' ' ∉ entry.1) :
    Text.split " ".toList (nmLine entry ++ ['\n']) =
      [Text.hexPad 16 entry.2.toNat, "T".toList, entry.1 ++ ['\n']] := by
  have hline : nmLine entry ++ ['\n'] =
      Text.hexPad 16 entry.2.toNat ++ ' ' :: ("T".toList ++ ' ' :: (entry.1 ++ ['\n'])) := by
    have htype : " T ".toList = ' ' :: ("T".toList ++ [' ']) := rfl
    simp only [nmLine, htype, List.append_assoc, List.cons_append, List.nil_append]
  have haddr : ' ' ∉ Text.hexPad 16 entry.2.toNat := SpikeLog.not_mem_hexPad rfl 16 _
  have hlast : ' ' ∉ entry.1 ++ ['\n'] := by
    rw [List.mem_append, not_or]
    exact ⟨hname, by decide⟩
  rw [hline]
  change Text.split [' '] _ = _
  rw [Text.split_append_cons haddr, Text.split_append_cons (by decide),
    Text.split_of_not_mem hlast]

/-- The listing of the symbols is read back. -/
theorem getSymbols_nmListing {symbols : Dict Text UInt64}
    (hnames : ∀ name ∈ symbols.keys, ' ' ∉ name ∧ Text.IsLineText name) :
    getSymbols (nmListing symbols) = .ok (hostSymbols symbols) := by
  have hname {entry : Text × UInt64} (hentry : entry ∈ symbols.entries) :
      ' ' ∉ entry.1 ∧ Text.IsLineText entry.1 := hnames entry.1 (List.mem_map_of_mem hentry)
  have hlines : Text.readlines (nmListing symbols) =
      symbols.entries.map fun entry ↦ nmLine entry ++ ['\n'] := by
    have htext : ∀ line ∈ symbols.entries.map nmLine, Text.IsLineText line := by
      intro line hline
      obtain ⟨entry, hentry, rfl⟩ := List.mem_map.mp hline
      exact ((Text.isLineText_hexPad 16 _).append (by decide)).append (hname hentry).2
    have hread := Text.readlines_flatMap htext
    rw [List.flatMap_map, List.map_map] at hread
    exact hread
  have hstep : ∀ entry ∈ symbols.entries, ∀ d : Dict Text ℕ, (do
      let name ← Text.item (Text.split " ".toList (nmLine entry ++ ['\n'])) 2
      let addr ← Text.item (Text.split " ".toList (nmLine entry ++ ['\n'])) 0
      let addr ← Text.int 16 addr
      .ok (d.set name.dropLast addr.toNat)) =
        (.ok (d.set entry.1 entry.2.toNat) : Except PyError (Dict Text ℕ)) := by
    intro entry hentry d
    have hitems {addr type name : Text} : Text.item [addr, type, name] 2 = .ok name ∧
        Text.item [addr, type, name] 0 = .ok addr := ⟨rfl, rfl⟩
    rw [split_nmLine (hname hentry).1, hitems.1, ok_bind, hitems.2, ok_bind, Text.int_hexPad,
      ok_bind, List.dropLast_concat]
    rfl
  have hentries : ((symbols.entries.map fun entry ↦ (entry.1, entry.2.toNat)).map
      Prod.fst).Nodup := by
    rw [List.map_map]
    exact symbols.nodup
  rw [getSymbols, hlines, List.foldlM_map, foldlM_eq_ok hstep]
  refine congrArg Except.ok (Dict.ext ?_)
  have hupdate := Dict.entries_update_of_nodup (d := (Dict.empty : Dict Text ℕ)) hentries
  rw [Dict.update, List.foldl_map] at hupdate
  exact hupdate

/-- Every address of the memory holds the same word. -/
def fill (word : UInt64) (memory : Dict ℕ ℤ) : Dict ℕ ℤ where
  entries := memory.entries.map fun entry ↦ (entry.1, (word.toNat : ℤ))
  nodup := by
    rw [List.map_map]
    exact memory.nodup

section Fill

variable {word : UInt64} {memory : Dict ℕ ℤ} {addr : ℕ}

@[simp]
theorem keys_fill : (fill word memory).keys = memory.keys := List.map_map

theorem get?_fill_eq_some {value : ℤ} :
    (fill word memory).get? addr = some value ↔ addr ∈ memory.keys ∧ value = word.toNat := by
  rw [Dict.get?_eq_some_iff]
  constructor
  · intro h
    obtain ⟨entry, hentry, heq⟩ := List.mem_map.mp h
    obtain ⟨rfl, rfl⟩ := Prod.mk.inj heq
    exact ⟨List.mem_map_of_mem hentry, rfl⟩
  · rintro ⟨haddr, rfl⟩
    obtain ⟨entry, hentry, rfl⟩ := List.mem_map.mp haddr
    exact List.mem_map_of_mem (f := fun entry : ℕ × ℤ ↦ (entry.1, (word.toNat : ℤ))) hentry

/-- The word of a memory is zero where it is not defined. -/
theorem wordAt_fill :
    wordAt (lookups (fill word memory)) addr = if addr ∈ memory.keys then word else 0 := by
  unfold wordAt lookups
  split
  · next haddr =>
    rw [get?_fill_eq_some.mpr ⟨haddr, rfl⟩]
    simp
  · next haddr =>
    have hnone : (fill word memory).get? addr = none := by
      rw [Dict.get?_eq_none_iff, keys_fill]
      exact haddr
    rw [hnone]
    rfl

end Fill

/-- A device that sets `tohost` in its first cycle and then leaves the same word everywhere. -/
def stopsWith (tohost : ℕ) (word : UInt64) : Dut := fun memory _ ↦
  { memory := fun _ ↦ memory.set tohost 1
    eos := fun _ ↦ false
    final := fill word memory
    asserted := false
    covSum := 0 }

theorem adds_stopsWith (tohost : ℕ) (word : UInt64) : Adds (stopsWith tohost word) where
  running _ _ _ _ haddr := Dict.mem_keys_set.mpr (Or.inr haddr)
  stopped memory ints := by
    change memory.keys ⊆ (fill word memory).keys
    rw [keys_fill]
    exact List.Subset.refl _

/-- The run of such a device is successful. -/
theorem hostRunTest_stopsWith {input : RtlInput} {linked : Linked input.symbols}
    (hspaced : Spaced linked) (hdram : InDram linked) (hpos : 0 < input.maxCycles)
    (hcycles : input.maxCycles % 100 ≠ 1) {memory : Dict ℕ ℤ}
    (hmemory : hostMemory input = .ok memory) (word : UInt64) :
    hostRunTest (stopsWith linked.tohost word) input false = .ok (Verdict.success.code, 0) := by
  have hints : RtlHost.assertedInterrupts false (RtlHost.hostInterrupts input.intrfile) =
      .ok Dict.empty := rfl
  have hfinished : RtlVerdict.Finished (stopsWith linked.tohost word memory Dict.empty) linked
      input.maxCycles := by
    refine ⟨?_, fun addr haddr ↦ ?_, rfl, fun addr haddr ↦ ?_⟩
    · exact ⟨0, hpos, rfl, 1, by decide, Dict.get?_set_self _ _ _⟩
    · change addr ∈ (fill word memory).keys at haddr
      rw [keys_fill] at haddr
      exact hdram.legal hmemory haddr
    · change addr ∈ (fill word memory).keys
      rw [keys_fill]
      exact RtlVerdict.mem_keys_of_mem_signatureAddrs hspaced hmemory haddr
  exact RtlVerdict.hostRunTest_of_finished hcycles (adds_stopsWith _ word) hmemory hints hfinished

/-- Spike ends with zeros, the device with the same word everywhere. -/
theorem agrees_fill {tools : Tools} {run : SpikeRun} (hrun : run.memory = fun _ ↦ 0)
    {word : UInt64} {memory : Dict ℕ ℤ} (i : Fin 6)
    (hsize : 0 < Oracle.sizes tools.program.layout i)
    (hstored : tools.program.layout.dataStart i ∈ memory.keys) :
    tools.agrees run (fill word memory) = decide (word = 0) := by
  have hisa (addr : ℕ) : leWord run.memory addr = 0 := by
    rw [hrun]
    rfl
  unfold Tools.agrees
  rw [Bool.eq_iff_iff, decide_eq_true_eq]
  constructor
  · intro hcheck
    -- The first word of the section is compared exactly.
    have hdata := ((SignatureChecker.check_eq_true_iff _ _).mp hcheck).2.2
    have hword := congrArg (fun values ↦ (values i)[0]) hdata
    simp only [signatureOf, Vector.getElem_ofFn, hisa, wordAt_fill, Nat.mul_zero, Nat.add_zero,
      if_pos hstored] at hword
    exact (UInt64.toNat_inj.mp hword).symm
  · rintro rfl
    have hrtl (addr : ℕ) : wordAt (lookups (fill 0 memory)) addr = 0 := by
      rw [wordAt_fill, ite_self]
    have hsame : leWord run.memory = wordAt (lookups (fill 0 memory)) :=
      funext fun addr ↦ (hisa addr).trans (hrtl addr).symm
    rw [hsame, Oracle.check_eq_true_iff_accepts_or_hidden]
    exact .inl ⟨fun _ _ ↦ rfl, fun _ _ ↦ .inl rfl, fun _ ↦ .inl rfl, fun _ _ _ ↦ rfl⟩

/-- The symbols of the linked program for the RTL host. -/
def linkedProgramLinked : Linked (hostSymbols linkedSymbols) where
  start := 0x80000000
  endMain := 0x80000000
  tohost := 0x80001000
  sigStart := linkedProgramLayout.sigStart
  sigEnd := linkedProgramLayout.sigEnd
  dataStart := linkedProgramLayout.dataStart
  dataEnd := linkedProgramLayout.dataEnd
  get?_start := Oracle.get?_hostSymbols_linkedSymbols (.inr (by decide)) (by decide)
  get?_endMain := Oracle.get?_hostSymbols_linkedSymbols (.inr (by decide)) (by decide)
  get?_tohost := Oracle.get?_hostSymbols_linkedSymbols (.inr (by decide)) (by decide)
  get?_sigStart := linkedProgram.layout_describes.sigStart
  get?_sigEnd := linkedProgram.layout_describes.sigEnd
  get?_dataStart := linkedProgram.layout_describes.dataStart
  get?_dataEnd := linkedProgram.layout_describes.dataEnd

theorem spaced_linkedProgram : Spaced linkedProgramLinked where
  sigStart := by decide
  sigSize := by decide
  dataStart := by decide
  dataSize := by decide

theorem inDram_linkedProgram : InDram linkedProgramLinked where
  start := by decide
  tohost := by decide
  sigStart := by decide
  dataStart := by decide

def linkedLog : Text := (List.replicate 10 "C0: 1 pc=[0000000080000000]\n".toList).flatten

/-- A device with ten lines of log. -/
def linkedDevice (word : UInt64) : Device where
  dut := stopsWith linkedProgramLinked.tohost word
  log := linkedLog
  word_lt memory ints addr value hvalue := by
    rw [(get?_fill_eq_some.mp hvalue).2]
    exact_mod_cast word.toNat_lt
  startsWell i hi := by
    have hlines : ∀ i < 10, (Text.readlines linkedLog)[i]? =
        some "C0: 1 pc=[0000000080000000]\n".toList := by decide
    exact ⟨_, hlines i hi, .inr (by decide)⟩

/-- Five words of code. -/
def linkedHexfile : Text := (List.replicate 5 "0000001300000013\n".toList).flatten

/-- Spike runs the linked program, and then the device. -/
def linkedTools (run : SpikeRun) (word : UInt64) : Tools where
  elf := []
  hexfile := linkedHexfile
  listing := nmListing linkedSymbols
  program := linkedProgram
  listing_eq := getSymbols_nmListing (by decide +kernel)
  spike := .completed run
  rtl := .completed (linkedDevice word)
  isaAgain := ⟨false, 0, [], none⟩
  elapsed := "0".toList

def linkedInput (data : List ℤ) (maxCycles : ℕ) : RtlInput where
  hexfile := linkedHexfile
  intrfile := []
  data := data
  symbols := hostSymbols linkedSymbols
  maxCycles := maxCycles

theorem codeReadable_linkedHexfile :
    linkedProgramLinked.CodeReadable (Text.readlines linkedHexfile) := by
  intro i hi
  have hlines : ∀ i < 5, (RtlMemory.codeWord (Text.readlines linkedHexfile) i).isOk = true := by
    decide
  have hword := hlines i hi
  cases hcase : RtlMemory.codeWord (Text.readlines linkedHexfile) i with
  | error e =>
    rw [hcase] at hword
    exact absurd hword Bool.false_ne_true
  | ok value => exact ⟨value, rfl⟩

section LinkedInput

variable {data : List ℤ} {maxCycles : ℕ}

theorem readable_linkedInput (hdata : data.length = 384) :
    @RtlMemory.Readable (linkedInput data maxCycles) linkedProgramLinked where
  code := codeReadable_linkedHexfile
  data n hn := by
    have hfilled : Filled linkedProgramLinked data := ⟨by decide, by rw [hdata]; decide⟩
    exact @RtlVerdict.dataReadable_of_filled (linkedInput data maxCycles) linkedProgramLinked
      spaced_linkedProgram hfilled n hn

/-- The data of a test fill the sections of the linked program. -/
theorem exists_hostMemory_linkedInput (hdata : data.length = 384) :
    ∃ memory, hostMemory (linkedInput data maxCycles) = .ok memory := by
  have heq := @RtlMemory.hostMemory_eq_ok (linkedInput data maxCycles) linkedProgramLinked
  exact ⟨_, heq.mpr ⟨readable_linkedInput hdata, rfl⟩⟩

theorem dataStart_mem_keys {memory : Dict ℕ ℤ}
    (hmemory : hostMemory (linkedInput data maxCycles) = .ok memory) :
    linkedProgramLayout.dataStart 0 ∈ memory.keys := by
  have hstart : linkedProgramLayout.dataStart 0 ∈ linkedProgramLinked.sectionAddrs 0 := by
    rw [Linked.sectionAddrs, RtlMemory.sectionAddrs, RtlMemory.mem_rangeStep (by decide)]
    exact ⟨0, by decide, by decide⟩
  exact @RtlVerdict.mem_keys_of_mem_section (linkedInput data maxCycles) linkedProgramLinked memory
    hmemory 0 _ (by decide) hstart

end LinkedInput

/-- A test passes when the device leaves zeros, as Spike does, and shows a bug otherwise. -/
theorem judgement_linkedTools {run : SpikeRun} (hrun : run.memory = fun _ ↦ 0) (word : UInt64)
    {test : Test} (hdata : test.data.length = 384) :
    (linkedTools run word).judgement test = some (if word = 0 then .passed else .bug) := by
  obtain ⟨maxCycles, hinput, hpos, hcycles⟩ : ∃ maxCycles,
      (linkedTools run word).input test = linkedInput test.data maxCycles ∧ 0 < maxCycles ∧
        maxCycles % 100 ≠ 1 :=
    ⟨_, rfl, by split <;> decide, by split <;> decide⟩
  obtain ⟨memory, hmemory⟩ : ∃ memory, hostMemory (linkedInput test.data maxCycles) = .ok memory :=
    exists_hostMemory_linkedInput hdata
  have hhost : hostRunTest (linkedDevice word).dut (linkedInput test.data maxCycles) false =
      .ok (Verdict.success.code, 0) :=
    @hostRunTest_stopsWith (linkedInput test.data maxCycles) linkedProgramLinked
      spaced_linkedProgram inDram_linkedProgram hpos hcycles memory hmemory word
  have hsize : 0 < Oracle.sizes linkedProgramLayout (0 : Fin 6) := by decide
  have hagrees : (linkedTools run word).agrees run (fill word memory) = decide (word = 0) :=
    agrees_fill hrun 0 hsize (dataStart_mem_keys hmemory)
  have hjudgement : (linkedTools run word).judgement test =
      some (judgementOf Verdict.success.code
        ((linkedTools run word).agrees run (fill word memory))) := by
    exact @Tools.judgement_eq_some (linkedTools run word) test run (linkedDevice word) memory
      Verdict.success.code 0 rfl rfl (hinput ▸ hmemory) (hinput ▸ hhost)
  rw [hjudgement, hagrees]
  by_cases hword : word = 0 <;> simp [judgementOf, hword, Verdict.code]

/-- Two instructions, of which the first changes the floating-point flags and the cause of the last
trap. -/
def twoInstructions (name : Printed) (fflags : UInt32) (mcause : UInt64) : List Event :=
  let state : SpikeLog.State :=
    { pc := 0x80000000, mstatus := 0x2000, frm := 0, fflags := 0, mcause := 0, scause := 0
      medeleg := 0, mcounteren := 0, scounteren := 0 }
  [.instruction 0 state 0x73 name,
    .instruction 0 { state with pc := 0x80000004, fflags, mcause } 0x13
      ⟨"nop".toList, by decide⟩]

/-- A call of the environment is trapped. -/
def ecallRun : SpikeRun where
  events := twoInstructions ⟨"ecall".toList, by decide⟩ 0 11
  legible t ht := by
    obtain rfl := List.mem_singleton.mp ht
    exact ⟨("ecall".toList, []), by decide⟩
  memory _ := 0

/-- A division by zero raises a flag. -/
def fdivRun : SpikeRun where
  events := twoInstructions ⟨"fdiv.d  fa0, fa1, fa2".toList, by decide⟩ 8 0
  legible t ht := by
    obtain rfl := List.mem_singleton.mp ht
    exact ⟨("fdiv.d".toList, []), by decide⟩
  memory _ := 0

section Shown

variable {config : Config}

theorem exists_shows_ecall (hall : config.allCsr = false) (hfp : config.fpCsr = false) :
    ∃ kind entry, Shows config (logText ecallRun.events) kind entry := by
  have hkey : Common.Transitions.instrKey (Common.SpikeTransitions.instrText "ecall".toList) =
      .ok ("ecall".toList, []) := by decide
  exact ⟨some .priv, _, (shows_logText hall ecallRun.legible .priv _).mpr
    ⟨_, List.mem_singleton_self _, .priv hkey (by decide) hfp (by decide)⟩⟩

/-- The log of the division shows a transition that the log of the call does not show. -/
theorem exists_shows_fdiv (hall : config.allCsr = false) : ∃ kind entry,
    Shows config (logText fdivRun.events) kind entry ∧
      ¬Shows config (logText ecallRun.events) kind entry := by
  have hkey : Common.Transitions.instrKey
      (Common.SpikeTransitions.instrText "fdiv.d  fa0, fa1, fa2".toList) =
        .ok ("fdiv.d".toList, []) := by decide
  refine ⟨some .func, _, (shows_logText hall fdivRun.legible .func _).mpr
    ⟨_, List.mem_singleton_self _, .func hkey (by decide) (by decide)⟩, fun hshows ↦ ?_⟩
  obtain ⟨t, ht, hoffers⟩ := (shows_logText hall ecallRun.legible .func _).mp hshows
  obtain rfl := List.mem_singleton.mp ht
  cases hoffers

end Shown

/-- How an iteration with the linked program ends. -/
theorem fate_linkedTools {run : SpikeRun} (hrun : run.memory = fun _ ↦ 0) (word : UInt64)
    {test : Test} (hdata : test.data.length = 384) (trns : ℕ) :
    (Attempt.simulated (linkedTools run word)).fate test trns =
      if trns = 0 then .repeated else .judged := by
  have hend : isaEnd (linkedTools run word).isaRun = none := rfl
  unfold Attempt.fate
  dsimp only
  rw [hend, judgement_linkedTools hrun word hdata]
  rfl

/-- Spike takes too long. -/
def timedOutTools : Tools :=
  { linkedTools ecallRun 0 with spike := .failed ⟨true, 0, [], none⟩ (by decide) }

/-- A test with a new transition, another one with the same transition, one that takes too long, and
one with another transition, after which the device leaves a word. -/
def linkedAttempts (word : UInt64) : List Attempt :=
  [.simulated (linkedTools ecallRun 0), .simulated (linkedTools ecallRun 0),
    .simulated timedOutTools, .simulated (linkedTools fdivRun word)]

theorem passes_linkedAttempts : ∀ attempt ∈ linkedAttempts 0, attempt.Passes := by
  have hpasses {run : SpikeRun} (hrun : run.memory = fun _ ↦ 0) :
      (Attempt.simulated (linkedTools run 0)).Passes := by
    intro test hdata judgement hjudgement
    have heq := (judgement_linkedTools hrun 0 hdata).symm.trans hjudgement
    exact (Option.some.inj heq).symm
  intro attempt hattempt
  simp only [linkedAttempts, List.mem_cons, List.not_mem_nil, or_false] at hattempt
  rcases hattempt with rfl | rfl | rfl | rfl
  · exact hpasses rfl
  · exact hpasses rfl
  · intro test _ judgement hjudgement
    cases hjudgement
  · exact hpasses rfl

/-- The first test and the last one are judged, and the second one is dropped. -/
theorem fates_linkedAttempts {config : Config} (hgenerated : config.inFile = none)
    (hall : config.allCsr = false) (hfp : config.fpCsr = false) {noGuide : Bool} {draws : Draws}
    {word : UInt64} {reports : List Report} {s : Session}
    (hrun : run config noGuide draws ((linkedAttempts word).map Attempt.outcome) = .ok (reports, s))
    (hlength : reports.length = (linkedAttempts word).length)
    (hfates : ∀ e ∈ (linkedAttempts word).zip reports, e.2.fate = e.1.fate e.2.test e.2.trns) :
    reports.map Report.fate = [.judged, .repeated, .isaTimeout, .judged] := by
  obtain ⟨r₁, r₂, r₃, r₄, rfl⟩ := List.length_eq_four.mp hlength
  have hdata := fun report hreport ↦ ((live_run hgenerated hrun).2 report hreport).length_data
  have hrepeated := (transits_run hrun).repeated
  simp only [linkedAttempts, List.zip_cons_cons, List.zip_nil_right, List.forall_mem_cons,
    List.map_cons, List.map_nil] at hfates hrepeated hdata
  obtain ⟨hfate₁, hfate₂, hfate₃, hfate₄, -⟩ := hfates
  obtain ⟨hdata₁, hdata₂, -, hdata₄, -⟩ := hdata
  rw [fate_linkedTools rfl 0 hdata₁] at hfate₁
  rw [fate_linkedTools rfl 0 hdata₂] at hfate₂
  rw [fate_linkedTools rfl word hdata₄] at hfate₄
  have hjudged {report : Report}
      (hfate : report.fate = if report.trns = 0 then .repeated else .judged)
      (hne : report.fate ≠ .repeated) : report.fate = .judged := by
    split at hfate
    · exact absurd hfate hne
    · exact hfate
  obtain ⟨kind, entry, hecall⟩ := exists_shows_ecall hall hfp
  obtain ⟨kind', entry', hfdiv, hnew⟩ := exists_shows_fdiv hall
  have h₁ : r₁.fate = .judged := by
    refine hjudged hfate₁ fun hrep ↦ ?_
    obtain ⟨e, he, -⟩ := (hrepeated [] _ _ rfl rfl).mp hrep kind entry hecall
    exact absurd he List.not_mem_nil
  have h₂ : r₂.fate = .repeated :=
    (hrepeated [_] _ _ rfl rfl).mpr fun kind entry hshows ↦
      ⟨_, List.mem_singleton_self _, rfl, hshows⟩
  have h₄ : r₄.fate = .judged := by
    refine hjudged hfate₄ fun hrep ↦ ?_
    obtain ⟨e, he, hscans, hshows⟩ := (hrepeated [_, _, _] _ _ rfl rfl).mp hrep kind' entry' hfdiv
    simp only [List.mem_cons, List.not_mem_nil, or_false] at he
    rcases he with rfl | rfl | rfl
    · exact hnew hshows
    · exact hnew hshows
    · exact Bool.false_ne_true hscans
  rw [List.map_cons, List.map_cons, List.map_cons, List.map_singleton, h₁, h₂, hfate₃, h₄]
  rfl

end ProcessorFuzz.Fuzzing
