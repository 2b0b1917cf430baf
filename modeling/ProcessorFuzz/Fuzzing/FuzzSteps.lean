import ProcessorFuzz.Fuzzing.FuzzLoop

/-!
# The steps of the fuzzing loop

What each stage of an iteration leaves when it returns: the fields that it may set and the files
that it writes. An iteration consists of the stages up to its end, and what holds at the start of a
run and after every iteration holds at the end of the run.
-/

namespace ProcessorFuzz.Fuzzing

open Library Mutation Execution
open Oracle (isaSigFile rtlSigFile)
open RtlMemory (RtlInput)
open RtlHost (Verdict)
open Common.Transitions (extractTransitions)

variable {config : Config} {it : ℕ} {outcome : Outcome} {test : Test} {input : Option RtlInput}
  {s s' : Session}

namespace Session

/-- A stage that changes files only. -/
def FilesOnly (s s' : Session) : Prop := s' = { s with files := s'.files }

theorem FilesOnly.writeOption (s : Session) (path : Text) (contents : Option Text) :
    s.FilesOnly (s.writeOption path contents) := by
  cases contents with
  | none => rfl
  | some contents => rfl

/-- What `writeOption` writes. -/
def optionPath (path : Text) (contents : Option Text) : List Text :=
  if contents.isSome then [path] else []

theorem writes_write (s : Session) (path contents : Text) :
    FileSystem.Writes [path] s.files (s.write path contents).files := .set s.files path contents

theorem writes_writeOption (s : Session) (path : Text) (contents : Option Text) :
    FileSystem.Writes (optionPath path contents) s.files (s.writeOption path contents).files := by
  cases contents with
  | none => exact .refl s.files
  | some contents => exact s.writes_write path contents

end Session

open Session (FilesOnly optionPath)

theorem nextTest_frame (h : nextTest config it s = .ok (test, s')) :
    s' = { s with mutator := s'.mutator, draws := s'.draws } := by
  unfold nextTest at h
  cases hfile : config.inFile with
  | none =>
    rw [hfile] at h
    obtain ⟨⟨⟨simInput, data⟩, mutator, draws⟩, -, h⟩ := bind_eq_ok.mp h
    obtain ⟨-, rfl⟩ := Prod.mk.inj (Except.ok.inj h)
    rfl
  | some contents =>
    rw [hfile] at h
    obtain ⟨⟨⟨simInput, data, assertIntr⟩, mutator, draws⟩, -, h⟩ := bind_eq_ok.mp h
    obtain ⟨-, rfl⟩ := Prod.mk.inj (Except.ok.inj h)
    rfl

/-- A generated test comes from the mutator and asserts no interrupt. -/
theorem nextTest_generated (hgenerated : config.inFile = none)
    (h : nextTest config it s = .ok (test, s')) : test.assertIntr = false ∧
      s.mutator.getWith Original.mutateWords it false s.draws =
        .ok ((test.simInput, test.data), s'.mutator, s'.draws) := by
  unfold nextTest at h
  rw [hgenerated] at h
  obtain ⟨⟨⟨simInput, data⟩, mutator, draws⟩, hget, h⟩ := bind_eq_ok.mp h
  obtain ⟨rfl, rfl⟩ := Prod.mk.inj (Except.ok.inj h)
  exact ⟨rfl, hget⟩

/-- The input of the RTL simulation is made of what the toolchain returns. -/
theorem rtlInput_process {toolchain : Preprocessor.Toolchain} {templateLines : List Text}
    {simInput : SimInput} {data : List ℤ} {intr : Bool} {draws draws' : Draws} {sections : ℕ}
    {processed : Preprocessor.Processed} (h : Preprocessor.process toolchain templateLines simInput
      data intr draws sections = .ok (processed, draws')) :
    ∃ intrfile, processed.rtlInput = (toolchain processed.asmFile).map fun tool ↦
      { hexfile := tool.1
        intrfile
        data
        symbols := tool.2
        maxCycles := if simInput.template = Preprocessor.templateVU then 200000 else 6000 } := by
  unfold Preprocessor.process at h
  obtain ⟨_, -, h⟩ := bind_eq_ok.mp h
  obtain ⟨_, -, h⟩ := bind_eq_ok.mp h
  obtain ⟨prefixInsts, -, h⟩ := bind_eq_ok.mp h
  obtain ⟨insts, -, h⟩ := bind_eq_ok.mp h
  obtain ⟨suffixInsts, -, h⟩ := bind_eq_ok.mp h
  obtain ⟨ints, -, h⟩ := bind_eq_ok.mp h
  obtain ⟨siFile, -, h⟩ := bind_eq_ok.mp h
  obtain ⟨⟨assembly, draws₁⟩, -, h⟩ := bind_eq_ok.mp h
  dsimp only at h
  split at h
  · next htool =>
    obtain ⟨rfl, -⟩ := Prod.mk.inj (Except.ok.inj h)
    exact ⟨[], by rw [htool]; rfl⟩
  · next htool =>
    cases intr with
    | false =>
      obtain ⟨intrfile, -, h⟩ := bind_eq_ok.mp h
      obtain ⟨rfl, -⟩ := Prod.mk.inj (Except.ok.inj h)
      exact ⟨intrfile, by rw [htool]; rfl⟩
    | true =>
      obtain ⟨fuzzMain, -, h⟩ := bind_eq_ok.mp h
      obtain ⟨intrfile, -, h⟩ := bind_eq_ok.mp h
      obtain ⟨rfl, -⟩ := Prod.mk.inj (Except.ok.inj h)
      exact ⟨intrfile, by rw [htool]; rfl⟩

/-- The files of the preprocessor. -/
def preprocessFiles (it : ℕ) (outcome : Outcome) (test : Test) : List Text :=
  [test.file it ".si", test.file it ".S"] ++
    if outcome.build.isSome then
      [test.file it ".elf", test.file it ".hex", test.file it ".symbols"] ++
        if test.assertIntr then [test.file it ".rtl.intr"] else []
    else []

structure Preprocessed (it : ℕ) (outcome : Outcome) (test : Test) (s : Session)
    (input : Option RtlInput) (s' : Session) : Prop where
  frame : s' = { s with draws := s'.draws, files := s'.files }
  input_isSome : input.isSome = outcome.build.isSome
  writes : FileSystem.Writes (preprocessFiles it outcome test) s.files s'.files

theorem preprocessed (h : preprocess config it outcome test s = .ok (input, s')) :
    Preprocessed it outcome test s input s' := by
  unfold preprocess at h
  obtain ⟨⟨processed, draws⟩, -, h⟩ := bind_eq_ok.mp h
  have hsources : FileSystem.Writes [test.file it ".si", test.file it ".S"] s.files
      (({ s with draws }.write (test.file it ".si") processed.siFile).write (test.file it ".S")
        processed.asmFile).files :=
    (Session.writes_write { s with draws } _ _).trans (Session.writes_write _ _ _)
  dsimp only at h
  cases hbuild : outcome.build with
  | none =>
    rw [hbuild] at h
    obtain ⟨rfl, rfl⟩ := Prod.mk.inj (Except.ok.inj h)
    refine ⟨rfl, by rw [hbuild]; rfl, ?_⟩
    rw [preprocessFiles, hbuild]
    exact hsources
  | some build =>
    rw [hbuild] at h
    obtain ⟨symbols, -, h⟩ := bind_eq_ok.mp h
    obtain ⟨⟨processed', draws'⟩, hprocess, h⟩ := bind_eq_ok.mp h
    have hinput : processed'.rtlInput.isSome = true := by
      obtain ⟨intrfile, hinput⟩ := rtlInput_process hprocess
      rw [hinput]
      rfl
    obtain ⟨rfl, hs⟩ := Prod.mk.inj (Except.ok.inj h)
    have hbuilt := ((hsources.trans (Session.writes_write _ (test.file it ".elf") build.elf)).trans
      (Session.writes_write _ (test.file it ".hex") build.hexfile)).trans
      (Session.writes_write _ (test.file it ".symbols") build.listing)
    cases hintr : test.assertIntr with
    | false =>
      rw [hintr] at hs
      subst hs
      refine ⟨rfl, by rw [hinput, hbuild]; rfl, ?_⟩
      rw [preprocessFiles, hbuild, hintr]
      exact hbuilt
    | true =>
      obtain ⟨rtlInput, hrtl⟩ := Option.isSome_iff_exists.mp hinput
      rw [hintr, hrtl] at hs
      subst hs
      refine ⟨rfl, by rw [hinput, hbuild]; rfl, ?_⟩
      rw [preprocessFiles, hbuild, hintr]
      exact hbuilt.trans (Session.writes_write _ _ _)

/-- The end of an iteration because of a run of Spike. -/
def isaEnd (run : IsaRun) : Option Fate :=
  if run.timedOut then some .isaTimeout else if run.exitCode ≠ 0 then some .isaAssert else none

/-- The state of the process after a run of Spike. -/
def isaStop (run : IsaRun) (stop : ProcState) : ProcState :=
  if run.timedOut then .normal else if run.exitCode ≠ 0 then .errIsaAssert else stop

/-- The files of a run of Spike. -/
def isaFiles (it : ℕ) (run : IsaRun) : List Text :=
  optionPath isaSigFile run.signature ++ [isaTrace it ".log".toList]

structure IsaTested (it : ℕ) (run : IsaRun) (s : Session) (ret : ProcState) (s' : Session) :
    Prop where
  frame : s' = { s with stop := s'.stop, files := s'.files }
  fate : isaFate ret = isaEnd run
  stop : s'.stop = isaStop run s.stop
  writes : FileSystem.Writes (isaFiles it run) s.files s'.files
  log : s'.files.get? (isaTrace it ".log".toList) = some run.log
  signature : ∀ contents, run.signature = some contents → s'.files.get? isaSigFile = some contents

/-- Unless a time-out is left over from before, the result is that of this run. -/
theorem isaTested {run : IsaRun} (hstop : s.stop ≠ .errIsaTimeout) :
    IsaTested it run s (runIsaTest it run s).1 (runIsaTest it run s).2 := by
  have hframe := FilesOnly.writeOption s isaSigFile run.signature
  have hwrites := (s.writes_writeOption isaSigFile run.signature).trans
    (Session.writes_write (s.writeOption isaSigFile run.signature) (isaTrace it ".log".toList)
      run.log)
  have hlog : ((s.writeOption isaSigFile run.signature).write (isaTrace it ".log".toList)
      run.log).files.get? (isaTrace it ".log".toList) = some run.log := Dict.get?_set_self _ _ _
  have hsignature (contents : Text) (heq : run.signature = some contents) :
      ((s.writeOption isaSigFile run.signature).write (isaTrace it ".log".toList)
        run.log).files.get? isaSigFile = some contents := by
    have hne : isaSigFile ≠ isaTrace it ".log".toList := fun heq ↦
      absurd (congrArg List.head? heq) (by rw [isaTrace, head?_ownFile]; decide)
    rw [heq]
    exact (Dict.get?_set_of_ne _ _ hne).trans (Dict.get?_set_self _ _ _)
  have hkept : ((s.writeOption isaSigFile run.signature).write (isaTrace it ".log".toList)
      run.log).stop = s.stop := by
    rw [hframe]
    rfl
  unfold runIsaTest
  by_cases htime : run.timedOut = true
  · simp only [htime, if_true]
    refine ⟨by rw [hframe]; rfl, ?_, ?_, hwrites, hlog, hsignature⟩
    · rw [isaEnd, if_pos htime]
      rfl
    · rw [isaStop, if_pos htime]
  · simp only [htime, Bool.false_eq_true, if_false, hkept, if_neg hstop]
    by_cases hexit : run.exitCode ≠ 0
    · rw [if_pos hexit]
      refine ⟨by rw [hframe]; rfl, ?_, ?_, hwrites, hlog, hsignature⟩
      · rw [isaEnd, if_neg htime, if_pos hexit]
        rfl
      · rw [isaStop, if_neg htime, if_pos hexit]
    · rw [if_neg hexit]
      refine ⟨by rw [hframe]; rfl, ?_, ?_, hwrites, hlog, hsignature⟩
      · rw [isaEnd, if_neg htime, if_neg hexit]
        rfl
      · rw [isaStop, if_neg htime, if_neg hexit, hkept]

theorem isaEnd_cases (run : IsaRun) :
    isaEnd run = none ∧ (∀ stop, isaStop run stop = stop) ∨
      isaEnd run = some .isaTimeout ∧ (∀ stop, isaStop run stop = .normal) ∨
      isaEnd run = some .isaAssert ∧ ∀ stop, isaStop run stop = .errIsaAssert := by
  unfold isaEnd isaStop
  by_cases htime : run.timedOut = true
  · simp [htime]
  · by_cases hexit : run.exitCode = 0
    · simp [htime, hexit]
    · simp [htime, hexit]

/-- Neither do the iterations leave a time-out. -/
theorem isaStop_ne {stop : ProcState} (hstop : stop ≠ .errIsaTimeout) (run : IsaRun) :
    isaStop run stop ≠ .errIsaTimeout := by
  unfold isaStop
  split
  · decide
  · split
    · decide
    · exact hstop

structure IsaLogRead (config : Config) (it : ℕ) (log : Text) (s : Session) (trns : ℕ)
    (s' : Session) : Prop where
  frame : s' = { s with transitions := s'.transitions, files := s'.files }
  scan : extractTransitions config.allCsr config.fpCsr s.transitions (it, log) =
    .ok (s'.transitions, trns)
  csv : ∃ csv, TraceCsv.processSpikeSimLog log = .ok csv ∧
    s'.files = s.files.set (isaTrace it ".csv".toList) csv

theorem isaLogRead {log : Text} {trns : ℕ}
    (hlog : s.files.get? (isaTrace it ".log".toList) = some log)
    (h : readIsaLog config it s = .ok (trns, s')) : IsaLogRead config it log s trns s' := by
  obtain ⟨log', hread, h⟩ := bind_eq_ok.mp h
  obtain rfl := Option.some.inj (hlog.symm.trans (FileSystem.read_eq_ok.mp hread))
  obtain ⟨⟨transitions, trns'⟩, hscan, h⟩ := bind_eq_ok.mp h
  obtain ⟨csv, hcsv, h⟩ := bind_eq_ok.mp h
  obtain ⟨rfl, rfl⟩ := Prod.mk.inj (Except.ok.inj h)
  exact ⟨rfl, hscan, csv, hcsv, rfl⟩

/-- A file of this test, or of the trace of Spike. -/
def Dropped (it : ℕ) (test : Test) (path : Text) : Prop :=
  FileSystem.Matches (test.file it ".") path ∨ FileSystem.Matches (isaTrace it ".".toList) path

instance (it : ℕ) (test : Test) (path : Text) : Decidable (Dropped it test path) :=
  inferInstanceAs (Decidable (_ ∨ _))

theorem dropTest_eq_ok (h : dropTest it test s = .ok s') : s.FilesOnly s' ∧
    ∀ path, s'.files.get? path = if Dropped it test path then none else s.files.get? path := by
  obtain ⟨files, htest, h⟩ := bind_eq_ok.mp h
  obtain ⟨files', htrace, h⟩ := bind_eq_ok.mp h
  obtain rfl := Except.ok.inj h
  refine ⟨rfl, fun path ↦ ?_⟩
  change files'.get? path = _
  rw [FileSystem.get?_removeAll_glob htrace, FileSystem.get?_removeAll_glob htest]
  by_cases hisa : FileSystem.Matches (isaTrace it ".".toList) path
  · rw [if_pos hisa, if_pos (.inr hisa)]
  · rw [if_neg hisa]
    by_cases hpath : FileSystem.Matches (test.file it ".") path
    · rw [if_pos hpath, if_pos (.inl hpath)]
    · have hkept : ¬ Dropped it test path := not_or.mpr ⟨hpath, hisa⟩
      rw [if_neg hpath, if_neg hkept]

theorem exists_dropTest_eq_ok (it : ℕ) (test : Test) (s : Session) :
    ∃ s', dropTest it test s = .ok s' := by
  obtain ⟨files, htest⟩ := FileSystem.exists_removeAll_glob s.files (test.file it ".")
  obtain ⟨files', htrace⟩ := FileSystem.exists_removeAll_glob files (isaTrace it ".".toList)
  refine ⟨{ s with files := files' }, ?_⟩
  rw [dropTest, htest, ok_bind, htrace, ok_bind]

/-- The files of a run of the RTL simulation, which may write a signature. -/
structure RtlTested (it : ℕ) (run : RtlRun) (s : Session) (ret : Option ℤ) (s' : Session) :
    Prop where
  frame : s' = { s with stop := s'.stop, coverage := s'.coverage, files := s'.files }
  stop : s'.stop = if ret.isSome then s.stop else .errRtlSim
  writes : ∃ signature, (ret = none → signature = none) ∧ FileSystem.Writes
    (optionPath (rtlTrace it) run.log ++ optionPath rtlSigFile signature) s.files s'.files

theorem rtlTested {run : RtlRun} {input : RtlInput} :
    RtlTested it run s (runRtlTest it run input test s).1 (runRtlTest it run input test s).2 := by
  have hframe := FilesOnly.writeOption s (rtlTrace it) run.log
  have hwrites := s.writes_writeOption (rtlTrace it) run.log
  unfold runRtlTest
  dsimp only
  split
  · next ret coverage contents _ =>
    have hframe' := FilesOnly.writeOption
      { s.writeOption (rtlTrace it) run.log with coverage } rtlSigFile contents
    have hwrites' := Session.writes_writeOption
      { s.writeOption (rtlTrace it) run.log with coverage } rtlSigFile contents
    refine ⟨?_, ?_, contents, nofun, hwrites.trans hwrites'⟩
    · rw [hframe', hframe]
    · rw [hframe', hframe]
      rfl
  · refine ⟨?_, rfl, none, fun _ ↦ rfl, ?_⟩
    · rw [hframe]
    · exact hwrites.trans (.refl _)

structure TracesCompared (config : Config) (it : ℕ) (s s' : Session) : Prop where
  frame : s' = { s with misCount := s'.misCount }
  compared : ∃ rtlLog isaCsv chk, s.files.get? (rtlTrace it) = some rtlLog ∧
    s.files.get? (isaTrace it ".csv".toList) = some isaCsv ∧
    TraceCsv.traceCompareFiles isaCsv rtlLog config.toplevel = .ok chk ∧
    s'.misCount = s.misCount + if chk = -1 then 1 else 0

theorem tracesCompared (h : compareTraces config it s = .ok s') : TracesCompared config it s s' := by
  obtain ⟨rtlLog, hrtl, h⟩ := bind_eq_ok.mp h
  obtain ⟨isaCsv, hisa, h⟩ := bind_eq_ok.mp h
  obtain ⟨chk, hchk, h⟩ := bind_eq_ok.mp h
  obtain rfl := Except.ok.inj h
  refine ⟨?_, rtlLog, isaCsv, chk, FileSystem.read_eq_ok.mp hrtl, FileSystem.read_eq_ok.mp hisa, hchk, ?_⟩
  · split <;> rfl
  · split <;> rfl

/-- A report is made of a copy of each file of the program. -/
structure Saved (it : ℕ) (dir : ReportDir) (num : ℕ) (s s' : Session) : Prop where
  frame : s.FilesOnly s'
  elf_mem : testFile it [] ".elf".toList ∈ s.files.keys
  writes : FileSystem.Writes [reportFile dir "sim_input".toList num ".si".toList,
    reportFile dir "elf".toList num ".elf".toList, reportFile dir "asm".toList num ".S".toList,
    reportFile dir "hex".toList num ".hex".toList] s.files s'.files

theorem reportFile_ne_ownFile (dir : ReportDir) (kind : Text) (num : ℕ) (extension : Text)
    (own : OwnKind) (rest : Text) : reportFile dir kind num extension ≠ ownFile own it rest := by
  intro heq
  have hreport := head?_reportFile dir kind num extension
  rw [heq, head?_ownFile] at hreport
  exact absurd hreport (by decide)

theorem saved {dir : ReportDir} {num : ℕ} (h : saveMismatch it dir test num s = .ok s') :
    Saved it dir num s s' := by
  obtain ⟨contents, -, h⟩ := bind_eq_ok.mp h
  obtain ⟨files₁, helf, h⟩ := bind_eq_ok.mp h
  obtain ⟨files₂, hasm, h⟩ := bind_eq_ok.mp h
  obtain ⟨files₃, hhex, h⟩ := bind_eq_ok.mp h
  obtain rfl := Except.ok.inj h
  obtain ⟨elf, hread, rfl⟩ := FileSystem.copy_eq_ok.mp helf
  obtain ⟨asm, -, rfl⟩ := FileSystem.copy_eq_ok.mp hasm
  obtain ⟨hex, -, rfl⟩ := FileSystem.copy_eq_ok.mp hhex
  refine ⟨rfl, ?_, (((FileSystem.Writes.set _ _ _).trans (.set _ _ _)).trans (.set _ _ _)).trans
    (.set _ _ _)⟩
  have hmem : testFile it [] ".elf".toList ∈
      (s.files.set (reportFile dir "sim_input".toList num ".si".toList) contents).keys :=
    Dict.isSome_get?_iff.mp (Option.isSome_of_eq_some hread)
  rcases Dict.mem_keys_set.mp hmem with heq | hmem
  · exact absurd heq.symm (reportFile_ne_ownFile dir _ num _ .test _)
  · exact hmem

/-- An interrupt is not taken, or Spike runs again with it. -/
structure InterruptTaken (it : ℕ) (outcome : Outcome) (test : Test) (s : Session)
    (fate : Option Fate) (s' : Session) : Prop where
  frame : s' = { s with stop := s'.stop, files := s'.files }
  fate_eq : fate = some .noInterrupt ∧ s' = s ∨
    fate = isaEnd outcome.isaAgain ∧ s'.stop = isaStop outcome.isaAgain s.stop ∧
      FileSystem.Writes ([test.file it ".isa.intr"] ++ isaFiles it outcome.isaAgain) s.files s'.files

theorem interruptTaken {symbols : Dict Text ℕ} {fate : Option Fate}
    (hstop : s.stop ≠ .errIsaTimeout)
    (h : takeInterrupt it outcome test symbols s = .ok (fate, s')) :
    InterruptTaken it outcome test s fate s' := by
  obtain ⟨rtlSig, -, h⟩ := bind_eq_ok.mp h
  obtain ⟨epc, -, h⟩ := bind_eq_ok.mp h
  by_cases hepc : epc = 0
  · rw [if_pos hepc] at h
    obtain ⟨rfl, rfl⟩ := Prod.mk.inj (Except.ok.inj h)
    exact ⟨rfl, .inl ⟨rfl, rfl⟩⟩
  · rw [if_neg hepc] at h
    obtain ⟨intrfile, -, h⟩ := bind_eq_ok.mp h
    obtain ⟨isaIntr, -, h⟩ := bind_eq_ok.mp h
    have htested : IsaTested it outcome.isaAgain (s.write (test.file it ".isa.intr") isaIntr) _ _ :=
      isaTested hstop
    generalize runIsaTest it outcome.isaAgain (s.write (test.file it ".isa.intr") isaIntr) = r
      at h htested
    obtain ⟨rfl, rfl⟩ := Prod.mk.inj (Except.ok.inj h)
    refine ⟨?_, .inr ⟨htested.fate, htested.stop, ?_⟩⟩
    · rw [htested.frame]
      rfl
    · exact (s.writes_write _ _).trans htested.writes

/-- A report of a test in a directory, when the run is recorded. -/
structure Reported (config : Config) (it : ℕ) (dir : ReportDir) (num : ℕ) (s s' : Session) : Prop where
  frame : s.FilesOnly s'
  quiet : config.record = false → s'.files = s.files
  saved : config.record = true → Saved it dir num s s'

theorem reported {dir : ReportDir} {num : ℕ}
    (h : (if config.record then saveMismatch it dir test num s else .ok s) = .ok s') :
    Reported config it dir num s s' := by
  cases hrecord : config.record with
  | false =>
    rw [hrecord] at h
    obtain rfl := Except.ok.inj h
    exact ⟨rfl, fun _ ↦ rfl, fun h ↦ absurd (hrecord.symm.trans h) (by decide)⟩
  | true =>
    rw [hrecord] at h
    have hsaved := saved h
    exact ⟨hsaved.frame, fun h ↦ absurd (hrecord.symm.trans h) (by decide), fun _ ↦ hsaved⟩

/-- A test is judged in one of three ways. -/
inductive Judged (config : Config) (it : ℕ) (symbols : Dict Text ℕ) (ret : ℤ) (s : Session) :
    Session → Prop
  | illegal {s' : Session} (hret : ret = Verdict.illMem.code)
    (h : Reported config it .illegal s.iNum s s') :
    Judged config it symbols ret s { s' with iNum := s'.iNum + 1 }
  | bug {s' : Session} (hret : ret ≠ Verdict.illMem.code)
    (hbug : ret = Verdict.success.code → compareSignatures symbols s = .ok false)
    (h : Reported config it .mismatch s.mNum s s') :
    Judged config it symbols ret s { s' with mNum := s'.mNum + 1 }
  | passed (hret : ret = Verdict.success.code)
    (hmatch : compareSignatures symbols s = .ok true) : Judged config it symbols ret s s

theorem judged {symbols : Dict Text ℕ} {ret : ℤ} (h : judge config it test symbols ret s = .ok s') :
    Judged config it symbols ret s s' := by
  unfold judge at h
  obtain ⟨isMatch, hmatch, h⟩ := ite_bind_eq_ok h
  obtain ⟨s₁, hillegal, h⟩ := ite_bind_eq_ok h
  dsimp only at h
  have hbugs {s₂ s₃ : Session} (h : reportBug config it test s₂ = .ok s₃) :
      ∃ s', Reported config it .mismatch s₂.mNum s₂ s' ∧ s₃ = { s' with mNum := s'.mNum + 1 } := by
    obtain ⟨s', hreport, h⟩ := ite_bind_eq_ok h
    exact ⟨s', reported hreport, (Except.ok.inj h).symm⟩
  by_cases hill : ret = Verdict.illMem.code
  · have hsuccess : ret ≠ Verdict.success.code := hill ▸ by decide
    rw [if_neg hsuccess, decide_eq_true hill] at hmatch
    obtain rfl := Except.ok.inj hmatch
    rw [if_pos hill] at hillegal
    obtain ⟨s', hreport, hs₁⟩ := ite_bind_eq_ok hillegal
    obtain rfl := Except.ok.inj hs₁
    rw [if_neg (by simp [hill])] at h
    obtain rfl := Except.ok.inj h
    exact .illegal hill (reported hreport)
  · rw [if_neg hill] at hillegal
    obtain rfl := Except.ok.inj hillegal
    by_cases hsuccess : ret = Verdict.success.code
    · rw [if_pos hsuccess] at hmatch
      cases isMatch with
      | false =>
        rw [if_pos (.inl rfl)] at h
        obtain ⟨s', hreport, rfl⟩ := hbugs h
        exact .bug hill (fun _ ↦ hmatch) hreport
      | true =>
        rw [if_neg (by simp [hsuccess])] at h
        obtain rfl := Except.ok.inj h
        exact .passed hsuccess hmatch
    · rw [if_pos (.inr (by simp [hsuccess, hill]))] at h
      obtain ⟨s', hreport, rfl⟩ := hbugs h
      exact .bug hill (fun heq ↦ absurd heq hsuccess) hreport

theorem Judged.frame {symbols : Dict Text ℕ} {ret : ℤ} (h : Judged config it symbols ret s s') :
    s' = { s with mNum := s'.mNum, iNum := s'.iNum, files := s'.files } := by
  cases h with
  | illegal _ hreport => rw [hreport.frame]
  | bug _ _ hreport => rw [hreport.frame]
  | passed => rfl

/-- A test that enters the corpus. -/
structure Admitted (config : Config) (it : ℕ) (outcome : Outcome) (test : Test) (s s' : Session) :
    Prop where
  frame : s' = { s with
    cNum := s.cNum + 1
    mutator := s.mutator.addCorpus test.simInput
    files := s'.files
    covLog := s'.covLog }
  quiet : config.record = false → s'.files = s.files ∧ s'.covLog = s.covLog
  recorded : config.record = true → ∃ contents, test.simInput.save [] = .ok contents ∧
    s'.files = s.files.set (corpusFile s.cNum) contents ∧ s'.covLog = s.covLog ++
      covLine outcome.elapsed (config.startIter + it) (config.startCov + s.coverage)

theorem admitted {trns : ℕ} (hpos : 0 < trns)
    (h : admitTest config it outcome test trns s = .ok s') :
    Admitted config it outcome test s s' := by
  unfold admitTest at h
  rw [if_pos hpos] at h
  obtain ⟨s₁, hrecord, h⟩ := ite_bind_eq_ok h
  obtain rfl := Except.ok.inj h
  cases hconfig : config.record with
  | false =>
    rw [hconfig] at hrecord
    obtain rfl := Except.ok.inj hrecord
    exact ⟨rfl, fun _ ↦ ⟨rfl, rfl⟩, fun h ↦ absurd (hconfig.symm.trans h) (by decide)⟩
  | true =>
    rw [hconfig] at hrecord
    obtain ⟨contents, hsave, hrecord⟩ := bind_eq_ok.mp hrecord
    obtain rfl := Except.ok.inj hrecord
    exact ⟨rfl, fun h ↦ absurd (hconfig.symm.trans h) (by decide),
      fun _ ↦ ⟨contents, hsave, rfl, rfl⟩⟩

theorem cleanUp_eq_ok (h : cleanUp it test s = .ok s') : s.FilesOnly s' ∧ ∀ path,
    s'.files.get? path = if path ∈ usedFiles it test then none else s.files.get? path := by
  obtain ⟨files, hfiles, h⟩ := bind_eq_ok.mp h
  obtain rfl := Except.ok.inj h
  exact ⟨rfl, FileSystem.get?_removeAll hfiles⟩

theorem updatePhase_eq_ok (h : updatePhase it s = .ok s') :
    s' = { s with mutator := s'.mutator, draws := s'.draws } ∧
      s.mutator.updatePhase it s.draws = .ok (s'.mutator, s'.draws) := by
  obtain ⟨⟨mutator, draws⟩, hphase, h⟩ := bind_eq_ok.mp h
  obtain rfl := Except.ok.inj h
  exact ⟨rfl, hphase⟩

/-- The last stages of an iteration: it ends with an interrupt, or the test is judged. -/
inductive Finished (config : Config) (it : ℕ) (outcome : Outcome) (test : Test)
    (symbols : Dict Text ℕ) (ret : ℤ) (s : Session) : Fate → Session → Prop
  | interrupted {s₁ s₂ : Session} {fate : Fate} (hcompare : TracesCompared config it s s₁)
    (hintr : test.assertIntr = true) (htaken : InterruptTaken it outcome test s₁ (some fate) s₂) :
    Finished config it outcome test symbols ret s fate s₂
  | judged {s₁ s₂ s₃ s₄ s₅ s' : Session} (hcompare : TracesCompared config it s s₁)
    (hintr : s₂ = s₁ ∨
      test.assertIntr = true ∧ InterruptTaken it outcome test s₁ none s₂)
    (hjudged : Judged config it symbols ret s₂ s₃)
    (hadmitted : Admitted config it outcome test s₃ s₄) (hclean : cleanUp it test s₄ = .ok s₅)
    (hphase : updatePhase it s₅ = .ok s') :
    Finished config it outcome test symbols ret s .judged s'

theorem finished {symbols : Dict Text ℕ} {trns : ℕ} {ret : ℤ} {fate : Fate} (hpos : 0 < trns)
    (hstop : s.stop ≠ .errIsaTimeout)
    (h : finishTest config it outcome test symbols trns ret s = .ok (fate, s')) :
    Finished config it outcome test symbols ret s fate s' := by
  obtain ⟨s₁, hcompare, h⟩ := bind_eq_ok.mp h
  have hcompare := tracesCompared hcompare
  have hstop₁ : s₁.stop ≠ .errIsaTimeout := by
    rw [hcompare.frame]
    exact hstop
  obtain ⟨⟨fate', s₂⟩, hintr, h⟩ := ite_bind_eq_ok h
  dsimp only at h
  -- The interrupt is the only stage before the judgement that may end the iteration.
  have hcases : fate' = none ∧ s₂ = s₁ ∨
      test.assertIntr = true ∧ InterruptTaken it outcome test s₁ fate' s₂ := by
    split at hintr
    · next hassert => exact .inr ⟨hassert.1, interruptTaken hstop₁ hintr⟩
    · obtain ⟨rfl, rfl⟩ := Prod.mk.inj (Except.ok.inj hintr)
      exact .inl ⟨rfl, rfl⟩
  cases fate' with
  | some fate' =>
    obtain ⟨rfl, rfl⟩ := Prod.mk.inj (Except.ok.inj h)
    rcases hcases with ⟨hnone, -⟩ | ⟨hassert, htaken⟩
    · exact nomatch hnone
    · exact .interrupted hcompare hassert htaken
  | none =>
    obtain ⟨s₃, hjudge, h⟩ := bind_eq_ok.mp h
    obtain ⟨s₄, hadmit, h⟩ := bind_eq_ok.mp h
    obtain ⟨s₅, hclean, h⟩ := bind_eq_ok.mp h
    obtain ⟨s₆, hphase, h⟩ := bind_eq_ok.mp h
    obtain ⟨rfl, rfl⟩ := Prod.mk.inj (Except.ok.inj h)
    exact .judged hcompare (hcases.imp_left And.right) (judged hjudge) (admitted hpos hadmit)
      hclean hphase

section Finished

variable {symbols : Dict Text ℕ} {ret : ℤ} {fate : Fate}

/-- The judgement finds the session as the comparison left it, but for another run of Spike. -/
theorem frame_of_intr {s₁ s₂ : Session} (h : s₂ = s₁ ∨
    test.assertIntr = true ∧ InterruptTaken it outcome test s₁ none s₂) :
    s₂ = { s₁ with stop := s₂.stop, files := s₂.files } := by
  rcases h with rfl | ⟨-, htaken⟩
  · rfl
  · exact htaken.frame

theorem Finished.transitions (h : Finished config it outcome test symbols ret s fate s') :
    s'.transitions = s.transitions := by
  cases h with
  | interrupted hcompare _ htaken => rw [htaken.frame, hcompare.frame]
  | judged hcompare hintr hjudged hadmitted hclean hphase =>
    rw [(updatePhase_eq_ok hphase).1, (cleanUp_eq_ok hclean).1, hadmitted.frame, hjudged.frame,
      frame_of_intr hintr, hcompare.frame]

theorem Finished.fate_ne (h : Finished config it outcome test symbols ret s fate s') :
    fate ≠ .repeated := by
  cases h with
  | interrupted hcompare _ htaken =>
    rintro rfl
    rcases htaken.fate_eq with ⟨hfate, -⟩ | ⟨hfate, -⟩
    · exact nomatch hfate
    · rcases isaEnd_cases outcome.isaAgain with ⟨hend, -⟩ | ⟨hend, -⟩ | ⟨hend, -⟩
      · exact nomatch hfate.trans hend
      · exact nomatch hfate.trans hend
      · exact nomatch hfate.trans hend
  | judged => exact nofun

end Finished

/-- The stages up to the scan of the log of Spike. -/
structure Scanned (config : Config) (it : ℕ) (outcome : Outcome) (test : Test) (s : Session)
    (trns : ℕ) (s' : Session) : Prop where
  fate : isaEnd outcome.isa = none
  tested : ∃ ret s₁, IsaTested it outcome.isa s ret s₁ ∧
    IsaLogRead config it outcome.isa.log s₁ trns s'

/-- How an iteration goes from its test on. -/
inductive Iterated (config : Config) (it : ℕ) (outcome : Outcome) (test : Test) (s : Session) :
    ℕ → Fate → Session → Prop
  | compileFailed {s₁ : Session} (hbuild : Preprocessed it outcome test s none s₁) :
    Iterated config it outcome test s 0 .compileFailed { s₁ with stop := .errCompile }
  | isaFailed {input : RtlInput} {ret : ProcState} {s₁ s' : Session} {fate : Fate}
    (hbuild : Preprocessed it outcome test s (some input) s₁)
    (htested : IsaTested it outcome.isa s₁ ret s') (hfate : isaEnd outcome.isa = some fate) :
    Iterated config it outcome test s 0 fate s'
  | repeated {input : RtlInput} {s₁ s₂ s' : Session}
    (hbuild : Preprocessed it outcome test s (some input) s₁)
    (hscanned : Scanned config it outcome test s₁ 0 s₂) (hdrop : dropTest it test s₂ = .ok s') :
    Iterated config it outcome test s 0 .repeated s'
  | rtlFailed {input : RtlInput} {s₁ s₂ s' : Session} {trns : ℕ}
    (hbuild : Preprocessed it outcome test s (some input) s₁)
    (hscanned : Scanned config it outcome test s₁ trns s₂) (hpos : 0 < trns)
    (htested : RtlTested it outcome.rtl s₂ none s') :
    Iterated config it outcome test s trns .rtlFailed s'
  | finished {input : RtlInput} {s₁ s₂ s₃ s' : Session} {trns : ℕ} {ret : ℤ} {fate : Fate}
    (hbuild : Preprocessed it outcome test s (some input) s₁)
    (hscanned : Scanned config it outcome test s₁ trns s₂) (hpos : 0 < trns)
    (htested : RtlTested it outcome.rtl s₂ (some ret) s₃)
    (hfinished : Finished config it outcome test input.symbols ret s₃ fate s') :
    Iterated config it outcome test s trns fate s'

/-- What an iteration does that returns. -/
theorem iterated {report : Report} (hstop : s.stop ≠ .errIsaTimeout)
    (h : iterate config it outcome s = .ok (report, s')) : ∃ test s₁,
      nextTest config it s = .ok (test, s₁) ∧ report.it = it ∧ report.test = test ∧
        Iterated config it outcome test s₁ report.trns report.fate s' := by
  obtain ⟨⟨test, s₁⟩, hnext, h⟩ := bind_eq_ok.mp h
  obtain ⟨⟨input, s₂⟩, hbuild, h⟩ := bind_eq_ok.mp h
  have hbuild := preprocessed hbuild
  have hstop₂ : s₂.stop ≠ .errIsaTimeout := by
    rw [hbuild.frame, nextTest_frame hnext]
    exact hstop
  cases input with
  | none =>
    obtain ⟨rfl, rfl⟩ := Prod.mk.inj (Except.ok.inj h)
    exact ⟨test, s₁, hnext, rfl, rfl, .compileFailed hbuild⟩
  | some input =>
    obtain ⟨⟨trns, fate, s₃⟩, hsimulate, h⟩ := bind_eq_ok.mp h
    obtain ⟨rfl, rfl⟩ := Prod.mk.inj (Except.ok.inj h)
    refine ⟨test, s₁, hnext, rfl, rfl, ?_⟩
    have htested : IsaTested it outcome.isa s₂ _ _ := isaTested hstop₂
    unfold simulate at hsimulate
    generalize runIsaTest it outcome.isa s₂ = r at hsimulate htested
    dsimp only at hsimulate
    rw [htested.fate] at hsimulate
    cases hfate : isaEnd outcome.isa with
    | some fate' =>
      rw [hfate] at hsimulate
      obtain ⟨rfl, hend⟩ := Prod.mk.inj (Except.ok.inj hsimulate)
      obtain ⟨rfl, rfl⟩ := Prod.mk.inj hend
      exact .isaFailed hbuild htested hfate
    | none =>
      rw [hfate] at hsimulate
      obtain ⟨⟨trns', s₄⟩, hread, hsimulate⟩ := bind_eq_ok.mp hsimulate
      have hscanned : Scanned config it outcome test s₂ trns' s₄ :=
        ⟨hfate, _, _, htested, isaLogRead htested.log hread⟩
      dsimp only at hsimulate
      by_cases hzero : trns' = 0
      · rw [if_pos hzero] at hsimulate
        obtain ⟨s₅, hdrop, hsimulate⟩ := bind_eq_ok.mp hsimulate
        obtain ⟨rfl, hend⟩ := Prod.mk.inj (Except.ok.inj hsimulate)
        obtain ⟨rfl, rfl⟩ := Prod.mk.inj hend
        exact .repeated hbuild (hzero ▸ hscanned) hdrop
      · rw [if_neg hzero] at hsimulate
        have hpos := Nat.pos_of_ne_zero hzero
        have hrtl : RtlTested it outcome.rtl s₄ (runRtlTest it outcome.rtl input test s₄).1 _ :=
          rtlTested
        have hstop₄ : s₄.stop ≠ .errIsaTimeout := by
          obtain ⟨-, ret, s₅, htested, hread⟩ := hscanned
          rw [hread.frame]
          exact htested.stop ▸ isaStop_ne hstop₂ _
        split at hsimulate
        · next s₅ hrun =>
          rw [hrun] at hrtl
          obtain ⟨rfl, hend⟩ := Prod.mk.inj (Except.ok.inj hsimulate)
          obtain ⟨rfl, rfl⟩ := Prod.mk.inj hend
          exact .rtlFailed hbuild hscanned hpos hrtl
        · next ret s₅ hrun =>
          rw [hrun] at hrtl
          obtain ⟨⟨fate', s₆⟩, hfinish, hsimulate⟩ := bind_eq_ok.mp hsimulate
          obtain ⟨rfl, hend⟩ := Prod.mk.inj (Except.ok.inj hsimulate)
          obtain ⟨rfl, rfl⟩ := Prod.mk.inj hend
          have hstop₅ : s₅.stop ≠ .errIsaTimeout := by
            rw [hrtl.stop]
            exact hstop₄
          exact .finished hbuild hscanned hpos hrtl (finished hpos hstop₅ hfinish)

/-- What the end of an iteration makes of the state of the process. -/
def stopAfter : Fate → ProcState → ProcState
  | .compileFailed, _ => .errCompile
  | .isaTimeout, _ => .normal
  | .isaAssert, _ => .errIsaAssert
  | .rtlFailed, _ => .errRtlSim
  | .repeated, stop => stop
  | .noInterrupt, stop => stop
  | .judged, stop => stop

theorem stopAfter_ne {stop : ProcState} (hstop : stop ≠ .errIsaTimeout) (fate : Fate) :
    stopAfter fate stop ≠ .errIsaTimeout := by
  cases fate <;> first | exact hstop | exact nofun

theorem stop_of_isaEnd {run : IsaRun} {fate : Fate} (h : isaEnd run = some fate)
    (stop : ProcState) : isaStop run stop = stopAfter fate stop := by
  rcases isaEnd_cases run with ⟨hend, -⟩ | ⟨hend, hstop⟩ | ⟨hend, hstop⟩
  · exact nomatch hend.symm.trans h
  · obtain rfl := Option.some.inj (hend.symm.trans h)
    exact hstop stop
  · obtain rfl := Option.some.inj (hend.symm.trans h)
    exact hstop stop

theorem isaStop_of_isaEnd {run : IsaRun} (h : isaEnd run = none) (stop : ProcState) :
    isaStop run stop = stop := by
  rcases isaEnd_cases run with ⟨-, hstop⟩ | ⟨hend, -⟩ | ⟨hend, -⟩
  · exact hstop stop
  · exact nomatch hend.symm.trans h
  · exact nomatch hend.symm.trans h

theorem Finished.stop {symbols : Dict Text ℕ} {ret : ℤ} {fate : Fate}
    (h : Finished config it outcome test symbols ret s fate s') :
    s'.stop = stopAfter fate s.stop := by
  cases h with
  | interrupted hcompare _ htaken =>
    have hs₁ := congrArg Session.stop hcompare.frame
    rcases htaken.fate_eq with ⟨hfate, rfl⟩ | ⟨hfate, hstop, -⟩
    · obtain rfl := Option.some.inj hfate
      exact hs₁
    · rw [hstop, stop_of_isaEnd hfate.symm]
      exact congrArg (stopAfter fate) hs₁
  | judged hcompare hintr hjudged hadmitted hclean hphase =>
    have hs₁ := congrArg Session.stop hcompare.frame
    have hs₃ := congrArg Session.stop hjudged.frame
    have hs₄ := congrArg Session.stop hadmitted.frame
    have hs₅ := congrArg Session.stop (cleanUp_eq_ok hclean).1
    have hs' := congrArg Session.stop (updatePhase_eq_ok hphase).1
    refine hs'.trans (hs₅.trans (hs₄.trans (hs₃.trans ?_)))
    rcases hintr with rfl | ⟨-, htaken⟩
    · exact hs₁
    · rcases htaken.fate_eq with ⟨hfate, -⟩ | ⟨hfate, hstop, -⟩
      · exact nomatch hfate
      · exact hstop.trans ((isaStop_of_isaEnd hfate.symm _).trans hs₁)

theorem Iterated.stop {trns : ℕ} {fate : Fate} (h : Iterated config it outcome test s trns fate s') :
    s'.stop = stopAfter fate s.stop := by
  have hscan {s₁ s₂ : Session} {trns : ℕ} (hscanned : Scanned config it outcome test s₁ trns s₂) :
      s₂.stop = s₁.stop := by
    obtain ⟨ret, s₃, htested, hread⟩ := hscanned.tested
    calc
      s₂.stop = s₃.stop := by rw [hread.frame]
      _ = isaStop outcome.isa s₁.stop := htested.stop
      _ = s₁.stop := isaStop_of_isaEnd hscanned.fate _
  cases h with
  | compileFailed hbuild => rfl
  | isaFailed hbuild htested hfate =>
    rw [htested.stop, stop_of_isaEnd hfate, hbuild.frame]
  | repeated hbuild hscanned hdrop =>
    have hs₁ := congrArg Session.stop hbuild.frame
    have hs₂ := congrArg Session.stop (dropTest_eq_ok hdrop).1
    exact hs₂.trans ((hscan hscanned).trans hs₁)
  | rtlFailed hbuild hscanned hpos htested => exact htested.stop
  | finished hbuild hscanned hpos htested hfinished =>
    have hs₁ := congrArg Session.stop hbuild.frame
    rw [hfinished.stop, htested.stop]
    exact congrArg (stopAfter fate) ((hscan hscanned).trans hs₁)

/-- What holds at the start and after every iteration holds at the end of a run. -/
theorem runFrom_induction {I : ℕ → List (Outcome × Report) → Session → Prop}
    (hstep : ∀ {it done s outcome test s₁ trns fate s'}, I it done s →
      nextTest config it s = .ok (test, s₁) → Iterated config it outcome test s₁ trns fate s' →
      I (it + 1) (done ++ [(outcome, ⟨it, test, trns, fate⟩)]) s')
    {outcomes : List Outcome} {reports : List Report} {done : List (Outcome × Report)}
    (hstop : s.stop ≠ .errIsaTimeout) (hs : I it done s)
    (h : runFrom config it outcomes s = .ok (reports, s')) :
    I (it + outcomes.length) (done ++ outcomes.zip reports) s' ∧
      reports.length = outcomes.length := by
  induction outcomes generalizing it done s reports with
  | nil =>
    obtain ⟨rfl, rfl⟩ := Prod.mk.inj (Except.ok.inj h)
    rw [List.zip_nil_left, List.append_nil]
    exact ⟨hs, rfl⟩
  | cons outcome outcomes ih =>
    obtain ⟨⟨report, s₂⟩, hiterate, h⟩ := bind_eq_ok.mp h
    obtain ⟨⟨rest, s₃⟩, hrun, h⟩ := bind_eq_ok.mp h
    obtain ⟨rfl, rfl⟩ := Prod.mk.inj (Except.ok.inj h)
    obtain ⟨test, s₁, hnext, hit, htest, hiterated⟩ := iterated hstop hiterate
    have hreport : report = ⟨it, test, report.trns, report.fate⟩ := by
      rw [← hit, ← htest]
    have hstop₂ : s₂.stop ≠ .errIsaTimeout := by
      rw [hiterated.stop, nextTest_frame hnext]
      exact stopAfter_ne hstop _
    have hs₂ := hstep hs hnext hiterated
    rw [← hreport] at hs₂
    obtain ⟨hs₃, hlength⟩ := ih hstop₂ hs₂ hrun
    rw [List.append_assoc, List.singleton_append, Nat.add_assoc, Nat.add_comm 1] at hs₃
    exact ⟨hs₃, congrArg (· + 1) hlength⟩

/-- The rule for the runs of `Run`. -/
theorem run_induction {I : ℕ → List (Outcome × Report) → Session → Prop} {noGuide : Bool}
    {draws : Draws} {outcomes : List Outcome} {reports : List Report}
    (hstart : I 1 [] (start noGuide draws))
    (hstep : ∀ {it done s outcome test s₁ trns fate s'}, I it done s →
      nextTest config it s = .ok (test, s₁) → Iterated config it outcome test s₁ trns fate s' →
      I (it + 1) (done ++ [(outcome, ⟨it, test, trns, fate⟩)]) s')
    (h : run config noGuide draws outcomes = .ok (reports, s)) :
    I (1 + reports.length) (outcomes.zip reports) s := by
  obtain ⟨hs, hlength⟩ := runFrom_induction hstep (by decide : ProcState.normal ≠ .errIsaTimeout)
    hstart h
  rw [← hlength, List.nil_append] at hs
  cases hfile : config.inFile with
  | none =>
    rw [hfile] at hs
    exact hs
  | some contents =>
    rw [hfile] at hs hlength
    have hzip : (outcomes.take 1).zip reports = outcomes.zip reports := by
      cases outcomes with
      | nil => rfl
      | cons outcome outcomes =>
        obtain ⟨report, rfl⟩ := List.length_eq_one_iff.mp hlength
        rw [List.take_one, List.head?_cons, Option.toList_some, List.zip_cons_cons,
          List.zip_cons_cons, List.zip_nil_right, List.zip_nil_right]
    rw [← hzip]
    exact hs

end ProcessorFuzz.Fuzzing
