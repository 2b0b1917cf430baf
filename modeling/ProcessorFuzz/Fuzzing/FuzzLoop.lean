import ProcessorFuzz.Common.Transitions
import ProcessorFuzz.Execution.Oracle
import ProcessorFuzz.Execution.Preprocessor
import ProcessorFuzz.Execution.RtlHost
import ProcessorFuzz.Execution.TraceCsv
import ProcessorFuzz.Fuzzing.OutDir
import ProcessorFuzz.Mutation.OriginalMutator

/-!
# The fuzzing loop

`Run` takes tests from the mutator, or the one test of a file, and sends each through the compiler,
Spike, the scan for transitions, the RTL simulation and the comparisons. A test that shows a new
transition becomes part of the corpus. An iteration may end early at any of these stages.

The compiler, Spike, the device under test and the clock are the environment: what they do in an
iteration is given from outside, and the loop goes over the list of what they do.
-/

namespace ProcessorFuzz.Fuzzing

open Library Mutation Execution
open SignatureFile (symbol dataSections)
open Oracle (isaSigFile rtlSigFile)
open RtlMemory (RtlInput hostMemory setBootrom)
open RtlHost (Dut Verdict)
open Common.TraceCompare (Toplevel)
open Common.Transitions (Globals extractTransitions)

/-- The states of a process. -/
inductive ProcState
  | normal
  | errCompile
  | errIsaAssert
  | errIsaTimeout
  | errRtlSim
  deriving DecidableEq, Repr

/-- What the tools make of an assembly file: the program, its hex dump and the output of `nm`. -/
structure Build where
  elf : Text
  hexfile : Text
  listing : Text

/-- A run of Spike: whether it took longer than `ISA_TIME_LIMIT`, its exit code, its log and the
signature file if it writes one. -/
structure IsaRun where
  timedOut : Bool
  exitCode : ℤ
  log : Text
  signature : Option Text

/-- A run of the RTL simulation: the device, none if the simulator fails, and its log. -/
structure RtlRun where
  dut : Option Dut
  log : Option Text

/-- What the environment does in an iteration: the build, if the test compiles, the two simulations,
another run of Spike for an interrupt, and the time that has elapsed. -/
structure Outcome where
  build : Option Build
  isa : IsaRun
  rtl : RtlRun
  isaAgain : IsaRun
  elapsed : Text

/-- The arguments of `Run`. -/
structure Config where
  toplevel : Toplevel
  /-- The lines of the template of a version. -/
  template : ℕ → List Text
  /-- The contents of `in_file`. -/
  inFile : Option Text
  record : Bool
  allCsr : Bool
  fpCsr : Bool
  startIter : ℕ
  startCov : ℕ

/-- The variables of `Run` and what they refer to: the mutator, the global lists of transitions, the
files below `out` and the log of the coverage. -/
structure Session where
  mutator : RvMutator
  transitions : Globals
  draws : Draws
  stop : ProcState
  mNum : ℕ
  cNum : ℕ
  iNum : ℕ
  misCount : ℕ
  coverage : ℕ
  files : FileSystem
  covLog : Text

def start (noGuide : Bool) (draws : Draws) : Session where
  mutator := RvMutator.init 100 1000 noGuide
  transitions := {}
  draws
  stop := .normal
  mNum := 0
  cNum := 0
  iNum := 0
  misCount := 0
  coverage := 0
  files := Dict.empty
  covLog := []

/-- How an iteration ends: at one of the statements `continue`, or after the last one. -/
inductive Fate
  | compileFailed
  | isaTimeout
  | isaAssert
  | repeated
  | rtlFailed
  | noInterrupt
  | judged
  deriving DecidableEq, Repr

/-- `sim_input`, `data` and `assert_intr`. -/
structure Test where
  simInput : SimInput
  data : List ℤ
  assertIntr : Bool

/-- What happened in an iteration: the test, the number of its new transitions and the end. -/
structure Report where
  it : ℕ
  test : Test
  trns : ℕ
  fate : Fate

namespace Session

def write (s : Session) (path contents : Text) : Session :=
  { s with files := s.files.set path contents }

/-- A file that is written only when there is something to write. -/
def writeOption (s : Session) (path : Text) : Option Text → Session
  | none => s
  | some contents => s.write path contents

end Session

/-- The test of an iteration. Interrupts are asserted only when a file asks for them. -/
def nextTest (config : Config) (it : ℕ) (s : Session) : Except PyError (Test × Session) :=
  match config.inFile with
  | some contents => do
    let ((simInput, data, assertIntr), mutator, draws) ← s.mutator.readTest contents s.draws
    .ok (⟨simInput, data, assertIntr⟩, { s with mutator, draws })
  | none => do
    let ((simInput, data), mutator, draws) ←
      s.mutator.getWith Original.mutateWords it false s.draws
    .ok (⟨simInput, data, false⟩, { s with mutator, draws })

/-- The file of a test with this extension. -/
def Test.file (test : Test) (it : ℕ) (extension : String) : Text :=
  testFile it test.simInput.nameSuffix extension.toList

/-- `get_symbols` on the output of `nm`. -/
def getSymbols (listing : Text) : Except PyError (Dict Text ℕ) :=
  (Text.readlines listing).foldlM (fun symbols line ↦ do
    let name ← Text.item (Text.split " ".toList line) 2
    let addr ← Text.item (Text.split " ".toList line) 0
    let addr ← Text.int 16 addr
    .ok (symbols.set name.dropLast addr.toNat)) Dict.empty

/-- `rvPreProcessor.process` and the files that it writes. What it does before the compiler runs does
not depend on the compiler. -/
def preprocess (config : Config) (it : ℕ) (outcome : Outcome) (test : Test) (s : Session) :
    Except PyError (Option RtlInput × Session) := do
  let process (toolchain : Preprocessor.Toolchain) :=
    Preprocessor.process toolchain (config.template test.simInput.template) test.simInput test.data
      test.assertIntr s.draws 6
  let (processed, draws) ← process fun _ ↦ none
  let s := { s with draws }
  let s := (s.write (test.file it ".si") processed.siFile).write (test.file it ".S")
    processed.asmFile
  match outcome.build with
  | none => .ok (none, s)
  | some build => do
    let s := (s.write (test.file it ".elf") build.elf).write (test.file it ".hex") build.hexfile
    let s := s.write (test.file it ".symbols") build.listing
    let symbols ← getSymbols build.listing
    let (processed, _) ← process fun _ ↦ some (build.hexfile, symbols)
    let intrfile := processed.rtlInput.map RtlInput.intrfile
    let s := if test.assertIntr then s.writeOption (test.file it ".rtl.intr") intrfile else s
    .ok (processed.rtlInput, s)

/-- `run_isa_test`. A time-out resets the state of the process. -/
def runIsaTest (it : ℕ) (run : IsaRun) (s : Session) : ProcState × Session :=
  let s := (s.writeOption isaSigFile run.signature).write (isaTrace it ".log".toList) run.log
  let s := if run.timedOut then { s with stop := .errIsaTimeout } else s
  if s.stop = .errIsaTimeout then (.errIsaTimeout, { s with stop := .normal })
  else if run.exitCode ≠ 0 then (.errIsaAssert, { s with stop := .errIsaAssert })
  else (.normal, s)

/-- The end of an iteration that `run_isa_test` ends. -/
def isaFate : ProcState → Option Fate
  | .errIsaTimeout => some .isaTimeout
  | .errIsaAssert => some .isaAssert
  | _ => none

/-- The scan of the log of Spike, and the trace file that is made of it. -/
def readIsaLog (config : Config) (it : ℕ) (s : Session) : Except PyError (ℕ × Session) := do
  let log ← s.files.read (isaTrace it ".log".toList)
  let (transitions, trns) ← extractTransitions config.allCsr config.fpCsr s.transitions (it, log)
  let csv ← TraceCsv.processSpikeSimLog log
  let s := { s with transitions }
  .ok (trns, s.write (isaTrace it ".csv".toList) csv)

/-- The files of a test without new transitions are removed. -/
def dropTest (it : ℕ) (test : Test) (s : Session) : Except PyError Session := do
  let files ← s.files.removeAll (s.files.glob (test.file it "."))
  let files ← files.removeAll (files.glob (isaTrace it ".".toList))
  .ok { s with files }

/-- `rvRTLhost.run_test` with the signature file that it writes when it succeeds. -/
def hostRunFile (dut : Dut) (input : RtlInput) (assertIntr : Bool) :
    Except PyError ((ℤ × ℕ) × Option Text) := do
  let memory ← hostMemory input
  let tohostAddr ← symbol input.symbols "tohost".toList
  let sigStart ← symbol input.symbols "begin_signature".toList
  let sigEnd ← symbol input.symbols "end_signature".toList
  let dataAddrs ← dataSections input.symbols
  let loaded ← RtlHost.loadedIndex input dataAddrs
  let ints ← RtlHost.assertedInterrupts assertIntr (RtlHost.hostInterrupts input.intrfile)
  let behaviour := dut memory ints
  let last ← RtlHost.hostLoop behaviour tohostAddr input.maxCycles 0 loaded
  if RtlHost.checkMemoryAccess behaviour.final setBootrom.1 then
    match last with
    | none => .error (.unboundLocalError "i")
    | some i =>
      if i + 1 = input.maxCycles then .ok ((Verdict.timeOut.code, behaviour.covSum), none)
      else if behaviour.asserted then
        .ok ((Verdict.assertionFail.code, behaviour.covSum), none)
      else do
        let contents ← SignatureFile.saveSignature (RtlHost.lookups behaviour.final) sigStart
          sigEnd dataAddrs
        .ok ((Verdict.success.code, behaviour.covSum), some contents)
  else .ok ((Verdict.illMem.code, behaviour.covSum), none)

/-- `yield rtlHost.run_test(...)`: what it raises is caught. -/
def runRtlTest (it : ℕ) (run : RtlRun) (input : RtlInput) (test : Test) (s : Session) :
    Option ℤ × Session :=
  let s := s.writeOption (rtlTrace it) run.log
  match run.dut.map fun dut ↦ hostRunFile dut input test.assertIntr with
  | some (.ok ((ret, coverage), contents)) =>
    (some ret, { s with coverage }.writeOption rtlSigFile contents)
  | _ => (none, { s with stop := .errRtlSim })

/-- `trace_compare` on the files of the iteration. -/
def compareTraces (config : Config) (it : ℕ) (s : Session) : Except PyError Session := do
  let rtlLog ← s.files.read (rtlTrace it)
  let isaCsv ← s.files.read (isaTrace it ".csv".toList)
  let chk ← TraceCsv.traceCompareFiles isaCsv rtlLog config.toplevel
  .ok (if chk = -1 then { s with misCount := s.misCount + 1 } else s)

/-- An interrupt that the RTL simulation took is handed to Spike, which runs again. -/
def takeInterrupt (it : ℕ) (outcome : Outcome) (test : Test) (symbols : Dict Text ℕ) (s : Session) :
    Except PyError (Option Fate × Session) := do
  let rtlSig ← s.files.read rtlSigFile
  let epc ← Oracle.checkIntr symbols rtlSig
  if epc = 0 then .ok (some .noInterrupt, s)
  else do
    let intrfile ← s.files.read (test.file it ".rtl.intr")
    let isaIntr ← Oracle.writeIsaIntr intrfile epc
    let (ret, s) := runIsaTest it outcome.isaAgain (s.write (test.file it ".isa.intr") isaIntr)
    .ok (isaFate ret, s)

/-- `save_mismatch`, whose paths of the program lack the suffix of the name. -/
def saveMismatch (it : ℕ) (dir : ReportDir) (test : Test) (num : ℕ) (s : Session) :
    Except PyError Session := do
  let contents ← test.simInput.save test.data
  let files : FileSystem :=
    s.files.set (reportFile dir "sim_input".toList num ".si".toList) contents
  let files ← files.copy (testFile it [] ".elf".toList)
    (reportFile dir "elf".toList num ".elf".toList)
  let files ← files.copy (testFile it [] ".S".toList) (reportFile dir "asm".toList num ".S".toList)
  let files ← files.copy (testFile it [] ".hex".toList)
    (reportFile dir "hex".toList num ".hex".toList)
  .ok { s with files }

/-- `checker.check` on the two signature files. -/
def compareSignatures (symbols : Dict Text ℕ) (s : Session) : Except PyError Bool := do
  let isaSig ← s.files.read isaSigFile
  let rtlSig ← s.files.read rtlSigFile
  Oracle.checkFiles symbols isaSig rtlSig

/-- A test with an access outside of the memory. -/
def reportIllegal (config : Config) (it : ℕ) (test : Test) (s : Session) :
    Except PyError Session := do
  let s ← if config.record then saveMismatch it .illegal test s.iNum s else .ok s
  .ok { s with iNum := s.iNum + 1 }

/-- A test that shows a bug. -/
def reportBug (config : Config) (it : ℕ) (test : Test) (s : Session) : Except PyError Session := do
  let s ← if config.record then saveMismatch it .mismatch test s.mNum s else .ok s
  .ok { s with mNum := s.mNum + 1 }

/-- The result of the RTL simulation is judged. -/
def judge (config : Config) (it : ℕ) (test : Test) (symbols : Dict Text ℕ) (ret : ℤ) (s : Session) :
    Except PyError Session := do
  let isMatch ←
    if ret = Verdict.success.code then compareSignatures symbols s
    else .ok (decide (ret = Verdict.illMem.code))
  let s ← if ret = Verdict.illMem.code then reportIllegal config it test s else .ok s
  if !isMatch ∨ ret ∉ [Verdict.success.code, Verdict.illMem.code] then reportBug config it test s
  else .ok s

/-- A line of the coverage log. -/
def covLine (elapsed : Text) (iter coverage : ℕ) : Text :=
  Text.ljust 10 elapsed ++ "\t".toList ++ Text.ljust 10 (Text.dec iter) ++ "\t".toList ++
    Text.ljust 10 (Text.dec coverage) ++ "\n".toList

/-- The files of a test that enters the corpus. -/
def recordTest (config : Config) (it : ℕ) (outcome : Outcome) (test : Test) (s : Session) :
    Except PyError Session := do
  let contents ← test.simInput.save []
  let line := covLine outcome.elapsed (config.startIter + it) (config.startCov + s.coverage)
  let s := { s with covLog := s.covLog ++ line }
  .ok (s.write (corpusFile s.cNum) contents)

/-- A test with new transitions enters the corpus. -/
def admitTest (config : Config) (it : ℕ) (outcome : Outcome) (test : Test) (trns : ℕ) (s : Session) :
    Except PyError Session := do
  if 0 < trns then
    let s ← if config.record then recordTest config it outcome test s else .ok s
    .ok { s with cNum := s.cNum + 1, mutator := s.mutator.addCorpus test.simInput }
  else .ok s

/-- The files that are removed at the end of an iteration. -/
def usedFiles (it : ℕ) (test : Test) : List Text :=
  [test.file it ".symbols", test.file it ".hex", test.file it ".S", test.file it ".elf",
    isaTrace it ".log".toList, isaTrace it ".csv".toList, rtlTrace it]

def cleanUp (it : ℕ) (test : Test) (s : Session) : Except PyError Session := do
  let files ← s.files.removeAll (usedFiles it test)
  .ok { s with files }

def updatePhase (it : ℕ) (s : Session) : Except PyError Session := do
  let (mutator, draws) ← s.mutator.updatePhase it s.draws
  .ok { s with mutator, draws }

/-- An iteration from the result of the RTL simulation on. -/
def finishTest (config : Config) (it : ℕ) (outcome : Outcome) (test : Test) (symbols : Dict Text ℕ)
    (trns : ℕ) (ret : ℤ) (s : Session) : Except PyError (Fate × Session) := do
  let s ← compareTraces config it s
  let (fate, s) ←
    if test.assertIntr ∧ ret = Verdict.success.code then takeInterrupt it outcome test symbols s
    else .ok (none, s)
  match fate with
  | some fate => .ok (fate, s)
  | none => do
    let s ← judge config it test symbols ret s
    let s ← admitTest config it outcome test trns s
    let s ← cleanUp it test s
    let s ← updatePhase it s
    .ok (.judged, s)

/-- An iteration from the simulations on. -/
def simulate (config : Config) (it : ℕ) (outcome : Outcome) (test : Test) (input : RtlInput)
    (s : Session) : Except PyError (ℕ × Fate × Session) :=
  let (ret, s) := runIsaTest it outcome.isa s
  match isaFate ret with
  | some fate => .ok (0, fate, s)
  | none => do
    let (trns, s) ← readIsaLog config it s
    if trns = 0 then do
      let s ← dropTest it test s
      .ok (0, .repeated, s)
    else
      match runRtlTest it outcome.rtl input test s with
      | (none, s) => .ok (trns, .rtlFailed, s)
      | (some ret, s) => do
        let (fate, s) ← finishTest config it outcome test input.symbols trns ret s
        .ok (trns, fate, s)

/-- The body of the loop. -/
def iterate (config : Config) (it : ℕ) (outcome : Outcome) (s : Session) :
    Except PyError (Report × Session) := do
  let (test, s) ← nextTest config it s
  let (input, s) ← preprocess config it outcome test s
  match input with
  | none =>
    .ok (⟨it, test, 0, .compileFailed⟩, { s with stop := .errCompile })
  | some input => do
    let (trns, fate, s) ← simulate config it outcome test input s
    .ok (⟨it, test, trns, fate⟩, s)

/-- The iterations from `it` on. -/
def runFrom (config : Config) : ℕ → List Outcome → Session → Except PyError (List Report × Session)
  | _, [], s => .ok ([], s)
  | it, outcome :: outcomes, s => do
    let (report, s) ← iterate config it outcome s
    let (reports, s) ← runFrom config (it + 1) outcomes s
    .ok (report :: reports, s)

/-- `Run` by itself, for as many iterations as there are outcomes; a file is run once. -/
def run (config : Config) (noGuide : Bool) (draws : Draws) (outcomes : List Outcome) :
    Except PyError (List Report × Session) :=
  runFrom config 1 (if config.inFile.isSome then outcomes.take 1 else outcomes)
    (start noGuide draws)

end ProcessorFuzz.Fuzzing
