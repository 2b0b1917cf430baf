import ProcessorFuzz.Execution.PreprocessorRuns
import ProcessorFuzz.Fuzzing.FuzzFiles
import ProcessorFuzz.Fuzzing.Tools

/-!
# The fuzzing loop goes on

With tools that work no stage of an iteration raises an exception, whatever is drawn and whatever
the devices do: every test can be assembled, every log can be scanned, the signatures can be
compared and the files to remove are there. Only the report of a test may raise one, when the run is
recorded and the test does not pass.
-/

namespace ProcessorFuzz.Fuzzing

open Library Mutation Execution
open Common.SpikeTransitions (transitionsOf)
open Common.Transitions (extractTransitions)
open HtifSignature (leWord)
open Oracle (isaSigFile rtlSigFile hostSymbols signatureOf wordAt)
open RtlHost (Dut Verdict hostRunTest lookups)
open RtlMemory (RtlInput hostMemory)
open SignatureChecker (check)
open SignatureFile (writeLines)
open SpikeEvents (logText StartsWell)
open Mutation.Original (Runnable Sound GotTest)
open Session (optionPath)

variable {config : Config} {it : ℕ} {outcome : Outcome} {test : Test} {s s' : Session} {trns : ℕ}
  {fate : Fate} {tools : Tools}

/-- Apart from the signature file, `run_test` returns what it is known to return. -/
theorem map_hostRunFile (dut : Dut) (input : RtlInput) (assertIntr : Bool) :
    (hostRunFile dut input assertIntr).map Prod.fst = hostRunTest dut input assertIntr := by
  apply map_bind_congr
  intro memory
  apply map_bind_congr
  intro tohostAddr
  apply map_bind_congr
  intro sigStart
  apply map_bind_congr
  intro sigEnd
  apply map_bind_congr
  intro dataAddrs
  apply map_bind_congr
  intro loaded
  apply map_bind_congr
  intro ints
  apply map_bind_congr
  intro last
  split
  · cases last with
    | none => rfl
    | some i =>
      dsimp only
      split
      · rfl
      · split
        · rfl
        · apply map_bind_congr
          intro contents
          rfl
  · rfl

/-- A file is written when the simulation succeeds, from the memory that it ends with. -/
theorem hostRunFile_eq_ok {dut : Dut} {input : RtlInput} {code : ℤ} {covSum : ℕ}
    {contents : Option Text} (h : hostRunFile dut input false = .ok ((code, covSum), contents)) :
    ∃ memory, hostMemory input = .ok memory ∧ (code = Verdict.success.code →
      ∃ sigStart sigEnd dataAddrs saved,
        SignatureFile.symbol input.symbols "begin_signature".toList = .ok sigStart ∧
        SignatureFile.symbol input.symbols "end_signature".toList = .ok sigEnd ∧
        SignatureFile.dataSections input.symbols = .ok dataAddrs ∧
        SignatureFile.saveSignature (lookups (dut memory Dict.empty).final) sigStart sigEnd
          dataAddrs = .ok saved ∧ contents = some saved) := by
  obtain ⟨memory, hmemory, h⟩ := bind_eq_ok.mp h
  obtain ⟨tohostAddr, -, h⟩ := bind_eq_ok.mp h
  obtain ⟨sigStart, hstart, h⟩ := bind_eq_ok.mp h
  obtain ⟨sigEnd, hend, h⟩ := bind_eq_ok.mp h
  obtain ⟨dataAddrs, hdata, h⟩ := bind_eq_ok.mp h
  obtain ⟨loaded, -, h⟩ := bind_eq_ok.mp h
  obtain ⟨ints, hints, h⟩ := bind_eq_ok.mp h
  obtain rfl := Except.ok.inj hints
  obtain ⟨last, -, h⟩ := bind_eq_ok.mp h
  refine ⟨memory, hmemory, fun hsuccess ↦ ?_⟩
  have hother {verdict : Verdict} (hne : verdict.code ≠ Verdict.success.code)
      (h : (.ok ((verdict.code, (dut memory Dict.empty).covSum), none) :
        Except PyError ((ℤ × ℕ) × Option Text)) = .ok ((code, covSum), contents)) : False := by
    obtain ⟨hresult, -⟩ := Prod.mk.inj (Except.ok.inj h)
    exact hne ((Prod.mk.inj hresult).1.trans hsuccess)
  split at h
  · cases last with
    | none => exact nomatch h
    | some i =>
      dsimp only at h
      split at h
      · exact (hother (by decide) h).elim
      · split at h
        · exact (hother (by decide) h).elim
        · obtain ⟨saved, hsaved, h⟩ := bind_eq_ok.mp h
          obtain ⟨-, rfl⟩ := Prod.mk.inj (Except.ok.inj h)
          exact ⟨sigStart, sigEnd, dataAddrs, saved, hstart, hend, hdata, hsaved, rfl⟩
  · exact (hother (by decide) h).elim

/-- What the file of a device shows. -/
theorem Tools.exists_of_hostRunFile {device : Device} {code : ℤ} {covSum : ℕ}
    {contents : Option Text}
    (h : hostRunFile device.dut (tools.input test) false = .ok ((code, covSum), contents)) :
    ∃ memory, hostMemory (tools.input test) = .ok memory ∧
      (code = Verdict.success.code → contents = some (writeLines (tools.program.layout.fileLines
        (wordAt (lookups (device.dut memory Dict.empty).final))))) := by
  obtain ⟨memory, hmemory, hfile⟩ := hostRunFile_eq_ok h
  refine ⟨memory, hmemory, fun hsuccess ↦ ?_⟩
  obtain ⟨sigStart, sigEnd, dataAddrs, saved, hstart, hend, hdata, hsaved, rfl⟩ := hfile hsuccess
  have hdescribes := tools.program.layout_describes
  have hstart' := RtlMemory.symbol_eq_ok.mp hstart
  have hend' := RtlMemory.symbol_eq_ok.mp hend
  obtain rfl := Option.some.inj (hstart'.symm.trans hdescribes.sigStart)
  obtain rfl := Option.some.inj (hend'.symm.trans hdescribes.sigEnd)
  obtain rfl := Except.ok.inj (hdata.symm.trans (SignatureFile.dataSections_eq_ok hdescribes))
  refine congrArg some (Oracle.contents_of_saveSignature tools.program.aligned ?_ hsaved)
  intro addr word hword
  obtain ⟨value, hvalue, rfl⟩ := Option.map_eq_some_iff.mp hword
  have hlt := device.word_lt memory Dict.empty addr value hvalue
  omega

/-- The judgement follows from what the host returns. -/
theorem Tools.judgement_eq {run : SpikeRun} {device : Device}
    (hspike : tools.spike = .completed run) (hrtl : tools.rtl = .completed device) :
    tools.judgement test =
      match hostMemory (tools.input test), hostRunFile device.dut (tools.input test) false with
      | .ok memory, .ok ((code, _), _) =>
        some (judgementOf code (tools.agrees run (device.dut memory Dict.empty).final))
      | _, _ => none := by
  unfold judgement
  rw [hspike, hrtl]
  dsimp only
  rw [← map_hostRunFile]
  cases hostMemory (tools.input test) with
  | error e => rfl
  | ok memory =>
    cases hostRunFile device.dut (tools.input test) false with
    | error e => rfl
    | ok result => rfl

/-- A test that does not compile. -/
theorem exists_preprocess_rejected (hx : Runnable test.simInput) (hdata : test.data.length = 384)
    (hintr : test.assertIntr = false) (hbuild : outcome.build = none) :
    ∃ s', preprocess config it outcome test s = .ok (none, s') := by
  unfold preprocess
  rw [hintr, hbuild]
  dsimp only
  obtain ⟨⟨processed, draws⟩, hprocess⟩ := Preprocessor.exists_process_eq_ok hx hdata
    (fun _ ↦ none) (config.template test.simInput.template) s.draws
  rw [hprocess, ok_bind]
  exact ⟨_, rfl⟩

theorem exists_preprocess_simulated (hx : Runnable test.simInput) (hdata : test.data.length = 384)
    (hintr : test.assertIntr = false) : ∃ intrfile s',
      preprocess config it (Attempt.simulated tools).outcome test s =
        .ok (some { tools.input test with intrfile }, s') := by
  have hprocess (toolchain : Preprocessor.Toolchain) :=
    Preprocessor.exists_process_eq_ok hx hdata toolchain (config.template test.simInput.template)
      s.draws
  unfold preprocess Attempt.outcome
  rw [hintr]
  dsimp only
  obtain ⟨⟨processed, draws⟩, hfirst⟩ := hprocess fun _ ↦ none
  obtain ⟨⟨processed', draws'⟩, hsecond⟩ :=
    hprocess fun _ ↦ some (tools.hexfile, hostSymbols tools.program.symbols)
  obtain ⟨intrfile, hinput⟩ := rtlInput_process hsecond
  rw [hfirst, ok_bind, tools.listing_eq, ok_bind, hsecond, ok_bind, hinput]
  exact ⟨intrfile, _, rfl⟩

/-- The log of Spike is scanned, and the trace file has the header only. -/
theorem exists_readIsaLog_eq_ok (hall : config.allCsr = false) (run : SpikeRun)
    (hlog : s.files.get? (isaTrace it ".log".toList) = some (logText run.events)) :
    ∃ trns s', readIsaLog config it s = .ok (trns, s') ∧
      s'.files = s.files.set (isaTrace it ".csv".toList) (Csv.writeRows [TraceCsv.header]) := by
  have hscan : ∃ cs, Common.Transitions.changes config.allCsr none
      (Text.readlines (logText run.events)) = .ok cs := by
    rw [hall, Common.SpikeTransitions.changes_logText, exists_mapM_eq_ok_iff]
    exact fun t ht ↦ Common.SpikeTransitions.exists_change_iff.mpr (run.legible t ht)
  obtain ⟨cs, hcs⟩ := hscan
  obtain ⟨⟨transitions, trns⟩, hextract⟩ : ∃ r, extractTransitions config.allCsr config.fpCsr
      s.transitions (it, logText run.events) = .ok r :=
    Common.Transitions.exists_extractTransitions config.fpCsr s.transitions hcs
  unfold readIsaLog
  rw [FileSystem.read_eq_ok.mpr hlog, ok_bind, hextract, ok_bind]
  dsimp only
  rw [SpikeEvents.processSpikeSimLog_logText, ok_bind]
  exact ⟨_, _, rfl, rfl⟩

/-- The traces are compared, and no difference is found. -/
theorem compareTraces_eq_ok {log : Text} (hstarts : StartsWell (Text.readlines log))
    (hlog : s.files.get? (rtlTrace it) = some log)
    (hcsv : s.files.get? (isaTrace it ".csv".toList) = some (Csv.writeRows [TraceCsv.header])) :
    compareTraces config it s = .ok s := by
  have hlength : (Text.readlines log).length ≠ 1 := by
    obtain ⟨line, hline, -⟩ := hstarts 9 (by decide)
    have hlt := (List.getElem?_eq_some_iff.mp hline).1
    omega
  obtain ⟨found, hfound⟩ := SpikeEvents.exists_findStart hstarts config.toplevel
  unfold compareTraces
  rw [FileSystem.read_eq_ok.mpr hlog, ok_bind, FileSystem.read_eq_ok.mpr hcsv, ok_bind,
    SpikeEvents.traceCompareFiles_header, hfound, ok_bind, if_neg hlength, ok_bind,
    if_neg (by decide)]

theorem compareSignatures_eq_ok {program : Oracle.Program} {isaWord rtlWord : ℕ → UInt64}
    (hisa : s.files.get? isaSigFile = some (writeLines (program.layout.fileLines isaWord)))
    (hrtl : s.files.get? rtlSigFile = some (writeLines (program.layout.fileLines rtlWord))) :
    compareSignatures (hostSymbols program.symbols) s =
      .ok (check (signatureOf program.layout isaWord) (signatureOf program.layout rtlWord)) := by
  unfold compareSignatures
  rw [FileSystem.read_eq_ok.mpr hisa, ok_bind, FileSystem.read_eq_ok.mpr hrtl, ok_bind,
    Oracle.checkFiles_fileLines program.aligned program.layout_describes]

/-- What the judgement does to the counters. -/
def Session.count (s : Session) : Judgement → Session
  | .passed => s
  | .illegal => { s with iNum := s.iNum + 1 }
  | .bug => { s with mNum := s.mNum + 1 }

/-- A test is only counted, unless it needs a report. -/
theorem judge_eq_ok {symbols : Dict Text ℕ} {code : ℤ} {same : Bool}
    (hpasses : config.record = true → judgementOf code same = .passed)
    (hsame : code = Verdict.success.code → compareSignatures symbols s = .ok same) :
    judge config it test symbols code s = .ok (s.count (judgementOf code same)) := by
  unfold judgementOf at hpasses
  unfold judge judgementOf
  by_cases hillegal : code = Verdict.illMem.code
  · have hsuccess : Verdict.illMem.code ≠ Verdict.success.code := by decide
    have hrecord : config.record = false := by
      rw [if_pos hillegal] at hpasses
      exact eq_false_of_ne_true fun htrue ↦ absurd (hpasses htrue) (by decide)
    subst hillegal
    simp [reportIllegal, hrecord, hsuccess, Session.count]
  · rw [if_neg hillegal] at hpasses
    have hrecord (hnot : ¬(code = Verdict.success.code ∧ same = true)) :
        config.record = false := by
      rw [if_neg hnot] at hpasses
      exact eq_false_of_ne_true fun htrue ↦ absurd (hpasses htrue) (by decide)
    by_cases hsuccess : code = Verdict.success.code
    · have hmatch := hsame hsuccess
      subst hsuccess
      cases same with
      | true => simp [hmatch, hillegal, Session.count]
      | false => simp [hmatch, hillegal, reportBug, hrecord (by simp), Session.count]
    · have hunrecorded := hrecord fun h ↦ hsuccess h.1
      simp [reportBug, hunrecorded, hsuccess, hillegal, Session.count]

theorem exists_admitTest_eq_ok (hx : Runnable test.simInput) (trns : ℕ) (s : Session) :
    ∃ s', admitTest config it outcome test trns s = .ok s' := by
  obtain ⟨contents, hcontents⟩ := Preprocessor.exists_save_eq_ok hx []
  unfold admitTest
  split
  · split
    · unfold recordTest
      rw [hcontents, ok_bind, ok_bind]
      exact ⟨_, rfl⟩
    · exact ⟨_, rfl⟩
  · exact ⟨s, rfl⟩

/-- No file is removed when a test enters the corpus. -/
theorem Admitted.mem_keys (h : Admitted config it outcome test s s') {path : Text}
    (hpath : path ∈ s.files.keys) : path ∈ s'.files.keys := by
  cases hrecord : config.record with
  | false => exact (h.quiet hrecord).1 ▸ hpath
  | true =>
    obtain ⟨contents, -, hfiles, -⟩ := h.recorded hrecord
    rw [hfiles]
    exact Dict.mem_keys_set.mpr (.inr hpath)

/-- The files that are removed are different ones. -/
theorem nodup_usedFiles (it : ℕ) (test : Test) : (usedFiles it test).Nodup := by
  have hname (kind : OwnKind) (rest : Text) (c : Char) (hlast : rest.getLast? = some c) :
      ((ownFile kind it rest)[6]?, (ownFile kind it rest).getLast?) = (some kind.mark, some c) := by
    rw [ownFile, kind.getElem?_text, List.getLast?_append, List.getLast?_append, hlast]
    rfl
  have hfile (extension : String) (c : Char) (hlast : extension.toList.getLast? = some c) :
      ((test.file it extension)[6]?, (test.file it extension).getLast?) = (some '.', some c) := by
    refine hname .test _ c ?_
    rw [List.getLast?_append, hlast]
    rfl
  have hmarks : (usedFiles it test).map (fun path ↦ (path[6]?, path.getLast?)) =
      [(some '.', some 's'), (some '.', some 'x'), (some '.', some 'S'), (some '.', some 'f'),
        (some 'i', some 'g'), (some 'i', some 'v'), (some 'r', some 'g')] := by
    simp only [usedFiles, List.map_cons, List.map_nil]
    rw [hfile ".symbols" 's' rfl, hfile ".hex" 'x' rfl, hfile ".S" 'S' rfl, hfile ".elf" 'f' rfl,
      isaTrace, hname .isa _ 'g' rfl, isaTrace, hname .isa _ 'v' rfl, rtlTrace,
      hname .rtl _ 'g' rfl]
    rfl
  apply List.Nodup.of_map fun path : Text ↦ (path[6]?, path.getLast?)
  rw [hmarks]
  decide

theorem exists_cleanUp_eq_ok (hmem : ∀ path ∈ usedFiles it test, path ∈ s.files.keys) :
    ∃ s', cleanUp it test s = .ok s' := by
  obtain ⟨files, hfiles⟩ := FileSystem.exists_removeAll_eq_ok (nodup_usedFiles it test) hmem
  exact ⟨{ s with files }, by rw [cleanUp, hfiles, ok_bind]⟩

theorem exists_updatePhase_eq_ok (it : ℕ) (s : Session) : ∃ s', updatePhase it s = .ok s' := by
  have hphase : ∃ r, s.mutator.updatePhase it s.draws = .ok r := by
    unfold RvMutator.updatePhase
    split
    · exact ⟨_, rfl⟩
    · exact ⟨_, rfl⟩
  obtain ⟨⟨mutator, draws⟩, hr⟩ := hphase
  exact ⟨{ s with mutator, draws }, by rw [updatePhase, hr, ok_bind]⟩

/-- What an iteration does to the counters: a test is counted when it is judged, and no difference
of traces is found. -/
structure Tallied (judgement : Option Judgement) (fate : Fate) (s s' : Session) : Prop where
  mNum : s'.mNum = s.mNum + if fate = .judged ∧ judgement = some .bug then 1 else 0
  iNum : s'.iNum = s.iNum + if fate = .judged ∧ judgement = some .illegal then 1 else 0
  misCount : s'.misCount = s.misCount

theorem Tallied.of_ne_judged {judgement : Option Judgement} (hfate : fate ≠ .judged)
    (h : s'.mNum = s.mNum ∧ s'.iNum = s.iNum ∧ s'.misCount = s.misCount) :
    Tallied judgement fate s s' := by
  obtain ⟨hm, hi, hmis⟩ := h
  have hnot (j : Judgement) : ¬ (fate = .judged ∧ judgement = some j) := fun h ↦ hfate h.1
  refine ⟨?_, ?_, hmis⟩
  · rw [hm, if_neg (hnot _), Nat.add_zero]
  · rw [hi, if_neg (hnot _), Nat.add_zero]

theorem Tallied.of_count {judgement : Judgement}
    (h : s'.mNum = (s.count judgement).mNum ∧ s'.iNum = (s.count judgement).iNum ∧
      s'.misCount = s.misCount) : Tallied (some judgement) .judged s s' := by
  obtain ⟨hm, hi, hmis⟩ := h
  refine ⟨?_, ?_, hmis⟩
  · rw [hm]
    cases judgement <;> rfl
  · rw [hi]
    cases judgement <;> rfl

/-- The counters do not depend on the other variables. -/
theorem Tallied.congr {judgement : Option Judgement} {s₁ : Session}
    (h : Tallied judgement fate s₁ s')
    (hs : s₁.mNum = s.mNum ∧ s₁.iNum = s.iNum ∧ s₁.misCount = s.misCount) :
    Tallied judgement fate s s' := by
  obtain ⟨hm, hi, hmis⟩ := hs
  exact ⟨by rw [← hm]; exact h.mNum, by rw [← hi]; exact h.iNum, h.misCount.trans hmis⟩

/-- The judgement of a test whose traces agree. -/
theorem exists_finishTest_eq_ok (hx : Runnable test.simInput) (hintr : test.assertIntr = false)
    (hpos : 0 < trns) {symbols : Dict Text ℕ} {code : ℤ} {same : Bool}
    (hpasses : config.record = true → judgementOf code same = .passed)
    (hcompare : compareTraces config it s = .ok s)
    (hsame : code = Verdict.success.code → compareSignatures symbols s = .ok same)
    (hused : ∀ path ∈ usedFiles it test, path ∈ s.files.keys) : ∃ s',
      finishTest config it outcome test symbols trns code s = .ok (.judged, s') ∧
        Tallied (some (judgementOf code same)) .judged s s' := by
  set s₁ := s.count (judgementOf code same) with hs₁
  have hfiles : s₁.files = s.files ∧ s₁.misCount = s.misCount := by
    rw [hs₁]
    cases judgementOf code same <;> exact ⟨rfl, rfl⟩
  obtain ⟨s₂, hadmit⟩ : ∃ s₂, admitTest config it outcome test trns s₁ = .ok s₂ :=
    exists_admitTest_eq_ok hx trns s₁
  have hadmitted := admitted hpos hadmit
  obtain ⟨s₃, hclean⟩ : ∃ s₃, cleanUp it test s₂ = .ok s₃ :=
    exists_cleanUp_eq_ok fun path hpath ↦ hadmitted.mem_keys (hfiles.1 ▸ hused path hpath)
  obtain ⟨s₄, hphase⟩ := exists_updatePhase_eq_ok it s₃
  refine ⟨s₄, ?_, .of_count ?_⟩
  · unfold finishTest
    rw [hcompare, ok_bind, hintr]
    simp only [Bool.false_eq_true, false_and, if_false, ok_bind]
    rw [judge_eq_ok hpasses hsame, ok_bind, hadmit, ok_bind, hclean, ok_bind, hphase, ok_bind]
  · rw [(updatePhase_eq_ok hphase).1, (cleanUp_eq_ok hclean).1, hadmitted.frame]
    exact ⟨rfl, rfl, hfiles.2⟩

/-- What the RTL simulation leaves when the host returns. -/
theorem runRtlTest_of_ok {device : Device} {input : RtlInput} {code : ℤ} {covSum : ℕ}
    {contents : Option Text} (hintr : test.assertIntr = false)
    (h : hostRunFile device.dut input false = .ok ((code, covSum), contents)) :
    runRtlTest it ⟨some device.dut, some device.log⟩ input test s =
      (some code,
        { s.write (rtlTrace it) device.log with coverage := covSum }.writeOption rtlSigFile
          contents) := by
  unfold runRtlTest
  rw [hintr]
  simp only [Option.map_some, h]
  rfl

theorem runRtlTest_of_error {device : Device} {input : RtlInput} {e : PyError}
    (hintr : test.assertIntr = false) (h : hostRunFile device.dut input false = .error e) :
    (runRtlTest it ⟨some device.dut, some device.log⟩ input test s).1 = none := by
  unfold runRtlTest
  rw [hintr]
  simp only [Option.map_some, h]

/-- The files that are there when the log of Spike has been scanned. -/
structure Traced (it : ℕ) (test : Test) (program : Oracle.Program) (run : SpikeRun) (s : Session) :
    Prop where
  signature : s.files.get? isaSigFile =
    some (writeLines (program.layout.fileLines (leWord run.memory)))
  csv : s.files.get? (isaTrace it ".csv".toList) = some (Csv.writeRows [TraceCsv.header])
  log : isaTrace it ".log".toList ∈ s.files.keys
  built : ∀ path ∈ builtFiles it test.simInput.nameSuffix, path ∈ s.files.keys

section Traced

variable {program : Oracle.Program} {run : SpikeRun}

theorem ownFile_ne_of_head? {kind : OwnKind} {rest path : Text} (hhead : path.head? = some '.') :
    ownFile kind it rest ≠ path := by
  rintro rfl
  rw [head?_ownFile] at hhead
  exact absurd hhead (by decide)

/-- The RTL simulation writes other files. -/
theorem Traced.of_writes {contents : Option Text} (h : Traced it test program run s)
    (hwrites : FileSystem.Writes ([rtlTrace it] ++ optionPath rtlSigFile contents) s.files
      s'.files) : Traced it test program run s' := by
  have hget {path : Text} (hpath : path ≠ rtlTrace it ∧ path ≠ rtlSigFile) :
      s'.files.get? path = s.files.get? path := by
    refine hwrites.get? path fun hmem ↦ ?_
    rcases List.mem_append.mp hmem with hmem | hmem
    · exact hpath.1 (List.mem_singleton.mp hmem)
    · exact hpath.2 (head?_of_mem_optionPath hmem)
  have hkept {path : Text} (hpath : path ∈ s.files.keys) : path ∈ s'.files.keys :=
    (hwrites.mem_keys_iff path).mpr (.inl hpath)
  have hsig : isaSigFile ≠ rtlTrace it ∧ isaSigFile ≠ rtlSigFile :=
    ⟨(ownFile_ne_of_head? rfl).symm, by decide⟩
  have hcsv : isaTrace it ".csv".toList ≠ rtlTrace it ∧ isaTrace it ".csv".toList ≠ rtlSigFile := by
    refine ⟨fun heq ↦ ?_, ownFile_ne_of_head? rfl⟩
    cases (ownFile_inj (by decide) (by decide) heq).1
  exact ⟨(hget hsig).trans h.signature, (hget hcsv).trans h.csv, hkept h.log,
    fun path hpath ↦ hkept (h.built path hpath)⟩

/-- With the trace of the device the files to remove are there. -/
theorem Traced.mem_keys (h : Traced it test program run s) (hrtl : rtlTrace it ∈ s.files.keys) :
    ∀ path ∈ usedFiles it test, path ∈ s.files.keys := by
  have htest (extension : String)
      (hextension : extension ∈ [".si", ".S", ".elf", ".hex", ".symbols"]) :
      test.file it extension ∈ s.files.keys :=
    h.built _ (List.mem_map_of_mem hextension)
  have hcsv : isaTrace it ".csv".toList ∈ s.files.keys :=
    Dict.isSome_get?_iff.mp (Option.isSome_of_eq_some h.csv)
  intro path hpath
  simp only [usedFiles, List.mem_cons, List.not_mem_nil, or_false] at hpath
  rcases hpath with rfl | rfl | rfl | rfl | rfl | rfl | rfl
  · exact htest _ (by decide)
  · exact htest _ (by decide)
  · exact htest _ (by decide)
  · exact htest _ (by decide)
  · exact h.log
  · exact hcsv
  · exact hrtl

/-- The end of an iteration whose RTL host returns. -/
theorem Traced.exists_finishTest (h : Traced it test tools.program run s)
    (hx : Runnable test.simInput) (hintr : test.assertIntr = false) (hpos : 0 < trns)
    {final : Dict ℕ ℤ} {code : ℤ} {contents : Option Text}
    (hpasses : config.record = true → judgementOf code (tools.agrees run final) = .passed)
    (hcontents : code = Verdict.success.code → contents =
      some (writeLines (tools.program.layout.fileLines (wordAt (lookups final)))))
    (outcome : Outcome) (device : Device) (covSum : ℕ) : ∃ s',
      finishTest config it outcome test (hostSymbols tools.program.symbols) trns code
          ({ s.write (rtlTrace it) device.log with coverage := covSum }.writeOption rtlSigFile
            contents) = .ok (.judged, s') ∧
        Tallied (some (judgementOf code (tools.agrees run final))) .judged s s' := by
  set s₁ : Session := { s.write (rtlTrace it) device.log with coverage := covSum }
  have hwrites : FileSystem.Writes ([rtlTrace it] ++ optionPath rtlSigFile contents) s.files
      (s₁.writeOption rtlSigFile contents).files :=
    (s.writes_write (rtlTrace it) device.log).trans (s₁.writes_writeOption rtlSigFile contents)
  have htraced := h.of_writes hwrites
  have hlog : (s₁.writeOption rtlSigFile contents).files.get? (rtlTrace it) =
      some device.log := by
    have hset : s₁.files.get? (rtlTrace it) = some device.log := Dict.get?_set_self _ _ _
    cases contents with
    | none => exact hset
    | some contents => exact (Dict.get?_set_of_ne _ _ (ownFile_ne_of_head? rfl)).trans hset
  have hsame (hsuccess : code = Verdict.success.code) :
      compareSignatures (hostSymbols tools.program.symbols) (s₁.writeOption rtlSigFile contents) =
        .ok (tools.agrees run final) := by
    refine compareSignatures_eq_ok htraced.signature ?_
    rw [hcontents hsuccess]
    exact Dict.get?_set_self _ _ _
  have hused : ∀ path ∈ usedFiles it test,
      path ∈ (s₁.writeOption rtlSigFile contents).files.keys :=
    htraced.mem_keys (Dict.isSome_get?_iff.mp (Option.isSome_of_eq_some hlog))
  obtain ⟨s', hfinish, htallied⟩ : ∃ s', finishTest config it outcome test
      (hostSymbols tools.program.symbols) trns code (s₁.writeOption rtlSigFile contents) =
        .ok (.judged, s') ∧ Tallied (some (judgementOf code (tools.agrees run final))) .judged
          (s₁.writeOption rtlSigFile contents) s' :=
    exists_finishTest_eq_ok hx hintr hpos hpasses
      (compareTraces_eq_ok device.startsWell hlog htraced.csv) hsame hused
  refine ⟨s', hfinish, htallied.congr ?_⟩
  cases contents <;> exact ⟨rfl, rfl, rfl⟩

/-- A test is judged when the host returns, and not when it fails. -/
theorem Traced.exists_runRtlTest (h : Traced it test tools.program run s)
    (hspike : tools.spike = .completed run) (hx : Runnable test.simInput)
    (hintr : test.assertIntr = false) (hpos : 0 < trns)
    (hpasses : config.record = true → ∀ j, tools.judgement test = some j → j = .passed)
    (outcome : Outcome) (intrfile : Text) :
    (tools.judgement test = none ∧
      (runRtlTest it tools.rtlRun { tools.input test with intrfile } test s).1 = none) ∨
    ∃ judgement code s₁ s', tools.judgement test = some judgement ∧
      runRtlTest it tools.rtlRun { tools.input test with intrfile } test s = (some code, s₁) ∧
      finishTest config it outcome test (hostSymbols tools.program.symbols) trns code s₁ =
        .ok (.judged, s') ∧ Tallied (some judgement) .judged s s' := by
  cases hrtl : tools.rtl with
  | failed log =>
    refine .inl ⟨?_, ?_⟩
    · rw [Tools.judgement, hspike, hrtl]
    · rw [Tools.rtlRun, hrtl]
      rfl
  | completed device =>
    have hrun : tools.rtlRun = ⟨some device.dut, some device.log⟩ := by
      rw [Tools.rtlRun, hrtl]
    rw [Tools.judgement_eq hspike hrtl] at hpasses
    rw [Tools.judgement_eq hspike hrtl, hrun]
    -- the file of interrupts is not read
    have hinput : hostRunFile device.dut { tools.input test with intrfile } false =
        hostRunFile device.dut (tools.input test) false := rfl
    cases hhost : hostRunFile device.dut (tools.input test) false with
    | error e =>
      refine .inl ⟨?_, runRtlTest_of_error hintr (hinput.trans hhost)⟩
      cases hostMemory (tools.input test) <;> rfl
    | ok result =>
      obtain ⟨⟨code, covSum⟩, contents⟩ := result
      obtain ⟨memory, hmemory, hcontents⟩ := Tools.exists_of_hostRunFile hhost
      rw [hmemory, hhost] at hpasses
      obtain ⟨s', hfinish, htallied⟩ := h.exists_finishTest hx hintr hpos
        (fun hrecord ↦ hpasses hrecord _ rfl) hcontents outcome device covSum
      rw [hmemory]
      exact .inr ⟨_, code, _, s', rfl, runRtlTest_of_ok hintr (hinput.trans hhost), hfinish,
        htallied⟩

end Traced

theorem Tools.exists_completed (hend : isaEnd tools.isaRun = none) : ∃ run,
    tools.spike = .completed run ∧
      tools.isaRun = ⟨false, 0, logText run.events, run.signature tools.program⟩ := by
  unfold Tools.isaRun at hend ⊢
  cases hspike : tools.spike with
  | failed run hfailed =>
    rw [hspike] at hend
    exact absurd hend hfailed
  | completed run => exact ⟨run, rfl, rfl⟩

/-- When Spike has come to its end, its log is scanned. -/
theorem exists_readIsaLog_traced (hall : config.allCsr = false) {run : SpikeRun} {ret : ProcState}
    (hrun : tools.isaRun = ⟨false, 0, logText run.events, run.signature tools.program⟩)
    (htested : IsaTested it tools.isaRun s ret s')
    (hbuilt : ∀ path ∈ builtFiles it test.simInput.nameSuffix, path ∈ s.files.keys) :
    ∃ trns s'', readIsaLog config it s' = .ok (trns, s'') ∧
      Traced it test tools.program run s'' ∧
      s''.mNum = s.mNum ∧ s''.iNum = s.iNum ∧ s''.misCount = s.misCount := by
  have hlog : s'.files.get? (isaTrace it ".log".toList) = some (logText run.events) := by
    rw [htested.log, hrun]
  have hsig : s'.files.get? isaSigFile =
      some (writeLines (tools.program.layout.fileLines (leWord run.memory))) := by
    apply htested.signature
    rw [hrun]
    exact run.signature_eq tools.program
  obtain ⟨trns, s'', hread, hfiles⟩ := exists_readIsaLog_eq_ok hall run hlog
  have hkeys {path : Text} (hpath : path ∈ s'.files.keys) : path ∈ s''.files.keys := by
    rw [hfiles]
    exact Dict.mem_keys_set.mpr (.inr hpath)
  refine ⟨trns, s'', hread, ⟨?_, ?_, ?_, fun path hpath ↦ ?_⟩, ?_⟩
  · have hne : isaSigFile ≠ isaTrace it ".csv".toList := (ownFile_ne_of_head? rfl).symm
    rw [hfiles, Dict.get?_set_of_ne _ _ hne, hsig]
  · rw [hfiles, Dict.get?_set_self]
  · exact hkeys (Dict.isSome_get?_iff.mp (Option.isSome_of_eq_some hlog))
  · exact hkeys ((htested.writes.mem_keys_iff path).mpr (.inl (hbuilt path hpath)))
  · rw [(isaLogRead hlog hread).frame, htested.frame]
    exact ⟨rfl, rfl, rfl⟩

/-- Simulations with tools that work. -/
theorem exists_simulate_eq_ok (hall : config.allCsr = false) (hx : Runnable test.simInput)
    (hintr : test.assertIntr = false) (hstop : s.stop ≠ .errIsaTimeout)
    (hbuilt : ∀ path ∈ builtFiles it test.simInput.nameSuffix, path ∈ s.files.keys)
    (tools : Tools)
    (hpasses : config.record = true → ∀ j, tools.judgement test = some j → j = .passed)
    (intrfile : Text) : ∃ trns s',
      simulate config it (Attempt.simulated tools).outcome test
          { tools.input test with intrfile } s =
        .ok (trns, (Attempt.simulated tools).fate test trns, s') ∧
      Tallied (tools.judgement test) ((Attempt.simulated tools).fate test trns) s s' := by
  have htested : IsaTested it tools.isaRun s _ _ := isaTested hstop
  have hisa : (Attempt.simulated tools).outcome.isa = tools.isaRun := rfl
  have hrtl : (Attempt.simulated tools).outcome.rtl = tools.rtlRun := rfl
  unfold simulate Attempt.fate
  rw [hisa, hrtl]
  generalize runIsaTest it tools.isaRun s = r at htested
  obtain ⟨ret, s₁⟩ := r
  dsimp only at htested ⊢
  rw [htested.fate]
  cases hend : isaEnd tools.isaRun with
  | some fate =>
    have hne : fate ≠ .judged := fun heq ↦ isaEnd_ne_judged _ (heq ▸ hend)
    refine ⟨0, s₁, rfl, .of_ne_judged hne ?_⟩
    rw [htested.frame]
    exact ⟨rfl, rfl, rfl⟩
  | none =>
    obtain ⟨run, hspike, hrun⟩ := Tools.exists_completed hend
    obtain ⟨trns, s₂, hread, htraced, hkept⟩ := exists_readIsaLog_traced hall hrun htested hbuilt
    dsimp only
    rw [hread, ok_bind]
    dsimp only
    by_cases hzero : trns = 0
    · obtain ⟨s₃, hdrop⟩ := exists_dropTest_eq_ok it test s₂
      have hne : Fate.repeated ≠ .judged := by decide
      refine ⟨0, s₃, ?_, .of_ne_judged hne ?_⟩
      · rw [if_pos hzero, hdrop, ok_bind]
        rfl
      · rw [(dropTest_eq_ok hdrop).1]
        exact hkept
    rw [if_neg hzero]
    rcases htraced.exists_runRtlTest hspike hx hintr (Nat.pos_of_ne_zero hzero) hpasses
      (Attempt.simulated tools).outcome intrfile with
      ⟨hjudgement, hnone⟩ | ⟨judgement, code, s₃, s', hjudgement, hcode, hfinish, htallied⟩
    · have hrtlTested : RtlTested it tools.rtlRun s₂
          (runRtlTest it tools.rtlRun { tools.input test with intrfile } test s₂).1
          (runRtlTest it tools.rtlRun { tools.input test with intrfile } test s₂).2 := rtlTested
      generalize runRtlTest it tools.rtlRun { tools.input test with intrfile } test s₂ = r
        at hnone hrtlTested
      obtain ⟨ret', s₃⟩ := r
      dsimp only at hnone hrtlTested
      subst hnone
      refine ⟨trns, s₃, ?_, ?_⟩
      · rw [if_neg hzero, hjudgement]
        rfl
      · rw [if_neg hzero, hjudgement]
        have hne : Fate.rtlFailed ≠ .judged := by decide
        refine .of_ne_judged hne ?_
        rw [hrtlTested.frame]
        exact hkept
    · refine ⟨trns, s', ?_, ?_⟩
      · rw [hcode, if_neg hzero, hjudgement]
        exact congrArg (· >>= fun r ↦ .ok (trns, r)) hfinish
      · rw [if_neg hzero, hjudgement]
        exact htallied.congr hkept

/-- The session between two iterations. -/
structure Live (s : Session) : Prop where
  mutator : Sound s.mutator
  corpus_ne_nil : s.mutator.phase ≠ .generation → s.mutator.corpus ≠ []
  corpusSize_pos : 0 < s.mutator.corpusSize
  stop_ne : s.stop ≠ .errIsaTimeout

theorem Live.start (noGuide : Bool) (draws : Draws) : Live (start noGuide draws) where
  mutator := Original.sound_init (by decide) 1000 noGuide
  corpus_ne_nil h := absurd rfl h
  corpusSize_pos := Nat.succ_pos 999
  stop_ne := (by decide : ProcState.normal ≠ .errIsaTimeout)

theorem addCorpus_ne_nil {m : RvMutator} (hsize : 0 < m.corpusSize) (x : SimInput) :
    (m.addCorpus x).corpus ≠ [] := by
  intro hnil
  have hlength := congrArg List.length hnil
  change (if m.corpusSize < (m.corpus ++ [x]).length then (m.corpus ++ [x]).tail
    else m.corpus ++ [x]).length = 0 at hlength
  split at hlength
  · rw [List.length_tail] at hlength
    omega
  · rw [List.length_append, List.length_singleton] at hlength
    omega

section Live

variable {s₁ : Session}

theorem Live.gotTest (hs : Live s) (hgenerated : config.inFile = none)
    (hnext : nextTest config it s = .ok (test, s₁)) :
    GotTest s.mutator s₁.mutator test.simInput test.data :=
  hs.mutator.getWith (nextTest_generated hgenerated hnext).2

theorem Live.exists_nextTest (hs : Live s) (hgenerated : config.inFile = none) (it : ℕ) :
    ∃ test s₁, nextTest config it s = .ok (test, s₁) := by
  obtain ⟨x, data, m', draws', hget, -⟩ := hs.mutator.exists_getWith hs.corpus_ne_nil it s.draws
  refine ⟨⟨x, data, false⟩, { s with mutator := m', draws := draws' }, ?_⟩
  unfold nextTest
  rw [hgenerated]
  dsimp only
  rw [hget, ok_bind]

/-- A test of the corpus is there whenever one is needed. -/
theorem Live.step (hs : Live s) (hgenerated : config.inFile = none)
    (hnext : nextTest config it s = .ok (test, s₁))
    (hiterated : Iterated config it outcome test s₁ trns fate s') : Live s' := by
  have hgot := hs.gotTest hgenerated hnext
  have hmutator := nextTest_mutator hnext
  have hsize : 0 < s₁.mutator.corpusSize := by
    rw [hmutator]
    exact hs.corpusSize_pos
  have hstop : s'.stop ≠ .errIsaTimeout := by
    rw [hiterated.stop, nextTest_frame hnext]
    exact stopAfter_ne hs.stop_ne _
  cases hiterated.corpusStep with
  | kept hfate hkept hnum hlog =>
    refine ⟨hkept ▸ hgot.sound, ?_, hkept ▸ hsize, hstop⟩
    rw [hkept, hmutator]
    exact hs.corpus_ne_nil
  | admitted hpos hphase hnum =>
    have hframe := RvMutator.updatePhase_frame hphase
    have hsound := (hgot.sound.addCorpus hgot.runnable hgot.dataSeed_mem).updatePhase hphase
    refine ⟨hsound, fun _ ↦ ?_, ?_, hstop⟩
    · rw [hframe]
      exact addCorpus_ne_nil hsize _
    · rw [hframe]
      exact hsize

/-- An iteration with tools that work. -/
theorem Live.exists_iterate_eq_ok (hs : Live s) (hgenerated : config.inFile = none)
    (hall : config.allCsr = false) (it : ℕ) (attempt : Attempt)
    (hpasses : config.record = true → attempt.Passes) :
    ∃ report s', iterate config it attempt.outcome s = .ok (report, s') ∧
      report.fate = attempt.fate report.test report.trns ∧
      Tallied (attempt.judgement report.test) report.fate s s' := by
  obtain ⟨test, s₁, hnext⟩ := hs.exists_nextTest hgenerated it
  have hgot := hs.gotTest hgenerated hnext
  have hframe := nextTest_frame hnext
  obtain ⟨hintr, hget⟩ := nextTest_generated hgenerated hnext
  unfold iterate
  rw [hnext, ok_bind]
  dsimp only
  cases attempt with
  | rejected outcome hbuild =>
    obtain ⟨s₂, hpreprocess⟩ : ∃ s₂, preprocess config it outcome test s₁ = .ok (none, s₂) :=
      exists_preprocess_rejected hgot.runnable hgot.length_data hintr hbuild
    have houtcome : (Attempt.rejected outcome hbuild).outcome = outcome := rfl
    have hne : Fate.compileFailed ≠ .judged := by decide
    rw [houtcome, hpreprocess, ok_bind]
    refine ⟨_, _, rfl, rfl, .of_ne_judged hne ?_⟩
    rw [(preprocessed hpreprocess).frame, hframe]
    exact ⟨rfl, rfl, rfl⟩
  | simulated tools =>
    obtain ⟨intrfile, s₂, hpreprocess⟩ : ∃ intrfile s₂,
        preprocess config it (Attempt.simulated tools).outcome test s₁ =
          .ok (some { tools.input test with intrfile }, s₂) :=
      exists_preprocess_simulated hgot.runnable hgot.length_data hintr
    have hbuild := preprocessed hpreprocess
    have hbuilt : ∀ path ∈ builtFiles it test.simInput.nameSuffix, path ∈ s₂.files.keys := by
      have hwritten := hbuild.writes.mem_keys
      rwa [preprocessFiles_built rfl hintr] at hwritten
    have hstop : s₂.stop ≠ .errIsaTimeout := by
      rw [hbuild.frame, hframe]
      exact hs.stop_ne
    obtain ⟨trns, s₃, hsimulate, htallied⟩ :=
      exists_simulate_eq_ok hall hgot.runnable hintr hstop hbuilt tools
        (fun hrecord ↦ hpasses hrecord test hgot.length_data) intrfile
    rw [hpreprocess, ok_bind]
    dsimp only
    rw [hsimulate, ok_bind]
    refine ⟨_, _, rfl, rfl, htallied.congr ?_⟩
    rw [hbuild.frame, hframe]
    exact ⟨rfl, rfl, rfl⟩

end Live

/-- The iterations whose test is judged like this. -/
def judgedAs (judgement : Judgement) (done : List (Attempt × Report)) : ℕ :=
  done.countP fun e ↦ e.2.fate = .judged ∧ e.1.judgement e.2.test = some judgement

theorem judgedAs_cons (judgement : Judgement) (attempt : Attempt) (report : Report)
    (done : List (Attempt × Report)) :
    judgedAs judgement ((attempt, report) :: done) = judgedAs judgement done +
      if report.fate = .judged ∧ attempt.judgement report.test = some judgement then 1 else 0 := by
  rw [judgedAs, List.countP_cons]
  simp only [decide_eq_true_eq]
  rfl

/-- With tools that work a run goes through all iterations. Each ends as its tools say, and the
counters tell how the tests were judged. -/
theorem Live.exists_runFrom_eq_ok (hs : Live s) (hgenerated : config.inFile = none)
    (hall : config.allCsr = false) (it : ℕ) (attempts : List Attempt)
    (hpasses : config.record = true → ∀ attempt ∈ attempts, attempt.Passes) : ∃ reports s',
      runFrom config it (attempts.map Attempt.outcome) s = .ok (reports, s') ∧
      reports.length = attempts.length ∧
      (∀ e ∈ attempts.zip reports, e.2.fate = e.1.fate e.2.test e.2.trns) ∧
      s'.mNum = s.mNum + judgedAs .bug (attempts.zip reports) ∧
      s'.iNum = s.iNum + judgedAs .illegal (attempts.zip reports) ∧
      s'.misCount = s.misCount := by
  induction attempts generalizing it s with
  | nil => exact ⟨[], s, rfl, rfl, fun e he ↦ absurd he List.not_mem_nil, rfl, rfl, rfl⟩
  | cons attempt attempts ih =>
    obtain ⟨report, s₁, hiterate, hfate, htallied⟩ :=
      hs.exists_iterate_eq_ok hgenerated hall it attempt fun hrecord ↦
        hpasses hrecord attempt List.mem_cons_self
    have hs₁ : Live s₁ := by
      obtain ⟨test, s₂, hnext, -, -, hiterated⟩ := iterated hs.stop_ne hiterate
      exact hs.step hgenerated hnext hiterated
    obtain ⟨reports, s', hrun, hlength, hfates, hm, hi, hmis⟩ := ih hs₁ (it + 1) fun hrecord a ha ↦
      hpasses hrecord a (List.mem_cons_of_mem attempt ha)
    refine ⟨report :: reports, s', ?_, congrArg (· + 1) hlength, ?_, ?_, ?_,
      hmis.trans htallied.misCount⟩
    · rw [List.map_cons, runFrom, hiterate, ok_bind]
      dsimp only
      rw [hrun, ok_bind]
    · rw [List.zip_cons_cons]
      exact List.forall_mem_cons.mpr ⟨hfate, hfates⟩
    · rw [List.zip_cons_cons, judgedAs_cons, hm, htallied.mNum]
      omega
    · rw [List.zip_cons_cons, judgedAs_cons, hi, htallied.iNum]
      omega

theorem exists_run_eq_ok (hgenerated : config.inFile = none) (hall : config.allCsr = false)
    (noGuide : Bool) (draws : Draws) (attempts : List Attempt)
    (hpasses : config.record = true → ∀ attempt ∈ attempts, attempt.Passes) :
    ∃ reports s, run config noGuide draws (attempts.map Attempt.outcome) = .ok (reports, s) ∧
      reports.length = attempts.length ∧
      (∀ e ∈ attempts.zip reports, e.2.fate = e.1.fate e.2.test e.2.trns) ∧
      s.mNum = judgedAs .bug (attempts.zip reports) ∧
      s.iNum = judgedAs .illegal (attempts.zip reports) ∧ s.misCount = 0 := by
  obtain ⟨reports, s, hrun, hlength, hfates, hm, hi, hmis⟩ :=
    (Live.start noGuide draws).exists_runFrom_eq_ok hgenerated hall 1 attempts hpasses
  refine ⟨reports, s, ?_, hlength, hfates, hm.trans (Nat.zero_add _), hi.trans (Nat.zero_add _),
    hmis⟩
  rw [run, hgenerated]
  exact hrun

section Reports

variable {noGuide : Bool} {draws : Draws} {outcomes : List Outcome} {reports : List Report}

/-- There are no more reports than iterations. -/
theorem length_reports_le (h : run config noGuide draws outcomes = .ok (reports, s)) :
    reports.length ≤ outcomes.length := by
  have hcount : 1 + reports.length = 1 + (outcomes.zip reports).length := by
    refine run_induction (I := fun it done _ ↦ it = 1 + done.length) rfl ?_ h
    intro it done s outcome test s₁ trns fate s' hit _ _
    rw [List.length_append, List.length_singleton, hit, Nat.add_assoc]
  rw [List.length_zip] at hcount
  omega

theorem map_snd_zip_reports (h : run config noGuide draws outcomes = .ok (reports, s)) :
    (outcomes.zip reports).map Prod.snd = reports :=
  List.map_snd_zip (length_reports_le h)

/-- The iterations are numbered from one on. -/
theorem map_it_run (h : run config noGuide draws outcomes = .ok (reports, s)) :
    reports.map Report.it = List.range' 1 reports.length := by
  have hnumbered : 1 + reports.length = 1 + (outcomes.zip reports).length ∧
      (outcomes.zip reports).map (·.2.it) = List.range' 1 (outcomes.zip reports).length := by
    refine run_induction (I := fun it done _ ↦ it = 1 + done.length ∧
      done.map (·.2.it) = List.range' 1 done.length) ⟨rfl, rfl⟩ ?_ h
    rintro it done s outcome test s₁ trns fate s' ⟨hit, hdone⟩ _ _
    rw [List.length_append, List.length_singleton, List.map_append, hdone, List.range'_concat]
    exact ⟨by omega, by rw [Nat.one_mul, ← hit]; rfl⟩
  have hmap := congrArg (List.map Report.it) (map_snd_zip_reports h)
  rw [List.map_map] at hmap
  rw [← hmap]
  have hlength : reports.length = (outcomes.zip reports).length := by omega
  rw [hlength]
  exact hnumbered.2

/-- What is known of a generated test. -/
structure Generated (test : Test) : Prop where
  runnable : Runnable test.simInput
  suffixed : Suffixed test.simInput
  length_data : test.data.length = 384

theorem live_run (hgenerated : config.inFile = none)
    (h : run config noGuide draws outcomes = .ok (reports, s)) :
    Live s ∧ ∀ report ∈ reports, Generated report.test := by
  have hboth : Live s ∧ ∀ e ∈ outcomes.zip reports, Generated e.2.test := by
    refine run_induction (I := fun _ done s ↦ Live s ∧ ∀ e ∈ done, Generated e.2.test)
      ⟨.start noGuide draws, fun e he ↦ absurd he List.not_mem_nil⟩ ?_ h
    rintro it done s outcome test s₁ trns fate s' ⟨hs, hdone⟩ hnext hiterated
    have hgot := hs.gotTest hgenerated hnext
    refine ⟨hs.step hgenerated hnext hiterated, fun e he ↦ ?_⟩
    rcases List.mem_append.mp he with he | he
    · exact hdone e he
    · rw [List.mem_singleton.mp he]
      exact ⟨hgot.runnable, suffixed_getWith (nextTest_generated hgenerated hnext).2,
        hgot.length_data⟩
  refine ⟨hboth.1, fun report hreport ↦ ?_⟩
  rw [← map_snd_zip_reports h] at hreport
  obtain ⟨e, he, rfl⟩ := List.mem_map.mp hreport
  exact hboth.2 e he

end Reports

end ProcessorFuzz.Fuzzing
