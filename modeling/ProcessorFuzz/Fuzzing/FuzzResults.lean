import ProcessorFuzz.Fuzzing.LinkedTools

/-!
# What a run of the fuzzer leaves

The results on whole runs: the corpus and its files, the transitions that are known, the files of
the iterations, and that a run with working tools goes through all iterations and counts the tests
that its oracle rejects.
-/

namespace ProcessorFuzz.Fuzzing

open Library Mutation Execution
open Mutation.Original (Runnable)

variable {config : Config} {noGuide : Bool} {draws : Draws} {outcomes : List Outcome}
  {reports : List Report} {s : Session}

/-- A configuration of the loop that generates its tests. -/
def generatingConfig (record : Bool) : Config where
  toplevel := .rocketTile
  template _ := ["_fuzz_main:\n".toList]
  inFile := none
  record
  allCsr := false
  fpCsr := false
  startIter := 0
  startCov := 0

/-- A recorded run with a test that is judged, one that is dropped, one that fails and another one
that is judged. -/
theorem exists_run_recorded : ∃ reports s, run (generatingConfig true) false (fun _ ↦ 0)
    ((linkedAttempts 0).map Attempt.outcome) = .ok (reports, s) ∧
      reports.map Report.fate = [.judged, .repeated, .isaTimeout, .judged] := by
  obtain ⟨reports, s, hrun, hlength, hfates, -⟩ := @exists_run_eq_ok (generatingConfig true) rfl rfl
    false (fun _ ↦ 0) (linkedAttempts 0) fun _ ↦ passes_linkedAttempts
  exact ⟨reports, s, hrun, fates_linkedAttempts rfl rfl rfl hrun hlength hfates⟩

/-- Two tests are not too many for the corpus. -/
theorem rtake_pair {α : Type} (a b : α) : [a, b].rtake 1000 = [a, b] := by
  rw [List.rtake, List.length_cons, List.length_singleton]
  rfl

/-- Of such reports the first one and the last one are those of accepted tests. -/
theorem accepted_of_map_fate {reports : List Report}
    (h : reports.map Report.fate = [.judged, .repeated, .isaTimeout, .judged]) :
    ∃ r₁ r₂ r₃ r₄, reports = [r₁, r₂, r₃, r₄] ∧ r₁.fate = .judged ∧ r₂.fate = .repeated ∧
      r₃.fate = .isaTimeout ∧ r₄.fate = .judged ∧
      accepted reports = [r₁.test.simInput, r₄.test.simInput] := by
  have hlength := congrArg List.length h
  rw [List.length_map] at hlength
  obtain ⟨r₁, r₂, r₃, r₄, rfl⟩ := List.length_eq_four.mp hlength
  simp only [List.map_cons, List.map_nil, List.cons.injEq, and_true] at h
  obtain ⟨h₁, h₂, h₃, h₄⟩ := h
  refine ⟨r₁, r₂, r₃, r₄, rfl, h₁, h₂, h₃, h₄, ?_⟩
  simp [accepted, h₁, h₂, h₃, h₄]

/-- The corpus is the last thousand tests that were judged, each of which has made the generated
tests longer by a word, up to 200. When the run is recorded, there is a file for each accepted test
under its number, and no other file of the corpus. -/
theorem corpus_of_run (h : run config noGuide draws outcomes = .ok (reports, s)) :
    s.cNum = (accepted reports).length ∧ s.mutator.corpus = (accepted reports).rtake 1000 ∧
    s.mutator.numWords = min (100 + (accepted reports).length) 200 ∧
    ∀ num, s.files.get? (corpusFile num) =
      if config.record then (accepted reports)[num]?.bind fun x ↦ (x.save []).toOption
      else none := by
  have hcorpus := corpusOf_run h
  have hfiles := corpusFiles_run h
  rw [map_snd_zip_reports h] at hcorpus hfiles
  exact ⟨hcorpus.cNum_eq, hcorpus.corpus_eq, hcorpus.numWords_eq, hfiles⟩

theorem corpus_of_run_recorded : ∃ reports s, run (generatingConfig true) false (fun _ ↦ 0)
    ((linkedAttempts 0).map Attempt.outcome) = .ok (reports, s) ∧
      reports.map Report.fate = [.judged, .repeated, .isaTimeout, .judged] ∧
      s.cNum = 2 ∧ s.mutator.corpus = accepted reports ∧ s.mutator.numWords = 102 ∧
      (∃ contents, s.files.get? (corpusFile 1) = some contents) ∧
      s.files.get? (corpusFile 2) = none := by
  obtain ⟨reports, s, hrun, hfates⟩ := exists_run_recorded
  obtain ⟨hnum, hcorpus, hwords, hfiles⟩ := corpus_of_run hrun
  obtain ⟨r₁, r₂, r₃, r₄, rfl, -, -, -, -, haccepted⟩ := accepted_of_map_fate hfates
  have hrunnable := ((live_run rfl hrun).2 r₄ (by simp)).runnable
  obtain ⟨contents, hcontents⟩ := Preprocessor.exists_save_eq_ok hrunnable []
  rw [haccepted] at hnum hcorpus hwords hfiles
  rw [rtake_pair] at hcorpus
  refine ⟨_, s, hrun, hfates, hnum, hcorpus.trans haccepted.symm, hwords, ⟨contents, ?_⟩, ?_⟩
  · rw [hfiles]
    change (r₄.test.simInput.save []).toOption = some contents
    rw [hcontents]
    rfl
  · rw [hfiles]
    rfl

/-- A run of generated tests never lacks a test of the corpus when it mutates. All of its tests can
be printed and assembled, with six sections of data, and all tests of the corpus are such tests. -/
theorem tests_of_run (hgenerated : config.inFile = none)
    (h : run config noGuide draws outcomes = .ok (reports, s)) :
    (s.mutator.phase ≠ .generation → s.mutator.corpus ≠ []) ∧
    (∀ x ∈ s.mutator.corpus, Runnable x) ∧
    ∀ report ∈ reports, Runnable report.test.simInput ∧ report.test.data.length = 384 := by
  obtain ⟨hlive, hreports⟩ := live_run hgenerated h
  exact ⟨hlive.corpus_ne_nil, hlive.mutator.runnable, fun report hreport ↦
    ⟨(hreports report hreport).runnable, (hreports report hreport).length_data⟩⟩

theorem tests_of_run_recorded : ∃ reports s, run (generatingConfig true) false (fun _ ↦ 0)
    ((linkedAttempts 0).map Attempt.outcome) = .ok (reports, s) ∧ s.mutator.corpus.length = 2 ∧
      (∀ x ∈ s.mutator.corpus, Runnable x) ∧
      ∀ report ∈ reports, Runnable report.test.simInput ∧ report.test.data.length = 384 := by
  obtain ⟨reports, s, hrun, hfates⟩ := exists_run_recorded
  have hcorpus := (corpusOf_run hrun).corpus_eq
  rw [map_snd_zip_reports hrun] at hcorpus
  obtain ⟨r₁, r₂, r₃, r₄, rfl, -, -, -, -, haccepted⟩ := accepted_of_map_fate hfates
  refine ⟨_, s, hrun, ?_, (tests_of_run rfl hrun).2⟩
  rw [hcorpus, haccepted, rtake_pair]
  rfl

/-- The global lists hold the transitions of the logs that were scanned, each once, and the reports
tell how many each log has added. The test of a log that was scanned is dropped exactly when all of
its transitions were shown by logs before it. -/
theorem transitions_of_run (h : run config noGuide draws outcomes = .ok (reports, s)) :
    Transits config (outcomes.zip reports) s :=
  transits_run h

theorem transitions_of_run_recorded : ∃ reports s, run (generatingConfig true) false (fun _ ↦ 0)
    ((linkedAttempts 0).map Attempt.outcome) = .ok (reports, s) ∧
      reports.map Report.fate = [.judged, .repeated, .isaTimeout, .judged] ∧
      Transits (generatingConfig true)
        (((linkedAttempts 0).map Attempt.outcome).zip reports) s := by
  obtain ⟨reports, s, hrun, hfates⟩ := exists_run_recorded
  exact ⟨reports, s, hrun, hfates, transitions_of_run hrun⟩

/-- Of the files of the iterations those are there that their iterations have left, according to how
each has ended: only the test itself when it was judged, nothing when it was dropped, and everything
that was written when a simulation failed. -/
theorem files_of_run (hgenerated : config.inFile = none)
    (h : run config noGuide draws outcomes = .ok (reports, s)) (path : Text) (it : ℕ)
    (hpath : OwnedBy it path) : path ∈ s.files.keys ↔
      ∃ e ∈ outcomes.zip reports, e.2.it = it ∧ path ∈ leftover e.1 e.2 := by
  have hfiles : FilesOf (1 + reports.length) (outcomes.zip reports) s :=
    run_induction (I := FilesOf) (.start noGuide draws)
      (fun hs hnext hiterated ↦ hs.step hgenerated hnext hiterated) h
  exact hfiles.own path it hpath

/-- The first test is left, the second one and its trace are not, and the trace of the third one
is. -/
theorem files_of_run_recorded : ∃ reports s, run (generatingConfig true) false (fun _ ↦ 0)
    ((linkedAttempts 0).map Attempt.outcome) = .ok (reports, s) ∧
      reports.map Report.fate = [.judged, .repeated, .isaTimeout, .judged] ∧
      (∃ report ∈ reports, report.it = 1 ∧ report.test.file 1 ".si" ∈ s.files.keys ∧
        report.test.file 1 ".S" ∉ s.files.keys) ∧
      isaTrace 2 ".log".toList ∉ s.files.keys ∧ isaTrace 3 ".log".toList ∈ s.files.keys := by
  obtain ⟨reports, s, hrun, hfates⟩ := exists_run_recorded
  have hgenerated := (live_run rfl hrun).2
  have hits := map_it_run hrun
  obtain ⟨r₁, r₂, r₃, r₄, rfl, h₁, h₂, h₃, h₄, -⟩ := accepted_of_map_fate hfates
  have hsuffixed := (hgenerated r₁ (by simp)).suffixed
  simp only [List.map_cons, List.map_nil, List.length_cons, List.length_nil, List.range'_succ,
    List.cons.injEq] at hits
  obtain ⟨hit₁, hit₂, hit₃, hit₄, -⟩ := hits
  have hfiles (path : Text) (it : ℕ) (hpath : OwnedBy it path) : path ∈ s.files.keys ↔
      ∃ e ∈ ((linkedAttempts 0).map Attempt.outcome).zip [r₁, r₂, r₃, r₄],
        e.2.it = it ∧ path ∈ leftover e.1 e.2 := files_of_run rfl hrun path it hpath
  simp only [linkedAttempts, List.map_cons, List.map_nil, List.zip_cons_cons, List.zip_nil_right,
    List.mem_cons, List.not_mem_nil, or_false, exists_eq_or_imp, exists_eq_left, hit₁, hit₂, hit₃,
    hit₄, leftover, h₁, h₂, h₃, h₄] at hfiles
  have htrace (it : ℕ) : OwnedBy it (isaTrace it ".log".toList) := ⟨.isa, _, by decide, rfl⟩
  refine ⟨_, s, hrun, hfates, ⟨r₁, by simp, hit₁, ?_, ?_⟩, ?_, ?_⟩
  · rw [Test.file, hfiles _ 1 (ownedBy_testFile hsuffixed 1 _)]
    simp
  · rw [Test.file, hfiles _ 1 (ownedBy_testFile hsuffixed 1 _)]
    simp [testFile, ownFile]
  · rw [hfiles _ 2 (htrace 2)]
    simp
  · rw [hfiles _ 3 (htrace 3)]
    simp

/-- A run of generated tests that returns leaves no report: the reports are made from files without
the suffix of the test, which are not there. So a recorded run that returns has counted no bug. -/
theorem reports_of_run (hgenerated : config.inFile = none)
    (h : run config noGuide draws outcomes = .ok (reports, s)) :
    (∀ dir kind num extension, reportFile dir kind num extension ∉ s.files.keys) ∧
    (config.record = true → s.mNum = 0 ∧ s.iNum = 0) := by
  have hunreported := unreported_run hgenerated h
  exact ⟨hunreported.not_mem, hunreported.counts⟩

theorem reports_of_run_recorded : ∃ reports s, run (generatingConfig true) false (fun _ ↦ 0)
    ((linkedAttempts 0).map Attempt.outcome) = .ok (reports, s) ∧
      reports.map Report.fate = [.judged, .repeated, .isaTimeout, .judged] ∧
      (∀ dir kind num extension, reportFile dir kind num extension ∉ s.files.keys) ∧
      s.mNum = 0 ∧ s.iNum = 0 := by
  obtain ⟨reports, s, hrun, hfates⟩ := exists_run_recorded
  obtain ⟨hreports, hcounts⟩ := reports_of_run rfl hrun
  exact ⟨reports, s, hrun, hfates, hreports, hcounts rfl⟩

/-- With tools that work, a run that is not recorded goes through all iterations, whatever is drawn
and whatever the programs, the devices and their memories are. Each iteration ends as its tools say.
The counters are the numbers of the judged tests with an access outside the memory and of those
whose result code or whose two final memories show a bug. The comparison of the traces finds
nothing. -/
theorem run_of_attempts (config : Config) (noGuide : Bool) (draws : Draws)
    (attempts : List Attempt) : ∃ reports s,
      run { config with inFile := none, allCsr := false, record := false } noGuide draws
          (attempts.map Attempt.outcome) = .ok (reports, s) ∧
        reports.length = attempts.length ∧
        (∀ e ∈ attempts.zip reports, e.2.fate = e.1.fate e.2.test e.2.trns) ∧
        s.mNum = judgedAs .bug (attempts.zip reports) ∧
        s.iNum = judgedAs .illegal (attempts.zip reports) ∧ s.misCount = 0 :=
  @exists_run_eq_ok { config with inFile := none, allCsr := false, record := false } rfl rfl
    noGuide draws attempts (absurd · Bool.false_ne_true)

/-- The device leaves ones after the last test, which is a bug. -/
theorem run_of_attempts_linked : ∃ reports s,
    run { generatingConfig false with inFile := none, allCsr := false, record := false } false
        (fun _ ↦ 0) ((linkedAttempts 1).map Attempt.outcome) = .ok (reports, s) ∧
      reports.map Report.fate = [.judged, .repeated, .isaTimeout, .judged] ∧
      s.mNum = 1 ∧ s.iNum = 0 ∧ s.misCount = 0 := by
  obtain ⟨reports, s, hrun, hlength, hends, hm, hi, hmis⟩ :=
    run_of_attempts (generatingConfig false) false (fun _ ↦ 0) (linkedAttempts 1)
  have hfates := fates_linkedAttempts rfl rfl rfl hrun hlength hends
  have hgenerated := (live_run rfl hrun).2
  obtain ⟨r₁, r₂, r₃, r₄, rfl, h₁, h₂, h₃, h₄, -⟩ := accepted_of_map_fate hfates
  have hjudged (judgement : Judgement) :
      judgedAs judgement ((linkedAttempts 1).zip [r₁, r₂, r₃, r₄]) =
        (if judgement = .bug then 1 else 0) + if judgement = .passed then 1 else 0 := by
    have hfirst : (Attempt.simulated (linkedTools ecallRun 0)).judgement r₁.test = some .passed :=
      judgement_linkedTools rfl 0 (hgenerated r₁ (by simp)).length_data
    have hlast : (Attempt.simulated (linkedTools fdivRun 1)).judgement r₄.test = some .bug :=
      judgement_linkedTools rfl 1 (hgenerated r₄ (by simp)).length_data
    simp only [linkedAttempts, List.zip_cons_cons, List.zip_nil_right, judgedAs_cons, h₁, h₂, h₃,
      h₄, hfirst, hlast]
    cases judgement <;> rfl
  exact ⟨_, s, hrun, hfates, hm.trans (hjudged .bug), hi.trans (hjudged .illegal), hmis⟩

end ProcessorFuzz.Fuzzing
