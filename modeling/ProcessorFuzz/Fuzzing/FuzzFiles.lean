import ProcessorFuzz.Fuzzing.FuzzRuns

/-!
# The files of a run

Each iteration writes files under names that carry its number, and no iteration touches those of
another one. What is left of them depends on how the iteration has ended. The files of the corpus are
written once, in order.
-/

namespace ProcessorFuzz.Fuzzing

open Library Library.Stateful Mutation Execution RvMutator
open Oracle (isaSigFile rtlSigFile)
open RtlMemory (RtlInput)
open Session (optionPath)

variable {config : Config} {it : ℕ} {outcome : Outcome} {test : Test} {s s' : Session} {trns : ℕ}
  {fate : Fate}

/-- The suffixes `_gen`, `_mut_...` and `_mer_...`. -/
def Suffixed (x : SimInput) : Prop := x.nameSuffix.head? = some '_'

theorem ensures_makePartsWith_suffix (mutate : WordsMutation) (m : RvMutator)
    (s : InstGenerator × Draws) :
    Ensures (m.makePartsWith mutate) s fun parts _ ↦ parts.nameSuffix.head? = some '_' := by
  have hmutate (seed : Parts) (s : InstGenerator × Draws) (hseed : seed.nameSuffix.head? = some '_') :
      Ensures (mutatePartsWith mutate seed) s fun parts _ ↦ parts.nameSuffix.head? = some '_' := by
    apply Ensures.bind .trivial
    intro prefixWords s₁ _
    apply Ensures.bind .trivial
    intro words s₂ _
    apply Ensures.bind .trivial
    intro suffixWords s₃ _
    exact .pure hseed
  unfold makePartsWith
  cases m.phase with
  | generation =>
    apply Ensures.bind .trivial
    intro prefixWords s₁ _
    apply Ensures.bind .trivial
    intro words s₂ _
    apply Ensures.bind .trivial
    intro suffixWords s₃ _
    exact .pure rfl
  | mutation =>
    refine Ensures.bind (.onSnd ?_) hmutate
    apply Ensures.bind .trivial
    intro entry draws _
    exact .pure rfl
  | merge =>
    refine Ensures.bind (.onSnd ?_) hmutate
    apply Ensures.bind .trivial
    intro entry draws₁ _
    apply Ensures.bind .trivial
    intro entry' draws₂ _
    apply Ensures.bind .trivial
    intro idx draws₃ _
    exact .pure rfl

theorem suffixed_getWith {mutate : WordsMutation} {m m' : RvMutator} {assertIntr : Bool}
    {draws draws' : Draws} {x : SimInput} {data : List ℤ}
    (h : m.getWith mutate it assertIntr draws = .ok ((x, data), m', draws')) : Suffixed x := by
  obtain ⟨⟨draft, state⟩, hdraft, h⟩ := bind_eq_ok.mp h
  have hsuffix : Ensures (m.makeDraftWith mutate assertIntr) (InstGenerator.start, draws)
      fun draft _ ↦ draft.nameSuffix.head? = some '_' := by
    apply Ensures.bind (ensures_makePartsWith_suffix mutate m _)
    intro parts s₁ hparts
    apply Ensures.bind .trivial
    intro prefixWords s₂ _
    apply Ensures.bind .trivial
    intro words s₃ _
    apply Ensures.bind .trivial
    intro suffixWords s₄ _
    apply Ensures.bind .trivial
    intro ints s₅ _
    exact .pure hparts
  have hhead := hsuffix.of_eq_ok _ hdraft
  obtain ⟨⟨dataSeed, base, draws₁⟩, -, h⟩ := bind_eq_ok.mp h
  obtain ⟨⟨template, draws₂⟩, -, h⟩ := bind_eq_ok.mp h
  dsimp only at h
  split at h
  · exact nomatch h
  · obtain ⟨hx, -⟩ := Prod.mk.inj (Except.ok.inj h)
    obtain ⟨rfl, -⟩ := Prod.mk.inj hx
    exact hhead

theorem Suffixed.endsNumber {x : SimInput} (h : Suffixed x) (extension : Text) :
    EndsNumber (x.nameSuffix ++ extension) := by
  obtain ⟨rest, hrest⟩ := List.head?_eq_some_iff.mp h
  rw [hrest]
  intro c hc
  obtain rfl := Option.some.inj hc
  rfl

/-- The names of two files of one test differ in their extensions only, and no other file has the
name of a file without a suffix. -/
theorem Suffixed.testFile_ne {x : SimInput} (h : Suffixed x) (it' : ℕ) (extension : Text)
    {extension' : Text} (hextension : extension'.head? = some '.') :
    testFile it x.nameSuffix extension ≠ testFile it' [] extension' := by
  intro heq
  obtain ⟨rest, hrest⟩ := List.head?_eq_some_iff.mp hextension
  have hends : EndsNumber ([] ++ extension') := by
    rw [List.nil_append, hrest]
    intro c hc
    obtain rfl := Option.some.inj hc
    rfl
  obtain ⟨-, -, htail⟩ := ownFile_inj (h.endsNumber extension) hends heq
  obtain ⟨rest', hrest'⟩ := List.head?_eq_some_iff.mp h
  rw [hrest', List.nil_append, hrest] at htail
  exact absurd (List.cons.inj htail).1 (by decide)

/-- These are the files of iterations that are written. -/
def OwnWrites (written : List Text) (files files' : FileSystem) : Prop :=
  ∀ path, (∃ j, OwnedBy j path) → (path ∈ files'.keys ↔ path ∈ files.keys ∨ path ∈ written)

namespace OwnWrites

variable {files files' files'' : FileSystem} {written written' paths : List Text}

theorem of_writes (h : FileSystem.Writes paths files files') (hsub : ∀ path ∈ written, path ∈ paths)
    (hown : ∀ path ∈ paths, path ∈ written ∨ path.head? ≠ some 't') :
    OwnWrites written files files' := by
  rintro path ⟨j, hj⟩
  rw [h.mem_keys_iff]
  refine or_congr_right ⟨fun hpath ↦ ?_, hsub path⟩
  exact (hown path hpath).resolve_right fun hhead ↦ not_ownedBy_of_head? hhead j hj

theorem of_eq (h : files' = files) : OwnWrites [] files files' := by
  rintro path -
  rw [h]
  exact (or_iff_left List.not_mem_nil).symm

theorem trans (h : OwnWrites written files files') (h' : OwnWrites written' files' files'') :
    OwnWrites (written ++ written') files files'' := by
  intro path hpath
  rw [h' path hpath, h path hpath, List.mem_append, or_assoc]

theorem congr (h : OwnWrites written files files') (hmem : ∀ path, path ∈ written ↔ path ∈ written') :
    OwnWrites written' files files' := by
  intro path hpath
  rw [h path hpath, hmem]

/-- Files of an iteration that had none before are removed again. -/
theorem remove (h : OwnWrites written files files') {removed : Text → Prop}
    [DecidablePred removed] (hfresh : ∀ path, OwnedBy it path → path ∉ files.keys)
    (hremoved : ∀ path, (∃ j, OwnedBy j path) → removed path → OwnedBy it path)
    (hget : ∀ path, files''.get? path = if removed path then none else files'.get? path) :
    OwnWrites (written.filter fun path ↦ ¬ removed path) files files'' := by
  intro path hpath
  have hkeys : path ∈ files''.keys ↔ ¬ removed path ∧ path ∈ files'.keys := by
    rw [← Dict.isSome_get?_iff, hget, ← Dict.isSome_get?_iff]
    by_cases hcase : removed path
    · simp [hcase]
    · simp [hcase]
  rw [hkeys, h path hpath, List.mem_filter, decide_eq_true_iff, and_or_left, And.comm (a := ¬ _)]
  refine or_congr ⟨And.left, fun hold ↦ ⟨hold, fun hcase ↦ ?_⟩⟩ and_comm
  exact hfresh path (hremoved path hpath hcase) hold

end OwnWrites

/-- The files of a program that was built. -/
def builtFiles (it : ℕ) (suffix : Text) : List Text :=
  [".si", ".S", ".elf", ".hex", ".symbols"].map fun extension ↦ testFile it suffix extension.toList

/-- The files of an iteration that comes to the end of the RTL simulation. -/
def tracedFiles (it : ℕ) (suffix : Text) (rtlLog : Option Text) : List Text :=
  builtFiles it suffix ++ [isaTrace it ".log".toList, isaTrace it ".csv".toList] ++
    optionPath (rtlTrace it) rtlLog

/-- The files of an iteration that are there after it. -/
def leftover (outcome : Outcome) (report : Report) : List Text :=
  match report.fate with
  | .compileFailed => [".si", ".S"].map fun extension ↦
      testFile report.it report.test.simInput.nameSuffix extension.toList
  | .repeated => []
  | .rtlFailed => tracedFiles report.it report.test.simInput.nameSuffix outcome.rtl.log
  | .judged => [testFile report.it report.test.simInput.nameSuffix ".si".toList]
  | _ => builtFiles report.it report.test.simInput.nameSuffix ++ [isaTrace report.it ".log".toList]

theorem ownedBy_testFile {x : SimInput} (h : Suffixed x) (it : ℕ) (extension : Text) :
    OwnedBy it (testFile it x.nameSuffix extension) :=
  ⟨.test, _, h.endsNumber extension, rfl⟩

/-- What is dropped after a scan belongs to the iteration. -/
theorem ownedBy_of_dropped (hx : Suffixed test.simInput) {path : Text}
    (hpath : ∃ j, OwnedBy j path) (hdrop : Dropped it test path) : OwnedBy it path := by
  obtain ⟨j, kind, rest, hrest, rfl⟩ := hpath
  rcases hdrop with hmatch | hmatch
  · obtain ⟨-, rfl, -⟩ := owned_of_matches (hx.endsNumber _) (by simp) hrest hmatch
    exact ⟨kind, rest, hrest, rfl⟩
  · obtain ⟨-, rfl, -⟩ := owned_of_matches (by decide) (by decide) hrest hmatch
    exact ⟨kind, rest, hrest, rfl⟩

section Stages

variable {input : Option RtlInput}

theorem Preprocessed.own (h : Preprocessed it outcome test s input s') :
    OwnWrites (preprocessFiles it outcome test) s.files s'.files :=
  .of_writes h.writes (fun _ ↦ id) fun _ ↦ .inl

theorem head?_of_mem_optionPath {file path : Text} {contents : Option Text}
    (h : path ∈ optionPath file contents) : path = file := by
  unfold optionPath at h
  split at h
  · exact List.mem_singleton.mp h
  · exact absurd h List.not_mem_nil

theorem IsaTested.own {run : IsaRun} {ret : ProcState} (h : IsaTested it run s ret s') :
    OwnWrites [isaTrace it ".log".toList] s.files s'.files := by
  refine .of_writes h.writes (fun path hpath ↦ List.mem_append_right _ hpath) fun path hpath ↦ ?_
  rcases List.mem_append.mp hpath with hpath | hpath
  · rw [head?_of_mem_optionPath hpath]
    exact .inr (by decide)
  · exact .inl hpath

theorem IsaLogRead.own {log : Text} (h : IsaLogRead config it log s trns s') :
    OwnWrites [isaTrace it ".csv".toList] s.files s'.files := by
  obtain ⟨csv, -, hfiles⟩ := h.csv
  rw [hfiles]
  exact .of_writes (.set _ _ _) (fun _ ↦ id) fun _ ↦ .inl

theorem Scanned.own (h : Scanned config it outcome test s trns s') :
    OwnWrites [isaTrace it ".log".toList, isaTrace it ".csv".toList] s.files s'.files := by
  obtain ⟨ret, s₁, htested, hread⟩ := h.tested
  exact htested.own.trans hread.own

theorem RtlTested.own {run : RtlRun} {ret : Option ℤ} (h : RtlTested it run s ret s') :
    OwnWrites (optionPath (rtlTrace it) run.log) s.files s'.files := by
  obtain ⟨signature, -, hwrites⟩ := h.writes
  refine .of_writes hwrites (fun path hpath ↦ List.mem_append_left _ hpath) fun path hpath ↦ ?_
  rcases List.mem_append.mp hpath with hpath | hpath
  · exact .inl hpath
  · rw [head?_of_mem_optionPath hpath]
    exact .inr (by decide)

theorem head?_of_mem_reports {dir : ReportDir} {num : ℕ} {path : Text}
    (h : path ∈ [reportFile dir "sim_input".toList num ".si".toList,
      reportFile dir "elf".toList num ".elf".toList, reportFile dir "asm".toList num ".S".toList,
      reportFile dir "hex".toList num ".hex".toList]) : path.head? ∈ [some 'm', some 'i'] := by
  simp only [List.mem_cons, List.not_mem_nil, or_false] at h
  rcases h with rfl | rfl | rfl | rfl
  · exact head?_reportFile dir _ num _
  · exact head?_reportFile dir _ num _
  · exact head?_reportFile dir _ num _
  · exact head?_reportFile dir _ num _

theorem Saved.own {dir : ReportDir} {num : ℕ} (h : Saved it dir num s s') :
    OwnWrites [] s.files s'.files := by
  refine .of_writes h.writes nofun fun path hpath ↦ .inr fun heq ↦ ?_
  have hhead := head?_of_mem_reports hpath
  rw [heq] at hhead
  exact absurd hhead (by decide)

theorem Reported.own {dir : ReportDir} {num : ℕ} (h : Reported config it dir num s s') :
    OwnWrites [] s.files s'.files := by
  cases hrecord : config.record with
  | false => exact .of_eq (h.quiet hrecord)
  | true => exact (h.saved hrecord).own

theorem Judged.own {symbols : Dict Text ℕ} {ret : ℤ} (h : Judged config it symbols ret s s') :
    OwnWrites [] s.files s'.files := by
  cases h with
  | illegal _ hreport => exact hreport.own
  | bug _ _ hreport => exact hreport.own
  | passed => exact .of_eq rfl

theorem Admitted.own (h : Admitted config it outcome test s s') : OwnWrites [] s.files s'.files := by
  cases hrecord : config.record with
  | false => exact .of_eq (h.quiet hrecord).1
  | true =>
    obtain ⟨contents, -, hfiles, -⟩ := h.recorded hrecord
    rw [hfiles]
    refine .of_writes (.set _ _ _) nofun fun path hpath ↦ .inr ?_
    rw [List.mem_singleton.mp hpath, head?_corpusFile]
    decide

end Stages

/-- The files of a generated test that is built. -/
theorem preprocessFiles_built {build : Build} (hbuild : outcome.build = some build)
    (hintr : test.assertIntr = false) :
    preprocessFiles it outcome test = builtFiles it test.simInput.nameSuffix := by
  rw [preprocessFiles, hbuild, hintr]
  rfl

theorem mem_usedFiles_own (hx : Suffixed test.simInput) {path : Text}
    (hpath : path ∈ usedFiles it test) : OwnedBy it path := by
  have htest (extension : Text) : OwnedBy it (testFile it test.simInput.nameSuffix extension) :=
    ownedBy_testFile hx it extension
  simp only [usedFiles, List.mem_cons, List.not_mem_nil, or_false] at hpath
  rcases hpath with rfl | rfl | rfl | rfl | rfl | rfl | rfl
  · exact htest _
  · exact htest _
  · exact htest _
  · exact htest _
  · exact ⟨.isa, _, by decide, rfl⟩
  · exact ⟨.isa, _, by decide, rfl⟩
  · exact ⟨.rtl, _, by decide, rfl⟩

/-- Of the files of a test that is judged only the test itself is kept. -/
theorem kept_of_judged (hx : Suffixed test.simInput) (log : Option Text) (path : Text) :
    path ∈ (tracedFiles it test.simInput.nameSuffix log).filter
      (fun path ↦ ¬ path ∈ usedFiles it test) ↔ path ∈ [testFile it test.simInput.nameSuffix ".si".toList] := by
  have hsi : testFile it test.simInput.nameSuffix ".si".toList ∉ usedFiles it test := by
    have hother {extension : Text} (hne : ".si".toList ≠ extension) :
        testFile it test.simInput.nameSuffix ".si".toList ≠
          testFile it test.simInput.nameSuffix extension := by
      intro heq
      obtain ⟨-, -, htail⟩ := ownFile_inj (hx.endsNumber _) (hx.endsNumber _) heq
      exact hne (List.append_cancel_left htail)
    have hkind {kind : OwnKind} {rest : Text} (hkind : kind ≠ .test) (hrest : EndsNumber rest) :
        testFile it test.simInput.nameSuffix ".si".toList ≠ ownFile kind it rest := fun heq ↦
      hkind (ownFile_inj (hx.endsNumber _) hrest heq).1.symm
    simp only [usedFiles, List.mem_cons, List.not_mem_nil, or_false, not_or]
    exact ⟨hother (by decide), hother (by decide), hother (by decide), hother (by decide),
      hkind nofun (by decide), hkind nofun (by decide), hkind nofun (by decide)⟩
  rw [List.mem_filter, decide_eq_true_iff, List.mem_singleton]
  constructor
  · rintro ⟨hpath, hkept⟩
    simp only [tracedFiles, builtFiles, optionPath, List.map_cons, List.map_nil, List.mem_append,
      List.mem_cons, List.not_mem_nil, or_false] at hpath
    simp only [usedFiles, Test.file, List.mem_cons, List.not_mem_nil, or_false, not_or] at hkept
    obtain ⟨hsymbols, hhex, hasm, helf, hlog, hcsv, hrtl⟩ := hkept
    rcases hpath with ((hpath | hpath | hpath | hpath | hpath) | hpath | hpath) | hpath
    · exact hpath
    · exact absurd hpath hasm
    · exact absurd hpath helf
    · exact absurd hpath hhex
    · exact absurd hpath hsymbols
    · exact absurd hpath hlog
    · exact absurd hpath hcsv
    · split at hpath
      · exact absurd (List.mem_singleton.mp hpath) hrtl
      · exact absurd hpath List.not_mem_nil
  · rintro rfl
    refine ⟨List.mem_append_left _ (List.mem_append_left _ ?_), hsi⟩
    exact List.mem_cons_self

theorem Preprocessed.built {input : RtlInput} (hintr : test.assertIntr = false)
    (h : Preprocessed it outcome test s (some input) s') :
    OwnWrites (builtFiles it test.simInput.nameSuffix) s.files s'.files := by
  obtain ⟨build, heq⟩ := Option.isSome_iff_exists.mp (h.input_isSome.symm.trans rfl)
  have hown := h.own
  rwa [preprocessFiles_built heq hintr] at hown

theorem own_tracedFiles {input : RtlInput} {s₁ s₂ s₃ : Session} {ret : Option ℤ}
    (hintr : test.assertIntr = false) (hbuild : Preprocessed it outcome test s (some input) s₁)
    (hscanned : Scanned config it outcome test s₁ trns s₂)
    (htested : RtlTested it outcome.rtl s₂ ret s₃) :
    OwnWrites (tracedFiles it test.simInput.nameSuffix outcome.rtl.log) s.files s₃.files :=
  ((hbuild.built hintr).trans hscanned.own).trans htested.own

/-- Everything that is written before the scan is dropped with a test that shows nothing new. -/
theorem dropped_of_mem {path : Text} (hpath : path ∈ builtFiles it test.simInput.nameSuffix ++
    [isaTrace it ".log".toList, isaTrace it ".csv".toList]) : Dropped it test path := by
  have htest {rest : Text} (hrest : '/' ∉ rest) :
      FileSystem.Matches (test.file it ".") (testFile it test.simInput.nameSuffix ('.' :: rest)) := by
    have heq : testFile it test.simInput.nameSuffix ('.' :: rest) = test.file it "." ++ rest := by
      simp only [Test.file, testFile, ownFile, List.append_assoc]
      rfl
    rw [heq]
    exact FileSystem.matches_append hrest
  have hisa {rest : Text} (hrest : '/' ∉ rest) :
      FileSystem.Matches (isaTrace it ".".toList) (isaTrace it ('.' :: rest)) := by
    have heq : isaTrace it ('.' :: rest) = isaTrace it ".".toList ++ rest := by
      simp only [isaTrace, ownFile, List.append_assoc]
      rfl
    rw [heq]
    exact FileSystem.matches_append hrest
  simp only [builtFiles, List.map_cons, List.map_nil, List.mem_append, List.mem_cons,
    List.not_mem_nil, or_false] at hpath
  rcases hpath with (rfl | rfl | rfl | rfl | rfl) | rfl | rfl
  · exact .inl (htest (by decide))
  · exact .inl (htest (by decide))
  · exact .inl (htest (by decide))
  · exact .inl (htest (by decide))
  · exact .inl (htest (by decide))
  · exact .inr (hisa (by decide))
  · exact .inr (hisa (by decide))

/-- An iteration leaves these files, and those of the other iterations as they are. -/
theorem Iterated.own (hx : Suffixed test.simInput) (hintr : test.assertIntr = false)
    (hfresh : ∀ path, OwnedBy it path → path ∉ s.files.keys)
    (h : Iterated config it outcome test s trns fate s') :
    OwnWrites (leftover outcome ⟨it, test, trns, fate⟩) s.files s'.files := by
  cases h with
  | compileFailed hbuild =>
    have hown := hbuild.own
    have hnone : outcome.build = none :=
      Option.isNone_iff_eq_none.mp (Option.isSome_eq_false_iff.mp hbuild.input_isSome.symm)
    rw [preprocessFiles, hnone] at hown
    exact hown
  | isaFailed hbuild htested hfate =>
    have hown := (hbuild.built hintr).trans htested.own
    rcases isaEnd_cases outcome.isa with ⟨hend, -⟩ | ⟨hend, -⟩ | ⟨hend, -⟩
    · cases hend.symm.trans hfate
    · obtain rfl := Option.some.inj (hend.symm.trans hfate)
      exact hown
    · obtain rfl := Option.some.inj (hend.symm.trans hfate)
      exact hown
  | repeated hbuild hscanned hdrop =>
    have hown := ((hbuild.built hintr).trans hscanned.own).remove hfresh
      (fun path ↦ ownedBy_of_dropped hx) (dropTest_eq_ok hdrop).2
    refine hown.congr fun path ↦ iff_of_false (fun hpath ↦ ?_) List.not_mem_nil
    obtain ⟨hwritten, hkept⟩ := List.mem_filter.mp hpath
    exact of_decide_eq_true hkept (dropped_of_mem hwritten)
  | rtlFailed hbuild hscanned hpos htested =>
    exact own_tracedFiles hintr hbuild hscanned htested
  | finished hbuild hscanned hpos htested hfinished =>
    cases hfinished with
    | interrupted _ hassert _ => exact absurd (hintr.symm.trans hassert) Bool.false_ne_true
    | @judged s₁ s₂ s₃ s₄ s₅ _ hcompare hjintr hjudged hadmitted hclean hphase =>
      have hown := own_tracedFiles hintr hbuild hscanned htested
      have hs₁ := congrArg Session.files hcompare.frame
      have hs₂ : s₂ = s₁ := hjintr.resolve_right fun htaken ↦
        absurd (hintr.symm.trans htaken.1) Bool.false_ne_true
      have hs₄ := hjudged.own.trans hadmitted.own
      rw [hs₂, hs₁] at hs₄
      have hs₄ := hown.trans hs₄
      rw [List.append_nil, List.append_nil] at hs₄
      have hs₅ := hs₄.remove hfresh (fun path _ ↦ mem_usedFiles_own hx) (cleanUp_eq_ok hclean).2
      have hs' : s'.files = s₅.files := by rw [(updatePhase_eq_ok hphase).1]
      rw [← hs'] at hs₅
      exact hs₅.congr fun path ↦ kept_of_judged hx outcome.rtl.log path

theorem ownedBy_of_mem_leftover {report : Report} (hx : Suffixed report.test.simInput) {path : Text}
    (hpath : path ∈ leftover outcome report) : OwnedBy report.it path := by
  have hbuilt (hpath : path ∈ builtFiles report.it report.test.simInput.nameSuffix) :
      OwnedBy report.it path := by
    obtain ⟨extension, -, rfl⟩ := List.mem_map.mp hpath
    exact ownedBy_testFile hx _ _
  have htrace {kind : OwnKind} {extension : Text} (hends : EndsNumber extension)
      (hpath : path = ownFile kind report.it extension) : OwnedBy report.it path :=
    ⟨kind, extension, hends, hpath⟩
  have hfailed (hpath : path ∈ builtFiles report.it report.test.simInput.nameSuffix ++
      [isaTrace report.it ".log".toList]) : OwnedBy report.it path := by
    rcases List.mem_append.mp hpath with hpath | hpath
    · exact hbuilt hpath
    · exact htrace (by decide) (List.mem_singleton.mp hpath)
  obtain ⟨it, test, trns, fate⟩ := report
  cases fate with
  | compileFailed =>
    obtain ⟨extension, -, rfl⟩ := List.mem_map.mp hpath
    exact ownedBy_testFile hx _ _
  | repeated => exact absurd hpath List.not_mem_nil
  | rtlFailed =>
    rcases List.mem_append.mp hpath with hpath | hpath
    · rcases List.mem_append.mp hpath with hpath | hpath
      · exact hbuilt hpath
      · rcases List.mem_pair.mp hpath with hpath | hpath
        · exact htrace (by decide) hpath
        · exact htrace (by decide) hpath
    · exact htrace (by decide) (head?_of_mem_optionPath hpath)
  | judged => exact List.mem_singleton.mp hpath ▸ ownedBy_testFile hx _ _
  | isaTimeout => exact hfailed hpath
  | isaAssert => exact hfailed hpath
  | noInterrupt => exact hfailed hpath

/-- Which files of the iterations are there. -/
structure FilesOf (it : ℕ) (done : List (Outcome × Report)) (s : Session) : Prop where
  lt : ∀ e ∈ done, e.2.it < it
  own : ∀ path j, OwnedBy j path →
    (path ∈ s.files.keys ↔ ∃ e ∈ done, e.2.it = j ∧ path ∈ leftover e.1 e.2)

theorem FilesOf.start (noGuide : Bool) (draws : Draws) : FilesOf 1 [] (start noGuide draws) where
  lt _ he := absurd he List.not_mem_nil
  own _ _ _ := iff_of_false List.not_mem_nil (by simp)

theorem FilesOf.fresh {done : List (Outcome × Report)} (h : FilesOf it done s) {path : Text}
    (hpath : OwnedBy it path) : path ∉ s.files.keys := by
  rw [h.own path it hpath]
  rintro ⟨e, he, heq, -⟩
  exact absurd heq (h.lt e he).ne

theorem FilesOf.step {done : List (Outcome × Report)} {s₁ : Session} (h : FilesOf it done s)
    (hgenerated : config.inFile = none) (hnext : nextTest config it s = .ok (test, s₁))
    (hiterated : Iterated config it outcome test s₁ trns fate s') :
    FilesOf (it + 1) (done ++ [(outcome, ⟨it, test, trns, fate⟩)]) s' := by
  obtain ⟨hintr, hget⟩ := nextTest_generated hgenerated hnext
  have hx := suffixed_getWith hget
  have hfiles : s₁.files = s.files := by rw [nextTest_frame hnext]
  have hown := hiterated.own hx hintr fun path hpath ↦ by
    rw [hfiles]
    exact h.fresh hpath
  rw [hfiles] at hown
  constructor
  · intro e he
    rcases List.mem_append.mp he with he | he
    · exact (h.lt e he).trans (Nat.lt_succ_self it)
    · rw [List.mem_singleton.mp he]
      exact Nat.lt_succ_self it
  · intro path j hpath
    rw [hown path ⟨j, hpath⟩, h.own path j hpath]
    simp only [List.mem_append, List.mem_singleton, or_and_right, exists_or, exists_eq_left]
    refine or_congr_right ⟨fun hleft ↦ ⟨?_, hleft⟩, And.right⟩
    exact (ownedBy_of_mem_leftover hx hleft).unique hpath

/-- No file of a generated test has a name without a suffix. -/
theorem testFile_not_mem_tracedFiles {x : SimInput} (hx : Suffixed x) (log : Option Text) :
    testFile it [] ".elf".toList ∉ tracedFiles it x.nameSuffix log := by
  have hends : EndsNumber ([] ++ ".elf".toList) := by decide
  have htrace (kind : OwnKind) (rest : Text) (hkind : .test ≠ kind) (hrest : EndsNumber rest) :
      testFile it [] ".elf".toList ≠ ownFile kind it rest := fun heq ↦
    hkind (ownFile_inj hends hrest heq).1
  intro hmem
  rcases List.mem_append.mp hmem with hmem | hmem
  · rcases List.mem_append.mp hmem with hmem | hmem
    · obtain ⟨extension, -, heq⟩ := List.mem_map.mp hmem
      exact hx.testFile_ne it _ rfl heq
    · rcases List.mem_pair.mp hmem with heq | heq
      · exact htrace .isa _ nofun (by decide) heq
      · exact htrace .isa _ nofun (by decide) heq
  · exact htrace .rtl _ nofun (by decide) (head?_of_mem_optionPath hmem)

/-- Without the files of the program no report is made. -/
theorem Judged.files_eq {symbols : Dict Text ℕ} {ret : ℤ} (h : Judged config it symbols ret s s')
    (hmissing : testFile it [] ".elf".toList ∉ s.files.keys) :
    s'.files = s.files ∧ (config.record = true → s' = s) := by
  have hquiet {dir : ReportDir} {num : ℕ} {s₁ : Session}
      (hreport : Reported config it dir num s s₁) : config.record = false := by
    cases hrecord : config.record with
    | false => rfl
    | true => exact absurd (hreport.saved hrecord).elf_mem hmissing
  cases h with
  | illegal _ hreport =>
    have hrecord := hquiet hreport
    exact ⟨hreport.quiet hrecord, fun h ↦ absurd (hrecord.symm.trans h) Bool.false_ne_true⟩
  | bug _ _ hreport =>
    have hrecord := hquiet hreport
    exact ⟨hreport.quiet hrecord, fun h ↦ absurd (hrecord.symm.trans h) Bool.false_ne_true⟩
  | passed => exact ⟨rfl, fun _ ↦ rfl⟩

/-- The judgement of a generated test does not find the files of its program. -/
theorem elf_not_mem {input : RtlInput} {s₁ s₂ s₃ s₄ : Session} {ret : Option ℤ}
    (hx : Suffixed test.simInput) (hintr : test.assertIntr = false)
    (hfresh : ∀ path, OwnedBy it path → path ∉ s.files.keys)
    (hbuild : Preprocessed it outcome test s (some input) s₁)
    (hscanned : Scanned config it outcome test s₁ trns s₂)
    (htested : RtlTested it outcome.rtl s₂ ret s₃) (hcompare : TracesCompared config it s₃ s₄) :
    testFile it [] ".elf".toList ∉ s₄.files.keys := by
  have howned : OwnedBy it (testFile it [] ".elf".toList) := ⟨.test, _, by decide, rfl⟩
  have hown := own_tracedFiles hintr hbuild hscanned htested _ ⟨it, howned⟩
  have hs₄ : s₄.files = s₃.files := by rw [hcompare.frame]
  rw [hs₄, hown]
  exact not_or.mpr ⟨hfresh _ howned, testFile_not_mem_tracedFiles hx _⟩

/-- When the run is recorded, the files of a generated test are not found, so a test that is judged
has passed. -/
theorem Iterated.passed (hx : Suffixed test.simInput) (hintr : test.assertIntr = false)
    (hfresh : ∀ path, OwnedBy it path → path ∉ s.files.keys) (hrecord : config.record = true)
    (h : Iterated config it outcome test s trns fate s') :
    s'.mNum = s.mNum ∧ s'.iNum = s.iNum := by
  cases h with
  | compileFailed hbuild =>
    rw [hbuild.frame]
    exact ⟨rfl, rfl⟩
  | isaFailed hbuild htested hfate =>
    rw [htested.frame, hbuild.frame]
    exact ⟨rfl, rfl⟩
  | repeated hbuild hscanned hdrop =>
    rw [(dropTest_eq_ok hdrop).1, hscanned.frame, hbuild.frame]
    exact ⟨rfl, rfl⟩
  | rtlFailed hbuild hscanned hpos htested =>
    rw [htested.frame, hscanned.frame, hbuild.frame]
    exact ⟨rfl, rfl⟩
  | finished hbuild hscanned hpos htested hfinished =>
    cases hfinished with
    | interrupted _ hassert _ => exact absurd (hintr.symm.trans hassert) Bool.false_ne_true
    | judged hcompare hjintr hjudged hadmitted hclean hphase =>
      obtain rfl := hjintr.resolve_right fun htaken ↦
        absurd (hintr.symm.trans htaken.1) Bool.false_ne_true
      have hmissing := elf_not_mem hx hintr hfresh hbuild hscanned htested hcompare
      rw [(updatePhase_eq_ok hphase).1, (cleanUp_eq_ok hclean).1, hadmitted.frame,
        (hjudged.files_eq hmissing).2 hrecord, hcompare.frame, htested.frame, hscanned.frame,
        hbuild.frame]
      exact ⟨rfl, rfl⟩

/-- The files whose names begin with this letter stay as they are. -/
def Keeps (c : Char) (files files' : FileSystem) : Prop :=
  ∀ path : Text, path.head? = some c → files'.get? path = files.get? path

section Keeps

variable {c : Char} {input : Option RtlInput} {files files' files'' : FileSystem} {paths : List Text}

theorem Keeps.of_writes (h : FileSystem.Writes paths files files')
    (hpaths : ∀ path ∈ paths, path.head? ≠ some c) : Keeps c files files' := fun path hpath ↦
  h.get? path fun hmem ↦ hpaths path hmem hpath

theorem Keeps.of_eq (h : files' = files) : Keeps c files files' := fun path _ ↦ by rw [h]

theorem Keeps.trans (h : Keeps c files files') (h' : Keeps c files' files'') :
    Keeps c files files'' := fun path hpath ↦ (h' path hpath).trans (h path hpath)

/-- Files of iterations are removed. -/
theorem Keeps.of_removed (hc : c ≠ 't') {removed : Text → Prop} [DecidablePred removed]
    (hremoved : ∀ path, removed path → path.head? = some 't')
    (hget : ∀ path, files'.get? path = if removed path then none else files.get? path) :
    Keeps c files files' := by
  intro path hpath
  rw [hget, if_neg]
  intro hmem
  exact hc (Option.some.inj (hpath.symm.trans (hremoved path hmem)))

/-- Neither a file of an iteration nor a signature file begins with this letter. -/
def Elsewhere (c : Char) : Prop := c ≠ 't' ∧ c ≠ '.'

instance (c : Char) : Decidable (Elsewhere c) := inferInstanceAs (Decidable (_ ∧ _))

theorem Elsewhere.head?_ne {path : Text} (hc : Elsewhere c)
    (hpath : path.head? = some 't' ∨ path.head? = some '.') : path.head? ≠ some c := by
  intro heq
  rcases hpath with hpath | hpath
  · exact hc.1 (Option.some.inj (heq.symm.trans hpath))
  · exact hc.2 (Option.some.inj (heq.symm.trans hpath))

theorem head?_of_mem_preprocessFiles {path : Text}
    (h : path ∈ preprocessFiles it outcome test) : path.head? = some 't' := by
  have hfile {extension : String} (hpath : path = test.file it extension) :
      path.head? = some 't' := hpath ▸ head?_ownFile .test it _
  simp only [preprocessFiles, List.mem_append, List.mem_cons, List.not_mem_nil, or_false] at h
  rcases h with (h | h) | h
  · exact hfile h
  · exact hfile h
  · split at h
    · rcases List.mem_append.mp h with h | h
      · simp only [List.mem_cons, List.not_mem_nil, or_false] at h
        rcases h with h | h | h
        · exact hfile h
        · exact hfile h
        · exact hfile h
      · split at h
        · exact hfile (List.mem_singleton.mp h)
        · exact absurd h List.not_mem_nil
    · exact absurd h List.not_mem_nil

theorem Preprocessed.keeps (hc : Elsewhere c) (h : Preprocessed it outcome test s input s') :
    Keeps c s.files s'.files :=
  .of_writes h.writes fun _ hpath ↦ hc.head?_ne (.inl (head?_of_mem_preprocessFiles hpath))

theorem head?_of_mem_isaFiles {run : IsaRun} {path : Text} (h : path ∈ isaFiles it run) :
    path.head? = some 't' ∨ path.head? = some '.' := by
  rcases List.mem_append.mp h with h | h
  · rw [head?_of_mem_optionPath h]
    exact .inr rfl
  · rw [List.mem_singleton.mp h]
    exact .inl (head?_ownFile .isa it _)

theorem Scanned.keeps (hc : Elsewhere c) (h : Scanned config it outcome test s trns s') :
    Keeps c s.files s'.files := by
  obtain ⟨ret, s₁, htested, hread⟩ := h.tested
  obtain ⟨csv, -, hfiles⟩ := hread.csv
  have hlog : Keeps c s.files s₁.files :=
    .of_writes htested.writes fun path hpath ↦ hc.head?_ne (head?_of_mem_isaFiles hpath)
  refine hlog.trans ?_
  rw [hfiles]
  refine .of_writes (.set _ _ _) fun path hpath ↦ hc.head?_ne (.inl ?_)
  rw [List.mem_singleton.mp hpath]
  exact head?_ownFile .isa it _

theorem RtlTested.keeps (hc : Elsewhere c) {run : RtlRun} {ret : Option ℤ}
    (h : RtlTested it run s ret s') : Keeps c s.files s'.files := by
  obtain ⟨signature, -, hwrites⟩ := h.writes
  refine .of_writes hwrites fun path hpath ↦ hc.head?_ne ?_
  rcases List.mem_append.mp hpath with hpath | hpath
  · rw [head?_of_mem_optionPath hpath]
    exact .inl (head?_ownFile .rtl it _)
  · rw [head?_of_mem_optionPath hpath]
    exact .inr rfl

theorem InterruptTaken.keeps (hc : Elsewhere c) {fate : Option Fate}
    (h : InterruptTaken it outcome test s fate s') : Keeps c s.files s'.files := by
  rcases h.fate_eq with ⟨-, rfl⟩ | ⟨-, -, hwrites⟩
  · exact .of_eq rfl
  · refine .of_writes hwrites fun path hpath ↦ hc.head?_ne ?_
    rcases List.mem_append.mp hpath with hpath | hpath
    · rw [List.mem_singleton.mp hpath]
      exact .inl (head?_ownFile .test it _)
    · exact head?_of_mem_isaFiles hpath

theorem keeps_dropTest (hc : Elsewhere c) (h : dropTest it test s = .ok s') :
    Keeps c s.files s'.files := by
  refine .of_removed hc.1 (fun path hdropped ↦ ?_) (dropTest_eq_ok h).2
  rcases hdropped with ⟨⟨rest, rfl⟩, -⟩ | ⟨⟨rest, rfl⟩, -⟩
  · rfl
  · rfl

theorem keeps_cleanUp (hc : Elsewhere c) (h : cleanUp it test s = .ok s') :
    Keeps c s.files s'.files := by
  refine .of_removed hc.1 (fun path hused ↦ ?_) (cleanUp_eq_ok h).2
  simp only [usedFiles, List.mem_cons, List.not_mem_nil, or_false] at hused
  rcases hused with rfl | rfl | rfl | rfl | rfl | rfl | rfl
  · exact head?_ownFile .test it _
  · exact head?_ownFile .test it _
  · exact head?_ownFile .test it _
  · exact head?_ownFile .test it _
  · exact head?_ownFile .isa it _
  · exact head?_ownFile .isa it _
  · exact head?_ownFile .rtl it _

/-- An iteration that ends before the judgement changes nothing elsewhere. -/
theorem Iterated.keeps (hc : Elsewhere c) (hfate : fate ≠ .judged)
    (h : Iterated config it outcome test s trns fate s') : Keeps c s.files s'.files := by
  cases h with
  | compileFailed hbuild =>
    have hkeeps := hbuild.keeps hc
    exact hkeeps
  | isaFailed hbuild htested _ =>
    exact (hbuild.keeps hc).trans (.of_writes htested.writes fun path hpath ↦
      hc.head?_ne (head?_of_mem_isaFiles hpath))
  | repeated hbuild hscanned hdrop =>
    exact ((hbuild.keeps hc).trans (hscanned.keeps hc)).trans (keeps_dropTest hc hdrop)
  | rtlFailed hbuild hscanned _ htested =>
    exact ((hbuild.keeps hc).trans (hscanned.keeps hc)).trans (htested.keeps hc)
  | finished hbuild hscanned _ htested hfinished =>
    have htraced := ((hbuild.keeps hc).trans (hscanned.keeps hc)).trans (htested.keeps hc)
    cases hfinished with
    | interrupted hcompare _ htaken =>
      have hs₁ := congrArg Session.files hcompare.frame
      exact (htraced.trans (.of_eq hs₁)).trans (htaken.keeps hc)
    | judged => exact absurd rfl hfate

/-- The judgement and the admission of a test, with nothing changed elsewhere before and after. -/
theorem Iterated.keeps_judged (hc : Elsewhere c)
    (h : Iterated config it outcome test s trns .judged s') : ∃ symbols ret s₁ s₂ s₃,
      Keeps c s.files s₁.files ∧ Judged config it symbols ret s₁ s₂ ∧
        Admitted config it outcome test s₂ s₃ ∧ Keeps c s₃.files s'.files ∧ s₂.cNum = s.cNum ∧
        (Suffixed test.simInput → test.assertIntr = false →
          (∀ path, OwnedBy it path → path ∉ s.files.keys) →
          testFile it [] ".elf".toList ∉ s₁.files.keys) := by
  cases h with
  | isaFailed _ _ hfate => exact absurd hfate (isaEnd_ne_judged _)
  | finished hbuild hscanned _ htested hfinished =>
    have htraced := ((hbuild.keeps hc).trans (hscanned.keeps hc)).trans (htested.keeps hc)
    cases hfinished with
    | interrupted _ _ htaken =>
      rcases htaken.fate_eq with ⟨hfate, -⟩ | ⟨hfate, -⟩
      · exact nomatch hfate
      · exact absurd hfate.symm (isaEnd_ne_judged _)
    | @judged s₁ s₂ s₃ s₄ s₅ _ hcompare hintr hjudged hadmitted hclean hphase =>
      have hs₁ := congrArg Session.files hcompare.frame
      have hbefore : Keeps c s.files s₂.files := by
        refine htraced.trans (.trans (.of_eq hs₁) ?_)
        rcases hintr with rfl | ⟨-, htaken⟩
        · exact .of_eq rfl
        · exact htaken.keeps hc
      have hafter : Keeps c s₄.files s'.files := by
        refine (keeps_cleanUp hc hclean).trans (.of_eq ?_)
        rw [(updatePhase_eq_ok hphase).1]
      refine ⟨_, _, s₂, s₃, s₄, hbefore, hjudged, hadmitted, hafter, ?_, fun hx hassert hfresh ↦ ?_⟩
      · rw [hjudged.frame, frame_of_intr hintr, hcompare.frame, htested.frame, hscanned.frame,
          hbuild.frame]
      · obtain rfl := hintr.resolve_right fun htaken ↦
          absurd (hassert.symm.trans htaken.1) Bool.false_ne_true
        exact elf_not_mem hx hassert hfresh hbuild hscanned htested hcompare

end Keeps

theorem Judged.keeps_corpus {symbols : Dict Text ℕ} {ret : ℤ}
    (h : Judged config it symbols ret s s') : Keeps 'c' s.files s'.files := by
  have hreported {dir : ReportDir} {num : ℕ} {s₁ : Session}
      (hreport : Reported config it dir num s s₁) : Keeps 'c' s.files s₁.files := by
    cases hrecord : config.record with
    | false => exact .of_eq (hreport.quiet hrecord)
    | true =>
      refine .of_writes (hreport.saved hrecord).writes fun path hpath heq ↦ ?_
      have hhead := head?_of_mem_reports hpath
      rw [heq] at hhead
      exact absurd hhead (by decide)
  cases h with
  | illegal _ hreport =>
    have hkeeps := hreported hreport
    exact hkeeps
  | bug _ _ hreport =>
    have hkeeps := hreported hreport
    exact hkeeps
  | passed => exact .of_eq rfl

/-- The file of each test of the corpus, when the run is recorded. -/
def CorpusFiles (config : Config) (tests : List SimInput) (s : Session) : Prop :=
  ∀ num, s.files.get? (corpusFile num) =
    if config.record then tests[num]?.bind fun x ↦ (x.save []).toOption else none

theorem CorpusFiles.step {tests : List SimInput} {s₁ : Session} (h : CorpusFiles config tests s)
    (hnum : s.cNum = tests.length) (hnext : nextTest config it s = .ok (test, s₁))
    (hiterated : Iterated config it outcome test s₁ trns fate s') :
    CorpusFiles config (tests ++ if fate = .judged then [test.simInput] else []) s' := by
  have hc : Elsewhere 'c' := by decide
  have hfiles : s₁.files = s.files := by rw [nextTest_frame hnext]
  have hnum₁ : s₁.cNum = tests.length := by rw [nextTest_frame hnext, hnum]
  intro num
  by_cases hfate : fate = .judged
  · subst hfate
    obtain ⟨symbols, ret, s₂, s₃, s₄, hbefore, hjudged, hadmitted, hafter, hsame, -⟩ :=
      hiterated.keeps_judged hc
    have hjudge : Keeps 'c' s₂.files s₃.files := hjudged.keeps_corpus
    have hs₃ : s₃.files.get? (corpusFile num) = s.files.get? (corpusFile num) := by
      rw [← hfiles]
      exact (hbefore.trans hjudge) _ (head?_corpusFile num)
    have hs' := hafter _ (head?_corpusFile num)
    rw [if_pos rfl, hs']
    cases hrecord : config.record with
    | false =>
      rw [(hadmitted.quiet hrecord).1, hs₃, h num, hrecord]
      rfl
    | true =>
      obtain ⟨contents, hsave, hset, -⟩ := hadmitted.recorded hrecord
      have hlength : s₃.cNum = tests.length := hsame.trans hnum₁
      rw [hset, Dict.get?_set, hlength, if_pos rfl]
      by_cases heq : num = tests.length
      · rw [if_pos (congrArg corpusFile heq), heq, List.getElem?_append_right le_rfl, Nat.sub_self,
          List.getElem?_cons_zero, Option.bind_some, hsave]
        rfl
      · rw [if_neg fun hfile ↦ heq (corpusFile_injective hfile), hs₃, h num, hrecord, if_pos rfl]
        congr 1
        rcases Nat.lt_or_gt_of_ne heq with hlt | hgt
        · rw [List.getElem?_append_left hlt]
        · rw [List.getElem?_eq_none hgt.le, List.getElem?_eq_none]
          rw [List.length_append, List.length_singleton]
          exact hgt
  · rw [if_neg hfate, List.append_nil, ← h num, ← hfiles]
    exact hiterated.keeps hc hfate _ (head?_corpusFile num)

theorem corpusFiles_run {noGuide : Bool} {draws : Draws} {outcomes : List Outcome}
    {reports : List Report} (h : run config noGuide draws outcomes = .ok (reports, s)) :
    CorpusFiles config (accepted ((outcomes.zip reports).map Prod.snd)) s := by
  have hboth := run_induction (I := fun _ done s ↦
    CorpusOf (accepted (done.map Prod.snd)) s ∧ CorpusFiles config (accepted (done.map Prod.snd)) s)
    ⟨CorpusOf.start noGuide draws, fun num ↦ by split <;> rfl⟩ ?_ h
  · exact hboth.2
  · rintro it done s outcome test s₁ trns fate s' ⟨hcorpus, hfiles⟩ hnext hiterated
    rw [accepted_concat]
    exact ⟨hcorpus.step hnext hiterated.corpusStep,
      hfiles.step hcorpus.cNum_eq hnext hiterated⟩

theorem Admitted.keeps {c : Char} (hc : c ≠ 'c') (h : Admitted config it outcome test s s') :
    Keeps c s.files s'.files := by
  cases hrecord : config.record with
  | false => exact .of_eq (h.quiet hrecord).1
  | true =>
    obtain ⟨contents, -, hfiles, -⟩ := h.recorded hrecord
    rw [hfiles]
    refine .of_writes (.set _ _ _) fun path hpath heq ↦ ?_
    rw [List.mem_singleton.mp hpath, head?_corpusFile] at heq
    exact hc (Option.some.inj heq).symm

theorem Iterated.keeps_reports {c : Char} (hc : c = 'm' ∨ c = 'i') (hx : Suffixed test.simInput)
    (hintr : test.assertIntr = false) (hfresh : ∀ path, OwnedBy it path → path ∉ s.files.keys)
    (h : Iterated config it outcome test s trns fate s') : Keeps c s.files s'.files := by
  have hother : Elsewhere c ∧ c ≠ 'c' := by
    rcases hc with rfl | rfl <;> decide
  by_cases hfate : fate = .judged
  · subst hfate
    obtain ⟨symbols, ret, s₁, s₂, s₃, hbefore, hjudged, hadmitted, hafter, -, hmissing⟩ :=
      h.keeps_judged hother.1
    have hjudge := (hjudged.files_eq (hmissing hx hintr hfresh)).1
    exact ((hbefore.trans (.of_eq hjudge)).trans (hadmitted.keeps hother.2)).trans hafter
  · exact h.keeps hother.1 hfate

/-- A run of generated tests leaves no report, and a recorded one counts none. -/
structure Unreported (config : Config) (s : Session) : Prop where
  not_mem : ∀ dir kind num extension, reportFile dir kind num extension ∉ s.files.keys
  counts : config.record = true → s.mNum = 0 ∧ s.iNum = 0

theorem Unreported.step {done : List (Outcome × Report)} {s₁ : Session} (h : Unreported config s)
    (hfiles : FilesOf it done s) (hgenerated : config.inFile = none)
    (hnext : nextTest config it s = .ok (test, s₁))
    (hiterated : Iterated config it outcome test s₁ trns fate s') : Unreported config s' := by
  obtain ⟨hintr, hget⟩ := nextTest_generated hgenerated hnext
  have hx := suffixed_getWith hget
  have hframe := nextTest_frame hnext
  have hfresh (path : Text) (hpath : OwnedBy it path) : path ∉ s₁.files.keys := by
    rw [hframe]
    exact hfiles.fresh hpath
  constructor
  · intro dir kind num extension
    have hhead := head?_reportFile dir kind num extension
    have hkeeps : s'.files.get? (reportFile dir kind num extension) =
        s₁.files.get? (reportFile dir kind num extension) := by
      simp only [List.mem_cons, List.not_mem_nil, or_false] at hhead
      rcases hhead with hhead | hhead
      · exact hiterated.keeps_reports (.inl rfl) hx hintr hfresh _ hhead
      · exact hiterated.keeps_reports (.inr rfl) hx hintr hfresh _ hhead
    rw [← Dict.get?_eq_none_iff, hkeeps, hframe]
    exact Dict.get?_eq_none_iff.mpr (h.not_mem dir kind num extension)
  · intro hrecord
    obtain ⟨hm, hi⟩ := hiterated.passed hx hintr hfresh hrecord
    rw [hm, hi, hframe]
    exact h.counts hrecord

theorem unreported_run {noGuide : Bool} {draws : Draws} {outcomes : List Outcome}
    {reports : List Report} (hgenerated : config.inFile = none)
    (h : run config noGuide draws outcomes = .ok (reports, s)) : Unreported config s := by
  have hboth := run_induction (I := fun it done s ↦ FilesOf it done s ∧ Unreported config s)
    ⟨.start noGuide draws, fun _ _ _ _ ↦ List.not_mem_nil, fun _ ↦ ⟨rfl, rfl⟩⟩ ?_ h
  · exact hboth.2
  · exact fun hs hnext hiterated ↦ ⟨hs.1.step hgenerated hnext hiterated,
      hs.2.step hs.1 hgenerated hnext hiterated⟩

end ProcessorFuzz.Fuzzing
