import ProcessorFuzz.Execution.Preprocessor
import ProcessorFuzz.Mutation.OriginalRuns

/-!
# The preprocessor returns

`process` asks for data of the right size, for words with lines, and for an interrupt value for each
line of the main part. The tests of the original mutator have them all, so that an assembly file is
written whatever is drawn and whatever the template is.
-/

namespace ProcessorFuzz.Execution.Preprocessor

open Library Mutation SignatureFile
open Mutation.Original (Runnable SoundSession)

variable {x : SimInput} {data : List ℤ} {draws : Draws}

theorem Runnable.populated (hx : Runnable x) (part : Part) :
    ∀ w ∈ x.partWords part, w.populated = true := by
  intro w hw
  obtain ⟨i, hi⟩ := List.mem_iff_getElem?.mp hw
  exact (hx.toForwardTest.words part i w hi).populated

theorem Runnable.length_ints_eq (hx : Runnable x) :
    x.ints.length = (x.words.flatMap Word.retInsts).length := by
  rw [hx.length_ints, List.length_flatMap]
  congr 1
  apply List.map_congr_left
  intro w hw
  exact (hx.counted .mainPart w hw).symm

theorem Runnable.exists_item_template (hx : Runnable x) :
    ∃ template, Text.item templates x.template = .ok template :=
  ⟨_, Text.item_of_getElem? (List.getElem?_eq_getElem hx.template_lt)⟩

/-- `save` returns, with the data or without. -/
theorem exists_save_eq_ok (hx : Runnable x) (data : List ℤ) : ∃ contents, x.save data = .ok contents := by
  obtain ⟨template, htemplate⟩ := Runnable.exists_item_template hx
  exact ⟨_, SimInput.save_eq_ok (Runnable.populated hx) (Runnable.length_ints_eq hx) htemplate data⟩

theorem exists_suffixInsertion_eq_ok (suffixInsts : List Text) (draws : Draws) :
    ∃ r, suffixInsertion suffixInsts draws = .ok r := by
  apply exists_foldlM_eq_ok
  intro inst _ state
  have hdraw : Stateful.Returns (Draws.randint 0 7) state.2 fun a _ ↦ (0 ≤ a ∧ a ≤ 7) ∧ True :=
    .randint (by decide) Stateful.stable_true True.intro
  obtain ⟨⟨a, draws₁⟩, hdraw, -⟩ := hdraw
  rw [hdraw]
  exact ⟨_, rfl⟩

/-- Six sections of 64 words. -/
theorem exists_dataInsertion_eq_ok (hdata : data.length = 384) (line : Text) :
    ∃ lines, dataInsertion data 64 6 line = .ok lines := by
  apply exists_foldlM_eq_ok
  intro n hn lines
  have hlength : (n + 1) * 64 ≤ data.length := by
    have hlt := List.mem_range.mp hn
    omega
  split
  · rw [emitSection_eq_ok (by decide) hlength]
    exact ⟨_, rfl⟩
  · exact ⟨_, rfl⟩

theorem exists_assemble_eq_ok (parts : Parts) (hdata : data.length = 384)
    (templateLines : List Text) (draws : Draws) :
    ∃ r, assemble parts data 64 6 templateLines draws = .ok r := by
  apply exists_foldlM_eq_ok
  intro line _ state
  unfold expandLine
  obtain ⟨⟨suffixLines, draws₁⟩, hsuffix⟩ := exists_suffixInsertion_eq_ok
    (if Marks "_fuzz_suffix:".toList line then parts.suffixInsts else []) state.2
  obtain ⟨dataLines, hlines⟩ := exists_dataInsertion_eq_ok hdata line
  dsimp only
  rw [hsuffix, ok_bind]
  dsimp only
  rw [hlines]
  exact ⟨_, rfl⟩

/-- A test that can be run is made into an assembly file, whatever is drawn. -/
theorem exists_process_eq_ok (hx : Runnable x) (hdata : data.length = 384) (toolchain : Toolchain)
    (templateLines : List Text) (draws : Draws) :
    ∃ r, process toolchain templateLines x data false draws 6 = .ok r := by
  have hempty : data.isEmpty = false := by
    rw [List.isEmpty_eq_false_iff]
    rintro rfl
    exact absurd hdata (by decide)
  have hcheck : checkData data 6 = .ok () := by
    unfold checkData
    rw [hempty, hdata]
    rfl
  obtain ⟨template, htemplate⟩ := Runnable.exists_item_template hx
  have hbegins : x.getPrefix = .ok _ := partInsts_eq (Runnable.populated hx .prefixPart) x.numPrefix
  have hinsts : x.getInsts = .ok _ := partInsts_eq (Runnable.populated hx .mainPart) x.numWords
  have hsuffix : x.getSuffix = .ok _ := partInsts_eq (Runnable.populated hx .suffixPart) x.numSuffix
  obtain ⟨popped, hpopped⟩ := exists_popInts_eq (Runnable.length_ints_eq hx).ge
  obtain ⟨siFile, hsave⟩ := exists_save_eq_ok hx data
  refine exists_bind_eq_ok.mpr ⟨(), hcheck, exists_bind_eq_ok.mpr ⟨_, htemplate,
    exists_bind_eq_ok.mpr ⟨_, hbegins, exists_bind_eq_ok.mpr ⟨_, hinsts,
      exists_bind_eq_ok.mpr ⟨_, hsuffix, ?_⟩⟩⟩⟩⟩
  rw [List.dropLast_concat]
  refine exists_bind_eq_ok.mpr ⟨popped, hpopped, exists_bind_eq_ok.mpr ⟨siFile, hsave, ?_⟩⟩
  rw [hdata]
  obtain ⟨r, hassemble⟩ := exists_assemble_eq_ok _ hdata templateLines draws
  refine exists_bind_eq_ok.mpr ⟨r, hassemble, ?_⟩
  dsimp only
  split
  · exact ⟨_, rfl⟩
  · exact ⟨_, rfl⟩

/-- Whatever is called and whatever is drawn, `get` of the original mutator returns a test exactly
when no corpus is needed or there is a test in it. The preprocessor makes an assembly file of each
test that is returned, whatever the template and the toolchain are. -/
theorem exists_get_original_iff {maxDataSeeds : ℕ} (hpos : 0 < maxDataSeeds) (corpusSize : ℕ)
    (noGuide : Bool) (calls : List FuzzCall) (it : ℕ) (draws : Draws) :
    let m := ((Session.start maxDataSeeds corpusSize noGuide).fuzzWith Original.mutateWords
      calls).mutator
    ((∃ r, m.getWith Original.mutateWords it false draws = .ok r) ↔
      m.phase = .generation ∨ m.corpus ≠ []) ∧
    ∀ x data m' draws', m.getWith Original.mutateWords it false draws = .ok ((x, data), m', draws') →
      ∀ toolchain templateLines draws,
        ∃ r, process toolchain templateLines x data false draws 6 = .ok r := by
  intro m
  have hm : Original.Sound m :=
    ((SoundSession.start hpos corpusSize noGuide).fuzzWith calls).mutator
  refine ⟨⟨?_, ?_⟩, fun x data m' draws' h ↦ ?_⟩
  · rintro ⟨⟨⟨x, data⟩, m', draws'⟩, h⟩
    exact or_iff_not_imp_left.mpr (Original.corpus_ne_nil_of_getWith h)
  · intro hne
    obtain ⟨x, data, m', draws', h, -⟩ :=
      hm.exists_getWith (or_iff_not_imp_left.mp hne) it draws
    exact ⟨_, h⟩
  · have hgot := hm.getWith h
    exact exists_process_eq_ok hgot.runnable hgot.length_data

/-- A mutation of the first test. -/
theorem exists_get_original_iff_mutation :
    let calls := [FuzzCall.get 0 false fun _ ↦ 0, .addCorpus 0, .updatePhase 1 fun _ ↦ 2 ^ 52]
    let m := ((Session.start 1 10 false).fuzzWith Original.mutateWords calls).mutator
    m.phase = .mutation ∧ ∃ r, m.getWith Original.mutateWords 1 false (fun _ ↦ 0) = .ok r := by
  intro calls m
  have hstart : (Session.start 1 10 false).mutator.Seeded :=
    (Session.consistent_start Nat.one_pos 10 false).seeded
  obtain ⟨x, m₁, draws₁, draws₂, -, hget⟩ := exists_get_eq_of_generation hstart rfl
    (by decide : 0 < 100) 0 false (stable_const 0) rfl
  have hgetWith : (Session.start 1 10 false).mutator.getWith Original.mutateWords 0 false
      (fun _ ↦ 0) = .ok ((x, Mutator.newWords draws₁), m₁, draws₂) :=
    (RvMutator.getWith_of_generation rfl 0 false _).trans hget
  have hframe := RvMutator.getWith_frame hgetWith
  have hm : m = { m₁.addCorpus x with phase := .mutation } := by
    have hphase : (m₁.addCorpus x).updatePhase 1 (fun _ ↦ 2 ^ 52) =
        .ok ({ m₁.addCorpus x with phase := .mutation }, fun _ ↦ 2 ^ 52) := by
      rw [hframe]
      rfl
    simp only [m, calls, Session.fuzzWith, List.foldl_cons, List.foldl_nil, Session.fuzzStepWith,
      hgetWith, List.getElem?_cons_zero, hphase]
  have hcorpus : m.corpus = [x] := by
    rw [hm, hframe]
    rfl
  refine ⟨by rw [hm], ?_⟩
  refine (exists_get_original_iff Nat.one_pos 10 false calls 1 fun _ ↦ 0).1.mpr (.inr ?_)
  change m.corpus ≠ []
  rw [hcorpus]
  exact List.cons_ne_nil x []

end ProcessorFuzz.Execution.Preprocessor
