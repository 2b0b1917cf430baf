import Mathlib.Data.List.DropRight
import ProcessorFuzz.Fuzzing.FuzzSteps
import ProcessorFuzz.Mutation.OriginalRuns

/-!
# Runs of the fuzzing loop

What a run leaves in the variables of `Run`. The corpus consists of the tests that were judged, the
global lists hold the transitions of all logs that were scanned, and the state of the process is set
by the iterations that end early.
-/

namespace ProcessorFuzz.Fuzzing

open Library Mutation Execution
open Common.Transitions (extractTransitions)

variable {config : Config} {it : ℕ} {outcome : Outcome} {test : Test} {s s' : Session} {trns : ℕ}
  {fate : Fate}

/-- A new test changes the data of the mutator only. -/
theorem nextTest_mutator (h : nextTest config it s = .ok (test, s')) :
    s'.mutator = { s.mutator with toMutator := s'.mutator.toMutator } := by
  unfold nextTest at h
  cases hfile : config.inFile with
  | none =>
    rw [hfile] at h
    obtain ⟨⟨⟨simInput, data⟩, mutator, draws⟩, hget, h⟩ := bind_eq_ok.mp h
    obtain ⟨-, rfl⟩ := Prod.mk.inj (Except.ok.inj h)
    exact RvMutator.getWith_frame hget
  | some contents =>
    rw [hfile] at h
    obtain ⟨⟨⟨simInput, data, assertIntr⟩, mutator, draws⟩, hread, h⟩ := bind_eq_ok.mp h
    obtain ⟨-, rfl⟩ := Prod.mk.inj (Except.ok.inj h)
    obtain ⟨⟨result, base, draws₁⟩, -, hread⟩ := bind_eq_ok.mp hread
    obtain ⟨-, hm⟩ := Prod.mk.inj (Except.ok.inj hread)
    obtain ⟨rfl, -⟩ := Prod.mk.inj hm
    rfl

/-- What an iteration does to the variables that tell of the corpus. -/
inductive CorpusStep (config : Config) (it : ℕ) (outcome : Outcome) (test : Test) (trns : ℕ)
    (s : Session) : Fate → Session → Prop
  | kept {s' : Session} {fate : Fate} (hfate : fate ≠ .judged) (hmutator : s'.mutator = s.mutator)
    (hnum : s'.cNum = s.cNum) (hlog : s'.covLog = s.covLog) :
    CorpusStep config it outcome test trns s fate s'
  | admitted {s' : Session} {draws draws' : Draws} (hpos : 0 < trns)
    (hphase : (s.mutator.addCorpus test.simInput).updatePhase it draws = .ok (s'.mutator, draws'))
    (hnum : s'.cNum = s.cNum + 1) : CorpusStep config it outcome test trns s .judged s'

theorem isaEnd_ne_judged (run : IsaRun) : isaEnd run ≠ some .judged := by
  rcases isaEnd_cases run with ⟨hend, -⟩ | ⟨hend, -⟩ | ⟨hend, -⟩ <;> rw [hend] <;> exact nofun

theorem Scanned.frame (h : Scanned config it outcome test s trns s') :
    s' = { s with
      transitions := s'.transitions
      stop := s'.stop
      files := s'.files } := by
  obtain ⟨ret, s₁, htested, hread⟩ := h.tested
  rw [hread.frame, htested.frame]

theorem Iterated.corpusStep (h : Iterated config it outcome test s trns fate s') :
    CorpusStep config it outcome test trns s fate s' := by
  cases h with
  | compileFailed hbuild =>
    refine .kept nofun ?_ ?_ ?_ <;> rw [hbuild.frame]
  | isaFailed hbuild htested hfate =>
    have hne : fate ≠ .judged := fun heq ↦ isaEnd_ne_judged _ (heq ▸ hfate)
    refine .kept hne ?_ ?_ ?_ <;> rw [htested.frame, hbuild.frame]
  | repeated hbuild hscanned hdrop =>
    refine .kept nofun ?_ ?_ ?_ <;>
      rw [(dropTest_eq_ok hdrop).1, hscanned.frame, hbuild.frame]
  | rtlFailed hbuild hscanned hpos htested =>
    refine .kept nofun ?_ ?_ ?_ <;> rw [htested.frame, hscanned.frame, hbuild.frame]
  | finished hbuild hscanned hpos htested hfinished =>
    cases hfinished with
    | interrupted hcompare _ htaken =>
      have hne : fate ≠ .judged := by
        rintro rfl
        rcases htaken.fate_eq with ⟨hfate, -⟩ | ⟨hfate, -⟩
        · exact nomatch hfate
        · exact isaEnd_ne_judged _ hfate.symm
      refine .kept hne ?_ ?_ ?_ <;>
        rw [htaken.frame, hcompare.frame, htested.frame, hscanned.frame, hbuild.frame]
    | @judged s₁ s₂ s₃ s₄ s₅ _ hcompare hintr hjudged hadmitted hclean hphase =>
      obtain ⟨hframe, hupdate⟩ := updatePhase_eq_ok hphase
      have hbefore : s₂.mutator = s.mutator ∧ s₂.cNum = s.cNum := by
        have hs₁ : s₁.mutator = s.mutator ∧ s₁.cNum = s.cNum := by
          rw [hcompare.frame, htested.frame, hscanned.frame, hbuild.frame]
          exact ⟨rfl, rfl⟩
        rw [frame_of_intr hintr]
        exact hs₁
      have hafter : s₅.mutator = s₂.mutator.addCorpus test.simInput ∧ s₅.cNum = s₂.cNum + 1 := by
        rw [(cleanUp_eq_ok hclean).1, hadmitted.frame, hjudged.frame]
        exact ⟨rfl, rfl⟩
      rw [hafter.1, hbefore.1] at hupdate
      refine .admitted hpos hupdate ?_
      rw [hframe]
      exact hafter.2.trans (congrArg (· + 1) hbefore.2)

/-- The tests that a run has accepted, in order. -/
def accepted (reports : List Report) : List SimInput :=
  (reports.filter fun report ↦ report.fate = .judged).map fun report ↦ report.test.simInput

theorem accepted_concat (done : List (Outcome × Report)) (outcome : Outcome) (report : Report) :
    accepted ((done ++ [(outcome, report)]).map Prod.snd) = accepted (done.map Prod.snd) ++
      if report.fate = .judged then [report.test.simInput] else [] := by
  rw [List.map_append, accepted, List.filter_append, List.map_append, accepted, List.map_singleton,
    List.filter_singleton]
  by_cases h : report.fate = .judged
  · rw [if_pos h, decide_eq_true h]
    rfl
  · rw [if_neg h, decide_eq_false h]
    rfl

/-- The corpus is the end of the list of the accepted tests, and each of them makes the next
generated tests longer by a word. -/
structure CorpusOf (accepted : List SimInput) (s : Session) : Prop where
  cNum_eq : s.cNum = accepted.length
  size_eq : s.mutator.corpusSize = 1000
  corpus_eq : s.mutator.corpus = accepted.rtake 1000
  numWords_eq : s.mutator.numWords = min (100 + accepted.length) 200

theorem rtake_concat {α : Type} (l : List α) (a : α) {n : ℕ} (hn : 0 < n) :
    (l ++ [a]).rtake n = if n < (l.rtake n ++ [a]).length then (l.rtake n ++ [a]).tail
      else l.rtake n ++ [a] := by
  have hdrop : l.rtake n ++ [a] = (l ++ [a]).drop (l.length - n) := by
    rw [List.rtake, List.drop_append_of_le_length (Nat.sub_le _ _)]
  rw [hdrop, List.tail_drop, List.length_drop, List.rtake, List.length_append, List.length_singleton]
  split
  · congr 1
    omega
  · congr 1
    omega

theorem CorpusOf.start (noGuide : Bool) (draws : Draws) : CorpusOf [] (start noGuide draws) :=
  ⟨rfl, rfl, rfl, rfl⟩

theorem CorpusOf.step {tests : List SimInput} {s₁ : Session} (h : CorpusOf tests s)
    (hnext : nextTest config it s = .ok (test, s₁))
    (hstep : CorpusStep config it outcome test trns s₁ fate s') :
    CorpusOf (tests ++ if fate = .judged then [test.simInput] else []) s' := by
  obtain ⟨hnum, hsize, hcorpus, hwords⟩ := h
  have hmutator := nextTest_mutator hnext
  have hnum₁ : s₁.cNum = s.cNum := by rw [nextTest_frame hnext]
  cases hstep with
  | kept hfate hkept hsame _ =>
    rw [if_neg hfate, List.append_nil]
    refine ⟨?_, ?_, ?_, ?_⟩
    · rw [hsame, hnum₁, hnum]
    all_goals rw [hkept, hmutator]
    · exact hsize
    · exact hcorpus
    · exact hwords
  | admitted hpos hphase hnew =>
    rw [if_pos rfl]
    have hframe := RvMutator.updatePhase_frame hphase
    refine ⟨?_, ?_, ?_, ?_⟩
    · rw [hnew, hnum₁, hnum, List.length_append, List.length_singleton]
    all_goals rw [hframe, hmutator]
    · exact hsize
    · change (if s.mutator.corpusSize < (s.mutator.corpus ++ [test.simInput]).length then _ else _) = _
      rw [hsize, hcorpus, rtake_concat _ _ (by decide)]
    · change min (s.mutator.numWords + 1) 200 = _
      rw [hwords, List.length_append, List.length_singleton]
      omega

theorem corpusOf_run {noGuide : Bool} {draws : Draws} {outcomes : List Outcome}
    {reports : List Report} (h : run config noGuide draws outcomes = .ok (reports, s)) :
    CorpusOf (accepted ((outcomes.zip reports).map Prod.snd)) s := by
  refine run_induction (I := fun _ done s ↦ CorpusOf (accepted (done.map Prod.snd)) s)
    (CorpusOf.start noGuide draws) ?_ h
  intro it done s outcome test s₁ trns fate s' hs hnext hiterated
  rw [accepted_concat]
  exact hs.step hnext hiterated.corpusStep

end ProcessorFuzz.Fuzzing
