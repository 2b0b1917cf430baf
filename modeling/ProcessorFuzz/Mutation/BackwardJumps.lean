import ProcessorFuzz.Mutation.ForwardRuns

/-!
# Jumps of inserted words

The refactored mutator populates a word when it inserts it, with the number of the word in the
generator as its label. So the map of `reset_labels` is filled from two numberings, that of the
tests and that of the generator, and a word that is inserted late may name a word of the test that
stands before it. A session in which no list that comes to `reset_labels` is like that has only
tests that jump forward.
-/

namespace ProcessorFuzz.Mutation

open Library Library.Stateful Generating RvMutator

section Loop

variable {part : Part} {s : InstGenerator × Draws} {maxLabel : ℤ}

/-- The loop of `mutate_words` keeps printed words and inserts printed words. -/
theorem ensures_mutateLoop_linked {words : List GenWord} (h : ∀ w ∈ words, Linked part w.toWord)
    (hnum : s.1.num part + words.length ≤ 100000) :
    Ensures (mutateLoop part maxLabel words) s fun words' s' ↦
      (∀ w ∈ words', Linked part w.toWord) ∧ ∀ q ≠ part, s'.1.num q = s.1.num q := by
  induction words generalizing s with
  | nil => exact .pure ⟨List.forall_mem_nil _, fun _ _ ↦ rfl⟩
  | cons word words ih =>
    obtain ⟨hword, hwords⟩ := List.forall_mem_cons.mp h
    rw [List.length_cons] at hnum
    apply Ensures.bind (Q := fun _ s₁ ↦ s₁.1 = s.1) (.onSnd (Ensures.trivial.mono fun _ _ _ ↦ rfl))
    intro rand s₁ heq
    have hrest : s₁.1.num part + words.length ≤ 100000 := by
      rw [heq]
      omega
    split
    · apply Ensures.bind (ih hwords hrest)
      intro words' s₂ ⟨hwords', hothers⟩
      refine .pure ⟨List.forall_mem_cons.mpr ⟨hword, hwords'⟩, fun q hq ↦ ?_⟩
      rw [hothers q hq, heq]
    · split
      · apply Ensures.bind (ensures_jumpTemplate part)
        intro newWord s₂ ⟨htemplate, hlabel, hnum₂⟩
        have hfits : newWord.label < 100000 := by
          rw [hlabel, heq]
          omega
        apply Ensures.bind ((ensures_linked htemplate hfits).and
          (keepsNum_populateWord newWord maxLabel part s₂))
        intro newWord' s₃ ⟨⟨hnew, _⟩, hnum₃⟩
        have hcount : s₃.1.num part + words.length ≤ 100000 := by
          rw [hnum₃, hnum₂, Function.update_self, heq]
          omega
        apply Ensures.bind (ih hwords hcount)
        intro words' s₄ ⟨hwords', hothers⟩
        refine .pure ⟨List.forall_mem_cons.mpr ⟨hword, List.forall_mem_cons.mpr ⟨hnew, hwords'⟩⟩,
          fun q hq ↦ ?_⟩
        rw [hothers q hq, hnum₃, hnum₂, Function.update_of_ne hq, heq]
      · refine (ih hwords hrest).mono fun words' s₂ ⟨hwords', hothers⟩ ↦ ⟨hwords', fun q hq ↦ ?_⟩
        rw [hothers q hq, heq]

end Loop

/-- The list with which `mutate_words` calls `reset_labels` has no word of control flow that names a
word which is not behind it, unless it has another word with this label behind it. -/
def AheadMutation : MutationGuard := fun part seedWords s ↦
  Ensures (mutateLoop part (lastLabel seedWords) seedWords) s fun words _ ↦
    Ahead part (words.take (maxWords part))

theorem mutatesForward_mutateWords : MutatesForward mutateWords AheadMutation := by
  intro part seedWords s hseed hnum hahead
  have hloop : Ensures (mutateLoop part (lastLabel seedWords) seedWords) s fun words s' ↦
      ((∀ w ∈ words, Linked part w.toWord) ∧ ∀ q ≠ part, s'.1.num q = s.1.num q) ∧
        Ahead part (words.take (maxWords part)) := by
    refine (ensures_mutateLoop_linked (fun w hw ↦ hseed.linked hw) ?_).and hahead
    have hle := hseed.length_le
    omega
  apply Ensures.bind hloop
  intro words s₁ ⟨⟨hwords, hothers⟩, hahead⟩
  have hlength : (words.take (maxWords part)).length ≤ 200 := by
    have hmax : maxWords part ≤ 200 := by cases part <;> decide
    rw [List.length_take]
    omega
  have hlinked : ∀ w ∈ words.take (maxWords part), Linked part w.toWord :=
    fun w hw ↦ hwords w (List.mem_of_mem_take hw)
  have hpreparing : Ensures (resetLabels (words.take (maxWords part)) part) s₁.2 fun words' _ ↦
      PreparedPart part words' :=
    ensures_resetLabels_prepared hlength (fun w hw ↦ .inr (hlinked w hw)) hahead
  have hreset := hpreparing.and
    (wordInvariant_populated.resetLabels fun w hw ↦ (hlinked w hw).populated)
  apply Ensures.bind (Q := fun words' s₂ ↦ (PreparedPart part words' ∧
    ∀ w ∈ words', w.populated = true) ∧ s₂.1 = s₁.1) (.onSnd (hreset.mono fun _ _ h ↦ ⟨h, rfl⟩))
  intro words' s₂ ⟨⟨hprepared, hpopulated⟩, heq⟩
  constructor
  intro r hr
  rw [wordInvariant_populated.mapM_populated hpopulated] at hr
  obtain rfl := Except.ok.inj hr
  exact ⟨hprepared, fun q hq ↦ by rw [heq, hothers q hq]⟩

/-- A test is generated and kept in the corpus, and the phase becomes mutation. -/
def corpusCalls : List FuzzCall :=
  [.get 0 false fun _ ↦ 0, .addCorpus 0, .updatePhase 10 fun _ ↦ 2 ^ 51]

/-- Outcomes with which the words of the first two parts are dropped. -/
def DropsFirst (draws : Draws) : Prop := ∀ i < 104, draws i = 2 ^ 53 - 1

/-- The parts of a generated test have these many words. -/
structure Generated (x : SimInput) : Prop where
  length_prefixWords : x.prefixWords.length = 3
  length_words : x.words.length = 100
  length_suffixWords : x.suffixWords.length = 5

/-- A generated test has all the words that the mutator may generate. -/
theorem generated_get {m m' : RvMutator} (hphase : m.phase = .generation) {it : ℕ}
    {assertIntr : Bool} {draws draws' : Draws} {x : SimInput} {data : List ℤ}
    (h : m.get it assertIntr draws = .ok ((x, data), m', draws')) (hnum : m.numWords = 100) :
    Generated x := by
  have hpopulate {part : Part} {words : List GenWord} {s : InstGenerator × Draws} :
      Ensures (populateWords words part) s fun words' _ ↦ words'.length = words.length := by
    refine (Ensures.mapM (I := fun _ ↦ True) (C := fun _ _ ↦ True)
      (fun _ _ _ _ ↦ Ensures.trivial.mono fun _ _ _ ↦ ⟨True.intro, True.intro⟩) True.intro).mono
      fun words' _ h ↦ h.1.length_eq.symm
  have hparts : Ensures m.makeParts (InstGenerator.start, draws) fun parts _ ↦
      (parts.words .prefixPart).length = 3 ∧ (parts.words .mainPart).length = m.numWords ∧
        (parts.words .suffixPart).length = 5 := by
    unfold makeParts
    rw [hphase]
    apply Ensures.bind (ensures_templates_numbered .prefixPart _)
    intro prefixWords s₁ ⟨hlength₁, _, _⟩
    apply Ensures.bind (ensures_templates_numbered .mainPart _)
    intro words s₂ ⟨hlength₂, _, _⟩
    apply Ensures.bind (ensures_templates_numbered .suffixPart _)
    intro suffixWords s₃ ⟨hlength₃, _, _⟩
    rw [List.length_range] at hlength₁ hlength₂ hlength₃
    exact .pure ⟨hlength₁, hlength₂, hlength₃⟩
  have hdraft : Ensures (m.makeDraft assertIntr) (InstGenerator.start, draws) fun draft _ ↦
      draft.prefixWords.length = 3 ∧ draft.words.length = m.numWords ∧
        draft.suffixWords.length = 5 := by
    apply Ensures.bind hparts
    intro parts s₁ ⟨hbegins, hmain, hsuffix⟩
    apply Ensures.bind hpopulate
    intro prefixWords s₂ hlength₁
    apply Ensures.bind hpopulate
    intro words s₃ hlength₂
    apply Ensures.bind hpopulate
    intro suffixWords s₄ hlength₃
    apply Ensures.bind .trivial
    intro ints s₅ _
    exact .pure ⟨hlength₁.trans hbegins, hlength₂.trans hmain, hlength₃.trans hsuffix⟩
  obtain ⟨⟨draft, s⟩, hrun, hfinish⟩ := bind_eq_ok.mp h
  have hwords := (finish_eq_ok hfinish).1
  have hbegins : x.prefixWords = draft.prefixWords := congrFun hwords .prefixPart
  have hmain : x.words = draft.words := congrFun hwords .mainPart
  have hsuffix : x.suffixWords = draft.suffixWords := congrFun hwords .suffixPart
  obtain ⟨hlength₁, hlength₂, hlength₃⟩ := hdraft.of_eq_ok _ hrun
  exact ⟨hbegins ▸ hlength₁, hmain ▸ hlength₂.trans hnum, hsuffix ▸ hlength₃⟩

theorem Session.fuzz_concat (s : Session) (calls : List FuzzCall) (call : FuzzCall) :
    s.fuzz (calls ++ [call]) = (s.fuzz calls).fuzzStep call := by
  rw [fuzz, fuzz, List.foldl_append, List.foldl_cons, List.foldl_nil]

/-- A session that may mutate its only test. -/
structure CorpusSession (s : Session) (x : SimInput) : Prop where
  phase_eq : s.mutator.phase = .mutation
  corpus_eq : s.mutator.corpus = [x]
  tracked : s.Tracked
  forward : ForwardTest x
  generated : Generated x

theorem exists_corpusSession :
    ∃ x, CorpusSession ((Session.start 1 10 false).fuzz corpusCalls) x := by
  have h₀ := Session.tracked_start Nat.one_pos 10 false
  obtain ⟨x₀, m₀, _, draws', rfl, hget⟩ := exists_get_eq_of_generation h₀.consistent.seeded rfl
    (by decide : 0 < 100) 0 false (stable_const 0) rfl
  have hframe := (RvMutator.getStep h₀.consistent.seeded h₀.consistent.corpus hget).frame
  have hguard : GuardedGet mutateWords AheadMutation (Session.start 1 10 false).mutator
      (fun _ ↦ 0) := True.intro
  have hforward : ForwardTest x₀ := by
    rw [← getWith_mutateWords] at hget
    exact (forwardTest_getWith mutatesForward_mutateWords (List.forall_mem_nil _)
      (by decide : 100 ≤ 200) hguard hget).1
  have hsize : (m₀.addCorpus x₀).corpusSize = 10 ∧ (m₀.addCorpus x₀).noGuide = false ∧
      (m₀.addCorpus x₀).corpus = [x₀] := by
    rw [hframe]
    exact ⟨rfl, rfl, rfl⟩
  have hphase : (m₀.addCorpus x₀).updatePhase 10 (fun _ ↦ 2 ^ 51) =
      .ok ({ m₀.addCorpus x₀ with phase := .mutation }, fun _ ↦ 2 ^ 51) := by
    have hguided : ¬ (10 * 10 < (m₀.addCorpus x₀).corpusSize ∨
        (m₀.addCorpus x₀).noGuide = true) := by
      rw [hsize.1, hsize.2.1]
      decide
    rw [RvMutator.updatePhase, if_neg hguided]
    rfl
  have hcall₀ : (Session.start 1 10 false).fuzzStep (.get 0 false fun _ ↦ 0) =
      ⟨m₀, [⟨x₀, Mutator.newWords fun _ ↦ 0, .get .generation⟩]⟩ := by
    rw [Session.fuzzStep, hget]
    rfl
  have hcall₁ : Session.fuzzStep
      ⟨m₀, [⟨x₀, Mutator.newWords fun _ ↦ 0, .get .generation⟩]⟩ (.addCorpus 0) =
        ⟨m₀.addCorpus x₀, [⟨x₀, Mutator.newWords fun _ ↦ 0, .get .generation⟩]⟩ := rfl
  have hcalls : (Session.start 1 10 false).fuzz corpusCalls =
      ⟨{ m₀.addCorpus x₀ with phase := .mutation },
        [⟨x₀, Mutator.newWords fun _ ↦ 0, .get .generation⟩]⟩ := by
    rw [Session.fuzz, corpusCalls, List.foldl_cons, List.foldl_cons, List.foldl_cons,
      List.foldl_nil, hcall₀, hcall₁, Session.fuzzStep, hphase]
  have h₃ := h₀.fuzz corpusCalls
  rw [hcalls] at h₃ ⊢
  exact ⟨x₀, rfl, hsize.2.2, h₃, hforward, generated_get rfl hget rfl⟩

section Corpus

variable {m : RvMutator} {entry : SimInput} {draws : Draws}

/-- The seed is the only test. -/
theorem mutationSeed_eq (hentry : m.corpus = [entry]) : m.mutationSeed draws =
    .ok ({ words := entry.seedWords
           parent := some (entry.dataSeed, entry.template)
           nameSuffix := "_mut_".toList ++ Text.str entry.it }, draws.rest) := by
  have hchoice : Draws.choice [entry] draws = .ok (entry, draws.rest) := by
    rw [Draws.choice, List.length_singleton, Nat.mod_one]
    rfl
  unfold mutationSeed
  rw [hentry, bind_eq, hchoice]
  rfl

theorem length_seedWords (hgenerated : Generated entry) :
    (entry.seedWords .prefixPart).length = 3 ∧ (entry.seedWords .mainPart).length = 100 ∧
      (entry.seedWords .suffixPart).length = 5 :=
  ⟨(List.length_map _).trans hgenerated.length_prefixWords,
    (List.length_map _).trans hgenerated.length_words,
    (List.length_map _).trans hgenerated.length_suffixWords⟩

/-- The words before the suffix are dropped. -/
theorem mutateWords_firstParts (hgenerated : Generated entry) (hdrop : DropsFirst draws)
    (g : InstGenerator) :
    mutateWords (entry.seedWords .prefixPart) .prefixPart (maxWords .prefixPart) (g, draws.rest) =
        .ok ([], (g, fun i ↦ draws.rest (i + 3))) ∧
      mutateWords (entry.seedWords .mainPart) .mainPart (maxWords .mainPart)
        (g, fun i ↦ draws.rest (i + 3)) = .ok ([], (g, fun i ↦ draws (i + 104))) := by
  obtain ⟨hbegins, hmain, -⟩ := length_seedWords hgenerated
  have hfirst := @mutateWords_drops .prefixPart g draws.rest (entry.seedWords .prefixPart)
    fun i hi ↦ hdrop (i + 1) (by omega)
  have hsecond := @mutateWords_drops .mainPart g (fun i ↦ draws.rest (i + 3))
    (entry.seedWords .mainPart) fun i hi ↦ hdrop (i + 3 + 1) (by omega)
  rw [hbegins] at hfirst
  rw [hmain] at hsecond
  exact ⟨hfirst _, hsecond _⟩

/-- Only the words of the suffix are left. -/
theorem exists_makeParts_suffix {session : Session} (h : CorpusSession session entry)
    (hdrop : DropsFirst draws) {words : List GenWord} {s : InstGenerator × Draws}
    (hwords : mutateWords (entry.seedWords .suffixPart) .suffixPart 5
      (InstGenerator.start, fun i ↦ draws (i + 104)) = .ok (words, s)) :
    ∃ parts, session.mutator.makeParts (InstGenerator.start, draws) = .ok (parts, s) ∧
      parts.words .prefixPart = [] ∧ parts.words .mainPart = [] ∧
        parts.words .suffixPart = words := by
  have hseed : onSnd session.mutator.mutationSeed (InstGenerator.start, draws) =
      .ok ({ words := entry.seedWords
             parent := some (entry.dataSeed, entry.template)
             nameSuffix := "_mut_".toList ++ Text.str entry.it },
        (InstGenerator.start, draws.rest)) := by
    rw [onSnd, mutationSeed_eq h.corpus_eq]
    rfl
  obtain ⟨hfirst, hsecond⟩ := mutateWords_firstParts h.generated hdrop InstGenerator.start
  have hlast : mutateWords (entry.seedWords .suffixPart) .suffixPart (maxWords .suffixPart)
      (InstGenerator.start, fun i ↦ draws (i + 104)) = .ok (words, s) := hwords
  unfold makeParts
  rw [h.phase_eq]
  dsimp only
  rw [bind_eq, hseed, ok_bind, mutateParts, bind_eq, hfirst, ok_bind, bind_eq, hsecond, ok_bind,
    bind_eq, hlast, ok_bind]
  exact ⟨_, rfl, rfl, rfl, rfl⟩

/-- The test that is returned has the words of the suffix. -/
theorem exists_get_suffix {session : Session} (h : CorpusSession session entry)
    (hdrop : DropsFirst draws) {words : List GenWord} {s : InstGenerator × Draws}
    (hwords : mutateWords (entry.seedWords .suffixPart) .suffixPart 5
      (InstGenerator.start, fun i ↦ draws (i + 104)) = .ok (words, s))
    (hpopulated : ∀ w ∈ words, w.populated = true) (it : ℕ) : ∃ x data m draws',
      session.mutator.get it false draws = .ok ((x, data), m, draws') ∧
        x.partWords .suffixPart = words.map GenWord.toWord := by
  have hdraft : Returns (session.mutator.makeDraft false) (InstGenerator.start, draws)
      fun draft _ ↦ draft.suffixWords = words.map GenWord.toWord := by
    obtain ⟨parts, hparts, hempty₁, hempty₂, hsuffix⟩ := exists_makeParts_suffix h hdrop hwords
    rw [← hsuffix] at hpopulated
    unfold makeDraft
    rw [Returns, bind_eq, hparts, ok_bind, hempty₁, hempty₂, bind_eq,
      populateWords_eq (List.forall_mem_nil _), ok_bind, bind_eq,
      populateWords_eq (List.forall_mem_nil _), ok_bind, bind_eq, populateWords_eq hpopulated]
    exact ⟨_, rfl, congrArg (List.map GenWord.toWord) hsuffix⟩
  obtain ⟨⟨draft, s'⟩, hdraft, hdraftWords⟩ := hdraft
  have hparent : session.mutator.ParentOf draws draft.parent :=
    (RvMutator.makeDraft_parent session.mutator false
      (InstGenerator.start, draws)).of_eq_ok _ hdraft
  obtain ⟨x, data, base, draws', hfinish, -⟩ :=
    RvMutator.finish_eq h.tracked.consistent.seeded (hparent.mem h.tracked.consistent.corpus) it
      s'.2
  refine ⟨x, data, _, draws', bind_eq_ok.mpr ⟨_, hdraft, hfinish⟩, ?_⟩
  rw [(finish_eq_ok hfinish).1]
  exact hdraftWords

end Corpus

/-- All words of the suffix are kept. -/
theorem returns_mutateWords_keeps {words : List GenWord} (hseed : SeedPart .suffixPart words)
    (hlength : words.length = 5) (g : InstGenerator) :
    Returns (mutateWords words .suffixPart 5) (g, fun _ ↦ 0) fun words' _ ↦
      words'.length = 5 ∧ ∀ w ∈ words', w.populated = true := by
  have htake : words.take 5 = words := List.take_of_length_le hlength.le
  have hreset := (returns_resetLabels_reset (fun w hw _ ↦ (hseed.linked hw).toLabelled)
    (by omega) fun _ ↦ 0).and_ensures
      (wordInvariant_populated.resetLabels fun w hw ↦ (hseed.linked hw).populated)
  obtain ⟨⟨words', draws'⟩, hrun, ⟨hlength', -⟩, hpopulated⟩ := hreset
  refine ⟨(words', (g, draws')), ?_, hlength'.trans hlength, hpopulated⟩
  have hreset : onSnd (resetLabels (words.take 5) .suffixPart) (g, fun _ ↦ 0) =
      .ok (words', (g, draws')) := by
    rw [htake, onSnd, hrun]
    rfl
  unfold mutateWords
  rw [bind_eq, mutateLoop_keeps, ok_bind, bind_eq, hreset, ok_bind]
  exact wordInvariant_populated.mapM_populated hpopulated _

/-- Outcomes with which the words of the suffix are kept, and no others. -/
def keptDraws : Draws := fun i ↦ if i < 104 then 2 ^ 53 - 1 else 0

theorem dropsFirst_keptDraws : DropsFirst keptDraws := fun _ hi ↦ if_pos hi

/-- Words at their places name later ones. -/
theorem SeedPart.ahead {part : Part} {words : List GenWord} (h : SeedPart part words) :
    Ahead part words := by
  rintro i w m hw - hcontrol href ⟨q, hq, w', hw', -, hlabel'⟩
  obtain ⟨n, hforward⟩ := h.words i w hw
  obtain ⟨n', hforward'⟩ := h.words q w' hw'
  have hlater := (hforward.later hcontrol).2 m href
  have hplace : (q : ℤ) = m := hforward'.label_eq.symm.trans hlabel'
  omega

theorem guardedParts_keptDraws {entry : SimInput} (hforward : ForwardTest entry)
    (hgenerated : Generated entry) {seed : Parts} (hseed : seed.words = entry.seedWords) :
    GuardedParts mutateWords AheadMutation seed (InstGenerator.start, keptDraws.rest) := by
  obtain ⟨hbegins, hmain, hsuffix⟩ := length_seedWords hgenerated
  obtain ⟨hfirst, hsecond⟩ := mutateWords_firstParts hgenerated dropsFirst_keptDraws
    InstGenerator.start
  have hnone (part : Part) : Ahead part (([] : List GenWord).take (maxWords part)) := by
    intro i w m hw
    rw [List.take_nil, List.getElem?_nil] at hw
    cases hw
  have hzero : (fun i ↦ keptDraws (i + 104)) = fun _ ↦ 0 := by
    funext i
    exact if_neg (by omega)
  rw [hzero] at hsecond
  rw [GuardedParts, hseed]
  refine ⟨Returns.ensures ⟨_, mutateLoop_drops fun i hi ↦ ?_, hnone _⟩,
    Returns.ensures ⟨_, hfirst, Returns.ensures ⟨_, mutateLoop_drops fun i hi ↦ ?_, hnone _⟩,
      Returns.ensures ⟨_, hsecond, Returns.ensures ⟨_, mutateLoop_keeps _ _ _ _, ?_⟩⟩⟩⟩
  · exact dropsFirst_keptDraws (i + 1) (by omega)
  · exact dropsFirst_keptDraws (i + 3 + 1) (by omega)
  · have htake : (entry.seedWords .suffixPart).take (maxWords .suffixPart) =
        entry.seedWords .suffixPart := List.take_of_length_le hsuffix.le
    have hahead := (hforward.seedPart .suffixPart).ahead
    rw [← htake] at hahead
    exact hahead

theorem guardedRun_keptDraws : GuardedRun mutateWords AheadMutation (Session.start 1 10 false)
    (corpusCalls ++ [.get 1 false keptDraws]) := by
  obtain ⟨x, hsession⟩ := exists_corpusSession
  have hfirst : GuardedRun mutateWords AheadMutation (Session.start 1 10 false) corpusCalls :=
    ⟨True.intro, True.intro, True.intro, True.intro⟩
  apply guardedRun_concat hfirst
  rw [Session.fuzzWith, Session.fuzzStepWith_mutateWords]
  change GuardedGet mutateWords AheadMutation
    ((Session.start 1 10 false).fuzz corpusCalls).mutator keptDraws
  unfold GuardedGet
  rw [hsession.phase_eq]
  exact Returns.ensures ⟨_, mutationSeed_eq hsession.corpus_eq,
    guardedParts_keptDraws hsession.forward hsession.generated rfl⟩

/-- Whatever is called and whatever is drawn, the refactored mutator returns tests that jump
forward, as long as no call of `get` inserts a word of control flow that names a word before it and
no word behind it. -/
theorem forward_of_aheadMutation (maxDataSeeds corpusSize : ℕ) (noGuide : Bool)
    (calls : List FuzzCall) (hahead : GuardedRun mutateWords AheadMutation
      (Session.start maxDataSeeds corpusSize noGuide) calls) :
    ∀ r ∈ ((Session.start maxDataSeeds corpusSize noGuide).fuzz calls).returned,
      ∀ part, ForwardPart part (r.simInput.partWords part) ∧
        ∃ lines, r.simInput.emitted part = .ok lines ∧
          ∀ m ≤ (r.simInput.partWords part).length, ∃ line ∈ lines,
            Word.labelText part m <+: line := by
  have hsession := (forwardSession_start maxDataSeeds corpusSize noGuide).fuzzWith
    mutatesForward_mutateWords hahead
  rw [Session.fuzzWith, Session.fuzzStepWith_mutateWords] at hsession
  intro r hr part
  have htest := hsession.returned r hr
  exact ⟨htest.words part, htest.exists_label part⟩

/-- A run in which a test of the corpus is mutated: the mutated test jumps forward. -/
theorem forward_keptDraws : ∃ r ∈ ((Session.start 1 10 false).fuzz
    (corpusCalls ++ [.get 1 false keptDraws])).returned, r.origin = .get .mutation ∧
      (r.simInput.partWords .suffixPart).length = 5 ∧
        ∀ part, ForwardPart part (r.simInput.partWords part) := by
  obtain ⟨entry, hsession⟩ := exists_corpusSession
  obtain ⟨⟨words, s⟩, hwords, hlength, hpopulated⟩ := returns_mutateWords_keeps
    (hsession.forward.seedPart .suffixPart) (length_seedWords hsession.generated).2.2
    InstGenerator.start
  have hzero : (fun i ↦ keptDraws (i + 104)) = fun _ ↦ 0 := by
    funext i
    exact if_neg (by omega)
  rw [← hzero] at hwords
  obtain ⟨x, data, m, draws', hget, hsuffix⟩ :=
    exists_get_suffix hsession dropsFirst_keptDraws hwords hpopulated 1
  have hreturned : (⟨x, data, .get .mutation⟩ : Returned) ∈ ((Session.start 1 10 false).fuzz
      (corpusCalls ++ [.get 1 false keptDraws])).returned := by
    rw [Session.fuzz_concat, Session.fuzzStep, hget, ← hsession.phase_eq]
    exact List.mem_cons_self
  refine ⟨_, hreturned, rfl, ?_, fun part ↦
    (forward_of_aheadMutation 1 10 false _ guardedRun_keptDraws _ hreturned part).1⟩
  rw [hsuffix, List.length_map, hlength]

/-- Outcomes with which the words before the suffix are dropped and those of the suffix are kept,
with a new word behind the second one. -/
def backDraws : Draws := fun i ↦ if i < 104 then 2 ^ 53 - 1 else if i = 105 then 2 ^ 52 else 0

/-- The mutation of the test inserts a return. -/
def backCalls : List FuzzCall := corpusCalls ++ [.get 1 false backDraws]

theorem dropsFirst_backDraws : DropsFirst backDraws := fun _ hi ↦ if_pos hi

theorem exists_eq_of_length_eq_five {α : Type} {l : List α} (h : l.length = 5) :
    ∃ a b c d e, l = [a, b, c, d, e] := by
  obtain ⟨a, l, rfl⟩ := List.exists_of_length_succ l h
  obtain ⟨b, l, rfl⟩ := List.exists_of_length_succ l (Nat.succ.inj h)
  obtain ⟨c, d, e, rfl⟩ := List.length_eq_three.mp (Nat.succ.inj (Nat.succ.inj h))
  exact ⟨a, b, c, d, e, rfl⟩

/-- The word that is inserted: a return to the label 1. -/
theorem exists_insertedReturn : ∃ w g, (do
      let newWord ← getWord .suffixPart
      populateWord newWord 4 .suffixPart : Generating GenWord) (InstGenerator.start, fun _ ↦ 0) =
        .ok (w, (g, fun _ ↦ 0)) ∧ Linked .suffixPart w.toWord ∧ w.label = 0 ∧
          IsControlFlow w.insts ∧ w.References .suffixPart 1 := by
  have hword : (match (do
        let newWord ← getWord .suffixPart
        populateWord newWord 4 .suffixPart : Generating GenWord)
          (InstGenerator.start, fun _ ↦ 0) with
      | .ok (w, _) => decide (w.label = 0 ∧ IsControlFlow w.insts ∧
          Text.ljust 42 "la x1, _s1".toList ∈ w.texts)
      | .error _ => false) = true := by
    decide +kernel
  have hreturns : Returns (do
      let newWord ← getWord .suffixPart
      populateWord newWord 4 .suffixPart : Generating GenWord) (InstGenerator.start, fun _ ↦ 0)
      fun _ s ↦ s.2 = fun _ ↦ 0 := by
    apply Returns.bind (returns_getWord (stable_const 0) rfl .suffixPart)
    intro newWord s₁ ⟨hgot, hs₁⟩
    have hlabel : newWord.label = 0 := hgot.label_eq
    exact (returns_populateWord (stable_const 0) hs₁ hgot.template (by decide)
      (fun _ ↦ by omega) .suffixPart).mono fun _ _ h ↦ h.2
  have hlinked : Ensures (do
      let newWord ← getWord .suffixPart
      populateWord newWord 4 .suffixPart : Generating GenWord) (InstGenerator.start, fun _ ↦ 0)
      fun w _ ↦ Linked .suffixPart w.toWord := by
    apply Ensures.bind (ensures_jumpTemplate .suffixPart)
    intro newWord s₁ ⟨htemplate, hlabel, _⟩
    have hfits : newWord.label < 100000 := by
      rw [hlabel]
      decide
    exact (ensures_linked htemplate hfits).mono fun _ _ h ↦ h.1
  obtain ⟨⟨w, g, draws⟩, hrun, rfl⟩ := hreturns
  rw [hrun] at hword
  obtain ⟨hlabel, hcontrol, htext⟩ := of_decide_eq_true hword
  refine ⟨w, g, hrun, hlinked.of_eq_ok _ hrun, hlabel, hcontrol, _, htext, "la x1".toList, ?_⟩
  have href : RefersTo .suffixPart "la x1, _s1".toList "la x1".toList 1 [] :=
    ⟨by decide, by decide, by decide, fun c hc ↦ absurd hc (Option.not_mem_none c)⟩
  obtain ⟨n, hpad⟩ := padded_ljust 42 "la x1, _s1".toList
  exact ⟨_, hpad ▸ href.padded n⟩

/-- The suffix of a test, with the return behind its second word. -/
theorem exists_mutateLoop_backDraws {w₀ w₁ w₂ w₃ w₄ : GenWord} : ∃ w g,
    mutateLoop .suffixPart 4 [w₀, w₁, w₂, w₃, w₄]
      (InstGenerator.start, fun i ↦ backDraws (i + 104)) =
        .ok ([w₀, w₁, w, w₂, w₃, w₄], (g, fun _ ↦ 0)) ∧ Linked .suffixPart w.toWord ∧
      w.label = 0 ∧ IsControlFlow w.insts ∧ w.References .suffixPart 1 := by
  obtain ⟨w, g, hrun, hword⟩ := exists_insertedReturn
  refine ⟨w, g, ?_, hword⟩
  have hrest : Draws.rest (fun i ↦ backDraws (i + 104)) = insertFirst := by
    funext i
    have hindex : i + 1 + 104 = 105 ↔ i = 0 := by omega
    rw [Draws.rest, backDraws, insertFirst, if_neg (by omega)]
    simp only [hindex]
  have hzero : insertFirst.rest = fun _ ↦ 0 := by
    funext i
    rw [Draws.rest, insertFirst, if_neg (Nat.succ_ne_zero i)]
  have hfirst : onSnd Draws.random (InstGenerator.start, fun i ↦ backDraws (i + 104)) =
      .ok (0 % 2 ^ 53, (InstGenerator.start, insertFirst)) := by
    rw [← hrest]
    rfl
  have hsecond : onSnd Draws.random (InstGenerator.start, insertFirst) =
      .ok (2 ^ 52 % 2 ^ 53, (InstGenerator.start, fun _ ↦ 0)) := by
    rw [← hzero]
    rfl
  have hkeep : Draws.below (0 % 2 ^ 53) 1 2 = true := by decide
  have hadd : Draws.below (2 ^ 52 % 2 ^ 53) 1 2 = false ∧
      Draws.below (2 ^ 52 % 2 ^ 53) 3 4 = true := by decide
  rw [mutateLoop, bind_eq, hfirst, ok_bind]
  simp only [hkeep, if_true]
  rw [bind_eq, mutateLoop, bind_eq, hsecond, ok_bind]
  simp only [hadd, Bool.false_eq_true, if_true, if_false]
  rw [← bind_assoc, bind_eq, hrun, ok_bind, bind_eq, mutateLoop_keeps]
  rfl

/-- The inserted return names the second word of the suffix, which stands before it. -/
theorem exists_mutateWords_backDraws {words : List GenWord} (hseed : SeedPart .suffixPart words)
    (hlength : words.length = 5) :
    Returns (mutateWords words .suffixPart 5) (InstGenerator.start, fun i ↦ backDraws (i + 104))
      fun words' _ ↦ (∀ w ∈ words', w.populated = true) ∧
        ∃ w, words'[2]? = some w ∧ ∀ n, ¬ Forward .suffixPart n 2 w.toWord := by
  obtain ⟨w₀, w₁, w₂, w₃, w₄, rfl⟩ := exists_eq_of_length_eq_five hlength
  obtain ⟨w, g, hloop, hw, hlabel, hcontrol, href⟩ := @exists_mutateLoop_backDraws w₀ w₁ w₂ w₃ w₄
  have hlinked : ∀ v ∈ [w₀, w₁, w, w₂, w₃], Linked .suffixPart v.toWord := by
    simp only [List.forall_mem_cons]
    exact ⟨hseed.linked (by simp), hseed.linked (by simp), hw, hseed.linked (by simp),
      hseed.linked (by simp), List.forall_mem_nil _⟩
  have hlabels (i : ℕ) (v : GenWord) (hv : [w₀, w₁, w₂, w₃, w₄][i]? = some v) : v.label = i := by
    obtain ⟨n, hforward⟩ := hseed.words i v hv
    exact hforward.label_eq
  have hbefore : HasLabel [w₀, w₁, w, w₂, w₃] 1 1 :=
    ⟨w₁, rfl, (hseed.linked (by simp)).populated, hlabels 1 w₁ rfl⟩
  have hbehind (q : ℕ) (hq : 2 < q) : ¬ HasLabel [w₀, w₁, w, w₂, w₃] q 1 := by
    rintro ⟨v, hv, -, hone⟩
    have hlt : q < 5 := (List.getElem?_eq_some_iff.mp hv).1
    obtain rfl | rfl : q = 3 ∨ q = 4 := by omega
    · obtain rfl := Option.some.inj hv
      exact absurd (hone.symm.trans (hlabels 2 _ rfl)) (by decide)
    · obtain rfl := Option.some.inj hv
      exact absurd (hone.symm.trans (hlabels 3 _ rfl)) (by decide)
  have hreset := (returns_resetLabels_reset (fun v hv _ ↦ (hlinked v hv).toLabelled) (by simp)
    fun _ ↦ 0).and_ensures
      (wordInvariant_populated.resetLabels fun v hv ↦ (hlinked v hv).populated)
  obtain ⟨⟨words', draws'⟩, hrun, ⟨hlength', hwords'⟩, hpopulated⟩ := hreset
  dsimp only at hlength' hwords' hpopulated
  have htwo : 2 < words'.length := by simp [hlength']
  refine ⟨(words', (g, draws')), ?_, hpopulated, words'[2], List.getElem?_eq_getElem htwo,
    fun n ↦ ?_⟩
  · have hmax : (if ([w₀, w₁, w₂, w₃, w₄] : List GenWord) = [] then (0 : ℤ)
        else ([w₀, w₁, w₂, w₃, w₄] : List GenWord).length - 1) = 4 := by
      rw [if_neg (List.cons_ne_nil _ _)]
      rfl
    unfold mutateWords
    rw [hmax, bind_eq, hloop, ok_bind]
    have hreset : onSnd (resetLabels ([w₀, w₁, w, w₂, w₃, w₄].take 5) .suffixPart)
        (g, fun _ ↦ 0) = .ok (words', (g, draws')) := by
      have htake : [w₀, w₁, w, w₂, w₃, w₄].take 5 = [w₀, w₁, w, w₂, w₃] := rfl
      rw [htake, onSnd, hrun]
      rfl
    rw [bind_eq, hreset, ok_bind]
    exact wordInvariant_populated.mapM_populated hpopulated _
  · have hget : ([w₀, w₁, w, w₂, w₃] : List GenWord)[2]? = some w := rfl
    have hword := hwords' 2 w _ hget (List.getElem?_eq_getElem htwo)
    exact hword.not_forward hw.populated hcontrol href
      ⟨1, by decide, hbefore⟩ hbehind

/-- The test that is returned. -/
theorem exists_get_backDraws {session : Session} {entry : SimInput}
    (h : CorpusSession session entry) (it : ℕ) : ∃ x data m draws,
      session.mutator.get it false backDraws = .ok ((x, data), m, draws) ∧
        ¬ ForwardPart .suffixPart (x.partWords .suffixPart) := by
  obtain ⟨⟨words, s⟩, hwords, hpopulated, w, hw, hnot⟩ := exists_mutateWords_backDraws
    (h.forward.seedPart .suffixPart) (length_seedWords h.generated).2.2
  obtain ⟨x, data, m, draws, hget, hsuffix⟩ :=
    exists_get_suffix h dropsFirst_backDraws hwords hpopulated it
  refine ⟨x, data, m, draws, hget, fun hpart ↦ hnot _ (hpart 2 w.toWord ?_)⟩
  rw [hsuffix, List.getElem?_map, hw]
  rfl

/-- A test that the mutator returns after four calls has a return to the label before it. -/
theorem not_forward_backCalls : ∃ r ∈ ((Session.start 1 10 false).fuzz backCalls).returned,
    ¬ ForwardPart .suffixPart (r.simInput.partWords .suffixPart) := by
  obtain ⟨entry, hsession⟩ := exists_corpusSession
  obtain ⟨x, data, m, draws, hget, hnot⟩ := exists_get_backDraws hsession 1
  rw [backCalls, Session.fuzz_concat, Session.fuzzStep, hget]
  exact ⟨_, List.mem_cons_self, hnot⟩

end ProcessorFuzz.Mutation
