import ProcessorFuzz.Mutation.LockstepRuns
import ProcessorFuzz.Mutation.OriginalMutator

/-!
# The original mutator returns

The original mutator inserts templates that it populates when all labels are set, so a label to jump
to is always there. Whatever is drawn, it returns a test of each phase, provided that the corpus is
not empty when it is needed, and the test can be printed, assembled and put into the corpus.
-/

namespace ProcessorFuzz.Mutation

open Library Library.Stateful Generating RvMutator

/-- Each printed instruction has its line. -/
def Counted (w : Word) : Prop := w.retInsts.length = w.insts.length

/-- Words of tests at their places, with a line for each instruction. -/
structure CountedSeed (part : Part) (l : List GenWord) : Prop extends SeedPart part l where
  counted : ∀ w ∈ l, Counted w.toWord

/-- Words in order, with a line for each instruction of those that are printed. -/
structure CountedPart (part : Part) (l : List GenWord) : Prop extends PreparedPart part l where
  counted : ∀ w ∈ l, w.populated = true → Counted w.toWord

theorem CountedSeed.splice {part : Part} {words₁ words₂ : List GenWord}
    (h₁ : CountedSeed part words₁) (h₂ : CountedSeed part words₂) {idx : ℕ}
    (hidx : idx ≤ words₁.length) : CountedSeed part (words₁.take idx ++ words₂.drop idx) := by
  refine ⟨h₁.toSeedPart.splice h₂.toSeedPart hidx, fun w hw ↦ ?_⟩
  rcases List.mem_append.mp hw with hw | hw
  · exact h₁.counted w (List.mem_of_mem_take hw)
  · exact h₂.counted w (List.mem_of_mem_drop hw)

/-- Templates have no lines yet. -/
theorem PreparedPart.counted_of_fillable {part : Part} {words : List GenWord}
    (h : PreparedPart part words) (hfillable : Fillable words) : CountedPart part words := by
  refine ⟨h, fun w hw hpopulated ↦ ?_⟩
  rw [(hfillable w hw).1.populated_eq] at hpopulated
  exact absurd hpopulated Bool.false_ne_true

namespace RvMutator

variable {m m' : RvMutator} {it : ℕ} {draws draws' : Draws}

/-- What `get` may change. -/
theorem getWith_frame {mutate : WordsMutation} {assertIntr : Bool} {x : SimInput} {data : List ℤ}
    (h : m.getWith mutate it assertIntr draws = .ok ((x, data), m', draws')) :
    m' = { m with toMutator := m'.toMutator } := by
  obtain ⟨⟨draft, state⟩, -, h⟩ := bind_eq_ok.mp h
  obtain ⟨⟨dataSeed, base, draws₁⟩, -, h⟩ := bind_eq_ok.mp h
  obtain ⟨⟨template, draws₂⟩, -, h⟩ := bind_eq_ok.mp h
  dsimp only at h
  split at h
  · exact nomatch h
  · obtain ⟨-, hm⟩ := Prod.mk.inj (Except.ok.inj h)
    obtain ⟨rfl, -⟩ := Prod.mk.inj hm
    rfl

/-- What `update_phase` may change. -/
theorem updatePhase_frame (h : m.updatePhase it draws = .ok (m', draws')) : m' = { m with phase := m'.phase } := by
  unfold updatePhase at h
  split at h
  · obtain ⟨rfl, -⟩ := Prod.mk.inj (Except.ok.inj h)
    rfl
  · obtain ⟨⟨rand, draws₁⟩, -, h⟩ := bind_eq_ok.mp h
    obtain ⟨rfl, -⟩ := Prod.mk.inj (Except.ok.inj h)
    rfl

end RvMutator

namespace Original

section Words

variable {part : Part} {words seedWords : List GenWord} {s : InstGenerator × Draws}

theorem length_printWord (label : ℤ) (insts : List Text) :
    (printWord part label insts).length = insts.length := by
  cases insts with
  | nil => rfl
  | cons first rest => rw [printWord, List.length_cons, List.length_map, List.length_cons]

theorem returns_mutateLoop (part : Part) (seedWords : List GenWord) (s : InstGenerator × Draws) :
    Returns (mutateLoop part seedWords) s fun _ _ ↦ True := by
  induction seedWords generalizing s with
  | nil => exact .pure True.intro
  | cons word seedWords ih =>
    apply Returns.bind (.draw (.random stable_true True.intro))
    intro rand s₁ _
    split
    · apply Returns.bind (ih s₁)
      intro words s₂ _
      exact .pure True.intro
    · split
      · apply Returns.bind (returns_getWord stable_true True.intro part)
        intro newWord s₂ _
        apply Returns.bind (ih s₂)
        intro words s₃ _
        exact .pure True.intro
      · exact ih s₁

/-- The words that are printed keep their lines. -/
theorem returns_resetLabels_counted (hlength : words.length ≤ 200)
    (hwords : ∀ w ∈ words, JumpTemplate w ∨ Linked part w.toWord)
    (hcounted : ∀ w ∈ words, w.populated = true → Counted w.toWord) (draws : Draws) :
    Returns (resetLabels words part) draws fun words' _ ↦
      ∀ w ∈ words', w.populated = true → Counted w.toWord := by
  have hlinked : ∀ w ∈ words, w.populated = true → Labelled part w.toWord := by
    intro w hw hpopulated
    rcases hwords w hw with htemplate | hlinked
    · rw [htemplate.populated_eq] at hpopulated
      exact absurd hpopulated Bool.false_ne_true
    · exact hlinked.toLabelled
  apply (returns_resetLabels_reset hlinked (by omega) draws).mono
  rintro words' draws' ⟨hlength', hreset⟩ w' hw' hpopulated'
  obtain ⟨i, hi⟩ := List.mem_iff_getElem?.mp hw'
  have hlt : i < words.length := hlength' ▸ (List.getElem?_eq_some_iff.mp hi).1
  have hword := hreset i _ w' (List.getElem?_eq_getElem hlt) hi
  cases hpopulated : words[i].populated with
  | false =>
    rw [hword.template hpopulated] at hpopulated'
    exact absurd (hpopulated.symm.trans hpopulated') Bool.false_ne_true
  | true =>
    obtain ⟨-, hinsts, -, -, htexts⟩ := hword.printed hpopulated
    have hcount : words[i].retInsts.length = words[i].insts.length :=
      hcounted _ (List.getElem_mem hlt) hpopulated
    have hsame := htexts.length_eq
    rw [Word.texts, Word.texts, List.length_map, List.length_map] at hsame
    calc
      w'.retInsts.length = words[i].retInsts.length := hsame.symm
      _ = words[i].insts.length := hcount
      _ = w'.insts.length := by rw [hinsts]

/-- `mutate_words` returns words in order out of words at their places. -/
theorem returns_mutateWords (hseed : CountedSeed part seedWords) (hnum : s.1.num part = 0) :
    Returns (mutateWords seedWords part (maxWords part)) s fun words s' ↦
      CountedPart part words ∧ ∀ q ≠ part, s'.1.num q = s.1.num q := by
  have hreturns : Returns (mutateWords seedWords part (maxWords part)) s fun words _ ↦
      ∀ w ∈ words, w.populated = true → Counted w.toWord := by
    apply Returns.bind ((returns_mutateLoop part seedWords s).and_ensures
      (ensures_mutateLoop_thinned (pairwise_increasing_of_seedPart hseed.toSeedPart)))
    intro words s₁ ⟨_, hthinned, _⟩
    have hmem : ∀ w ∈ words.take (maxWords part), w ∈ seedWords ∨ JumpTemplate w :=
      fun w hw ↦ hthinned.mem w (List.mem_of_mem_take hw)
    have hlength : (words.take (maxWords part)).length ≤ 200 := by
      have hmax : maxWords part ≤ 200 := by cases part <;> decide
      rw [List.length_take]
      omega
    refine .onSnd (returns_resetLabels_counted hlength
      (fun w hw ↦ (hmem w hw).symm.imp_right hseed.linked) (fun w hw hpopulated ↦ ?_) _)
    rcases hmem w hw with hmem | htemplate
    · exact hseed.counted w hmem
    · rw [htemplate.populated_eq] at hpopulated
      exact absurd hpopulated Bool.false_ne_true
  refine (hreturns.and_ensures
    (mutatesForward_mutateWords part seedWords s hseed.toSeedPart hnum True.intro)).mono ?_
  exact fun words s' ⟨hcounted, hprepared, hothers⟩ ↦ ⟨⟨hprepared, hcounted⟩, hothers⟩

/-- The words that are still templates are populated with the labels that are set. -/
theorem returns_populateWords (h : CountedPart part words) :
    Returns (populateWords words part) s fun words' _ ↦
      (words'.length ≤ 200 ∧ ForwardPart part words') ∧ ∀ w ∈ words', Counted w := by
  have hstep : ∀ w ∈ words, ∀ s, True → Returns (do
      let w ← Generating.populateWord w words.length part
      return w.toWord) s fun w' _ ↦ Counted w' ∧ True := by
    intro w hw s _
    obtain ⟨i, hi⟩ := List.mem_iff_getElem?.mp hw
    have hlt : i < words.length := (List.getElem?_eq_some_iff.mp hi).1
    rcases h.words i w hi with ⟨htemplate, hlabel⟩ | hforward
    · have hmax : (0 : ℤ) ≤ words.length := Int.natCast_nonneg _
      have hpopulate := (returns_populateWord (s := s) stable_true True.intro
        htemplate.toTemplate hmax (fun _ ↦ by omega) part).and_ensures
        (ensures_drawn htemplate.toLegibleTemplate htemplate.label_nonneg)
      apply Returns.bind hpopulate
      intro w' s₁ ⟨_, _, hinsts, _, entries, _, hlines⟩
      refine .pure ⟨?_, True.intro⟩
      rw [Counted, hlines, length_printWord, List.length_map, hinsts]
    · refine ⟨(w.toWord, s), ?_, h.counted w hw hforward.populated, True.intro⟩
      rw [bind_eq, populateWord_of_populated hforward.populated]
      rfl
  have hreturns : Returns (populateWords words part) s fun words' _ ↦
      List.Forall₂ (fun _ w' ↦ Counted w') words words' ∧ True := Returns.mapM hstep True.intro
  refine (hreturns.and_ensures (ensures_populateWords_forward h.toPreparedPart)).mono ?_
  intro words' s' ⟨⟨hcounted, _⟩, hforward⟩
  refine ⟨hforward, fun w' hw' ↦ ?_⟩
  obtain ⟨i, hi, rfl⟩ := List.getElem_of_mem hw'
  exact hcounted.get (hcounted.length_eq ▸ hi) hi

end Words

/-- A test that can be printed and assembled, and whose words can be mutated. -/
structure Runnable (x : SimInput) : Prop extends ForwardTest x where
  counted : ∀ part, ∀ w ∈ x.partWords part, Counted w
  length_ints : x.ints.length = (x.words.map fun w ↦ w.insts.length).sum
  template_lt : x.template < 4

theorem Runnable.countedSeed {x : SimInput} (h : Runnable x) (part : Part) :
    CountedSeed part (x.seedWords part) := by
  refine ⟨h.toForwardTest.seedPart part, fun w hw ↦ ?_⟩
  have hseed : x.seedWords part = (x.partWords part).map Word.toGen := by
    cases part <;> rfl
  rw [hseed] at hw
  obtain ⟨w₀, hw₀, rfl⟩ := List.mem_map.mp hw
  exact h.counted part w₀ hw₀

/-- The seed and the template of a parent are those of a test of the corpus. -/
def OfCorpus (m : RvMutator) (parent : Option (ℕ × ℕ)) : Prop :=
  ∀ seed template, parent = some (seed, template) →
    ∃ x ∈ m.corpus, seed = x.dataSeed ∧ template = x.template

/-- The mutator between two calls. -/
structure Sound (m : RvMutator) : Prop where
  seeded : m.Seeded
  corpusSeeded : m.CorpusSeeded
  runnable : ∀ x ∈ m.corpus, Runnable x
  numWords_le : m.numWords ≤ 200
  length_data : ∀ seed data, m.randomData.get? seed = some data → data.length = 384

section Parts

variable {m : RvMutator} {s : InstGenerator × Draws} {draws : Draws}

theorem returns_mutationSeed (hm : Sound m) (hne : m.corpus ≠ []) :
    Returns m.mutationSeed draws fun seed _ ↦
      (∀ part, CountedSeed part (seed.words part)) ∧ OfCorpus m seed.parent := by
  apply Returns.bind (.choice hne stable_true True.intro)
  intro x draws₁ ⟨hx, _⟩
  refine .pure ⟨(hm.runnable x hx).countedSeed, fun seed template heq ↦ ?_⟩
  obtain ⟨rfl, rfl⟩ := Prod.mk.inj (Option.some.inj heq)
  exact ⟨x, hx, rfl, rfl⟩

theorem returns_mergeSeed (hm : Sound m) (hne : m.corpus ≠ []) :
    Returns m.mergeSeed draws fun seed _ ↦
      (∀ part, CountedSeed part (seed.words part)) ∧ OfCorpus m seed.parent := by
  apply Returns.bind (.choice hne stable_true True.intro)
  intro x₁ draws₁ ⟨hx₁, _⟩
  apply Returns.bind (.choice hne stable_true True.intro)
  intro x₂ draws₂ ⟨hx₂, _⟩
  apply Returns.bind (.randint (Int.natCast_nonneg _) stable_true True.intro)
  intro idx draws₃ ⟨⟨_, hidx⟩, _⟩
  refine .pure ⟨fun part ↦ ?_, fun seed template heq ↦ ?_⟩
  · by_cases hpart : part = .mainPart
    · subst hpart
      dsimp only
      rw [Function.update_self]
      refine ((hm.runnable x₁ hx₁).countedSeed .mainPart).splice
        ((hm.runnable x₂ hx₂).countedSeed .mainPart) ?_
      omega
    · dsimp only
      rw [Function.update_of_ne hpart]
      exact (hm.runnable x₁ hx₁).countedSeed part
  · obtain ⟨rfl, rfl⟩ := Prod.mk.inj (Option.some.inj heq)
    exact ⟨x₁, hx₁, rfl, rfl⟩

/-- The words of the parts before they are populated for the last time. -/
def CountedParts (m : RvMutator) (parts : Parts) : Prop :=
  (∀ part, CountedPart part (parts.words part)) ∧ OfCorpus m parts.parent

theorem returns_mutatePartsWith {seed : Parts} (hnum : ∀ part, s.1.num part = 0)
    (hseed : ∀ part, CountedSeed part (seed.words part)) (hparent : OfCorpus m seed.parent) :
    Returns (mutatePartsWith mutateWords seed) s fun parts _ ↦ CountedParts m parts := by
  apply Returns.bind (returns_mutateWords (hseed .prefixPart) (hnum _))
  intro prefixWords s₁ ⟨hbegins, hothers₁⟩
  have hnum₁ (part : Part) (hpart : part ≠ .prefixPart) : s₁.1.num part = 0 := by
    rw [hothers₁ part hpart, hnum]
  apply Returns.bind (returns_mutateWords (hseed .mainPart) (hnum₁ _ (by decide)))
  intro words s₂ ⟨hwords, hothers₂⟩
  have hnum₂ : s₂.1.num .suffixPart = 0 := by
    rw [hothers₂ _ (by decide), hnum₁ _ (by decide)]
  apply Returns.bind (returns_mutateWords (hseed .suffixPart) hnum₂)
  intro suffixWords s₃ ⟨hsuffix, _⟩
  refine .pure ⟨fun part ↦ ?_, hparent⟩
  cases part with
  | prefixPart => exact hbegins
  | mainPart => exact hwords
  | suffixPart => exact hsuffix

/-- The seed words are drawn before the generator makes a word. -/
theorem returns_seedParts {seeding : Stateful Draws Parts} (hseed : Returns seeding draws
      fun seed _ ↦ (∀ part, CountedSeed part (seed.words part)) ∧ OfCorpus m seed.parent) :
    Returns (do
      let seed ← onSnd seeding
      mutatePartsWith mutateWords seed) (InstGenerator.start, draws) fun parts _ ↦
        CountedParts m parts := by
  have hstart : Returns (onSnd seeding) (InstGenerator.start, draws) fun seed s ↦
      ((∀ part, CountedSeed part (seed.words part)) ∧ OfCorpus m seed.parent) ∧
        s.1 = InstGenerator.start :=
    .onSnd (hseed.mono fun _ _ h ↦ ⟨h, rfl⟩)
  apply Returns.bind hstart
  intro seed s ⟨⟨hwords, hparent⟩, hs⟩
  exact returns_mutatePartsWith (fun _ ↦ by rw [hs]; rfl) hwords hparent

theorem returns_makePartsWith (hm : Sound m) (hne : m.phase ≠ .generation → m.corpus ≠ []) :
    Returns (m.makePartsWith mutateWords) (InstGenerator.start, draws) fun parts _ ↦
      CountedParts m parts := by
  unfold makePartsWith
  cases hphase : m.phase with
  | generation =>
    have hgenerate := (returns_generate (s := (InstGenerator.start, draws)) stable_true True.intro
      (fun _ ↦ rfl) m).and_ensures (ensures_generate_prepared (fun _ ↦ rfl) hm.numWords_le)
    refine hgenerate.mono fun parts s' ⟨⟨⟨hfillable, _, hparent⟩, _⟩, hprepared⟩ ↦ ⟨fun part ↦
      (hprepared part).counted_of_fillable (hfillable part), fun seed template heq ↦ ?_⟩
    rw [hparent] at heq
    exact nomatch heq
  | mutation => exact returns_seedParts (returns_mutationSeed hm (hne (hphase ▸ nofun)))
  | merge => exact returns_seedParts (returns_mergeSeed hm (hne (hphase ▸ nofun)))

/-- The words of the parts when they are populated. -/
def populatedParts (m : RvMutator) : Generating (Parts × List Word × List Word × List Word) := do
  let parts ← m.makePartsWith mutateWords
  let prefixWords ← populateWords (parts.words .prefixPart) .prefixPart
  let words ← populateWords (parts.words .mainPart) .mainPart
  let suffixWords ← populateWords (parts.words .suffixPart) .suffixPart
  return (parts, prefixWords, words, suffixWords)

theorem makeDraftWith_eq (m : RvMutator) (assertIntr : Bool) :
    m.makeDraftWith mutateWords assertIntr = (do
      let r ← populatedParts m
      let ints ← onSnd (drawInts (r.2.2.1.map fun w ↦ w.insts.length).sum assertIntr)
      return {
        prefixWords := r.2.1
        words := r.2.2.1
        suffixWords := r.2.2.2
        ints
        parent := r.1.parent
        nameSuffix := r.1.nameSuffix }) := by
  simp only [populatedParts, makeDraftWith, bind_assoc, pure_bind]

/-- The words of a part of a test. -/
def CountedWords (part : Part) (l : List Word) : Prop :=
  (l.length ≤ 200 ∧ ForwardPart part l) ∧ ∀ w ∈ l, Counted w

theorem returns_populatedParts (hm : Sound m) (hne : m.phase ≠ .generation → m.corpus ≠ []) :
    Returns (populatedParts m) (InstGenerator.start, draws) fun r _ ↦
      (CountedWords .prefixPart r.2.1 ∧ CountedWords .mainPart r.2.2.1 ∧
        CountedWords .suffixPart r.2.2.2) ∧ OfCorpus m r.1.parent := by
  apply Returns.bind (returns_makePartsWith hm hne)
  intro parts s₁ ⟨hparts, hparent⟩
  apply Returns.bind (returns_populateWords (hparts .prefixPart))
  intro prefixWords s₂ hbegins
  apply Returns.bind (returns_populateWords (hparts .mainPart))
  intro words s₃ hwords
  apply Returns.bind (returns_populateWords (hparts .suffixPart))
  intro suffixWords s₄ hsuffix
  exact .pure ⟨⟨hbegins, hwords, hsuffix⟩, hparent⟩

/-- The variables of `get` when it comes to the data. -/
structure CountedDraft (m : RvMutator) (draft : Draft) : Prop where
  words : ∀ part, CountedWords part (draft.partWords part)
  length_ints : draft.ints.length = (draft.words.map fun w ↦ w.insts.length).sum
  parent : OfCorpus m draft.parent

theorem countedDraft {r : Parts × List Word × List Word × List Word} {ints : List ℤ}
    (h : (CountedWords .prefixPart r.2.1 ∧ CountedWords .mainPart r.2.2.1 ∧
      CountedWords .suffixPart r.2.2.2) ∧ OfCorpus m r.1.parent)
    (hints : ints.length = (r.2.2.1.map fun w ↦ w.insts.length).sum) :
    CountedDraft m {
      prefixWords := r.2.1
      words := r.2.2.1
      suffixWords := r.2.2.2
      ints
      parent := r.1.parent
      nameSuffix := r.1.nameSuffix } := by
  obtain ⟨⟨hbegins, hwords, hsuffix⟩, hparent⟩ := h
  refine ⟨fun part ↦ ?_, hints, hparent⟩
  cases part with
  | prefixPart => exact hbegins
  | mainPart => exact hwords
  | suffixPart => exact hsuffix

theorem ensures_makeDraftWith (hm : Sound m) (hne : m.phase ≠ .generation → m.corpus ≠ [])
    (assertIntr : Bool) : Ensures (m.makeDraftWith mutateWords assertIntr)
      (InstGenerator.start, draws) fun draft _ ↦ CountedDraft m draft := by
  rw [makeDraftWith_eq]
  apply Ensures.bind (returns_populatedParts hm hne).ensures
  intro r s₁ hr
  apply Ensures.bind (.draw (ensures_drawInts _ assertIntr))
  intro ints s₂ hints
  exact .pure (countedDraft hr hints.1)

/-- Without interrupts there is nothing to draw for the values. -/
theorem returns_makeDraftWith (hm : Sound m) (hne : m.phase ≠ .generation → m.corpus ≠ []) :
    Returns (m.makeDraftWith mutateWords false) (InstGenerator.start, draws) fun draft _ ↦
      CountedDraft m draft := by
  rw [makeDraftWith_eq]
  apply Returns.bind (returns_populatedParts hm hne)
  intro r s₁ hr
  have hints : Returns (drawInts (r.2.2.1.map fun w ↦ w.insts.length).sum false) s₁.2
      fun ints _ ↦ ints.length = (r.2.2.1.map fun w ↦ w.insts.length).sum :=
    .pure List.length_replicate
  apply Returns.bind (.draw hints)
  intro ints s₂ hints
  exact .pure (countedDraft hr hints)

/-- Tests cannot be mutated or merged when there are none. -/
theorem makePartsWith_ne_ok (hphase : m.phase ≠ .generation) (hempty : m.corpus = [])
    {mutate : WordsMutation} {r : Parts × InstGenerator × Draws} :
    m.makePartsWith mutate s ≠ .ok r := by
  intro h
  unfold makePartsWith at h
  have hchoice {rest : SimInput × Draws} : Draws.choice m.corpus s.2 ≠ .ok rest := by
    intro hchoice
    have hmem := Draws.mem_of_choice_eq_ok hchoice
    rw [hempty] at hmem
    exact List.not_mem_nil hmem
  cases hcase : m.phase with
  | generation => exact hphase hcase
  | mutation =>
    rw [hcase] at h
    obtain ⟨r₁, hseed, -⟩ := bind_eq_ok.mp h
    obtain ⟨r₂, hseed, -⟩ := bind_eq_ok.mp hseed
    obtain ⟨r₃, hdraw, -⟩ := bind_eq_ok.mp hseed
    exact hchoice hdraw
  | merge =>
    rw [hcase] at h
    obtain ⟨r₁, hseed, -⟩ := bind_eq_ok.mp h
    obtain ⟨r₂, hseed, -⟩ := bind_eq_ok.mp hseed
    obtain ⟨r₃, hdraw, -⟩ := bind_eq_ok.mp hseed
    exact hchoice hdraw

end Parts

section Calls

variable {m m' : RvMutator} {draws : Draws} {x : SimInput} {data : List ℤ} {it : ℕ}

theorem template_lt_of_finish {m m' : RvMutator} {draft : Draft} {draws' : Draws}
    (hparent : ∀ seed template, draft.parent = some (seed, template) → template < 4)
    (h : m.finish it draft draws = .ok ((x, data), m', draws')) : x.template < 4 := by
  obtain ⟨⟨dataSeed, base, draws₁⟩, -, h⟩ := bind_eq_ok.mp h
  obtain ⟨⟨template, draws₂⟩, htemplate, h⟩ := bind_eq_ok.mp h
  have hlt : template < 4 := by
    unfold takeTemplate at htemplate
    cases hcase : draft.parent with
    | none =>
      rw [hcase] at htemplate
      obtain ⟨⟨n, draws₃⟩, hdraw, htemplate⟩ := bind_eq_ok.mp htemplate
      obtain ⟨rfl, -⟩ := Prod.mk.inj (Except.ok.inj htemplate)
      have hrange : 0 ≤ n ∧ n ≤ 3 := Ensures.randint.of_eq_ok _ hdraw
      omega
    | some parent =>
      rw [hcase] at htemplate
      obtain ⟨rfl, -⟩ := Prod.mk.inj (Except.ok.inj htemplate)
      exact hparent parent.1 parent.2 hcase
  dsimp only at h
  split at h
  · exact nomatch h
  · obtain ⟨hx, -⟩ := Prod.mk.inj (Except.ok.inj h)
    obtain ⟨rfl, -⟩ := Prod.mk.inj hx
    exact hlt

/-- What a call of `get` returns and leaves. -/
structure GotTest (m m' : RvMutator) (x : SimInput) (data : List ℤ) : Prop where
  runnable : Runnable x
  length_data : data.length = 384
  dataSeed_mem : x.dataSeed ∈ m'.dataSeeds
  dataSeeds_subset : m.dataSeeds ⊆ m'.dataSeeds
  sound : Sound m'

/-- The end of `get` returns. -/
theorem Sound.exists_finish (hm : Sound m) {draft : Draft} (hdraft : CountedDraft m draft) (it : ℕ)
    (draws : Draws) : ∃ x data m' draws',
      m.finish it draft draws = .ok ((x, data), m', draws') ∧ GotTest m m' x data := by
  have hseeds : ∀ seed template, draft.parent = some (seed, template) → seed ∈ m.dataSeeds := by
    intro seed template heq
    obtain ⟨y, hy, rfl, -⟩ := hdraft.parent seed template heq
    exact hm.corpusSeeded y hy
  obtain ⟨x, data, base, draws', hfinish, huses, hseed⟩ := finish_eq hm.seeded hseeds it draws
  obtain ⟨hwords, hints, -, -⟩ := finish_eq_ok hfinish
  have hmain : x.words = draft.words := congrFun hwords .mainPart
  have htemplate : x.template < 4 := template_lt_of_finish (fun seed template heq ↦ by
    obtain ⟨y, hy, -, rfl⟩ := hdraft.parent seed template heq
    exact (hm.runnable y hy).template_lt) hfinish
  have hforward : ForwardTest x := by
    refine ⟨fun part ↦ ?_, fun part ↦ ?_, emitted_finish hfinish⟩
    · rw [hwords]
      exact (hdraft.words part).1.2
    · rw [hwords]
      exact (hdraft.words part).1.1
  have hrunnable : Runnable x := by
    refine ⟨hforward, fun part ↦ ?_, ?_, htemplate⟩
    · rw [hwords]
      exact (hdraft.words part).2
    · rw [hints, hmain]
      exact hdraft.length_ints
  -- The data are new ones, or those that the mutator has for the seed of the parent.
  have hdata : data.length = 384 ∧
      (x.dataSeed = Recency.next m.maxData m.dataSeeds ∨ x.dataSeed ∈ m.dataSeeds) := by
    cases hcase : draft.parent with
    | none =>
      rw [hcase] at hseed
      obtain ⟨hnext, rfl⟩ := hseed
      exact ⟨by rw [Mutator.newWords, List.length_map, List.length_range], .inl hnext⟩
    | some parent =>
      rw [hcase] at hseed
      obtain ⟨hsame, hdata⟩ := hseed
      exact ⟨hm.length_data _ data hdata, .inr (hsame ▸ hseeds parent.1 parent.2 hcase)⟩
  have hmem (seed : ℕ) : seed ∈ base.dataSeeds ↔ seed = x.dataSeed ∨ seed ∈ m.dataSeeds := by
    rw [huses.dataSeeds, Recency.mem_touch]
  refine ⟨x, data, _, draws', hfinish, hrunnable, hdata.1, (hmem _).mpr (.inl rfl),
    fun seed hseed ↦ (hmem seed).mpr (.inr hseed),
    ⟨hm.seeded.uses huses hdata.2, fun y hy ↦ (hmem _).mpr (.inr (hm.corpusSeeded y hy)),
      hm.runnable, hm.numWords_le, fun seed stored hstored ↦ ?_⟩⟩
  change base.randomData.get? seed = some stored at hstored
  rw [huses.get?] at hstored
  split at hstored
  · rw [← Option.some.inj hstored]
    exact hdata.1
  · exact hm.length_data seed stored hstored

/-- A call of `get` that is made when the corpus is not needed or not empty returns a test that can
be run, with data of the usual length. -/
theorem Sound.exists_getWith (hm : Sound m) (hne : m.phase ≠ .generation → m.corpus ≠ [])
    (it : ℕ) (draws : Draws) : ∃ x data m' draws',
      m.getWith mutateWords it false draws = .ok ((x, data), m', draws') ∧ GotTest m m' x data := by
  have hreturns : Returns (m.makeDraftWith mutateWords false) (InstGenerator.start, draws)
      fun draft _ ↦ CountedDraft m draft := returns_makeDraftWith hm hne
  obtain ⟨⟨draft, s⟩, hdraft, hcounted⟩ := hreturns
  obtain ⟨x, data, m', draws', hfinish, hgot⟩ := hm.exists_finish hcounted it s.2
  exact ⟨x, data, m', draws', bind_eq_ok.mpr ⟨_, hdraft, hfinish⟩, hgot⟩

/-- Whenever `get` returns, so does the choice of its parents. -/
theorem corpus_ne_nil_of_getWith {assertIntr : Bool} {draws' : Draws}
    (h : m.getWith mutateWords it assertIntr draws = .ok ((x, data), m', draws')) :
    m.phase ≠ .generation → m.corpus ≠ [] := by
  intro hphase hempty
  obtain ⟨⟨draft, s⟩, hdraft, -⟩ := bind_eq_ok.mp h
  obtain ⟨⟨parts, s₁⟩, hparts, -⟩ := bind_eq_ok.mp hdraft
  exact makePartsWith_ne_ok hphase hempty hparts

theorem Sound.getWith (hm : Sound m) {assertIntr : Bool} {draws' : Draws}
    (h : m.getWith mutateWords it assertIntr draws = .ok ((x, data), m', draws')) :
    GotTest m m' x data := by
  have hne := corpus_ne_nil_of_getWith h
  obtain ⟨⟨draft, s⟩, hdraft, hfinish⟩ := bind_eq_ok.mp h
  have hcounted : CountedDraft m draft := (ensures_makeDraftWith hm hne _).of_eq_ok _ hdraft
  obtain ⟨x', data', m₁, draws₁, hfinish', hgot⟩ := hm.exists_finish hcounted it s.2
  obtain ⟨hx, hrest⟩ := Prod.mk.inj (Except.ok.inj (hfinish'.symm.trans hfinish))
  obtain ⟨rfl, rfl⟩ := Prod.mk.inj hx
  obtain ⟨rfl, -⟩ := Prod.mk.inj hrest
  exact hgot

theorem Sound.addCorpus (hm : Sound m) (hx : Runnable x) (hseed : x.dataSeed ∈ m.dataSeeds) :
    Sound (m.addCorpus x) where
  seeded := hm.seeded
  corpusSeeded y hy := by
    rcases mem_corpus_addCorpus hy with hy | rfl
    · exact hm.corpusSeeded y hy
    · exact hseed
  runnable y hy := by
    rcases mem_corpus_addCorpus hy with hy | rfl
    · exact hm.runnable y hy
    · exact hx
  numWords_le := Nat.min_le_right _ _
  length_data := hm.length_data

theorem Sound.updatePhase (hm : Sound m) {draws' : Draws}
    (h : m.updatePhase it draws = .ok (m', draws')) : Sound m' := by
  obtain ⟨hbase, hcorpus⟩ := toMutator_updatePhase h
  constructor
  · rw [hbase]
    exact hm.seeded
  · intro y hy
    rw [hbase]
    exact hm.corpusSeeded y (hcorpus ▸ hy)
  · exact fun y hy ↦ hm.runnable y (hcorpus ▸ hy)
  · rw [numWords_updatePhase h]
    exact hm.numWords_le
  · rw [hbase]
    exact hm.length_data

theorem sound_init {maxDataSeeds : ℕ} (hpos : 0 < maxDataSeeds) (corpusSize : ℕ) (noGuide : Bool) :
    Sound (RvMutator.init maxDataSeeds corpusSize noGuide) where
  seeded := (Session.consistent_start hpos corpusSize noGuide).seeded
  corpusSeeded := nofun
  runnable := nofun
  numWords_le := by
    change 100 ≤ 200
    decide
  length_data seed data h := nomatch h

end Calls

/-- A session in which every test that was returned can be added to the corpus. -/
structure SoundSession (s : Session) : Prop where
  mutator : Sound s.mutator
  returned : ∀ r ∈ s.returned, Runnable r.simInput ∧ r.simInput.dataSeed ∈ s.mutator.dataSeeds

theorem SoundSession.start {maxDataSeeds : ℕ} (hpos : 0 < maxDataSeeds) (corpusSize : ℕ)
    (noGuide : Bool) : SoundSession (Session.start maxDataSeeds corpusSize noGuide) :=
  ⟨sound_init hpos corpusSize noGuide, nofun⟩

theorem SoundSession.fuzzStepWith {s : Session} (hs : SoundSession s) (call : FuzzCall) :
    SoundSession (s.fuzzStepWith mutateWords call) := by
  cases call with
  | updatePhase it draws =>
    rw [Session.fuzzStepWith]
    split
    · exact hs
    · next m draws' h =>
      refine ⟨hs.mutator.updatePhase h, fun r hr ↦ ?_⟩
      rw [(toMutator_updatePhase h).1]
      exact hs.returned r hr
  | get it assertIntr draws =>
    rw [Session.fuzzStepWith]
    split
    · exact hs
    · next x data m draws' h =>
      have hgot := hs.mutator.getWith h
      refine ⟨hgot.sound, List.forall_mem_cons.mpr ⟨⟨hgot.runnable, hgot.dataSeed_mem⟩, ?_⟩⟩
      exact fun r hr ↦ (hs.returned r hr).imp_right fun hseed ↦ hgot.dataSeeds_subset hseed
  | addCorpus i =>
    rw [Session.fuzzStepWith]
    split
    · exact hs
    · next r hr =>
      obtain ⟨hrunnable, hseed⟩ := hs.returned r (List.mem_of_getElem? hr)
      exact ⟨hs.mutator.addCorpus hrunnable hseed, hs.returned⟩

theorem SoundSession.fuzzWith {s : Session} (hs : SoundSession s) (calls : List FuzzCall) :
    SoundSession (s.fuzzWith mutateWords calls) := by
  induction calls generalizing s with
  | nil => exact hs
  | cons call calls ih => exact ih (hs.fuzzStepWith call)

/-- A call of `get` returns a test of the phase. -/
theorem SoundSession.exists_get {s : Session} (hs : SoundSession s)
    (hne : s.mutator.phase ≠ .generation → s.mutator.corpus ≠ []) (it : ℕ) (draws : Draws) :
    ∃ x data base, s.fuzzStepWith mutateWords (.get it false draws) =
      ⟨{ s.mutator with toMutator := base }, ⟨x, data, .get s.mutator.phase⟩ :: s.returned⟩ := by
  obtain ⟨x, data, m, draws', hget, -⟩ := hs.mutator.exists_getWith hne it draws
  refine ⟨x, data, m.toMutator, ?_⟩
  rw [Session.fuzzStepWith, hget, ← RvMutator.getWith_frame hget]

/-- A round of the loop in which the phase is drawn. -/
theorem SoundSession.exists_round {s : Session} (hs : SoundSession s)
    (hcorpus : s.mutator.corpus ≠ []) (phase : Phase) {draws draws' : Draws}
    (hphase : s.mutator.updatePhase 10 draws = .ok ({ s.mutator with phase }, draws')) (it : ℕ) :
    ∃ x data base, s.fuzzWith mutateWords [.updatePhase 10 draws, .get it false fun _ ↦ 0] =
      ⟨{ s.mutator with toMutator := base, phase }, ⟨x, data, .get phase⟩ :: s.returned⟩ := by
  have hstep : s.fuzzStepWith mutateWords (.updatePhase 10 draws) =
      { s with mutator := { s.mutator with phase } } := by
    rw [Session.fuzzStepWith, hphase]
  have hnext := hs.fuzzStepWith (.updatePhase 10 draws)
  rw [hstep] at hnext
  obtain ⟨x, data, base, hget⟩ := hnext.exists_get (fun _ ↦ hcorpus) it fun _ ↦ 0
  refine ⟨x, data, base, ?_⟩
  rw [Session.fuzzWith, List.foldl_cons, hstep, List.foldl_cons, hget, List.foldl_nil]

/-- A test is generated and kept in the corpus, then mutated, and then merged with itself. -/
def phaseCalls : List FuzzCall :=
  [.get 0 false fun _ ↦ 0, .addCorpus 0] ++
    [.updatePhase 10 fun _ ↦ 2 ^ 51, .get 1 false fun _ ↦ 0] ++
    [.updatePhase 10 fun _ ↦ 2 ^ 53 - 1, .get 2 false fun _ ↦ 0]

theorem exists_fuzzWith_phaseCalls : ∃ m x₁ x₂ x₃ data₁ data₂ data₃,
    (Session.start 1 10 false).fuzzWith mutateWords phaseCalls =
      ⟨m, [⟨x₃, data₃, .get .merge⟩, ⟨x₂, data₂, .get .mutation⟩,
        ⟨x₁, data₁, .get .generation⟩]⟩ := by
  have hstart : SoundSession (Session.start 1 10 false) := .start Nat.one_pos 10 false
  obtain ⟨x₁, data₁, base₁, hget⟩ := hstart.exists_get (fun h ↦ absurd rfl h) 0 fun _ ↦ 0
  have hfirst : (Session.start 1 10 false).fuzzWith mutateWords
      [.get 0 false fun _ ↦ 0, .addCorpus 0] =
        ⟨{ toMutator := base₁
           corpusSize := 10
           noGuide := false
           corpus := [x₁]
           phase := .generation
           numWords := 101 }, [⟨x₁, data₁, .get .generation⟩]⟩ := by
    rw [Session.fuzzWith, List.foldl_cons, hget]
    rfl
  have hs₁ := hstart.fuzzWith [.get 0 false fun _ ↦ 0, .addCorpus 0]
  rw [hfirst] at hs₁
  obtain ⟨x₂, data₂, base₂, hmutate⟩ := @SoundSession.exists_round _ hs₁ (List.cons_ne_nil _ _)
    .mutation (fun _ ↦ 2 ^ 51) _ rfl 1
  have hs₂ := hs₁.fuzzWith [.updatePhase 10 fun _ ↦ 2 ^ 51, .get 1 false fun _ ↦ 0]
  rw [hmutate] at hs₂
  obtain ⟨x₃, data₃, base₃, hmerge⟩ := @SoundSession.exists_round _ hs₂ (List.cons_ne_nil _ _)
    .merge (fun _ ↦ 2 ^ 53 - 1) _ rfl 2
  have hrun : (Session.start 1 10 false).fuzzWith mutateWords phaseCalls =
      (((Session.start 1 10 false).fuzzWith mutateWords
        [.get 0 false fun _ ↦ 0, .addCorpus 0]).fuzzWith mutateWords
          [.updatePhase 10 fun _ ↦ 2 ^ 51, .get 1 false fun _ ↦ 0]).fuzzWith mutateWords
            [.updatePhase 10 fun _ ↦ 2 ^ 53 - 1, .get 2 false fun _ ↦ 0] := by
    rw [phaseCalls, Session.fuzzWith, List.foldl_append, List.foldl_append]
    exact Eq.refl (List.foldl _ _ _)
  rw [hfirst, hmutate, hmerge] at hrun
  exact ⟨_, x₁, x₂, x₃, data₁, data₂, data₃, hrun⟩

end Original

/-- Whatever is called and whatever is drawn, the original mutator returns tests that jump forward:
the word at position `i` of a part carries the label `i`, a label of the part that it names is
emitted, and a word of control flow names later labels only. -/
theorem forward_original (maxDataSeeds corpusSize : ℕ) (noGuide : Bool) (calls : List FuzzCall) :
    ∀ r ∈ ((Session.start maxDataSeeds corpusSize noGuide).fuzzWith Original.mutateWords
      calls).returned, ∀ part, ForwardPart part (r.simInput.partWords part) ∧
        ∃ lines, r.simInput.emitted part = .ok lines ∧
          ∀ m ≤ (r.simInput.partWords part).length, ∃ line ∈ lines,
            Word.labelText part m <+: line := by
  have hsession := (forwardSession_start maxDataSeeds corpusSize noGuide).fuzzWith
    Original.mutatesForward_mutateWords (guardedRun_of_forall (fun _ _ _ ↦ True.intro) _ calls)
  intro r hr part
  have htest := hsession.returned r hr
  exact ⟨htest.words part, htest.exists_label part⟩

/-- A run in which the mutated test and the merged one jump forward. -/
theorem forward_original_phases : ∃ r₂ r₃,
    r₂ ∈ ((Session.start 1 10 false).fuzzWith Original.mutateWords Original.phaseCalls).returned ∧
    r₃ ∈ ((Session.start 1 10 false).fuzzWith Original.mutateWords Original.phaseCalls).returned ∧
    r₂.origin = .get .mutation ∧ r₃.origin = .get .merge ∧ ∀ part,
      ForwardPart part (r₂.simInput.partWords part) ∧
        ForwardPart part (r₃.simInput.partWords part) := by
  obtain ⟨m, x₁, x₂, x₃, data₁, data₂, data₃, hrun⟩ := Original.exists_fuzzWith_phaseCalls
  have hforward := forward_original 1 10 false Original.phaseCalls
  rw [hrun] at hforward ⊢
  refine ⟨_, _, List.mem_cons_of_mem _ List.mem_cons_self, List.mem_cons_self, rfl, rfl,
    fun part ↦ ⟨(hforward _ ?_ part).1, (hforward _ ?_ part).1⟩⟩
  · exact List.mem_cons_of_mem _ List.mem_cons_self
  · exact List.mem_cons_self

end ProcessorFuzz.Mutation
