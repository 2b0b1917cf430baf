import ProcessorFuzz.Mutation.LockstepRuns
import ProcessorFuzz.Mutation.ReferenceTexts

/-!
# What holds of every word

Whatever populating gives to a word and setting the labels of a part keeps holds of the words of
every test that a mutator returns or has in its corpus. Two such properties are that a word has
instructions, which also holds of the words of any file that is read, and that its lines are legible.
-/

namespace ProcessorFuzz.Mutation

open Library Library.Stateful Generating RvMutator

/-- A property of words that populating gives them and that setting their labels keeps. -/
structure WordInvariant (C : Part → Word → Prop) : Prop where
  populated : ∀ {part w}, C part w → w.populated = true
  populateWord : ∀ {part} {w : GenWord} {maxLabel : ℤ} {s : InstGenerator × Draws},
    LegibleTemplate w → 0 ≤ w.label →
      Ensures (Generating.populateWord w maxLabel part) s fun w' _ ↦ C part w'.toWord
  nop : ∀ {part label w},
    (Word.new label ["nop".toList]).populate Dict.empty part = .ok w → C part w
  resetLabels : ∀ {part} {words : List GenWord} {draws : Draws}, (∀ w ∈ words, C part w.toWord) →
    Ensures (Mutation.resetLabels words part) draws fun words' _ ↦ ∀ w ∈ words', C part w.toWord

section Get

variable {C : Part → Word → Prop} {part : Part} {s : InstGenerator × Draws} {m : RvMutator}

theorem ensures_template (part : Part) : Ensures (getWord part) s fun w _ ↦
    LegibleTemplate w ∧ 0 ≤ w.label := by
  have hgot := (returns_getWord (s := s) stable_true True.intro part).and_ensures
    (ensures_legibleTemplate part)
  refine hgot.ensures.mono fun w _ h ↦ ⟨h.2, ?_⟩
  rw [h.1.1.label_eq]
  exact Int.natCast_nonneg _

namespace WordInvariant

theorem ensures_mutateLoop (hC : WordInvariant C) {maxLabel : ℤ} {words : List GenWord}
    (h : ∀ w ∈ words, C part w.toWord) :
    Ensures (mutateLoop part maxLabel words) s fun words' _ ↦ ∀ w ∈ words', C part w.toWord := by
  induction words generalizing s with
  | nil => exact .pure nofun
  | cons word words ih =>
    obtain ⟨hword, hwords⟩ := List.forall_mem_cons.mp h
    apply Ensures.bind .trivial
    intro rand s₁ _
    split
    · apply Ensures.bind (ih hwords)
      intro words' s₂ hwords'
      exact .pure (List.forall_mem_cons.mpr ⟨hword, hwords'⟩)
    · split
      · apply Ensures.bind (ensures_template part)
        intro newWord s₂ ⟨htemplate, hlabel⟩
        apply Ensures.bind (hC.populateWord htemplate hlabel)
        intro newWord' s₃ hnew
        apply Ensures.bind (ih hwords)
        intro words' s₄ hwords'
        exact .pure (List.forall_mem_cons.mpr ⟨hword, List.forall_mem_cons.mpr ⟨hnew, hwords'⟩⟩)
      · exact ih hwords

/-- The last loop of `mutate_words` finds all words populated. -/
theorem mapM_populated (hC : WordInvariant C) {words : List GenWord}
    (h : ∀ w ∈ words, C part w.toWord) (maxLabel : ℤ) :
    (words.mapM fun (w : GenWord) ↦
      if w.populated then pure w else Generating.populateWord w maxLabel part) s =
        .ok (words, s) := by
  induction words with
  | nil => rfl
  | cons w words ih =>
    obtain ⟨hw, hwords⟩ := List.forall_mem_cons.mp h
    rw [List.mapM_cons, if_pos (hC.populated hw), pure_bind, bind_eq, ih hwords]
    rfl

theorem ensures_mutateWords (hC : WordInvariant C) {seedWords : List GenWord}
    (h : ∀ w ∈ seedWords, C part w.toWord) (maxNum : ℕ) :
    Ensures (mutateWords seedWords part maxNum) s fun words _ ↦ ∀ w ∈ words, C part w.toWord := by
  apply Ensures.bind (hC.ensures_mutateLoop h)
  intro words s₁ hwords
  have htake : ∀ w ∈ words.take maxNum, C part w.toWord :=
    fun w hw ↦ hwords w (List.mem_of_mem_take hw)
  apply Ensures.bind (.draw (hC.resetLabels htake))
  intro words' s₂ hwords'
  constructor
  intro r hr
  rw [hC.mapM_populated hwords'] at hr
  obtain rfl := Except.ok.inj hr
  exact hwords'

end WordInvariant

/-- The words of a part before they are populated for the last time. -/
def ReadyWords (C : Part → Word → Prop) (part : Part) (words : List GenWord) : Prop :=
  ∀ w ∈ words, (LegibleTemplate w ∧ 0 ≤ w.label) ∨ C part w.toWord

/-- All words of the parts of a test. -/
def AllWords (C : Part → Word → Prop) (partWords : Part → List Word) : Prop :=
  ∀ part, ∀ w ∈ partWords part, C part w

theorem forall_seedWords {x : SimInput} (hx : AllWords C x.partWords) (part : Part) :
    ∀ w ∈ x.seedWords part, C part w.toWord := by
  have hmap : ∀ words : List Word, (∀ w ∈ words, C part w) →
      ∀ w ∈ words.map Word.toGen, C part w.toWord := by
    intro words h w hw
    obtain ⟨w₀, hw₀, rfl⟩ := List.mem_map.mp hw
    exact h w₀ hw₀
  cases part with
  | prefixPart => exact hmap _ (hx .prefixPart)
  | mainPart => exact hmap _ (hx .mainPart)
  | suffixPart => exact hmap _ (hx .suffixPart)

theorem ensures_templates (part : Part) (is : List ℕ) :
    Ensures (is.mapM fun _ ↦ getWord part) s fun words _ ↦ ReadyWords C part words := by
  refine (Ensures.mapM (I := fun _ ↦ True) (C := fun _ w ↦ LegibleTemplate w ∧ 0 ≤ w.label)
    (fun _ _ s' _ ↦ (ensures_template part).mono fun _ _ h ↦ ⟨h, True.intro⟩) True.intro).mono
    fun words _ h ↦ ?_
  intro w hw
  obtain ⟨i, hi, rfl⟩ := List.getElem_of_mem hw
  exact .inl (h.1.get (h.1.length_eq ▸ hi) hi)

theorem ensures_generate_ready (m : RvMutator) : Ensures m.generate s fun parts _ ↦
    ∀ part, ReadyWords C part (parts.words part) := by
  apply Ensures.bind (ensures_templates .prefixPart _)
  intro prefixWords s₁ hbegins
  apply Ensures.bind (ensures_templates .mainPart _)
  intro words s₂ hwords
  apply Ensures.bind (ensures_templates .suffixPart _)
  intro suffixWords s₃ hsuffix
  apply Ensures.pure
  intro part
  cases part with
  | prefixPart => exact hbegins
  | mainPart => exact hwords
  | suffixPart => exact hsuffix

/-- The seed words of a mutation or of a merge come from tests of the corpus. -/
theorem ensures_mutationSeed_words (hm : ∀ x ∈ m.corpus, AllWords C x.partWords) {draws : Draws} :
    Ensures m.mutationSeed draws fun seed _ ↦ ∀ part, ∀ w ∈ seed.words part, C part w.toWord := by
  apply Ensures.bind (Q := fun x _ ↦ x ∈ m.corpus) ⟨fun _ h ↦ Draws.mem_of_choice_eq_ok h⟩
  intro x draws₁ hx
  exact .pure fun part ↦ forall_seedWords (hm x hx) part

theorem ensures_mergeSeed_words (hm : ∀ x ∈ m.corpus, AllWords C x.partWords) {draws : Draws} :
    Ensures m.mergeSeed draws fun seed _ ↦ ∀ part, ∀ w ∈ seed.words part, C part w.toWord := by
  apply Ensures.bind (Q := fun x _ ↦ x ∈ m.corpus) ⟨fun _ h ↦ Draws.mem_of_choice_eq_ok h⟩
  intro x₁ draws₁ hx₁
  apply Ensures.bind (Q := fun x _ ↦ x ∈ m.corpus) ⟨fun _ h ↦ Draws.mem_of_choice_eq_ok h⟩
  intro x₂ draws₂ hx₂
  apply Ensures.bind .trivial
  intro idx draws₃ _
  apply Ensures.pure
  intro part
  by_cases hpart : part = .mainPart
  · subst hpart
    dsimp only
    rw [Function.update_self]
    intro w hw
    rcases List.mem_append.mp hw with hw | hw
    · exact forall_seedWords (hm x₁ hx₁) .mainPart w (List.mem_of_mem_take hw)
    · exact forall_seedWords (hm x₂ hx₂) .mainPart w (List.mem_of_mem_drop hw)
  · dsimp only
    rw [Function.update_of_ne hpart]
    exact forall_seedWords (hm x₁ hx₁) part

namespace WordInvariant

theorem ensures_mutateParts (hC : WordInvariant C) {seed : Parts}
    (h : ∀ part, ∀ w ∈ seed.words part, C part w.toWord) :
    Ensures (mutateParts seed) s fun parts _ ↦ ∀ part, ReadyWords C part (parts.words part) := by
  apply Ensures.bind (hC.ensures_mutateWords (h .prefixPart) _)
  intro prefixWords s₁ hbegins
  apply Ensures.bind (hC.ensures_mutateWords (h .mainPart) _)
  intro words s₂ hwords
  apply Ensures.bind (hC.ensures_mutateWords (h .suffixPart) _)
  intro suffixWords s₃ hsuffix
  apply Ensures.pure
  intro part
  cases part with
  | prefixPart => exact fun w hw ↦ .inr (hbegins w hw)
  | mainPart => exact fun w hw ↦ .inr (hwords w hw)
  | suffixPart => exact fun w hw ↦ .inr (hsuffix w hw)

theorem ensures_makeParts (hC : WordInvariant C) (hm : ∀ x ∈ m.corpus, AllWords C x.partWords) :
    Ensures m.makeParts s fun parts _ ↦ ∀ part, ReadyWords C part (parts.words part) := by
  unfold makeParts
  cases m.phase with
  | generation => exact ensures_generate_ready m
  | mutation =>
    apply Ensures.bind (.draw (ensures_mutationSeed_words hm))
    intro seed s₁ hseed
    exact hC.ensures_mutateParts hseed
  | merge =>
    apply Ensures.bind (.draw (ensures_mergeSeed_words hm))
    intro seed s₁ hseed
    exact hC.ensures_mutateParts hseed

theorem ensures_populateWords (hC : WordInvariant C) {words : List GenWord}
    (h : ReadyWords C part words) :
    Ensures (populateWords words part) s fun words' _ ↦ ∀ w ∈ words', C part w := by
  have hstep : ∀ w ∈ words, ∀ s, True → Ensures (do
      let w ← Generating.populateWord w words.length part
      return w.toWord) s fun w' _ ↦ C part w' ∧ True := by
    intro w hw s _
    have hpopulate : Ensures (Generating.populateWord w words.length part) s
        fun w' _ ↦ C part w'.toWord := by
      rcases h w hw with ⟨htemplate, hlabel⟩ | hkept
      · exact hC.populateWord htemplate hlabel
      · rw [populateWord_of_populated (hC.populated hkept)]
        exact .pure hkept
    apply Ensures.bind hpopulate
    intro w' s' hw'
    exact .pure ⟨hw', True.intro⟩
  refine (Ensures.mapM (C := fun _ w' ↦ C part w') hstep True.intro).mono fun words' _ h' w' hw' ↦ ?_
  obtain ⟨i, hi, rfl⟩ := List.getElem_of_mem hw'
  exact h'.1.get (h'.1.length_eq ▸ hi) hi

theorem ensures_makeDraft (hC : WordInvariant C) (hm : ∀ x ∈ m.corpus, AllWords C x.partWords)
    (assertIntr : Bool) :
    Ensures (m.makeDraft assertIntr) s fun draft _ ↦ AllWords C draft.partWords := by
  apply Ensures.bind (hC.ensures_makeParts hm)
  intro parts s₁ hparts
  apply Ensures.bind (hC.ensures_populateWords (hparts .prefixPart))
  intro prefixWords s₂ hbegins
  apply Ensures.bind (hC.ensures_populateWords (hparts .mainPart))
  intro words s₃ hwords
  apply Ensures.bind (hC.ensures_populateWords (hparts .suffixPart))
  intro suffixWords s₄ hsuffix
  apply Ensures.bind .trivial
  intro ints s₅ _
  apply Ensures.pure
  intro part
  cases part with
  | prefixPart => exact hbegins
  | mainPart => exact hwords
  | suffixPart => exact hsuffix

end WordInvariant

end Get

/-- All words of the tests that were returned or are in the corpus. -/
structure HoldsOf (C : Part → Word → Prop) (s : Session) : Prop where
  returned : ∀ r ∈ s.returned, AllWords C r.simInput.partWords
  corpus : ∀ x ∈ s.mutator.corpus, AllWords C x.partWords

/-- The words of the files that are read in a call. -/
def ReadsWords (C : Part → Word → Prop) (call : Call) : Prop :=
  ∀ contents draws, call = .readSiminput contents draws → ∀ {part label insts w},
    (Word.new label insts).populate Dict.empty part = .ok w → C part w

section Sessions

variable {C : Part → Word → Prop} {s : Session}

theorem holdsOf_start (C : Part → Word → Prop) (maxDataSeeds corpusSize : ℕ) (noGuide : Bool) :
    HoldsOf C (Session.start maxDataSeeds corpusSize noGuide) := ⟨nofun, nofun⟩

theorem HoldsOf.cons (hs : HoldsOf C s) {r : Returned} (hr : AllWords C r.simInput.partWords)
    {m : RvMutator} (hm : m.corpus = s.mutator.corpus) : HoldsOf C ⟨m, r :: s.returned⟩ :=
  ⟨List.forall_mem_cons.mpr ⟨hr, hs.returned⟩, hm ▸ hs.corpus⟩

/-- The words of a test that is read. -/
theorem allWords_readSiminput {contents : Text} {m m' : Mutator} {draws draws' : Draws}
    {x : SimInput} {data : List ℤ} {intr : Bool}
    (hread : ∀ {part label insts w}, (Word.new label insts).populate Dict.empty part = .ok w →
      C part w) (h : m.readSiminput contents draws = .ok ((x, data, intr), m', draws')) :
    AllWords C x.partWords := by
  have hwords {part : Part} {tuples : List (ℤ × List Text)} {words : List Word}
      (h : Mutator.tuplesToWords tuples part = .ok words) : ∀ w ∈ words, C part w := by
    have hforall := forall₂_of_mapM_eq_ok h
    intro w hw
    obtain ⟨i, hi, rfl⟩ := List.getElem_of_mem hw
    exact hread (hforall.get (hforall.length_eq ▸ hi) hi)
  unfold Mutator.readSiminput at h
  split at h
  · exact nomatch h
  · obtain ⟨template, -, h⟩ := bind_eq_ok.mp h
    split at h
    · exact nomatch h
    · obtain ⟨⟨r, newData⟩, -, h⟩ := bind_eq_ok.mp h
      obtain ⟨prefixWords, hbegins, h⟩ := bind_eq_ok.mp h
      obtain ⟨words, hmain, h⟩ := bind_eq_ok.mp h
      obtain ⟨suffixWords, hsuffix, h⟩ := bind_eq_ok.mp h
      obtain ⟨⟨seed, m₁, draws₁⟩, -, h⟩ := bind_eq_ok.mp h
      dsimp only at h
      split at h
      · exact nomatch h
      · have heq := (Prod.mk.inj (Prod.mk.inj (Except.ok.inj h)).1).1
        subst heq
        intro part
        cases part with
        | prefixPart => exact hwords hbegins
        | mainPart => exact hwords hmain
        | suffixPart => exact hwords hsuffix

namespace WordInvariant

theorem get (hC : WordInvariant C) {m m' : RvMutator} (hm : ∀ x ∈ m.corpus, AllWords C x.partWords)
    {it : ℕ} {assertIntr : Bool} {draws draws' : Draws} {x : SimInput} {data : List ℤ}
    (h : m.get it assertIntr draws = .ok ((x, data), m', draws')) :
    AllWords C x.partWords ∧ m'.corpus = m.corpus := by
  obtain ⟨⟨draft, s⟩, hdraft, hfinish⟩ := bind_eq_ok.mp h
  obtain ⟨hwords, -, hcorpus, -⟩ := finish_eq_ok hfinish
  have hdrafted : AllWords C draft.partWords :=
    (hC.ensures_makeDraft hm assertIntr).of_eq_ok _ hdraft
  exact ⟨hwords ▸ hdrafted, hcorpus⟩

theorem nopWords (hC : WordInvariant C) {part : Part} {target newTarget : List Word}
    {nopMask : List Bool} (h : ∀ w ∈ target, C part w)
    (hrun : RvMutator.nopWords part target nopMask = .ok newTarget) : ∀ w ∈ newTarget, C part w := by
  have hforall := forall₂_of_mapM_eq_ok hrun
  intro w hw
  obtain ⟨i, hi, rfl⟩ := List.getElem_of_mem hw
  have hi' : i < (target.zip nopMask).length := hforall.length_eq ▸ hi
  have hstep := hforall.get hi' hi
  split at hstep
  · exact hC.nop hstep
  · have heq : ((target.zip nopMask).get ⟨i, hi'⟩).1 = newTarget[i] := Except.ok.inj hstep
    exact heq ▸ h _ (List.of_mem_zip (List.get_mem _ ⟨i, hi'⟩)).1

theorem makeNop (hC : WordInvariant C) {m : RvMutator} {x y : SimInput} {data : List ℤ}
    {nopMask : List Bool} {part : Part} (hx : AllWords C x.partWords)
    (h : m.makeNop x nopMask part = .ok (y, data)) : AllWords C y.partWords := by
  obtain ⟨_, -, h⟩ := bind_eq_ok.mp h
  obtain ⟨newTarget, htarget, h⟩ := bind_eq_ok.mp h
  obtain ⟨minInput, hmin, h⟩ := bind_eq_ok.mp h
  split at h
  · exact nomatch h
  · obtain ⟨rfl, -⟩ := Prod.mk.inj (Except.ok.inj h)
    cases part with
    | prefixPart =>
      have hnew := hC.nopWords (hx .prefixPart) htarget
      obtain rfl := Except.ok.inj hmin
      intro part
      cases part with
      | prefixPart => exact hnew
      | mainPart => exact hx .mainPart
      | suffixPart => exact hx .suffixPart
    | mainPart =>
      have hnew := hC.nopWords (hx .mainPart) htarget
      obtain ⟨newInts, -, hmin⟩ := bind_eq_ok.mp hmin
      obtain rfl := Except.ok.inj hmin
      intro part
      cases part with
      | prefixPart => exact hx .prefixPart
      | mainPart => exact hnew
      | suffixPart => exact hx .suffixPart
    | suffixPart =>
      have hnew := hC.nopWords (hx .suffixPart) htarget
      obtain rfl := Except.ok.inj hmin
      intro part
      cases part with
      | prefixPart => exact hx .prefixPart
      | mainPart => exact hx .mainPart
      | suffixPart => exact hnew

theorem deleteWords (hC : WordInvariant C) {part : Part} {target words : List Word}
    {draws draws' : Draws} (h : ∀ w ∈ target, C part w)
    (hrun : RvMutator.deleteWords part target draws = .ok (words, draws')) :
    ∀ w ∈ words, C part w := by
  obtain ⟨⟨words', draws₁⟩, hreset, hrun⟩ := bind_eq_ok.mp hrun
  obtain ⟨rfl, -⟩ := Prod.mk.inj (Except.ok.inj hrun)
  have htmps : ∀ w ∈ (target.filter fun w ↦ w.insts ≠ ["nop".toList]).map Word.toGen,
      C part w.toWord := by
    intro w hw
    obtain ⟨w₀, hw₀, rfl⟩ := List.mem_map.mp hw
    exact h w₀ (List.mem_of_mem_filter hw₀)
  have hwords := (hC.resetLabels htmps).of_eq_ok _ hreset
  intro w hw
  obtain ⟨w₀, hw₀, rfl⟩ := List.mem_map.mp hw
  exact hwords w₀ hw₀

theorem deleteNop (hC : WordInvariant C) {m : RvMutator} {x y : SimInput} {data : List ℤ}
    {draws draws' : Draws} (hx : AllWords C x.partWords)
    (h : m.deleteNop x draws = .ok ((y, data), draws')) : AllWords C y.partWords := by
  obtain ⟨⟨prefixWords, draws₁⟩, hbegins, h⟩ := bind_eq_ok.mp h
  obtain ⟨⟨words, draws₂⟩, hwords, h⟩ := bind_eq_ok.mp h
  obtain ⟨⟨suffixWords, draws₃⟩, hsuffix, h⟩ := bind_eq_ok.mp h
  dsimp only at h
  split at h
  · exact nomatch h
  · obtain ⟨heq, -⟩ := Prod.mk.inj (Except.ok.inj h)
    obtain ⟨rfl, -⟩ := Prod.mk.inj heq
    intro part
    cases part with
    | prefixPart => exact hC.deleteWords (hx .prefixPart) hbegins
    | mainPart => exact hC.deleteWords (hx .mainPart) hwords
    | suffixPart => exact hC.deleteWords (hx .suffixPart) hsuffix

theorem fuzzStep (hC : WordInvariant C) (hs : HoldsOf C s) (call : FuzzCall) :
    HoldsOf C (s.fuzzStep call) := by
  cases call with
  | updatePhase it draws =>
    rw [Session.fuzzStep]
    split
    · exact hs
    · next m draws' h =>
      obtain ⟨-, hcorpus⟩ := toMutator_updatePhase h
      exact ⟨hs.returned, hcorpus ▸ hs.corpus⟩
  | get it assertIntr draws =>
    rw [Session.fuzzStep]
    split
    · exact hs
    · next x data m draws' h =>
      obtain ⟨hx, hcorpus⟩ := hC.get hs.corpus h
      exact hs.cons hx hcorpus
  | addCorpus i =>
    rw [Session.fuzzStep]
    split
    · exact hs
    · next r hr =>
      refine ⟨hs.returned, fun x hx ↦ ?_⟩
      rcases mem_corpus_addCorpus hx with hx | rfl
      · exact hs.corpus x hx
      · exact hs.returned r (List.mem_of_getElem? hr)

/-- What a call keeps. -/
theorem step (hC : WordInvariant C) (hs : HoldsOf C s) {call : Call} (hread : ReadsWords C call) :
    HoldsOf C (s.step call) := by
  cases call with
  | fuzz call => exact hC.fuzzStep hs call
  | setPhase phase => exact ⟨hs.returned, hs.corpus⟩
  | readSiminput contents draws =>
    rw [Session.step]
    split
    · exact hs
    · next x data intr m draws' h =>
      obtain ⟨⟨result, base, draws₁⟩, hreads, h⟩ := bind_eq_ok.mp h
      obtain ⟨rfl, hm⟩ := Prod.mk.inj (Except.ok.inj h)
      obtain ⟨rfl, -⟩ := Prod.mk.inj hm
      exact hs.cons (allWords_readSiminput (hread contents draws rfl) hreads) rfl
  | makeNop i nopMask part =>
    rw [Session.step]
    split
    · exact hs
    · next r hr =>
      split
      · exact hs
      · next x data h =>
        exact hs.cons (hC.makeNop (hs.returned r (List.mem_of_getElem? hr)) h) rfl
  | deleteNop i draws =>
    rw [Session.step]
    split
    · exact hs
    · next r hr =>
      split
      · exact hs
      · next x data draws' h =>
        exact hs.cons (hC.deleteNop (hs.returned r (List.mem_of_getElem? hr)) h) rfl

/-- What a sequence of calls keeps. -/
theorem run (hC : WordInvariant C) (hs : HoldsOf C s) {calls : List Call}
    (hread : ∀ call ∈ calls, ReadsWords C call) : HoldsOf C (s.run calls) := by
  induction calls generalizing s with
  | nil => exact hs
  | cons call calls ih =>
    obtain ⟨hcall, hcalls⟩ := List.forall_mem_cons.mp hread
    exact ih (hC.step hs hcall) hcalls

end WordInvariant

end Sessions

/-- A populated word with instructions. -/
def WholeWord (w : Word) : Prop := w.populated = true ∧ w.insts ≠ []

theorem wholeWord_of_populate {w w' : Word} {opvals : Dict Text Text} {part : Part}
    (h : w.populate opvals part = .ok w') : WholeWord w' := by
  obtain ⟨hpopulated, hinsts, -⟩ := length_retInsts_populate h
  refine ⟨hpopulated, fun hnil ↦ ?_⟩
  unfold Word.populate at h
  obtain ⟨-, -, h⟩ := bind_eq_ok.mp h
  rw [← hinsts, hnil] at h
  exact nomatch h

section Insts

variable {D : List Text → Prop} {part : Part}

/-- A populated word keeps its instructions when its label is set. -/
theorem forall_relabel {n : ℕ} {labelMap labelMap' : Dict ℤ ℤ} {words words' : List GenWord}
    (h : ∀ w ∈ words, w.populated = true ∧ D w.insts)
    (hrun : relabel part n labelMap words = .ok (words', labelMap')) :
    ∀ w ∈ words', w.populated = true ∧ D w.insts := by
  induction words generalizing n labelMap words' labelMap' with
  | nil =>
    obtain ⟨rfl, -⟩ := Prod.mk.inj (Except.ok.inj hrun)
    exact nofun
  | cons w words ih =>
    obtain ⟨hw, hwords⟩ := List.forall_mem_cons.mp h
    obtain ⟨⟨word, tup⟩, hreset, hrun⟩ := bind_eq_ok.mp hrun
    obtain ⟨⟨rest, labelMap₁⟩, hrest, hrun⟩ := bind_eq_ok.mp hrun
    obtain ⟨rfl, -⟩ := Prod.mk.inj (Except.ok.inj hrun)
    refine List.forall_mem_cons.mpr ⟨?_, ih hwords hrest⟩
    rw [Word.resetLabel, if_pos hw.1] at hreset
    split at hreset
    · cases hreset
    · obtain ⟨rfl, -⟩ := Prod.mk.inj (Except.ok.inj hreset)
      exact hw

theorem wordInvariant_insts (hD : ∀ insts, insts ≠ [] → D insts) :
    WordInvariant fun _ w ↦ w.populated = true ∧ D w.insts where
  populated h := h.1
  populateWord hw _ := by
    rw [populateWord_eq hw.populated_eq]
    apply Ensures.bind .trivial
    intro opvals₁ s₁ _
    apply Ensures.bind .trivial
    intro opvals₂ s₂ _
    apply Ensures.bind (.lift (Q := fun word _ ↦ WholeWord word) fun _ h ↦ wholeWord_of_populate h)
    intro word s₃ hword
    exact .pure ⟨hword.1, hD _ hword.2⟩
  nop h := (wholeWord_of_populate h).imp_right (hD _)
  resetLabels {part words draws} h := by
    apply Ensures.bind (.lift (Q := fun r _ ↦ ∀ w ∈ r.1, w.populated = true ∧ D w.insts)
      fun _ hr ↦ forall_relabel h hr)
    intro ⟨words₁, labelMap⟩ draws₁ hwords₁
    have hrepop : ∀ w ∈ words₁, ∀ draws, True → Ensures (do
        let word ← w.toWord.repopLabel labelMap words₁.length part
        return { w with toWord := word } : Stateful Draws GenWord) draws
        fun w' _ ↦ (w'.populated = true ∧ D w'.insts) ∧ True := by
      intro w hw draws _
      have hwhole := hwords₁ w hw
      constructor
      intro r hr
      obtain ⟨⟨word, draws'⟩, hword, hr⟩ := bind_eq_ok.mp hr
      obtain rfl := Except.ok.inj hr
      obtain ⟨retInsts, rfl, -⟩ := Word.repopLabel_eq_ok hwhole.1 hword
        (R := fun _ _ ↦ True) fun _ ↦ True.intro
      exact ⟨hwhole, True.intro⟩
    refine (Ensures.mapM (C := fun _ (w' : GenWord) ↦ w'.populated = true ∧ D w'.insts) hrepop
      True.intro).mono fun words₂ _ h₂ w' hw' ↦ ?_
    obtain ⟨i, hi, rfl⟩ := List.getElem_of_mem hw'
    exact h₂.1.get (h₂.1.length_eq ▸ hi) hi

end Insts

theorem wordInvariant_wholeWord : WordInvariant fun _ ↦ WholeWord :=
  wordInvariant_insts fun _ h ↦ h

theorem wordInvariant_populated : WordInvariant fun _ w ↦ w.populated = true := by
  have hinsts := wordInvariant_insts (D := fun _ ↦ True) fun _ _ ↦ True.intro
  simpa only [and_true] using hinsts

/-- Every session has words with instructions only, whatever the files are that it reads. -/
theorem holdsOf_wholeWord (maxDataSeeds corpusSize : ℕ) (noGuide : Bool) (calls : List Call) :
    HoldsOf (fun _ ↦ WholeWord) ((Session.start maxDataSeeds corpusSize noGuide).run calls) :=
  wordInvariant_wholeWord.run (holdsOf_start _ _ _ _) fun _ _ _ _ _ ↦ wholeWord_of_populate

theorem wordInvariant_legibleLines : WordInvariant LegibleLines where
  populated h := h.populated
  populateWord hw hlabel := ensures_legibleLines hw hlabel
  nop {part label w} h := by
    have hnop : LabelText part "nop".toList := .inl (by cases part <;> decide)
    have hlines : w.retInsts =
        [Text.ljust 8 (Word.labelText part label) ++ Text.ljust 42 "nop".toList] := by
      obtain ⟨-, -, h⟩ := bind_eq_ok.mp h
      exact (Except.ok.inj h) ▸ rfl
    refine ⟨(wholeWord_of_populate h).1, by rw [hlines]; exact List.cons_ne_nil _ _, ?_⟩
    rw [hlines]
    exact List.forall_mem_singleton.mpr
      (legibleLine_label (hnop.padded (padded_ljust 42 "nop".toList)) label)
  resetLabels h := by
    refine (returns_resetLabels h _).ensures.mono fun words' _ h' w hw ↦ ?_
    obtain ⟨i, hi, rfl⟩ := List.getElem_of_mem hw
    exact (h'.2 i _ (List.getElem?_eq_getElem hi)).2

/-- Sessions that read no file have words with legible lines only. -/
theorem holdsOf_legibleLines (maxDataSeeds corpusSize : ℕ) (noGuide : Bool) {calls : List Call}
    (hread : ∀ call ∈ calls, ∀ contents draws, call ≠ .readSiminput contents draws) :
    HoldsOf LegibleLines ((Session.start maxDataSeeds corpusSize noGuide).run calls) :=
  wordInvariant_legibleLines.run (holdsOf_start _ _ _ _) fun call hcall contents draws heq ↦
    absurd heq (hread call hcall contents draws)

end ProcessorFuzz.Mutation
