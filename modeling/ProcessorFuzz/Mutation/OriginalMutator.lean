import ProcessorFuzz.Mutation.ForwardRuns

/-!
# The original mutator

The mutator of the original fuzzer leaves the words that it inserts unpopulated until all labels are
set, so that `reset_labels` finds printed words of tests only. Their labels are the places that they
had, which are in order, and so each reference stays behind its word when the labels are set anew.
-/

namespace ProcessorFuzz.Mutation

open Library Library.Stateful Generating RvMutator

namespace Original

/-- The loop of `mutate_words`. -/
def mutateLoop (part : Part) : List GenWord → Generating (List GenWord)
  | [] => return []
  | word :: seedWords => do
    let rand ← onSnd Draws.random
    if Draws.below rand 1 2 then do
      let words ← mutateLoop part seedWords
      return word :: words
    else if Draws.below rand 3 4 then do
      let newWord ← getWord part
      let words ← mutateLoop part seedWords
      return word :: newWord :: words
    else mutateLoop part seedWords

def mutateWords (seedWords : List GenWord) (part : Part) (maxNum : ℕ) :
    Generating (List GenWord) := do
  let words ← mutateLoop part seedWords
  onSnd (resetLabels (words.take maxNum) part)

/-- Printed words have labels that increase. -/
def Increasing (w w' : GenWord) : Prop :=
  w.populated = true → w'.populated = true → w.label < w'.label

/-- What the loop makes of seed words: printed ones in order and templates. -/
structure Thinned (seedWords words : List GenWord) : Prop where
  mem : ∀ w ∈ words, w ∈ seedWords ∨ JumpTemplate w
  pairwise : words.Pairwise Increasing

section Loop

variable {part : Part} {words seedWords : List GenWord} {s : InstGenerator × Draws}

theorem Thinned.increasing {word : GenWord} (h : Thinned seedWords words)
    (hword : ∀ w ∈ seedWords, Increasing word w) : ∀ w ∈ words, Increasing word w := by
  intro w hw
  rcases h.mem w hw with hseed | htemplate
  · exact hword w hseed
  · intro _ hpopulated
    rw [htemplate.populated_eq] at hpopulated
    exact absurd hpopulated Bool.false_ne_true

theorem Thinned.keep {word : GenWord} (h : Thinned seedWords words)
    (hword : ∀ w ∈ seedWords, Increasing word w) : Thinned (word :: seedWords) (word :: words) where
  mem := List.forall_mem_cons.mpr ⟨.inl List.mem_cons_self,
    fun w hw ↦ (h.mem w hw).imp_left (List.mem_cons_of_mem word)⟩
  pairwise := List.pairwise_cons.mpr ⟨h.increasing hword, h.pairwise⟩

theorem Thinned.insert {word newWord : GenWord} (h : Thinned seedWords words)
    (hword : ∀ w ∈ seedWords, Increasing word w) (hnew : JumpTemplate newWord) :
    Thinned (word :: seedWords) (word :: newWord :: words) := by
  have htemplate (w : GenWord) : Increasing newWord w := by
    intro hpopulated
    rw [hnew.populated_eq] at hpopulated
    exact absurd hpopulated Bool.false_ne_true
  have hbefore : Increasing word newWord := by
    intro _ hpopulated
    rw [hnew.populated_eq] at hpopulated
    exact absurd hpopulated Bool.false_ne_true
  constructor
  · exact List.forall_mem_cons.mpr ⟨.inl List.mem_cons_self, List.forall_mem_cons.mpr ⟨.inr hnew,
      fun w hw ↦ (h.mem w hw).imp_left (List.mem_cons_of_mem word)⟩⟩
  · exact List.pairwise_cons.mpr ⟨List.forall_mem_cons.mpr ⟨hbefore, h.increasing hword⟩,
      List.pairwise_cons.mpr ⟨fun w _ ↦ htemplate w, h.pairwise⟩⟩

theorem ensures_mutateLoop_thinned (hseed : seedWords.Pairwise Increasing) :
    Ensures (mutateLoop part seedWords) s fun words s' ↦ Thinned seedWords words ∧
      ∀ q ≠ part, s'.1.num q = s.1.num q := by
  induction seedWords generalizing s with
  | nil => exact .pure ⟨⟨List.forall_mem_nil _, .nil⟩, fun _ _ ↦ rfl⟩
  | cons word seedWords ih =>
    obtain ⟨hword, hseedWords⟩ := List.pairwise_cons.mp hseed
    apply Ensures.bind (Q := fun _ s₁ ↦ s₁.1 = s.1) (.onSnd (Ensures.trivial.mono fun _ _ _ ↦ rfl))
    intro rand s₁ heq
    split
    · apply Ensures.bind (ih hseedWords)
      intro words s₂ ⟨hthinned, hothers⟩
      refine .pure ⟨hthinned.keep hword, fun q hq ↦ ?_⟩
      rw [hothers q hq, heq]
    · split
      · apply Ensures.bind (ensures_jumpTemplate part)
        intro newWord s₂ ⟨htemplate, _, hnum⟩
        apply Ensures.bind (ih hseedWords)
        intro words s₃ ⟨hthinned, hothers⟩
        refine .pure ⟨hthinned.insert hword htemplate, fun q hq ↦ ?_⟩
        rw [hothers q hq, hnum, Function.update_of_ne hq, heq]
      · refine (ih hseedWords).mono fun words s₂ ⟨hthinned, hothers⟩ ↦ ⟨⟨fun w hw ↦ ?_,
          hthinned.pairwise⟩, fun q hq ↦ ?_⟩
        · exact (hthinned.mem w hw).imp_left (List.mem_cons_of_mem word)
        · rw [hothers q hq, heq]

theorem pairwise_increasing_of_seedPart (h : SeedPart part words) : words.Pairwise Increasing := by
  rw [List.pairwise_iff_getElem]
  intro i j hi hj hlt _ _
  obtain ⟨n, hforward⟩ := h.words i _ (List.getElem?_eq_getElem hi)
  obtain ⟨n', hforward'⟩ := h.words j _ (List.getElem?_eq_getElem hj)
  rw [hforward.label_eq, hforward'.label_eq]
  exact Int.ofNat_lt.mpr hlt

/-- The words that a word of control flow names come after it, so they are behind it. -/
theorem ahead_of_thinned (hseed : SeedPart part seedWords) (hmem : ∀ w ∈ words,
    w ∈ seedWords ∨ JumpTemplate w) (hpairwise : words.Pairwise Increasing) : Ahead part words := by
  rintro i w m hw hpopulated hcontrol href ⟨q, hq, w', hw', hpopulated', hlabel'⟩
  have hlater : w.label < m := by
    rcases hmem w (List.mem_of_getElem? hw) with hmem | htemplate
    · obtain ⟨j, hj⟩ := List.mem_iff_getElem?.mp hmem
      obtain ⟨n, hforward⟩ := hseed.words j w hj
      rw [hforward.label_eq]
      exact Int.ofNat_lt.mpr ((hforward.later hcontrol).2 m href)
    · rw [htemplate.populated_eq] at hpopulated
      exact absurd hpopulated Bool.false_ne_true
  have hle : w'.label ≤ w.label := by
    rcases hq.lt_or_eq with hlt | rfl
    · obtain ⟨hi, rfl⟩ := List.getElem?_eq_some_iff.mp hw
      obtain ⟨hq', rfl⟩ := List.getElem?_eq_some_iff.mp hw'
      exact (List.pairwise_iff_getElem.mp hpairwise q i hq' hi hlt hpopulated' hpopulated).le
    · obtain rfl := Option.some.inj (hw.symm.trans hw')
      exact le_rfl
  omega

end Loop

/-- Words in order come out of seed words at their places. -/
theorem mutatesForward_mutateWords : MutatesForward mutateWords fun _ _ _ ↦ True := by
  intro part seedWords s hseed _ _
  apply Ensures.bind (ensures_mutateLoop_thinned (pairwise_increasing_of_seedPart hseed))
  intro words s₁ ⟨hthinned, hothers⟩
  have hmem : ∀ w ∈ words.take (maxWords part), w ∈ seedWords ∨ JumpTemplate w :=
    fun w hw ↦ hthinned.mem w (List.mem_of_mem_take hw)
  have hlength : (words.take (maxWords part)).length ≤ 200 := by
    have hmax : maxWords part ≤ 200 := by cases part <;> decide
    rw [List.length_take]
    omega
  have hwords : ∀ w ∈ words.take (maxWords part), JumpTemplate w ∨ Linked part w.toWord :=
    fun w hw ↦ (hmem w hw).symm.imp_right hseed.linked
  have hahead := ahead_of_thinned hseed hmem (hthinned.pairwise.sublist (List.take_sublist _ _))
  exact .onSnd ((ensures_resetLabels_prepared hlength hwords hahead).mono
    fun _ _ h ↦ ⟨h, hothers⟩)

end Original

end ProcessorFuzz.Mutation
