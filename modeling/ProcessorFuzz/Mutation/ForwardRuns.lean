import ProcessorFuzz.Mutation.CorpusData
import ProcessorFuzz.Mutation.ForwardWords
import ProcessorFuzz.Mutation.SampleRanges

/-!
# Tests that jump forward

There are two mutators, which differ in `mutate_words` alone. A way to mutate words that makes words
which jump forward out of words which do keeps all tests of a session like this: the generated words
are numbered by their places, the spliced ones of a merge keep theirs, and the words that are left
to be populated at the end of `get` are populated with their places.
-/

namespace ProcessorFuzz.Mutation

open Library Library.Stateful Generating RvMutator

/-- `mutate_words` of a list of words of a part, of which so many are kept at most. -/
abbrev WordsMutation := List GenWord → Part → ℕ → Generating (List GenWord)

namespace RvMutator

def mutatePartsWith (mutate : WordsMutation) (seed : Parts) : Generating Parts := do
  let prefixWords ← mutate (seed.words .prefixPart) .prefixPart (maxWords .prefixPart)
  let words ← mutate (seed.words .mainPart) .mainPart (maxWords .mainPart)
  let suffixWords ← mutate (seed.words .suffixPart) .suffixPart (maxWords .suffixPart)
  return { seed with
    words
      | .prefixPart => prefixWords
      | .mainPart => words
      | .suffixPart => suffixWords }

def makePartsWith (mutate : WordsMutation) (m : RvMutator) : Generating Parts :=
  match m.phase with
  | .generation => m.generate
  | .mutation => do
    let seed ← onSnd m.mutationSeed
    mutatePartsWith mutate seed
  | .merge => do
    let seed ← onSnd m.mergeSeed
    mutatePartsWith mutate seed

def makeDraftWith (mutate : WordsMutation) (m : RvMutator) (assertIntr : Bool) :
    Generating Draft := do
  let parts ← m.makePartsWith mutate
  let prefixWords ← populateWords (parts.words .prefixPart) .prefixPart
  let words ← populateWords (parts.words .mainPart) .mainPart
  let suffixWords ← populateWords (parts.words .suffixPart) .suffixPart
  let ints ← onSnd (drawInts (words.map fun w ↦ w.insts.length).sum assertIntr)
  return { prefixWords, words, suffixWords, ints
           parent := parts.parent
           nameSuffix := parts.nameSuffix }

def getWith (mutate : WordsMutation) (m : RvMutator) (it : ℕ) (assertIntr : Bool) (draws : Draws) :
    Except PyError ((SimInput × List ℤ) × RvMutator × Draws) := do
  let (draft, s) ← m.makeDraftWith mutate assertIntr (InstGenerator.start, draws)
  m.finish it draft s.2

theorem getWith_mutateWords : getWith mutateWords = get := by
  funext m it assertIntr draws
  have hparts : m.makePartsWith mutateWords = m.makeParts := by
    unfold makePartsWith makeParts
    cases m.phase <;> rfl
  rw [getWith, get, makeDraftWith, makeDraft, hparts]

theorem getWith_of_generation {mutate : WordsMutation} {m : RvMutator} (h : m.phase = .generation)
    (it : ℕ) (assertIntr : Bool) (draws : Draws) :
    m.getWith mutate it assertIntr draws = m.get it assertIntr draws := by
  have hparts : m.makePartsWith mutate = m.makeParts := by
    rw [makePartsWith, makeParts, h]
  rw [getWith, get, makeDraftWith, makeDraft, hparts]

end RvMutator

namespace Session

/-- A call of the fuzzer's loop, with this `mutate_words`. -/
def fuzzStepWith (mutate : WordsMutation) (s : Session) : FuzzCall → Session
  | .updatePhase it draws =>
    match s.mutator.updatePhase it draws with
    | .error _ => s
    | .ok (m, _) => { s with mutator := m }
  | .get it assertIntr draws =>
    match s.mutator.getWith mutate it assertIntr draws with
    | .error _ => s
    | .ok ((x, data), m, _) => ⟨m, ⟨x, data, .get s.mutator.phase⟩ :: s.returned⟩
  | .addCorpus i =>
    match s.returned[i]? with
    | none => s
    | some r => { s with mutator := s.mutator.addCorpus r.simInput }

def fuzzWith (mutate : WordsMutation) (s : Session) (calls : List FuzzCall) : Session :=
  calls.foldl (fuzzStepWith mutate) s

theorem fuzzStepWith_mutateWords : fuzzStepWith mutateWords = fuzzStep := by
  funext s call
  cases call with
  | updatePhase it draws => rfl
  | get it assertIntr draws =>
    rw [fuzzStepWith, getWith_mutateWords]
    rfl
  | addCorpus i => rfl

end Session

/-- The words of a part of a test, in order. -/
def ForwardPart (part : Part) (words : List Word) : Prop :=
  ∀ (i : ℕ) (w : Word), words[i]? = some w → Forward part words.length i w

/-- What `get_prefix`, `get_insts` and `get_suffix` return. -/
def SimInput.emitted (x : SimInput) : Part → Except PyError (List Text)
  | .prefixPart => x.getPrefix
  | .mainPart => x.getInsts
  | .suffixPart => x.getSuffix

/-- The words of a part are in order, and the labels that they may name are emitted with them. -/
structure ForwardTest (x : SimInput) : Prop where
  words : ∀ part, ForwardPart part (x.partWords part)
  length_le : ∀ part, (x.partWords part).length ≤ 200
  emitted_eq : ∀ part, x.emitted part =
    SimInput.partInsts part (x.partWords part) (x.partWords part).length

/-- Every label that the words of a part may name begins a line that is emitted. -/
theorem ForwardTest.exists_label {x : SimInput} (h : ForwardTest x) (part : Part) :
    ∃ lines, x.emitted part = .ok lines ∧
      ∀ m ≤ (x.partWords part).length, ∃ line ∈ lines, Word.labelText part m <+: line := by
  have hpopulated : ∀ w ∈ x.partWords part, w.populated = true := by
    intro w hw
    obtain ⟨i, hi⟩ := List.mem_iff_getElem?.mp hw
    exact (h.words part i w hi).populated
  rw [h.emitted_eq, partInsts_eq hpopulated]
  refine ⟨_, rfl, fun m hm ↦ ?_⟩
  rcases hm.lt_or_eq with hlt | rfl
  · obtain ⟨w, hw⟩ : ∃ w, (x.partWords part)[m]? = some w := ⟨_, List.getElem?_eq_getElem hlt⟩
    have hforward := h.words part m w hw
    obtain ⟨first, rest, htexts⟩ := List.exists_cons_of_ne_nil hforward.texts_ne_nil
    have hlines := hforward.retInsts_eq
    rw [htexts, showLines] at hlines
    refine ⟨Text.ljust 8 (Word.labelText part m) ++ first, ?_, ?_⟩
    · refine List.mem_append_left _ (List.mem_flatMap.mpr ⟨w, List.mem_of_getElem? hw, ?_⟩)
      rw [hlines]
      exact List.mem_cons_self
    · rw [Text.ljust_eq_append, List.append_assoc]
      exact List.prefix_append _ _
  · exact ⟨_, List.mem_append_right _ (List.mem_singleton.mpr rfl), List.prefix_rfl⟩

/-- Words of tests at their places. -/
structure SeedPart (part : Part) (words : List GenWord) : Prop where
  length_le : words.length ≤ 200
  words : ∀ (i : ℕ) (w : GenWord), words[i]? = some w → ∃ n, Forward part n i w.toWord

/-- Words in order, some of which are still templates. -/
structure PreparedPart (part : Part) (words : List GenWord) : Prop where
  length_le : words.length ≤ 200
  words : ∀ (i : ℕ) (w : GenWord), words[i]? = some w →
    (JumpTemplate w ∧ w.label = i) ∨ Forward part words.length i w.toWord

section Parts

variable {part : Part} {s : InstGenerator × Draws} {m : RvMutator} {x : SimInput}

theorem ForwardTest.seedPart (h : ForwardTest x) (part : Part) :
    SeedPart part (x.seedWords part) := by
  have hseed : x.seedWords part = (x.partWords part).map Word.toGen := by
    cases part <;> rfl
  rw [hseed]
  refine ⟨by rw [List.length_map]; exact h.length_le part, fun i w hw ↦ ?_⟩
  rw [List.getElem?_map] at hw
  obtain ⟨w₀, hw₀, rfl⟩ := Option.map_eq_some_iff.mp hw
  exact ⟨_, h.words part i w₀ hw₀⟩

theorem SeedPart.linked {words : List GenWord} (h : SeedPart part words) {w : GenWord}
    (hw : w ∈ words) : Linked part w.toWord := by
  obtain ⟨i, hi⟩ := List.mem_iff_getElem?.mp hw
  obtain ⟨n, hforward⟩ := h.words i w hi
  have hlt := (List.getElem?_eq_some_iff.mp hi).1
  have hle := h.length_le
  exact hforward.linked (by omega)

/-- A splice keeps the places. -/
theorem SeedPart.splice {words₁ words₂ : List GenWord} (h₁ : SeedPart part words₁)
    (h₂ : SeedPart part words₂) {idx : ℕ} (hidx : idx ≤ words₁.length) :
    SeedPart part (words₁.take idx ++ words₂.drop idx) := by
  have htake : (words₁.take idx).length = idx := by rw [List.length_take, Nat.min_eq_left hidx]
  constructor
  · have hle₁ := h₁.length_le
    have hle₂ := h₂.length_le
    rw [List.length_append, htake, List.length_drop]
    omega
  · intro i w hw
    by_cases hi : i < idx
    · rw [List.getElem?_append_left (by omega), List.getElem?_take_of_lt hi] at hw
      exact h₁.words i w hw
    · rw [List.getElem?_append_right (by omega), List.getElem?_drop, htake,
        Nat.add_sub_cancel' (by omega)] at hw
      exact h₂.words i w hw

theorem ensures_mutationSeed_forward (hm : ∀ x ∈ m.corpus, ForwardTest x) {draws : Draws} :
    Ensures m.mutationSeed draws fun seed _ ↦ ∀ part, SeedPart part (seed.words part) := by
  apply Ensures.bind (Q := fun x _ ↦ x ∈ m.corpus) ⟨fun _ h ↦ Draws.mem_of_choice_eq_ok h⟩
  intro x draws₁ hx
  exact .pure fun part ↦ (hm x hx).seedPart part

theorem ensures_mergeSeed_forward (hm : ∀ x ∈ m.corpus, ForwardTest x) {draws : Draws} :
    Ensures m.mergeSeed draws fun seed _ ↦ ∀ part, SeedPart part (seed.words part) := by
  apply Ensures.bind (Q := fun x _ ↦ x ∈ m.corpus) ⟨fun _ h ↦ Draws.mem_of_choice_eq_ok h⟩
  intro x₁ draws₁ hx₁
  apply Ensures.bind (Q := fun x _ ↦ x ∈ m.corpus) ⟨fun _ h ↦ Draws.mem_of_choice_eq_ok h⟩
  intro x₂ draws₂ hx₂
  apply Ensures.bind .randint
  intro idx draws₃ ⟨_, hidx⟩
  apply Ensures.pure
  intro part
  by_cases hpart : part = .mainPart
  · subst hpart
    dsimp only
    rw [Function.update_self]
    refine ((hm x₁ hx₁).seedPart _).splice ((hm x₂ hx₂).seedPart _) ?_
    omega
  · dsimp only
    rw [Function.update_of_ne hpart]
    exact (hm x₁ hx₁).seedPart part

/-- Generated words carry their places as labels. -/
theorem ensures_templates_numbered (part : Part) (is : List ℕ) :
    Ensures (is.mapM fun _ ↦ getWord part) s fun words s' ↦ words.length = is.length ∧
      (∀ (i : ℕ) (w : GenWord), words[i]? = some w →
        JumpTemplate w ∧ w.label = (s.1.num part + i : ℕ)) ∧
      ∀ q ≠ part, s'.1.num q = s.1.num q := by
  induction is generalizing s with
  | nil =>
    rw [List.mapM_nil]
    refine .pure ⟨rfl, fun i w hw ↦ ?_, fun _ _ ↦ rfl⟩
    rw [List.getElem?_nil] at hw
    cases hw
  | cons i is ih =>
    rw [List.mapM_cons]
    apply Ensures.bind (ensures_jumpTemplate part)
    intro w s₁ ⟨htemplate, hlabel, hnum⟩
    apply Ensures.bind ih
    intro words s₂ ⟨hlength, hwords, hothers⟩
    have hcount : s₁.1.num part = s.1.num part + 1 := by rw [hnum, Function.update_self]
    refine .pure ⟨by rw [List.length_cons, List.length_cons, hlength], fun j w' hw' ↦ ?_,
      fun q hq ↦ ?_⟩
    · cases j with
      | zero =>
        obtain rfl := Option.some.inj hw'
        exact ⟨htemplate, hlabel⟩
      | succ j =>
        obtain ⟨htemplate', hlabel'⟩ := hwords j w' hw'
        refine ⟨htemplate', ?_⟩
        rw [hlabel', hcount]
        congr 1
        omega
    · rw [hothers q hq, hnum, Function.update_of_ne hq]

theorem preparedPart_of_numbered {words : List GenWord} (hlength : words.length ≤ 200)
    (h : ∀ (i : ℕ) (w : GenWord), words[i]? = some w → JumpTemplate w ∧ w.label = (0 + i : ℕ)) :
    PreparedPart part words := by
  refine ⟨hlength, fun i w hw ↦ .inl ?_⟩
  obtain ⟨htemplate, hlabel⟩ := h i w hw
  exact ⟨htemplate, by rwa [Nat.zero_add] at hlabel⟩

theorem ensures_generate_prepared (hnum : ∀ part, s.1.num part = 0) (hm : m.numWords ≤ 200) :
    Ensures m.generate s fun parts _ ↦ ∀ part, PreparedPart part (parts.words part) := by
  apply Ensures.bind (ensures_templates_numbered .prefixPart _)
  intro prefixWords s₁ ⟨hlength₁, hbegins, hothers₁⟩
  apply Ensures.bind (ensures_templates_numbered .mainPart _)
  intro words s₂ ⟨hlength₂, hwords, hothers₂⟩
  apply Ensures.bind (ensures_templates_numbered .suffixPart _)
  intro suffixWords s₃ ⟨hlength₃, hsuffix, _⟩
  rw [List.length_range] at hlength₁ hlength₂ hlength₃
  rw [hnum] at hbegins
  rw [hothers₁ _ (by decide), hnum] at hwords
  rw [hothers₂ _ (by decide), hothers₁ _ (by decide), hnum] at hsuffix
  apply Ensures.pure
  intro part
  cases part with
  | prefixPart => exact preparedPart_of_numbered (by rw [hlength₁]; decide) hbegins
  | mainPart => exact preparedPart_of_numbered (by rw [hlength₂]; exact hm) hwords
  | suffixPart => exact preparedPart_of_numbered (by rw [hlength₃]; decide) hsuffix

/-- The words that are populated at the end of `get` jump forward. -/
theorem ensures_populateWords_forward {words : List GenWord} (h : PreparedPart part words) :
    Ensures (populateWords words part) s fun words' _ ↦
      words'.length ≤ 200 ∧ ForwardPart part words' := by
  have hstep : ∀ w ∈ words, ∀ s, True → Ensures (do
      let w ← Generating.populateWord w words.length part
      return w.toWord) s fun w' _ ↦
        (∀ i : ℕ, words[i]? = some w → Forward part words.length i w') ∧ True := by
    intro w hw s _
    have hlabelled : ∃ i : ℕ, words[i]? = some w := List.mem_iff_getElem?.mp hw
    have hpopulate : Ensures (Generating.populateWord w words.length part) s
        fun w' _ ↦ ∀ i : ℕ, words[i]? = some w → Forward part words.length i w'.toWord := by
      constructor
      intro r hr i hi
      have hlt : i < words.length := (List.getElem?_eq_some_iff.mp hi).1
      have hle := h.length_le
      rcases h.words i w hi with ⟨htemplate, hlabel⟩ | hforward
      · exact (ensures_forward htemplate hlabel (by omega)).of_eq_ok r hr
      · rw [populateWord_of_populated hforward.populated] at hr
        obtain rfl := Except.ok.inj hr
        exact hforward
    apply Ensures.bind hpopulate
    intro w' s' hw'
    exact .pure ⟨hw', True.intro⟩
  refine (Ensures.mapM hstep True.intro).mono fun words' _ hwords' ↦ ?_
  obtain ⟨hforall, -⟩ := hwords'
  have hlength := hforall.length_eq
  refine ⟨hlength ▸ h.length_le, fun i w' hw' ↦ ?_⟩
  obtain ⟨hi, rfl⟩ := List.getElem?_eq_some_iff.mp hw'
  have hi' : i < words.length := hlength ▸ hi
  exact hlength ▸ hforall.get hi' hi i (List.getElem?_eq_getElem hi')

end Parts

/-- A template with its place as its label. -/
theorem JumpTemplate.setLabel {w : GenWord} (h : JumpTemplate w) (i : ℕ) :
    JumpTemplate { w with toWord := { w.toWord with label := i } } :=
  ⟨⟨⟨h.insts_ne_nil, h.operands_eq, h.populated_eq, h.insts_lines, h.imms_usual⟩, h.values, h.names,
    h.forms⟩, Int.natCast_nonneg i, h.jump⟩

/-- `reset_labels` puts printed words and templates in order. -/
theorem ensures_resetLabels_prepared {part : Part} {words : List GenWord} {draws : Draws}
    (hlength : words.length ≤ 200) (hwords : ∀ w ∈ words, JumpTemplate w ∨ Linked part w.toWord)
    (hahead : Ahead part words) :
    Ensures (resetLabels words part) draws fun words' _ ↦ PreparedPart part words' := by
  have hlinked : ∀ w ∈ words, w.populated = true → Linked part w.toWord := by
    intro w hw hpopulated
    rcases hwords w hw with htemplate | hlinked
    · rw [htemplate.populated_eq] at hpopulated
      exact absurd hpopulated Bool.false_ne_true
    · exact hlinked
  have hreset := returns_resetLabels_reset
    (fun w hw hpopulated ↦ (hlinked w hw hpopulated).toLabelled) (by omega) draws
  refine hreset.ensures.mono fun words' _ ⟨hlength', hreset⟩ ↦
    ⟨hlength' ▸ hlength, fun i w' hw' ↦ ?_⟩
  have hi : i < words.length := hlength' ▸ (List.getElem?_eq_some_iff.mp hw').1
  have hget : words[i]? = some words[i] := List.getElem?_eq_getElem hi
  have hword := hreset i _ w' hget hw'
  rw [hlength']
  cases hpopulated : words[i].populated with
  | false =>
    left
    rcases hwords _ (List.getElem_mem hi) with htemplate | hlinked
    · rw [hword.template hpopulated]
      exact ⟨htemplate.setLabel i, rfl⟩
    · rw [hlinked.populated] at hpopulated
      exact absurd hpopulated.symm Bool.false_ne_true
  | true =>
    exact .inr (hword.forward hget hpopulated (hlinked _ (List.getElem_mem hi) hpopulated) hahead)

/-- A condition on a call of `mutate_words`: the part, the seed words, and the generator with the
random outcomes to come. -/
abbrev MutationGuard := Part → List GenWord → InstGenerator × Draws → Prop

/-- In the calls that meet the condition, words at their places become words in order. The generator
has made no word of the part before, and makes none of another part. -/
def MutatesForward (mutate : WordsMutation) (guard : MutationGuard) : Prop :=
  ∀ (part : Part) (seedWords : List GenWord) (s : InstGenerator × Draws),
    SeedPart part seedWords → s.1.num part = 0 → guard part seedWords s →
      Ensures (mutate seedWords part (maxWords part)) s fun words s' ↦
        PreparedPart part words ∧ ∀ q ≠ part, s'.1.num q = s.1.num q

/-- The three calls of `mutate_words` in a call of `get` meet the condition. -/
def GuardedParts (mutate : WordsMutation) (guard : MutationGuard) (seed : Parts)
    (s : InstGenerator × Draws) : Prop :=
  guard .prefixPart (seed.words .prefixPart) s ∧
    Ensures (mutate (seed.words .prefixPart) .prefixPart (maxWords .prefixPart)) s fun _ s₁ ↦
      guard .mainPart (seed.words .mainPart) s₁ ∧
        Ensures (mutate (seed.words .mainPart) .mainPart (maxWords .mainPart)) s₁ fun _ s₂ ↦
          guard .suffixPart (seed.words .suffixPart) s₂

/-- The calls of `mutate_words` in a call of `get` meet the condition. -/
def GuardedGet (mutate : WordsMutation) (guard : MutationGuard) (m : RvMutator) (draws : Draws) :
    Prop :=
  match m.phase with
  | .generation => True
  | .mutation => Ensures m.mutationSeed draws fun seed draws' ↦
      GuardedParts mutate guard seed (InstGenerator.start, draws')
  | .merge => Ensures m.mergeSeed draws fun seed draws' ↦
      GuardedParts mutate guard seed (InstGenerator.start, draws')

section Get

variable {mutate : WordsMutation} {guard : MutationGuard} {m m' : RvMutator}
  {s : InstGenerator × Draws} {draws draws' : Draws}

theorem ensures_mutatePartsWith_prepared (hmutate : MutatesForward mutate guard) {seed : Parts}
    (hseed : ∀ part, SeedPart part (seed.words part)) (hnum : ∀ part, s.1.num part = 0)
    (hguard : GuardedParts mutate guard seed s) :
    Ensures (mutatePartsWith mutate seed) s fun parts _ ↦
      ∀ part, PreparedPart part (parts.words part) := by
  obtain ⟨hguard₁, hguard⟩ := hguard
  have hfirst := hmutate .prefixPart _ s (hseed _) (hnum _) hguard₁
  apply Ensures.bind (hfirst.and hguard)
  intro prefixWords s₁ ⟨⟨hbegins, hothers₁⟩, hguard₂, hguard⟩
  have hnum₁ (part : Part) (hpart : part ≠ .prefixPart) : s₁.1.num part = 0 := by
    rw [hothers₁ part hpart, hnum]
  have hmain := hmutate .mainPart _ s₁ (hseed _) (hnum₁ _ (by decide)) hguard₂
  apply Ensures.bind (hmain.and hguard)
  intro words s₂ ⟨⟨hwords, hothers₂⟩, hguard₃⟩
  have hnum₂ : s₂.1.num .suffixPart = 0 := by
    rw [hothers₂ _ (by decide), hnum₁ _ (by decide)]
  apply Ensures.bind (hmutate .suffixPart _ s₂ (hseed _) hnum₂ hguard₃)
  intro suffixWords s₃ ⟨hsuffix, _⟩
  apply Ensures.pure
  intro part
  cases part with
  | prefixPart => exact hbegins
  | mainPart => exact hwords
  | suffixPart => exact hsuffix

/-- The seed words are drawn before the generator makes a word. -/
theorem ensures_seed_prepared (hmutate : MutatesForward mutate guard)
    {seeding : Stateful Draws Parts}
    (hseed : Ensures seeding draws fun seed _ ↦ ∀ part, SeedPart part (seed.words part))
    (hguard : Ensures seeding draws fun seed draws' ↦
      GuardedParts mutate guard seed (InstGenerator.start, draws')) :
    Ensures (do
      let seed ← onSnd seeding
      mutatePartsWith mutate seed) (InstGenerator.start, draws) fun parts _ ↦
        ∀ part, PreparedPart part (parts.words part) := by
  have hboth : Ensures (onSnd seeding) (InstGenerator.start, draws) fun seed s ↦
      (∀ part, SeedPart part (seed.words part)) ∧ s.1 = InstGenerator.start ∧
        GuardedParts mutate guard seed s :=
    .onSnd ((hseed.and hguard).mono fun _ _ h ↦ ⟨h.1, rfl, h.2⟩)
  apply Ensures.bind hboth
  intro seed s ⟨hwords, hstart, hguarded⟩
  exact ensures_mutatePartsWith_prepared hmutate hwords (fun _ ↦ by rw [hstart]; rfl) hguarded

theorem ensures_makePartsWith_prepared (hmutate : MutatesForward mutate guard)
    (hm : ∀ x ∈ m.corpus, ForwardTest x) (hnum : m.numWords ≤ 200)
    (hguard : GuardedGet mutate guard m draws) :
    Ensures (m.makePartsWith mutate) (InstGenerator.start, draws) fun parts _ ↦
      ∀ part, PreparedPart part (parts.words part) := by
  unfold GuardedGet at hguard
  unfold makePartsWith
  cases hphase : m.phase with
  | generation => exact ensures_generate_prepared (fun _ ↦ rfl) hnum
  | mutation =>
    rw [hphase] at hguard
    exact ensures_seed_prepared hmutate (ensures_mutationSeed_forward hm) hguard
  | merge =>
    rw [hphase] at hguard
    exact ensures_seed_prepared hmutate (ensures_mergeSeed_forward hm) hguard

theorem ensures_makeDraftWith_forward (hmutate : MutatesForward mutate guard)
    (hm : ∀ x ∈ m.corpus, ForwardTest x) (hnum : m.numWords ≤ 200)
    (hguard : GuardedGet mutate guard m draws) (assertIntr : Bool) :
    Ensures (m.makeDraftWith mutate assertIntr) (InstGenerator.start, draws) fun draft _ ↦
      ∀ part, (draft.partWords part).length ≤ 200 ∧ ForwardPart part (draft.partWords part) := by
  apply Ensures.bind (ensures_makePartsWith_prepared hmutate hm hnum hguard)
  intro parts s₁ hparts
  apply Ensures.bind (ensures_populateWords_forward (hparts .prefixPart))
  intro prefixWords s₂ hbegins
  apply Ensures.bind (ensures_populateWords_forward (hparts .mainPart))
  intro words s₃ hwords
  apply Ensures.bind (ensures_populateWords_forward (hparts .suffixPart))
  intro suffixWords s₄ hsuffix
  apply Ensures.bind .trivial
  intro ints s₅ _
  apply Ensures.pure
  intro part
  cases part with
  | prefixPart => exact hbegins
  | mainPart => exact hwords
  | suffixPart => exact hsuffix

/-- The end of `get` counts the words of the parts. -/
theorem emitted_finish {it : ℕ} {draft : Draft} {x : SimInput} {data : List ℤ}
    (h : m.finish it draft draws = .ok ((x, data), m', draws')) (part : Part) : x.emitted part =
      SimInput.partInsts part (x.partWords part) (x.partWords part).length := by
  obtain ⟨⟨dataSeed, base, draws₁⟩, -, h⟩ := bind_eq_ok.mp h
  obtain ⟨⟨template, draws₂⟩, -, h⟩ := bind_eq_ok.mp h
  dsimp only at h
  split at h
  · cases h
  · obtain ⟨hx, -⟩ := Prod.mk.inj (Except.ok.inj h)
    obtain ⟨rfl, -⟩ := Prod.mk.inj hx
    cases part <;> rfl

/-- A test that `get` returns jumps forward, if the tests of the corpus do. -/
theorem forwardTest_getWith (hmutate : MutatesForward mutate guard)
    (hm : ∀ x ∈ m.corpus, ForwardTest x) (hnum : m.numWords ≤ 200)
    (hguard : GuardedGet mutate guard m draws) {it : ℕ} {assertIntr : Bool} {x : SimInput}
    {data : List ℤ} (h : m.getWith mutate it assertIntr draws = .ok ((x, data), m', draws')) :
    ForwardTest x ∧ m'.corpus = m.corpus ∧ m'.numWords = m.numWords := by
  obtain ⟨⟨draft, s⟩, hdraft, hfinish⟩ := bind_eq_ok.mp h
  obtain ⟨hwords, -, hcorpus, hnumWords⟩ := finish_eq_ok hfinish
  have hforward : ∀ part, (draft.partWords part).length ≤ 200 ∧
      ForwardPart part (draft.partWords part) :=
    (ensures_makeDraftWith_forward hmutate hm hnum hguard assertIntr).of_eq_ok _ hdraft
  rw [← hwords] at hforward
  exact ⟨⟨fun part ↦ (hforward part).2, fun part ↦ (hforward part).1, emitted_finish hfinish⟩,
    hcorpus, hnumWords⟩

end Get

/-- All tests of a session jump forward. -/
structure ForwardSession (s : Session) : Prop where
  returned : ∀ r ∈ s.returned, ForwardTest r.simInput
  corpus : ∀ x ∈ s.mutator.corpus, ForwardTest x
  numWords_le : s.mutator.numWords ≤ 200

/-- The calls of `mutate_words` in a call of the fuzzer's loop meet the condition. -/
def GuardedCall (mutate : WordsMutation) (guard : MutationGuard) (s : Session) : FuzzCall → Prop
  | .get _ _ draws => GuardedGet mutate guard s.mutator draws
  | _ => True

/-- All calls of `mutate_words` in a sequence of calls meet the condition. -/
def GuardedRun (mutate : WordsMutation) (guard : MutationGuard) : Session → List FuzzCall → Prop
  | _, [] => True
  | s, call :: calls => GuardedCall mutate guard s call ∧
      GuardedRun mutate guard (s.fuzzStepWith mutate call) calls

section Sessions

variable {mutate : WordsMutation} {guard : MutationGuard} {s : Session}

/-- A condition that every call of `mutate_words` meets. -/
theorem guardedParts_of_forall (h : ∀ part seedWords s, guard part seedWords s) (seed : Parts)
    (s : InstGenerator × Draws) : GuardedParts mutate guard seed s :=
  ⟨h _ _ _, Ensures.trivial.mono fun _ _ _ ↦ ⟨h _ _ _, Ensures.trivial.mono fun _ _ _ ↦ h _ _ _⟩⟩

theorem guardedRun_of_forall (h : ∀ part seedWords s, guard part seedWords s) (s : Session)
    (calls : List FuzzCall) : GuardedRun mutate guard s calls := by
  induction calls generalizing s with
  | nil => exact True.intro
  | cons call calls ih =>
    refine ⟨?_, ih _⟩
    cases call with
    | get it assertIntr draws =>
      change GuardedGet mutate guard s.mutator draws
      unfold GuardedGet
      cases s.mutator.phase with
      | generation => exact True.intro
      | mutation => exact Ensures.trivial.mono fun _ _ _ ↦ guardedParts_of_forall h _ _
      | merge => exact Ensures.trivial.mono fun _ _ _ ↦ guardedParts_of_forall h _ _
    | updatePhase it draws => exact True.intro
    | addCorpus i => exact True.intro

/-- A sequence of calls with another one at its end. -/
theorem guardedRun_concat {calls : List FuzzCall} (h : GuardedRun mutate guard s calls)
    {call : FuzzCall} (hcall : GuardedCall mutate guard (s.fuzzWith mutate calls) call) :
    GuardedRun mutate guard s (calls ++ [call]) := by
  induction calls generalizing s with
  | nil => exact ⟨hcall, True.intro⟩
  | cons first calls ih => exact ⟨h.1, ih h.2 hcall⟩

theorem forwardSession_start (maxDataSeeds corpusSize : ℕ) (noGuide : Bool) :
    ForwardSession (Session.start maxDataSeeds corpusSize noGuide) where
  returned := List.forall_mem_nil _
  corpus := List.forall_mem_nil _
  numWords_le := by
    change 100 ≤ 200
    decide

theorem ForwardSession.fuzzStepWith (hmutate : MutatesForward mutate guard) (hs : ForwardSession s)
    {call : FuzzCall} (hguard : GuardedCall mutate guard s call) :
    ForwardSession (s.fuzzStepWith mutate call) := by
  cases call with
  | updatePhase it draws =>
    rw [Session.fuzzStepWith]
    split
    · exact hs
    · next m draws' h =>
      obtain ⟨-, hcorpus⟩ := toMutator_updatePhase h
      exact ⟨hs.returned, hcorpus ▸ hs.corpus, numWords_updatePhase h ▸ hs.numWords_le⟩
  | get it assertIntr draws =>
    rw [Session.fuzzStepWith]
    split
    · exact hs
    · next x data m draws' h =>
      obtain ⟨hx, hcorpus, hnumWords⟩ :=
        forwardTest_getWith hmutate hs.corpus hs.numWords_le hguard h
      exact ⟨List.forall_mem_cons.mpr ⟨hx, hs.returned⟩, hcorpus ▸ hs.corpus,
        hnumWords ▸ hs.numWords_le⟩
  | addCorpus i =>
    rw [Session.fuzzStepWith]
    split
    · exact hs
    · next r hr =>
      refine ⟨hs.returned, fun x hx ↦ ?_, Nat.min_le_right _ _⟩
      rcases mem_corpus_addCorpus hx with hx | rfl
      · exact hs.corpus x hx
      · exact hs.returned r (List.mem_of_getElem? hr)

/-- What a sequence of calls keeps. -/
theorem ForwardSession.fuzzWith (hmutate : MutatesForward mutate guard) (hs : ForwardSession s)
    {calls : List FuzzCall} (hguard : GuardedRun mutate guard s calls) :
    ForwardSession (s.fuzzWith mutate calls) := by
  induction calls generalizing s with
  | nil => exact hs
  | cons call calls ih => exact ih (hs.fuzzStepWith hmutate hguard.1) hguard.2

end Sessions

end ProcessorFuzz.Mutation
