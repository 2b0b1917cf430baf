import ProcessorFuzz.Mutation.Generation

/-!
# The data of a corpus entry

An entry of the corpus is a test with the number of its data. The mutator has data for fewer numbers
than there are entries, and a number that has not been used for long is given to a new test. Then
the entry has lost its data: a test that is made from it comes with the data of the new one. Until
then it comes with the data that the entry was returned with.
-/

namespace ProcessorFuzz.Mutation

open Library Library.Stateful Library.Recency

namespace Session

def fuzz (s : Session) (calls : List FuzzCall) : Session := calls.foldl fuzzStep s

/-- A test whose data seed was given to it as a new one. -/
def Fresh (r : Returned) : Prop := r.origin = .get .generation

/-- How the data in the mutator go back to the tests that were returned. -/
structure Recorded (s : Session) : Prop where
  own : ∀ newer r older, s.returned = newer ++ r :: older →
    (∀ r' ∈ newer, r'.simInput.dataSeed = r.simInput.dataSeed → ¬ Fresh r') →
    s.mutator.randomData.get? r.simInput.dataSeed = some r.data
  age_le : ∀ newer r older, s.returned = newer ++ r :: older →
    age s.mutator.dataSeeds r.simInput.dataSeed ≤ newer.length
  recycled : ∀ newer r older, s.returned = newer ++ r :: older → ∀ r' ∈ newer,
    r'.simInput.dataSeed = r.simInput.dataSeed → Fresh r' → s.mutator.maxData ≤ newer.length

variable {s : Session}

/-- The seed of a generated test was the oldest one, if another test has it. -/
theorem age_of_fresh (hs : s.Consistent) {seed : ℕ} (hseed : seed ∈ s.mutator.dataSeeds)
    (hnext : seed = next s.mutator.maxData s.mutator.dataSeeds) :
    age s.mutator.dataSeeds seed = s.mutator.maxData - 1 := by
  have hnumbered := hs.seeded.numbered
  rcases next_cases hnumbered hs.seeded.length_le hs.seeded.maxData_pos with
    ⟨hfull, -⟩ | ⟨-, hnew⟩
  · rw [hnext]
    exact age_next hnumbered.nodup hfull hs.seeded.maxData_pos
  · rw [hnumbered.mem_iff, hnext, hnew] at hseed
    exact absurd hseed (lt_irrefl _)

/-- A call of `get` adds the test that it returns to the record. -/
theorem Recorded.get (hs : s.Consistent) (h : s.Recorded) {m : RvMutator} {draws : Draws}
    {x : SimInput} {data : List ℤ} (hstep : s.mutator.GetStep m draws x data) :
    Recorded ⟨m, ⟨x, data, .get s.mutator.phase⟩ :: s.returned⟩ := by
  have hnodup := hs.seeded.numbered.nodup
  have hseeds := hstep.uses.dataSeeds
  have hmax := hstep.uses.maxData
  -- An older test is at its place in the record before, with one test less after it.
  have hcases : ∀ {newer : List Returned} {r : Returned} {older : List Returned},
      (⟨x, data, .get s.mutator.phase⟩ : Returned) :: s.returned = newer ++ r :: older →
      (newer = [] ∧ r = ⟨x, data, .get s.mutator.phase⟩) ∨ ∃ newer',
        newer = ⟨x, data, .get s.mutator.phase⟩ :: newer' ∧ s.returned = newer' ++ r :: older := by
    intro newer r older heq
    cases newer with
    | nil => exact .inl ⟨rfl, (List.cons.inj heq).1.symm⟩
    | cons first newer' =>
      obtain ⟨rfl, hrest⟩ := List.cons.inj heq
      exact .inr ⟨newer', rfl, hrest⟩
  constructor
  · intro newer r older heq hfresh
    rcases hcases heq with ⟨-, rfl⟩ | ⟨newer', rfl, heq'⟩
    · rw [hstep.uses.get?, if_pos rfl]
    · have hown := h.own newer' r older heq' fun r' hr' ↦ hfresh r' (List.mem_cons_of_mem _ hr')
      rw [hstep.uses.get?]
      split
      · next hsame =>
        have hnot := hfresh _ List.mem_cons_self hsame.symm
        rcases hstep.seed with ⟨hphase, -⟩ | ⟨-, entry, rest, -, hseed, hdata⟩
        · exact absurd (congrArg Origin.get hphase) hnot
        · rw [hsame, hseed] at hown
          exact hdata.symm.trans hown
      · exact hown
  · intro newer r older heq
    rw [hseeds]
    rcases hcases heq with ⟨rfl, rfl⟩ | ⟨newer', rfl, heq'⟩
    · exact age_touch_self.le
    · calc
        age (touch x.dataSeed s.mutator.dataSeeds) r.simInput.dataSeed
            ≤ age s.mutator.dataSeeds r.simInput.dataSeed + 1 := age_touch_le hnodup _ _
        _ ≤ newer'.length + 1 := Nat.succ_le_succ (h.age_le newer' r older heq')
  · intro newer r older heq r' hr' hsame hfresh
    rcases hcases heq with ⟨rfl, -⟩ | ⟨newer', rfl, heq'⟩
    · exact absurd hr' List.not_mem_nil
    · dsimp only
      rw [hmax, List.length_cons]
      rcases List.mem_cons.mp hr' with rfl | hr'
      · have hphase : s.mutator.phase = .generation := Origin.get.inj hfresh
        rcases hstep.seed with ⟨-, hnext⟩ | ⟨hne, -⟩
        · have hmem : r.simInput.dataSeed ∈ s.mutator.dataSeeds :=
            hs.returned r (by simp [heq'])
          have hage := age_of_fresh hs hmem (hsame.symm.trans hnext)
          have hle := h.age_le newer' r older heq'
          omega
        · exact absurd hphase hne
      · have hle := h.recycled newer' r older heq' r' hr' hsame hfresh
        omega

/-- A call that leaves the data and the record alone. -/
theorem Recorded.of_eq (h : s.Recorded) {m : RvMutator} (hbase : m.toMutator = s.mutator.toMutator) :
    Recorded ⟨m, s.returned⟩ := by
  obtain ⟨hown, hage, hrecycled⟩ := h
  rw [← hbase] at hown hage hrecycled
  exact ⟨hown, hage, hrecycled⟩

theorem Recorded.fuzzStep (hs : s.Consistent) (h : s.Recorded) (call : FuzzCall) :
    (s.fuzzStep call).Recorded := by
  cases call with
  | updatePhase it draws =>
    rw [Session.fuzzStep]
    split
    · exact h
    · next hupdate => exact h.of_eq (RvMutator.toMutator_updatePhase hupdate).1
  | get it assertIntr draws =>
    rw [Session.fuzzStep]
    split
    · exact h
    · next hget => exact h.get hs (RvMutator.getStep hs.seeded hs.corpus hget)
  | addCorpus i =>
    rw [Session.fuzzStep]
    split
    · exact h
    · exact h.of_eq rfl

/-- Every entry of the corpus was returned. -/
def Entered (s : Session) : Prop := ∀ x ∈ s.mutator.corpus, ∃ r ∈ s.returned, x = r.simInput

theorem Entered.change {s' : Session} (h : s.Entered) (hchange : Change s s') : s'.Entered := by
  cases hchange with
  | idle _ hcorpus =>
    intro x hx
    rcases hcorpus x hx with hx | hx
    · exact h x hx
    · exact hx
  | uses hcorpus _ _ =>
    intro x hx
    obtain ⟨r, hr, heq⟩ := h x (hcorpus ▸ hx)
    exact ⟨r, List.mem_cons_of_mem _ hr, heq⟩
  | derived _ =>
    intro x hx
    obtain ⟨r, hr, heq⟩ := h x hx
    exact ⟨r, List.mem_cons_of_mem _ hr, heq⟩

/-- What the calls of the fuzzer's loop keep. -/
structure Tracked (s : Session) : Prop where
  consistent : s.Consistent
  recorded : s.Recorded
  entered : s.Entered

theorem tracked_start {maxDataSeeds : ℕ} (hpos : 0 < maxDataSeeds) (corpusSize : ℕ)
    (noGuide : Bool) : (start maxDataSeeds corpusSize noGuide).Tracked where
  consistent := consistent_start hpos corpusSize noGuide
  recorded := by
    have hnil : ∀ {newer : List Returned} {r : Returned} {older : List Returned},
        [] ≠ newer ++ r :: older := by simp
    exact ⟨fun _ _ _ h ↦ absurd h hnil, fun _ _ _ h ↦ absurd h hnil, fun _ _ _ h ↦ absurd h hnil⟩
  entered _ hx := nomatch hx

theorem Tracked.fuzzStep (h : s.Tracked) (call : FuzzCall) : (s.fuzzStep call).Tracked := by
  have hchange := change_fuzzStep h.consistent call
  exact ⟨hchange.consistent h.consistent, h.recorded.fuzzStep h.consistent call,
    h.entered.change hchange⟩

theorem Tracked.fuzz (h : s.Tracked) (calls : List FuzzCall) : (s.fuzz calls).Tracked := by
  induction calls generalizing s with
  | nil => exact h
  | cons call calls ih => exact ih (h.fuzzStep call)

theorem maxData_fuzz (h : s.Tracked) (calls : List FuzzCall) :
    (s.fuzz calls).mutator.maxData = s.mutator.maxData := by
  induction calls generalizing s with
  | nil => rfl
  | cons call calls ih =>
    exact (ih (h.fuzzStep call)).trans (change_fuzzStep h.consistent call).maxData

/-- A mutator without room for data, which returns no test. -/
structure Barren (s : Session) : Prop where
  maxData_eq : s.mutator.maxData = 0
  dataSeeds_eq : s.mutator.dataSeeds = []
  corpus_eq : s.mutator.corpus = []
  returned_eq : s.returned = []

theorem Barren.get_ne_ok (h : s.Barren) {it : ℕ} {assertIntr : Bool} {draws : Draws}
    {r : (SimInput × List ℤ) × RvMutator × Draws} : s.mutator.get it assertIntr draws ≠ .ok r := by
  intro hget
  obtain ⟨⟨draft, state⟩, hdraft, hfinish⟩ := bind_eq_ok.mp hget
  have hparent : s.mutator.ParentOf draws draft.parent :=
    (RvMutator.makeDraft_parent _ assertIntr (InstGenerator.start, draws)).of_eq_ok _ hdraft
  cases hcase : draft.parent with
  | none =>
    obtain ⟨r, htake, -⟩ := bind_eq_ok.mp hfinish
    have hfull : s.mutator.dataSeeds.length = s.mutator.maxData := by
      rw [h.dataSeeds_eq, h.maxData_eq]
      rfl
    rw [hcase, RvMutator.takeData, Mutator.addData, if_pos hfull, h.dataSeeds_eq] at htake
    cases htake
  | some parent =>
    rw [hcase] at hparent
    obtain ⟨-, entry, rest, hchoice, -⟩ := hparent
    have hmem := Draws.mem_of_choice_eq_ok hchoice
    rw [h.corpus_eq] at hmem
    exact List.not_mem_nil hmem

theorem Barren.fuzzStep (h : s.Barren) (call : FuzzCall) : (s.fuzzStep call).Barren := by
  cases call with
  | updatePhase it draws =>
    rw [Session.fuzzStep]
    split
    · exact h
    · next hupdate =>
      obtain ⟨hbase, hcorpus⟩ := RvMutator.toMutator_updatePhase hupdate
      exact ⟨(congrArg Mutator.maxData hbase).trans h.maxData_eq,
        (congrArg Mutator.dataSeeds hbase).trans h.dataSeeds_eq, hcorpus.trans h.corpus_eq,
        h.returned_eq⟩
  | get it assertIntr draws =>
    rw [Session.fuzzStep]
    split
    · exact h
    · next hget => exact absurd hget h.get_ne_ok
  | addCorpus i =>
    rw [Session.fuzzStep, h.returned_eq]
    exact h

theorem Barren.fuzz (h : s.Barren) (calls : List FuzzCall) : (s.fuzz calls).Barren := by
  induction calls generalizing s with
  | nil => exact h
  | cons call calls ih => exact ih (h.fuzzStep call)

end Session

open Session

/-- A test that is made from a corpus entry comes with the data that were returned with the latest
test that carries the entry's data seed. These are the entry's own data unless a test that was
generated since then has been given the seed, and this takes as many tests as the mutator has room
for, counted from the last one that carries the seed. -/
theorem get_data_of_entry (maxDataSeeds corpusSize : ℕ) (noGuide : Bool) (calls : List FuzzCall)
    (it : ℕ) (assertIntr : Bool) (draws draws' rest : Draws) (entry x : SimInput) (data : List ℤ)
    (m : RvMutator) :
    let s := (start maxDataSeeds corpusSize noGuide).fuzz calls
    s.mutator.phase ≠ .generation → Draws.choice s.mutator.corpus draws = .ok (entry, rest) →
    s.mutator.get it assertIntr draws = .ok ((x, data), m, draws') →
    (∃ r ∈ s.returned, entry = r.simInput) ∧
    (∃ newer r older, s.returned = newer ++ r :: older ∧ r.simInput.dataSeed = entry.dataSeed ∧
      (∀ r' ∈ newer, r'.simInput.dataSeed ≠ entry.dataSeed) ∧ data = r.data) ∧
    ∀ newer r older, s.returned = newer ++ r :: older → r.simInput.dataSeed = entry.dataSeed →
      ((∀ r' ∈ newer, r'.simInput.dataSeed = entry.dataSeed → ¬ Fresh r') ∨
        newer.length < maxDataSeeds) → data = r.data := by
  intro s hphase hchoice hget
  rcases Nat.eq_zero_or_pos maxDataSeeds with hzero | hpos
  · have hbarren : s.Barren := Barren.fuzz ⟨hzero, rfl, rfl, rfl⟩ calls
    exact absurd hget hbarren.get_ne_ok
  · have hs : s.Tracked := (tracked_start hpos corpusSize noGuide).fuzz calls
    have hmax : s.mutator.maxData = maxDataSeeds :=
      maxData_fuzz (tracked_start hpos corpusSize noGuide) calls
    -- The data are those that the mutator has for the seed.
    have hdata : s.mutator.randomData.get? entry.dataSeed = some data := by
      have hstep := RvMutator.getStep hs.consistent.seeded hs.consistent.corpus hget
      rcases hstep.seed with ⟨hgen, -⟩ | ⟨-, entry', rest', hchoice', -, hdata⟩
      · exact absurd hgen hphase
      · rw [hchoice] at hchoice'
        obtain ⟨rfl, -⟩ := Prod.mk.inj (Except.ok.inj hchoice')
        exact hdata
    have hown : ∀ newer r older, s.returned = newer ++ r :: older →
        r.simInput.dataSeed = entry.dataSeed →
        (∀ r' ∈ newer, r'.simInput.dataSeed = entry.dataSeed → ¬ Fresh r') → data = r.data := by
      intro newer r older heq hseed hfresh
      have hget := hs.recorded.own newer r older heq (hseed ▸ hfresh)
      rw [hseed, hdata] at hget
      exact Option.some.inj hget
    obtain ⟨r, hr, hentry⟩ := hs.entered entry (Draws.mem_of_choice_eq_ok hchoice)
    refine ⟨⟨r, hr, hentry⟩, ?_, ?_⟩
    · have hfind : (s.returned.find? fun r ↦ decide (r.simInput.dataSeed = entry.dataSeed)).isSome :=
        List.find?_isSome.mpr ⟨r, hr, by simp [hentry]⟩
      obtain ⟨latest, hlatest⟩ := Option.isSome_iff_exists.mp hfind
      obtain ⟨hseed, newer, older, heq, hnewer⟩ := List.find?_eq_some_iff_append.mp hlatest
      have hseed : latest.simInput.dataSeed = entry.dataSeed := of_decide_eq_true hseed
      have hne : ∀ r' ∈ newer, r'.simInput.dataSeed ≠ entry.dataSeed := by simpa using hnewer
      exact ⟨newer, latest, older, heq, hseed, hne,
        hown newer latest older heq hseed fun r' hr' hsame ↦ absurd hsame (hne r' hr')⟩
    · intro newer r older heq hseed hwhen
      apply hown newer r older heq hseed
      rcases hwhen with hfresh | hlt
      · exact hfresh
      · intro r' hr' hsame hfresh
        have hle := hs.recorded.recycled newer r older heq r' hr' (hsame.trans hseed.symm) hfresh
        omega

theorem it_of_get {m m' : RvMutator} {it : ℕ} {assertIntr : Bool} {draws draws' : Draws}
    {x : SimInput} {data : List ℤ} (h : m.get it assertIntr draws = .ok ((x, data), m', draws')) :
    x.it = it := by
  obtain ⟨⟨draft, state⟩, -, h⟩ := bind_eq_ok.mp h
  obtain ⟨⟨dataSeed, base, draws₁⟩, -, h⟩ := bind_eq_ok.mp h
  obtain ⟨⟨template, draws₂⟩, -, h⟩ := bind_eq_ok.mp h
  dsimp only at h
  split at h
  · exact nomatch h
  · obtain ⟨heq, -⟩ := Prod.mk.inj (Except.ok.inj h)
    rw [← (Prod.mk.inj heq).1]

/-- A generated test has a word. -/
theorem words_ne_nil_of_get {m m' : RvMutator} (hphase : m.phase = .generation)
    (hnum : 0 < m.numWords) {it : ℕ} {assertIntr : Bool} {draws draws' : Draws} {x : SimInput}
    {data : List ℤ} (h : m.get it assertIntr draws = .ok ((x, data), m', draws')) :
    x.words ≠ [] := by
  obtain ⟨r, hr, ⟨-, hne⟩, -⟩ := returns_makeDraft (s := (InstGenerator.start, draws)) stable_true
    True.intro (fun _ ↦ rfl) hphase hnum assertIntr
  obtain ⟨⟨draft, state⟩, hdraft, h⟩ := bind_eq_ok.mp h
  obtain rfl := Except.ok.inj (hr.symm.trans hdraft)
  obtain ⟨⟨dataSeed, base, draws₁⟩, -, h⟩ := bind_eq_ok.mp h
  obtain ⟨⟨template, draws₂⟩, -, h⟩ := bind_eq_ok.mp h
  dsimp only at h
  split at h
  · exact nomatch h
  · obtain ⟨heq, -⟩ := Prod.mk.inj (Except.ok.inj h)
    rw [← (Prod.mk.inj heq).1]
    exact hne

section Drops

variable {part : Part} {g : InstGenerator} {draws : Draws} {maxLabel : ℤ}

/-- The loop of `mutate_words` drops the words for these outcomes. -/
theorem mutateLoop_drops {words : List GenWord} (h : ∀ i < words.length, draws i = 2 ^ 53 - 1) :
    mutateLoop part maxLabel words (g, draws) =
      .ok ([], (g, fun i ↦ draws (i + words.length))) := by
  induction words generalizing draws with
  | nil => rfl
  | cons word words ih =>
    have hfirst : draws 0 = 2 ^ 53 - 1 := h 0 (Nat.succ_pos _)
    have hrandom : onSnd Draws.random (g, draws) =
        .ok ((2 ^ 53 - 1) % 2 ^ 53, (g, draws.rest)) := by
      rw [← hfirst]
      rfl
    have hkeep : Draws.below ((2 ^ 53 - 1) % 2 ^ 53) 1 2 = false := by decide
    have hadd : Draws.below ((2 ^ 53 - 1) % 2 ^ 53) 3 4 = false := by decide
    have hrest := @ih draws.rest fun i hi ↦ h (i + 1) (Nat.succ_lt_succ hi)
    rw [mutateLoop, bind_eq, hrandom, ok_bind]
    simp only [hkeep, hadd, Bool.false_eq_true, if_false]
    rw [hrest]
    rfl

theorem mutateWords_drops {words : List GenWord} (h : ∀ i < words.length, draws i = 2 ^ 53 - 1)
    (maxNum : ℕ) : mutateWords words part maxNum (g, draws) =
      .ok ([], (g, fun i ↦ draws (i + words.length))) := by
  unfold mutateWords
  rw [bind_eq, mutateLoop_drops h, ok_bind, List.take_nil]
  rfl

end Drops

/-- Outcomes with which `mutate_words` drops every word. -/
def dropAll : Draws := fun _ ↦ 2 ^ 53 - 1

theorem mutateWords_dropAll (words : List GenWord) (part : Part) (maxNum : ℕ) (g : InstGenerator) :
    mutateWords words part maxNum (g, dropAll) = .ok ([], (g, dropAll)) :=
  mutateWords_drops (fun _ _ ↦ rfl) maxNum

/-- With such outcomes a mutation returns, with no words at all. -/
theorem exists_get_eq_dropAll {m : RvMutator} (hm : m.Seeded) (hcorpus : m.CorpusSeeded)
    (hphase : m.phase = .mutation) {entry : SimInput} (hentry : m.corpus = [entry]) (it : ℕ) :
    ∃ x data m' draws', m.get it false dropAll = .ok ((x, data), m', draws') := by
  have hdraft : ∃ draft, m.makeDraft false (InstGenerator.start, dropAll) =
      .ok (draft, (InstGenerator.start, dropAll)) := by
    have hseed : onSnd m.mutationSeed (InstGenerator.start, dropAll) =
        .ok ({ words := entry.seedWords
               parent := some (entry.dataSeed, entry.template)
               nameSuffix := "_mut_".toList ++ Text.str entry.it },
          (InstGenerator.start, dropAll)) := by
      have hchoice : Draws.choice [entry] dropAll = .ok (entry, dropAll) := by
        rw [Draws.choice, List.length_singleton, Nat.mod_one]
        rfl
      have hmutation : m.mutationSeed dropAll = (Draws.choice [entry] dropAll >>= fun r ↦
          .ok ({ words := r.1.seedWords
                 parent := some (r.1.dataSeed, r.1.template)
                 nameSuffix := "_mut_".toList ++ Text.str r.1.it }, r.2)) := by
        rw [← hentry]
        rfl
      rw [onSnd, hmutation, hchoice]
      rfl
    have hparts : ∃ parts, m.makeParts (InstGenerator.start, dropAll) =
        .ok (parts, (InstGenerator.start, dropAll)) ∧ ∀ part, parts.words part = [] := by
      unfold RvMutator.makeParts
      rw [hphase]
      dsimp only
      rw [bind_eq, hseed, ok_bind, RvMutator.mutateParts, bind_eq, mutateWords_dropAll, ok_bind,
        bind_eq, mutateWords_dropAll, ok_bind, bind_eq, mutateWords_dropAll, ok_bind]
      exact ⟨_, rfl, fun part ↦ by cases part <;> rfl⟩
    obtain ⟨parts, hparts, hnil⟩ := hparts
    unfold RvMutator.makeDraft
    rw [bind_eq, hparts, ok_bind, hnil, hnil, hnil]
    exact ⟨_, rfl⟩
  obtain ⟨draft, hdraft⟩ := hdraft
  have hparent : m.ParentOf dropAll draft.parent :=
    (RvMutator.makeDraft_parent m false (InstGenerator.start, dropAll)).of_eq_ok _ hdraft
  obtain ⟨x, data, base, draws', hfinish, -⟩ :=
    RvMutator.finish_eq hm (hparent.mem hcorpus) it dropAll
  exact ⟨x, data, _, draws', bind_eq_ok.mpr ⟨_, hdraft, hfinish⟩⟩

/-- Constant outcomes. -/
theorem stable_const (n : ℕ) : Stable fun draws ↦ draws = fun _ ↦ n := by
  rintro draws rfl
  rfl

/-- Data that consist of one number. -/
def constData (n : ℕ) : List ℤ := List.replicate 384 (n : ℤ)

theorem newWords_const {n : ℕ} (h : n < 2 ^ 64) :
    Mutator.newWords (fun _ ↦ n) = constData n := by
  rw [Mutator.newWords, List.map_const', List.length_range, Nat.mod_eq_of_lt h]
  rfl

/-- A test that is generated with constant outcomes has constant data. -/
theorem exists_fuzzStep_eq {s : Session} (hs : s.Tracked) (hphase : s.mutator.phase = .generation)
    (hwords : 0 < s.mutator.numWords) (it : ℕ) {n : ℕ} (hn : n < 2 ^ 64) : ∃ x m,
    s.fuzzStep (.get it false fun _ ↦ n) =
      ⟨m, ⟨x, constData n, .get .generation⟩ :: s.returned⟩ ∧
      (x.it = it ∧ x.words ≠ []) ∧ m = { s.mutator with toMutator := m.toMutator } := by
  obtain ⟨x, m, _, draws', rfl, hget⟩ := exists_get_eq_of_generation hs.consistent.seeded hphase
    hwords it false (stable_const n) rfl
  have hframe := (RvMutator.getStep hs.consistent.seeded hs.consistent.corpus hget).frame
  refine ⟨x, m, ?_, ⟨it_of_get hget, words_ne_nil_of_get hphase hwords hget⟩, hframe⟩
  rw [fuzzStep, hget, newWords_const hn, hphase]

/-- A test is generated and kept in the corpus, another one is generated, and the phase turns to
`MUTATION`. -/
def twoTests : List FuzzCall :=
  [.get 0 false fun _ ↦ 0, .addCorpus 0, .get 1 false fun _ ↦ 1, .updatePhase 10 fun _ ↦ 2 ^ 51]

/-- The session after these calls. -/
theorem fuzz_twoTests {maxDataSeeds : ℕ} (hpos : 0 < maxDataSeeds) : ∃ x₀ x₁ m,
    (start maxDataSeeds 10 false).fuzz twoTests =
      ⟨m, [⟨x₁, constData 1, .get .generation⟩,
        ⟨x₀, constData 0, .get .generation⟩]⟩ ∧
      m.phase = .mutation ∧ m.corpus = [x₀] ∧ x₀.it = 0 ∧ x₁.it = 1 ∧ x₀.words ≠ [] := by
  have h₀ := tracked_start hpos 10 false
  obtain ⟨x₀, m₀, hcall₀, ⟨hit₀, hne₀⟩, hframe₀⟩ :=
    exists_fuzzStep_eq h₀ rfl (by decide : 0 < 100) 0 (by decide : 0 < 2 ^ 64)
  have h₁ := (h₀.fuzzStep (.get 0 false fun _ ↦ 0)).fuzzStep (.addCorpus 0)
  rw [hcall₀] at h₁
  have hphase₀ : (m₀.addCorpus x₀).phase = .generation := by
    rw [hframe₀]
    rfl
  have hwords₀ : (m₀.addCorpus x₀).numWords = 101 := by
    rw [hframe₀]
    rfl
  obtain ⟨x₁, m₁, hcall₁, ⟨hit₁, -⟩, hframe₁⟩ :=
    exists_fuzzStep_eq h₁ hphase₀ (hwords₀ ▸ Nat.succ_pos 100) 1 (by decide : 1 < 2 ^ 64)
  have hcorpus₁ : m₁.corpus = [x₀] := by
    rw [hframe₁]
    dsimp only [Session.fuzzStep]
    rw [hframe₀]
    rfl
  have hsize₁ : m₁.corpusSize = 10 ∧ m₁.noGuide = false := by
    rw [hframe₁]
    dsimp only [Session.fuzzStep]
    rw [hframe₀]
    exact ⟨rfl, rfl⟩
  have hphase : m₁.updatePhase 10 (fun _ ↦ 2 ^ 51) =
      .ok ({ m₁ with phase := .mutation }, fun _ ↦ 2 ^ 51) := by
    rw [RvMutator.updatePhase, hsize₁.1, hsize₁.2, if_neg (by decide)]
    rfl
  refine ⟨x₀, x₁, { m₁ with phase := .mutation }, ?_, rfl, hcorpus₁, hit₀, hit₁, hne₀⟩
  calc
    (start maxDataSeeds 10 false).fuzz twoTests
        = ((((start maxDataSeeds 10 false).fuzzStep (.get 0 false fun _ ↦ 0)).fuzzStep
            (.addCorpus 0)).fuzzStep (.get 1 false fun _ ↦ 1)).fuzzStep
            (.updatePhase 10 fun _ ↦ 2 ^ 51) := by
      simp only [twoTests, Session.fuzz, List.foldl_cons, List.foldl_nil]
    _ = _ := by
      rw [hcall₀, hcall₁, fuzzStep, hphase]
      rfl

/-- With room for one test, the second one takes the data seed of the first, and the entry of the
corpus is mutated with the data of the second test. -/
theorem get_data_of_lost_entry : ∃ (r : Returned) (x : SimInput) (data : List ℤ) (m : RvMutator)
    (draws' : Draws),
    let s := (start 1 10 false).fuzz twoTests
    s.mutator.phase = .mutation ∧ s.mutator.corpus = [r.simInput] ∧ r ∈ s.returned ∧
    (∀ r' ∈ s.returned, r'.simInput = r.simInput → r' = r) ∧
    s.mutator.get 2 false dropAll = .ok ((x, data), m, draws') ∧ data ≠ r.data := by
  have hs : ((start 1 10 false).fuzz twoTests).Tracked :=
    (tracked_start Nat.one_pos 10 false).fuzz twoTests
  have hmax : ((start 1 10 false).fuzz twoTests).mutator.maxData = 1 :=
    maxData_fuzz (tracked_start Nat.one_pos 10 false) twoTests
  obtain ⟨x₀, x₁, m, heq, hphase, hcorpus, hit₀, hit₁, -⟩ := fuzz_twoTests Nat.one_pos
  rw [heq] at hs hmax
  obtain ⟨x, data, m', draws', hget⟩ := exists_get_eq_dropAll hs.consistent.seeded
    hs.consistent.corpus hphase hcorpus 2
  have hne : x₁ ≠ x₀ := by
    rintro rfl
    omega
  refine ⟨⟨x₀, constData 0, .get .generation⟩, x, data, m', draws', ?_⟩
  rw [heq]
  refine ⟨hphase, hcorpus, List.mem_cons_of_mem _ List.mem_cons_self, ?_, hget, ?_⟩
  · intro r' hr' hsame
    rcases List.mem_cons.mp hr' with rfl | hr'
    · exact absurd hsame hne
    · exact List.mem_singleton.mp hr'
  · -- Both tests carry the only seed, and the data of the second one were stored last.
    have hone : ∀ seed ∈ m.dataSeeds, seed = 0 := by
      intro seed hseed
      have hlt := hs.consistent.seeded.numbered.mem_iff.mp hseed
      have hle := hs.consistent.seeded.length_le
      dsimp only at hlt hle hmax
      omega
    have hseed₀ : x₀.dataSeed = 0 :=
      hone _ (hs.consistent.returned _ (List.mem_cons_of_mem _ List.mem_cons_self))
    have hseed₁ : x₁.dataSeed = 0 := hone _ (hs.consistent.returned _ List.mem_cons_self)
    have hlatest := hs.recorded.own [] _ _ rfl nofun
    dsimp only at hlatest
    have hstep := RvMutator.getStep hs.consistent.seeded hs.consistent.corpus hget
    rcases hstep.seed with ⟨hgen, -⟩ | ⟨-, entry, rest, hchoice, -, hdata⟩
    · rw [hphase] at hgen
      exact nomatch hgen
    · have hmem := Draws.mem_of_choice_eq_ok hchoice
      rw [hcorpus, List.mem_singleton] at hmem
      dsimp only at hmem
      rw [hmem, hseed₀, ← hseed₁, hlatest] at hdata
      rw [← Option.some.inj hdata]
      have hne : constData 1 ≠ constData 0 := by decide
      exact hne

theorem get_data_of_entry_twoTests : ∃ x₀ x data m draws',
    ((start 2 10 false).fuzz twoTests).mutator.corpus = [x₀] ∧
    ((start 2 10 false).fuzz twoTests).mutator.get 2 false dropAll =
      .ok ((x, data), m, draws') ∧ data = constData 0 := by
  have hs : ((start 2 10 false).fuzz twoTests).Tracked :=
    (tracked_start Nat.two_pos 10 false).fuzz twoTests
  obtain ⟨x₀, x₁, m, heq, hphase, hcorpus, hit₀, hit₁, -⟩ := fuzz_twoTests Nat.two_pos
  have hphase' : ((start 2 10 false).fuzz twoTests).mutator.phase = .mutation := by
    rw [heq, hphase]
  have hcorpus' : ((start 2 10 false).fuzz twoTests).mutator.corpus = [x₀] := by
    rw [heq, hcorpus]
  obtain ⟨x, data, m', draws', hget⟩ := exists_get_eq_dropAll hs.consistent.seeded
    hs.consistent.corpus hphase' hcorpus' 2
  have hchoice : Draws.choice ((start 2 10 false).fuzz twoTests).mutator.corpus dropAll =
      .ok (x₀, dropAll.rest) := by
    rw [hcorpus', Draws.choice, List.length_singleton, Nat.mod_one]
    rfl
  have hmain := get_data_of_entry 2 10 false twoTests 2 false dropAll draws' dropAll.rest x₀ x data
    m' (by rw [hphase']; decide) hchoice hget
  refine ⟨x₀, x, data, m', draws', hcorpus', hget, ?_⟩
  exact hmain.2.2 [⟨x₁, constData 1, .get .generation⟩]
    ⟨x₀, constData 0, .get .generation⟩ [] (by rw [heq]; rfl) rfl (.inr Nat.one_lt_two)

end ProcessorFuzz.Mutation
