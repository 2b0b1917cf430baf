import ProcessorFuzz.Library.Recency
import ProcessorFuzz.Mutation.RvMutator

/-!
# The data seeds of the mutator

A test carries the number of its data. The mutator keeps the data of at most `max_data_seeds`
numbers and gives the number that has not been used for the longest time to a new test when there
is no room for another one. Over every sequence of calls the numbers in `data_seeds` are those
below its length, and they are the keys of `random_data`; no test that was ever returned carries
another number.
-/

namespace ProcessorFuzz.Mutation

open Library Library.Stateful Library.Recency Generating

namespace Mutator

/-- The bookkeeping of the data. -/
structure Seeded (m : Mutator) : Prop where
  maxData_pos : 0 < m.maxData
  numbered : Numbered m.dataSeeds
  length_le : m.dataSeeds.length ≤ m.maxData
  keys : ∀ seed, seed ∈ m.randomData.keys ↔ seed ∈ m.dataSeeds

/-- What a call that returns a test with this seed and these data does to the mutator. -/
structure Uses (m m' : Mutator) (seed : ℕ) (data : List ℤ) : Prop where
  maxData : m'.maxData = m.maxData
  dataSeeds : m'.dataSeeds = touch seed m.dataSeeds
  get? : ∀ seed', m'.randomData.get? seed' =
    if seed' = seed then some data else m.randomData.get? seed'

variable {m m' : Mutator} {seed : ℕ} {data : List ℤ} {draws : Draws}

theorem Seeded.exists_get? (h : m.Seeded) (hseed : seed ∈ m.dataSeeds) :
    ∃ data, m.randomData.get? seed = some data := by
  rw [← Option.isSome_iff_exists, Dict.isSome_get?_iff]
  exact (h.keys seed).mpr hseed

theorem Uses.mem_keys (h : m.Uses m' seed data) (seed' : ℕ) :
    seed' ∈ m'.randomData.keys ↔ seed' = seed ∨ seed' ∈ m.randomData.keys := by
  rw [← Dict.isSome_get?_iff, ← Dict.isSome_get?_iff, h.get?]
  split
  · next heq => simp [heq]
  · next hne => simp [hne]

theorem Seeded.uses (hm : m.Seeded) (h : m.Uses m' seed data)
    (hseed : seed = next m.maxData m.dataSeeds ∨ seed ∈ m.dataSeeds) : m'.Seeded := by
  have hkeys : ∀ seed', seed' ∈ m'.randomData.keys ↔ seed' ∈ m'.dataSeeds := by
    intro seed'
    rw [h.mem_keys, h.dataSeeds, mem_touch, hm.keys]
  have hpos : 0 < m'.maxData := h.maxData ▸ hm.maxData_pos
  rcases hseed with rfl | hmem
  · refine ⟨hpos, ?_, ?_, hkeys⟩
    · rw [h.dataSeeds]
      exact hm.numbered.touch_next hm.length_le hm.maxData_pos
    · rw [h.dataSeeds, h.maxData]
      exact (length_touch_next hm.numbered hm.length_le hm.maxData_pos).2
  · refine ⟨hpos, ?_, ?_, hkeys⟩
    · rw [h.dataSeeds]
      exact hm.numbered.touch_of_mem hmem
    · rw [h.dataSeeds, h.maxData, (perm_touch hmem).length_eq]
      exact hm.length_le

/-- The pool never shrinks. -/
theorem Seeded.length_le_uses (hm : m.Seeded) (h : m.Uses m' seed data)
    (hseed : seed = next m.maxData m.dataSeeds ∨ seed ∈ m.dataSeeds) :
    m.dataSeeds.length ≤ m'.dataSeeds.length := by
  rw [h.dataSeeds]
  rcases hseed with rfl | hmem
  · exact (length_touch_next hm.numbered hm.length_le hm.maxData_pos).1
  · rw [(perm_touch hmem).length_eq]

/-- The data that `add_data` draws. -/
def newWords (draws : Draws) : List ℤ :=
  (List.range (64 * 6)).map fun i ↦ ((draws i % 2 ^ 64 : ℕ) : ℤ)

theorem randomWords_eq (n : ℕ) (draws : Draws) : randomWords n draws =
    .ok ((List.range n).map fun i ↦ ((draws i % 2 ^ 64 : ℕ) : ℤ), fun i ↦ draws (i + n)) := by
  induction n generalizing draws with
  | zero => rfl
  | succ n ih =>
    have hword : draws.randint 0 0xffffffffffffffff =
        .ok (((draws 0 % 2 ^ 64 : ℕ) : ℤ), draws.rest) := by
      rw [Draws.randint, if_neg (by decide), zero_add]
      rfl
    simp only [randomWords, hword, ok_bind, ih, List.range_succ_eq_map, List.map_cons,
      List.map_map]
    rfl

/-- With the invariant, `add_data` takes the next number of the pool. -/
theorem Seeded.addData_eq (h : m.Seeded) (newData : List ℤ) (draws : Draws) :
    ∃ draws', m.addData newData draws = .ok (next m.maxData m.dataSeeds,
      { m with
        randomData := m.randomData.set (next m.maxData m.dataSeeds)
          (if newData = [] then newWords draws else newData)
        dataSeeds := touch (next m.maxData m.dataSeeds) m.dataSeeds }, draws') := by
  rcases next_cases h.numbered h.length_le h.maxData_pos with ⟨hfull, hmem⟩ | ⟨hroom, hnew⟩
  · obtain ⟨first, rest, hseeds⟩ := List.exists_cons_of_ne_nil (List.ne_nil_of_mem hmem)
    have hfirst : next m.maxData m.dataSeeds = first := by
      rw [next, if_pos hfull, hseeds, List.headD_cons]
    have htouch : touch first m.dataSeeds = rest ++ [first] := by
      rw [touch, hseeds, List.erase_cons_head]
    rw [hfirst, htouch]
    rw [hseeds] at hfull
    by_cases hdata : newData = []
    · refine ⟨fun i ↦ draws (i + 64 * 6), ?_⟩
      simp only [addData, hseeds, if_pos hfull, ok_bind, if_pos hdata, randomWords_eq]
      rfl
    · refine ⟨draws, ?_⟩
      simp only [addData, hseeds, if_pos hfull, ok_bind, if_neg hdata]
      rfl
  · rw [hnew, h.numbered.touch_length]
    by_cases hdata : newData = []
    · refine ⟨fun i ↦ draws (i + 64 * 6), ?_⟩
      simp only [addData, if_neg hroom.ne, ok_bind, if_pos hdata, randomWords_eq]
      rfl
    · refine ⟨draws, ?_⟩
      simp only [addData, if_neg hroom.ne, ok_bind, if_neg hdata]
      rfl

theorem Seeded.updateDataSeeds_eq (h : m.Seeded) (hseed : seed ∈ m.dataSeeds) :
    m.updateDataSeeds seed = .ok { m with dataSeeds := touch seed m.dataSeeds } := by
  have hcount : m.dataSeeds.count seed = 1 :=
    List.count_eq_one_of_mem h.numbered.nodup hseed
  rw [updateDataSeeds, hcount]
  rfl

end Mutator

namespace RvMutator

variable {m m' : RvMutator} {it : ℕ} {assertIntr : Bool} {draws draws' : Draws} {x : SimInput}
  {data : List ℤ} {contents : Text}

/-- The seed and the template of a parent: those of the first choice from the corpus, unless the
test is generated. -/
def ParentOf (m : RvMutator) (draws : Draws) : Option (ℕ × ℕ) → Prop
  | none => m.phase = .generation
  | some parent => m.phase ≠ .generation ∧ ∃ entry rest,
    Draws.choice m.corpus draws = .ok (entry, rest) ∧ parent = (entry.dataSeed, entry.template)

theorem makeParts_parent (m : RvMutator) (s : InstGenerator × Draws) :
    Ensures m.makeParts s fun parts _ ↦ m.ParentOf s.2 parts.parent := by
  have hgenerate : m.phase = .generation →
      Ensures m.generate s fun parts _ ↦ m.ParentOf s.2 parts.parent := by
    intro hphase
    apply Ensures.bind .trivial
    intro prefixWords s₁ _
    apply Ensures.bind .trivial
    intro words s₂ _
    apply Ensures.bind .trivial
    intro suffixWords s₃ _
    exact .pure hphase
  have hmutate : ∀ seed s₁, m.ParentOf s.2 seed.parent →
      Ensures (mutateParts seed) s₁ fun parts _ ↦ m.ParentOf s.2 parts.parent := by
    intro seed s₁ hseed
    apply Ensures.bind .trivial
    intro prefixWords s₂ _
    apply Ensures.bind .trivial
    intro words s₃ _
    apply Ensures.bind .trivial
    intro suffixWords s₄ _
    exact .pure hseed
  have hchoice : Ensures (Draws.choice m.corpus) s.2 fun entry _ ↦
      ∃ rest, Draws.choice m.corpus s.2 = .ok (entry, rest) := by
    constructor
    intro r hr
    exact ⟨r.2, hr⟩
  unfold makeParts
  cases hphase : m.phase with
  | generation => exact hgenerate hphase
  | mutation =>
    refine Ensures.bind (.onSnd ?_) hmutate
    apply Ensures.bind hchoice
    intro entry draws₁ hentry
    apply Ensures.pure
    exact ⟨by simp [hphase], entry, hentry.imp fun rest hrest ↦ ⟨hrest, rfl⟩⟩
  | merge =>
    refine Ensures.bind (.onSnd ?_) hmutate
    apply Ensures.bind hchoice
    intro entry draws₁ hentry
    apply Ensures.bind .trivial
    intro entry' draws₂ _
    apply Ensures.bind .trivial
    intro idx draws₃ _
    apply Ensures.pure
    exact ⟨by simp [hphase], entry, hentry.imp fun rest hrest ↦ ⟨hrest, rfl⟩⟩

theorem makeDraft_parent (m : RvMutator) (assertIntr : Bool) (s : InstGenerator × Draws) :
    Ensures (m.makeDraft assertIntr) s fun draft _ ↦ m.ParentOf s.2 draft.parent := by
  apply Ensures.bind (makeParts_parent m s)
  intro parts s₁ hparts
  apply Ensures.bind .trivial
  intro prefixWords s₂ _
  apply Ensures.bind .trivial
  intro words s₃ _
  apply Ensures.bind .trivial
  intro suffixWords s₄ _
  apply Ensures.bind .trivial
  intro ints s₅ _
  exact .pure hparts

/-- The seed that a test gets: a number of the pool and new data, or that of its parent and the data
that the mutator has for it. -/
def SeedOf (m : Mutator) (parent : Option (ℕ × ℕ)) (draws : Draws) (seed : ℕ) (data : List ℤ) :
    Prop :=
  match parent with
  | none => seed = next m.maxData m.dataSeeds ∧ data = Mutator.newWords draws
  | some parent => seed = parent.1 ∧ m.randomData.get? seed = some data

theorem takeData_eq {m : Mutator} (hm : m.Seeded) {parent : Option (ℕ × ℕ)}
    (hparent : ∀ seed template, parent = some (seed, template) → seed ∈ m.dataSeeds)
    (draws : Draws) : ∃ seed m' draws' data, takeData m parent draws = .ok (seed, m', draws') ∧
      m.Uses m' seed data ∧ SeedOf m parent draws seed data := by
  cases parent with
  | none =>
    obtain ⟨draws', hadd⟩ := hm.addData_eq [] draws
    refine ⟨_, _, draws', Mutator.newWords draws, hadd, ⟨rfl, rfl, fun seed' ↦ ?_⟩, rfl, rfl⟩
    rw [Dict.get?_set, if_pos rfl]
  | some parent =>
    obtain ⟨seed, template⟩ := parent
    have hseed : seed ∈ m.dataSeeds := hparent seed template rfl
    obtain ⟨data, hdata⟩ := hm.exists_get? hseed
    refine ⟨seed, { m with dataSeeds := touch seed m.dataSeeds }, draws, data, ?_,
      ⟨rfl, rfl, fun seed' ↦ ?_⟩, rfl, hdata⟩
    · rw [takeData, hm.updateDataSeeds_eq hseed, ok_bind]
      rfl
    · split
      · next heq => rw [heq, hdata]
      · rfl

theorem exists_takeTemplate_eq (parent : Option (ℕ × ℕ)) (draws : Draws) :
    ∃ template draws', takeTemplate parent draws = .ok (template, draws') := by
  cases parent with
  | none => exact ⟨_, _, rfl⟩
  | some parent => exact ⟨_, _, rfl⟩

/-- With the invariant, neither the assertion nor the lookup at the end of `get` fails. -/
theorem finish_eq (hm : m.Seeded) {draft : Draft}
    (hparent : ∀ seed template, draft.parent = some (seed, template) → seed ∈ m.dataSeeds)
    (it : ℕ) (draws : Draws) : ∃ x data base draws',
      m.finish it draft draws = .ok ((x, data), { m with toMutator := base }, draws') ∧
      m.Uses base x.dataSeed data ∧ SeedOf m.toMutator draft.parent draws x.dataSeed data := by
  obtain ⟨seed, base, draws₁, data, htake, huses, hseed⟩ := takeData_eq hm hparent draws
  obtain ⟨template, draws₂, htemplate⟩ := exists_takeTemplate_eq draft.parent draws₁
  have hget : base.randomData.get? seed = some data := by
    rw [huses.get?, if_pos rfl]
  refine ⟨{ SimInput.new draft.prefixWords draft.words draft.suffixWords draft.ints seed template
    with it, nameSuffix := draft.nameSuffix }, data, base, draws₂, ?_, huses, hseed⟩
  simp only [finish, htake, ok_bind, htemplate, hget]
  rfl

/-- What a call of `get` that returns does to the mutator. -/
structure GetStep (m m' : RvMutator) (draws : Draws) (x : SimInput) (data : List ℤ) : Prop where
  frame : m' = { m with toMutator := m'.toMutator }
  uses : m.Uses m'.toMutator x.dataSeed data
  seed : (m.phase = .generation ∧ x.dataSeed = next m.maxData m.dataSeeds) ∨
    (m.phase ≠ .generation ∧ ∃ entry rest, Draws.choice m.corpus draws = .ok (entry, rest) ∧
      x.dataSeed = entry.dataSeed ∧ m.randomData.get? entry.dataSeed = some data)

/-- Every seed of the corpus is in use. -/
def CorpusSeeded (m : RvMutator) : Prop := ∀ x ∈ m.corpus, x.dataSeed ∈ m.dataSeeds

theorem ParentOf.mem {parent : Option (ℕ × ℕ)} (hcorpus : m.CorpusSeeded)
    (h : m.ParentOf draws parent) (seed template : ℕ) (hparent : parent = some (seed, template)) :
    seed ∈ m.dataSeeds := by
  rw [hparent] at h
  obtain ⟨-, entry, rest, hchoice, heq⟩ := h
  obtain ⟨rfl, rfl⟩ := Prod.mk.inj heq
  exact hcorpus entry (Draws.mem_of_choice_eq_ok hchoice)

theorem getStep (hm : m.Seeded) (hcorpus : m.CorpusSeeded)
    (h : m.get it assertIntr draws = .ok ((x, data), m', draws')) :
    m.GetStep m' draws x data := by
  obtain ⟨⟨draft, s⟩, hdraft, hfinish⟩ := bind_eq_ok.mp h
  have hparent : m.ParentOf draws draft.parent :=
    (makeDraft_parent m assertIntr (InstGenerator.start, draws)).of_eq_ok _ hdraft
  obtain ⟨x', data', base, draws'', heq, huses, hseed⟩ :=
    finish_eq hm (hparent.mem hcorpus) it s.2
  obtain ⟨hx, hm', -⟩ : (x', data') = (x, data) ∧ { m with toMutator := base } = m' ∧
      draws'' = draws' := by
    simpa using heq.symm.trans hfinish
  obtain ⟨rfl, rfl⟩ := Prod.mk.inj hx
  subst hm'
  refine ⟨rfl, huses, ?_⟩
  cases hcase : draft.parent with
  | none =>
    rw [hcase] at hparent hseed
    exact .inl ⟨hparent, hseed.1⟩
  | some parent =>
    rw [hcase] at hparent hseed
    obtain ⟨hphase, entry, rest, hchoice, rfl⟩ := hparent
    obtain ⟨hseed, hdata⟩ := hseed
    rw [hseed] at hdata
    exact .inr ⟨hphase, entry, rest, hchoice, hseed, hdata⟩

theorem GetStep.seed_cases (hcorpus : m.CorpusSeeded) (h : m.GetStep m' draws x data) :
    x.dataSeed = next m.maxData m.dataSeeds ∨ x.dataSeed ∈ m.dataSeeds := by
  rcases h.seed with ⟨-, hseed⟩ | ⟨-, entry, rest, hchoice, hseed, -⟩
  · exact .inl hseed
  · rw [hseed]
    exact .inr (hcorpus entry (Draws.mem_of_choice_eq_ok hchoice))

end RvMutator

/-- What a call of `read_siminput` that returns does to the mutator. -/
theorem Mutator.readSiminput_uses {m m' : Mutator} (hm : m.Seeded) {contents : Text}
    {draws draws' : Draws} {x : SimInput} {data : List ℤ} {intr : Bool}
    (h : m.readSiminput contents draws = .ok ((x, data, intr), m', draws')) :
    m.Uses m' x.dataSeed data ∧ x.dataSeed = next m.maxData m.dataSeeds := by
  unfold readSiminput at h
  split at h
  · exact nomatch h
  · obtain ⟨template, -, h⟩ := bind_eq_ok.mp h
    split at h
    · exact nomatch h
    · obtain ⟨⟨r, newData⟩, -, h⟩ := bind_eq_ok.mp h
      obtain ⟨prefixWords, -, h⟩ := bind_eq_ok.mp h
      obtain ⟨words, -, h⟩ := bind_eq_ok.mp h
      obtain ⟨suffixWords, -, h⟩ := bind_eq_ok.mp h
      obtain ⟨draws₁, hadd⟩ := hm.addData_eq newData draws
      rw [hadd, ok_bind] at h
      simp only [Dict.get?_set_self] at h
      obtain ⟨⟨rfl, rfl, -⟩, rfl, -⟩ : (_ ∧ _ ∧ _) ∧ _ ∧ _ := by simpa using Except.ok.inj h
      exact ⟨⟨rfl, rfl, fun seed' ↦ Dict.get?_set _ _ _ _⟩, rfl⟩

namespace RvMutator

variable {m : RvMutator} {x y : SimInput} {data : List ℤ} {nopMask : List Bool} {part : Part}
  {draws draws' : Draws}

/-- A test without some instructions keeps its data. -/
theorem dataSeed_makeNop (h : m.makeNop x nopMask part = .ok (y, data)) :
    y.dataSeed = x.dataSeed := by
  obtain ⟨-, -, h⟩ := bind_eq_ok.mp h
  obtain ⟨newTarget, -, h⟩ := bind_eq_ok.mp h
  obtain ⟨minInput, hmin, h⟩ := bind_eq_ok.mp h
  have hseed : minInput.dataSeed = x.dataSeed := by
    cases part with
    | prefixPart =>
      obtain rfl := Except.ok.inj hmin
      rfl
    | mainPart =>
      obtain ⟨newInts, -, hmin⟩ := bind_eq_ok.mp hmin
      obtain rfl := Except.ok.inj hmin
      rfl
    | suffixPart =>
      obtain rfl := Except.ok.inj hmin
      rfl
  split at h
  · exact nomatch h
  · obtain ⟨rfl, rfl⟩ := Prod.mk.inj (Except.ok.inj h)
    exact hseed

theorem dataSeed_deleteNop (h : m.deleteNop x draws = .ok ((y, data), draws')) :
    y.dataSeed = x.dataSeed := by
  obtain ⟨⟨prefixWords, draws₁⟩, -, h⟩ := bind_eq_ok.mp h
  obtain ⟨⟨words, draws₂⟩, -, h⟩ := bind_eq_ok.mp h
  obtain ⟨⟨suffixWords, draws₃⟩, -, h⟩ := bind_eq_ok.mp h
  dsimp only at h
  split at h
  · exact nomatch h
  · obtain ⟨heq, -⟩ := Prod.mk.inj (Except.ok.inj h)
    rw [← (Prod.mk.inj heq).1]
    rfl

theorem mem_corpus_addCorpus (h : y ∈ (m.addCorpus x).corpus) : y ∈ m.corpus ∨ y = x := by
  have hmem : y ∈ m.corpus ++ [x] := by
    simp only [addCorpus] at h
    split at h
    · exact List.mem_of_mem_tail h
    · exact h
  simpa using hmem

theorem toMutator_updatePhase {m' : RvMutator} {it : ℕ}
    (h : m.updatePhase it draws = .ok (m', draws')) :
    m'.toMutator = m.toMutator ∧ m'.corpus = m.corpus := by
  unfold updatePhase at h
  split at h
  · obtain ⟨rfl, -⟩ := Prod.mk.inj (Except.ok.inj h)
    exact ⟨rfl, rfl⟩
  · obtain ⟨⟨rand, draws₁⟩, -, h⟩ := bind_eq_ok.mp h
    obtain ⟨rfl, -⟩ := Prod.mk.inj (Except.ok.inj h)
    exact ⟨rfl, rfl⟩

end RvMutator

/-- The call that returned a test. -/
inductive Origin
  | get (phase : Phase)
  | readSiminput
  | makeNop
  | deleteNop
  deriving DecidableEq, Repr

structure Returned where
  simInput : SimInput
  data : List ℤ
  origin : Origin

/-- A mutator and all that its methods have returned, the latest first. -/
structure Session where
  mutator : RvMutator
  returned : List Returned

/-- The calls of the fuzzer's loop, each with its random outcomes. A test that is added to the corpus
is given by its place among those returned. -/
inductive FuzzCall
  | updatePhase (it : ℕ) (draws : Draws)
  | get (it : ℕ) (assertIntr : Bool) (draws : Draws)
  | addCorpus (i : ℕ)

/-- All calls. The phase may also be set from outside, so that `get` is called in any phase. -/
inductive Call
  | fuzz (call : FuzzCall)
  | setPhase (phase : Phase)
  | readSiminput (contents : Text) (draws : Draws)
  | makeNop (i : ℕ) (nopMask : List Bool) (part : Part)
  | deleteNop (i : ℕ) (draws : Draws)

namespace Session

def start (maxDataSeeds corpusSize : ℕ) (noGuide : Bool) : Session :=
  ⟨RvMutator.init maxDataSeeds corpusSize noGuide, []⟩

/-- The next session when a call returns; a call that raises leaves the data and the corpus alone. -/
def fuzzStep (s : Session) : FuzzCall → Session
  | .updatePhase it draws =>
    match s.mutator.updatePhase it draws with
    | .error _ => s
    | .ok (m, _) => { s with mutator := m }
  | .get it assertIntr draws =>
    match s.mutator.get it assertIntr draws with
    | .error _ => s
    | .ok ((x, data), m, _) => ⟨m, ⟨x, data, .get s.mutator.phase⟩ :: s.returned⟩
  | .addCorpus i =>
    match s.returned[i]? with
    | none => s
    | some r => { s with mutator := s.mutator.addCorpus r.simInput }

def step (s : Session) : Call → Session
  | .fuzz call => s.fuzzStep call
  | .setPhase phase => { s with mutator := { s.mutator with phase } }
  | .readSiminput contents draws =>
    match s.mutator.readTest contents draws with
    | .error _ => s
    | .ok ((x, data, _), m, _) => ⟨m, ⟨x, data, .readSiminput⟩ :: s.returned⟩
  | .makeNop i nopMask part =>
    match s.returned[i]? with
    | none => s
    | some r =>
      match s.mutator.makeNop r.simInput nopMask part with
      | .error _ => s
      | .ok (x, data) => { s with returned := ⟨x, data, .makeNop⟩ :: s.returned }
  | .deleteNop i draws =>
    match s.returned[i]? with
    | none => s
    | some r =>
      match s.mutator.deleteNop r.simInput draws with
      | .error _ => s
      | .ok ((x, data), _) => { s with returned := ⟨x, data, .deleteNop⟩ :: s.returned }

def run (s : Session) (calls : List Call) : Session := calls.foldl step s

/-- What every call leaves true of the data. -/
structure Consistent (s : Session) : Prop where
  seeded : s.mutator.Seeded
  corpus : s.mutator.CorpusSeeded
  returned : ∀ r ∈ s.returned, r.simInput.dataSeed ∈ s.mutator.dataSeeds

/-- What a call can do to a session. -/
inductive Change (s : Session) : Session → Prop
  | idle {m : RvMutator} (hbase : m.toMutator = s.mutator.toMutator)
    (hcorpus : ∀ x ∈ m.corpus, x ∈ s.mutator.corpus ∨ ∃ r ∈ s.returned, x = r.simInput) :
    Change s ⟨m, s.returned⟩
  | uses {m : RvMutator} {r : Returned} (hcorpus : m.corpus = s.mutator.corpus)
    (huses : s.mutator.Uses m.toMutator r.simInput.dataSeed r.data)
    (hseed : r.simInput.dataSeed = next s.mutator.maxData s.mutator.dataSeeds ∨
      r.simInput.dataSeed ∈ s.mutator.dataSeeds) : Change s ⟨m, r :: s.returned⟩
  | derived {r : Returned} (hseed : ∃ r' ∈ s.returned,
    r.simInput.dataSeed = r'.simInput.dataSeed) : Change s ⟨s.mutator, r :: s.returned⟩

variable {s s' : Session}

theorem Change.refl (s : Session) : Change s s := .idle rfl fun _ ↦ .inl

theorem change_fuzzStep (hs : s.Consistent) (call : FuzzCall) : Change s (s.fuzzStep call) := by
  cases call with
  | updatePhase it draws =>
    rw [fuzzStep]
    split
    · exact .refl s
    · next m draws' h =>
      obtain ⟨hbase, hcorpus⟩ := RvMutator.toMutator_updatePhase h
      exact .idle hbase fun x hx ↦ .inl (hcorpus ▸ hx)
  | get it assertIntr draws =>
    rw [fuzzStep]
    split
    · exact .refl s
    · next x data m draws' h =>
      have hget := RvMutator.getStep hs.seeded hs.corpus h
      refine .uses ?_ hget.uses (hget.seed_cases hs.corpus)
      rw [hget.frame]
  | addCorpus i =>
    rw [fuzzStep]
    split
    · exact .refl s
    · next r hr =>
      have hbase : (s.mutator.addCorpus r.simInput).toMutator = s.mutator.toMutator := rfl
      apply Change.idle hbase
      intro x hx
      rcases RvMutator.mem_corpus_addCorpus hx with hx | rfl
      · exact .inl hx
      · exact .inr ⟨r, List.mem_of_getElem? hr, rfl⟩

theorem change_step (hs : s.Consistent) (call : Call) : Change s (s.step call) := by
  cases call with
  | fuzz call => exact change_fuzzStep hs call
  | setPhase phase =>
    have hbase : { s.mutator with phase }.toMutator = s.mutator.toMutator := rfl
    exact .idle hbase fun x hx ↦ .inl hx
  | readSiminput contents draws =>
    rw [step]
    split
    · exact .refl s
    · next x data intr m draws' h =>
      obtain ⟨⟨result, base, draws₁⟩, hread, h⟩ := bind_eq_ok.mp h
      obtain ⟨rfl, hm⟩ := Prod.mk.inj (Except.ok.inj h)
      obtain ⟨rfl, -⟩ := Prod.mk.inj hm
      obtain ⟨huses, hseed⟩ := Mutator.readSiminput_uses hs.seeded hread
      exact .uses rfl huses (.inl hseed)
  | makeNop i nopMask part =>
    rw [step]
    split
    · exact .refl s
    · next r hr =>
      split
      · exact .refl s
      · next x data h =>
        exact .derived ⟨r, List.mem_of_getElem? hr, RvMutator.dataSeed_makeNop h⟩
  | deleteNop i draws =>
    rw [step]
    split
    · exact .refl s
    · next r hr =>
      split
      · exact .refl s
      · next x data draws' h =>
        exact .derived ⟨r, List.mem_of_getElem? hr, RvMutator.dataSeed_deleteNop h⟩

theorem Change.consistent (hs : s.Consistent) (h : Change s s') : s'.Consistent := by
  cases h with
  | idle hbase hcorpus =>
    have hseeds := congrArg Mutator.dataSeeds hbase
    refine ⟨hbase ▸ hs.seeded, fun x hx ↦ ?_, fun r hr ↦ hseeds ▸ hs.returned r hr⟩
    rw [hseeds]
    rcases hcorpus x hx with hx | ⟨r, hr, rfl⟩
    · exact hs.corpus x hx
    · exact hs.returned r hr
  | uses hcorpus huses hseed =>
    refine ⟨hs.seeded.uses huses hseed, fun x hx ↦ ?_, fun r hr ↦ ?_⟩
    · rw [huses.dataSeeds, mem_touch]
      exact .inr (hs.corpus x (hcorpus ▸ hx))
    · rw [huses.dataSeeds, mem_touch]
      rcases List.mem_cons.mp hr with rfl | hr
      · exact .inl rfl
      · exact .inr (hs.returned r hr)
  | derived hseed =>
    obtain ⟨r', hr', heq⟩ := hseed
    refine ⟨hs.seeded, hs.corpus, fun r hr ↦ ?_⟩
    rcases List.mem_cons.mp hr with rfl | hr
    · rw [heq]
      exact hs.returned r' hr'
    · exact hs.returned r hr

theorem Change.length_le (hs : s.Consistent) (h : Change s s') :
    s.mutator.dataSeeds.length ≤ s'.mutator.dataSeeds.length := by
  cases h with
  | idle hbase => rw [congrArg Mutator.dataSeeds hbase]
  | uses _ huses hseed => exact hs.seeded.length_le_uses huses hseed
  | derived _ => exact le_rfl

theorem consistent_start {maxDataSeeds : ℕ} (hpos : 0 < maxDataSeeds) (corpusSize : ℕ)
    (noGuide : Bool) : (start maxDataSeeds corpusSize noGuide).Consistent where
  seeded := ⟨hpos, numbered_nil, Nat.zero_le _, fun _ ↦ Iff.rfl⟩
  corpus _ hx := nomatch hx
  returned _ hr := nomatch hr

theorem Consistent.run (hs : s.Consistent) (calls : List Call) : (s.run calls).Consistent := by
  induction calls generalizing s with
  | nil => exact hs
  | cons call calls ih => exact ih ((change_step hs call).consistent hs)

theorem length_le_run (hs : s.Consistent) (calls : List Call) :
    s.mutator.dataSeeds.length ≤ (s.run calls).mutator.dataSeeds.length := by
  induction calls generalizing s with
  | nil => exact le_rfl
  | cons call calls ih =>
    have hstep := change_step hs call
    exact (hstep.length_le hs).trans (ih (hstep.consistent hs))

theorem Change.maxData (h : Change s s') : s'.mutator.maxData = s.mutator.maxData := by
  cases h with
  | idle hbase => exact congrArg Mutator.maxData hbase
  | uses _ huses _ => exact huses.maxData
  | derived _ => rfl

theorem maxData_run (hs : s.Consistent) (calls : List Call) :
    (s.run calls).mutator.maxData = s.mutator.maxData := by
  induction calls generalizing s with
  | nil => rfl
  | cons call calls ih =>
    have hstep := change_step hs call
    exact (ih (hstep.consistent hs)).trans hstep.maxData

end Session

/-- Over every sequence of calls, `data_seeds` holds the numbers below its length, which never
decreases and never exceeds `max_data_seeds`; its members are the keys of `random_data`; and every
test that was returned or is in the corpus carries one of them. So a call of `get` whose words are
made returns: neither the assertion of `update_data_seeds` nor the lookup of the data fails. The
lookups of `make_nop` and `delete_nop` find the data of every test that was returned. -/
theorem dataSeeds_run (maxDataSeeds corpusSize : ℕ) (noGuide : Bool) (hpos : 0 < maxDataSeeds)
    (calls : List Call) :
    let s := (Session.start maxDataSeeds corpusSize noGuide).run calls
    let m := s.mutator
    (∃ k ≤ maxDataSeeds, m.dataSeeds.Perm (List.range k)) ∧
    (∀ seed, seed ∈ m.randomData.keys ↔ seed ∈ m.dataSeeds) ∧
    (∀ later, m.dataSeeds.length ≤ (s.run later).mutator.dataSeeds.length) ∧
    (∀ r ∈ s.returned, r.simInput.dataSeed ∈ m.dataSeeds) ∧
    (∀ x ∈ m.corpus, x.dataSeed ∈ m.dataSeeds) ∧
    (∀ it assertIntr draws draft state,
      m.makeDraft assertIntr (InstGenerator.start, draws) = .ok (draft, state) →
      ∃ result, m.get it assertIntr draws = .ok result) ∧
    ∀ r ∈ s.returned, ∃ data, m.randomData.get? r.simInput.dataSeed = some data := by
  intro s m
  have hs : s.Consistent := (Session.consistent_start hpos corpusSize noGuide).run calls
  have hmax : m.maxData = maxDataSeeds := Session.maxData_run (Session.consistent_start hpos corpusSize noGuide) calls
  refine ⟨⟨m.dataSeeds.length, hmax ▸ hs.seeded.length_le, hs.seeded.numbered⟩, hs.seeded.keys,
    fun later ↦ Session.length_le_run hs later, hs.returned, hs.corpus, ?_, fun r hr ↦
    hs.seeded.exists_get? (hs.returned r hr)⟩
  intro it assertIntr draws draft state hdraft
  have hparent : m.ParentOf draws draft.parent :=
    (RvMutator.makeDraft_parent m assertIntr (InstGenerator.start, draws)).of_eq_ok _ hdraft
  obtain ⟨x, data, base, draws', hfinish, -⟩ :=
    RvMutator.finish_eq hs.seeded (hparent.mem hs.corpus) it state.2
  exact ⟨_, bind_eq_ok.mpr ⟨_, hdraft, hfinish⟩⟩

/-- Two files are read into a pool of one seed, and the first test is kept in the corpus. -/
def twoReadings : List Call :=
  [.readSiminput "p-m\n\ndata:\n2a\n".toList (fun _ ↦ 0), .fuzz (.addCorpus 0),
    .readSiminput "p-u\n\ndata:\n2b\n".toList (fun _ ↦ 0)]

theorem dataSeeds_run_twoReadings :
    let s := (Session.start 1 10 true).run twoReadings
    (s.returned.map fun r ↦ (r.simInput.dataSeed, r.data)) = [(0, [0x2b]), (0, [0x2a])] ∧
      ∃ k ≤ 1, s.mutator.dataSeeds.Perm (List.range k) :=
  ⟨by decide, (dataSeeds_run 1 10 true (by decide) twoReadings).1⟩

end ProcessorFuzz.Mutation
