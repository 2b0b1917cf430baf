import ProcessorFuzz.Execution.Preprocessor
import ProcessorFuzz.Mutation.DataSeeds
import ProcessorFuzz.Mutation.Lockstep

/-!
# Every test is in lockstep

Each method that returns a test computes its interrupt values in another way: `get` counts the
instructions, `make_nop` copies the values word by word, `delete_nop` takes slices of them and
`read_siminput` reads one in each line. Every test that they return in any sequence of calls is in
lockstep, provided that the files that are read were saved. So `save` prints every main instruction
and `process` has a value to pop for each one.
-/

namespace ProcessorFuzz.Mutation

open Library Library.Stateful Generating RvMutator

def RvMutator.Draft.partWords (draft : Draft) : Part → List Word
  | .prefixPart => draft.prefixWords
  | .mainPart => draft.words
  | .suffixPart => draft.suffixWords

/-- The bounds on what `get` makes. -/
structure Bounded (partWords : Part → List Word) (ints : List ℤ) : Prop where
  length_words : ∀ part, (partWords part).length ≤ maxWords part
  nonzero : (ints.filter (· ≠ 0)).length ≤ 1

/-- The variables of `get` before it comes to the data. -/
structure Drafted (draft : Draft) : Prop where
  words : ∀ part, ∀ w ∈ draft.partWords part, Sized part w
  length_ints : draft.ints.length = (draft.words.map fun w ↦ w.insts.length).sum
  bounded : Bounded draft.partWords draft.ints

section Get

variable {m m' : RvMutator} {s : InstGenerator × Draws}

/-- All tests of the corpus are in lockstep, and a new one has at most the words that it may. -/
structure CorpusLockstep (m : RvMutator) : Prop where
  corpus : ∀ x ∈ m.corpus, Lockstep x
  numWords_le : m.numWords ≤ maxWords .mainPart

/-- The words of a part before they are populated for the last time. -/
def ReadyPart (part : Part) (words : List GenWord) : Prop :=
  words.length ≤ maxWords part ∧ ∀ w ∈ words, Ready part w

theorem allSized_seedWords {x : SimInput} (hx : Lockstep x) (part : Part) :
    AllSized part (x.seedWords part) := by
  have hmap : ∀ words : List Word, (∀ w ∈ words, Sized part w) →
      AllSized part (words.map Word.toGen) := by
    intro words h w hw
    obtain ⟨w₀, hw₀, rfl⟩ := List.mem_map.mp hw
    exact h w₀ hw₀
  cases part with
  | prefixPart => exact hmap _ (hx.words .prefixPart)
  | mainPart => exact hmap _ (hx.words .mainPart)
  | suffixPart => exact hmap _ (hx.words .suffixPart)

theorem ensures_generate (hm : CorpusLockstep m) : Ensures m.generate s fun parts _ ↦
    ∀ part, ReadyPart part (parts.words part) := by
  apply Ensures.bind (ensures_getWords .prefixPart _)
  intro prefixWords s₁ hbegins
  apply Ensures.bind (ensures_getWords .mainPart _)
  intro words s₂ hwords
  apply Ensures.bind (ensures_getWords .suffixPart _)
  intro suffixWords s₃ hsuffix
  apply Ensures.pure
  intro part
  cases part with
  | prefixPart => exact hbegins
  | mainPart => exact ⟨hwords.1.trans hm.numWords_le, hwords.2⟩
  | suffixPart => exact hsuffix

theorem ensures_mutateParts {seed : Parts} (h : ∀ part, AllSized part (seed.words part)) :
    Ensures (mutateParts seed) s fun parts _ ↦ ∀ part, ReadyPart part (parts.words part) := by
  have hready : ∀ {part words}, words.length ≤ maxWords part ∧ AllSized part words →
      ReadyPart part words := fun h ↦ ⟨h.1, fun w hw ↦ .inr (h.2 w hw)⟩
  apply Ensures.bind (ensures_mutateWords (h .prefixPart) _)
  intro prefixWords s₁ hbegins
  apply Ensures.bind (ensures_mutateWords (h .mainPart) _)
  intro words s₂ hwords
  apply Ensures.bind (ensures_mutateWords (h .suffixPart) _)
  intro suffixWords s₃ hsuffix
  apply Ensures.pure
  intro part
  cases part with
  | prefixPart => exact hready hbegins
  | mainPart => exact hready hwords
  | suffixPart => exact hready hsuffix

theorem ensures_choice (hm : CorpusLockstep m) {draws : Draws} :
    Ensures (Draws.choice m.corpus) draws fun x _ ↦ Lockstep x :=
  ⟨fun _ hr ↦ hm.corpus _ (Draws.mem_of_choice_eq_ok hr)⟩

theorem ensures_mutationSeed (hm : CorpusLockstep m) {draws : Draws} :
    Ensures m.mutationSeed draws fun seed _ ↦ ∀ part, AllSized part (seed.words part) := by
  apply Ensures.bind (ensures_choice hm)
  intro x draws₁ hx
  exact .pure fun part ↦ allSized_seedWords hx part

theorem ensures_mergeSeed (hm : CorpusLockstep m) {draws : Draws} :
    Ensures m.mergeSeed draws fun seed _ ↦ ∀ part, AllSized part (seed.words part) := by
  apply Ensures.bind (ensures_choice hm)
  intro x₁ draws₁ hx₁
  apply Ensures.bind (ensures_choice hm)
  intro x₂ draws₂ hx₂
  apply Ensures.bind .trivial
  intro idx draws₃ _
  apply Ensures.pure
  intro part
  by_cases hpart : part = .mainPart
  · subst hpart
    dsimp only
    rw [Function.update_self]
    intro w hw
    rcases List.mem_append.mp hw with hw | hw
    · exact allSized_seedWords hx₁ .mainPart w (List.mem_of_mem_take hw)
    · exact allSized_seedWords hx₂ .mainPart w (List.mem_of_mem_drop hw)
  · dsimp only
    rw [Function.update_of_ne hpart]
    exact allSized_seedWords hx₁ part

theorem ensures_makeParts (hm : CorpusLockstep m) : Ensures m.makeParts s fun parts _ ↦
    ∀ part, ReadyPart part (parts.words part) := by
  unfold makeParts
  cases m.phase with
  | generation => exact ensures_generate hm
  | mutation =>
    apply Ensures.bind (.draw (ensures_mutationSeed hm))
    intro seed s₁ hseed
    exact ensures_mutateParts hseed
  | merge =>
    apply Ensures.bind (.draw (ensures_mergeSeed hm))
    intro seed s₁ hseed
    exact ensures_mutateParts hseed

/-- The interrupt values are as many as asked for, and one of them is set. -/
theorem ensures_drawInts (length : ℕ) (assertIntr : Bool) {draws : Draws} :
    Ensures (drawInts length assertIntr) draws fun ints _ ↦
      ints.length = length ∧ (ints.filter (· ≠ 0)).length ≤ 1 := by
  have hzeros : (List.replicate length (0 : ℤ)).filter (· ≠ 0) = [] := by
    rw [List.filter_replicate_of_neg (by decide)]
  unfold drawInts
  split
  · apply Ensures.bind .trivial
    intro idx draws₁ _
    apply Ensures.bind .trivial
    intro int draws₂ _
    refine .pure ⟨by rw [List.length_set, List.length_replicate], ?_⟩
    by_cases hidx : idx.toNat < length
    · have hzero : (List.replicate length (0 : ℤ)).countP (· ≠ 0) = 0 := by
        rw [List.countP_eq_length_filter, hzeros, List.length_nil]
      rw [← List.countP_eq_length_filter, List.countP_set (by rwa [List.length_replicate]), hzero,
        Nat.zero_sub, Nat.zero_add]
      split
      · exact le_rfl
      · exact Nat.zero_le 1
    · have hle : (List.replicate length (0 : ℤ)).length ≤ idx.toNat := by
        rw [List.length_replicate]
        exact Nat.le_of_not_lt hidx
      rw [List.set_eq_of_length_le hle, hzeros]
      exact Nat.zero_le 1
  · refine .pure ⟨List.length_replicate, ?_⟩
    rw [hzeros]
    exact Nat.zero_le 1

theorem ensures_makeDraft (hm : CorpusLockstep m) (assertIntr : Bool) :
    Ensures (m.makeDraft assertIntr) s fun draft _ ↦ Drafted draft := by
  apply Ensures.bind (ensures_makeParts hm)
  intro parts s₁ hparts
  apply Ensures.bind (ensures_populateWords (hparts .prefixPart).2)
  intro prefixWords s₂ hbegins
  apply Ensures.bind (ensures_populateWords (hparts .mainPart).2)
  intro words s₃ hwords
  apply Ensures.bind (ensures_populateWords (hparts .suffixPart).2)
  intro suffixWords s₄ hsuffix
  apply Ensures.bind (.draw (ensures_drawInts _ assertIntr))
  intro ints s₅ hints
  refine .pure ⟨fun part ↦ ?_, hints.1, fun part ↦ ?_, hints.2⟩
  · cases part with
    | prefixPart => exact hbegins.2
    | mainPart => exact hwords.2
    | suffixPart => exact hsuffix.2
  · cases part with
    | prefixPart => exact hbegins.1.le.trans (hparts .prefixPart).1
    | mainPart => exact hwords.1.le.trans (hparts .mainPart).1
    | suffixPart => exact hsuffix.1.le.trans (hparts .suffixPart).1

variable {it : ℕ} {assertIntr : Bool} {draws draws' : Draws} {x y : SimInput} {data : List ℤ}

/-- The data do not change the words of a test. -/
theorem finish_eq_ok {draft : Draft} (h : m.finish it draft draws = .ok ((x, data), m', draws')) :
    x.partWords = draft.partWords ∧ x.ints = draft.ints ∧ m'.corpus = m.corpus ∧
      m'.numWords = m.numWords := by
  obtain ⟨⟨dataSeed, base, draws₁⟩, -, h⟩ := bind_eq_ok.mp h
  obtain ⟨⟨template, draws₂⟩, -, h⟩ := bind_eq_ok.mp h
  dsimp only at h
  split at h
  · exact nomatch h
  · obtain ⟨hx, hm⟩ := Prod.mk.inj (Except.ok.inj h)
    obtain ⟨rfl, -⟩ := Prod.mk.inj hx
    obtain ⟨rfl, -⟩ := Prod.mk.inj hm
    refine ⟨?_, rfl, rfl, rfl⟩
    funext part
    cases part <;> rfl

theorem lockstep_get (hm : CorpusLockstep m)
    (h : m.get it assertIntr draws = .ok ((x, data), m', draws')) :
    Lockstep x ∧ Bounded x.partWords x.ints ∧ CorpusLockstep m' := by
  obtain ⟨⟨draft, s⟩, hdraft, hfinish⟩ := bind_eq_ok.mp h
  have hdrafted : Drafted draft := (ensures_makeDraft hm assertIntr).of_eq_ok _ hdraft
  obtain ⟨hwords, hints, hcorpus, hnum⟩ := finish_eq_ok hfinish
  have hmain : x.words = draft.words := congrFun hwords .mainPart
  refine ⟨⟨?_, ?_, ?_⟩, ?_, ⟨hcorpus ▸ hm.corpus, hnum ▸ hm.numWords_le⟩⟩
  · rw [hwords]
    exact hdrafted.words
  · rw [hints, hmain]
    exact hdrafted.length_ints
  · rw [hmain]
    exact hdrafted.bounded.length_words .mainPart
  · rw [hwords, hints]
    exact hdrafted.bounded

end Get

section Nop

variable {m : RvMutator} {part : Part} {x y : SimInput} {data : List ℤ} {nopMask : List Bool}
  {draws draws' : Draws}

theorem sized_nopWords {target newTarget : List Word} (h : ∀ w ∈ target, Sized part w)
    (hlength : target.length = nopMask.length)
    (hrun : nopWords part target nopMask = .ok newTarget) :
    (∀ w ∈ newTarget, Sized part w) ∧ newTarget.length = target.length := by
  have hforall := forall₂_of_mapM_eq_ok hrun
  have hzip : (target.zip nopMask).length = target.length := by
    rw [List.length_zip, ← hlength, Nat.min_self]
  refine ⟨fun w hw ↦ ?_, hforall.length_eq.symm.trans hzip⟩
  obtain ⟨i, hi, rfl⟩ := List.getElem_of_mem hw
  have hi' : i < (target.zip nopMask).length := hforall.length_eq ▸ hi
  have hstep := hforall.get hi' hi
  split at hstep
  · have hnop : AreLines ["nop".toList] := .singleton (by decide)
    exact .of_populate hstep hnop LineValues.empty
  · have heq : ((target.zip nopMask).get ⟨i, hi'⟩).1 = newTarget[i] := Except.ok.inj hstep
    exact heq ▸ h _ (List.of_mem_zip (List.get_mem _ ⟨i, hi'⟩)).1

theorem length_nopInts {ints new : List ℤ} {k : ℕ} {entries : List (Word × Bool)}
    (h : nopInts ints k entries = .ok new) :
    new.length = (entries.map fun entry ↦ entry.1.insts.length).sum := by
  induction entries generalizing k new with
  | nil =>
    obtain rfl := Except.ok.inj h
    rfl
  | cons entry entries ih =>
    obtain ⟨word, mask⟩ := entry
    rw [nopInts] at h
    have hsplit : ∃ first rest, first.length = word.insts.length ∧
        nopInts ints (k + word.insts.length) entries = .ok rest ∧ first ++ rest = new := by
      split at h
      · obtain ⟨first, hfirst, h⟩ := bind_eq_ok.mp h
        obtain ⟨rest, hrest, h⟩ := bind_eq_ok.mp h
        obtain rfl := Except.ok.inj hfirst
        exact ⟨_, rest, List.length_replicate, hrest, Except.ok.inj h⟩
      · obtain ⟨first, hfirst, h⟩ := bind_eq_ok.mp h
        obtain ⟨rest, hrest, h⟩ := bind_eq_ok.mp h
        have hlength := (forall₂_of_mapM_eq_ok hfirst).length_eq
        rw [List.length_range] at hlength
        exact ⟨first, rest, hlength.symm, hrest, Except.ok.inj h⟩
    obtain ⟨first, rest, hlength, hrest, rfl⟩ := hsplit
    rw [List.length_append, hlength, ih hrest, List.map_cons, List.sum_cons]

/-- The words of the other parts stay, and the interrupt values follow those of the main part. -/
theorem lockstep_makeNop (hx : Lockstep x) (h : m.makeNop x nopMask part = .ok (y, data)) :
    Lockstep y := by
  obtain ⟨_, hassert, h⟩ := bind_eq_ok.mp h
  obtain ⟨newTarget, htarget, h⟩ := bind_eq_ok.mp h
  obtain ⟨minInput, hmin, h⟩ := bind_eq_ok.mp h
  have hlength := of_decide_eq_true (assert_eq_ok.mp hassert)
  have hlockstep : Lockstep minInput := by
    cases part with
    | prefixPart =>
      obtain ⟨hsized, -⟩ := sized_nopWords (hx.words .prefixPart) hlength htarget
      obtain rfl := Except.ok.inj hmin
      refine ⟨fun part ↦ ?_, hx.length_ints, hx.length_words⟩
      cases part with
      | prefixPart => exact hsized
      | mainPart => exact hx.words .mainPart
      | suffixPart => exact hx.words .suffixPart
    | mainPart =>
      obtain ⟨hsized, hlength'⟩ := sized_nopWords (hx.words .mainPart) hlength htarget
      obtain ⟨newInts, hints, hmin⟩ := bind_eq_ok.mp hmin
      obtain rfl := Except.ok.inj hmin
      refine ⟨fun part ↦ ?_, ?_, hlength'.le.trans hx.length_words⟩
      · cases part with
        | prefixPart => exact hx.words .prefixPart
        | mainPart => exact hsized
        | suffixPart => exact hx.words .suffixPart
      · have hzip : (newTarget.zip nopMask).map Prod.fst = newTarget :=
          List.map_fst_zip (hlength'.trans hlength).le
        calc
          newInts.length
              = ((newTarget.zip nopMask).map fun entry ↦ entry.1.insts.length).sum :=
            length_nopInts hints
          _ = (((newTarget.zip nopMask).map Prod.fst).map fun w ↦ w.insts.length).sum := by
            rw [List.map_map]
            rfl
          _ = (newTarget.map fun w ↦ w.insts.length).sum := by rw [hzip]
    | suffixPart =>
      obtain ⟨hsized, -⟩ := sized_nopWords (hx.words .suffixPart) hlength htarget
      obtain rfl := Except.ok.inj hmin
      refine ⟨fun part ↦ ?_, hx.length_ints, hx.length_words⟩
      cases part with
      | prefixPart => exact hx.words .prefixPart
      | mainPart => exact hx.words .mainPart
      | suffixPart => exact hsized
  split at h
  · exact nomatch h
  · obtain ⟨rfl, -⟩ := Prod.mk.inj (Except.ok.inj h)
    exact hlockstep

/-- The slices have one value for each instruction that is left. -/
theorem length_deleteInts {ints : List ℤ} {k : ℕ} {words : List Word}
    (h : k + (words.map fun w ↦ w.insts.length).sum ≤ ints.length) :
    (deleteInts ints k words).length =
      ((words.filter fun w ↦ w.insts ≠ ["nop".toList]).map fun w ↦ w.insts.length).sum := by
  induction words generalizing k with
  | nil => rfl
  | cons w words ih =>
    rw [List.map_cons, List.sum_cons] at h
    rw [deleteInts, List.length_append, ih (by omega)]
    by_cases hnop : w.insts = ["nop".toList]
    · rw [if_neg (by simpa using hnop), List.filter_cons_of_neg (by simpa using hnop),
        List.length_nil, Nat.zero_add]
    · rw [if_pos hnop, List.filter_cons_of_pos (by simpa using hnop), List.map_cons, List.sum_cons,
        List.length_take, List.length_drop, Nat.min_eq_left (by omega)]

theorem sized_deleteWords {target words : List Word} (h : ∀ w ∈ target, Sized part w)
    (hrun : deleteWords part target draws = .ok (words, draws')) :
    (∀ w ∈ words, Sized part w) ∧ (words.map fun w ↦ w.insts) =
      (target.filter fun w ↦ w.insts ≠ ["nop".toList]).map fun w ↦ w.insts := by
  have hsized : AllSized part
      ((target.filter fun w ↦ w.insts ≠ ["nop".toList]).map Word.toGen) := by
    intro w hw
    obtain ⟨w₀, hw₀, rfl⟩ := List.mem_map.mp hw
    exact h w₀ (List.mem_of_mem_filter hw₀)
  obtain ⟨⟨words', draws₁⟩, hreset, hrun⟩ := bind_eq_ok.mp hrun
  obtain ⟨rfl, -⟩ := Prod.mk.inj (Except.ok.inj hrun)
  have hrelabelled := (ensures_resetLabels hsized).of_eq_ok _ hreset
  constructor
  · intro w hw
    obtain ⟨w₀, hw₀, rfl⟩ := List.mem_map.mp hw
    exact hrelabelled.allSized w₀ hw₀
  · have hinsts := hrelabelled.insts_eq
    rw [List.map_map] at hinsts
    rw [List.map_map]
    exact hinsts

theorem lockstep_deleteNop (hx : Lockstep x) (h : m.deleteNop x draws = .ok ((y, data), draws')) :
    Lockstep y := by
  obtain ⟨⟨prefixWords, draws₁⟩, hbegins, h⟩ := bind_eq_ok.mp h
  obtain ⟨⟨words, draws₂⟩, hwords, h⟩ := bind_eq_ok.mp h
  obtain ⟨⟨suffixWords, draws₃⟩, hsuffix, h⟩ := bind_eq_ok.mp h
  obtain ⟨hsized, hinsts⟩ := sized_deleteWords (hx.words .mainPart) hwords
  dsimp only at h
  split at h
  · exact nomatch h
  · obtain ⟨heq, -⟩ := Prod.mk.inj (Except.ok.inj h)
    obtain ⟨rfl, -⟩ := Prod.mk.inj heq
    refine ⟨fun part ↦ ?_, ?_, ?_⟩
    · cases part with
      | prefixPart => exact (sized_deleteWords (hx.words .prefixPart) hbegins).1
      | mainPart => exact hsized
      | suffixPart => exact (sized_deleteWords (hx.words .suffixPart) hsuffix).1
    · have hle : 0 + (x.words.map fun w ↦ w.insts.length).sum ≤ x.ints.length := by
        rw [Nat.zero_add, hx.length_ints]
      have hlengths := congrArg (List.map List.length) hinsts
      rw [List.map_map, List.map_map] at hlengths
      exact (length_deleteInts hle).trans (congrArg List.sum hlengths).symm
    · have hcount := congrArg List.length hinsts
      rw [List.length_map, List.length_map] at hcount
      calc
        words.length = (x.words.filter fun w ↦ w.insts ≠ ["nop".toList]).length := hcount
        _ ≤ x.words.length := List.length_filter_le _ _
        _ ≤ maxWords .mainPart := hx.length_words

end Nop

/-- Sessions in which every file that is read was written by `save`, for a test of this session or
of any other one and with any data. -/
inductive SavedRun : Session → Prop
  | start (maxDataSeeds corpusSize : ℕ) (noGuide : Bool) :
    SavedRun (Session.start maxDataSeeds corpusSize noGuide)
  | step {s : Session} (h : SavedRun s) {call : Call}
    (hcall : ∀ contents draws, call ≠ .readSiminput contents draws) : SavedRun (s.step call)
  | readSaved {s s' : Session} (h : SavedRun s) (h' : SavedRun s') {r : Returned}
    (hr : r ∈ s'.returned) {data : List ℤ} {contents : Text}
    (hsave : r.simInput.save data = .ok contents) (draws : Draws) :
    SavedRun (s.step (.readSiminput contents draws))

/-- What is true of a test that was returned. -/
structure LockstepReturn (r : Returned) : Prop where
  lockstep : Lockstep r.simInput
  bounded : ∀ phase, r.origin = .get phase → Bounded r.simInput.partWords r.simInput.ints

/-- What every call leaves true of the tests. -/
structure InLockstep (s : Session) : Prop where
  returned : ∀ r ∈ s.returned, LockstepReturn r
  mutator : CorpusLockstep s.mutator

namespace InLockstep

variable {s : Session}

theorem start (maxDataSeeds corpusSize : ℕ) (noGuide : Bool) :
    InLockstep (Session.start maxDataSeeds corpusSize noGuide) where
  returned := nofun
  mutator := ⟨nofun, (by decide : 100 ≤ 200)⟩

/-- Another test is returned. -/
theorem cons (hs : InLockstep s) {r : Returned} (hr : LockstepReturn r) {m : RvMutator}
    (hm : CorpusLockstep m) : InLockstep ⟨m, r :: s.returned⟩ :=
  ⟨List.forall_mem_cons.mpr ⟨hr, hs.returned⟩, hm⟩

theorem addCorpus (hs : InLockstep s) {x : SimInput} (hx : Lockstep x) :
    CorpusLockstep (s.mutator.addCorpus x) where
  corpus y hy := by
    rcases mem_corpus_addCorpus hy with hy | rfl
    · exact hs.mutator.corpus y hy
    · exact hx
  numWords_le := Nat.min_le_right _ _

theorem fuzzStep (hs : InLockstep s) (call : FuzzCall) : InLockstep (s.fuzzStep call) := by
  cases call with
  | updatePhase it draws =>
    rw [Session.fuzzStep]
    split
    · exact hs
    · next m draws' h =>
      obtain ⟨phase, rfl⟩ : ∃ phase, m = { s.mutator with phase } := by
        unfold updatePhase at h
        split at h
        · exact ⟨_, (Prod.mk.inj (Except.ok.inj h)).1.symm⟩
        · obtain ⟨⟨rand, draws₁⟩, -, h⟩ := bind_eq_ok.mp h
          exact ⟨_, (Prod.mk.inj (Except.ok.inj h)).1.symm⟩
      exact ⟨hs.returned, hs.mutator.corpus, hs.mutator.numWords_le⟩
  | get it assertIntr draws =>
    rw [Session.fuzzStep]
    split
    · exact hs
    · next x data m draws' h =>
      obtain ⟨hx, hbounded, hm⟩ := lockstep_get hs.mutator h
      exact hs.cons ⟨hx, fun _ _ ↦ hbounded⟩ hm
  | addCorpus i =>
    rw [Session.fuzzStep]
    split
    · exact hs
    · next r hr =>
      have hx := (hs.returned r (List.mem_of_getElem? hr)).lockstep
      exact ⟨hs.returned, hs.addCorpus hx⟩

theorem step (hs : InLockstep s) {call : Call}
    (hcall : ∀ contents draws, call ≠ .readSiminput contents draws) : InLockstep (s.step call) := by
  cases call with
  | fuzz call => exact hs.fuzzStep call
  | setPhase phase => exact ⟨hs.returned, hs.mutator.corpus, hs.mutator.numWords_le⟩
  | readSiminput contents draws => exact absurd rfl (hcall contents draws)
  | makeNop i nopMask part =>
    rw [Session.step]
    split
    · exact hs
    · next r hr =>
      split
      · exact hs
      · next x data h =>
        have hx := lockstep_makeNop (hs.returned r (List.mem_of_getElem? hr)).lockstep h
        exact hs.cons ⟨hx, fun _ ↦ Origin.noConfusion⟩ hs.mutator
  | deleteNop i draws =>
    rw [Session.step]
    split
    · exact hs
    · next r hr =>
      split
      · exact hs
      · next x data draws' h =>
        have hx := lockstep_deleteNop (hs.returned r (List.mem_of_getElem? hr)).lockstep h
        exact hs.cons ⟨hx, fun _ ↦ Origin.noConfusion⟩ hs.mutator

theorem readSiminput (hs : InLockstep s) {x : SimInput} (hx : Lockstep x) {data : List ℤ}
    {contents : Text} (hsave : x.save data = .ok contents) (draws : Draws) :
    InLockstep (s.step (.readSiminput contents draws)) := by
  rw [Session.step]
  split
  · exact hs
  · next y data' intr m draws' h =>
    obtain ⟨⟨result, base, draws₁⟩, hread, h⟩ := bind_eq_ok.mp h
    obtain ⟨rfl, hm⟩ := Prod.mk.inj (Except.ok.inj h)
    obtain ⟨rfl, -⟩ := Prod.mk.inj hm
    have hy := hx.readSiminput hsave hread
    exact hs.cons ⟨hy, fun _ ↦ Origin.noConfusion⟩ ⟨hs.mutator.corpus, hs.mutator.numWords_le⟩

/-- Every session is in lockstep. -/
theorem of_savedRun (h : SavedRun s) : InLockstep s := by
  induction h with
  | start maxDataSeeds corpusSize noGuide => exact start maxDataSeeds corpusSize noGuide
  | step _ hcall ih => exact ih.step hcall
  | readSaved _ _ hr hsave draws ih ih' =>
    exact ih.readSiminput (ih'.returned _ hr).lockstep hsave draws

end InLockstep

/-- `process` has a value to pop for each instruction. -/
theorem exists_popInts_eq {insts : List Text} {ints : List ℤ} (h : insts.length ≤ ints.length) :
    ∃ popped, Execution.Preprocessor.popInts insts ints = .ok popped := by
  induction insts generalizing ints with
  | nil => exact ⟨[], rfl⟩
  | cons inst insts ih =>
    cases ints with
    | nil => exact absurd h (Nat.not_succ_le_zero insts.length)
    | cons int ints =>
      obtain ⟨popped, hpopped⟩ := ih (Nat.le_of_succ_le_succ h)
      rw [Execution.Preprocessor.popInts, hpopped]
      exact ⟨_, rfl⟩

/-- In every sequence of calls, a test that is returned has one interrupt value for each main
instruction, which are the lines of `get_insts` before the last one. So `process` never pops from an
empty list, and `save` prints every line of the main part. The main part has at most 200 words; a
test of `get` has at most 3 prefix and 5 suffix words, and at most one value that is not zero. -/
theorem ints_lockstep {s : Session} (hs : SavedRun s) {r : Returned} (hr : r ∈ s.returned) :
    ∃ insts, r.simInput.getInsts = .ok insts ∧
      r.simInput.ints.length = insts.dropLast.length ∧
      r.simInput.words.length ≤ 200 ∧
      (∀ phase, r.origin = .get phase → r.simInput.prefixWords.length ≤ 3 ∧
        r.simInput.suffixWords.length ≤ 5 ∧
        (r.simInput.ints.filter (· ≠ 0)).length ≤ 1) ∧
      (∃ popped, Execution.Preprocessor.popInts insts.dropLast r.simInput.ints = .ok popped) ∧
      ((insts.zip r.simInput.ints).map Prod.fst = insts.dropLast) := by
  obtain ⟨hx, hbounded⟩ := (InLockstep.of_savedRun hs).returned r hr
  have hinsts : r.simInput.getInsts = .ok _ :=
    partInsts_eq (fun w hw ↦ (hx.words .mainPart w hw).populated) r.simInput.numWords
  have hlength : ((r.simInput.partWords .mainPart).flatMap Word.retInsts).length =
      r.simInput.ints.length := hx.length_lines
  refine ⟨_, hinsts, ?_, hx.length_words, fun phase hphase ↦ ?_, ?_, ?_⟩
  · rw [List.dropLast_concat, hlength]
  · have h := hbounded phase hphase
    exact ⟨h.length_words .prefixPart, h.length_words .suffixPart, h.nonzero⟩
  · rw [List.dropLast_concat]
    exact exists_popInts_eq hlength.le
  · conv_lhs => rw [← List.append_nil r.simInput.ints]
    rw [List.dropLast_concat, List.zip_append hlength, List.zip_nil_right, List.append_nil,
      List.map_fst_zip hlength.le]

/-- The first test of a fuzzer, with an interrupt. -/
def firstGet : Session := (Session.start 1 10 true).step (.fuzz (.get 0 true fun _ ↦ 0))

theorem ints_lockstep_firstGet : ∃ r ∈ firstGet.returned, ∃ insts,
    r.simInput.getInsts = .ok insts ∧ r.simInput.ints.length = insts.dropLast.length ∧
      (r.simInput.ints.filter (· ≠ 0)).length ≤ 1 ∧
      ∃ popped, Execution.Preprocessor.popInts insts.dropLast r.simInput.ints = .ok popped := by
  have hsaved : SavedRun firstGet :=
    .step (.start 1 10 true) fun _ _ ↦ Call.noConfusion
  have hseeded : (Session.start 1 10 true).mutator.Seeded :=
    (Session.consistent_start (by decide) 10 true).seeded
  have hgenerates : ∃ x m' draws₁ draws₂, True ∧ (Session.start 1 10 true).mutator.get 0 true
      (fun _ ↦ 0) = .ok ((x, Mutator.newWords draws₁), m', draws₂) :=
    exists_get_eq_of_generation hseeded rfl (by decide : 0 < 100) 0 true (fun _ _ ↦ True.intro)
      True.intro
  obtain ⟨x, m, draws₁, draws₂, -, hget⟩ := hgenerates
  have hreturned : firstGet.returned = [⟨x, Mutator.newWords draws₁, .get .generation⟩] := by
    rw [firstGet, Session.step, Session.fuzzStep, hget]
    rfl
  have hmem : (⟨x, Mutator.newWords draws₁, .get .generation⟩ : Returned) ∈ firstGet.returned := by
    rw [hreturned]
    exact List.mem_singleton_self _
  obtain ⟨insts, hinsts, hlength, -, hbounded, hpopped, -⟩ := ints_lockstep hsaved hmem
  exact ⟨_, hmem, insts, hinsts, hlength, (hbounded .generation rfl).2.2, hpopped⟩

end ProcessorFuzz.Mutation
