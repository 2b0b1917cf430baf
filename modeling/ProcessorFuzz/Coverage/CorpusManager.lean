import ProcessorFuzz.Mutation.CorpusSharing

/-!
# The files of the corpus

The corpus manager keeps the last tests in a list of bounded length and saves each of them under
the length that the list then has. The numbers start at one, and once the list is full every test
is saved under the same number.
-/

namespace ProcessorFuzz.Coverage

open Library Mutation

/-- `CorpusManager`, with the files in its directory. -/
structure CorpusManager where
  maxSize : ℕ
  corpus : List SimInput
  dir : CorpusDir

namespace CorpusManager

/-- A new manager on an empty directory. -/
def init (maxSize : ℕ) : CorpusManager := ⟨maxSize, [], Dict.empty⟩

/-- The directory after `save` has returned or raised: once the file is open, it is empty until
something is written to it. -/
def saveFile (dir : CorpusDir) (name : Text) (x : SimInput) : CorpusDir :=
  match x.save [] with
  | .ok contents => dir.set name contents
  | .error _ =>
    match x.getPrefix, x.getInsts, x.getSuffix with
    | .ok _, .ok _, .ok _ => dir.set name []
    | _, _, _ => dir

/-- `add_test`, with the state that is left when `save` raises. -/
def addTest (m : CorpusManager) (x : SimInput) : CorpusManager :=
  let corpus := (if m.maxSize ≤ m.corpus.length then m.corpus.tail else m.corpus) ++ [x]
  { m with corpus, dir := saveFile m.dir (siName corpus.length) x }

def addTests (m : CorpusManager) (tests : List SimInput) : CorpusManager := tests.foldl addTest m

/-- File number `k` has the text of the test. -/
def Holds (m : CorpusManager) (k : ℕ) (x : SimInput) : Prop :=
  ∃ contents, x.save [] = .ok contents ∧ m.dir.get? (siName k) = some contents

/-- Every test of the corpus is in a file, and different tests are in different files. -/
def Stored (m : CorpusManager) : Prop :=
  ∃ number : ℕ → ℕ, (∀ i x, m.corpus[i]? = some x → m.Holds (number i) x) ∧
    ∀ i j x y, m.corpus[i]? = some x → m.corpus[j]? = some y → x ≠ y → number i ≠ number j

/-- The numbers in use are those that `update_corpus` reads. -/
def Numbered (m : CorpusManager) : Prop :=
  ∀ k, siName k ∈ m.dir.keys ↔ k < m.dir.keys.length

/-- Every test of the corpus is on disk under its own name, where it is found again. -/
def OnDisk (m : CorpusManager) : Prop := m.Stored ∧ m.Numbered

theorem siName_injective : Function.Injective siName := by
  intro i j h
  exact Text.dec_injective (List.append_cancel_left (List.append_cancel_right h))

variable {maxSize : ℕ} {tests : List SimInput}

theorem addTests_concat (m : CorpusManager) (tests : List SimInput) (x : SimInput) :
    m.addTests (tests ++ [x]) = (m.addTests tests).addTest x := by
  unfold addTests
  rw [List.foldl_concat]

theorem maxSize_addTests (m : CorpusManager) (tests : List SimInput) :
    (m.addTests tests).maxSize = m.maxSize := by
  induction tests using List.reverseRecOn with
  | nil => rfl
  | append_singleton tests x ih =>
    rw [addTests_concat]
    exact ih

/-- The corpus is the list of the last tests. -/
theorem corpus_addTests (hmax : 1 ≤ maxSize) (tests : List SimInput) :
    ((init maxSize).addTests tests).corpus = tests.drop (tests.length - maxSize) := by
  induction tests using List.reverseRecOn with
  | nil => exact List.drop_nil.symm
  | append_singleton tests x ih =>
    have hmaxSize : ((init maxSize).addTests tests).maxSize = maxSize := maxSize_addTests _ _
    rw [addTests_concat, addTest, hmaxSize, ih, List.length_drop, List.length_append,
      List.length_singleton]
    dsimp only
    split
    · next hfull =>
      have hdrop : tests.length + 1 - maxSize = tests.length - maxSize + 1 := by omega
      rw [List.tail_drop, List.length_append, List.length_singleton, hdrop,
        List.drop_append_of_le_length (by omega)]
    · next hroom =>
      have hzero : tests.length - maxSize = 0 := by omega
      have hzero' : tests.length + 1 - maxSize = 0 := by omega
      rw [List.length_append, List.length_singleton, hzero, hzero', List.drop_zero, List.drop_zero]

/-- The number under which the next test is saved. -/
theorem addTest_addTests (hmax : 1 ≤ maxSize) (tests : List SimInput) (x : SimInput) :
    (((init maxSize).addTests tests).addTest x).dir =
      saveFile ((init maxSize).addTests tests).dir (siName (min (tests.length + 1) maxSize)) x := by
  have hcorpus := congrArg List.length (corpus_addTests hmax (tests ++ [x]))
  rw [addTests_concat, List.length_drop, List.length_append, List.length_singleton] at hcorpus
  have hlength : tests.length + 1 - (tests.length + 1 - maxSize) = min (tests.length + 1) maxSize := by
    omega
  rw [hlength] at hcorpus
  rw [← hcorpus]
  rfl

theorem keys_saveFile {dir : CorpusDir} {name name' : Text} {x : SimInput}
    (h : name' ∈ (saveFile dir name x).keys) : name' = name ∨ name' ∈ dir.keys := by
  unfold saveFile at h
  split at h
  · exact Dict.mem_keys_set.mp h
  · split at h
    · exact Dict.mem_keys_set.mp h
    · exact .inr h

/-- No test is saved under the number zero. -/
theorem siName_zero_notMem (hmax : 1 ≤ maxSize) (tests : List SimInput) :
    siName 0 ∉ ((init maxSize).addTests tests).dir.keys := by
  induction tests using List.reverseRecOn with
  | nil => exact List.not_mem_nil
  | append_singleton tests x ih =>
    rw [addTests_concat, addTest_addTests hmax]
    intro hmem
    rcases keys_saveFile hmem with hname | hmem
    · have hzero := siName_injective hname
      omega
    · exact ih hmem

/-- The files: the first tests are under their own numbers, and the last one is under the largest
number once the list is full. -/
theorem get?_addTests (hmax : 1 ≤ maxSize)
    (hsaves : ∀ x ∈ tests, ∃ contents, x.save [] = .ok contents) (k : ℕ) (contents : Text) :
    ((init maxSize).addTests tests).dir.get? (siName k) = some contents ↔
      ∃ i x, tests[i]? = some x ∧ x.save [] = .ok contents ∧ k = min (i + 1) maxSize ∧
        (i + 1 < maxSize ∨ i + 1 = tests.length) := by
  induction tests using List.reverseRecOn with
  | nil =>
    constructor
    · exact nofun
    · rintro ⟨i, x, hx, -⟩
      exact nomatch hx
  | append_singleton tests x ih =>
    have ih := ih fun x hx ↦ hsaves x (List.mem_append_left _ hx)
    obtain ⟨contents', hcontents'⟩ := hsaves x (List.mem_append_right _ List.mem_cons_self)
    rw [addTests_concat, addTest_addTests hmax, saveFile, hcontents', Dict.get?_set,
      List.length_append, List.length_singleton]
    constructor
    · intro hget
      split at hget
      · next hname =>
        refine ⟨tests.length, x, List.getElem?_concat_length, ?_, siName_injective hname, .inr rfl⟩
        rw [hcontents', Option.some.inj hget]
      · next hname =>
        have hk : k ≠ min (tests.length + 1) maxSize := fun heq ↦ hname (congrArg siName heq)
        obtain ⟨i, x', hx', hsave, hnumber, hlast⟩ := ih.mp hget
        have hi : i < tests.length := (List.getElem?_eq_some_iff.mp hx').1
        refine ⟨i, x', ?_, hsave, hnumber, ?_⟩
        · rw [List.getElem?_append_left hi, hx']
        · omega
    · rintro ⟨i, x', hx', hsave, hnumber, hlast⟩
      rcases Nat.lt_or_ge i tests.length with hi | hi
      · have hk : k ≠ min (tests.length + 1) maxSize := by omega
        rw [if_neg (siName_injective.ne hk), ih]
        rw [List.getElem?_append_left hi] at hx'
        exact ⟨i, x', hx', hsave, hnumber, .inl (by omega)⟩
      · have hi' : i = tests.length := by
          have hlt := (List.getElem?_eq_some_iff.mp hx').1
          rw [List.length_append, List.length_singleton] at hlt
          omega
        rw [hi', List.getElem?_concat_length] at hx'
        obtain rfl := Option.some.inj hx'
        rw [if_pos (congrArg siName (hi' ▸ hnumber)), ← Except.ok.inj (hcontents'.symm.trans hsave)]

/-- Tests that can be saved, with different texts. -/
structure Different (tests : List SimInput) : Prop where
  saves : ∀ x ∈ tests, ∃ contents, x.save [] = .ok contents
  eq_of_save : ∀ (i j : ℕ) (x y : SimInput), tests[i]? = some x → tests[j]? = some y →
    x.save [] = y.save [] → i = j

/-- The numbers are never those that are read back, once there is a file. -/
theorem onDisk_iff (hmax : 1 ≤ maxSize) :
    ((init maxSize).addTests tests).OnDisk ↔ tests = [] := by
  constructor
  · rintro ⟨⟨number, hnumber, -⟩, hnumbered⟩
    by_contra hne
    have hpos : 0 < tests.length := List.length_pos_of_ne_nil hne
    have hcorpus := corpus_addTests hmax tests
    have hlt : 0 < ((init maxSize).addTests tests).corpus.length := by
      rw [hcorpus, List.length_drop]
      omega
    obtain ⟨contents, -, hfile⟩ := hnumber 0 _ (List.getElem?_eq_getElem hlt)
    have hmem := Dict.isSome_get?_iff.mp (Option.isSome_of_eq_some hfile)
    have hkeys := List.length_pos_of_mem hmem
    exact siName_zero_notMem hmax tests ((hnumbered 0).mpr hkeys)
  · rintro rfl
    exact ⟨⟨id, nofun, nofun⟩, fun k ↦ ⟨nofun, nofun⟩⟩

/-- The tests of the corpus are in files of their own until the list is full. -/
theorem stored_iff (hmax : 1 ≤ maxSize) (h : Different tests) :
    ((init maxSize).addTests tests).Stored ↔ tests.length ≤ maxSize ∨ maxSize = 1 := by
  have hcorpus (i : ℕ) : ((init maxSize).addTests tests).corpus[i]? =
      tests[tests.length - maxSize + i]? := by
    rw [corpus_addTests hmax, List.getElem?_drop]
  have hholds (k : ℕ) (x : SimInput) (hx : x ∈ tests) :
      ((init maxSize).addTests tests).Holds k x ↔ ∃ i y, tests[i]? = some y ∧
        y.save [] = x.save [] ∧ k = min (i + 1) maxSize ∧
        (i + 1 < maxSize ∨ i + 1 = tests.length) := by
    obtain ⟨contents, hcontents⟩ := h.saves x hx
    constructor
    · rintro ⟨contents', hcontents', hfile⟩
      obtain ⟨i, y, hy, hsave, hrest⟩ := (get?_addTests hmax h.saves k contents').mp hfile
      exact ⟨i, y, hy, hsave.trans hcontents'.symm, hrest⟩
    · rintro ⟨i, y, hy, hsave, hrest⟩
      exact ⟨contents, hcontents, (get?_addTests hmax h.saves k contents).mpr
        ⟨i, y, hy, hsave.trans hcontents, hrest⟩⟩
  constructor
  · rintro ⟨number, hnumber, -⟩
    by_contra hnot
    rw [not_or, not_le] at hnot
    obtain ⟨hfull, hone⟩ := hnot
    -- The test before the last one was overwritten by the last one.
    have hlt : tests.length - 2 < tests.length := by omega
    have hindex : tests.length - maxSize + (maxSize - 2) = tests.length - 2 := by omega
    have hx : ((init maxSize).addTests tests).corpus[maxSize - 2]? = some tests[tests.length - 2] := by
      rw [hcorpus, hindex, List.getElem?_eq_getElem hlt]
    obtain ⟨i, y, hy, hsave, -, hlast⟩ :=
      (hholds _ _ (List.getElem_mem hlt)).mp (hnumber _ _ hx)
    have hi := h.eq_of_save i _ y _ hy (List.getElem?_eq_getElem hlt) hsave
    omega
  · intro hsize
    have hlast (i : ℕ) (x : SimInput) (hx : ((init maxSize).addTests tests).corpus[i]? = some x) :
        ((init maxSize).addTests tests).Holds (i + 1) x := by
      rw [hcorpus] at hx
      have hlt := (List.getElem?_eq_some_iff.mp hx).1
      rw [hholds _ x (List.mem_of_getElem? hx)]
      refine ⟨_, x, hx, rfl, ?_, ?_⟩ <;> omega
    refine ⟨fun i ↦ i + 1, hlast, ?_⟩
    intro i j x y hx hy hne heq
    obtain rfl : i = j := Nat.succ.inj heq
    exact hne (Option.some.inj (hx.symm.trans hy))

/-- Three tests of different templates. -/
def threeTests : List SimInput := [0, 1, 2].map (SimInput.new [] [] [] [] 0)

theorem save_threeTests : threeTests.map (fun x ↦ x.save []) =
    [.ok "p-m\n\n".toList, .ok "p-s\n\n".toList, .ok "p-u\n\n".toList] := by
  decide

theorem different_threeTests : Different threeTests := by
  constructor
  · intro x hx
    have hmem := List.mem_map_of_mem (f := fun x : SimInput ↦ x.save []) hx
    rw [save_threeTests] at hmem
    simp only [List.mem_cons, List.not_mem_nil, or_false] at hmem
    rcases hmem with h | h | h <;> exact ⟨_, h⟩
  · intro i j x y hx hy hsave
    have hnodup : (threeTests.map fun x ↦ x.save []).Nodup := by
      rw [save_threeTests]
      decide
    have hi : (threeTests.map fun x ↦ x.save [])[i]? = some (x.save []) := by
      rw [List.getElem?_map, hx]
      rfl
    have hj : (threeTests.map fun x ↦ x.save [])[j]? = some (x.save []) := by
      rw [List.getElem?_map, hy, hsave]
      rfl
    have hlt := (List.getElem?_eq_some_iff.mp hi).1
    exact (List.getElem?_inj hlt hnodup).mp (hi.trans hj.symm)

/-- The corpus is on disk under the numbers that are read back only as long as it is empty. Apart
from the numbers, the tests are in files of their own until the list is full, after which each test
overwrites the file of the one before. -/
theorem onDisk_iff_stored_iff (hmax : 1 ≤ maxSize) (tests : List SimInput) :
    (((init maxSize).addTests tests).OnDisk ↔ tests = []) ∧
      (Different tests →
        (((init maxSize).addTests tests).Stored ↔ tests.length ≤ maxSize ∨ maxSize = 1)) :=
  ⟨onDisk_iff hmax, stored_iff hmax⟩

/-- With room for two tests, the third one overwrites the file of the second. -/
theorem onDisk_iff_stored_iff_threeTests :
    ¬((init 2).addTests threeTests).OnDisk ∧ ¬((init 2).addTests threeTests).Stored := by
  obtain ⟨hdisk, hstored⟩ := onDisk_iff_stored_iff (by decide : 1 ≤ 2) threeTests
  rw [hdisk, hstored different_threeTests]
  exact ⟨List.cons_ne_nil _ _, by decide⟩

/-- The file of the only test has the number one. -/
theorem not_onDisk_oneTest :
    ¬((init 1000).addTests [SimInput.new [] [] [] [] 0 0]).OnDisk := by
  rw [onDisk_iff (by decide)]
  exact List.cons_ne_nil _ _

end CorpusManager

end ProcessorFuzz.Coverage
