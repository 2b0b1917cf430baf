import ProcessorFuzz.Mutation.RvMutator

/-!
# Reading the corpus of another worker

`update_corpus` reads the last files of a corpus directory and adds their tests to the corpus. It
goes on with the next file when anything is raised. `read_siminput` returns three values and the
loop takes two, so that something is raised after every file that was read: the data of the file
are stored in the mutator, and its test is not added.
-/

namespace ProcessorFuzz.Mutation

open Library

/-- A directory: the names of its files and their contents. -/
abbrev CorpusDir := Dict Text Text

/-- `'id_{}.si'.format(i)`. -/
def siName (i : ℕ) : Text := "id_".toList ++ Text.dec i ++ ".si".toList

/-- `range(start, num_files)`. -/
def updateWindow (dir : CorpusDir) (updateNum : ℤ) : List ℕ :=
  let numFiles := dir.keys.length
  let start := (max ((numFiles : ℤ) - updateNum) 0).toNat
  List.range' start (numFiles - start)

namespace RvMutator

/-- The assignment of three values to two names. -/
def unpackPair {α β γ : Type} (_ : α × β × γ) : Except PyError (α × β) := .error .valueError

/-- What the loop of `update_corpus` changes, and the tests that it has given to `add_corpus`. -/
structure Sharing where
  mutator : RvMutator
  draws : Draws
  added : List SimInput

/-- A round of the loop. -/
def updateRound (dir : CorpusDir) (s : Sharing) (i : ℕ) : Sharing :=
  match dir.get? (siName i) with
  | none => s
  | some contents =>
    match s.mutator.readTest contents s.draws with
    | .error _ => s
    | .ok (result, m, draws) =>
      match unpackPair result with
      | .error _ => { s with mutator := m, draws }
      | .ok (x, _) => { mutator := m.addCorpus x, draws, added := s.added ++ [x] }

def updateCorpus (m : RvMutator) (dir : CorpusDir) (updateNum : ℤ) (draws : Draws) : Sharing :=
  (updateWindow dir updateNum).foldl (updateRound dir) { mutator := m, draws, added := [] }

/-- A round that reads the file alone. -/
def readRound (dir : CorpusDir) (s : Sharing) (i : ℕ) : Sharing :=
  match dir.get? (siName i) with
  | none => s
  | some contents =>
    match s.mutator.readTest contents s.draws with
    | .error _ => s
    | .ok ((x, _), m, draws) => { mutator := m, draws, added := s.added ++ [x] }

/-- The tests of the files that can be read, in increasing order of their numbers. -/
def storedTests (m : RvMutator) (dir : CorpusDir) (updateNum : ℤ) (draws : Draws) : List SimInput :=
  ((updateWindow dir updateNum).foldl (readRound dir) { mutator := m, draws, added := [] }).added

/-- The file `id_i.si` exists and `read_siminput` returns from it. -/
def Readable (m : RvMutator) (draws : Draws) (dir : CorpusDir) (i : ℕ) : Prop :=
  ∃ contents r, dir.get? (siName i) = some contents ∧ m.readTest contents draws = .ok r

variable {m : RvMutator} {draws : Draws} {dir : CorpusDir} {s : Sharing}

/-- No round adds a test, and none changes the corpus. -/
theorem added_updateRound (dir : CorpusDir) (s : Sharing) (i : ℕ) :
    (updateRound dir s i).added = s.added ∧
      (updateRound dir s i).mutator.corpus = s.mutator.corpus := by
  unfold updateRound
  split
  · exact ⟨rfl, rfl⟩
  · split
    · exact ⟨rfl, rfl⟩
    · next result m draws h =>
      obtain ⟨⟨result', base, draws'⟩, -, h⟩ := bind_eq_ok.mp h
      obtain ⟨-, hm⟩ := Prod.mk.inj (Except.ok.inj h)
      obtain ⟨rfl, -⟩ := Prod.mk.inj hm
      exact ⟨rfl, rfl⟩

theorem added_updateRounds (dir : CorpusDir) (s : Sharing) (is : List ℕ) :
    (is.foldl (updateRound dir) s).added = s.added ∧
      (is.foldl (updateRound dir) s).mutator.corpus = s.mutator.corpus := by
  induction is generalizing s with
  | nil => exact ⟨rfl, rfl⟩
  | cons i is ih =>
    obtain ⟨hadded, hcorpus⟩ := added_updateRound dir s i
    obtain ⟨hadded', hcorpus'⟩ := ih (updateRound dir s i)
    exact ⟨hadded'.trans hadded, hcorpus'.trans hcorpus⟩

theorem readRound_of_readable {i : ℕ} (h : s.mutator.Readable s.draws dir i) :
    ∃ x m draws, readRound dir s i = { mutator := m, draws, added := s.added ++ [x] } := by
  obtain ⟨contents, ⟨⟨x, data, intr⟩, m, draws⟩, hfile, hread⟩ := h
  refine ⟨x, m, draws, ?_⟩
  rw [readRound, hfile]
  dsimp only
  rw [hread]

theorem readRound_of_not_readable {i : ℕ} (h : ¬ s.mutator.Readable s.draws dir i) :
    readRound dir s i = s := by
  unfold readRound
  split
  · rfl
  · next contents hfile =>
    split
    · rfl
    · next hread => exact absurd ⟨contents, _, hfile, hread⟩ h

theorem added_prefix_readRounds (dir : CorpusDir) (s : Sharing) (is : List ℕ) :
    s.added <+: (is.foldl (readRound dir) s).added := by
  induction is generalizing s with
  | nil => exact List.prefix_rfl
  | cons i is ih =>
    have hround : s.added <+: (readRound dir s i).added := by
      by_cases hreadable : s.mutator.Readable s.draws dir i
      · obtain ⟨x, m, draws, heq⟩ := readRound_of_readable hreadable
        rw [heq]
        exact List.prefix_append s.added [x]
      · rw [readRound_of_not_readable hreadable]
    exact hround.trans (ih (readRound dir s i))

/-- The first file that can be read is read from the state at the start. -/
theorem added_readRounds_eq_iff (dir : CorpusDir) (s : Sharing) (is : List ℕ) :
    (is.foldl (readRound dir) s).added = s.added ↔
      ∀ i ∈ is, ¬ s.mutator.Readable s.draws dir i := by
  induction is with
  | nil => simp
  | cons i is ih =>
    rw [List.foldl_cons, List.forall_mem_cons]
    by_cases hreadable : s.mutator.Readable s.draws dir i
    · obtain ⟨x, m, draws, heq⟩ := readRound_of_readable hreadable
      have hbegins := added_prefix_readRounds dir (readRound dir s i) is
      have hlength := hbegins.length_le
      rw [heq, List.length_append, List.length_singleton] at hlength
      constructor
      · intro hadded
        rw [heq] at hadded
        rw [hadded] at hlength
        omega
      · exact fun h ↦ absurd hreadable h.1
    · rw [readRound_of_not_readable hreadable, ih]
      exact ⟨fun h ↦ ⟨hreadable, h⟩, And.right⟩

theorem storedTests_eq_nil_iff (m : RvMutator) (dir : CorpusDir) (updateNum : ℤ) (draws : Draws) :
    m.storedTests dir updateNum draws = [] ↔
      ∀ i ∈ updateWindow dir updateNum, ¬ m.Readable draws dir i :=
  added_readRounds_eq_iff dir { mutator := m, draws, added := [] } _

/-- `update_corpus` adds the tests of the files that can be read only when there are none. -/
theorem added_updateCorpus_eq_storedTests_iff (m : RvMutator) (dir : CorpusDir) (updateNum : ℤ)
    (draws : Draws) :
    (m.updateCorpus dir updateNum draws).added = m.storedTests dir updateNum draws ↔
      ∀ i ∈ updateWindow dir updateNum, ¬ m.Readable draws dir i := by
  have hadded : (m.updateCorpus dir updateNum draws).added = [] := (added_updateRounds dir _ _).1
  rw [hadded, ← storedTests_eq_nil_iff, eq_comm]

/-- A directory with one test. -/
def oneTest : CorpusDir := Dict.ofList [(siName 0, "p-m\n\ndata:\n2a\n".toList)]

theorem added_updateCorpus_oneTest :
    ((init 100 1000 false).updateCorpus oneTest 100 fun _ ↦ 0).added.length = 0 ∧
      ((init 100 1000 false).storedTests oneTest 100 fun _ ↦ 0).length = 1 := by
  decide

end RvMutator

end ProcessorFuzz.Mutation
