import Mathlib.Data.Fintype.Order
import Mathlib.Data.Nat.Log
import ProcessorFuzz.Library.Greedy
import ProcessorFuzz.Mutation.MakeNop
import ProcessorFuzz.Mutation.SimInputRoundTrip
import ProcessorFuzz.Execution.RtlHost

/-!
# The search of the minimizer

`Minimize` replaces the words of a part by `nop` chunk after chunk, with smaller chunks in each
round, and keeps a replacement when the mismatch is still there. The chunks of the last round are
single words, whatever the number of words is. The search over masks is a greedy search over sets of
positions.
-/

namespace ProcessorFuzz.Mutation

open Library RvMutator

def numNop (lenMask i : ℕ) : ℕ := lenMask / min (2 ^ (i + 1)) lenMask

def numTest (lenMask i : ℕ) : ℕ := lenMask / numNop lenMask i

/-- `tmp_mask` before the positions of `min_mask` are added. -/
def testMask (lenMask i j : ℕ) : List Bool :=
  let rest := numNop lenMask i + lenMask % numNop lenMask i
  List.replicate (numNop lenMask i * j) false ++
    if j ≠ numTest lenMask i - 1 then
      List.replicate (numNop lenMask i) true ++
        List.replicate (lenMask - numNop lenMask i * (j + 1)) false
    else List.replicate rest true

/-- The loop over `zip(tmp_mask, min_mask)`, which changes `tmp_mask` in place. -/
def orMask (tmpMask minMask : List Bool) : List Bool :=
  List.zipWith (· || ·) tmpMask minMask ++ tmpMask.drop minMask.length

/-- The mask of the positions below `lenMask` that satisfy `f`. -/
def maskOf (lenMask : ℕ) (f : ℕ → Bool) : List Bool := (List.range lenMask).map f

/-- The positions of a chunk. -/
def chunk (lenMask i j : ℕ) : ℕ → Bool := fun n ↦
  decide (numNop lenMask i * j ≤ n) &&
    (decide (n < numNop lenMask i * (j + 1)) || decide (j = numTest lenMask i - 1))

section Masks

variable {lenMask i j n : ℕ} {f g : ℕ → Bool}

@[simp]
theorem length_maskOf : (maskOf lenMask f).length = lenMask := by
  rw [maskOf, List.length_map, List.length_range]

theorem getElem?_maskOf (h : n < lenMask) : (maskOf lenMask f)[n]? = some (f n) := by
  rw [maskOf, List.getElem?_map, List.getElem?_range h, Option.map_some]

theorem maskOf_bot : maskOf lenMask ⊥ = List.replicate lenMask false := by
  apply List.ext_getElem
  · rw [length_maskOf, List.length_replicate]
  · intro n hn hn'
    simp [maskOf]

theorem orMask_maskOf : orMask (maskOf lenMask f) (maskOf lenMask g) = maskOf lenMask (g ⊔ f) := by
  rw [orMask, length_maskOf, List.drop_eq_nil_of_le length_maskOf.le, List.append_nil]
  apply List.ext_getElem
  · simp
  · intro n hn hn'
    simp [maskOf, Bool.or_comm]

theorem numNop_pos (h : 0 < lenMask) : 0 < numNop lenMask i :=
  Nat.div_pos (min_le_right _ _) (lt_min (by positivity) h)

/-- In the last round each chunk is a single word. -/
theorem numNop_last (h : 2 ≤ lenMask) : numNop lenMask (Nat.log 2 lenMask - 1) = 1 := by
  have hlog : 0 < Nat.log 2 lenMask := Nat.log_pos (by decide) h
  have hle : 2 ^ Nat.log 2 lenMask ≤ lenMask := Nat.pow_log_le_self 2 (by omega)
  have hlt : lenMask < 2 ^ (Nat.log 2 lenMask + 1) := Nat.lt_pow_succ_log_self (by decide) lenMask
  rw [pow_succ] at hlt
  rw [numNop, Nat.sub_add_cancel hlog, min_eq_left hle]
  exact Nat.div_eq_of_lt_le (by omega) (by omega)

theorem testMask_eq (h : 0 < lenMask) (hj : j < numTest lenMask i) :
    testMask lenMask i j = maskOf lenMask (chunk lenMask i j) := by
  have hpos := numNop_pos (i := i) h
  have hdiv := Nat.div_add_mod lenMask (numNop lenMask i)
  change numNop lenMask i * numTest lenMask i + _ = _ at hdiv
  have hle : numNop lenMask i * (j + 1) ≤ numNop lenMask i * numTest lenMask i :=
    Nat.mul_le_mul_left _ hj
  rw [Nat.mul_succ] at hle
  rw [testMask]
  by_cases hlast : j = numTest lenMask i - 1
  · have hsucc : numTest lenMask i = j + 1 := by omega
    rw [if_neg (not_not.mpr hlast)]
    rw [hsucc, Nat.mul_succ] at hdiv
    apply List.ext_getElem
    · simp
      omega
    · intro n hn hn'
      rw [Bool.eq_iff_iff]
      simp [maskOf, chunk, List.getElem_append, hlast]
  · rw [if_pos hlast]
    apply List.ext_getElem
    · simp [Nat.mul_succ]
      omega
    · intro n hn hn'
      rw [Bool.eq_iff_iff]
      simp [maskOf, chunk, List.getElem_append, hlast, Nat.mul_succ]
      omega

/-- The last chunk of a round takes the rest. -/
example : [testMask 5 0 0, testMask 5 0 1] =
    [[true, true, false, false, false], [false, false, true, true, true]] := by decide

end Masks

/-- What becomes of a test without interrupts: `preprocessor.process` gives no files, the ISA
simulator runs out of time, `run_test` raises, or it returns. The result of `checker.check` counts
only after a successful run. -/
inductive Outcome
  | notCompiled
  | isaTimeout
  | raised
  | ran (ret : Execution.RtlHost.Verdict) (check : Bool)

/-- `match`. -/
def isMatch (ret : Execution.RtlHost.Verdict) (check : Bool) : Bool :=
  match ret with
  | .success => check
  | .illMem => true
  | _ => false

/-- What compiles and runs a test. It may know the mask that the test was made with. -/
abbrev Evaluate := List Bool → SimInput → List ℤ → Except PyError Outcome

/-- The variables of the loops. After a `break` the rest of the round is left out. -/
structure Search where
  minInput : SimInput
  minMask : List Bool
  tmpMask : List Bool
  data : List ℤ
  draws : Draws
  broken : Bool
  saved : List Text

/-- The rounds of the inner loop, and what stands after it. -/
inductive Step
  | test (i j : ℕ)
  | delete
  | save
  deriving DecidableEq

/-- A round of the outer loop. `int(math.log(len_mask, 2))` is the exact logarithm. -/
def roundSteps (part : Part) (lenMask i : ℕ) : List Step :=
  (List.range (numTest lenMask i)).map (Step.test i) ++
    (if part = .suffixPart ∧ i = Nat.log 2 lenMask - 1 then [Step.delete] else []) ++ [Step.save]

def partSteps (part : Part) (lenMask : ℕ) : List Step :=
  (List.range (Nat.log 2 lenMask)).flatMap (roundSteps part lenMask)

namespace Search

def attempt (evaluate : Evaluate) (s : Search) (tmpInput : SimInput) : Except PyError Search := do
  match ← evaluate s.tmpMask tmpInput s.data with
  | .notCompiled => return { s with broken := true }
  | .isaTimeout => return s
  | .raised => return { s with broken := true }
  | .ran ret check =>
    if isMatch ret check then return s
    else return { s with minInput := tmpInput, minMask := s.tmpMask }

def runStep (m : RvMutator) (evaluate : Evaluate) (part : Part) (lenMask : ℕ) (s : Search) :
    Step → Except PyError Search
  | .test i j =>
    if s.broken then .ok s
    else
      let tmpMask := orMask (testMask lenMask i j) s.minMask
      if tmpMask = s.minMask then .ok { s with tmpMask }
      else do
        let (tmpInput, data) ← m.makeNop s.minInput tmpMask part
        attempt evaluate { s with tmpMask, data } tmpInput
  | .delete =>
    if s.broken then .ok s
    else do
      let ((tmpInput, data), draws) ← m.deleteNop s.minInput s.draws
      attempt evaluate { s with data, draws } tmpInput
  | .save => do
    let file ← s.minInput.save s.data
    return { s with saved := s.saved ++ [file], broken := false }

/-- `len_mask`. -/
def lenMask (s : Search) : Part → ℕ
  | .prefixPart => s.minInput.numPrefix
  | .mainPart => s.minInput.numWords
  | .suffixPart => s.minInput.numSuffix

/-- The search in a part starts with the empty mask. -/
def enter (s : Search) (part : Part) : Search :=
  { s with minMask := List.replicate (s.lenMask part) false }

def minimizePart (m : RvMutator) (evaluate : Evaluate) (s : Search) (part : Part) :
    Except PyError Search :=
  if s.lenMask part = 0 then .ok s
  else
    (partSteps part (s.lenMask part)).foldlM (runStep m evaluate part (s.lenMask part))
      (s.enter part)

/-- `Minimize` for one file. -/
def minimize (m : RvMutator) (evaluate : Evaluate) (s : Search) : Except PyError Search :=
  [Part.prefixPart, .mainPart, .suffixPart].foldlM (minimizePart m evaluate) s

end Search

/-- `start` with the masked words of the part replaced. It has no interrupts. -/
def maskedTest (start : SimInput) (part : Part) (mask : List Bool) : SimInput :=
  match part with
  | .prefixPart =>
    SimInput.new (maskWords .prefixPart start.prefixWords mask) start.words start.suffixWords
      start.ints start.dataSeed start.template
  | .mainPart =>
    let words := maskWords .mainPart start.words mask
    SimInput.new start.prefixWords words start.suffixWords
      (List.replicate (words.flatMap Word.retInsts).length 0) start.dataSeed start.template
  | .suffixPart =>
    SimInput.new start.prefixWords start.words (maskWords .suffixPart start.suffixWords mask)
      start.ints start.dataSeed start.template

/-- A test that was read, in which no interrupt is asserted. -/
structure Quiet (m : RvMutator) (start : SimInput) (data : List ℤ) : Prop where
  eq_new : start = SimInput.new start.prefixWords start.words start.suffixWords start.ints
    start.dataSeed start.template
  made : ∀ part, ∀ w ∈ start.partWords part, Word.Made part w
  ints : start.ints = List.replicate (start.words.flatMap Word.retInsts).length 0
  template : start.template < templates.length
  data : m.randomData.get? start.dataSeed = some data

/-- The mask has the positions of the other one, and is as long. -/
abbrev Covers (mask mask' : List Bool) : Prop := List.Forall₂ (· ≤ ·) mask' mask

section MaskedTest

variable {m : RvMutator} {start : SimInput} {data : List ℤ} {part : Part} {words : List Word}
  {mask mask' : List Bool}

theorem maskWords_maskWords (h : Covers mask' mask) :
    maskWords part (maskWords part words mask) mask' = maskWords part words mask' := by
  induction h generalizing words with
  | nil => simp [maskWords]
  | @cons masked masked' mask mask' hle hrest ih =>
    cases words with
    | nil => rfl
    | cons w words =>
      have hword : maskWord part (maskWord part w masked) masked' = maskWord part w masked' := by
        cases masked' with
        | true => rw [maskWord, if_pos rfl, label_maskWord, maskWord, if_pos rfl]
        | false =>
          obtain rfl : masked = false := Bool.eq_false_of_le_false hle
          rfl
      exact congrArg₂ List.cons hword ih

theorem maskWords_replicate : maskWords part words (List.replicate words.length false) = words := by
  induction words with
  | nil => rfl
  | cons w words ih =>
    exact congrArg (List.cons w) ih

theorem made_maskWords (h : ∀ w ∈ words, Word.Made part w) :
    ∀ w ∈ maskWords part words mask, Word.Made part w := by
  intro w' hw'
  obtain ⟨i, hi, rfl⟩ := List.mem_iff_getElem.mp hw'
  simp only [maskWords, List.getElem_zipWith, maskWord]
  split
  · exact made_nopWord _
  · exact h _ (List.getElem_mem _)

theorem makeNop_prefix {x : SimInput} (hmask : mask.length = x.prefixWords.length)
    (hdata : m.randomData.get? x.dataSeed = some data) :
    m.makeNop x mask .prefixPart = .ok (SimInput.new (maskWords .prefixPart x.prefixWords mask)
      x.words x.suffixWords x.ints x.dataSeed x.template, data) := by
  have hassert : decide (x.prefixWords.length = mask.length) = true := decide_eq_true hmask.symm
  rw [makeNop, hassert]
  simp only [assert_true, ok_bind, nopWords_eq_ok, nopInput, hdata]
  rfl

theorem makeNop_suffix {x : SimInput} (hmask : mask.length = x.suffixWords.length)
    (hdata : m.randomData.get? x.dataSeed = some data) :
    m.makeNop x mask .suffixPart = .ok (SimInput.new x.prefixWords x.words
      (maskWords .suffixPart x.suffixWords mask) x.ints x.dataSeed x.template, data) := by
  have hassert : decide (x.suffixWords.length = mask.length) = true := decide_eq_true hmask.symm
  rw [makeNop, hassert]
  simp only [assert_true, ok_bind, nopWords_eq_ok, nopInput, hdata]
  rfl

/-- Values that are copied where there are only zeros are zeros. -/
theorem copiedInts_zero {n k : ℕ} {entries : List (Word × Bool)} :
    ∀ vals ∈ copiedInts (List.replicate n 0) k entries, ∀ int ∈ vals, int = 0 := by
  induction entries generalizing k with
  | nil => exact nofun
  | cons entry entries ih =>
    obtain ⟨w, masked⟩ := entry
    rw [copiedInts]
    refine List.forall_mem_cons.mpr ⟨fun int hint ↦ ?_, ih⟩
    cases masked with
    | true => exact List.eq_of_mem_replicate hint
    | false =>
      exact List.eq_of_mem_replicate (List.mem_of_mem_drop (List.mem_of_mem_take hint))

theorem flatten_copiedInts_zero (hmade : ∀ w ∈ words, Word.Made part w)
    (hmask : mask.length = words.length) :
    (copiedInts (List.replicate (words.flatMap Word.retInsts).length 0) 0
        ((maskWords part words mask).zip mask)).flatten =
      List.replicate ((maskWords part words mask).flatMap Word.retInsts).length 0 := by
  apply List.eq_replicate_iff.mpr
  constructor
  · apply length_flatten_of_forall₂
    apply forall₂_copiedInts hmade hmask
    rw [Nat.zero_add, List.length_replicate]
    exact length_flatMap_maskWords_le hmade
  · intro int hint
    obtain ⟨vals, hvals, hint⟩ := List.mem_flatten.mp hint
    exact copiedInts_zero vals hvals int hint

theorem Quiet.maskedTest_replicate (h : Quiet m start data) :
    maskedTest start part (List.replicate (start.partWords part).length false) = start := by
  conv_rhs => rw [h.eq_new]
  cases part with
  | prefixPart =>
    rw [maskedTest, SimInput.partWords, maskWords_replicate]
  | mainPart =>
    rw [maskedTest, SimInput.partWords, maskWords_replicate, ← h.ints]
  | suffixPart =>
    rw [maskedTest, SimInput.partWords, maskWords_replicate]

theorem partWords_maskedTest (part' : Part) :
    (maskedTest start part mask).partWords part' =
      if part' = part then maskWords part' (start.partWords part') mask
      else start.partWords part' := by
  cases part <;> cases part' <;> rfl

theorem Quiet.made_maskedTest (h : Quiet m start data) (part' : Part) :
    ∀ w ∈ (maskedTest start part mask).partWords part', Word.Made part' w := by
  rw [partWords_maskedTest]
  split
  · exact made_maskWords (h.made part')
  · exact h.made part'

theorem Quiet.length_ints_maskedTest (h : Quiet m start data) :
    (maskedTest start part mask).ints.length =
      ((maskedTest start part mask).words.flatMap Word.retInsts).length := by
  have hlength : start.ints.length = (start.words.flatMap Word.retInsts).length := by
    rw [h.ints, List.length_replicate]
  cases part with
  | prefixPart => exact hlength
  | mainPart => exact List.length_replicate
  | suffixPart => exact hlength

theorem Quiet.exists_save (h : Quiet m start data) (data' : List ℤ) :
    ∃ file, (maskedTest start part mask).save data' = .ok file := by
  have htemplate : (maskedTest start part mask).template < templates.length := by
    cases part <;> exact h.template
  have hitem := Text.item_of_getElem? (List.getElem?_eq_getElem htemplate)
  exact ⟨_, SimInput.save_eq_ok (fun part' w hw ↦ (h.made_maskedTest part' w hw).printed.populated)
    h.length_ints_maskedTest hitem data'⟩

/-- `make_nop` masks further words of a masked test. -/
theorem Quiet.makeNop_maskedTest (h : Quiet m start data)
    (hlength : mask.length = (start.partWords part).length) (hcovers : Covers mask' mask) :
    m.makeNop (maskedTest start part mask) mask' part =
      .ok (maskedTest start part mask', data) := by
  have hmask : mask'.length = (maskWords part (start.partWords part) mask).length := by
    rw [length_maskWords hlength, ← hlength]
    exact hcovers.length_eq.symm
  cases part with
  | prefixPart =>
    have hmake := makeNop_prefix (x := maskedTest start .prefixPart mask) hmask h.data
    rwa [maskedTest, SimInput.new, maskWords_maskWords hcovers] at hmake
  | mainPart =>
    have hmade : ∀ w ∈ maskWords .mainPart start.words mask, Word.Made .mainPart w :=
      made_maskWords (h.made .mainPart)
    have hmake : m.makeNop (maskedTest start .mainPart mask) mask' .mainPart =
        .ok (nopTest (maskedTest start .mainPart mask) mask', data) :=
      makeNop_main hmade List.length_replicate hmask h.data
    have hints := flatten_copiedInts_zero hmade hmask
    rw [maskWords_maskWords hcovers] at hints
    rw [hmake]
    simp only [nopTest, maskedTest, SimInput.new, hints, maskWords_maskWords hcovers]
  | suffixPart =>
    have hmake := makeNop_suffix (x := maskedTest start .suffixPart mask) hmask h.data
    rwa [maskedTest, SimInput.new, maskWords_maskWords hcovers] at hmake

end MaskedTest

/-- The test shows the mismatch exactly when the oracle says so. -/
def Decides (evaluate : Evaluate) (start : SimInput) (part : Part) (data : List ℤ)
    (oracle : List Bool → Bool) (mask : List Bool) : Prop :=
  ∃ ret check, evaluate mask (maskedTest start part mask) data = .ok (.ran ret check) ∧
    isMatch ret check = !oracle mask

/-- The masks are those of a greedy search that stands at `f`. -/
structure Simulates (start : SimInput) (part : Part) (s : Search) (f : ℕ → Bool) : Prop where
  minMask : s.minMask = maskOf (start.partWords part).length f
  minInput : s.minInput = maskedTest start part s.minMask
  unbroken : s.broken = false

/-- The steps without `delete_nop`. -/
def Tests (lenMask : ℕ) (steps : List Step) : Prop :=
  ∀ step ∈ steps, step = .save ∨ ∃ i j, step = .test i j ∧ j < numTest lenMask i

def pieces (lenMask : ℕ) (steps : List Step) : List (ℕ → Bool) :=
  steps.filterMap fun step ↦
    match step with
    | .test i j => some (chunk lenMask i j)
    | _ => none

theorem pieces_append (lenMask : ℕ) (steps steps' : List Step) :
    pieces lenMask (steps ++ steps') = pieces lenMask steps ++ pieces lenMask steps' :=
  List.filterMap_append

/-- The oracle on sets of positions. -/
def accept (oracle : List Bool → Bool) (lenMask : ℕ) (f : ℕ → Bool) : Bool :=
  oracle (maskOf lenMask f)

theorem covers_maskOf {lenMask : ℕ} {f g : ℕ → Bool} (h : g ≤ f) :
    Covers (maskOf lenMask f) (maskOf lenMask g) := by
  rw [Covers, maskOf, maskOf, List.forall₂_map_left_iff, List.forall₂_map_right_iff]
  exact List.forall₂_same.mpr fun n _ ↦ h n

section Runs

variable {m : RvMutator} {start : SimInput} {data : List ℤ} {part : Part} {evaluate : Evaluate}
  {oracle : List Bool → Bool} {s : Search} {f : ℕ → Bool} {i j : ℕ} {steps : List Step}

theorem Simulates.candidate_eq (h : Simulates start part s f)
    (hpos : 0 < (start.partWords part).length)
    (hj : j < numTest (start.partWords part).length i) :
    orMask (testMask (start.partWords part).length i j) s.minMask =
      maskOf (start.partWords part).length (f ⊔ chunk (start.partWords part).length i j) := by
  rw [testMask_eq hpos hj, h.minMask, orMask_maskOf]

/-- A round of the inner loop is an attempt of the greedy search. -/
theorem Simulates.test (h : Simulates start part s f) (hquiet : Quiet m start data)
    (hpos : 0 < (start.partWords part).length)
    (hdecides : ∀ mask, mask.length = (start.partWords part).length →
      Decides evaluate start part data oracle mask)
    (hj : j < numTest (start.partWords part).length i) :
    ∃ s', s.runStep m evaluate part (start.partWords part).length (.test i j) = .ok s' ∧
      Simulates start part s' (Greedy.attempt (accept oracle (start.partWords part).length) f
        (chunk (start.partWords part).length i j)) := by
  have hcandidate := h.candidate_eq hpos hj
  rw [Search.runStep, h.unbroken, if_neg Bool.false_ne_true]
  dsimp only
  rw [Greedy.attempt, accept, ← hcandidate]
  generalize orMask (testMask (start.partWords part).length i j) s.minMask = tmpMask at hcandidate ⊢
  by_cases hsame : tmpMask = s.minMask
  · rw [if_pos hsame]
    refine ⟨_, rfl, ?_⟩
    split
    · exact ⟨hsame.symm.trans hcandidate, h.minInput, rfl⟩
    · exact ⟨h.minMask, h.minInput, rfl⟩
  · rw [if_neg hsame]
    have hcovers : Covers tmpMask s.minMask := by
      rw [hcandidate, h.minMask]
      exact covers_maskOf le_sup_left
    have hmake : m.makeNop s.minInput tmpMask part = .ok (maskedTest start part tmpMask, data) := by
      rw [h.minInput]
      exact hquiet.makeNop_maskedTest (by rw [h.minMask, length_maskOf]) hcovers
    obtain ⟨ret, check, heval, hmatch⟩ := hdecides tmpMask (by rw [hcandidate, length_maskOf])
    rw [hmake, ok_bind, Search.attempt, heval, ok_bind]
    dsimp only
    rw [hmatch]
    cases horacle : oracle tmpMask with
    | true => exact ⟨_, rfl, hcandidate, rfl, rfl⟩
    | false => exact ⟨_, rfl, h.minMask, h.minInput, rfl⟩

theorem Simulates.save (h : Simulates start part s f) (hquiet : Quiet m start data) :
    ∃ s', s.runStep m evaluate part (start.partWords part).length .save = .ok s' ∧
      Simulates start part s' f := by
  obtain ⟨file, hfile⟩ := @Quiet.exists_save m start data part s.minMask hquiet s.data
  rw [← h.minInput] at hfile
  rw [Search.runStep, hfile]
  exact ⟨_, rfl, h.minMask, h.minInput, rfl⟩

theorem Simulates.run (h : Simulates start part s f) (hquiet : Quiet m start data)
    (hpos : 0 < (start.partWords part).length)
    (hdecides : ∀ mask, mask.length = (start.partWords part).length →
      Decides evaluate start part data oracle mask)
    (hsteps : Tests (start.partWords part).length steps) :
    ∃ s', steps.foldlM (Search.runStep m evaluate part (start.partWords part).length) s = .ok s' ∧
      Simulates start part s' (Greedy.search (accept oracle (start.partWords part).length) f
        (pieces (start.partWords part).length steps)) := by
  induction steps generalizing s f with
  | nil => exact ⟨s, rfl, h⟩
  | cons step steps ih =>
    obtain ⟨hstep, hrest⟩ := List.forall_mem_cons.mp hsteps
    rw [List.foldlM_cons]
    rcases hstep with rfl | ⟨i, j, rfl, hj⟩
    · obtain ⟨s₁, hs₁, h₁⟩ := @Simulates.save m start data part evaluate s f h hquiet
      rw [hs₁, ok_bind]
      exact ih h₁ hrest
    · obtain ⟨s₁, hs₁, h₁⟩ := h.test hquiet hpos hdecides hj
      rw [hs₁, ok_bind]
      exact ih h₁ hrest

end Runs

section Steps

variable {part : Part} {lenMask i n : ℕ} {step : Step} {f : ℕ → Bool}

/-- The steps before `delete_nop`. -/
def searchSteps (part : Part) (lenMask : ℕ) : List Step :=
  (partSteps part lenMask).takeWhile fun step ↦ decide (step ≠ .delete)

theorem tests_searchSteps : Tests lenMask (searchSteps part lenMask) := by
  intro step hstep
  have hdecide := List.mem_takeWhile_imp (p := fun step : Step ↦ decide (step ≠ .delete)) hstep
  have hne : step ≠ .delete := of_decide_eq_true hdecide
  obtain ⟨i, -, hstep⟩ := List.mem_flatMap.mp ((List.takeWhile_sublist _).subset hstep)
  rcases List.mem_append.mp hstep with hstep | hsave
  · rcases List.mem_append.mp hstep with htest | hdelete
    · obtain ⟨j, hj, rfl⟩ := List.mem_map.mp htest
      exact .inr ⟨i, j, rfl, List.mem_range.mp hj⟩
    · split at hdelete
      · exact absurd (List.mem_singleton.mp hdelete) hne
      · exact nomatch hdelete
  · exact .inl (List.mem_singleton.mp hsave)

/-- The tests of the last round come before `delete_nop`. -/
theorem test_last_mem (hlen : 2 ≤ lenMask) (hn : n < lenMask) :
    Step.test (Nat.log 2 lenMask - 1) n ∈ searchSteps part lenMask := by
  have hlog : 0 < Nat.log 2 lenMask := Nat.log_pos (by decide) hlen
  have hnum : numTest lenMask (Nat.log 2 lenMask - 1) = lenMask := by
    rw [numTest, numNop_last hlen, Nat.div_one]
  have hearlier : ∀ step ∈ (List.range (Nat.log 2 lenMask - 1)).flatMap (roundSteps part lenMask) ++
      (List.range lenMask).map (Step.test (Nat.log 2 lenMask - 1)),
      decide (step ≠ .delete) = true := by
    intro step hstep
    rcases List.mem_append.mp hstep with hstep | hstep
    · obtain ⟨i, hi, hstep⟩ := List.mem_flatMap.mp hstep
      have hlast : ¬ (part = .suffixPart ∧ i = Nat.log 2 lenMask - 1) := by
        have := List.mem_range.mp hi
        omega
      rw [roundSteps, if_neg hlast, List.append_nil] at hstep
      rcases List.mem_append.mp hstep with htest | hsave
      · obtain ⟨j, -, rfl⟩ := List.mem_map.mp htest
        rfl
      · rw [List.mem_singleton.mp hsave]
        rfl
    · obtain ⟨j, -, rfl⟩ := List.mem_map.mp hstep
      rfl
  have hsplit : partSteps part lenMask =
      ((List.range (Nat.log 2 lenMask - 1)).flatMap (roundSteps part lenMask) ++
        (List.range lenMask).map (Step.test (Nat.log 2 lenMask - 1))) ++
      ((if part = .suffixPart then [Step.delete] else []) ++ [Step.save]) := by
    have hrange : List.range (Nat.log 2 lenMask) =
        List.range (Nat.log 2 lenMask - 1) ++ [Nat.log 2 lenMask - 1] := by
      rw [← List.range_succ, Nat.succ_eq_add_one, Nat.sub_add_cancel hlog]
    rw [partSteps, hrange, List.flatMap_append, List.flatMap_singleton, roundSteps, hnum]
    simp only [and_true, List.append_assoc]
  rw [searchSteps, hsplit, List.takeWhile_append_of_pos hearlier]
  exact List.mem_append_left _ (List.mem_append_right _
    (List.mem_map.mpr ⟨n, List.mem_range.mpr hn, rfl⟩))

/-- Each single position is a piece of the search. -/
theorem single_mem_pieces (hlen : 2 ≤ lenMask) (hn : n < lenMask) :
    chunk lenMask (Nat.log 2 lenMask - 1) n ∈ pieces lenMask (searchSteps part lenMask) :=
  List.mem_filterMap.mpr ⟨_, test_last_mem hlen hn, rfl⟩

theorem chunk_last (hlen : 2 ≤ lenMask) {k : ℕ} (hk : k < lenMask) :
    chunk lenMask (Nat.log 2 lenMask - 1) n k = decide (n = k) := by
  rw [chunk, numTest, numNop_last hlen, Nat.div_one, Bool.eq_iff_iff]
  simp only [Bool.and_eq_true, Bool.or_eq_true, decide_eq_true_eq, Nat.one_mul]
  omega

theorem maskOf_single (hlen : 2 ≤ lenMask) :
    maskOf lenMask (f ⊔ chunk lenMask (Nat.log 2 lenMask - 1) n) =
      (maskOf lenMask f).set n true := by
  apply List.ext_getElem
  · simp
  · intro k hk hk'
    rw [length_maskOf] at hk
    simp only [maskOf, List.getElem_map, List.getElem_range, List.getElem_set, Pi.sup_apply,
      chunk_last hlen hk]
    by_cases hnk : n = k
    · simp [hnk]
    · simp [hnk]

end Steps

/-- The search has kept the form of its test, and the mismatch once it has replaced a word. -/
structure Reproduces (start : SimInput) (part : Part) (oracle : List Bool → Bool) (s : Search) :
    Prop where
  length_minMask : s.minMask.length = (start.partWords part).length
  minInput : s.minInput = maskedTest start part s.minMask
  mismatch : s.minMask = List.replicate (start.partWords part).length false ∧ s.minInput = start ∨
    oracle s.minMask = true

/-- No further word can be replaced. -/
def OneMinimal (oracle : List Bool → Bool) (mask : List Bool) : Prop :=
  ∀ n < mask.length, mask[n]? = some false → oracle (mask.set n true) = false

/-- A mask that contains a non-reproducing mask does not reproduce. -/
def MonotoneOracle (oracle : List Bool → Bool) : Prop :=
  ∀ mask mask', Covers mask' mask → oracle mask = false → oracle mask' = false

section Result

variable {m : RvMutator} {start : SimInput} {data : List ℤ} {part : Part} {evaluate : Evaluate}
  {oracle : List Bool → Bool} {s : Search} {f : ℕ → Bool}

theorem Simulates.reproduces (h : Simulates start part s f) (hquiet : Quiet m start data)
    (hf : f = ⊥ ∨ accept oracle (start.partWords part).length f = true) :
    Reproduces start part oracle s := by
  refine ⟨by rw [h.minMask, length_maskOf], h.minInput, ?_⟩
  rcases hf with rfl | haccept
  · have hmask := h.minMask.trans maskOf_bot
    exact .inl ⟨hmask, by rw [h.minInput, hmask, hquiet.maskedTest_replicate]⟩
  · exact .inr (by rw [h.minMask]; exact haccept)

theorem antitone_accept (h : MonotoneOracle oracle) (lenMask : ℕ) :
    Antitone (accept oracle lenMask) := by
  intro f g hfg
  cases haccept : accept oracle lenMask f with
  | true => exact Bool.le_true _
  | false => exact (h _ _ (covers_maskOf hfg) haccept).le

theorem Quiet.lenMask_eq (hquiet : Quiet m start data) (hs : s.minInput = start) :
    s.lenMask part = (start.partWords part).length := by
  have hnew := hquiet.eq_new
  cases part <;> rw [Search.lenMask, hs, hnew] <;> rfl

/-- Whatever part is searched, with whatever oracle: after any number of steps the test is the given
one with the words of the mask replaced, and it shows the mismatch once a word was replaced; the
next candidate is as long as the part and contains the mask, and the mask only grows. If the oracle
is monotone, no further word can be replaced in the end. -/
theorem search_reproduces (hquiet : Quiet m start data) (hs : s.minInput = start)
    (hbroken : s.broken = false) (hlen : 2 ≤ s.lenMask part)
    (hdecides : ∀ mask, mask.length = s.lenMask part →
      Decides evaluate start part data oracle mask) :
    (∀ k, ∃ s', ((searchSteps part (s.lenMask part)).take k).foldlM
        (Search.runStep m evaluate part (s.lenMask part)) (s.enter part) = .ok s' ∧
      Reproduces start part oracle s' ∧
      (∀ i j, (searchSteps part (s.lenMask part))[k]? = some (.test i j) →
        (orMask (testMask (s.lenMask part) i j) s'.minMask).length = s.lenMask part ∧
          Covers (orMask (testMask (s.lenMask part) i j) s'.minMask) s'.minMask) ∧
      ∀ l ≥ k, ∀ s'', ((searchSteps part (s.lenMask part)).take l).foldlM
        (Search.runStep m evaluate part (s.lenMask part)) (s.enter part) = .ok s'' →
          Covers s''.minMask s'.minMask) ∧
    ∃ s', (searchSteps part (s.lenMask part)).foldlM
        (Search.runStep m evaluate part (s.lenMask part)) (s.enter part) = .ok s' ∧
      Reproduces start part oracle s' ∧
      (MonotoneOracle oracle → OneMinimal oracle s'.minMask) := by
  have hlenMask := @Quiet.lenMask_eq m start data part s hquiet hs
  have henter : Simulates start part (s.enter part) ⊥ := by
    refine ⟨?_, ?_, hbroken⟩
    · rw [Search.enter, hlenMask, maskOf_bot]
    · rw [Search.enter, hlenMask, hquiet.maskedTest_replicate]
      exact hs
  rw [hlenMask] at hlen hdecides ⊢
  have hpos : 0 < (start.partWords part).length := by omega
  have hrun : ∀ k, ∃ s', ((searchSteps part (start.partWords part).length).take k).foldlM
      (Search.runStep m evaluate part (start.partWords part).length) (s.enter part) = .ok s' ∧
      Simulates start part s' (Greedy.search (accept oracle (start.partWords part).length) ⊥
        (pieces (start.partWords part).length
          ((searchSteps part (start.partWords part).length).take k))) :=
    fun k ↦ henter.run hquiet hpos hdecides fun step hstep ↦
      tests_searchSteps step (List.mem_of_mem_take hstep)
  have hreproduces : ∀ {s'} {ps : List (ℕ → Bool)}, Simulates start part s'
      (Greedy.search (accept oracle (start.partWords part).length) ⊥ ps) →
      Reproduces start part oracle s' :=
    fun h ↦ h.reproduces hquiet (Greedy.search_eq_or_accept (.inl rfl))
  constructor
  · intro k
    obtain ⟨s', hs', h⟩ := hrun k
    refine ⟨s', hs', hreproduces h, fun i j hstep ↦ ?_, fun l hl s'' hs'' ↦ ?_⟩
    · have hj : j < numTest (start.partWords part).length i := by
        rcases tests_searchSteps _ (List.mem_of_getElem? hstep) with hsave | ⟨i', j', htest, hj⟩
        · exact nomatch hsave
        · obtain ⟨rfl, rfl⟩ := Step.test.inj htest
          exact hj
      rw [h.candidate_eq hpos hj]
      refine ⟨length_maskOf, ?_⟩
      rw [h.minMask]
      exact covers_maskOf le_sup_left
    · obtain ⟨s₂, hs₂, h₂⟩ := hrun l
      obtain rfl := Except.ok.inj (hs₂.symm.trans hs'')
      rw [h.minMask, h₂.minMask]
      apply covers_maskOf
      have htake : (searchSteps part (start.partWords part).length).take l =
          (searchSteps part (start.partWords part).length).take k ++
            ((searchSteps part (start.partWords part).length).drop k).take (l - k) := by
        rw [← List.take_add, Nat.add_sub_cancel' hl]
      rw [htake, pieces_append, Greedy.search_append]
      exact Greedy.le_search
  · obtain ⟨s', hs', h⟩ := henter.run hquiet hpos hdecides tests_searchSteps
    refine ⟨s', hs', hreproduces h, fun horacle n hn hfalse ↦ ?_⟩
    rw [h.minMask, length_maskOf] at hn
    rw [h.minMask, getElem?_maskOf hn] at hfalse
    rw [h.minMask, ← maskOf_single hlen]
    rcases Greedy.settled_search (antitone_accept horacle _) (single_mem_pieces hlen hn) with
      hle | hreject
    · have hn' := hle n
      rw [chunk_last hlen hn, decide_eq_true rfl, Option.some.inj hfalse] at hn'
      exact nomatch Bool.eq_true_of_true_le hn'
    · exact hreject

end Result

/-- The load and the addition without the interrupt. -/
def quietTest : SimInput := SimInput.new [] shiftedTest.words [] [0, 0, 0] 0 0

/-- The mismatch needs the addition. -/
def needsAddition (mask : List Bool) : Bool := !mask.getD 1 false

def runAddition : Evaluate := fun mask _ _ ↦ .ok (.ran .success (!needsAddition mask))

def quietSearch : Search where
  minInput := quietTest
  minMask := []
  tmpMask := []
  data := [7]
  draws := fun _ ↦ 0
  broken := false
  saved := []

theorem quiet_quietTest : Quiet shiftedMutator quietTest [7] := by
  refine ⟨rfl, fun part ↦ ?_, rfl, by decide, rfl⟩
  cases part with
  | prefixPart => exact nofun
  | mainPart => exact made_shiftedTest
  | suffixPart => exact nofun

theorem monotone_needsAddition : MonotoneOracle needsAddition := by
  intro mask mask' hcovers hreject
  rw [needsAddition, Bool.not_eq_false'] at hreject ⊢
  rw [List.getD_eq_getElem?_getD] at hreject ⊢
  cases hmask : mask[1]? with
  | none =>
    rw [hmask] at hreject
    exact nomatch hreject
  | some masked =>
    obtain rfl : masked = true := by
      rw [hmask] at hreject
      exact hreject
    obtain ⟨hlt, hmasked⟩ := List.getElem?_eq_some_iff.mp hmask
    have hlt' : 1 < mask'.length := hcovers.length_eq ▸ hlt
    have hle := hcovers.get hlt hlt'
    rw [List.get_eq_getElem, List.get_eq_getElem, hmasked] at hle
    rw [List.getElem?_eq_getElem hlt', Option.getD_some]
    exact Bool.eq_true_of_true_le hle

theorem search_reproduces_quietTest :
    ∃ s', (searchSteps .mainPart 2).foldlM (Search.runStep shiftedMutator runAddition .mainPart 2)
        (quietSearch.enter .mainPart) = .ok s' ∧ Reproduces quietTest .mainPart needsAddition s' ∧
      OneMinimal needsAddition s'.minMask := by
  have hdecides : ∀ mask : List Bool, mask.length = quietSearch.lenMask .mainPart →
      Decides runAddition quietTest .mainPart [7] needsAddition mask :=
    fun mask _ ↦ ⟨.success, !needsAddition mask, rfl, rfl⟩
  obtain ⟨-, s', hs', hreproduces, hminimal⟩ :=
    search_reproduces quiet_quietTest (s := quietSearch) rfl rfl (by decide) hdecides
  exact ⟨s', hs', hreproduces, hminimal monotone_needsAddition⟩

end ProcessorFuzz.Mutation
