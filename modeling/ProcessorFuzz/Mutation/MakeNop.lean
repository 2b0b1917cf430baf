import ProcessorFuzz.Mutation.Generation
import ProcessorFuzz.Mutation.RvMutator

/-!
# Replacing words with `nop`

`make_nop` puts a word of one instruction in the place of each masked word. The interrupt values of
the other words are looked up at the positions that they have in the new test, so that they are
those of other instructions once a longer word is masked, and the values of a word survive exactly
when the same values stand at both positions.
-/

namespace ProcessorFuzz.Mutation

open Library RvMutator

/-- The word in the place of a masked one. -/
def nopWord (part : Part) (label : ℤ) : Word where
  label
  insts := ["nop".toList]
  operands := []
  populated := true
  retInsts := [Text.ljust 8 (Word.labelText part label) ++ Text.ljust 42 "nop".toList]

def maskWord (part : Part) (w : Word) (masked : Bool) : Word :=
  if masked then nopWord part w.label else w

def maskWords (part : Part) (words : List Word) (nopMask : List Bool) : List Word :=
  List.zipWith (maskWord part) words nopMask

section Words

variable {part : Part} {words : List Word} {nopMask : List Bool} {w : Word} {masked : Bool}

@[simp]
theorem label_maskWord : (maskWord part w masked).label = w.label := by
  cases masked <;> rfl

theorem made_nopWord (label : ℤ) : Word.Made part (nopWord part label) := by
  have hpopulate : (Word.new label ["nop".toList]).populate Dict.empty part =
    .ok (nopWord part label) := rfl
  exact .populate hpopulate

theorem length_maskWords (h : nopMask.length = words.length) :
    (maskWords part words nopMask).length = words.length := by
  rw [maskWords, List.length_zipWith, h, Nat.min_self]

theorem nopWords_eq_ok (part : Part) (words : List Word) (nopMask : List Bool) :
    nopWords part words nopMask = .ok (maskWords part words nopMask) := by
  have hstep : ∀ entry ∈ words.zip nopMask,
      (if entry.2 then (Word.new entry.1.label ["nop".toList]).populate Dict.empty part
        else .ok entry.1) = .ok (maskWord part entry.1 entry.2) := by
    intro entry _
    obtain ⟨w, masked⟩ := entry
    cases masked <;> rfl
  rw [nopWords, mapM_eq_ok hstep, List.map_zip_eq_zipWith]
  rfl

/-- A word that the methods have made has a line for each instruction, and at least one. -/
theorem Word.Made.length_eq (h : Word.Made part w) : w.retInsts.length = w.insts.length := by
  induction h with
  | populate h => exact (length_retInsts_populate h).2.2.2
  | resetLabel hw h ih =>
    obtain ⟨first, rest, hlines, -⟩ := hw.printed.lines
    rw [Word.resetLabel, if_pos hw.printed.populated, hlines] at h
    obtain ⟨rfl, -⟩ := Prod.mk.inj (Except.ok.inj h)
    rw [hlines] at ih
    exact ih
  | repopLabel hw h ih =>
    obtain ⟨retInsts, rfl, hforall⟩ := Word.repopLabel_eq_ok hw.printed.populated h
      (R := fun _ _ ↦ True) fun _ ↦ True.intro
    exact hforall.length_eq.symm.trans ih

theorem Word.Made.length_pos (h : Word.Made part w) : 0 < w.insts.length := by
  obtain ⟨first, rest, hlines, -⟩ := h.printed.lines
  rw [← h.length_eq, hlines]
  exact Nat.succ_pos rest.length

theorem length_flatMap_maskWords_le (hmade : ∀ w ∈ words, Word.Made part w) :
    (((maskWords part words nopMask).zip nopMask).map fun entry ↦ entry.1.insts.length).sum ≤
      (words.flatMap Word.retInsts).length := by
  induction words generalizing nopMask with
  | nil => simp [maskWords]
  | cons w words ih =>
    obtain ⟨hw, hwords⟩ := List.forall_mem_cons.mp hmade
    cases nopMask with
    | nil => simp [maskWords]
    | cons masked nopMask =>
      have hlength : (maskWord part w masked).insts.length ≤ w.retInsts.length := by
        rw [hw.length_eq]
        cases masked with
        | false => exact le_rfl
        | true => exact hw.length_pos
      have hrest := @ih nopMask hwords
      simp only [maskWords, List.zipWith_cons_cons, List.zip_cons_cons, List.map_cons,
        List.sum_cons, List.flatMap_cons, List.length_append] at hrest ⊢
      omega

end Words

/-- The interrupt values of each word. -/
def wordInts : List ℤ → List Word → List (List ℤ)
  | _, [] => []
  | ints, w :: words =>
    ints.take w.retInsts.length :: wordInts (ints.drop w.retInsts.length) words

/-- The values that `make_nop` copies for each of the new words, from the position `k` on. -/
def copiedInts (ints : List ℤ) : ℕ → List (Word × Bool) → List (List ℤ)
  | _, [] => []
  | k, (w, masked) :: rest =>
    (if masked then List.replicate w.insts.length 0 else (ints.drop k).take w.insts.length) ::
      copiedInts ints (k + w.insts.length) rest

/-- For each word that stays, the values at its new position are its own ones. A masked word counts
as one instruction for the new positions `k`, and as it is for the old positions `k'`. -/
def Unshifted (ints : List ℤ) : ℕ → ℕ → List (Word × Bool) → Prop
  | _, _, [] => True
  | k, k', (w, masked) :: rest =>
    (masked = false →
      (ints.drop k).take w.retInsts.length = (ints.drop k').take w.retInsts.length) ∧
      Unshifted ints (k + if masked then 1 else w.retInsts.length) (k' + w.retInsts.length) rest

section Ints

variable {ints : List ℤ} {k : ℕ}

theorem mapM_item_eq_ok {n : ℕ} (h : k + n ≤ ints.length) :
    ((List.range n).mapM fun j ↦ Text.item ints ((k + j : ℕ) : ℤ)) =
      .ok ((ints.drop k).take n) := by
  have hitem : ∀ j ∈ List.range n,
      Text.item ints ((k + j : ℕ) : ℤ) = .ok (ints.getD (k + j) 0) := by
    intro j hj
    have hlt : k + j < ints.length := by
      have := List.mem_range.mp hj
      omega
    apply Text.item_of_getElem?
    rw [List.getD_eq_getElem?_getD, List.getElem?_eq_getElem hlt, Option.getD_some]
  rw [mapM_eq_ok hitem]
  congr 1
  apply List.ext_getElem
  · simp only [List.length_map, List.length_range, List.length_take, List.length_drop]
    omega
  · intro j hj hj'
    have hlt : k + j < ints.length := by
      rw [List.length_map, List.length_range] at hj
      omega
    simp [hlt]

theorem nopInts_eq_ok {entries : List (Word × Bool)}
    (h : k + (entries.map fun entry ↦ entry.1.insts.length).sum ≤ ints.length) :
    nopInts ints k entries = .ok (copiedInts ints k entries).flatten := by
  induction entries generalizing k with
  | nil => rfl
  | cons entry entries ih =>
    obtain ⟨w, masked⟩ := entry
    rw [List.map_cons, List.sum_cons] at h
    dsimp only at h
    rw [nopInts, ih (by omega)]
    cases masked with
    | true => rfl
    | false =>
      have hcopy := @mapM_item_eq_ok ints k w.insts.length (by omega)
      rw [if_neg (by decide), hcopy]
      rfl

/-- The parts of a list are found again by their lengths. -/
theorem wordInts_flatten {chunks : List (List ℤ)} {words : List Word}
    (h : List.Forall₂ (fun chunk w ↦ chunk.length = w.retInsts.length) chunks words) :
    wordInts chunks.flatten words = chunks := by
  induction h with
  | nil => rfl
  | cons hlength _ ih => rw [List.flatten_cons, wordInts, List.take_left' hlength,
      List.drop_left' hlength, ih]

theorem length_flatten_of_forall₂ {chunks : List (List ℤ)} {words : List Word}
    (h : List.Forall₂ (fun chunk w ↦ chunk.length = w.retInsts.length) chunks words) :
    chunks.flatten.length = (words.flatMap Word.retInsts).length := by
  induction h with
  | nil => rfl
  | cons hlength _ ih => rw [List.flatten_cons, List.length_append, hlength, ih,
      List.flatMap_cons, List.length_append]

theorem forall₂_copiedInts {part : Part} {words : List Word} {nopMask : List Bool}
    (hmade : ∀ w ∈ words, Word.Made part w) (hmask : nopMask.length = words.length)
    (h : k + (((maskWords part words nopMask).zip nopMask).map fun entry ↦
      entry.1.insts.length).sum ≤ ints.length) :
    List.Forall₂ (fun chunk w ↦ chunk.length = w.retInsts.length)
      (copiedInts ints k ((maskWords part words nopMask).zip nopMask))
      (maskWords part words nopMask) := by
  induction words generalizing k nopMask with
  | nil => exact .nil
  | cons w words ih =>
    obtain ⟨hw, hwords⟩ := List.forall_mem_cons.mp hmade
    cases nopMask with
    | nil => exact nomatch hmask
    | cons masked nopMask =>
      simp only [maskWords, List.zipWith_cons_cons, List.zip_cons_cons, List.map_cons,
        List.sum_cons, copiedInts] at h ⊢
      refine .cons ?_ (ih hwords (Nat.succ.inj hmask) (by rw [maskWords]; omega))
      cases masked with
      | true => rfl
      | false =>
        rw [if_neg (by decide), List.length_take, List.length_drop]
        simp only [maskWord, Bool.false_eq_true, if_false] at h ⊢
        rw [hw.length_eq]
        omega

/-- Each word that stays has its own values among those that are copied. -/
theorem copiedInts_eq_iff {part : Part} {words : List Word} {nopMask : List Bool}
    (hmade : ∀ w ∈ words, Word.Made part w) (hmask : nopMask.length = words.length) (k' : ℕ) :
    copiedInts ints k ((maskWords part words nopMask).zip nopMask) =
        List.zipWith (fun masked vals ↦ if masked then [0] else vals) nopMask
          (wordInts (ints.drop k') words) ↔
      Unshifted ints k k' (words.zip nopMask) := by
  induction words generalizing k k' nopMask with
  | nil =>
    cases nopMask with
    | nil => exact iff_of_true rfl True.intro
    | cons masked nopMask => exact nomatch hmask
  | cons w words ih =>
    obtain ⟨hw, hwords⟩ := List.forall_mem_cons.mp hmade
    cases nopMask with
    | nil => exact nomatch hmask
    | cons masked nopMask =>
      have hrest := fun k ↦
        ih hwords (Nat.succ.inj hmask) (k := k) (k' + w.retInsts.length)
      simp only [maskWords, List.zipWith_cons_cons, List.zip_cons_cons, copiedInts, wordInts,
        List.drop_drop, List.cons.injEq, Unshifted] at hrest ⊢
      rw [hrest]
      cases masked with
      | true => simp [maskWord, nopWord]
      | false => simp [maskWord, hw.length_eq]

end Ints

/-- `y` is `x` with the masked words of the main part replaced, and the words that stay keep their
interrupt values. -/
structure KeepsInts (x : SimInput) (nopMask : List Bool) (y : SimInput) : Prop where
  words : y.words = maskWords .mainPart x.words nopMask
  length_ints : y.ints.length = (y.words.flatMap Word.retInsts).length
  ints : wordInts y.ints y.words = List.zipWith (fun masked vals ↦ if masked then [0] else vals)
    nopMask (wordInts x.ints x.words)
  prefixWords : y.prefixWords = x.prefixWords
  suffixWords : y.suffixWords = x.suffixWords
  template : y.template = x.template
  dataSeed : y.dataSeed = x.dataSeed

/-- The test that `make_nop` returns for the main part. -/
def nopTest (x : SimInput) (nopMask : List Bool) : SimInput :=
  SimInput.new x.prefixWords (maskWords .mainPart x.words nopMask) x.suffixWords
    (copiedInts x.ints 0 ((maskWords .mainPart x.words nopMask).zip nopMask)).flatten x.dataSeed
    x.template

section Test

variable {m : RvMutator} {x : SimInput} {nopMask : List Bool} {data : List ℤ}

theorem makeNop_main (hmade : ∀ w ∈ x.words, Word.Made .mainPart w)
    (hints : x.ints.length = (x.words.flatMap Word.retInsts).length)
    (hmask : nopMask.length = x.words.length)
    (hdata : m.randomData.get? x.dataSeed = some data) :
    m.makeNop x nopMask .mainPart = .ok (nopTest x nopMask, data) := by
  have hle := @length_flatMap_maskWords_le .mainPart x.words nopMask hmade
  have hnopInts : nopInts x.ints 0 ((maskWords .mainPart x.words nopMask).zip nopMask) =
      .ok (copiedInts x.ints 0 ((maskWords .mainPart x.words nopMask).zip nopMask)).flatten :=
    nopInts_eq_ok (by rw [Nat.zero_add, hints]; exact hle)
  have hassert : decide (x.words.length = nopMask.length) = true := decide_eq_true hmask.symm
  rw [makeNop, hassert]
  simp only [assert_true, ok_bind, nopWords_eq_ok, nopInput, hnopInts, hdata]
  rfl

/-- The interrupt values of the words that `make_nop` keeps stay with them exactly when those at the
shifted positions are the same. Everything else is as it should be. -/
theorem makeNop_keepsInts_iff (hmade : ∀ w ∈ x.words, Word.Made .mainPart w)
    (hints : x.ints.length = (x.words.flatMap Word.retInsts).length)
    (hmask : nopMask.length = x.words.length)
    (hdata : m.randomData.get? x.dataSeed = some data) :
    ∃ y, m.makeNop x nopMask .mainPart = .ok (y, data) ∧
      (KeepsInts x nopMask y ↔ Unshifted x.ints 0 0 (x.words.zip nopMask)) := by
  refine ⟨nopTest x nopMask, makeNop_main hmade hints hmask hdata, ?_⟩
  have hle := @length_flatMap_maskWords_le .mainPart x.words nopMask hmade
  have hchunks := @forall₂_copiedInts x.ints 0 .mainPart x.words nopMask hmade hmask
    (by rw [Nat.zero_add, hints]; exact hle)
  have hwordInts : wordInts (nopTest x nopMask).ints (nopTest x nopMask).words =
      copiedInts x.ints 0 ((maskWords .mainPart x.words nopMask).zip nopMask) :=
    wordInts_flatten hchunks
  have hiff := @copiedInts_eq_iff x.ints 0 .mainPart x.words nopMask hmade hmask 0
  rw [List.drop_zero] at hiff
  constructor
  · intro h
    exact hiff.mp (hwordInts.symm.trans h.ints)
  · intro h
    exact ⟨rfl, length_flatten_of_forall₂ hchunks, hwordInts.trans (hiff.mpr h), rfl, rfl, rfl, rfl⟩

end Test

/-- A load of two instructions and an addition that is interrupted. -/
def shiftedTest : SimInput :=
  SimInput.new []
    [{ label := 0
       insts := ["la x5, d_0_0".toList, "ld x6, 8(x5)".toList]
       operands := []
       populated := true
       retInsts := ["_l0:    la x5, d_0_0                              ".toList,
         "        ld x6, 8(x5)                              ".toList] },
     { label := 1
       insts := ["add x7, x6, x6".toList]
       operands := []
       populated := true
       retInsts := ["_l1:    add x7, x6, x6                            ".toList] }]
    [] [0, 0, 5] 0 0

def shiftedMutator : RvMutator :=
  { RvMutator.init 1 1 false with randomData := Dict.empty.set 0 [7], dataSeeds := [0] }

theorem made_shiftedTest : ∀ w ∈ shiftedTest.words, Word.Made .mainPart w := by
  have hload : (Word.new 0 ["la x5, d_0_0".toList, "ld x6, 8(x5)".toList]).populate
    Dict.empty .mainPart = .ok _ := rfl
  have hadd : (Word.new 1 ["add x7, x6, x6".toList]).populate Dict.empty .mainPart = .ok _ := rfl
  exact List.forall_mem_cons.mpr ⟨.populate hload, List.forall_mem_cons.mpr ⟨.populate hadd, nofun⟩⟩

/-- Without the load the addition is not interrupted any more. -/
theorem not_keepsInts_shiftedTest :
    (∀ w ∈ shiftedTest.words, Word.Made .mainPart w) ∧
      shiftedTest.ints.length = (shiftedTest.words.flatMap Word.retInsts).length ∧
      shiftedMutator.randomData.get? shiftedTest.dataSeed = some [7] ∧
      ∃ y, shiftedMutator.makeNop shiftedTest [true, false] .mainPart = .ok (y, [7]) ∧
        y.ints = [0, 0] ∧ ¬ KeepsInts shiftedTest [true, false] y := by
  refine ⟨made_shiftedTest, rfl, rfl, nopTest shiftedTest [true, false], ?_, rfl, fun h ↦ ?_⟩
  · exact makeNop_main made_shiftedTest rfl rfl rfl
  · exact absurd h.ints (by decide)

theorem makeNop_keepsInts_shiftedTest :
    ∃ y, shiftedMutator.makeNop shiftedTest [false, true] .mainPart = .ok (y, [7]) ∧
      (KeepsInts shiftedTest [false, true] y ↔
        Unshifted [0, 0, 5] 0 0 (shiftedTest.words.zip [false, true])) :=
  makeNop_keepsInts_iff made_shiftedTest rfl rfl rfl

end ProcessorFuzz.Mutation
