import ProcessorFuzz.Mutation.InstGenerator
import ProcessorFuzz.Mutation.SimInput

/-!
# The mutator

`get` makes the words of a test in one of three ways: it generates them, mutates those of a test of
the corpus, or merges those of two tests and mutates them. After the words it draws the interrupt
values, and last it takes the data of the test: new data for a generated test, the data of its first
parent for the others.
-/

namespace ProcessorFuzz.Mutation

open Library Library.Stateful Generating

/-- The mutation phases. -/
inductive Phase
  | generation
  | mutation
  | merge
  deriving DecidableEq, Repr

/-- The fields of the mutator that change, and its parameters. The generator is not one of them: a
call of `get` begins with its `reset`. -/
structure RvMutator extends Mutator where
  corpusSize : ℕ
  noGuide : Bool
  corpus : List SimInput
  phase : Phase
  numWords : ℕ

/-- `num_prefix`, `max_nWords` and `num_suffix`. -/
def maxWords : Part → ℕ
  | .prefixPart => 3
  | .mainPart => 200
  | .suffixPart => 5

/-- The loop of `reset_labels` that sets the labels. -/
def relabel (part : Part) :
    ℕ → Dict ℤ ℤ → List GenWord → Except PyError (List GenWord × Dict ℤ ℤ)
  | _, labelMap, [] => .ok ([], labelMap)
  | n, labelMap, w :: words => do
    let (word, tup) ← w.toWord.resetLabel n part
    let labelMap := match tup with
      | none => labelMap
      | some (old, new) => labelMap.set old new
    let (words, labelMap) ← relabel part (n + 1) labelMap words
    return ({ w with toWord := word } :: words, labelMap)

def resetLabels (words : List GenWord) (part : Part) : Stateful Draws (List GenWord) := do
  let (words, labelMap) ← lift (relabel part 0 Dict.empty words)
  words.mapM fun w ↦ do
    let word ← w.toWord.repopLabel labelMap words.length part
    return { w with toWord := word }

/-- The loop of `mutate_words`: a word stays, stays with a new word behind it, or goes. -/
def mutateLoop (part : Part) (maxLabel : ℤ) : List GenWord → Generating (List GenWord)
  | [] => return []
  | word :: seedWords => do
    let rand ← onSnd Draws.random
    if Draws.below rand 1 2 then do
      let words ← mutateLoop part maxLabel seedWords
      return word :: words
    else if Draws.below rand 3 4 then do
      let newWord ← getWord part
      let newWord ← populateWord newWord maxLabel part
      let words ← mutateLoop part maxLabel seedWords
      return word :: newWord :: words
    else mutateLoop part maxLabel seedWords

def mutateWords (seedWords : List GenWord) (part : Part) (maxNum : ℕ) :
    Generating (List GenWord) := do
  let maxLabel : ℤ := if seedWords = [] then 0 else seedWords.length - 1
  let words ← mutateLoop part maxLabel seedWords
  let words ← onSnd (resetLabels (words.take maxNum) part)
  words.mapM fun w ↦
    if w.populated then return w else populateWord w (words.length - 1) part

/-- The copies of the words of a part of a test, which `get` changes. -/
def SimInput.seedWords (x : SimInput) : Part → List GenWord
  | .prefixPart => x.prefixWords.map Word.toGen
  | .mainPart => x.words.map Word.toGen
  | .suffixPart => x.suffixWords.map Word.toGen

namespace RvMutator

/-- `rvMutator(max_data_seeds, corpus_size, no_guide)`. -/
def init (maxDataSeeds corpusSize : ℕ) (noGuide : Bool) : RvMutator where
  maxData := maxDataSeeds
  randomData := Dict.empty
  dataSeeds := []
  corpusSize
  noGuide
  corpus := []
  phase := .generation
  numWords := 100

/-- The variables of `get` before the data: the words of the parts, the seed and the template of the
first parent, unless they are still `-1`, and the name suffix. -/
structure Parts where
  words : Part → List GenWord
  parent : Option (ℕ × ℕ)
  nameSuffix : Text

/-- The phase `GENERATION`. -/
def generate (m : RvMutator) : Generating Parts := do
  let prefixWords ← (List.range (maxWords .prefixPart)).mapM fun _ ↦ getWord .prefixPart
  let words ← (List.range m.numWords).mapM fun _ ↦ getWord .mainPart
  let suffixWords ← (List.range (maxWords .suffixPart)).mapM fun _ ↦ getWord .suffixPart
  return {
    words
      | .prefixPart => prefixWords
      | .mainPart => words
      | .suffixPart => suffixWords
    parent := none
    nameSuffix := "_gen".toList }

/-- The seed words of the phase `MUTATION`. -/
def mutationSeed (m : RvMutator) : Stateful Draws Parts := do
  let seed ← Draws.choice m.corpus
  return {
    words := seed.seedWords
    parent := some (seed.dataSeed, seed.template)
    nameSuffix := "_mut_".toList ++ Text.str seed.it }

/-- The seed words of the phase `MERGE`. -/
def mergeSeed (m : RvMutator) : Stateful Draws Parts := do
  let seed₁ ← Draws.choice m.corpus
  let seed₂ ← Draws.choice m.corpus
  let words₁ := seed₁.seedWords .mainPart
  let words₂ := seed₂.seedWords .mainPart
  let idx ← Draws.randint 0 (min words₁.length words₂.length : ℕ)
  return {
    words := Function.update seed₁.seedWords .mainPart
      (words₁.take idx.toNat ++ words₂.drop idx.toNat)
    parent := some (seed₁.dataSeed, seed₁.template)
    nameSuffix := "_mer_".toList ++ Text.str seed₁.it ++ "_".toList ++ Text.str seed₂.it }

/-- The phases `MUTATION` and `MERGE` after the choice of the seed words. -/
def mutateParts (seed : Parts) : Generating Parts := do
  let prefixWords ← mutateWords (seed.words .prefixPart) .prefixPart (maxWords .prefixPart)
  let words ← mutateWords (seed.words .mainPart) .mainPart (maxWords .mainPart)
  let suffixWords ← mutateWords (seed.words .suffixPart) .suffixPart (maxWords .suffixPart)
  return { seed with
    words
      | .prefixPart => prefixWords
      | .mainPart => words
      | .suffixPart => suffixWords }

def makeParts (m : RvMutator) : Generating Parts :=
  match m.phase with
  | .generation => m.generate
  | .mutation => do
    let seed ← onSnd m.mutationSeed
    mutateParts seed
  | .merge => do
    let seed ← onSnd m.mergeSeed
    mutateParts seed

/-- A loop of `get` that populates the words of a part. -/
def populateWords (words : List GenWord) (part : Part) : Generating (List Word) :=
  words.mapM fun w ↦ do
    let w ← populateWord w words.length part
    return w.toWord

/-- The interrupt values of `length` instructions. -/
def drawInts (length : ℕ) (assertIntr : Bool) : Stateful Draws (List ℤ) :=
  if assertIntr then do
    let idx ← Draws.randint 0 (min length 10 - 1)
    let int ← Draws.randint 0x1 0xf
    return (List.replicate length 0).set idx.toNat int
  else return List.replicate length 0

/-- The variables of `get` when it comes to the data. -/
structure Draft where
  prefixWords : List Word
  words : List Word
  suffixWords : List Word
  ints : List ℤ
  parent : Option (ℕ × ℕ)
  nameSuffix : Text

def makeDraft (m : RvMutator) (assertIntr : Bool) : Generating Draft := do
  let parts ← m.makeParts
  let prefixWords ← populateWords (parts.words .prefixPart) .prefixPart
  let words ← populateWords (parts.words .mainPart) .mainPart
  let suffixWords ← populateWords (parts.words .suffixPart) .suffixPart
  let ints ← onSnd (drawInts (words.map fun w ↦ w.insts.length).sum assertIntr)
  return { prefixWords, words, suffixWords, ints
           parent := parts.parent
           nameSuffix := parts.nameSuffix }

end RvMutator

/-- `update_data_seeds`. -/
def Mutator.updateDataSeeds (m : Mutator) (seed : ℕ) : Except PyError Mutator := do
  assert (m.dataSeeds.count seed = 1) (String.ofList (Text.dec (m.dataSeeds.count seed) ++
    " entrie(s) of ".toList ++ Text.dec seed ++ " exist in Mutator data_seeds".toList))
  return { m with dataSeeds := m.dataSeeds.erase seed ++ [seed] }

namespace RvMutator

/-- The data seed of a test: a new one, or that of the first parent. -/
def takeData (m : Mutator) (parent : Option (ℕ × ℕ)) (draws : Draws) :
    Except PyError (ℕ × Mutator × Draws) :=
  match parent with
  | none => m.addData [] draws
  | some (seed, _) => do
    let m ← m.updateDataSeeds seed
    return (seed, m, draws)

/-- The template of a test: any of the four up to `V_U`, or that of the first parent. -/
def takeTemplate (parent : Option (ℕ × ℕ)) (draws : Draws) : Except PyError (ℕ × Draws) :=
  match parent with
  | none => do
    let (template, draws) ← draws.randint 0 3
    return (template.toNat, draws)
  | some (_, template) => return (template, draws)

/-- The end of `get`: the data, the template and the test. -/
def finish (m : RvMutator) (it : ℕ) (draft : Draft) (draws : Draws) :
    Except PyError ((SimInput × List ℤ) × RvMutator × Draws) := do
  let (dataSeed, base, draws) ← takeData m.toMutator draft.parent draws
  let (template, draws) ← takeTemplate draft.parent draws
  let simInput := { SimInput.new draft.prefixWords draft.words draft.suffixWords draft.ints dataSeed
    template with it, nameSuffix := draft.nameSuffix }
  match base.randomData.get? dataSeed with
  | none => .error .keyError
  | some data => return ((simInput, data), { m with toMutator := base }, draws)

def get (m : RvMutator) (it : ℕ) (assertIntr : Bool) (draws : Draws) :
    Except PyError ((SimInput × List ℤ) × RvMutator × Draws) := do
  let (draft, s) ← m.makeDraft assertIntr (InstGenerator.start, draws)
  m.finish it draft s.2

/-- `update_phase`. -/
def updatePhase (m : RvMutator) (it : ℕ) (draws : Draws) : Except PyError (RvMutator × Draws) :=
  if it * 10 < m.corpusSize ∨ m.noGuide then .ok ({ m with phase := .generation }, draws)
  else do
    let (rand, draws) ← draws.random
    let phase :=
      if Draws.below rand 1 10 then Phase.generation
      else if Draws.below rand 11 20 then .mutation
      else .merge
    return ({ m with phase }, draws)

/-- `add_corpus`. -/
def addCorpus (m : RvMutator) (simInput : SimInput) : RvMutator :=
  let corpus := m.corpus ++ [simInput]
  { m with
    corpus := if m.corpusSize < corpus.length then corpus.tail else corpus
    numWords := min (m.numWords + 1) (maxWords .mainPart) }

/-- `read_siminput` of a file with the given contents. -/
def readTest (m : RvMutator) (contents : Text) (draws : Draws) :
    Except PyError ((SimInput × List ℤ × Bool) × RvMutator × Draws) := do
  let (result, base, draws) ← m.toMutator.readSiminput contents draws
  return (result, { m with toMutator := base }, draws)

/-- The words of `make_nop`, with the masked ones replaced. -/
def nopWords (part : Part) (target : List Word) (nopMask : List Bool) :
    Except PyError (List Word) :=
  (target.zip nopMask).mapM fun entry ↦
    if entry.2 then (Word.new entry.1.label ["nop".toList]).populate Dict.empty part
    else .ok entry.1

/-- The interrupt values of `make_nop`. The index `k` moves on by the new length of a word. -/
def nopInts (ints : List ℤ) : ℕ → List (Word × Bool) → Except PyError (List ℤ)
  | _, [] => .ok []
  | k, (word, mask) :: rest => do
    let new ←
      if mask then .ok (List.replicate word.insts.length 0)
      else (List.range word.insts.length).mapM fun j ↦ Text.item ints ((k + j : ℕ) : ℤ)
    let new' ← nopInts ints (k + word.insts.length) rest
    return new ++ new'

/-- The test of `make_nop` from the new words of the part. -/
def nopInput (x : SimInput) (newTarget : List Word) (nopMask : List Bool) :
    Part → Except PyError SimInput
  | .prefixPart =>
    .ok (SimInput.new newTarget x.words x.suffixWords x.ints x.dataSeed x.template)
  | .mainPart => do
    let newInts ← nopInts x.ints 0 (newTarget.zip nopMask)
    .ok (SimInput.new x.prefixWords newTarget x.suffixWords newInts x.dataSeed x.template)
  | .suffixPart =>
    .ok (SimInput.new x.prefixWords x.words newTarget x.ints x.dataSeed x.template)

def makeNop (m : RvMutator) (x : SimInput) (nopMask : List Bool) (part : Part) :
    Except PyError (SimInput × List ℤ) := do
  let target := match part with
    | .prefixPart => x.prefixWords
    | .mainPart => x.words
    | .suffixPart => x.suffixWords
  assert (target.length = nopMask.length) "Length of words and nop_mask are not equal"
  let newTarget ← nopWords part target nopMask
  let minInput ← nopInput x newTarget nopMask part
  match m.randomData.get? x.dataSeed with
  | none => .error .keyError
  | some data => return (minInput, data)

/-- The interrupt values of `delete_nop`, from the position `k` on. -/
def deleteInts (ints : List ℤ) : ℕ → List Word → List ℤ
  | _, [] => []
  | k, word :: words =>
    (if word.insts ≠ ["nop".toList] then (ints.drop k).take word.insts.length else []) ++
      deleteInts ints (k + word.insts.length) words

/-- A round of `delete_nop`. -/
def deleteWords (part : Part) (target : List Word) : Stateful Draws (List Word) := do
  let tmps := target.filter fun word ↦ word.insts ≠ ["nop".toList]
  let words ← resetLabels (tmps.map Word.toGen) part
  return words.map GenWord.toWord

def deleteNop (m : RvMutator) (x : SimInput) (draws : Draws) :
    Except PyError ((SimInput × List ℤ) × Draws) := do
  let (prefixWords, draws) ← deleteWords .prefixPart x.prefixWords draws
  let (words, draws) ← deleteWords .mainPart x.words draws
  let (suffixWords, draws) ← deleteWords .suffixPart x.suffixWords draws
  let delInput := SimInput.new prefixWords words suffixWords (deleteInts x.ints 0 x.words) x.dataSeed
    x.template
  match m.randomData.get? x.dataSeed with
  | none => .error .keyError
  | some data => return ((delInput, data), draws)

end RvMutator

end ProcessorFuzz.Mutation
