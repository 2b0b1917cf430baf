import ProcessorFuzz.Mutation.RvMutator

/-!
# The test case processor

The stand-alone script generates a test and mutates it. It has an instruction generator besides the
one of its mutator, and neither is reset: `generate_initial_test` draws its words from the first one,
and `mutate_test_case` inserts words of the second one into the main part of a file. The files are a
dictionary from their paths to their contents.
-/

namespace ProcessorFuzz.Mutation

open Library Library.Stateful Generating

/-- The fields of the processor that the two methods use, and the files. -/
structure TestCaseProcessor where
  outputDir : Text
  files : Dict Text Text
  mutator : RvMutator
  mutatorGenerator : InstGenerator
  instGenerator : InstGenerator

/-- `os.path.join(dir, name)`. -/
def pathJoin (dir name : Text) : Text :=
  if name.head? = some '/' then name
  else if dir = [] ∨ dir.getLast? = some '/' then dir ++ name
  else dir ++ '/' :: name

/-- `len(words) - 1 if words else 0`. -/
def lastLabel (words : List GenWord) : ℤ := if words = [] then 0 else words.length - 1

namespace TestCaseProcessor

/-- The processor with a new mutator and a new generator. -/
def init (outputDir : Text) (files : Dict Text Text) : TestCaseProcessor where
  outputDir
  files
  mutator := RvMutator.init 20 100 false
  mutatorGenerator := InstGenerator.start
  instGenerator := InstGenerator.start

/-- A loop that populates the words of a part up to the label of its last one. -/
def populatePart (part : Part) (words : List GenWord) : Generating (List Word) :=
  words.mapM fun w ↦ do
    let w ← populateWord w (lastLabel words) part
    return w.toWord

/-- The templates of the words of the first test. -/
def initialTemplates : Generating (Part → List GenWord) := do
  let prefixWords ← (List.range 5).mapM fun _ ↦ getWord .prefixPart
  let mainWords ← (List.range 15).mapM fun _ ↦ getWord .mainPart
  let suffixWords ← (List.range 3).mapM fun _ ↦ getWord .suffixPart
  return fun
    | .prefixPart => prefixWords
    | .mainPart => mainWords
    | .suffixPart => suffixWords

/-- The words of the first test. -/
def initialWords : Generating (Part → List Word) := do
  let templates ← initialTemplates
  let prefixWords ← populatePart .prefixPart (templates .prefixPart)
  let mainWords ← populatePart .mainPart (templates .mainPart)
  let suffixWords ← populatePart .suffixPart (templates .suffixPart)
  return fun
    | .prefixPart => prefixWords
    | .mainPart => mainWords
    | .suffixPart => suffixWords

/-- The end of `generate_initial_test`: the data, the test and its file. -/
def saveInitial (p : TestCaseProcessor) (testName : Text) (templateVersion : ℕ)
    (words : Part → List Word) (draws : Draws) :
    Except PyError ((Text × SimInput × ℕ) × TestCaseProcessor × Draws) := do
  let (dataSeed, base, draws) ← p.mutator.addData [] draws
  let ints := List.replicate ((words .mainPart).map fun w ↦ w.insts.length).sum 0
  let simInput := SimInput.new (words .prefixPart) (words .mainPart) (words .suffixPart) ints
    dataSeed templateVersion
  let outputPath := pathJoin p.outputDir (testName ++ ".si".toList)
  match base.randomData.get? dataSeed with
  | none => .error .keyError
  | some data => do
    let contents ← simInput.save data
    return ((outputPath, simInput, dataSeed), { p with
      files := p.files.set outputPath contents
      mutator := { p.mutator with toMutator := base } }, draws)

def generateInitialTest (p : TestCaseProcessor) (testName : Text) (templateVersion : ℕ)
    (draws : Draws) : Except PyError ((Text × SimInput × ℕ) × TestCaseProcessor × Draws) := do
  let (words, instGenerator, draws) ← initialWords (p.instGenerator, draws)
  { p with instGenerator }.saveInitial testName templateVersion words draws

/-- A round of `mutate_test_case`. The file is read again in each one. -/
def mutateRound (inputPath mutateName : Text) (i : ℕ) :
    Stateful (TestCaseProcessor × Draws) (Text × SimInput × ℕ) := fun (p, draws) ↦
  match p.files.get? inputPath with
  | none => .error .fileNotFoundError
  | some contents => do
    let ((simInput, data, _), mutator, draws) ← p.mutator.readTest contents draws
    let dataSeed := simInput.dataSeed
    let (mutatedMain, mutatorGenerator, draws) ←
      mutateWords (simInput.seedWords .mainPart) .mainPart 20 (p.mutatorGenerator, draws)
    let simInput := { simInput with
      words := mutatedMain.map GenWord.toWord
      numWords := mutatedMain.length }
    let outputPath := pathJoin p.outputDir
      (mutateName ++ '_' :: Text.dec (i + 1) ++ ".si".toList)
    let contents ← simInput.save data
    return ((outputPath, simInput, dataSeed), { p with
      files := p.files.set outputPath contents
      mutator
      mutatorGenerator }, draws)

def mutateTestCase (inputPath mutateName : Text) (mutateCount : ℕ) :
    Stateful (TestCaseProcessor × Draws) (Option (List (Text × SimInput × ℕ))) := fun s ↦
  if inputPath ∈ s.1.files.keys then do
    let (results, s) ← (List.range mutateCount).mapM (mutateRound inputPath mutateName) s
    return (some results, s)
  else .ok (none, s)

end TestCaseProcessor

end ProcessorFuzz.Mutation
