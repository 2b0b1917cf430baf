import ProcessorFuzz.Mutation.Word

/-!
# The `.si` test files

A test consists of three parts of words, one interrupt value for each main instruction and the data
of the test. `save` prints one instruction in a line, with its interrupt value behind it in the main
part, and `read_siminput` reads the columns back: a line that begins with the label of a part begins
a word of this part, any other line continues the word before it.
-/

namespace ProcessorFuzz.Mutation

open Library

/-- `templates`, indexed by `P_M`, `P_S`, `P_U` and `V_U`. -/
def templates : List Text := ["p-m", "p-s", "p-u", "v-u"].map String.toList

structure SimInput where
  prefixWords : List Word
  words : List Word
  suffixWords : List Word
  ints : List ℤ
  numPrefix : ℕ
  numWords : ℕ
  numSuffix : ℕ
  dataSeed : ℕ
  template : ℕ
  it : ℕ
  nameSuffix : Text

namespace SimInput

/-- The constructor. -/
def new (prefixWords words suffixWords : List Word) (ints : List ℤ) (dataSeed template : ℕ) :
    SimInput where
  prefixWords
  words
  suffixWords
  ints
  numPrefix := prefixWords.length
  numWords := words.length
  numSuffix := suffixWords.length
  dataSeed
  template
  it := 0
  nameSuffix := []

/-- The lines of the words of a part, and the label after the last word. -/
def partInsts (part : Part) (words : List Word) (num : ℕ) : Except PyError (List Text) := do
  let insts ← words.foldlM (fun insts word ↦ do return insts ++ (← word.getInsts)) []
  return insts ++ [Word.labelText part num]

def getPrefix (x : SimInput) : Except PyError (List Text) :=
  partInsts .prefixPart x.prefixWords x.numPrefix

def getInsts (x : SimInput) : Except PyError (List Text) :=
  partInsts .mainPart x.words x.numWords

def getSuffix (x : SimInput) : Except PyError (List Text) :=
  partInsts .suffixPart x.suffixWords x.numSuffix

/-- The contents of the file that `save` writes. -/
def save (x : SimInput) (data : List ℤ) : Except PyError Text := do
  let prefixInsts ← x.getPrefix
  let insts ← x.getInsts
  let suffixInsts ← x.getSuffix
  let template ← Text.item templates x.template
  return template ++ "\n\n".toList ++
    (prefixInsts.dropLast.flatMap fun inst ↦ Text.ljust 50 inst ++ ['\n']) ++
    ((insts.zip x.ints).flatMap fun entry ↦
      Text.ljust 50 entry.1 ++ Text.zeroPadInt 2 4 entry.2 ++ ['\n']) ++
    (suffixInsts.dropLast.flatMap fun inst ↦ Text.ljust 50 inst ++ ['\n']) ++
    if data = [] then []
    else "data:\n".toList ++ data.flatMap fun word ↦ Text.zeroPadInt 16 16 word ++ ['\n']

end SimInput

/-- The data that a mutator keeps for its seeds. -/
structure Mutator where
  maxData : ℕ
  randomData : Dict ℕ (List ℤ)
  dataSeeds : List ℕ

namespace Mutator

/-- `[ random.randint(0, 0xffffffffffffffff) for i in range(n) ]`. -/
def randomWords : ℕ → Draws → Except PyError (List ℤ × Draws)
  | 0, draws => .ok ([], draws)
  | n + 1, draws => do
    let (word, draws) ← draws.randint 0 0xffffffffffffffff
    let (words, draws) ← randomWords n draws
    return (word :: words, draws)

/-- `add_data`: the oldest seed is reused when there is no room for another one. -/
def addData (m : Mutator) (newData : List ℤ) (draws : Draws) :
    Except PyError (ℕ × Mutator × Draws) := do
  let (seed, seeds) ←
    if m.dataSeeds.length = m.maxData then
      match m.dataSeeds with
      | [] => .error .indexError
      | seed :: seeds => .ok (seed, seeds)
    else .ok (m.dataSeeds.length, m.dataSeeds)
  let (words, draws) ←
    if newData = [] then randomWords (64 * 6) draws else .ok (newData, draws)
  return (seed, { m with
    randomData := m.randomData.set seed words
    dataSeeds := seeds ++ [seed] }, draws)

end Mutator

/-- The variables of the loop of `read_siminput`. `tmp` is the list of tuples that the last label
belongs to, with the number of the word. -/
structure Reader where
  ints : List ℤ
  tuples : Part → List (ℤ × List Text)
  num : Part → ℕ
  part : Option Part
  tmp : Option (Part × ℕ)

namespace Reader

def start : Reader where
  ints := []
  tuples _ := []
  num _ := 0
  part := none
  tmp := none

/-- The part whose label a line begins with. -/
def linePart (line : Text) : Option Part :=
  if line.take 2 = Part.prefixPart.text then some .prefixPart
  else if line.take 2 = Part.mainPart.text then some .mainPart
  else if line.take 2 = Part.suffixPart.text then some .suffixPart
  else none

def readLabel (line : Text) (tuples : List (ℤ × List Text)) :
    Except PyError (List (ℤ × List Text)) := do
  let label := (Text.split [':'] (line.take 8))[0]?.getD []
  let labelNum ← Text.int 10 (label.drop 2)
  return tuples ++ [(labelNum, [])]

/-- A label begins the next word of its part. -/
def enter (r : Reader) (line : Text) : Except PyError Reader :=
  match linePart line with
  | none => .ok r
  | some part => do
    let tuples ← readLabel line (r.tuples part)
    return { r with
      part := some part
      num := Function.update r.num part (r.num part + 1)
      tuples := Function.update r.tuples part tuples
      tmp := some (part, r.num part + 1) }

/-- `tmp_tuples[num_tmp - 1][1].append(inst)`. -/
def append (r : Reader) (inst : Text) : Except PyError Reader :=
  match r.tmp with
  | none => .error .typeError
  | some (part, num) =>
    if num - 1 < (r.tuples part).length then
      .ok { r with
        tuples := Function.update r.tuples part
          ((r.tuples part).modify (num - 1) fun tup ↦ (tup.1, tup.2 ++ [inst])) }
    else .error .indexError

/-- A line before the data. -/
def readLine (r : Reader) (line : Text) : Except PyError Reader := do
  let r ← r.enter line
  let r ← r.append (Text.slice line 8 50)
  if r.part = some .mainPart then do
    let int ← Text.int 2 (Text.slice line (-5) (-1))
    return { r with ints := r.ints ++ [int] }
  else return r

/-- The loop over the lines after the header, with the data that it finds. -/
def readLines : List Text → Reader → Except PyError (Reader × List ℤ)
  | [], r => .ok (r, [])
  | line :: lines, r =>
    if "data:".toList <:+: line then do
      let data ← lines.mapM (Text.int 16)
      return ({ r with part := none }, data)
    else do
      let r ← r.readLine line
      readLines lines r

end Reader

namespace Mutator

def tuplesToWords (tuples : List (ℤ × List Text)) (part : Part) : Except PyError (List Word) :=
  tuples.mapM fun tup ↦ (Word.new tup.1 tup.2).populate Dict.empty part

/-- `templates.index(word)`. -/
def templateIndex (word : Text) : Except PyError ℕ :=
  if word ∈ templates then .ok (templates.idxOf word) else .error .valueError

/-- `read_siminput` of a file with the given contents. -/
def readSiminput (m : Mutator) (contents : Text) (draws : Draws) :
    Except PyError ((SimInput × List ℤ × Bool) × Mutator × Draws) :=
  match Text.readlines contents with
  | [] => .error .indexError
  | templateLine :: lines => do
    let template ← templateIndex ((Text.split ['\n'] templateLine)[0]?.getD [])
    match lines with
    | [] => .error .indexError
    | _ :: lines => do
      let (r, data) ← Reader.readLines lines Reader.start
      let prefixWords ← tuplesToWords (r.tuples .prefixPart) .prefixPart
      let words ← tuplesToWords (r.tuples .mainPart) .mainPart
      let suffixWords ← tuplesToWords (r.tuples .suffixPart) .suffixPart
      let (dataSeed, m, draws) ← m.addData data draws
      let simInput := SimInput.new prefixWords words suffixWords r.ints dataSeed template
      match m.randomData.get? dataSeed with
      | none => .error .keyError
      | some data => return ((simInput, data, r.ints.any (· ≠ 0)), m, draws)

end Mutator

end ProcessorFuzz.Mutation
