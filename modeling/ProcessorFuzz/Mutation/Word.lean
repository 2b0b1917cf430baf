import ProcessorFuzz.Library.Dict
import ProcessorFuzz.Library.Reading

/-!
# Instruction words

A word is a labelled sequence of instructions. `populate` fills the operands in and prints the
instructions: the label, or blanks, in the first eight columns and the instruction in the next 42.
`reset_label` prints another label in front of the first instruction. `repop_label` renames the
labels that the instructions jump to, and prints these instructions 50 columns wide.
-/

namespace ProcessorFuzz.Mutation

open Library

/-- The three parts of a test and the beginning of their labels. -/
inductive Part
  | prefixPart
  | mainPart
  | suffixPart
  deriving DecidableEq, Repr

/-- `PREFIX`, `MAIN` and `SUFFIX`. -/
def Part.text : Part → Text
  | prefixPart => "_p".toList
  | mainPart => "_l".toList
  | suffixPart => "_s".toList

structure Word where
  label : ℤ
  insts : List Text
  operands : List Text
  populated : Bool
  retInsts : List Text
  deriving DecidableEq

namespace Word

/-- The constructor with its default arguments, as `read_siminput` calls it. -/
def new (label : ℤ) (insts : List Text) (xregs fregs : List Text := [])
    (imms : List (Text × ℕ) := []) (symbols : List Text := []) : Word where
  label
  insts
  operands := xregs ++ fregs ++ imms.map Prod.fst ++ symbols
  populated := false
  retInsts := []

def popInst (inst : Text) (opvals : Dict Text Text) : Text :=
  opvals.entries.foldl (fun inst entry ↦ Text.replace entry.1 entry.2 inst) inst

/-- `part + str(label) + ':'`. -/
def labelText (part : Part) (label : ℤ) : Text := part.text ++ Text.str label ++ [':']

def populate (w : Word) (opvals : Dict Text Text) (part : Part) : Except PyError Word := do
  w.operands.forM fun op ↦
    assert (decide (op ∈ opvals.keys)) (String.ofList (op ++ " is not in label ".toList ++
      Text.str w.label ++ " Word opvals".toList))
  match w.insts.map fun inst ↦ popInst inst opvals with
  | [] => .error .indexError
  | first :: rest =>
    return { w with
      populated := true
      retInsts := (Text.ljust 8 (labelText part w.label) ++ Text.ljust 42 first) ::
        rest.map fun inst ↦ Text.ljust 8 [] ++ Text.ljust 42 inst }

def resetLabel (w : Word) (newLabel : ℤ) (part : Part) :
    Except PyError (Word × Option (ℤ × ℤ)) :=
  if w.populated then
    match w.retInsts with
    | [] => .error .indexError
    | first :: rest =>
      .ok ({ w with
        label := newLabel
        retInsts := (Text.ljust 8 (labelText part newLabel) ++ Text.ljust 42 (first.drop 8)) ::
          rest }, some (w.label, newLabel))
  else .ok ({ w with label := newLabel }, none)

/-- The body of the loop of `repop_label`. The default of `label_map.get` is drawn in any case. -/
def repopInst (w : Word) (labelMap : Dict ℤ ℤ) (maxLabel : ℤ) (part : Part) (draws : Draws)
    (inst : Text) : Except PyError (Text × Draws) :=
  match Text.split (", ".toList ++ part.text) inst with
  | _ :: tail :: _ => do
    let old ← Text.int 10 ((Text.split [' '] tail)[0]?.getD [])
    let (random, draws) ← draws.randint (w.label + 1) maxLabel
    let new := labelMap.getD old random
    let newInst := Text.replace (part.text ++ Text.str old) (part.text ++ Text.str new)
      (inst.drop 8)
    return (Text.ljust 8 (inst.take 8) ++ Text.ljust 50 newInst, draws)
  | _ => return (inst, draws)

def repopLabel (w : Word) (labelMap : Dict ℤ ℤ) (maxLabel : ℤ) (part : Part) (draws : Draws) :
    Except PyError (Word × Draws) :=
  if w.populated then do
    let (retInsts, draws) ← w.retInsts.foldlM (fun state inst ↦ do
      let (inst, draws) ← repopInst w labelMap maxLabel part state.2 inst
      return (state.1 ++ [inst], draws)) ([], draws)
    return ({ w with retInsts }, draws)
  else return (w, draws)

def getInsts (w : Word) : Except PyError (List Text) := do
  assert w.populated "Word is not populated"
  return w.retInsts

/-- Words that the three methods make, in any order. -/
inductive Made (part : Part) : Word → Prop
  | populate {w w' : Word} {opvals : Dict Text Text} (h : w.populate opvals part = .ok w') :
    Made part w'
  | resetLabel {w w' : Word} {newLabel : ℤ} {labels : Option (ℤ × ℤ)} (hw : Made part w)
    (h : w.resetLabel newLabel part = .ok (w', labels)) : Made part w'
  | repopLabel {w w' : Word} {labelMap : Dict ℤ ℤ} {maxLabel : ℤ} {draws draws' : Draws}
    (hw : Made part w) (h : w.repopLabel labelMap maxLabel part draws = .ok (w', draws')) :
    Made part w'

/-- Eight columns and then a text of at least 42 columns. -/
def InColumns (columns inst : Text) : Prop := ∃ text, 42 ≤ text.length ∧ inst = columns ++ text

/-- A printed word: its label, if it fits, is in the first eight columns of the first line, and the
other lines begin with eight blanks. -/
structure Printed (part : Part) (w : Word) : Prop where
  populated : w.populated = true
  lines : ∃ first rest, w.retInsts = first :: rest ∧
    (0 ≤ w.label → w.label < 100000 → InColumns (Text.ljust 8 (labelText part w.label)) first) ∧
    ∀ inst ∈ rest, InColumns (List.replicate 8 ' ') inst

theorem length_labelText {part : Part} {label : ℤ} (h₀ : 0 ≤ label) (h : label < 100000) :
    (labelText part label).length ≤ 8 := by
  lift label to ℕ using h₀
  have hdec : (Text.dec label).length ≤ 5 := Text.length_dec_le (by decide) (by omega)
  have hpart : part.text.length = 2 := by cases part <;> rfl
  have hstr : Text.str (label : ℤ) = Text.dec label := rfl
  rw [labelText, hstr, List.length_append, List.length_append, hpart, List.length_singleton]
  omega

theorem inColumns_ljust (columns text : Text) {width : ℕ} (h : 42 ≤ width) :
    InColumns columns (columns ++ Text.ljust width text) := by
  refine ⟨Text.ljust width text, ?_, rfl⟩
  rw [Text.length_ljust]
  omega

theorem Printed.of_populate {part : Part} {w w' : Word} {opvals : Dict Text Text}
    (h : w.populate opvals part = .ok w') : Printed part w' := by
  unfold populate at h
  obtain ⟨-, -, h⟩ := bind_eq_ok.mp h
  split at h
  · exact nomatch h
  · next first rest _ =>
    obtain rfl := Except.ok.inj h
    refine ⟨rfl, _, _, rfl, fun _ _ ↦ inColumns_ljust _ _ (by decide), fun inst hinst ↦ ?_⟩
    obtain ⟨text, -, rfl⟩ := List.mem_map.mp hinst
    exact inColumns_ljust _ _ (by decide)

theorem Printed.resetLabel {part : Part} {w w' : Word} {newLabel : ℤ} {labels : Option (ℤ × ℤ)}
    (hw : Printed part w) (h : w.resetLabel newLabel part = .ok (w', labels)) :
    Printed part w' := by
  obtain ⟨first, rest, hlines, -, hrest⟩ := hw.lines
  rw [Word.resetLabel, if_pos hw.populated, hlines] at h
  obtain ⟨rfl, -⟩ := Prod.mk.inj (Except.ok.inj h)
  exact ⟨hw.populated, _, rest, rfl, fun _ _ ↦ inColumns_ljust _ _ (by decide), hrest⟩

/-- A renamed instruction keeps its first eight columns. -/
theorem inColumns_repopInst {w : Word} {labelMap : Dict ℤ ℤ} {maxLabel : ℤ} {part : Part}
    {draws draws' : Draws} {columns inst inst' : Text} (hcolumns : columns.length = 8)
    (hinst : InColumns columns inst)
    (h : repopInst w labelMap maxLabel part draws inst = .ok (inst', draws')) :
    InColumns columns inst' := by
  unfold repopInst at h
  split at h
  · obtain ⟨old, -, h⟩ := bind_eq_ok.mp h
    obtain ⟨random, -, h⟩ := bind_eq_ok.mp h
    obtain ⟨rfl, -⟩ := Prod.mk.inj (Except.ok.inj h)
    obtain ⟨text, -, rfl⟩ := hinst
    have hfirst : Text.ljust 8 ((columns ++ text).take 8) = columns := by
      rw [List.take_left' hcolumns, Text.ljust_eq_append, hcolumns]
      exact List.append_nil columns
    rw [hfirst]
    exact inColumns_ljust _ _ (by decide)
  · obtain ⟨rfl, -⟩ := Prod.mk.inj (Except.ok.inj h)
    exact hinst

/-- The loop of `repop_label` renames line by line. -/
theorem repopInsts_forall₂ {w : Word} {labelMap : Dict ℤ ℤ} {maxLabel : ℤ} {part : Part}
    {R : Text → Text → Prop} (hR : ∀ {inst inst' : Text} {draws draws' : Draws},
      repopInst w labelMap maxLabel part draws inst = .ok (inst', draws') → R inst inst')
    {insts done : List Text} {draws : Draws} {state : List Text × Draws}
    (h : insts.foldlM (fun state inst ↦ do
      let (inst, draws) ← repopInst w labelMap maxLabel part state.2 inst
      return (state.1 ++ [inst], draws)) (done, draws) = .ok state) :
    ∃ new, state.1 = done ++ new ∧ List.Forall₂ R insts new := by
  induction insts generalizing done draws with
  | nil =>
    obtain rfl := Except.ok.inj h
    exact ⟨[], (List.append_nil done).symm, .nil⟩
  | cons inst insts ih =>
    rw [List.foldlM_cons] at h
    obtain ⟨next, hnext, hrest⟩ := bind_eq_ok.mp h
    obtain ⟨⟨inst', draws'⟩, hinst, hnext⟩ := bind_eq_ok.mp hnext
    obtain rfl := Except.ok.inj hnext
    obtain ⟨new, hnew, hforall⟩ := ih hrest
    exact ⟨inst' :: new, by simpa using hnew, .cons (hR hinst) hforall⟩

/-- What `repop_label` changes in a populated word are its lines. -/
theorem repopLabel_eq_ok {w w' : Word} (hw : w.populated = true) {labelMap : Dict ℤ ℤ}
    {maxLabel : ℤ} {part : Part} {draws draws' : Draws}
    (h : w.repopLabel labelMap maxLabel part draws = .ok (w', draws')) {R : Text → Text → Prop}
    (hR : ∀ {inst inst' : Text} {draws draws' : Draws},
      repopInst w labelMap maxLabel part draws inst = .ok (inst', draws') → R inst inst') :
    ∃ retInsts, w' = { w with retInsts } ∧ List.Forall₂ R w.retInsts retInsts := by
  rw [Word.repopLabel, if_pos hw] at h
  obtain ⟨state, hstate, h⟩ := bind_eq_ok.mp h
  obtain ⟨rfl, -⟩ := Prod.mk.inj (Except.ok.inj h)
  obtain ⟨new, hnew, hforall⟩ := repopInsts_forall₂ hR hstate
  rw [List.nil_append] at hnew
  exact ⟨state.1, rfl, hnew ▸ hforall⟩

theorem Printed.repopLabel {part : Part} {w w' : Word} {labelMap : Dict ℤ ℤ} {maxLabel : ℤ}
    {draws draws' : Draws} (hw : Printed part w)
    (h : w.repopLabel labelMap maxLabel part draws = .ok (w', draws')) : Printed part w' := by
  obtain ⟨retInsts, rfl, hforall⟩ := repopLabel_eq_ok hw.populated h
    (R := fun inst inst' ↦ ∀ columns : Text,
      columns.length = 8 → InColumns columns inst → InColumns columns inst')
    fun hinst columns hcolumns hin ↦ inColumns_repopInst hcolumns hin hinst
  obtain ⟨first, rest, hlines, hfirst, hrest⟩ := hw.lines
  rw [hlines] at hforall
  obtain ⟨first', rest', hfirst', hrest', rfl⟩ := List.forall₂_cons_left_iff.mp hforall
  refine ⟨hw.populated, first', rest', rfl, fun h₀ hlt ↦ ?_, fun inst' hinst' ↦ ?_⟩
  · have hcolumns : (Text.ljust 8 (labelText part w.label)).length = 8 := by
      rw [Text.length_ljust, Nat.max_eq_left (length_labelText h₀ hlt)]
    exact hfirst' _ hcolumns (hfirst h₀ hlt)
  · obtain ⟨n, hn, rfl⟩ := List.getElem_of_mem hinst'
    have hlength := hrest'.length_eq
    have hn' : n < rest.length := hlength ▸ hn
    exact hrest'.get hn' hn _ List.length_replicate (hrest _ (List.getElem_mem hn'))

/-- Whatever the methods make is printed in columns. -/
theorem Made.printed {part : Part} {w : Word} (h : Made part w) : Printed part w := by
  induction h with
  | populate h => exact .of_populate h
  | resetLabel _ h ih => exact ih.resetLabel h
  | repopLabel _ h ih => exact ih.repopLabel h

end Word

end ProcessorFuzz.Mutation
