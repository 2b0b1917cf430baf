import ProcessorFuzz.Mutation.SimInputLines

/-!
# What is saved is read back

The words that are read are the saved words with their lines cut after 50 columns. They can be saved
again, and cutting their lines once more changes nothing, so that the second file is the last one.
-/

namespace ProcessorFuzz.Mutation

open Library Word

/-- The word that is made of what is read for a word. -/
def reread (w : Word) : Word where
  label := w.label
  insts := (wordTuple w).2
  operands := []
  populated := true
  retInsts := w.retInsts.map (List.take 50)

theorem take_append_eq_ljust {columns text : Text} (hcolumns : columns.length = 8)
    (hwide : 42 ≤ text.length) :
    columns ++ Text.ljust 42 (text.take 42) = (columns ++ text).take 50 := by
  have hlength : (text.take 42).length = 42 := List.length_take_of_le hwide
  calc
    columns ++ Text.ljust 42 (text.take 42) = columns ++ text.take 42 := by
      rw [Text.ljust_eq_append, hlength, Nat.sub_self, List.replicate_zero, List.append_nil]
    _ = (columns ++ text).take (columns.length + 42) := (List.take_length_add_append 42).symm
    _ = (columns ++ text).take 50 := by rw [hcolumns]

theorem populate_wordTuple {part : Part} {w : Word} (hw : Columned part w) :
    (Word.new (wordTuple w).1 (wordTuple w).2).populate Dict.empty part = .ok (reread w) := by
  obtain ⟨first, rest, hlines, hfirst, hrest⟩ := hw.printed.lines
  obtain ⟨text, hwide, hline⟩ := hfirst hw.label_nonneg hw.label_lt
  have hcolumns : (Text.ljust 8 (labelText part w.label)).length = 8 := by
    rw [Text.length_ljust, Nat.max_eq_left (length_labelText hw.label_nonneg hw.label_lt)]
  have hprint : Text.ljust 8 (labelText part w.label) ++ Text.ljust 42 ((first.drop 8).take 42) =
      first.take 50 := by
    rw [hline, List.drop_left' hcolumns]
    exact take_append_eq_ljust hcolumns hwide
  have hprints : (rest.map fun inst ↦ (inst.drop 8).take 42).map
      (fun inst ↦ Text.ljust 8 [] ++ Text.ljust 42 inst) = rest.map (List.take 50) := by
    rw [List.map_map]
    apply List.map_congr_left
    intro inst hinst
    obtain ⟨text, hwide, rfl⟩ := hrest inst hinst
    rw [Function.comp_apply, List.drop_left' List.length_replicate]
    exact take_append_eq_ljust List.length_replicate hwide
  have hpop : ∀ insts : List Text,
      insts.map (fun inst ↦ popInst inst (Dict.empty : Dict Text Text)) = insts := fun insts ↦
    List.map_id insts
  rw [reread, wordTuple, hlines, populate, hpop]
  simp only [Word.new, List.map_cons, hprint, hprints]
  rfl

/-- The blanks at the end of a text have no part in `data:`. -/
theorem data_infix_rstrip_iff (text : Text) :
    "data:".toList <:+: Text.rstrip text ↔ "data:".toList <:+: text := by
  obtain ⟨blanks, htext, hblanks⟩ := Text.exists_rstrip_append text
  have hcolon : ':' ∉ blanks := fun hmem ↦ absurd (hblanks ':' hmem) (by decide)
  have hsplit : "data:".toList = "data".toList ++ [':'] := rfl
  conv_rhs => rw [htext]
  rw [hsplit, Text.infix_append_iff_of_not_mem_right hcolon]

/-- What is read is readable. -/
theorem Columned.reread {part : Part} {w : Word} (hw : Columned part w) :
    Readable part (reread w) := by
  have hlines : ∀ inst ∈ (Mutation.reread w).retInsts, ∃ inst₀ ∈ w.retInsts,
      inst.drop 8 = (inst₀.drop 8).take 42 := by
    intro inst hinst
    obtain ⟨inst₀, hinst₀, rfl⟩ := List.mem_map.mp hinst
    refine ⟨inst₀, hinst₀, ?_⟩
    rw [List.drop_take]
  refine ⟨.populate (populate_wordTuple hw), hw.label_nonneg, hw.label_lt, ?_, ?_, ?_⟩
  · intro inst hinst
    obtain ⟨inst₀, hinst₀, heq⟩ := hlines inst hinst
    rw [heq]
    exact (Text.length_rstrip_le _).trans (List.length_take_le 42 _)
  · intro inst hinst hdata
    obtain ⟨inst₀, hinst₀, heq⟩ := hlines inst hinst
    rw [heq, data_infix_rstrip_iff] at hdata
    have hwithin := hdata.trans (List.take_prefix 42 (inst₀.drop 8)).isInfix
    exact hw.noData inst₀ hinst₀ ((data_infix_rstrip_iff _).mpr hwithin)
  · intro inst hinst c hc
    obtain ⟨inst₀, hinst₀, heq⟩ := hlines inst hinst
    rw [heq] at hc
    exact hw.lineText inst₀ hinst₀ c (List.mem_of_mem_take hc)

/-- The same word up to the blanks behind its instructions. -/
structure SameWord (w w' : Word) : Prop where
  label : w'.label = w.label
  populated : w'.populated = true
  text : w'.retInsts.map (fun inst ↦ Text.rstrip (inst.drop 8)) =
    w.retInsts.map fun inst ↦ Text.rstrip (inst.drop 8)

/-- A word is read back as long as none of its instructions is cut. -/
theorem sameWord_reread_iff {w : Word} : SameWord w (Mutation.reread w) ↔
    ∀ inst ∈ w.retInsts, (Text.rstrip (inst.drop 8)).length ≤ 42 := by
  have htext : (Mutation.reread w).retInsts.map (fun inst ↦ Text.rstrip (inst.drop 8)) =
      w.retInsts.map fun inst ↦ Text.rstrip ((inst.drop 8).take 42) := by
    rw [Mutation.reread, List.map_map]
    apply List.map_congr_left
    intro inst _
    rw [Function.comp_apply, List.drop_take]
  constructor
  · intro h inst hinst
    have heq := List.map_inj_left.mp (htext.symm.trans h.text) inst hinst
    rw [← heq]
    exact (Text.length_rstrip_le _).trans (List.length_take_le 42 _)
  · intro h
    refine ⟨rfl, rfl, htext.trans (List.map_congr_left fun inst hinst ↦ ?_)⟩
    exact Text.rstrip_take (h inst hinst)

theorem Readable.sameWord {part : Part} {w : Word} (hw : Readable part w) :
    SameWord w (Mutation.reread w) := sameWord_reread_iff.mpr hw.short

/-- The words of a part. -/
def SimInput.partWords (x : SimInput) : Part → List Word
  | .prefixPart => x.prefixWords
  | .mainPart => x.words
  | .suffixPart => x.suffixWords

/-- A test that the format can hold. -/
structure SimInput.Readable (x : SimInput) : Prop where
  words : ∀ part, ∀ w ∈ x.partWords part, Mutation.Readable part w
  template : x.template < templates.length
  length_ints : x.ints.length = (x.words.flatMap retInsts).length
  ints : ∀ int ∈ x.ints, 0 ≤ int ∧ int ≤ 15

/-- A test whose lines are in the columns of the format. -/
structure SimInput.Columned (x : SimInput) : Prop where
  words : ∀ part, ∀ w ∈ x.partWords part, Mutation.Columned part w
  template : x.template < templates.length
  length_ints : x.ints.length = (x.words.flatMap retInsts).length
  ints : ∀ int ∈ x.ints, 0 ≤ int ∧ int ≤ 15

theorem SimInput.Readable.columned {x : SimInput} (hx : x.Readable) : x.Columned :=
  ⟨fun part w hw ↦ (hx.words part w hw).columned, hx.template, hx.length_ints, hx.ints⟩

/-- The interrupt values behind the lines of a part; no line of the outer parts has one. -/
def SimInput.intsOf (x : SimInput) : Part → List ℤ
  | .mainPart => x.ints
  | part => List.replicate ((x.partWords part).flatMap retInsts).length 0

/-- The lines of the words of a part. -/
def SimInput.partLines (x : SimInput) (part : Part) : List Text :=
  ((x.partWords part).flatMap retInsts).zip (x.intsOf part) |>.map fun entry ↦
    printLine part entry.1 entry.2

/-- The lines of the file. -/
def SimInput.fileLines (x : SimInput) (data : List ℤ) : List Text :=
  (templates[x.template]?.getD [] :: [] :: x.partLines .prefixPart) ++ x.partLines .mainPart ++
    x.partLines .suffixPart ++ "data:".toList :: data.map (Text.zeroPadInt 16 16)

theorem partInsts_eq {part : Part} {words : List Word}
    (h : ∀ w ∈ words, w.populated = true) (num : ℕ) :
    SimInput.partInsts part words num =
      .ok (words.flatMap retInsts ++ [labelText part num]) := by
  have hrun : words.foldlM (fun insts word ↦ do return insts ++ (← word.getInsts))
      ([] : List Text) =
      (.ok (words.foldl (fun insts w ↦ insts ++ w.retInsts) []) : Except PyError (List Text)) := by
    apply foldlM_eq_ok
    intro w hw insts
    rw [getInsts, h w hw]
    rfl
  rw [SimInput.partInsts, hrun, ok_bind, ← List.flatMap_eq_foldl]
  rfl

theorem Columned.exists_isLine {part : Part} {w : Word} (hw : Columned part w) {inst : Text}
    (hinst : inst ∈ w.retInsts) {int : ℤ} (hint : Reader.IsInt int) :
    ∃ label, IsLine part label (inst.drop 8) inst int := by
  obtain ⟨first, rest, hlines, hfirst, hrest⟩ := hw.lines
  rw [hlines] at hinst
  rcases List.mem_cons.mp hinst with rfl | hinst
  · exact ⟨some w.label, hfirst int hint.1 hint.2⟩
  · exact ⟨none, hrest inst hinst int hint.1 hint.2⟩

namespace SimInput

variable {x : SimInput}

theorem length_intsOf (hx : x.Columned) (part : Part) :
    ((x.partWords part).flatMap retInsts).length = (x.intsOf part).length := by
  cases part with
  | mainPart => exact hx.length_ints.symm
  | prefixPart => exact List.length_replicate.symm
  | suffixPart => exact List.length_replicate.symm

theorem isInt_intsOf (hx : x.Columned) {part : Part} {int : ℤ} (h : int ∈ x.intsOf part) :
    Reader.IsInt int := by
  cases part with
  | mainPart => exact hx.ints int h
  | prefixPart =>
    rw [List.eq_of_mem_replicate h]
    exact ⟨le_refl 0, by decide⟩
  | suffixPart =>
    rw [List.eq_of_mem_replicate h]
    exact ⟨le_refl 0, by decide⟩

theorem lines_eq_map_partLines (part : Part) :
    Reader.lines part ((x.partWords part).flatMap retInsts) (x.intsOf part) =
      (x.partLines part).map (· ++ ['\n']) := by
  rw [Reader.lines, partLines, List.map_map]
  rfl

theorem exists_isLine_of_mem_partLines (hx : x.Columned) {part : Part} {line : Text}
    (h : line ∈ x.partLines part) :
    ∃ label text inst int, IsLine part label text inst int ∧ line = printLine part inst int := by
  obtain ⟨⟨inst, int⟩, hentry, rfl⟩ := List.mem_map.mp h
  obtain ⟨hinst, hint⟩ := List.of_mem_zip hentry
  obtain ⟨w, hw, hinst⟩ := List.mem_flatMap.mp hinst
  obtain ⟨label, hline⟩ := (hx.words part w hw).exists_isLine hinst (isInt_intsOf hx hint)
  exact ⟨label, _, inst, int, hline, rfl⟩

/-- The lines of an outer part have no interrupt values. -/
theorem partLines_eq_map {part : Part} (h : part ≠ .mainPart) :
    x.partLines part = ((x.partWords part).flatMap retInsts).map (Text.ljust 50) := by
  have hzip : ((x.partWords part).flatMap retInsts).zip (x.intsOf part) =
      ((x.partWords part).flatMap retInsts).map fun inst ↦ (inst, 0) := by
    have hints : x.intsOf part = ((x.partWords part).flatMap retInsts).map fun _ ↦ 0 := by
      rw [List.map_const']
      cases part with
      | mainPart => exact absurd rfl h
      | prefixPart => rfl
      | suffixPart => rfl
    conv_lhs => rw [hints, ← List.map_id ((x.partWords part).flatMap retInsts)]
    rw [List.map_map]
    exact List.zip_map'
  rw [partLines, hzip, List.map_map]
  apply List.map_congr_left
  intro inst _
  simp [printLine, h]

/-- The main lines of the file. The label after the last word is one of them if there are more
interrupt values than lines. -/
def mainLines (x : SimInput) : List Text :=
  (x.words.flatMap retInsts ++ [labelText .mainPart x.numWords]).zip x.ints |>.map fun entry ↦
    printLine .mainPart entry.1 entry.2

theorem mainLines_eq_partLines (hlength : x.ints.length = (x.words.flatMap retInsts).length) :
    x.mainLines = x.partLines .mainPart := by
  have hzip : (x.words.flatMap retInsts ++ [labelText .mainPart x.numWords]).zip x.ints =
      (x.words.flatMap retInsts).zip x.ints := by
    conv_lhs => rw [← List.append_nil x.ints]
    rw [List.zip_append hlength.symm, List.zip_nil_right, List.append_nil]
  rw [mainLines, hzip]
  rfl

/-- The lines with which a file ends. -/
def dataLines (data : List ℤ) : List Text :=
  if data = [] then [] else "data:".toList :: data.map (Text.zeroPadInt 16 16)

/-- `save` prints the lines of the parts one after the other. -/
theorem save_eq_mainLines (hpopulated : ∀ part, ∀ w ∈ x.partWords part, w.populated = true)
    {template : Text} (htemplate : Text.item templates x.template = .ok template)
    (data : List ℤ) :
    x.save data = .ok ((template :: [] :: (x.partLines .prefixPart ++ x.mainLines ++
      x.partLines .suffixPart ++ dataLines data)).flatMap fun line ↦ line ++ ['\n']) := by
  have hbegins : x.getPrefix = .ok _ := partInsts_eq (hpopulated .prefixPart) x.numPrefix
  have hinsts : x.getInsts =
      .ok (x.words.flatMap retInsts ++ [labelText .mainPart x.numWords]) :=
    partInsts_eq (hpopulated .mainPart) x.numWords
  have hsuffix : x.getSuffix = .ok _ := partInsts_eq (hpopulated .suffixPart) x.numSuffix
  have hmain : ((x.words.flatMap retInsts ++ [labelText .mainPart x.numWords]).zip
      x.ints).flatMap (fun entry ↦
        Text.ljust 50 entry.1 ++ Text.zeroPadInt 2 4 entry.2 ++ ['\n']) =
      x.mainLines.flatMap fun line ↦ line ++ ['\n'] := by
    rw [mainLines, List.flatMap_map]
    rfl
  have houter : ∀ part, part ≠ .mainPart →
      ((x.partWords part).flatMap retInsts).flatMap (fun inst ↦ Text.ljust 50 inst ++ ['\n']) =
        (x.partLines part).flatMap fun line ↦ line ++ ['\n'] := by
    intro part hpart
    rw [partLines_eq_map hpart, List.flatMap_map]
  have hdata : (if data = [] then [] else "data:\n".toList ++
      data.flatMap fun word ↦ Text.zeroPadInt 16 16 word ++ ['\n']) =
      (dataLines data).flatMap fun line ↦ line ++ ['\n'] := by
    unfold dataLines
    split
    · rfl
    · rw [List.flatMap_cons, List.flatMap_map]
      rfl
  rw [save, hbegins, hinsts, hsuffix, htemplate]
  simp only [ok_bind, List.dropLast_concat, hmain, hdata]
  rw [houter .prefixPart (by decide), houter .suffixPart (by decide)]
  simp [List.flatMap_append, pure, Except.pure]

theorem save_eq_ok (hpopulated : ∀ part, ∀ w ∈ x.partWords part, w.populated = true)
    (hlength : x.ints.length = (x.words.flatMap retInsts).length) {template : Text}
    (htemplate : Text.item templates x.template = .ok template) (data : List ℤ) :
    x.save data = .ok ((template :: [] :: (x.partLines .prefixPart ++ x.partLines .mainPart ++
      x.partLines .suffixPart ++ dataLines data)).flatMap fun line ↦ line ++ ['\n']) := by
  rw [save_eq_mainLines hpopulated htemplate, mainLines_eq_partLines hlength]

theorem item_template (hx : x.template < templates.length) :
    Text.item templates x.template = .ok (templates[x.template]?.getD []) := by
  rw [List.getElem?_eq_getElem hx]
  exact Text.item_of_getElem? (List.getElem?_eq_getElem hx)

theorem save_eq (hx : x.Columned) {data : List ℤ} (hdata : data ≠ []) :
    x.save data = .ok ((x.fileLines data).flatMap fun line ↦ line ++ ['\n']) := by
  rw [save_eq_ok (fun part w hw ↦ (hx.words part w hw).printed.populated) hx.length_ints
    (item_template hx.template), dataLines, if_neg hdata]
  simp [fileLines]

end SimInput

namespace Reader

theorem Counted.start : Reader.start.Counted := fun _ ↦ rfl

/-- Lines before the data are read one after the other. -/
theorem readLines_append {lines rest : List Text} (h : ∀ line ∈ lines, ¬ "data:".toList <:+: line)
    (r : Reader) :
    readLines (lines ++ rest) r = lines.foldlM readLine r >>= readLines rest := by
  induction lines generalizing r with
  | nil => rfl
  | cons line lines ih =>
    rw [List.cons_append, readLines, if_neg (h line List.mem_cons_self), List.foldlM_cons,
      bind_assoc]
    congr 1
    funext r
    exact ih (fun line hline ↦ h line (List.mem_cons_of_mem _ hline)) r

/-- A word of data is read back, with the line break behind it. -/
theorem int_hexLine (n : ℕ) : Text.int 16 (Text.zeroPad 16 16 n ++ ['\n']) = .ok (n : ℤ) := by
  have hstrip : Text.strip (Text.zeroPad 16 16 n ++ ['\n']) =
      Text.strip (Text.zeroPad 16 16 n) := by
    have hspace : ∀ c ∈ Text.zeroPad 16 16 n, Text.isSpace c = false := by
      intro c hc
      obtain ⟨d, -, hd⟩ := Text.isNumeral_zeroPad (by decide) (by decide) 16 n c hc
      exact Text.isSpace_of_digitValue hd
    obtain ⟨c, digits, hdigits⟩ := List.exists_cons_of_ne_nil (Text.zeroPad_ne_nil 16 16 n)
    have hc : Text.isSpace c = false := hspace c (hdigits ▸ List.mem_cons_self)
    have hdrop : ∀ rest : Text, (c :: rest).dropWhile Text.isSpace = c :: rest := fun rest ↦
      List.dropWhile_cons_of_neg (by rw [hc]; decide)
    rw [hdigits, Text.strip, List.cons_append, hdrop, Text.strip, hdrop, ← List.cons_append]
    apply Text.rstrip_append
    intro d hd
    rw [List.mem_singleton.mp hd]
    rfl
  rw [Text.int, hstrip]
  exact Text.int_zeroPad (by decide) (by decide) 16 n

theorem readLines_data {data : List ℤ} (h : ∀ word ∈ data, 0 ≤ word) (r : Reader) :
    readLines (("data:".toList :: data.map (Text.zeroPadInt 16 16)).map (· ++ ['\n'])) r =
      .ok ({ r with part := none }, data) := by
  have hdata : ((data.map (Text.zeroPadInt 16 16)).map (· ++ ['\n'])).mapM (Text.int 16) =
      .ok data := by
    rw [List.map_map, List.mapM_map]
    have hword : ∀ word ∈ data,
        Text.int 16 (Text.zeroPadInt 16 16 word ++ ['\n']) = .ok (id word) := by
      intro word hword
      obtain ⟨n, rfl⟩ := Int.eq_ofNat_of_zero_le (h word hword)
      exact int_hexLine n
    calc
      data.mapM (Text.int 16 ∘ ((· ++ ['\n']) ∘ Text.zeroPadInt 16 16)) = .ok (data.map id) :=
        mapM_eq_ok hword
      _ = .ok data := by rw [List.map_id]
  have hfirst : "data:".toList <:+: "data:".toList ++ ['\n'] := (List.prefix_append _ _).isInfix
  rw [List.map_cons, readLines, if_pos hfirst, hdata]
  rfl

end Reader

namespace SimInput

variable {x : SimInput}

/-- The lines of a part are read as its words. -/
theorem foldlM_partLines (hx : x.Columned) {r : Reader} (hr : r.Counted) (part : Part) :
    ∃ r', ((x.partLines part).map (· ++ ['\n'])).foldlM Reader.readLine r = .ok r' ∧
      Reader.Reads part (x.partWords part) (x.intsOf part) r r' := by
  rw [← lines_eq_map_partLines]
  exact Reader.foldlM_words hr (hx.words part) (length_intsOf hx part) fun int ↦ isInt_intsOf hx

theorem not_data_partLines (hx : x.Columned) (part : Part) :
    ∀ line ∈ (x.partLines part).map (· ++ ['\n']), ¬ "data:".toList <:+: line := by
  intro line hline
  obtain ⟨inner, hinner, rfl⟩ := List.mem_map.mp hline
  obtain ⟨label, text, inst, int, hisLine, rfl⟩ := exists_isLine_of_mem_partLines hx hinner
  exact hisLine.not_data

/-- What the reader knows at the end of the file. -/
theorem readLines_fileLines (hx : x.Columned) {data : List ℤ} (hdata : ∀ word ∈ data, 0 ≤ word) :
    ∃ r, Reader.readLines ((x.partLines .prefixPart ++ x.partLines .mainPart ++
      x.partLines .suffixPart ++ "data:".toList :: data.map (Text.zeroPadInt 16 16)).map
        (· ++ ['\n'])) Reader.start = .ok (r, data) ∧
      (∀ part, r.tuples part = (x.partWords part).map wordTuple) ∧ r.ints = x.ints := by
  obtain ⟨r₁, hrun₁, hreads₁⟩ := foldlM_partLines hx Reader.Counted.start .prefixPart
  obtain ⟨r₂, hrun₂, hreads₂⟩ := foldlM_partLines hx hreads₁.counted .mainPart
  obtain ⟨r₃, hrun₃, hreads₃⟩ := foldlM_partLines hx hreads₂.counted .suffixPart
  refine ⟨{ r₃ with part := none }, ?_, ?_, ?_⟩
  · rw [List.map_append, List.map_append, List.map_append, List.append_assoc, List.append_assoc,
      Reader.readLines_append (not_data_partLines hx _), hrun₁, ok_bind,
      Reader.readLines_append (not_data_partLines hx _), hrun₂, ok_bind,
      Reader.readLines_append (not_data_partLines hx _), hrun₃, ok_bind]
    exact Reader.readLines_data hdata r₃
  · intro part
    change r₃.tuples part = _
    rw [hreads₃.tuples, hreads₂.tuples, hreads₁.tuples]
    cases part <;> simp [Reader.start]
  · change r₃.ints = _
    rw [hreads₃.ints, hreads₂.ints, hreads₁.ints]
    simp [Reader.start, intsOf]

theorem isLineText_fileLines (hx : x.Columned) {data : List ℤ} (hdata : ∀ word ∈ data, 0 ≤ word) :
    ∀ line ∈ x.fileLines data, Text.IsLineText line := by
  have hpart : ∀ part, ∀ line ∈ x.partLines part, Text.IsLineText line := by
    intro part line hline
    obtain ⟨label, text, inst, int, hisLine, rfl⟩ := exists_isLine_of_mem_partLines hx hline
    exact hisLine.isLineText
  have htemplate : ∀ template ∈ templates, Text.IsLineText template := by
    unfold Text.IsLineText
    decide
  have hword : ∀ line ∈ data.map (Text.zeroPadInt 16 16), Text.IsLineText line := by
    intro line hline
    obtain ⟨word, hword, rfl⟩ := List.mem_map.mp hline
    obtain ⟨n, rfl⟩ := Int.eq_ofNat_of_zero_le (hdata word hword)
    exact (Text.isNumeral_zeroPad (by decide) (by decide) 16 n).isLineText
  have hgetD : templates[x.template]?.getD [] ∈ templates := by
    rw [List.getElem?_eq_getElem hx.template]
    exact List.getElem_mem hx.template
  intro line hline
  simp only [fileLines, List.mem_append, List.mem_cons] at hline
  rcases hline with (((rfl | rfl | h) | h) | h) | rfl | h
  · exact htemplate _ hgetD
  · exact fun c hc ↦ absurd hc List.not_mem_nil
  · exact hpart _ line h
  · exact hpart _ line h
  · exact hpart _ line h
  · unfold Text.IsLineText
    decide
  · exact hword line h

theorem templateIndex_getD {template : ℕ} (h : template < templates.length) :
    Mutator.templateIndex ((Text.split ['\n']
      (templates[template]?.getD [] ++ ['\n']))[0]?.getD []) = .ok template := by
  have hall : ∀ i < templates.length, (Text.split ['\n']
      (templates[i]?.getD [] ++ ['\n']))[0]?.getD [] ∈ templates ∧
      templates.idxOf ((Text.split ['\n']
        (templates[i]?.getD [] ++ ['\n']))[0]?.getD []) = i := by
    decide
  obtain ⟨hmem, hidx⟩ := hall template h
  rw [Mutator.templateIndex, if_pos hmem, hidx]

theorem tuplesToWords_map {part : Part} {words : List Word}
    (h : ∀ w ∈ words, Mutation.Columned part w) :
    Mutator.tuplesToWords (words.map wordTuple) part = .ok (words.map reread) := by
  rw [Mutator.tuplesToWords, List.mapM_map]
  exact mapM_eq_ok fun w hw ↦ populate_wordTuple (h w hw)

/-- A mutator with room for a seed takes the data of the file. -/
theorem addData_eq_ok {m : Mutator} (hm : 0 < m.maxData) {data : List ℤ} (hdata : data ≠ [])
    (draws : Draws) : ∃ seed m', m.addData data draws = .ok (seed, m', draws) ∧
      m'.randomData.get? seed = some data ∧ m'.maxData = m.maxData := by
  unfold Mutator.addData
  by_cases hfull : m.dataSeeds.length = m.maxData
  · have hne : m.dataSeeds ≠ [] := by
      rintro hnil
      rw [hnil] at hfull
      exact absurd hfull hm.ne
    obtain ⟨seed, seeds, hseeds⟩ := List.exists_cons_of_ne_nil hne
    refine ⟨seed, ⟨m.maxData, m.randomData.set seed data, seeds ++ [seed]⟩, ?_,
      Dict.get?_set_self _ _ _, rfl⟩
    rw [if_pos hfull, hseeds]
    simp only [ok_bind, if_neg hdata]
    rfl
  · refine ⟨m.dataSeeds.length, ⟨m.maxData, m.randomData.set m.dataSeeds.length data,
      m.dataSeeds ++ [m.dataSeeds.length]⟩, ?_, Dict.get?_set_self _ _ _, rfl⟩
    rw [if_neg hfull]
    simp only [ok_bind, if_neg hdata]
    rfl

/-- The test that is read from the file of another one. -/
def reread (x : SimInput) (seed : ℕ) : SimInput :=
  new (x.prefixWords.map Mutation.reread) (x.words.map Mutation.reread)
    (x.suffixWords.map Mutation.reread) x.ints seed x.template

/-- The lines of the file are read, whatever the seed of the data becomes. -/
theorem readSiminput_fileLines (hx : x.Columned) {data : List ℤ}
    (hdata : ∀ word ∈ data, 0 ≤ word) (m : Mutator) (draws : Draws) :
    m.readSiminput ((x.fileLines data).flatMap fun line ↦ line ++ ['\n']) draws =
      m.addData data draws >>= fun r ↦ (r.2.1.randomData.get? r.1).elim (.error .keyError)
        fun data ↦ .ok ((x.reread r.1, data, decide (∃ int ∈ x.ints, int ≠ 0)), r.2.1, r.2.2) := by
  obtain ⟨r, hread, htuples, hints⟩ := readLines_fileLines hx hdata
  have hany : (x.ints.any fun int ↦ decide (int ≠ 0)) = decide (∃ int ∈ x.ints, int ≠ 0) := by
    rw [List.any_eq]
    simp
  have hlines : Text.readlines ((x.fileLines data).flatMap fun line ↦ line ++ ['\n']) =
      (templates[x.template]?.getD [] ++ ['\n']) :: ['\n'] :: (x.partLines .prefixPart ++
        x.partLines .mainPart ++ x.partLines .suffixPart ++
        "data:".toList :: data.map (Text.zeroPadInt 16 16)).map (· ++ ['\n']) := by
    rw [Text.readlines_flatMap (isLineText_fileLines hx hdata), fileLines]
    simp
  have hwords : ∀ part, Mutator.tuplesToWords (r.tuples part) part =
      .ok ((x.partWords part).map Mutation.reread) := fun part ↦ by
    rw [htuples part, tuplesToWords_map (hx.words part)]
  unfold Mutator.readSiminput
  rw [hlines]
  simp only [templateIndex_getD hx.template, ok_bind, hread, hwords, hints, hany]
  congr 1
  funext r
  obtain ⟨seed, m', draws'⟩ := r
  dsimp only
  cases m'.randomData.get? seed <;> rfl

theorem readSiminput_eq (hx : x.Columned) {data : List ℤ} (hne : data ≠ [])
    (hdata : ∀ word ∈ data, 0 ≤ word) {m : Mutator} (hm : 0 < m.maxData) (draws : Draws) :
    ∃ seed m', m.readSiminput ((x.fileLines data).flatMap fun line ↦ line ++ ['\n']) draws =
      .ok ((x.reread seed, data, decide (∃ int ∈ x.ints, int ≠ 0)), m', draws) ∧
      m'.maxData = m.maxData := by
  obtain ⟨seed, m', hadd, hget, hmax⟩ := addData_eq_ok hm hne draws
  refine ⟨seed, m', ?_, hmax⟩
  rw [readSiminput_fileLines hx hdata, hadd, ok_bind]
  dsimp only
  rw [hget]
  rfl

/-- The same test up to the blanks behind its instructions. -/
structure SameTest (x y : SimInput) : Prop where
  template : y.template = x.template
  ints : y.ints = x.ints
  words : ∀ part, List.Forall₂ SameWord (x.partWords part) (y.partWords part)

theorem partWords_reread (x : SimInput) (seed : ℕ) (part : Part) :
    (x.reread seed).partWords part = (x.partWords part).map Mutation.reread := by
  cases part <;> rfl

theorem retInsts_partWords_reread (x : SimInput) (seed : ℕ) (part : Part) :
    ((x.reread seed).partWords part).flatMap retInsts =
      ((x.partWords part).flatMap retInsts).map (List.take 50) := by
  rw [partWords_reread, List.flatMap_map, List.map_flatMap]
  rfl

theorem sameTest_reread (hx : x.Readable) (seed : ℕ) : SameTest x (x.reread seed) := by
  refine ⟨rfl, rfl, fun part ↦ ?_⟩
  rw [partWords_reread, List.forall₂_map_right_iff, List.forall₂_same]
  exact fun w hw ↦ (hx.words part w hw).sameWord

theorem Columned.reread (hx : x.Columned) (seed : ℕ) : (x.reread seed).Readable := by
  have hlength : ((x.reread seed).words.flatMap retInsts).length =
      (x.words.flatMap retInsts).length := by
    have hinsts := retInsts_partWords_reread x seed .mainPart
    calc
      ((x.reread seed).words.flatMap retInsts).length
          = ((x.words.flatMap retInsts).map (List.take 50)).length := congrArg List.length hinsts
      _ = (x.words.flatMap retInsts).length := List.length_map _
  refine ⟨fun part w hw ↦ ?_, hx.template, hx.length_ints.trans hlength.symm, hx.ints⟩
  rw [partWords_reread] at hw
  obtain ⟨w₀, hw₀, rfl⟩ := List.mem_map.mp hw
  exact (hx.words part w₀ hw₀).reread

/-- The file depends on the lines of the parts only, and reading twice changes no line. -/
theorem fileLines_reread_reread (x : SimInput) (seed seed' : ℕ) (data : List ℤ) :
    ((x.reread seed).reread seed').fileLines data = (x.reread seed).fileLines data := by
  have hinsts : ∀ part, (((x.reread seed).reread seed').partWords part).flatMap retInsts =
      ((x.reread seed).partWords part).flatMap retInsts := by
    intro part
    rw [retInsts_partWords_reread, retInsts_partWords_reread, List.map_map]
    apply List.map_congr_left
    intro inst _
    rw [Function.comp_apply, List.take_take, Nat.min_self]
  have hints : ∀ part, ((x.reread seed).reread seed').intsOf part =
      (x.reread seed).intsOf part := by
    intro part
    cases part with
    | mainPart => rfl
    | prefixPart => exact congrArg (fun insts ↦ List.replicate insts.length (0 : ℤ)) (hinsts .prefixPart)
    | suffixPart => exact congrArg (fun insts ↦ List.replicate insts.length (0 : ℤ)) (hinsts .suffixPart)
  have hlines : ∀ part, ((x.reread seed).reread seed').partLines part =
      (x.reread seed).partLines part := by
    intro part
    rw [partLines, hinsts part, hints part]
    rfl
  rw [fileLines, hlines, hlines, hlines]
  rfl

/-- What is saved is read back: the template, the words of every part, the interrupt values and the
data. The test that was read is saved to a file that reading and saving reproduces. -/
theorem readSiminput_save (x : SimInput) (hx : x.Readable) (data : List ℤ) (hne : data ≠ [])
    (hdata : ∀ word ∈ data, 0 ≤ word ∧ word < 2 ^ 64) (m : Mutator) (hm : 0 < m.maxData)
    (draws : Draws) :
    ∃ file y m', x.save data = .ok file ∧
      m.readSiminput file draws =
        .ok ((y, data, decide (∃ int ∈ x.ints, int ≠ 0)), m', draws) ∧
      SameTest x y ∧ m'.maxData = m.maxData ∧
      ∀ m₁ : Mutator, 0 < m₁.maxData → ∀ draws₁, ∃ file₁ z m₁' intr, y.save data = .ok file₁ ∧
        m₁.readSiminput file₁ draws₁ = .ok ((z, data, intr), m₁', draws₁) ∧
        z.save data = .ok file₁ := by
  have hnonneg : ∀ word ∈ data, 0 ≤ word := fun word hword ↦ (hdata word hword).1
  obtain ⟨seed, m', hread, hmax⟩ := readSiminput_eq hx.columned hne hnonneg hm draws
  have hy := hx.columned.reread seed
  refine ⟨_, x.reread seed, m', save_eq hx.columned hne, hread, sameTest_reread hx seed, hmax, ?_⟩
  intro m₁ hm₁ draws₁
  obtain ⟨seed₁, m₁', hread₁, -⟩ := readSiminput_eq hy.columned hne hnonneg hm₁ draws₁
  refine ⟨_, (x.reread seed).reread seed₁, m₁', _, save_eq hy.columned hne, hread₁, ?_⟩
  rw [save_eq (hy.columned.reread seed₁).columned hne, fileLines_reread_reread]

/-- A word of one instruction and a loop of two, of which the second jumps back. -/
def loopTest : SimInput :=
  new [{ label := 0
         insts := ["li x1, 3".toList]
         operands := []
         populated := true
         retInsts := ["_p0:    li x1, 3                                  ".toList] }]
    [{ label := 0
       insts := ["addi x1, x1, -1".toList, "bnez x1, _l0 ".toList]
       operands := []
       populated := true
       retInsts := ["_l0:    addi x1, x1, -1                           ".toList,
         "        bnez x1, _l0                              ".toList] }]
    [] [0, 5] 0 2

theorem readable_loopTest : loopTest.Readable := by
  refine ⟨fun part ↦ ?_, by decide, rfl, by decide⟩
  cases part with
  | prefixPart =>
    intro w hw
    obtain rfl := List.mem_singleton.mp hw
    have hmade : (Word.new 0 ["li x1, 3".toList]).populate Dict.empty .prefixPart = .ok _ := rfl
    refine ⟨.populate hmade, by decide, by decide, by decide, by decide, ?_⟩
    unfold Text.IsLineText
    decide
  | mainPart =>
    intro w hw
    obtain rfl := List.mem_singleton.mp hw
    have hmade : (Word.new 0 ["addi x1, x1, -1".toList, "bnez x1, _l0 ".toList]).populate
      Dict.empty .mainPart = .ok _ := rfl
    refine ⟨.populate hmade, by decide, by decide, by decide, by decide, ?_⟩
    unfold Text.IsLineText
    decide
  | suffixPart => exact fun w hw ↦ absurd hw List.not_mem_nil

theorem readSiminput_save_loopTest :
    ∃ file y m', loopTest.save [7, 2 ^ 64 - 1] = .ok file ∧
      (Mutator.mk 100 Dict.empty []).readSiminput file (fun _ ↦ 0) =
        .ok ((y, [7, 2 ^ 64 - 1], decide (∃ int ∈ loopTest.ints, int ≠ 0)), m', fun _ ↦ 0) ∧
      SameTest loopTest y ∧ m'.maxData = 100 ∧
      ∀ m₁ : Mutator, 0 < m₁.maxData → ∀ draws₁, ∃ file₁ z m₁' intr,
        y.save [7, 2 ^ 64 - 1] = .ok file₁ ∧
        m₁.readSiminput file₁ draws₁ = .ok ((z, [7, 2 ^ 64 - 1], intr), m₁', draws₁) ∧
        z.save [7, 2 ^ 64 - 1] = .ok file₁ :=
  readSiminput_save loopTest readable_loopTest [7, 2 ^ 64 - 1] (by decide) (by decide)
    ⟨100, Dict.empty, []⟩ (by decide) fun _ ↦ 0

end SimInput

end ProcessorFuzz.Mutation
