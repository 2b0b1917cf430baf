import ProcessorFuzz.Mutation.CorpusData
import ProcessorFuzz.Mutation.LockstepRuns
import ProcessorFuzz.Mutation.TestCase
import ProcessorFuzz.Mutation.WordInvariants

/-!
# The files of mutated tests

`mutate_test_case` puts mutated words into a test and keeps its interrupt values, of which there are
as many as the original test has main instructions. `save` pairs the two lists: with too few values
the last lines are not written, with too many the label after the last word is written as one more
instruction. What is read back is the test whose lines are in the file, with each line cut after 50
columns.
-/

namespace ProcessorFuzz.Mutation

open Library Library.Stateful Generating Word

/-- The words whose lines come first, `n` lines in all. -/
def cutWords : ℕ → List Word → List Word
  | _, [] => []
  | n, w :: words =>
    if n = 0 then []
    else if n < w.retInsts.length then [{ w with retInsts := w.retInsts.take n }]
    else w :: cutWords (n - w.retInsts.length) words

/-- The label after the last word, as a word of one line. -/
def endWord (num : ℕ) : Word where
  label := num
  insts := []
  operands := []
  populated := true
  retInsts := [Text.ljust 50 (labelText .mainPart num)]

theorem flatMap_cutWords (n : ℕ) (words : List Word) :
    (cutWords n words).flatMap retInsts = (words.flatMap retInsts).take n := by
  induction words generalizing n with
  | nil => rw [cutWords, List.flatMap_nil, List.take_nil]
  | cons w words ih =>
    rw [cutWords, List.flatMap_cons, List.take_append]
    split
    · next hzero => simp [hzero]
    · split
      · next hlt =>
        have hrest : n - w.retInsts.length = 0 := by omega
        simp [hrest]
      · next hle =>
        rw [List.flatMap_cons, ih, List.take_of_length_le (by omega : w.retInsts.length ≤ n)]

/-- Nothing is cut off if there is room for every line. -/
theorem cutWords_of_le {n : ℕ} {words : List Word} (h : (words.flatMap retInsts).length ≤ n)
    (hwords : ∀ w ∈ words, w.retInsts ≠ []) : cutWords n words = words := by
  induction words generalizing n with
  | nil => rw [cutWords]
  | cons w words ih =>
    obtain ⟨hw, hwords⟩ := List.forall_mem_cons.mp hwords
    have hpos := List.length_pos_iff.mpr hw
    rw [List.flatMap_cons, List.length_append] at h
    rw [cutWords, if_neg (by omega), if_neg (by omega), ih (by omega) hwords]

theorem exists_mem_of_mem_cutWords {n : ℕ} {words : List Word} {w : Word}
    (h : w ∈ cutWords n words) :
    ∃ w₀ ∈ words, ∃ k, 0 < k ∧ w = { w₀ with retInsts := w₀.retInsts.take k } := by
  induction words generalizing n with
  | nil =>
    rw [cutWords] at h
    exact absurd h List.not_mem_nil
  | cons w₀ words ih =>
    rw [cutWords] at h
    split at h
    · exact absurd h List.not_mem_nil
    · next hpos =>
      split at h
      · obtain rfl := List.mem_singleton.mp h
        exact ⟨w₀, List.mem_cons_self, n, Nat.pos_of_ne_zero hpos, rfl⟩
      · rcases List.mem_cons.mp h with rfl | h
        · refine ⟨w, List.mem_cons_self, w.retInsts.length + 1, Nat.succ_pos _, ?_⟩
          rw [List.take_of_length_le (Nat.le_succ _)]
        · obtain ⟨w₁, hw₁, hcut⟩ := ih h
          exact ⟨w₁, List.mem_cons_of_mem w₀ hw₁, hcut⟩

section Columns

variable {part : Part} {w : Word}

theorem Columned.retInsts_ne_nil (h : Columned part w) : w.retInsts ≠ [] := by
  obtain ⟨first, rest, hlines, -, -⟩ := h.printed.lines
  rw [hlines]
  exact List.cons_ne_nil first rest

theorem Columned.take (h : Columned part w) {k : ℕ} (hk : 0 < k) :
    Columned part { w with retInsts := w.retInsts.take k } := by
  obtain ⟨first, rest, hlines, hfirst, hrest⟩ := h.printed.lines
  have htake : w.retInsts.take k = first :: rest.take (k - 1) := by
    obtain ⟨k, rfl⟩ := Nat.exists_eq_succ_of_ne_zero hk.ne'
    rw [hlines]
    rfl
  exact {
    printed := ⟨h.printed.populated, first, rest.take (k - 1), htake, hfirst,
      fun inst hinst ↦ hrest inst (List.mem_of_mem_take hinst)⟩
    label_nonneg := h.label_nonneg
    label_lt := h.label_lt
    noData := fun inst hinst ↦ h.noData inst (List.mem_of_mem_take hinst)
    lineText := fun inst hinst ↦ h.lineText inst (List.mem_of_mem_take hinst) }

theorem columned_endWord {num : ℕ} (h : num < 100000) : Columned .mainPart (endWord num) := by
  have hlength : (labelText .mainPart (num : ℤ)).length ≤ 8 :=
    length_labelText (Int.natCast_nonneg num) (by omega)
  have hline : Text.ljust 50 (labelText .mainPart (num : ℤ)) =
      Text.ljust 8 (labelText .mainPart (num : ℤ)) ++ List.replicate 42 ' ' := by
    rw [Text.ljust_eq_append, Text.ljust_eq_append, List.append_assoc,
      List.replicate_append_replicate]
    congr 2
    omega
  have hdrop : (Text.ljust 50 (labelText .mainPart (num : ℤ))).drop 8 =
      List.replicate 42 ' ' := by
    rw [hline, List.drop_left']
    rw [Text.length_ljust, Nat.max_eq_left hlength]
  refine ⟨⟨rfl, _, [], rfl, fun _ _ ↦ ⟨List.replicate 42 ' ', ?_, hline⟩, nofun⟩,
    Int.natCast_nonneg num, ?_, ?_, ?_⟩
  · rw [List.length_replicate]
  · change (num : ℤ) < 100000
    omega
  · intro inst hinst
    obtain rfl := List.mem_singleton.mp hinst
    rw [hdrop]
    decide
  · intro inst hinst
    obtain rfl := List.mem_singleton.mp hinst
    rw [hdrop]
    decide

end Columns

namespace SimInput

variable {x : SimInput}

/-- The test whose lines `save` writes. -/
def shown (x : SimInput) : SimInput :=
  if x.ints.length ≤ (x.words.flatMap retInsts).length then
    { x with words := cutWords x.ints.length x.words }
  else
    { x with
      words := x.words ++ [endWord x.numWords]
      ints := x.ints.take ((x.words.flatMap retInsts).length + 1) }

/-- A test with lines in the columns of the format, and any number of interrupt values. -/
structure Written (x : SimInput) : Prop where
  words : ∀ part, ∀ w ∈ x.partWords part, Mutation.Columned part w
  template : x.template < templates.length
  ints : ∀ int ∈ x.ints, 0 ≤ int ∧ int ≤ 15
  numWords : x.numWords = x.words.length
  few : x.numWords < 100000

theorem Written.columned_shown (hx : x.Written) : x.shown.Columned := by
  have hends := columned_endWord hx.few
  rw [shown]
  split
  · next hle =>
    refine ⟨fun part w hw ↦ ?_, hx.template, ?_, hx.ints⟩
    · cases part with
      | prefixPart => exact hx.words .prefixPart w hw
      | mainPart =>
        obtain ⟨w₀, hw₀, k, hk, rfl⟩ := exists_mem_of_mem_cutWords hw
        exact (hx.words .mainPart w₀ hw₀).take hk
      | suffixPart => exact hx.words .suffixPart w hw
    · dsimp only
      rw [flatMap_cutWords, List.length_take, Nat.min_eq_left hle]
  · next hlt =>
    refine ⟨fun part w hw ↦ ?_, hx.template, ?_,
      fun int hint ↦ hx.ints int (List.mem_of_mem_take hint)⟩
    · cases part with
      | prefixPart => exact hx.words .prefixPart w hw
      | mainPart =>
        rcases List.mem_append.mp hw with hw | hw
        · exact hx.words .mainPart w hw
        · rw [List.mem_singleton.mp hw]
          exact hends
      | suffixPart => exact hx.words .suffixPart w hw
    · dsimp only
      rw [List.length_take, List.flatMap_append, List.length_append]
      simp only [List.flatMap_singleton, endWord, List.length_singleton]
      omega

theorem mainLines_eq_shown (x : SimInput) : x.mainLines = x.shown.partLines .mainPart := by
  have hends : ∀ int, printLine .mainPart (labelText .mainPart x.numWords) int =
      printLine .mainPart (Text.ljust 50 (labelText .mainPart x.numWords)) int := by
    intro int
    have hwide := Text.length_ljust 50 (labelText .mainPart (x.numWords : ℤ))
    rw [printLine, printLine, Text.ljust_eq_append 50 (Text.ljust 50 _), hwide,
      Nat.sub_eq_zero_of_le (Nat.le_max_left 50 _), List.replicate_zero, List.append_nil]
  rw [mainLines, shown]
  split
  · next hle =>
    have hlength : ((x.words.flatMap retInsts).take x.ints.length).length = x.ints.length := by
      rw [List.length_take, Nat.min_eq_left hle]
    have hzip : (x.words.flatMap retInsts ++ [labelText .mainPart x.numWords]).zip x.ints =
        ((x.words.flatMap retInsts).take x.ints.length).zip x.ints := by
      calc
        (x.words.flatMap retInsts ++ [labelText .mainPart x.numWords]).zip x.ints
            = ((x.words.flatMap retInsts).take x.ints.length ++
                ((x.words.flatMap retInsts).drop x.ints.length ++
                  [labelText .mainPart x.numWords])).zip (x.ints ++ []) := by
          rw [List.append_nil, ← List.append_assoc, List.take_append_drop]
        _ = ((x.words.flatMap retInsts).take x.ints.length).zip x.ints := by
          rw [List.zip_append hlength, List.zip_nil_right, List.append_nil]
    rw [hzip, ← flatMap_cutWords]
    rfl
  · next hlt =>
    -- The values fall into those of the lines, the one of the label and the rest.
    obtain ⟨first, int, rest, hints, hlength⟩ : ∃ first int rest,
        x.ints = first ++ int :: rest ∧ (x.words.flatMap retInsts).length = first.length := by
      have hlt' : (x.words.flatMap retInsts).length < x.ints.length := by omega
      refine ⟨x.ints.take (x.words.flatMap retInsts).length,
        x.ints[(x.words.flatMap retInsts).length],
        x.ints.drop ((x.words.flatMap retInsts).length + 1), ?_, ?_⟩
      · rw [List.getElem_cons_drop, List.take_append_drop]
      · rw [List.length_take]
        omega
    have htake : x.ints.take ((x.words.flatMap retInsts).length + 1) = first ++ [int] := by
      rw [hints, hlength, List.take_append, List.take_of_length_le (Nat.le_succ _)]
      simp
    have hshown : (x.words ++ [endWord x.numWords]).flatMap retInsts =
        x.words.flatMap retInsts ++ [Text.ljust 50 (labelText .mainPart x.numWords)] := by
      rw [List.flatMap_append, List.flatMap_singleton]
      rfl
    calc
      ((x.words.flatMap retInsts ++ [labelText .mainPart x.numWords]).zip x.ints).map
          (fun entry ↦ printLine .mainPart entry.1 entry.2)
          = ((x.words.flatMap retInsts).zip first).map
              (fun entry ↦ printLine .mainPart entry.1 entry.2) ++
            [printLine .mainPart (labelText .mainPart x.numWords) int] := by
        rw [hints, List.zip_append hlength, List.map_append]
        rfl
      _ = ((x.words.flatMap retInsts).zip first).map
              (fun entry ↦ printLine .mainPart entry.1 entry.2) ++
            [printLine .mainPart (Text.ljust 50 (labelText .mainPart x.numWords)) int] := by
        rw [hends]
      _ = (((x.words ++ [endWord x.numWords]).flatMap retInsts).zip
            (x.ints.take ((x.words.flatMap retInsts).length + 1))).map
              (fun entry ↦ printLine .mainPart entry.1 entry.2) := by
        rw [htake, hshown, List.zip_append hlength, List.map_append]
        rfl

/-- What `save` writes is the file of the shown test. -/
theorem save_eq_shown (hx : x.Written) {data : List ℤ} (hdata : data ≠ []) :
    x.save data = .ok ((x.shown.fileLines data).flatMap fun line ↦ line ++ ['\n']) := by
  have htemplate : x.shown.template = x.template := by
    rw [shown]
    split <;> rfl
  have houter : ∀ part, part ≠ .mainPart → x.shown.partLines part = x.partLines part := by
    intro part hpart
    have hwords : x.shown.partWords part = x.partWords part := by
      rw [shown]
      split <;> cases part <;> first | rfl | exact absurd rfl hpart
    rw [partLines_eq_map hpart, partLines_eq_map hpart, hwords]
  rw [save_eq_mainLines (fun part w hw ↦ (hx.words part w hw).printed.populated)
    (item_template hx.template), mainLines_eq_shown, dataLines, if_neg hdata]
  simp [fileLines, htemplate, houter .prefixPart, houter .suffixPart]

/-- Whoever reads the file finds the words of the test: the parts, the labels and the instructions
up to the blanks behind them. -/
def ReadsBack (x : SimInput) (contents : Text) : Prop :=
  ∀ m : Mutator, 0 < m.maxData → ∀ draws, ∃ y data intr m' draws',
    m.readSiminput contents draws = .ok ((y, data, intr), m', draws') ∧
      ∀ part, List.Forall₂ SameWord (x.partWords part) (y.partWords part)

/-- There are as many interrupt values as main lines. -/
def Balanced (x : SimInput) : Prop := x.ints.length = (x.words.flatMap retInsts).length

/-- No main instruction is longer than its columns. -/
def Short (x : SimInput) : Prop :=
  ∀ w ∈ x.words, ∀ inst ∈ w.retInsts, (Text.rstrip (inst.drop 8)).length ≤ 42

theorem Written.shown_eq (hx : x.Written) (h : x.Balanced) : x.shown = x := by
  have hlength : x.ints.length = (x.words.flatMap retInsts).length := h
  rw [shown, if_pos hlength.le, cutWords_of_le hlength.ge fun w hw ↦
    (hx.words .mainPart w hw).retInsts_ne_nil]

theorem length_flatMap_eq_of_sameWord {words words' : List Word}
    (h : List.Forall₂ SameWord words words') :
    (words'.flatMap retInsts).length = (words.flatMap retInsts).length := by
  induction h with
  | nil => rfl
  | cons hw _ ih =>
    have hlength := congrArg List.length hw.text
    rw [List.length_map, List.length_map] at hlength
    rw [List.flatMap_cons, List.flatMap_cons, List.length_append, List.length_append, ih, hlength]

/-- The shown test has as many main lines as the test only if nothing is cut off or added. -/
theorem balanced_of_length_shown (hx : x.Written)
    (h : (x.shown.words.flatMap retInsts).length = (x.words.flatMap retInsts).length) :
    x.Balanced := by
  have hints := hx.columned_shown.length_ints
  rw [h, shown] at hints
  split at hints
  · exact hints
  · dsimp only at hints
    rw [List.length_take] at hints
    omega

theorem readsBack_iff (hx : x.Written)
    (houter : ∀ part, part ≠ .mainPart → ∀ w ∈ x.partWords part, Mutation.Readable part w)
    {data : List ℤ} (hne : data ≠ []) (hdata : ∀ word ∈ data, 0 ≤ word) :
    x.ReadsBack ((x.shown.fileLines data).flatMap fun line ↦ line ++ ['\n']) ↔
      x.Balanced ∧ x.Short := by
  constructor
  · intro h
    let m : Mutator := ⟨1, Dict.empty, []⟩
    obtain ⟨seed, m', hread, -⟩ := @readSiminput_eq x.shown hx.columned_shown data hne hdata m
      Nat.one_pos fun _ ↦ 0
    obtain ⟨y, _, _, _, _, hread', hwords⟩ := h m Nat.one_pos fun _ ↦ 0
    obtain rfl : x.shown.reread seed = y :=
      (Prod.mk.inj (Prod.mk.inj (Except.ok.inj (hread.symm.trans hread'))).1).1
    have hmain := hwords .mainPart
    have hlines := retInsts_partWords_reread x.shown seed .mainPart
    have hlength := (congrArg List.length hlines).symm.trans (length_flatMap_eq_of_sameWord hmain)
    rw [List.length_map] at hlength
    have hbalanced := balanced_of_length_shown hx hlength
    refine ⟨hbalanced, fun w hw ↦ ?_⟩
    rw [partWords_reread, hx.shown_eq hbalanced, List.forall₂_map_right_iff,
      List.forall₂_same] at hmain
    exact sameWord_reread_iff.mp (hmain w hw)
  · rintro ⟨hbalanced, hshort⟩ m hm draws
    have hcolumned := hx.columned_shown
    rw [hx.shown_eq hbalanced] at hcolumned ⊢
    obtain ⟨seed, m', hread, -⟩ := readSiminput_eq hcolumned hne hdata hm draws
    refine ⟨_, _, _, _, _, hread, fun part ↦ ?_⟩
    rw [partWords_reread, List.forall₂_map_right_iff, List.forall₂_same]
    intro w hw
    by_cases hpart : part = .mainPart
    · subst hpart
      exact sameWord_reread_iff.mpr (hshort w hw)
    · exact (houter part hpart w hw).sameWord

end SimInput

/-- A text without a line break and without the line that begins the data. -/
structure Tidy (text : Text) : Prop where
  noData : ¬ "data:".toList <:+: text
  lineText : Text.IsLineText text

/-- A populated word with tidy texts behind the columns of its label. -/
structure TidyWord (part : Part) (w : Word) : Prop where
  printed : Printed part w
  texts : ∀ inst ∈ w.retInsts, Tidy (inst.drop 8)

section Texts

variable {part : Part} {text : Text}

theorem Tidy.of_not_mem (hcolon : ':' ∉ text) (hline : Text.IsLineText text) : Tidy text :=
  ⟨Text.not_infix_of_not_mem (by decide) hcolon, hline⟩

theorem Tidy.ljust (h : Tidy text) (width : ℕ) : Tidy (Text.ljust width text) := by
  have hblanks : ':' ∉ List.replicate (width - text.length) ' ' := fun hmem ↦
    absurd (List.eq_of_mem_replicate hmem) (by decide)
  have hsplit : "data:".toList = "data".toList ++ [':'] := rfl
  refine ⟨?_, h.lineText.ljust width⟩
  rw [Text.ljust_eq_append, hsplit, Text.infix_append_iff_of_not_mem_right hblanks]
  exact h.noData

/-- The columns in front of a text have no part in `data:`. -/
theorem Tidy.drop_append (h : Tidy text) {columns : Text} (hlength : 8 ≤ columns.length)
    (hcolumns : 'd' ∉ columns) (hline : Text.IsLineText columns) :
    Tidy ((columns ++ text).drop 8) := by
  have hsplit : "data:".toList = 'd' :: "ata:".toList := rfl
  rw [List.drop_append_of_le_length hlength]
  refine ⟨?_, .append (hline.of_subset (List.drop_subset 8 columns)) h.lineText⟩
  rw [hsplit, Text.infix_append_iff_of_not_mem fun hmem ↦ hcolumns (List.mem_of_mem_drop hmem)]
  exact h.noData

theorem Tidy.labelLine (h : Tidy text) (part : Part) (label : ℤ) :
    Tidy ((Text.ljust 8 (labelText part label) ++ text).drop 8) := by
  refine h.drop_append ?_ ?_ ((isLineText_labelText part label).ljust 8)
  · rw [Text.length_ljust]
    exact Nat.le_max_left 8 _
  · rw [Text.ljust_eq_append, labelText]
    simp only [List.mem_append, List.mem_singleton, not_or]
    exact ⟨⟨⟨not_mem_part_text (by decide) part, not_mem_str (by decide) (by decide) label⟩,
      by decide⟩, fun hmem ↦ absurd (List.eq_of_mem_replicate hmem) (by decide)⟩

theorem Tidy.blankLine (h : Tidy text) : Tidy ((Text.ljust 8 [] ++ text).drop 8) :=
  h.drop_append (by decide) (by decide) (Text.isLineText_nil.ljust 8)

/-- A label has none of the characters of `data:`, so a renamed reference is tidy. -/
theorem Tidy.rename (h : Tidy text) (part : Part) (old new : ℤ) :
    Tidy (Text.replace (part.text ++ Text.str old) (part.text ++ Text.str new) text) := by
  have hne (z : ℤ) : part.text ++ Text.str z ≠ [] := by
    cases part <;> exact List.cons_ne_nil _ _
  have hletters : ∀ c ∈ "data:".toList, c ∉ "_pls".toList ∧ c.isDigit = false ∧ c ≠ '-' := by
    decide
  refine ⟨fun hdata ↦ h.noData ?_,
    h.lineText.replace ((isLineText_part part).append (Text.isLineText_str new))⟩
  refine Text.infix_of_infix_replace (p := 'd') (hne old) (hne new) (fun c hc hmem ↦ ?_) hdata
  obtain ⟨hpart, hdigit, hsign⟩ := hletters c hc
  rcases List.mem_append.mp hmem with hmem | hmem
  · exact not_mem_part_text hpart part hmem
  · exact not_mem_str hdigit hsign new hmem

theorem tidy_printWord {label : ℤ} {texts : List Text} (h : ∀ text ∈ texts, Tidy text) :
    ∀ inst ∈ printWord part label texts, Tidy (inst.drop 8) := by
  cases texts with
  | nil => exact nofun
  | cons first rest =>
    obtain ⟨hfirst, hrest⟩ := List.forall_mem_cons.mp h
    refine List.forall_mem_cons.mpr ⟨(hfirst.ljust 42).labelLine part label, fun inst hinst ↦ ?_⟩
    obtain ⟨text, htext, rfl⟩ := List.mem_map.mp hinst
    exact ((hrest text htext).ljust 42).blankLine

theorem lineText_of_printWord {label : ℤ} {texts : List Text}
    (h : AreLines (printWord part label texts)) : ∀ text ∈ texts, Text.IsLineText text := by
  cases texts with
  | nil => exact nofun
  | cons first rest =>
    obtain ⟨hfirst, hrest⟩ := List.forall_mem_cons.mp h
    refine List.forall_mem_cons.mpr ⟨hfirst.of_subset fun c hc ↦ ?_, fun text htext ↦ ?_⟩
    · exact List.mem_append_right _ (List.mem_append_left _ hc)
    · exact (hrest _ (List.mem_map_of_mem htext)).of_subset fun c hc ↦
        List.mem_append_right _ (List.mem_append_left _ hc)

end Texts

section Words

variable {part : Part} {w w' : Word} {s : InstGenerator × Draws}

theorem TidyWord.columned (h : TidyWord part w) (h₀ : 0 ≤ w.label) (hlt : w.label < 100000) :
    Columned part w where
  printed := h.printed
  label_nonneg := h₀
  label_lt := hlt
  noData inst hinst hdata := (h.texts inst hinst).noData ((data_infix_rstrip_iff _).mp hdata)
  lineText inst hinst := (h.texts inst hinst).lineText

theorem Readable.tidyWord (h : Readable part w) : TidyWord part w :=
  ⟨h.made.printed, fun inst hinst ↦
    ⟨fun hdata ↦ h.noData inst hinst ((data_infix_rstrip_iff _).mpr hdata), h.lineText inst hinst⟩⟩

theorem LegibleTemplate.not_mem {w : GenWord} (hw : LegibleTemplate w) {inst : Text}
    (hinst : inst ∈ w.insts) : ':' ∉ inst := by
  rcases hw.forms with hforms | ⟨-, hforms⟩
  · exact (hforms inst hinst).unlabelled ':' (by decide)
  · exact hforms inst hinst ':' (by decide)

theorem DrawnEntries.not_mem_subst {w : GenWord} {maxLabel : ℤ} {entries : List (Text × Text)}
    (h : DrawnEntries part w maxLabel entries) {inst : Text} (hinst : ':' ∉ inst) :
    ':' ∉ Text.subst entries inst := by
  intro hmem
  rcases Text.mem_subst hmem with hmem | ⟨entry, hentry, hmem⟩
  · exact hinst hmem
  · exact (h.drawn entry hentry).1 ':' hmem (by decide)

theorem tidyWord_of_populate_nop {label : ℤ}
    (h : (Word.new label ["nop".toList]).populate Dict.empty part = .ok w) : TidyWord part w := by
  have hlines : w.retInsts = printWord part label ["nop".toList] := retInsts_populate h
  refine ⟨.of_populate h, ?_⟩
  rw [hlines]
  exact tidy_printWord (List.forall_mem_singleton.mpr (.of_not_mem (by decide) (by decide)))

/-- The lines of a word of the generator. -/
theorem ensures_tidyWord {w : GenWord} {maxLabel : ℤ} (hw : LegibleTemplate w)
    (hlabel : 0 ≤ w.label) :
    Ensures (populateWord w maxLabel part) s fun w' _ ↦ TidyWord part w'.toWord := by
  have hprinted : Ensures (populateWord w maxLabel part) s fun w' _ ↦ Printed part w'.toWord := by
    rw [populateWord_eq hw.populated_eq]
    apply Ensures.bind .trivial
    intro opvals₁ s₁ _
    apply Ensures.bind .trivial
    intro opvals₂ s₂ _
    apply Ensures.bind (.lift (Q := fun word _ ↦ Printed part word) fun _ h ↦ .of_populate h)
    intro word s₃ hword
    exact .pure hword
  have hsized := @ensures_populateWord_of_template part s maxLabel w hw.toTemplate
  refine ((hprinted.and hsized).and (ensures_drawn hw hlabel)).mono ?_
  rintro w' s' ⟨⟨hprinted, hsized⟩, -, -, -, entries, hentries, hlines⟩
  have hall := hsized.lines
  refine ⟨hprinted, ?_⟩
  rw [hlines] at hall ⊢
  refine tidy_printWord fun text htext ↦ .of_not_mem ?_ (lineText_of_printWord hall text htext)
  obtain ⟨inst, hinst, rfl⟩ := List.mem_map.mp htext
  exact hentries.not_mem_subst (hw.not_mem hinst)

theorem TidyWord.resetLabel (hw : TidyWord part w) {newLabel : ℤ} {labels : Option (ℤ × ℤ)}
    (h : w.resetLabel newLabel part = .ok (w', labels)) :
    TidyWord part w' ∧ w'.label = newLabel := by
  have hprinted := hw.printed.resetLabel h
  obtain ⟨first, rest, hlines, -, -⟩ := hw.printed.lines
  have htexts := hw.texts
  rw [hlines] at htexts
  obtain ⟨hfirst, hrest⟩ := List.forall_mem_cons.mp htexts
  rw [Word.resetLabel, if_pos hw.printed.populated, hlines] at h
  obtain ⟨rfl, -⟩ := Prod.mk.inj (Except.ok.inj h)
  exact ⟨⟨hprinted, List.forall_mem_cons.mpr
    ⟨(hfirst.ljust 42).labelLine part newLabel, hrest⟩⟩, rfl⟩

theorem tidy_repopInst {labelMap : Dict ℤ ℤ} {maxLabel : ℤ} {draws draws' : Draws}
    {inst inst' : Text} (h : w.repopInst labelMap maxLabel part draws inst = .ok (inst', draws'))
    (hinst : Tidy (inst.drop 8)) : Tidy (inst'.drop 8) := by
  unfold Word.repopInst at h
  split at h
  · obtain ⟨old, -, h⟩ := bind_eq_ok.mp h
    obtain ⟨random, -, h⟩ := bind_eq_ok.mp h
    obtain ⟨rfl, -⟩ := Prod.mk.inj (Except.ok.inj h)
    have hlength : (Text.ljust 8 (inst.take 8)).length = 8 := by
      rw [Text.length_ljust, List.length_take]
      omega
    rw [List.drop_left' hlength]
    exact (hinst.rename part old _).ljust 50
  · obtain ⟨rfl, -⟩ := Prod.mk.inj (Except.ok.inj h)
    exact hinst

theorem TidyWord.repopLabel (hw : TidyWord part w) {labelMap : Dict ℤ ℤ} {maxLabel : ℤ}
    {draws draws' : Draws} (h : w.repopLabel labelMap maxLabel part draws = .ok (w', draws')) :
    TidyWord part w' ∧ w'.label = w.label := by
  have hprinted := hw.printed.repopLabel h
  obtain ⟨retInsts, rfl, hforall⟩ := repopLabel_eq_ok hw.printed.populated h tidy_repopInst
  refine ⟨⟨hprinted, fun inst' hinst' ↦ ?_⟩, rfl⟩
  obtain ⟨i, hi, rfl⟩ := List.getElem_of_mem hinst'
  have hi' : i < w.retInsts.length := hforall.length_eq ▸ hi
  exact hforall.get hi' hi (hw.texts _ (List.getElem_mem hi'))

theorem tidyWord_relabel {n : ℕ} {labelMap labelMap' : Dict ℤ ℤ} {words words' : List GenWord}
    (h : ∀ w ∈ words, TidyWord part w.toWord)
    (hrun : relabel part n labelMap words = .ok (words', labelMap')) :
    words'.length = words.length ∧ ∀ w ∈ words', TidyWord part w.toWord ∧ (n : ℤ) ≤ w.label ∧
      w.label < (n + words.length : ℕ) := by
  induction words generalizing n labelMap words' labelMap' with
  | nil =>
    obtain ⟨rfl, -⟩ := Prod.mk.inj (Except.ok.inj hrun)
    exact ⟨rfl, nofun⟩
  | cons w words ih =>
    obtain ⟨hw, hwords⟩ := List.forall_mem_cons.mp h
    obtain ⟨⟨word, tup⟩, hreset, hrun⟩ := bind_eq_ok.mp hrun
    obtain ⟨⟨rest, labelMap₁⟩, hrest, hrun⟩ := bind_eq_ok.mp hrun
    obtain ⟨rfl, -⟩ := Prod.mk.inj (Except.ok.inj hrun)
    obtain ⟨hword, hlabel⟩ := hw.resetLabel hreset
    obtain ⟨hlength, hall⟩ := ih hwords hrest
    refine ⟨congrArg (· + 1) hlength, List.forall_mem_cons.mpr ⟨⟨hword, ?_, ?_⟩, fun w' hw' ↦ ?_⟩⟩
    · exact hlabel.ge
    · dsimp only
      rw [hlabel, List.length_cons]
      omega
    · obtain ⟨hw', hlow, hhigh⟩ := hall w' hw'
      refine ⟨hw', by omega, ?_⟩
      rw [List.length_cons]
      omega

/-- `reset_labels` numbers the words, and their texts stay tidy. -/
theorem ensures_tidy_resetLabels {draws : Draws} {words : List GenWord}
    (h : ∀ w ∈ words, TidyWord part w.toWord) :
    Ensures (resetLabels words part) draws fun words' _ ↦ words'.length = words.length ∧
      ∀ w ∈ words', TidyWord part w.toWord ∧ 0 ≤ w.label ∧ w.label < words.length := by
  apply Ensures.bind (.lift (Q := fun r _ ↦ r.1.length = words.length ∧ ∀ w ∈ r.1,
    TidyWord part w.toWord ∧ 0 ≤ w.label ∧ w.label < (words.length : ℤ)) fun r hr ↦ ?relabelled)
  case relabelled =>
    simpa using tidyWord_relabel h hr
  intro ⟨words₁, labelMap⟩ draws₁ ⟨hlength, hwords₁⟩
  have hrepop : ∀ w ∈ words₁, ∀ draws, True → Ensures (do
      let word ← w.toWord.repopLabel labelMap words₁.length part
      return { w with toWord := word } : Stateful Draws GenWord) draws
      fun w' _ ↦ (TidyWord part w'.toWord ∧ 0 ≤ w'.label ∧ w'.label < words.length) ∧ True := by
    intro w hw draws _
    obtain ⟨htidy, hlabel⟩ := hwords₁ w hw
    constructor
    intro r hr
    obtain ⟨⟨word, draws'⟩, hword, hr⟩ := bind_eq_ok.mp hr
    obtain rfl := Except.ok.inj hr
    obtain ⟨htidy', hlabel'⟩ := htidy.repopLabel hword
    exact ⟨⟨htidy', hlabel' ▸ hlabel⟩, True.intro⟩
  refine (Ensures.mapM (C := fun _ w' ↦ TidyWord part w'.toWord ∧ 0 ≤ w'.label ∧
    w'.label < (words.length : ℤ)) hrepop True.intro).mono fun words₂ _ h₂ ↦ ?_
  refine ⟨h₂.1.length_eq.symm.trans hlength, fun w hw ↦ ?_⟩
  obtain ⟨i, hi, rfl⟩ := List.getElem_of_mem hw
  exact h₂.1.get (h₂.1.length_eq ▸ hi) hi

theorem wordInvariant_tidyWord : WordInvariant TidyWord where
  populated h := h.printed.populated
  populateWord hw hlabel := ensures_tidyWord hw hlabel
  nop h := tidyWord_of_populate_nop h
  resetLabels h := (ensures_tidy_resetLabels h).mono fun _ _ h' w hw ↦ (h'.2 w hw).1

/-- Mutated words are few, their labels are their places and their texts are tidy. -/
theorem ensures_tidy_mutateWords {seedWords : List GenWord}
    (h : ∀ w ∈ seedWords, TidyWord part w.toWord) (maxNum : ℕ) :
    Ensures (mutateWords seedWords part maxNum) s fun words _ ↦ words.length ≤ maxNum ∧
      ∀ w ∈ words, TidyWord part w.toWord ∧ 0 ≤ w.label ∧ w.label < maxNum := by
  apply Ensures.bind (wordInvariant_tidyWord.ensures_mutateLoop h)
  intro words s₁ hwords
  have htake : ∀ w ∈ words.take maxNum, TidyWord part w.toWord :=
    fun w hw ↦ hwords w (List.mem_of_mem_take hw)
  have hle : (words.take maxNum).length ≤ maxNum := List.length_take_le maxNum words
  apply Ensures.bind (.draw (ensures_tidy_resetLabels htake))
  intro words' s₂ ⟨hlength, hwords'⟩
  constructor
  intro r hr
  rw [wordInvariant_tidyWord.mapM_populated fun w hw ↦ (hwords' w hw).1] at hr
  obtain rfl := Except.ok.inj hr
  refine ⟨hlength.trans_le hle, fun w hw ↦ ?_⟩
  obtain ⟨htidy, hlow, hhigh⟩ := hwords' w hw
  exact ⟨htidy, hlow, by omega⟩

end Words

namespace SimInput

variable {x : SimInput} {words : List GenWord}

/-- The test with mutated main words. -/
def mutated (x : SimInput) (words : List GenWord) : SimInput :=
  { x with
    words := words.map GenWord.toWord
    numWords := words.length }

theorem Readable.written_mutated (hx : x.Readable) {maxNum : ℕ} (hmax : maxNum < 100000)
    (hlength : words.length ≤ maxNum) (hwords : ∀ w ∈ words,
      TidyWord .mainPart w.toWord ∧ 0 ≤ w.label ∧ w.label < maxNum) :
    (x.mutated words).Written where
  words part w hw := by
    cases part with
    | prefixPart => exact (hx.words .prefixPart w hw).columned
    | mainPart =>
      obtain ⟨w₀, hw₀, rfl⟩ := List.mem_map.mp hw
      obtain ⟨htidy, hlow, hhigh⟩ := hwords w₀ hw₀
      exact htidy.columned hlow (by omega)
    | suffixPart => exact (hx.words .suffixPart w hw).columned
  template := hx.template
  ints := hx.ints
  numWords := (List.length_map _).symm
  few := hlength.trans_lt hmax

theorem Readable.outer_mutated (hx : x.Readable) (words : List GenWord) : ∀ part, part ≠ .mainPart →
    ∀ w ∈ (x.mutated words).partWords part, Mutation.Readable part w := by
  intro part hpart w hw
  cases part with
  | prefixPart => exact hx.words .prefixPart w hw
  | mainPart => exact absurd rfl hpart
  | suffixPart => exact hx.words .suffixPart w hw

/-- `process` finds an interrupt value for each main instruction. -/
def HasInts (x : SimInput) : Prop :=
  ∃ insts popped, x.getInsts = .ok insts ∧
    Execution.Preprocessor.popInts insts.dropLast x.ints = .ok popped

theorem Written.hasInts (hx : x.Written) (h : x.Balanced) : x.HasInts := by
  have hinsts : x.getInsts = .ok _ :=
    partInsts_eq (fun w hw ↦ (hx.words .mainPart w hw).printed.populated) x.numWords
  have hlength : (x.words.flatMap retInsts).length ≤ x.ints.length := (Eq.symm h).le
  obtain ⟨popped, hpopped⟩ := exists_popInts_eq hlength
  refine ⟨_, popped, hinsts, ?_⟩
  rw [List.dropLast_concat]
  exact hpopped

end SimInput

/-- A file of a test that the format can hold, if it can be read at all. -/
def ReadableFile (contents : Text) : Prop :=
  ∀ (m : Mutator) (draws : Draws) {x data intr m' draws'},
    m.readSiminput contents draws = .ok ((x, data, intr), m', draws') →
      x.Readable ∧ ∀ word ∈ data, 0 ≤ word

section Files

variable {m m' : Mutator} {draws draws' : Draws}

theorem randomWords_ne_nil {n : ℕ} (hn : 0 < n) {words : List ℤ}
    (h : Mutator.randomWords n draws = .ok (words, draws')) : words ≠ [] := by
  obtain ⟨n, rfl⟩ := Nat.exists_eq_succ_of_ne_zero hn.ne'
  obtain ⟨⟨word, draws₁⟩, -, h⟩ := bind_eq_ok.mp h
  obtain ⟨⟨rest, draws₂⟩, -, h⟩ := bind_eq_ok.mp h
  obtain ⟨rfl, -⟩ := Prod.mk.inj (Except.ok.inj h)
  exact List.cons_ne_nil word rest

/-- The data under the new seed are those of the file, or new ones. -/
theorem exists_get?_addData {newData : List ℤ} {seed : ℕ}
    (h : m.addData newData draws = .ok (seed, m', draws')) :
    ∃ data, m'.randomData.get? seed = some data ∧ data ≠ [] ∧ (newData ≠ [] → data = newData) := by
  have hfinish {seed₁ : ℕ} {seeds : List ℕ} {data : List ℤ} {draws₁ : Draws}
      (heq : (seed₁, { m with
        randomData := m.randomData.set seed₁ data
        dataSeeds := seeds ++ [seed₁] }, draws₁) = (seed, m', draws')) :
      m'.randomData.get? seed = some data := by
    obtain ⟨rfl, htail⟩ := Prod.mk.inj heq
    obtain ⟨rfl, -⟩ := Prod.mk.inj htail
    exact Dict.get?_set_self _ _ _
  have hdraw {seed₁ : ℕ} {seeds : List ℕ}
      (h : (if newData = [] then Mutator.randomWords (64 * 6) draws >>= fun r ↦ .ok (seed₁, { m with
          randomData := m.randomData.set seed₁ r.1
          dataSeeds := seeds ++ [seed₁] }, r.2)
        else .ok (seed₁, { m with
          randomData := m.randomData.set seed₁ newData
          dataSeeds := seeds ++ [seed₁] }, draws)) = .ok (seed, m', draws')) :
      ∃ data, m'.randomData.get? seed = some data ∧ data ≠ [] ∧
        (newData ≠ [] → data = newData) := by
    split at h
    · next hnil =>
      obtain ⟨⟨data, draws₁⟩, hdata, heq⟩ := bind_eq_ok.mp h
      exact ⟨data, hfinish (Except.ok.inj heq), randomWords_ne_nil (by decide) hdata,
        fun hne ↦ absurd hnil hne⟩
    · next hne => exact ⟨newData, hfinish (Except.ok.inj h), hne, fun _ ↦ rfl⟩
  unfold Mutator.addData at h
  by_cases hfull : m.dataSeeds.length = m.maxData
  · rw [if_pos hfull] at h
    cases hseeds : m.dataSeeds with
    | nil =>
      rw [hseeds] at h
      exact nomatch h
    | cons seed₁ seeds =>
      rw [hseeds] at h
      exact hdraw h
  · rw [if_neg hfull] at h
    exact hdraw h

theorem data_ne_nil_of_readSiminput {contents : Text} {x : SimInput} {data : List ℤ} {intr : Bool}
    (h : m.readSiminput contents draws = .ok ((x, data, intr), m', draws')) : data ≠ [] := by
  unfold Mutator.readSiminput at h
  split at h
  · exact nomatch h
  · obtain ⟨template, -, h⟩ := bind_eq_ok.mp h
    split at h
    · exact nomatch h
    · obtain ⟨⟨r, newData⟩, -, h⟩ := bind_eq_ok.mp h
      obtain ⟨prefixWords, -, h⟩ := bind_eq_ok.mp h
      obtain ⟨words, -, h⟩ := bind_eq_ok.mp h
      obtain ⟨suffixWords, -, h⟩ := bind_eq_ok.mp h
      obtain ⟨⟨seed, m₁, draws₁⟩, hadd, h⟩ := bind_eq_ok.mp h
      obtain ⟨data₁, hget, hne, -⟩ := exists_get?_addData hadd
      dsimp only at h
      rw [hget] at h
      have heq := (Prod.mk.inj (Prod.mk.inj (Prod.mk.inj (Except.ok.inj h)).1).2).1
      exact heq ▸ hne

/-- What is written in the columns of the format is readable. -/
theorem readableFile_fileLines {x : SimInput} (hx : x.Columned) {data : List ℤ} (hne : data ≠ [])
    (hdata : ∀ word ∈ data, 0 ≤ word) :
    ReadableFile ((x.fileLines data).flatMap fun line ↦ line ++ ['\n']) := by
  intro m draws y data' intr m' draws' h
  rw [SimInput.readSiminput_fileLines hx hdata] at h
  obtain ⟨⟨seed, m₁, draws₁⟩, hadd, hfinish⟩ := bind_eq_ok.mp h
  obtain ⟨data₁, hget, -, hsame⟩ := exists_get?_addData hadd
  dsimp only at hfinish
  rw [hget, hsame hne] at hfinish
  obtain ⟨rfl, htail⟩ := Prod.mk.inj (Prod.mk.inj (Except.ok.inj hfinish)).1
  obtain ⟨rfl, -⟩ := Prod.mk.inj htail
  exact ⟨hx.reread seed, hdata⟩

end Files

namespace TestCaseProcessor

/-- The path of the file that a round writes. -/
def roundPath (outputDir mutateName : Text) (i : ℕ) : Text :=
  pathJoin outputDir (mutateName ++ '_' :: Text.dec (i + 1) ++ ".si".toList)

theorem eq_of_pathJoin_eq {dir name name' : Text} (hhead : name.head? = name'.head?)
    (h : pathJoin dir name = pathJoin dir name') : name = name' := by
  unfold pathJoin at h
  rw [hhead] at h
  split at h
  · exact h
  · split at h
    · exact List.append_cancel_left h
    · exact (List.cons.inj (List.append_cancel_left h)).2

theorem roundPath_injective (outputDir mutateName : Text) :
    Function.Injective (roundPath outputDir mutateName) := by
  intro i j h
  have hname := eq_of_pathJoin_eq (by cases mutateName <;> rfl) h
  have hnumber := List.append_cancel_left (List.append_cancel_right hname)
  exact Nat.succ.inj (Text.dec_injective (List.cons.inj hnumber).2)

variable {p p' : TestCaseProcessor} {inputPath mutateName : Text} {draws draws' : Draws}

/-- The input file, if there is one, is readable. -/
def ReadableInput (inputPath : Text) (p : TestCaseProcessor) : Prop :=
  ∀ contents, p.files.get? inputPath = some contents → ReadableFile contents

/-- For the main words of the file, `mutate_words` leaves as many lines as the file has interrupt
values, and no line that is longer than its columns. -/
def LeavesLines (inputPath : Text) (s : TestCaseProcessor × Draws) : Prop :=
  ∀ {contents x data intr mutator draws words generator draws'},
    s.1.files.get? inputPath = some contents →
    s.1.mutator.readTest contents s.2 = .ok ((x, data, intr), mutator, draws) →
    mutateWords (x.seedWords .mainPart) .mainPart 20 (s.1.mutatorGenerator, draws) =
      .ok (words, generator, draws') →
    (x.mutated words).Balanced ∧ (x.mutated words).Short

section Round

variable {contents : Text} {x : SimInput} {data : List ℤ} {intr : Bool} {mutator : RvMutator}
  {words : List GenWord} {generator : InstGenerator} {draws₁ draws₂ : Draws}

theorem leavesLines_iff (hget : p.files.get? inputPath = some contents)
    (hread : p.mutator.readTest contents draws = .ok ((x, data, intr), mutator, draws₁))
    (hwords : mutateWords (x.seedWords .mainPart) .mainPart 20 (p.mutatorGenerator, draws₁) =
      .ok (words, generator, draws₂)) :
    LeavesLines inputPath (p, draws) ↔ (x.mutated words).Balanced ∧ (x.mutated words).Short := by
  refine ⟨fun h ↦ h hget hread hwords, fun h ↦ ?_⟩
  intro contents' x' data' intr' mutator' draws₁' words' generator' draws₂' hget' hread' hwords'
  obtain rfl := Option.some.inj (hget.symm.trans hget')
  obtain ⟨htest, hstate⟩ := Prod.mk.inj (Except.ok.inj (hread.symm.trans hread'))
  obtain ⟨rfl, -⟩ := Prod.mk.inj htest
  obtain ⟨rfl, rfl⟩ := Prod.mk.inj hstate
  obtain ⟨rfl, -⟩ := Prod.mk.inj (Except.ok.inj (hwords.symm.trans hwords'))
  exact h

/-- What is read from a readable file can be written with any mutated words. -/
theorem written_of_readTest (hcontents : ReadableFile contents)
    (hread : p.mutator.readTest contents draws = .ok ((x, data, intr), mutator, draws₁))
    (hwords : mutateWords (x.seedWords .mainPart) .mainPart 20 (p.mutatorGenerator, draws₁) =
      .ok (words, generator, draws₂)) :
    x.Readable ∧ (x.mutated words).Written ∧ data ≠ [] ∧ ∀ word ∈ data, 0 ≤ word := by
  obtain ⟨⟨result, base, draws₃⟩, hbase, hresult⟩ := bind_eq_ok.mp hread
  obtain ⟨rfl, -⟩ := Prod.mk.inj (Except.ok.inj hresult)
  obtain ⟨hx, hdata⟩ := hcontents _ _ hbase
  have hseeds : ∀ w ∈ x.seedWords .mainPart, TidyWord .mainPart w.toWord :=
    forall_seedWords (fun part w hw ↦ (hx.words part w hw).tidyWord) .mainPart
  obtain ⟨hlength, htidy⟩ := (ensures_tidy_mutateWords hseeds 20).of_eq_ok _ hwords
  exact ⟨hx, hx.written_mutated (by decide) hlength htidy, data_ne_nil_of_readSiminput hbase, hdata⟩

/-- A round returns if the file can be read and its words can be mutated. -/
theorem mutateRound_eq (mutateName : Text) (hinput : ReadableInput inputPath p)
    (hget : p.files.get? inputPath = some contents)
    (hread : p.mutator.readTest contents draws = .ok ((x, data, intr), mutator, draws₁))
    (hwords : mutateWords (x.seedWords .mainPart) .mainPart 20 (p.mutatorGenerator, draws₁) =
      .ok (words, generator, draws₂)) (i : ℕ) :
    mutateRound inputPath mutateName i (p, draws) =
      .ok ((roundPath p.outputDir mutateName i, x.mutated words, x.dataSeed), { p with
        files := p.files.set (roundPath p.outputDir mutateName i)
          (((x.mutated words).shown.fileLines data).flatMap fun line ↦ line ++ ['\n'])
        mutator
        mutatorGenerator := generator }, draws₂) := by
  obtain ⟨-, hwritten, hne, -⟩ := written_of_readTest (hinput contents hget) hread hwords
  have hsave := SimInput.save_eq_shown hwritten hne
  unfold SimInput.mutated at hsave
  rw [mutateRound]
  dsimp only
  rw [hget]
  dsimp only
  rw [hread, ok_bind]
  dsimp only
  rw [hwords, ok_bind]
  dsimp only
  rw [hsave]
  rfl

end Round

/-- What a round writes. The next round can read it, if it takes the place of the input. -/
structure RoundSaves (inputPath mutateName : Text) (i : ℕ) (s : TestCaseProcessor × Draws)
    (r : Text × SimInput × ℕ) (p' : TestCaseProcessor) (contents : Text) : Prop where
  outputDir : p'.outputDir = s.1.outputDir
  files : p'.files = s.1.files.set (roundPath s.1.outputDir mutateName i) contents
  path : r.1 = roundPath s.1.outputDir mutateName i
  readable : ReadableFile contents
  saved : r.2.1.ReadsBack contents ∧ r.2.1.HasInts ↔ LeavesLines inputPath s

theorem exists_roundSaves (hinput : ReadableInput inputPath p) {i : ℕ} {r : Text × SimInput × ℕ}
    (h : mutateRound inputPath mutateName i (p, draws) = .ok (r, p', draws')) :
    ∃ contents, RoundSaves inputPath mutateName i (p, draws) r p' contents := by
  have hround := h
  unfold mutateRound at h
  dsimp only at h
  split at h
  · exact nomatch h
  · next contents hget =>
    obtain ⟨⟨⟨x, data, intr⟩, mutator, draws₁⟩, hread, h⟩ := bind_eq_ok.mp h
    obtain ⟨⟨words, generator, draws₂⟩, hwords, -⟩ := bind_eq_ok.mp h
    obtain ⟨hx, hwritten, hne, hdata⟩ := written_of_readTest (hinput contents hget) hread hwords
    rw [mutateRound_eq mutateName hinput hget hread hwords] at hround
    obtain ⟨rfl, hstate⟩ := Prod.mk.inj (Except.ok.inj hround)
    obtain ⟨rfl, -⟩ := Prod.mk.inj hstate
    have hback := SimInput.readsBack_iff hwritten (hx.outer_mutated words) hne hdata
    refine ⟨_, rfl, rfl, rfl, readableFile_fileLines hwritten.columned_shown hne hdata, ?_⟩
    rw [leavesLines_iff hget hread hwords]
    exact ⟨fun h ↦ hback.mp h.1, fun h ↦ ⟨hback.mpr h, hwritten.hasInts h.1⟩⟩

theorem RoundSaves.readableInput {i : ℕ} {r : Text × SimInput × ℕ} {contents : Text}
    (h : RoundSaves inputPath mutateName i (p, draws) r p' contents)
    (hinput : ReadableInput inputPath p) : ReadableInput inputPath p' := by
  intro contents' hget
  rw [h.files, Dict.get?_set] at hget
  split at hget
  · exact Option.some.inj hget ▸ h.readable
  · exact hinput contents' hget

/-- A round of a run: the rounds before it lead to its state, and its file is in the end as it was
written. -/
def Saved (inputPath mutateName : Text) (is : List ℕ) (s : TestCaseProcessor × Draws)
    (results : List (Text × SimInput × ℕ)) (p' : TestCaseProcessor) (n : ℕ) : Prop :=
  ∃ before r contents,
    (is.take n).mapM (mutateRound inputPath mutateName) s = .ok (results.take n, before) ∧
    results[n]? = some r ∧ p'.files.get? r.1 = some contents ∧
    (r.2.1.ReadsBack contents ∧ r.2.1.HasInts ↔ LeavesLines inputPath before)

/-- The files of the rounds stay as they were written, since no two have the same name. -/
theorem mutateRounds_save {is : List ℕ} (hnodup : is.Nodup) (hinput : ReadableInput inputPath p)
    {results : List (Text × SimInput × ℕ)}
    (h : is.mapM (mutateRound inputPath mutateName) (p, draws) = .ok (results, p', draws')) :
    (∀ path, (∀ i ∈ is, path ≠ roundPath p.outputDir mutateName i) →
      p'.files.get? path = p.files.get? path) ∧
    results.length = is.length ∧
    ∀ n < is.length, Saved inputPath mutateName is (p, draws) results p' n := by
  induction is generalizing p draws draws' results with
  | nil =>
    obtain ⟨rfl, hstate⟩ := Prod.mk.inj (Except.ok.inj h)
    obtain ⟨rfl, -⟩ := Prod.mk.inj hstate
    exact ⟨fun _ _ ↦ rfl, rfl, nofun⟩
  | cons i is ih =>
    obtain ⟨hi, hnodup⟩ := List.nodup_cons.mp hnodup
    rw [List.mapM_cons, bind_eq] at h
    obtain ⟨⟨r, p₁, draws₁⟩, hround, h⟩ := bind_eq_ok.mp h
    obtain ⟨⟨rest, p₂, draws₂⟩, hrest, h⟩ := bind_eq_ok.mp h
    obtain ⟨rfl, hstate⟩ := Prod.mk.inj (Except.ok.inj h)
    obtain ⟨rfl, -⟩ := Prod.mk.inj hstate
    obtain ⟨contents, hsaves⟩ := exists_roundSaves hinput hround
    obtain ⟨hkept, hlength, hall⟩ := ih hnodup (hsaves.readableInput hinput) hrest
    rw [hsaves.outputDir] at hkept
    have hfirst : ∀ j ∈ is, roundPath p.outputDir mutateName i ≠
        roundPath p.outputDir mutateName j := by
      intro j hj heq
      exact hi (roundPath_injective _ _ heq ▸ hj)
    refine ⟨fun path hpath ↦ ?_, congrArg (· + 1) hlength, fun n hn ↦ ?_⟩
    · obtain ⟨hne, hpath⟩ := List.forall_mem_cons.mp hpath
      rw [hkept path hpath, hsaves.files, Dict.get?_set_of_ne _ _ hne]
    · cases n with
      | zero =>
        refine ⟨(p, draws), r, contents, rfl, rfl, ?_, hsaves.saved⟩
        rw [hsaves.path, hkept _ hfirst, hsaves.files, Dict.get?_set_self]
      | succ n =>
        obtain ⟨before, r', contents', hbefore, hr', hfile, hsaved⟩ :=
          hall n (Nat.lt_of_succ_lt_succ hn)
        refine ⟨before, r', contents', ?_, hr', hfile, hsaved⟩
        rw [List.take_succ_cons, List.mapM_cons, bind_eq, hround, ok_bind, bind_eq, hbefore]
        rfl

/-- A test of one instruction, with its interrupt value. -/
def incTest : SimInput :=
  .new [] [{ label := 0
             insts := ["addi x1, x1, 1".toList]
             operands := []
             populated := true
             retInsts := ["_l0:    addi x1, x1, 1                            ".toList] }] [] [5] 0 2

theorem readable_incTest : incTest.Readable := by
  refine ⟨fun part ↦ ?_, by decide, rfl, by decide⟩
  cases part with
  | prefixPart => exact nofun
  | mainPart =>
    intro w hw
    obtain rfl := List.mem_singleton.mp hw
    have hmade : (Word.new 0 ["addi x1, x1, 1".toList]).populate Dict.empty .mainPart = .ok _ := rfl
    refine ⟨.populate hmade, by decide, by decide, by decide, by decide, ?_⟩
    unfold Text.IsLineText
    decide
  | suffixPart => exact nofun

def incFile : Text := (incTest.fileLines [7]).flatMap fun line ↦ line ++ ['\n']

def incPath : Text := "inc.si".toList

def incProcessor : TestCaseProcessor :=
  init "out".toList ((Dict.empty : Dict Text Text).set incPath incFile)

/-- The word is kept in the first round and dropped in the second one. -/
def keepOnce : Draws := fun n ↦ if n = 0 then 0 else dropAll n

theorem get?_incProcessor : incProcessor.files.get? incPath = some incFile :=
  Dict.get?_set_self _ _ _

theorem readableInput_incProcessor : ReadableInput incPath incProcessor := by
  intro contents hget
  obtain rfl := Option.some.inj (get?_incProcessor.symm.trans hget)
  exact readableFile_fileLines readable_incTest.columned (by decide) (by decide)

def incWords : List GenWord := (incTest.words.map reread).map Word.toGen

theorem exists_mutateWords_incWords (g : InstGenerator) : ∃ words,
    mutateWords incWords .mainPart 20 (g, keepOnce) = .ok (words, g, dropAll) ∧
      words.map (fun w ↦ w.retInsts) =
        [["_l0:    addi x1, x1, 1                            ".toList]] :=
  ⟨_, rfl, rfl⟩

theorem exists_readTest_incFile {m : RvMutator} (hm : 0 < m.maxData) (draws : Draws) :
    ∃ seed mutator, m.readTest incFile draws =
      .ok ((incTest.reread seed, [7], true), mutator, draws) ∧ 0 < mutator.maxData := by
  obtain ⟨seed, base, hread, hmax⟩ := SimInput.readSiminput_eq readable_incTest.columned
    (List.cons_ne_nil (7 : ℤ) []) (by decide) hm draws
  refine ⟨seed, { m with toMutator := base }, ?_, hmax ▸ hm⟩
  rw [RvMutator.readTest, incFile, hread]
  rfl

/-- A round over this file, which is still there afterwards. -/
theorem exists_incRound (mutateName : Text) (i : ℕ) {words : List GenWord}
    {generator : InstGenerator} (hinput : ReadableInput incPath p)
    (hget : p.files.get? incPath = some incFile) (hm : 0 < p.mutator.maxData)
    (hwords : mutateWords incWords .mainPart 20 (p.mutatorGenerator, draws) =
      .ok (words, generator, draws')) (hne : incPath ≠ roundPath p.outputDir mutateName i) :
    (∃ r p', mutateRound incPath mutateName i (p, draws) = .ok (r, p', draws') ∧
      ReadableInput incPath p' ∧ p'.files.get? incPath = some incFile ∧
      0 < p'.mutator.maxData ∧ p'.outputDir = p.outputDir) ∧
    (LeavesLines incPath (p, draws) ↔ 1 = (words.flatMap fun w ↦ w.retInsts).length ∧
      ∀ insts ∈ words.map fun w ↦ w.retInsts, ∀ inst ∈ insts,
        (Text.rstrip (inst.drop 8)).length ≤ 42) := by
  obtain ⟨seed, mutator, hread, hmax⟩ := exists_readTest_incFile hm draws
  have hround := mutateRound_eq mutateName hinput hget hread hwords i
  obtain ⟨contents, hsaves⟩ := exists_roundSaves hinput hround
  refine ⟨⟨_, _, hround, hsaves.readableInput hinput, ?_, hmax, rfl⟩, ?_⟩
  · exact (Dict.get?_set_of_ne _ _ hne).trans hget
  · rw [leavesLines_iff hget hread hwords, SimInput.Balanced, SimInput.Short]
    simp [SimInput.mutated, SimInput.reread, incTest, SimInput.new, List.flatMap_map]

/-- Two rounds. The first one keeps the line and the second one loses it. -/
theorem exists_incRun : ∃ first second before p',
    mutateTestCase incPath "mut".toList 2 (incProcessor, keepOnce) =
      .ok (some [first, second], p', dropAll) ∧
    (List.range 2).mapM (mutateRound incPath "mut".toList) (incProcessor, keepOnce) =
      .ok ([first, second], p', dropAll) ∧
    (List.range 1).mapM (mutateRound incPath "mut".toList) (incProcessor, keepOnce) =
      .ok ([first], before) ∧
    LeavesLines incPath (incProcessor, keepOnce) ∧ ¬ LeavesLines incPath before := by
  obtain ⟨words, hwords, hlines⟩ := exists_mutateWords_incWords InstGenerator.start
  obtain ⟨⟨first, p₁, hfirst, hinput, hget, hm, hdir⟩, hkeeps⟩ :=
    exists_incRound "mut".toList 0 readableInput_incProcessor get?_incProcessor (by decide)
      hwords (by decide)
  have hdrops := mutateWords_dropAll incWords .mainPart 20 p₁.mutatorGenerator
  obtain ⟨⟨second, p₂, hsecond, -⟩, hloses⟩ :=
    exists_incRound "mut".toList 1 hinput hget hm hdrops (hdir ▸ by decide)
  have hone : (List.range 1).mapM (mutateRound incPath "mut".toList) (incProcessor, keepOnce) =
      .ok ([first], p₁, dropAll) := by
    rw [List.range_one, List.mapM_cons, bind_eq, hfirst]
    rfl
  have htwo : (List.range 2).mapM (mutateRound incPath "mut".toList) (incProcessor, keepOnce) =
      .ok ([first, second], p₂, dropAll) := by
    have hrange : List.range 2 = [0, 1] := rfl
    rw [hrange, List.mapM_cons, bind_eq, hfirst, ok_bind, bind_eq, List.mapM_cons, bind_eq, hsecond]
    rfl
  refine ⟨first, second, (p₁, dropAll), p₂, ?_, htwo, hone, ?_, ?_⟩
  · have hmem : incPath ∈ incProcessor.files.keys := by decide
    rw [mutateTestCase, if_pos hmem, htwo]
    rfl
  · rw [hkeeps, List.flatMap_def, hlines]
    decide
  · rw [hloses]
    decide

/-- Each file that `mutate_test_case` leaves reads back to the test that is returned with it, and
this test has enough interrupt values, if and only if `mutate_words` has left as many main lines as
the input has interrupt values and no line that is too long. -/
theorem mutateTestCase_saves_iff (mutateCount : ℕ) (hinput : ReadableInput inputPath p)
    {results : List (Text × SimInput × ℕ)}
    (h : mutateTestCase inputPath mutateName mutateCount (p, draws) =
      .ok (some results, p', draws')) :
    results.length = mutateCount ∧ ∀ i < mutateCount, ∃ before r contents,
      (List.range i).mapM (mutateRound inputPath mutateName) (p, draws) =
        .ok (results.take i, before) ∧
      results[i]? = some r ∧ p'.files.get? r.1 = some contents ∧
      (r.2.1.ReadsBack contents ∧ r.2.1.HasInts ↔ LeavesLines inputPath before) := by
  unfold mutateTestCase at h
  split at h
  · obtain ⟨⟨results', s⟩, hrounds, h⟩ := bind_eq_ok.mp h
    obtain ⟨hresults, rfl⟩ := Prod.mk.inj (Except.ok.inj h)
    obtain rfl := Option.some.inj hresults
    obtain ⟨-, hlength, hall⟩ := mutateRounds_save List.nodup_range hinput hrounds
    rw [List.length_range] at hlength hall
    refine ⟨hlength, fun i hi ↦ ?_⟩
    have hsaved := hall i hi
    rw [Saved, List.take_range, Nat.min_eq_left hi.le] at hsaved
    exact hsaved
  · obtain ⟨hnone, -⟩ := Prod.mk.inj (Except.ok.inj h)
    exact nomatch hnone

/-- A round that drops the only word writes the label behind it as an instruction, so that its file
has a word that the test does not have. -/
theorem mutateTestCase_unsaved : ∃ results p' draws', ReadableInput incPath incProcessor ∧
    mutateTestCase incPath "mut".toList 2 (incProcessor, keepOnce) =
      .ok (some results, p', draws') ∧
    ∃ r ∈ results, ∃ contents, p'.files.get? r.1 = some contents ∧
      ¬ (r.2.1.ReadsBack contents ∧ r.2.1.HasInts) := by
  obtain ⟨first, second, before, p', hrun, htwo, hone, -, hloses⟩ := exists_incRun
  obtain ⟨-, -, hall⟩ := mutateRounds_save List.nodup_range readableInput_incProcessor htwo
  obtain ⟨before', r, contents, hbefore, hr, hfile, hsaved⟩ := hall 1 (by decide)
  obtain rfl : before = before' := (Prod.mk.inj (Except.ok.inj (hone.symm.trans hbefore))).2
  exact ⟨_, p', dropAll, readableInput_incProcessor, hrun, r, List.mem_of_getElem? hr, contents,
    hfile, fun h ↦ hloses (hsaved.mp h)⟩

/-- The file of the round that keeps the word reads back, that of the other one does not. -/
theorem mutateTestCase_saves_iff_twoRounds : ∃ results p' draws',
    mutateTestCase incPath "mut".toList 2 (incProcessor, keepOnce) =
      .ok (some results, p', draws') ∧ results.length = 2 ∧
    (∃ r contents, results[0]? = some r ∧ p'.files.get? r.1 = some contents ∧
      r.2.1.ReadsBack contents ∧ r.2.1.HasInts) ∧
    ∃ r contents, results[1]? = some r ∧ p'.files.get? r.1 = some contents ∧
      ¬ (r.2.1.ReadsBack contents ∧ r.2.1.HasInts) := by
  obtain ⟨first, second, before, p', hrun, -, hone, hkeeps, hloses⟩ := exists_incRun
  obtain ⟨hlength, hall⟩ := mutateTestCase_saves_iff 2 readableInput_incProcessor hrun
  obtain ⟨start, r, contents, hstart, hr, hfile, hsaved⟩ := hall 0 (by decide)
  obtain rfl : (incProcessor, keepOnce) = start := (Prod.mk.inj (Except.ok.inj hstart)).2
  obtain ⟨before', r', contents', hbefore, hr', hfile', hsaved'⟩ := hall 1 (by decide)
  obtain rfl : before = before' := (Prod.mk.inj (Except.ok.inj (hone.symm.trans hbefore))).2
  exact ⟨_, p', dropAll, hrun, hlength, ⟨r, contents, hr, hfile, hsaved.mpr hkeeps⟩,
    ⟨r', contents', hr', hfile', fun h ↦ hloses (hsaved'.mp h)⟩⟩

end TestCaseProcessor

end ProcessorFuzz.Mutation
