import ProcessorFuzz.Mutation.RvMutator

/-!
# Renumbering the labels of a part

`reset_labels` numbers the words of a part from 0 on. It prints the new labels in front of the
words, notes which label has become which, and then renames the references: one to a word of the
list becomes one to the new label of this word, and any other one a reference to some later label.
Whatever is not a label stays as it is, but for blanks at the end of a line.
-/

namespace ProcessorFuzz.Mutation

open Library Library.Stateful

/-- A text with one reference to a label of the part, behind a comma and before a blank or the end
of the line. -/
structure RefersTo (part : Part) (text before : Text) (m : ℕ) (after : Text) : Prop where
  text_eq : text = before ++ ", ".toList ++ part.text ++ Text.dec m ++ after
  before_plain : ¬ part.text <:+: before
  after_plain : ¬ part.text <:+: after
  after_blank : ∀ c ∈ after.head?, c = ' '

/-- A text with at most one reference, and no other place where the letters of the part stand. -/
def LabelText (part : Part) (text : Text) : Prop :=
  ¬ part.text <:+: text ∨ ∃ before m after, RefersTo part text before m after

/-- The text with blanks behind it. -/
def Padded (text text' : Text) : Prop := ∃ n, text' = text ++ List.replicate n ' '

/-- The text with its reference renamed, if it has one, and blanks behind it. -/
inductive Renamed (part : Part) (rename : ℕ → ℕ → Prop) (text text' : Text) : Prop
  | plain (h : ¬ part.text <:+: text) (h' : Padded text text')
  | reference {before after : Text} {m m' : ℕ} (h : RefersTo part text before m after)
    (hrename : rename m m')
    (h' : Padded (before ++ ", ".toList ++ part.text ++ Text.dec m' ++ after) text')

theorem padded_ljust (width : ℕ) (text : Text) : Padded text (Text.ljust width text) :=
  ⟨_, Text.ljust_eq_append width text⟩

theorem Padded.refl (text : Text) : Padded text text := ⟨0, (List.append_nil text).symm⟩

theorem Padded.trans {text text' text'' : Text} (h : Padded text text') (h' : Padded text' text'') :
    Padded text text'' := by
  obtain ⟨n, rfl⟩ := h
  obtain ⟨n', rfl⟩ := h'
  exact ⟨n + n', by rw [List.append_assoc, List.replicate_append_replicate]⟩

section References

variable {part : Part} {text before after : Text} {m : ℕ}

theorem exists_part_text_eq (part : Part) : ∃ c, part.text = ['_', c] ∧ c ≠ ' ' := by
  cases part <;> exact ⟨_, rfl, by decide⟩

theorem not_mem_part_text {c : Char} (hc : c ∉ "_pls".toList) (part : Part) : c ∉ part.text := by
  have hsubset : ∀ c ∈ part.text, c ∈ "_pls".toList := by cases part <;> decide
  exact fun h ↦ hc (hsubset c h)

/-- The separator at which `repop_label` splits a line. -/
def labelSep (part : Part) : Text := ", ".toList ++ part.text

theorem not_infix_labelSep (htext : ¬ part.text <:+: text) : ¬ labelSep part <:+: text :=
  fun h ↦ htext ((List.suffix_append ", ".toList part.text).isInfix.trans h)

theorem not_infix_labelSep_append {columns : Text} (hcolumns : ',' ∉ columns)
    (htext : ¬ part.text <:+: text) : ¬ labelSep part <:+: columns ++ text := by
  have hsep : labelSep part = ',' :: (' ' :: part.text) := rfl
  rw [hsep, Text.infix_append_iff_of_not_mem hcolumns]
  exact not_infix_labelSep htext

theorem not_infix_dec_append (hafter : ¬ part.text <:+: after) :
    ¬ part.text <:+: Text.dec m ++ after := by
  obtain ⟨c, hpart, -⟩ := exists_part_text_eq part
  rw [hpart] at hafter ⊢
  rwa [Text.infix_append_iff_of_not_mem (Text.not_mem_dec (by decide))]

namespace RefersTo

/-- What `repop_label` finds between the reference and the next one. -/
theorem split_eq (h : RefersTo part text before m after) {columns : Text}
    (hcolumns : ',' ∉ columns) :
    Text.split (labelSep part) (columns ++ text) = [columns ++ before, Text.dec m ++ after] := by
  have hsep : labelSep part = ',' :: (' ' :: part.text) := rfl
  have hcomma : ',' ∉ ' ' :: part.text := by
    simpa using not_mem_part_text (by decide) part
  have hbefore : ¬ ',' :: (' ' :: part.text) <:+: columns ++ before :=
    not_infix_labelSep_append hcolumns h.before_plain
  have hafter : ¬ ',' :: (' ' :: part.text) <:+: Text.dec m ++ after :=
    not_infix_labelSep (not_infix_dec_append h.after_plain)
  have hline : columns ++ text =
      columns ++ before ++ ',' :: (' ' :: part.text) ++ (Text.dec m ++ after) := by
    rw [h.text_eq]
    simp
  rw [hline, hsep, Text.split_append hcomma hbefore, Text.split_of_not_isInfix hafter]

/-- The number of the reference. -/
theorem split_head_eq (h : RefersTo part text before m after) :
    (Text.split [' '] (Text.dec m ++ after))[0]? = some (Text.dec m) := by
  have hdec : ∀ c ∈ Text.dec m, decide (c ≠ ' ') = true := by
    intro c hc
    apply decide_eq_true
    rintro rfl
    exact Text.not_mem_dec (by decide) hc
  have hafter : after.takeWhile (· ≠ ' ') = [] := by
    cases hcase : after with
    | nil => rfl
    | cons c rest =>
      have hc : c = ' ' := h.after_blank c (by rw [hcase]; rfl)
      rw [hc]
      rfl
  rw [Text.split_head, List.takeWhile_append_of_pos hdec, hafter, List.append_nil]

/-- Only the reference is replaced. -/
theorem replace_eq (h : RefersTo part text before m after) (new : Text) :
    Text.replace (part.text ++ Text.dec m) (part.text ++ new) text =
      before ++ ", ".toList ++ part.text ++ new ++ after := by
  have hne : part.text ++ Text.dec m ≠ [] := by
    cases part <;> exact List.cons_ne_nil _ _
  have hblank : ' ' ∉ part.text ++ Text.dec m := by
    intro hmem
    rcases List.mem_append.mp hmem with hmem | hmem
    · exact not_mem_part_text (by decide) part hmem
    · exact Text.not_mem_dec (by decide) hmem
  have hbegins : part.text <:+: part.text ++ Text.dec m :=
    (List.prefix_append part.text (Text.dec m)).isInfix
  have hcomma : ',' ∉ part.text := not_mem_part_text (by decide) part
  have hbefore : ¬ part.text ++ Text.dec m <:+: before ++ [','] := by
    intro hi
    rcases (Text.infix_append_cons_iff hcomma).mp (hbegins.trans hi) with hi | hi
    · exact h.before_plain hi
    · have hnil : part.text ≠ [] := by cases part <;> exact List.cons_ne_nil _ _
      exact hnil (List.infix_nil.mp hi)
  have hafter : ¬ part.text ++ Text.dec m <:+: after := fun hi ↦ h.after_plain (hbegins.trans hi)
  have hline : text = (before ++ [',']) ++ ' ' :: (part.text ++ Text.dec m ++ after) := by
    rw [h.text_eq]
    simp
  rw [hline, Text.replace_append_cons hne _ hblank, Text.replace_of_not_isInfix _ hbefore,
    Text.replace_prefix hne, Text.replace_of_not_isInfix _ hafter]
  simp

/-- A text has at most one reference. -/
theorem unique (h : RefersTo part text before m after) {before' after' : Text} {m' : ℕ}
    (h' : RefersTo part text before' m' after') : before = before' ∧ m = m' ∧ after = after' := by
  have hsplit := (h.split_eq List.not_mem_nil).symm.trans (h'.split_eq List.not_mem_nil)
  simp only [List.nil_append, List.cons.injEq, and_true] at hsplit
  obtain ⟨hbefore, htail⟩ := hsplit
  have hhead := h.split_head_eq
  rw [htail, h'.split_head_eq] at hhead
  obtain rfl : m' = m := Text.dec_injective (Option.some.inj hhead)
  exact ⟨hbefore, rfl, List.append_cancel_left htail⟩

theorem not_plain (h : RefersTo part text before m after) : part.text <:+: text := by
  rw [h.text_eq, List.append_assoc _ (Text.dec m)]
  exact (List.infix_append _ part.text _)

end RefersTo

theorem not_infix_padded (h : ¬ part.text <:+: text) (n : ℕ) :
    ¬ part.text <:+: text ++ List.replicate n ' ' := by
  obtain ⟨c, hpart, hc⟩ := exists_part_text_eq part
  have hblank : c ∉ List.replicate n ' ' := fun hmem ↦ hc (List.eq_of_mem_replicate hmem)
  have hsplit : part.text = ['_'] ++ [c] := hpart
  rw [hsplit] at h ⊢
  rwa [Text.infix_append_iff_of_not_mem_right hblank]

theorem RefersTo.padded (h : RefersTo part text before m after) (n : ℕ) :
    RefersTo part (text ++ List.replicate n ' ') before m (after ++ List.replicate n ' ') where
  text_eq := by rw [h.text_eq, List.append_assoc _ after]
  before_plain := h.before_plain
  after_plain := not_infix_padded h.after_plain n
  after_blank := by
    have hafter := h.after_blank
    cases after with
    | nil =>
      cases n with
      | zero => exact nofun
      | succ n => exact fun c hc ↦ (Option.some.inj hc).symm
    | cons c after => exact hafter

theorem LabelText.padded (h : LabelText part text) {text' : Text} (hpad : Padded text text') :
    LabelText part text' := by
  obtain ⟨n, rfl⟩ := hpad
  rcases h with hplain | ⟨before, m, after, h⟩
  · exact .inl (not_infix_padded hplain n)
  · exact .inr ⟨before, m, _, h.padded n⟩

/-- Blanks behind a text do not change what its reference becomes. -/
theorem Renamed.of_padded (htext : LabelText part text) {text' text'' : Text}
    (hpad : Padded text text') {rename : ℕ → ℕ → Prop} (h : Renamed part rename text' text'') :
    Renamed part rename text text'' := by
  obtain ⟨n, rfl⟩ := hpad
  rcases htext with hplain | ⟨before, m, after, href⟩
  · cases h with
    | plain _ h' => exact .plain hplain (Padded.trans ⟨n, rfl⟩ h')
    | reference h => exact absurd h.not_plain (not_infix_padded hplain n)
  · cases h with
    | plain h => exact absurd (href.padded n).not_plain h
    | reference h hrename h' =>
      obtain ⟨rfl, rfl, rfl⟩ := (href.padded n).unique h
      refine .reference href hrename (Padded.trans ⟨n, ?_⟩ h')
      exact (List.append_assoc _ after _).symm

theorem Renamed.mono {text' : Text} {rename rename' : ℕ → ℕ → Prop}
    (h : Renamed part rename text text') (hrename : ∀ m m', rename m m' → rename' m m') :
    Renamed part rename' text text' := by
  cases h with
  | plain h h' => exact .plain h h'
  | reference h hm h' => exact .reference h (hrename _ _ hm) h'

end References

/-- The lines of a word with the given label. -/
def showLines (part : Part) (label : ℤ) : List Text → List Text
  | [] => []
  | first :: rest => (Text.ljust 8 (Word.labelText part label) ++ first) ::
      rest.map fun text ↦ List.replicate 8 ' ' ++ text

/-- The lines of a word without the columns of the label. -/
def Word.texts (w : Word) : List Text := w.retInsts.map (List.drop 8)

/-- A populated word with a label that fits in its columns and with at most one reference in each
line. -/
structure Labelled (part : Part) (w : Word) : Prop where
  populated : w.populated = true
  label_nonneg : 0 ≤ w.label
  label_lt : w.label < 100000
  retInsts_ne_nil : w.retInsts ≠ []
  retInsts_eq : w.retInsts = showLines part w.label w.texts
  texts : ∀ text ∈ w.texts, LabelText part text

section Columns

variable {part : Part} {label : ℤ}

theorem length_labelColumns (h₀ : 0 ≤ label) (h : label < 100000) :
    (Text.ljust 8 (Word.labelText part label)).length = 8 := by
  rw [Text.length_ljust, Nat.max_eq_left (Word.length_labelText h₀ h)]

theorem comma_not_mem_labelColumns (h₀ : 0 ≤ label) :
    ',' ∉ Text.ljust 8 (Word.labelText part label) := by
  lift label to ℕ using h₀
  have hstr : Text.str (label : ℤ) = Text.dec label := rfl
  rw [Text.ljust_eq_append, Word.labelText, hstr]
  intro hmem
  rcases List.mem_append.mp hmem with hmem | hmem
  · rcases List.mem_append.mp hmem with hmem | hmem
    · rcases List.mem_append.mp hmem with hmem | hmem
      · exact not_mem_part_text (by decide) part hmem
      · exact Text.not_mem_dec (by decide) hmem
    · exact absurd hmem (by decide)
  · exact absurd (List.eq_of_mem_replicate hmem) (by decide)

/-- The columns of the label and the text of a line. -/
theorem texts_of_showLines (h₀ : 0 ≤ label) (h : label < 100000) {w : Word} {texts : List Text}
    (hlines : w.retInsts = showLines part label texts) : w.texts = texts := by
  rw [Word.texts, hlines]
  cases texts with
  | nil => rfl
  | cons first rest =>
    rw [showLines, List.map_cons, List.drop_left' (length_labelColumns h₀ h), List.map_map]
    congr 1
    apply List.map_id''
    intro text
    exact List.drop_left' List.length_replicate

end Columns

/-- What a reference to the label `m` may become. -/
def NewReference (labelMap : Dict ℤ ℤ) (label maxLabel : ℤ) (m m' : ℕ) : Prop :=
  labelMap.get? m = some (m' : ℤ) ∨ (labelMap.get? m = none ∧ label < m' ∧ (m' : ℤ) ≤ maxLabel)

section Repop

variable {part : Part} {w : Word} {labelMap : Dict ℤ ℤ} {maxLabel : ℤ} {columns text : Text}

theorem repopInst_plain (hcolumns : ',' ∉ columns) (htext : ¬ part.text <:+: text)
    (draws : Draws) : w.repopInst labelMap maxLabel part draws (columns ++ text) =
      .ok (columns ++ text, draws) := by
  have hsplit : Text.split (", ".toList ++ part.text) (columns ++ text) = [columns ++ text] :=
    Text.split_of_not_isInfix (not_infix_labelSep_append hcolumns htext)
  rw [Word.repopInst, hsplit]
  rfl

/-- A reference is renamed by the map, or to a label that is drawn. -/
theorem exists_repopInst_reference {before after : Text} {m : ℕ}
    (h : RefersTo part text before m after) (hcolumns : ',' ∉ columns)
    (hlength : columns.length = 8) (hmap : ∀ v ∈ labelMap.values, 0 ≤ v) (hlabel : 0 ≤ w.label)
    (hlt : w.label < maxLabel) (draws : Draws) :
    ∃ m' draws', w.repopInst labelMap maxLabel part draws (columns ++ text) =
        .ok (columns ++ Text.ljust 50 (before ++ ", ".toList ++ part.text ++ Text.dec m' ++ after),
          draws') ∧ NewReference labelMap w.label maxLabel m m' := by
  have hreturns : Returns (Draws.randint (w.label + 1) maxLabel) draws fun n _ ↦
      (w.label + 1 ≤ n ∧ n ≤ maxLabel) ∧ True :=
    Returns.randint (by omega) (fun _ _ ↦ True.intro) True.intro
  obtain ⟨⟨random, draws'⟩, hdraw, ⟨hlow, hhigh⟩, -⟩ := hreturns
  dsimp only at hlow hhigh
  have hnew : ∃ m' : ℕ, labelMap.getD (m : ℤ) random = m' ∧
      NewReference labelMap w.label maxLabel m m' := by
    cases hget : labelMap.get? (m : ℤ) with
    | none =>
      refine ⟨random.toNat, ?_, .inr ⟨hget, ?_, ?_⟩⟩
      · rw [Dict.getD, hget, Option.getD_none, Int.toNat_of_nonneg (by omega)]
      · rw [Int.toNat_of_nonneg (by omega)]
        exact hlow
      · rwa [Int.toNat_of_nonneg (by omega)]
    | some v =>
      have hv : 0 ≤ v := hmap v (Dict.mem_values_iff.mpr ⟨m, hget⟩)
      refine ⟨v.toNat, ?_, .inl ?_⟩
      · rw [Dict.getD, hget, Option.getD_some, Int.toNat_of_nonneg hv]
      · rw [hget, Int.toNat_of_nonneg hv]
  obtain ⟨m', hm', hrename⟩ := hnew
  refine ⟨m', draws', ?_, hrename⟩
  have hsplit := h.split_eq hcolumns
  have htake : (columns ++ text).take 8 = columns := List.take_left' hlength
  have hdrop : (columns ++ text).drop 8 = text := List.drop_left' hlength
  have hstr : ∀ n : ℕ, Text.str (n : ℤ) = Text.dec n := fun _ ↦ rfl
  have hfirst : Text.ljust 8 columns = columns := by
    rw [Text.ljust_eq_append, hlength]
    exact List.append_nil columns
  unfold labelSep at hsplit
  rw [Word.repopInst, hsplit]
  dsimp only
  rw [h.split_head_eq, Option.getD_some, Text.int_dec, ok_bind, hdraw, ok_bind]
  dsimp only
  rw [hm', hdrop, htake, hstr, hstr, h.replace_eq, hfirst]
  rfl

theorem exists_repopInst (htext : LabelText part text) (hcolumns : ',' ∉ columns)
    (hlength : columns.length = 8) (hmap : ∀ v ∈ labelMap.values, 0 ≤ v) (hlabel : 0 ≤ w.label)
    (hlt : w.label < maxLabel) (draws : Draws) :
    ∃ text' draws', w.repopInst labelMap maxLabel part draws (columns ++ text) =
      .ok (columns ++ text', draws') ∧
        Renamed part (NewReference labelMap w.label maxLabel) text text' := by
  rcases htext with hplain | ⟨before, m, after, h⟩
  · exact ⟨text, draws, repopInst_plain hcolumns hplain draws, .plain hplain (.refl text)⟩
  · obtain ⟨m', draws', hrepop, hrename⟩ :=
      exists_repopInst_reference h hcolumns hlength hmap hlabel hlt draws
    exact ⟨_, draws', hrepop, .reference h hrename (padded_ljust 50 _)⟩

/-- The loop of `repop_label`, over lines that can all be renamed. -/
theorem exists_repopInsts {R : Text → Text → Prop} {insts : List Text}
    (h : ∀ inst ∈ insts, ∀ draws, ∃ inst' draws',
      w.repopInst labelMap maxLabel part draws inst = .ok (inst', draws') ∧ R inst inst')
    (done : List Text) (draws : Draws) :
    ∃ new draws', insts.foldlM (fun state inst ↦ do
      let (inst, draws) ← w.repopInst labelMap maxLabel part state.2 inst
      return (state.1 ++ [inst], draws)) (done, draws) = (.ok (done ++ new, draws') :
        Except PyError (List Text × Draws)) ∧ List.Forall₂ R insts new := by
  induction insts generalizing done draws with
  | nil => exact ⟨[], draws, by rw [List.append_nil]; rfl, .nil⟩
  | cons inst insts ih =>
    obtain ⟨hinst, hinsts⟩ := List.forall_mem_cons.mp h
    obtain ⟨inst', draws₁, hrepop, hR⟩ := hinst draws
    obtain ⟨new, draws₂, hrest, hforall⟩ := ih hinsts (done ++ [inst']) draws₁
    refine ⟨inst' :: new, draws₂, ?_, .cons hR hforall⟩
    rw [List.foldlM_cons, hrepop]
    simpa using hrest

theorem exists_repopLabel {R : Text → Text → Prop} (hw : w.populated = true)
    (h : ∀ inst ∈ w.retInsts, ∀ draws, ∃ inst' draws',
      w.repopInst labelMap maxLabel part draws inst = .ok (inst', draws') ∧ R inst inst')
    (draws : Draws) :
    ∃ retInsts draws', w.repopLabel labelMap maxLabel part draws =
      .ok ({ w with retInsts }, draws') ∧ List.Forall₂ R w.retInsts retInsts := by
  obtain ⟨new, draws', hrun, hforall⟩ := exists_repopInsts h [] draws
  rw [List.nil_append] at hrun
  refine ⟨new, draws', ?_, hforall⟩
  rw [Word.repopLabel, if_pos hw, hrun]
  rfl

/-- A line with its columns as before and its reference renamed. -/
def Reprinted (part : Part) (rename : ℕ → ℕ → Prop) (inst inst' : Text) : Prop :=
  ∃ columns text text', columns.length = 8 ∧ inst = columns ++ text ∧ inst' = columns ++ text' ∧
    Renamed part rename text text'

theorem Reprinted.exists_eq {rename : ℕ → ℕ → Prop} {inst' : Text} (hlength : columns.length = 8)
    (h : Reprinted part rename (columns ++ text) inst') :
    ∃ text', inst' = columns ++ text' ∧ Renamed part rename text text' := by
  obtain ⟨columns', text₀, text', hlength', hinst, rfl, hrenamed⟩ := h
  obtain ⟨rfl, rfl⟩ := List.append_inj hinst (hlength.trans hlength'.symm)
  exact ⟨text', rfl, hrenamed⟩

theorem exists_blankLines_of_reprinted {rename : ℕ → ℕ → Prop} {texts insts : List Text}
    (h : List.Forall₂ (Reprinted part rename)
      (texts.map fun text ↦ List.replicate 8 ' ' ++ text) insts) :
    ∃ texts', insts = (texts'.map fun text ↦ List.replicate 8 ' ' ++ text) ∧
      List.Forall₂ (Renamed part rename) texts texts' := by
  induction texts generalizing insts with
  | nil =>
    cases h
    exact ⟨[], rfl, .nil⟩
  | cons text texts ih =>
    obtain ⟨inst', insts', hinst, hinsts, rfl⟩ := List.forall₂_cons_left_iff.mp h
    obtain ⟨text', rfl, hrenamed⟩ := hinst.exists_eq List.length_replicate
    obtain ⟨texts', rfl, hforall⟩ := ih hinsts
    exact ⟨text' :: texts', rfl, .cons hrenamed hforall⟩

theorem exists_showLines_of_reprinted {rename : ℕ → ℕ → Prop} {label : ℤ} (h₀ : 0 ≤ label)
    (hlt : label < 100000) {texts insts : List Text}
    (h : List.Forall₂ (Reprinted part rename) (showLines part label texts) insts) :
    ∃ texts', insts = showLines part label texts' ∧
      List.Forall₂ (Renamed part rename) texts texts' := by
  cases texts with
  | nil =>
    cases h
    exact ⟨[], rfl, .nil⟩
  | cons first rest =>
    obtain ⟨inst', insts', hinst, hinsts, rfl⟩ := List.forall₂_cons_left_iff.mp h
    obtain ⟨first', rfl, hrenamed⟩ := hinst.exists_eq (length_labelColumns h₀ hlt)
    obtain ⟨rest', rfl, hforall⟩ := exists_blankLines_of_reprinted hinsts
    exact ⟨first' :: rest', rfl, .cons hrenamed hforall⟩

/-- The references of a word are renamed, and its columns stay. -/
theorem exists_repopLabel_showLines {texts : List Text} (hw : w.populated = true)
    (hlines : w.retInsts = showLines part w.label texts)
    (htexts : ∀ text ∈ texts, LabelText part text) (hmap : ∀ v ∈ labelMap.values, 0 ≤ v)
    (hlabel : 0 ≤ w.label) (hlabel' : w.label < 100000) (hlt : w.label < maxLabel)
    (draws : Draws) :
    ∃ texts' draws', w.repopLabel labelMap maxLabel part draws =
      .ok ({ w with retInsts := showLines part w.label texts' }, draws') ∧
        List.Forall₂ (Renamed part (NewReference labelMap w.label maxLabel)) texts texts' := by
  have hrename : ∀ columns : Text, columns.length = 8 → ',' ∉ columns → ∀ text ∈ texts, ∀ draws,
      ∃ inst' draws', w.repopInst labelMap maxLabel part draws (columns ++ text) =
        .ok (inst', draws') ∧ Reprinted part (NewReference labelMap w.label maxLabel)
          (columns ++ text) inst' := by
    intro columns hlength hcolumns text htext draws
    obtain ⟨text', draws', hrepop, hrenamed⟩ :=
      exists_repopInst (htexts text htext) hcolumns hlength hmap hlabel hlt draws
    exact ⟨_, draws', hrepop, columns, text, text', hlength, rfl, rfl, hrenamed⟩
  have hlines' : ∀ inst ∈ w.retInsts, ∀ draws, ∃ inst' draws',
      w.repopInst labelMap maxLabel part draws inst = .ok (inst', draws') ∧
        Reprinted part (NewReference labelMap w.label maxLabel) inst inst' := by
    rw [hlines]
    cases texts with
    | nil => exact nofun
    | cons first rest =>
      have hblanks : ',' ∉ List.replicate 8 ' ' := by decide
      refine List.forall_mem_cons.mpr ⟨?_, fun inst hinst ↦ ?_⟩
      · exact hrename _ (length_labelColumns hlabel hlabel') (comma_not_mem_labelColumns hlabel)
          first List.mem_cons_self
      · obtain ⟨text, htext, rfl⟩ := List.mem_map.mp hinst
        exact hrename _ List.length_replicate hblanks text (List.mem_cons_of_mem first htext)
  obtain ⟨retInsts, draws', hrepop, hforall⟩ := exists_repopLabel hw hlines' draws
  rw [hlines] at hforall
  obtain ⟨texts', rfl, htexts'⟩ := exists_showLines_of_reprinted hlabel hlabel' hforall
  exact ⟨texts', draws', hrepop, htexts'⟩

end Repop

/-- The texts of a word after `reset_label`. -/
def padFirst : List Text → List Text
  | [] => []
  | first :: rest => Text.ljust 42 first :: rest

def relabelWord (part : Part) (n : ℤ) (w : Word) : Word :=
  { w with label := n, retInsts := showLines part n (padFirst w.texts) }

section Relabel

variable {part : Part} {words : List GenWord} {w : Word}

theorem Labelled.resetLabel_eq (h : Labelled part w) (n : ℤ) :
    w.resetLabel n part = .ok (relabelWord part n w, some (w.label, n)) := by
  obtain ⟨first, rest, hlines⟩ := List.exists_cons_of_ne_nil h.retInsts_ne_nil
  have htail : rest = (rest.map (List.drop 8)).map fun text ↦ List.replicate 8 ' ' ++ text := by
    have hshow := h.retInsts_eq
    rw [Word.texts, hlines, List.map_cons, showLines] at hshow
    exact (List.cons.inj hshow).2
  rw [Word.resetLabel, if_pos h.populated, hlines, relabelWord, Word.texts, hlines, List.map_cons,
    padFirst, showLines, ← htail]

theorem Labelled.padFirst_texts (h : Labelled part w) :
    ∀ text ∈ padFirst w.texts, LabelText part text := by
  have htexts := h.texts
  cases hcase : w.texts with
  | nil => exact nofun
  | cons first rest =>
    rw [hcase] at htexts
    obtain ⟨hfirst, hrest⟩ := List.forall_mem_cons.mp htexts
    exact List.forall_mem_cons.mpr ⟨hfirst.padded (padded_ljust 42 first), hrest⟩

/-- The labels of the words and what they become. -/
def labelEntries (n : ℕ) (words : List GenWord) : List (ℤ × ℤ) :=
  (words.zipIdx n).map fun entry ↦ (entry.1.label, (entry.2 : ℤ))

theorem relabel_eq (h : ∀ w ∈ words, Labelled part w.toWord) (n : ℕ) (labelMap : Dict ℤ ℤ) :
    relabel part n labelMap words = .ok ((words.zipIdx n).map fun entry ↦
      { entry.1 with toWord := relabelWord part entry.2 entry.1.toWord },
      labelMap.update (labelEntries n words)) := by
  induction words generalizing n labelMap with
  | nil => rfl
  | cons w words ih =>
    obtain ⟨hw, hwords⟩ := List.forall_mem_cons.mp h
    rw [relabel, hw.resetLabel_eq, ok_bind]
    dsimp only
    rw [ih hwords]
    rfl

theorem keys_labelEntries (n : ℕ) (words : List GenWord) :
    (labelEntries n words).map Prod.fst = words.map fun w ↦ w.label := by
  rw [labelEntries, List.map_map]
  conv_rhs => rw [← List.zipIdx_map_fst n words, List.map_map]
  rfl

end Relabel

/-- What a reference to the label `m` becomes in the word at position `i`: the position of the word
that had this label, or some later label. -/
def NewLabel (labels : List ℤ) (i m m' : ℕ) : Prop :=
  (∀ j : ℕ, labels[j]? = some (m : ℤ) → m' = j) ∧
    ((m : ℤ) ∉ labels → i < m' ∧ m' ≤ labels.length)

/-- The word at position `i` after `reset_labels`. -/
structure Renumbered (part : Part) (labels : List ℤ) (i : ℕ) (w w' : Word) : Prop where
  word_eq : w' = { w with label := i, retInsts := w'.retInsts }
  retInsts_eq : w'.retInsts = showLines part i w'.texts
  texts : List.Forall₂ (Renamed part (NewLabel labels i)) w.texts w'.texts

section ResetLabels

variable {part : Part} {words : List GenWord}

theorem newLabel_of_newReference (hnodup : (words.map fun w ↦ w.label).Nodup) {i m m' : ℕ}
    (h : NewReference (Dict.empty.update (labelEntries 0 words)) i words.length m m') :
    NewLabel (words.map fun w ↦ w.label) i m m' := by
  constructor
  · intro j hj
    have hmem : ((m : ℤ), (j : ℤ)) ∈ labelEntries 0 words := by
      rw [List.getElem?_map] at hj
      obtain ⟨w, hw, hlabel⟩ := Option.map_eq_some_iff.mp hj
      refine List.mem_map.mpr ⟨(w, j), ?_, by rw [hlabel]⟩
      rw [List.mk_mem_zipIdx_iff_getElem?]
      exact hw
    have hget := Dict.get?_update_of_nodup Dict.empty (by rwa [keys_labelEntries]) hmem
    rcases h with h | ⟨h, -⟩
    · exact Int.ofNat_inj.mp (Option.some.inj (h.symm.trans hget))
    · exact nomatch h.symm.trans hget
  · intro hm
    have hget : (Dict.empty.update (labelEntries 0 words)).get? (m : ℤ) = _ :=
      Dict.get?_update_of_not_mem Dict.empty (by rwa [keys_labelEntries])
    rcases h with h | ⟨-, hlow, hhigh⟩
    · exact nomatch h.symm.trans hget
    · rw [List.length_map]
      exact ⟨Int.ofNat_lt.mp hlow, Int.ofNat_le.mp hhigh⟩

theorem renamed_of_padFirst {texts texts' : List Text} {rename : ℕ → ℕ → Prop}
    (htexts : ∀ text ∈ texts, LabelText part text)
    (h : List.Forall₂ (Renamed part rename) (padFirst texts) texts') :
    List.Forall₂ (Renamed part rename) texts texts' := by
  cases texts with
  | nil => exact h
  | cons first rest =>
    obtain ⟨first', rest', hfirst, hrest, rfl⟩ := List.forall₂_cons_left_iff.mp h
    exact .cons (hfirst.of_padded (htexts first List.mem_cons_self) (padded_ljust 42 first)) hrest

/-- One round of the second loop of `reset_labels`. -/
theorem returns_repop_relabelWord {w : GenWord} (hw : Labelled part w.toWord) {i : ℕ}
    (hi : i < words.length) (hlength : words.length ≤ 100000)
    (hnodup : (words.map fun w ↦ w.label).Nodup) (draws : Draws) :
    Returns (do
      let word ← (relabelWord part i w.toWord).repopLabel
        (Dict.empty.update (labelEntries 0 words)) words.length part
      return { w with toWord := word } : Stateful Draws GenWord) draws
      fun w' _ ↦ w' = { w with toWord := w'.toWord } ∧
        Renumbered part (words.map fun w ↦ w.label) i w.toWord w'.toWord := by
  have hmap : ∀ v ∈ (Dict.empty.update (labelEntries 0 words)).values, (0 : ℤ) ≤ v := by
    intro v hv
    obtain ⟨k, hk⟩ := Dict.mem_values_iff.mp hv
    by_cases hkey : k ∈ (labelEntries 0 words).map Prod.fst
    · obtain ⟨entry, hentry, rfl⟩ := List.mem_map.mp hkey
      have hget := Dict.get?_update_of_nodup Dict.empty (by rwa [keys_labelEntries]) hentry
      obtain ⟨item, -, rfl⟩ := List.mem_map.mp hentry
      rw [← Option.some.inj (hget.symm.trans hk)]
      exact Int.natCast_nonneg item.2
    · rw [Dict.get?_update_of_not_mem _ hkey] at hk
      exact nomatch hk
  have hlabel : (0 : ℤ) ≤ i := Int.natCast_nonneg i
  have hlt : (i : ℤ) < 100000 := by omega
  have hwi : (relabelWord part i w.toWord).populated = true := hw.populated
  obtain ⟨texts', draws', hrepop, hforall⟩ := exists_repopLabel_showLines hwi rfl
    hw.padFirst_texts hmap hlabel hlt (Int.ofNat_lt.mpr hi) draws
  have hrenamed : List.Forall₂ (Renamed part (NewLabel (words.map fun w ↦ w.label) i))
      w.texts texts' :=
    (renamed_of_padFirst hw.texts hforall).imp fun _ _ h ↦
      h.mono fun m m' ↦ newLabel_of_newReference hnodup
  have htexts : ({ w.toWord with label := i, retInsts := showLines part i texts' } : Word).texts =
      texts' := texts_of_showLines hlabel hlt rfl
  refine ⟨_, by rw [bind_eq, hrepop]; rfl, rfl, ⟨rfl, ?_, ?_⟩⟩
  · exact congrArg (showLines part i) htexts.symm
  · exact htexts.symm ▸ hrenamed

/-- Whatever is drawn, `reset_labels` renumbers a list of words with different labels. -/
theorem resetLabels_renumbers (hwords : ∀ w ∈ words, Labelled part w.toWord)
    (hnodup : (words.map fun w ↦ w.label).Nodup) (hlength : words.length ≤ 100000)
    (draws : Draws) :
    ∃ words' draws', resetLabels words part draws = .ok (words', draws') ∧
      words'.length = words.length ∧ ∀ (i : ℕ) (w w' : GenWord), words[i]? = some w →
        words'[i]? = some w' → w' = { w with toWord := w'.toWord } ∧
          Renumbered part (words.map fun w ↦ w.label) i w.toWord w'.toWord := by
  have hrelabel := relabel_eq hwords 0 Dict.empty
  have hstep : ∀ entry ∈ words.zipIdx, ∀ draws, True → Returns (do
      let word ← (relabelWord part entry.2 entry.1.toWord).repopLabel
        (Dict.empty.update (labelEntries 0 words)) words.length part
      return { entry.1 with toWord := word } : Stateful Draws GenWord) draws
      fun w' _ ↦ (w' = { entry.1 with toWord := w'.toWord } ∧
        Renumbered part (words.map fun w ↦ w.label) entry.2 entry.1.toWord w'.toWord) ∧ True := by
    intro entry hentry draws _
    have hget : words[entry.2]? = some entry.1 := List.mem_zipIdx_iff_getElem?.mp hentry
    have hi : entry.2 < words.length := (List.getElem?_eq_some_iff.mp hget).1
    exact (returns_repop_relabelWord (hwords _ (List.mem_of_getElem? hget)) hi hlength hnodup
      draws).mono fun _ _ h ↦ ⟨h, True.intro⟩
  obtain ⟨⟨words', draws'⟩, hrun, hforall, -⟩ :=
    Returns.mapM (I := fun _ ↦ True) hstep (s := draws) True.intro
  have hlength' : words'.length = words.length := by
    rw [← hforall.length_eq, List.length_zipIdx]
  refine ⟨words', draws', ?_, hlength', fun i w w' hw hw' ↦ ?_⟩
  · rw [resetLabels, bind_eq, lift, hrelabel, ok_bind, ok_bind]
    dsimp only
    rw [List.mapM_map, List.length_map, List.length_zipIdx]
    exact hrun
  · obtain ⟨hi, rfl⟩ := List.getElem?_eq_some_iff.mp hw
    obtain ⟨hi', rfl⟩ := List.getElem?_eq_some_iff.mp hw'
    have hzip : i < words.zipIdx.length := by rwa [List.length_zipIdx]
    have hentry : words.zipIdx.get ⟨i, hzip⟩ = (words[i], i) := by
      rw [List.get_eq_getElem, List.getElem_zipIdx, Nat.zero_add]
    have hget := hforall.get hzip hi'
    rw [hentry] at hget
    exact hget

end ResetLabels

/-- A populated word in the form of the tests. -/
structure InForm (part : Part) (w : Word) : Prop where
  made : Word.Made part w
  label_nonneg : 0 ≤ w.label
  label_lt : w.label < 100000
  texts : ∀ text ∈ w.texts, LabelText part text

theorem InForm.labelled {part : Part} {w : Word} (h : InForm part w) : Labelled part w := by
  obtain ⟨first, rest, hlines, hfirst, hrest⟩ := h.made.printed.lines
  obtain ⟨text, -, htext⟩ := hfirst h.label_nonneg h.label_lt
  have hblank : ∀ inst ∈ rest, List.replicate 8 ' ' ++ inst.drop 8 = inst := by
    intro inst hinst
    obtain ⟨text, -, rfl⟩ := hrest inst hinst
    rw [List.drop_left' List.length_replicate]
  refine ⟨h.made.printed.populated, h.label_nonneg, h.label_lt, ?_, ?_, h.texts⟩
  · rw [hlines]
    exact List.cons_ne_nil _ _
  · have hcolumns := @length_labelColumns part _ h.label_nonneg h.label_lt
    have hrest' : rest.map ((fun text ↦ List.replicate 8 ' ' ++ text) ∘ List.drop 8) = rest :=
      (List.map_congr_left hblank).trans (List.map_id' rest)
    rw [Word.texts, hlines, List.map_cons, showLines, htext, List.drop_left' hcolumns,
      List.map_map, hrest']

/-- A word that jumps to a label. -/
def jumpWord (label target : ℕ) : Word where
  label
  insts := ["jal x1, _l".toList ++ Text.dec target]
  operands := []
  populated := true
  retInsts := showLines .mainPart label [Text.ljust 42 ("jal x1, _l".toList ++ Text.dec target)]

theorem inForm_jumpWord {label : ℕ} (h : label < 100000) (target : ℕ) :
    InForm .mainPart (jumpWord label target) := by
  have hlabel : (0 : ℤ) ≤ label := Int.natCast_nonneg label
  have hlt : (label : ℤ) < 100000 := by omega
  have hmade : (Word.new label ["jal x1, _l".toList ++ Text.dec target]).populate Dict.empty
    .mainPart = .ok (jumpWord label target) := rfl
  have htexts : (jumpWord label target).texts =
      [Text.ljust 42 ("jal x1, _l".toList ++ Text.dec target)] :=
    texts_of_showLines hlabel hlt rfl
  have htext : LabelText .mainPart ("jal x1, _l".toList ++ Text.dec target) := by
    refine .inr ⟨"jal x1".toList, target, [], ?_, by decide, by decide, nofun⟩
    rw [List.append_nil]
    rfl
  refine ⟨.populate hmade, hlabel, hlt, ?_⟩
  rw [htexts]
  exact List.forall_mem_singleton.mpr (htext.padded (padded_ljust 42 _))

/-- Two words that jump to each other, and one that jumps out of the list. -/
def loopWords : List GenWord := [(jumpWord 30 3).toGen, (jumpWord 3 30).toGen, (jumpWord 5 0).toGen]

theorem resetLabels_renumbers_loopWords :
    ∃ words' draws', resetLabels loopWords .mainPart (fun _ ↦ 0) = .ok (words', draws') ∧
      words'.length = 3 ∧ ∀ (i : ℕ) (w w' : GenWord), loopWords[i]? = some w →
        words'[i]? = some w' → w' = { w with toWord := w'.toWord } ∧
          Renumbered .mainPart [30, 3, 5] i w.toWord w'.toWord := by
  have hwords : ∀ w ∈ loopWords, Labelled .mainPart w.toWord := by
    simp only [loopWords, List.forall_mem_cons]
    exact ⟨(inForm_jumpWord (by decide) 3).labelled, (inForm_jumpWord (by decide) 30).labelled,
      (inForm_jumpWord (by decide) 0).labelled, nofun⟩
  exact resetLabels_renumbers hwords (by decide) (by decide) fun _ ↦ 0

end ProcessorFuzz.Mutation
