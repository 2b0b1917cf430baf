import ProcessorFuzz.Mutation.Generation

/-!
# One line for each instruction

A populated word has one printed line for each of its instructions, whoever made it. The first line
begins with the letters of its part and the others with blanks, and no line has a line break in it,
so that the label lines of a file can be counted. `get` makes words like this in every phase, and
one interrupt value for each instruction of the main part.
-/

namespace ProcessorFuzz.Mutation

open Library Library.Stateful Generating

/-- A populated word, as the lines of a test show it. -/
structure Sized (part : Part) (w : Word) : Prop where
  populated : w.populated = true
  length_eq : w.retInsts.length = w.insts.length
  shape : ∃ first rest, w.retInsts = first :: rest ∧ first.take 2 = part.text ∧
    ∀ inst ∈ rest, inst.take 8 = List.replicate 8 ' '
  lines : AreLines w.retInsts

variable {part : Part} {w w' : Word}

theorem isLineText_part (part : Part) : Text.IsLineText part.text := by
  cases part <;> decide

theorem isLineText_labelText (part : Part) (label : ℤ) :
    Text.IsLineText (Word.labelText part label) :=
  .append (.append (isLineText_part part) (Text.isLineText_str label)) (by decide)

/-- A label in the first columns shows its part. -/
theorem take_ljust_labelText (part : Part) (label : ℤ) (text : Text) :
    (Text.ljust 8 (Word.labelText part label) ++ text).take 2 = part.text := by
  have hpart : part.text.length = 2 := by cases part <;> rfl
  rw [Text.ljust, Word.labelText, List.append_assoc, List.append_assoc, List.append_assoc,
    List.take_left' hpart]

theorem isLineText_popInst {inst : Text} {opvals : Dict Text Text} (hinst : Text.IsLineText inst)
    (hvals : ∀ val ∈ opvals.values, Text.IsLineText val) :
    Text.IsLineText (Word.popInst inst opvals) := by
  have hfold : ∀ (entries : List (Text × Text)) (inst : Text), Text.IsLineText inst →
      (∀ entry ∈ entries, Text.IsLineText entry.2) → Text.IsLineText
        (entries.foldl (fun inst entry ↦ Text.replace entry.1 entry.2 inst) inst) := by
    intro entries
    induction entries with
    | nil => exact fun inst hinst _ ↦ hinst
    | cons entry entries ih =>
      intro inst hinst hentries
      obtain ⟨hentry, hentries⟩ := List.forall_mem_cons.mp hentries
      exact ih _ (hinst.replace hentry) hentries
  apply hfold _ _ hinst
  intro entry hentry
  exact hvals entry.2 (List.mem_map_of_mem hentry)

theorem Sized.of_populate {opvals : Dict Text Text} (h : w.populate opvals part = .ok w')
    (hinsts : AreLines w.insts) (hvals : ∀ val ∈ opvals.values, Text.IsLineText val) :
    Sized part w' := by
  obtain ⟨hpopulated, -, -, hlength⟩ := length_retInsts_populate h
  unfold Word.populate at h
  obtain ⟨-, -, h⟩ := bind_eq_ok.mp h
  split at h
  · exact nomatch h
  · next first rest hmap =>
    obtain rfl := Except.ok.inj h
    have hpop : AreLines (first :: rest) := by
      rw [← hmap]
      intro inst hinst
      obtain ⟨inst', hinst', rfl⟩ := List.mem_map.mp hinst
      exact isLineText_popInst (hinsts inst' hinst') hvals
    obtain ⟨hfirst, hrest⟩ := List.forall_mem_cons.mp hpop
    refine ⟨hpopulated, hlength, ⟨_, _, rfl, take_ljust_labelText part w.label _, ?_⟩, ?_⟩
    · intro inst hinst
      obtain ⟨text, -, rfl⟩ := List.mem_map.mp hinst
      exact List.take_left' rfl
    · refine .cons ?_ fun inst hinst ↦ ?_
      · exact ((isLineText_labelText part w.label).ljust 8).append (hfirst.ljust 42)
      · obtain ⟨text, htext, rfl⟩ := List.mem_map.mp hinst
        exact (Text.isLineText_nil.ljust 8).append ((hrest text htext).ljust 42)

theorem Sized.resetLabel (hw : Sized part w) {newLabel : ℤ} {labels : Option (ℤ × ℤ)}
    (h : w.resetLabel newLabel part = .ok (w', labels)) : Sized part w' ∧ w'.insts = w.insts := by
  obtain ⟨first, rest, hlines, -, hrest⟩ := hw.shape
  have hlength := hw.length_eq
  have hall := hw.lines
  rw [hlines] at hlength hall
  obtain ⟨hfirst, hall⟩ := List.forall_mem_cons.mp hall
  rw [Word.resetLabel, if_pos hw.populated, hlines] at h
  obtain ⟨rfl, -⟩ := Prod.mk.inj (Except.ok.inj h)
  refine ⟨⟨hw.populated, hlength, ⟨_, rest, rfl, take_ljust_labelText part newLabel _, hrest⟩, ?_⟩,
    rfl⟩
  refine .cons (.append ?_ ?_) hall
  · exact (isLineText_labelText part newLabel).ljust 8
  · exact (hfirst.of_subset (List.drop_subset 8 first)).ljust 42

/-- A renamed line begins as before and is still one line. -/
theorem repopInst_columns {labelMap : Dict ℤ ℤ} {maxLabel : ℤ} {draws draws' : Draws}
    {inst inst' : Text} (h : w.repopInst labelMap maxLabel part draws inst = .ok (inst', draws')) :
    (∀ columns : Text, columns.length ≤ 8 → inst.take columns.length = columns →
      inst'.take columns.length = columns) ∧ (Text.IsLineText inst → Text.IsLineText inst') := by
  unfold Word.repopInst at h
  split at h
  · obtain ⟨old, -, h⟩ := bind_eq_ok.mp h
    obtain ⟨random, -, h⟩ := bind_eq_ok.mp h
    obtain ⟨rfl, -⟩ := Prod.mk.inj (Except.ok.inj h)
    constructor
    · intro columns hlength hcolumns
      have htake : (inst.take 8).take columns.length = columns := by
        rw [List.take_take, Nat.min_eq_left hlength, hcolumns]
      have hle : columns.length ≤ (inst.take 8).length := by
        have hsub := congrArg List.length htake
        rw [List.length_take] at hsub
        omega
      rw [Text.ljust, List.append_assoc, List.take_append_of_le_length hle, htake]
    · intro hinst
      refine .append (Text.IsLineText.ljust (hinst.of_subset (List.take_subset 8 inst)) 8) ?_
      refine Text.IsLineText.ljust (Text.IsLineText.replace
        (hinst.of_subset (List.drop_subset 8 inst)) ?_) 50
      exact (isLineText_part part).append (Text.isLineText_str _)
  · obtain ⟨rfl, -⟩ := Prod.mk.inj (Except.ok.inj h)
    exact ⟨fun _ _ h ↦ h, id⟩

theorem Sized.repopLabel (hw : Sized part w) {labelMap : Dict ℤ ℤ} {maxLabel : ℤ}
    {draws draws' : Draws} (h : w.repopLabel labelMap maxLabel part draws = .ok (w', draws')) :
    Sized part w' ∧ w'.insts = w.insts := by
  obtain ⟨retInsts, rfl, hforall⟩ := Word.repopLabel_eq_ok hw.populated h repopInst_columns
  obtain ⟨first, rest, hlines, hfirst, hrest⟩ := hw.shape
  have hlength := hforall.length_eq
  have hlinesOf : AreLines retInsts := by
    intro inst' hinst'
    obtain ⟨i, hi, rfl⟩ := List.getElem_of_mem hinst'
    have hi' : i < w.retInsts.length := hlength ▸ hi
    exact (hforall.get hi' hi).2 (hw.lines _ (List.getElem_mem hi'))
  refine ⟨⟨hw.populated, hlength.symm.trans hw.length_eq, ?_, hlinesOf⟩, rfl⟩
  rw [hlines] at hforall
  obtain ⟨first', rest', hfirst', hrest', rfl⟩ := List.forall₂_cons_left_iff.mp hforall
  have hpart : part.text.length = 2 := by cases part <;> rfl
  refine ⟨first', rest', rfl, ?_, fun inst' hinst' ↦ ?_⟩
  · have hcolumns := hfirst'.1 part.text (by omega)
    rw [hpart] at hcolumns
    exact hcolumns hfirst
  · obtain ⟨i, hi, rfl⟩ := List.getElem_of_mem hinst'
    have hi' : i < rest.length := hrest'.length_eq ▸ hi
    exact (hrest'.get hi' hi).1 (List.replicate 8 ' ') le_rfl (hrest _ (List.getElem_mem hi'))

/-- The values of a dictionary are lines. -/
def LineValues (opvals : Dict Text Text) : Prop :=
  ∀ val ∈ opvals.values, Text.IsLineText val

theorem LineValues.empty : LineValues Dict.empty := nofun

theorem LineValues.of_filled {ι : Type} {operands : List ι} {name : ι → Text}
    {opvals opvals' : Dict Text Text} (h : LineValues opvals)
    (hfilled : Filled operands name (fun _ val ↦ Text.IsLineText val) opvals opvals') :
    LineValues opvals' := by
  obtain ⟨vals, hvals, rfl⟩ := hfilled
  have hupdate : ∀ (entries : List (Text × Text)) (d : Dict Text Text), LineValues d →
      (∀ entry ∈ entries, Text.IsLineText entry.2) → LineValues (d.update entries) := by
    intro entries
    induction entries with
    | nil => exact fun d hd _ ↦ hd
    | cons entry entries ih =>
      intro d hd hentries
      obtain ⟨hentry, hentries⟩ := List.forall_mem_cons.mp hentries
      refine ih (d.set entry.1 entry.2) (fun val hval ↦ ?_) hentries
      rcases Dict.mem_values_set hval with rfl | hval
      · exact hentry
      · exact hd val hval
  refine hupdate _ opvals h fun entry hentry ↦ ?_
  obtain ⟨i, hi, hval⟩ := List.getElem_of_mem (List.of_mem_zip hentry).2
  have hi' : i < operands.length := hvals.length_eq ▸ hi
  exact hval ▸ hvals.get hi' hi

theorem isLineText_xreg {noZero : Bool} {val : Text} (h : IsXreg noZero val) :
    Text.IsLineText val := by
  obtain ⟨n, rfl, -⟩ := h
  exact .cons (by decide) (Text.isLineText_dec n)

theorem isLineText_imm {bits align : ℕ} {signed : Bool} {val : Text}
    (h : ImmVal bits align signed val) : Text.IsLineText val := by
  obtain ⟨sign, imm, hsign, rfl⟩ := h
  refine .append ?_ (Text.isLineText_dec _)
  rcases hsign with rfl | ⟨-, rfl⟩
  · exact Text.isLineText_nil
  · decide

theorem isLineText_symbol {val : Text} {P : Prop}
    (h : IsDataSymbol val ∨ (P ∧ IsPartSymbol part val)) : Text.IsLineText val := by
  rcases h with ⟨n, k, -, -, rfl⟩ | ⟨-, num, rfl⟩
  · exact ((Text.IsLineText.append (by decide) (Text.isLineText_dec n)).append (by decide)).append
      (Text.isLineText_dec k)
  · exact (isLineText_part part).append (Text.isLineText_str num)

section Generating

variable {s : InstGenerator × Draws} {maxLabel : ℤ}

/-- A template is populated with one line for each instruction. -/
theorem ensures_populateWord_of_template {w : GenWord} (hw : Template w) :
    Ensures (populateWord w maxLabel part) s fun w' _ ↦ Sized part w'.toWord := by
  have hregion : (nums.take (if part = .prefixPart then (10, 15) else (0, 31)).2).drop
      (if part = .prefixPart then (10, 15) else (0, 31)).1 ≠ [] := by
    cases part <;> decide
  rw [populateWord, if_neg (by simp [hw.populated_eq])]
  apply Ensures.bind (ensures_fill (C := fun _ val ↦ Text.IsLineText val) fun xreg _ s' ↦ ?xregs)
  case xregs =>
    split
    · exact (returns_getXregs stable_true True.intro (by decide) false).ensures.mono
        fun _ _ h ↦ isLineText_xreg h.1
    · exact (returns_getXregs stable_true True.intro hregion true).ensures.mono
        fun _ _ h ↦ isLineText_xreg h.1
  intro opvals₁ s₁ hxregs
  apply Ensures.bind (ensures_fill (C := fun _ val ↦ Text.IsLineText val) fun freg _ s' ↦
    (returns_getFregs stable_true True.intro).ensures.mono fun _ _ h ↦ ?fregs)
  case fregs =>
    obtain ⟨⟨n, rfl⟩, -⟩ := h
    exact .cons (by decide) (Text.isLineText_dec n)
  intro opvals₂ s₂ hfregs
  apply Ensures.bind (ensures_fill (C := fun _ val ↦ Text.IsLineText val) fun imm himm s' ↦ ?imms)
  case imms =>
    obtain ⟨⟨bits, signed, hkind⟩, halign⟩ := exists_isImm (hw.imms_usual imm himm)
    exact (returns_getImm stable_true True.intro hkind halign).ensures.mono
      fun _ _ h ↦ isLineText_imm h.1
  intro opvals₃ s₃ himms
  apply Ensures.bind (ensures_fill (C := fun _ val ↦ Text.IsLineText val) fun symbol _ s' ↦
    (Ensures.draw ensures_getSymbol).mono fun _ _ h ↦ isLineText_symbol h)
  intro opvals₄ s₄ hsymbols
  have hvals : LineValues opvals₄ :=
    (((LineValues.empty.of_filled hxregs).of_filled hfregs).of_filled himms).of_filled hsymbols
  apply Ensures.bind (.lift (Q := fun word _ ↦ Sized part word) fun word hword ↦
    Sized.of_populate hword hw.insts_lines hvals)
  intro word s₅ hword
  exact .pure hword

/-- A populated word is returned as it is. -/
theorem populateWord_of_populated {w : GenWord} (hw : w.populated = true) :
    populateWord w maxLabel part = pure w := by
  rw [populateWord, if_pos hw]

theorem ensures_getWord (part : Part) : Ensures (getWord part) s fun w _ ↦ Template w :=
  (returns_getWord stable_true True.intro part).ensures.mono fun _ _ h ↦ h.1.template

/-- The words of a part that stands in a test. -/
def AllSized (part : Part) (words : List GenWord) : Prop := ∀ w ∈ words, Sized part w.toWord

theorem ensures_mutateLoop {words : List GenWord} (h : AllSized part words) :
    Ensures (mutateLoop part maxLabel words) s fun words' _ ↦ AllSized part words' := by
  induction words generalizing s with
  | nil => exact .pure nofun
  | cons word words ih =>
    obtain ⟨hword, hwords⟩ := List.forall_mem_cons.mp h
    apply Ensures.bind .trivial
    intro rand s₁ _
    split
    · apply Ensures.bind (ih hwords)
      intro words' s₂ hwords'
      exact .pure (List.forall_mem_cons.mpr ⟨hword, hwords'⟩)
    · split
      · apply Ensures.bind (ensures_getWord part)
        intro newWord s₂ htemplate
        apply Ensures.bind (ensures_populateWord_of_template htemplate)
        intro newWord' s₃ hnew
        apply Ensures.bind (ih hwords)
        intro words' s₄ hwords'
        exact .pure (List.forall_mem_cons.mpr ⟨hword, List.forall_mem_cons.mpr ⟨hnew, hwords'⟩⟩)
      · exact ih hwords

/-- The same words with other labels. -/
structure Relabelled (part : Part) (words words' : List GenWord) : Prop where
  allSized : AllSized part words'
  insts_eq : (words'.map fun w ↦ w.insts) = words.map fun w ↦ w.insts

theorem Relabelled.length_eq {words words' : List GenWord} (h : Relabelled part words words') :
    words'.length = words.length := by
  simpa using congrArg List.length h.insts_eq

theorem Relabelled.of_forall₂ {words words' : List GenWord}
    (h : List.Forall₂ (fun w w' ↦ Sized part w'.toWord ∧ w'.insts = w.insts) words words') :
    Relabelled part words words' := by
  induction h with
  | nil => exact ⟨nofun, rfl⟩
  | cons hw _ ih =>
    refine ⟨List.forall_mem_cons.mpr ⟨hw.1, ih.allSized⟩, ?_⟩
    rw [List.map_cons, List.map_cons, hw.2, ih.insts_eq]

theorem forall₂_relabel {n : ℕ} {labelMap labelMap' : Dict ℤ ℤ} {words words' : List GenWord}
    (h : AllSized part words) (hrun : relabel part n labelMap words = .ok (words', labelMap')) :
    List.Forall₂ (fun w w' ↦ Sized part w'.toWord ∧ w'.insts = w.insts) words words' := by
  induction words generalizing n labelMap words' labelMap' with
  | nil =>
    obtain ⟨rfl, -⟩ := Prod.mk.inj (Except.ok.inj hrun)
    exact .nil
  | cons w words ih =>
    obtain ⟨hw, hwords⟩ := List.forall_mem_cons.mp h
    obtain ⟨⟨word, tup⟩, hreset, hrun⟩ := bind_eq_ok.mp hrun
    obtain ⟨⟨rest, labelMap₁⟩, hrest, hrun⟩ := bind_eq_ok.mp hrun
    obtain ⟨rfl, -⟩ := Prod.mk.inj (Except.ok.inj hrun)
    exact .cons (hw.resetLabel hreset) (ih hwords hrest)

theorem ensures_resetLabels {draws : Draws} {words : List GenWord} (h : AllSized part words) :
    Ensures (resetLabels words part) draws fun words' _ ↦ Relabelled part words words' := by
  apply Ensures.bind (.lift (Q := fun r _ ↦ Relabelled part words r.1) fun r hr ↦
    .of_forall₂ (forall₂_relabel h hr))
  intro ⟨words₁, labelMap⟩ draws₁ hwords₁
  have hrepop : ∀ w ∈ words₁, ∀ draws, True → Ensures (do
      let word ← w.toWord.repopLabel labelMap words₁.length part
      return { w with toWord := word } : Stateful Draws GenWord) draws
      fun w' _ ↦ (Sized part w'.toWord ∧ w'.insts = w.insts) ∧ True := by
    intro w hw draws _
    constructor
    intro r hr
    obtain ⟨⟨word, draws'⟩, hword, hr⟩ := bind_eq_ok.mp hr
    obtain rfl := Except.ok.inj hr
    exact ⟨(hwords₁.allSized w hw).repopLabel hword, True.intro⟩
  refine (Ensures.mapM hrepop True.intro).mono fun words₂ _ h₂ ↦ ?_
  have hwords₂ : Relabelled part words₁ words₂ := .of_forall₂ h₂.1
  exact ⟨hwords₂.allSized, hwords₂.insts_eq.trans hwords₁.insts_eq⟩

/-- The words of a part after a mutation. -/
theorem ensures_mutateWords {seedWords : List GenWord} (h : AllSized part seedWords)
    (maxNum : ℕ) :
    Ensures (mutateWords seedWords part maxNum) s fun words _ ↦
      words.length ≤ maxNum ∧ AllSized part words := by
  apply Ensures.bind (ensures_mutateLoop h)
  intro words s₁ hwords
  have htake : AllSized part (words.take maxNum) := fun w hw ↦ hwords w (List.mem_of_mem_take hw)
  apply Ensures.bind (.draw (ensures_resetLabels htake))
  intro words' s₂ hrelabelled
  have hlength : words'.length ≤ maxNum := by
    rw [hrelabelled.length_eq, List.length_take]
    exact Nat.min_le_left maxNum words.length
  have hpopulated : ∀ w ∈ words', ∀ s, True → Ensures
      (if w.populated then pure w else populateWord w (words'.length - 1) part) s
      fun w' _ ↦ w = w' ∧ True := by
    intro w hw s _
    rw [if_pos (hrelabelled.allSized w hw).populated]
    exact .pure ⟨rfl, True.intro⟩
  refine (Ensures.mapM hpopulated True.intro).mono fun words'' _ h'' ↦ ?_
  have heq : words' = words'' := by
    rw [← List.forall₂_eq_eq_eq]
    exact h''.1
  exact heq ▸ ⟨hlength, hrelabelled.allSized⟩

/-- A word that `get` populates at its end, if this was not done before. -/
def Ready (part : Part) (w : GenWord) : Prop := Template w ∨ Sized part w.toWord

theorem ensures_populateWord {w : GenWord} (hw : Ready part w) :
    Ensures (populateWord w maxLabel part) s fun w' _ ↦ Sized part w'.toWord := by
  rcases hw with htemplate | hsized
  · exact ensures_populateWord_of_template htemplate
  · rw [populateWord_of_populated hsized.populated]
    exact .pure hsized

theorem ensures_populateWords {words : List GenWord} (h : ∀ w ∈ words, Ready part w) :
    Ensures (RvMutator.populateWords words part) s fun words' _ ↦
      words'.length = words.length ∧ ∀ w ∈ words', Sized part w := by
  have hstep : ∀ w ∈ words, ∀ s, True → Ensures (do
      let w ← populateWord w words.length part
      return w.toWord) s fun w' _ ↦ Sized part w' ∧ True := by
    intro w hw s _
    apply Ensures.bind (ensures_populateWord (h w hw))
    intro w' s' hw'
    exact .pure ⟨hw', True.intro⟩
  refine (Ensures.mapM (C := fun _ w' ↦ Sized part w') hstep True.intro).mono fun words' _ h' ↦ ?_
  refine ⟨h'.1.length_eq.symm, fun w' hw' ↦ ?_⟩
  obtain ⟨i, hi, rfl⟩ := List.getElem_of_mem hw'
  have hi' : i < words.length := h'.1.length_eq ▸ hi
  exact h'.1.get hi' hi

/-- The words of a part that is generated. -/
theorem ensures_getWords (part : Part) (n : ℕ) :
    Ensures ((List.range n).mapM fun _ ↦ getWord part) s fun words _ ↦
      words.length ≤ n ∧ ∀ w ∈ words, Ready part w := by
  refine (returns_getWords stable_true True.intro part (List.range n)).ensures.mono
    fun words _ h ↦ ⟨?_, fun w hw ↦ .inl (h.1.template w hw)⟩
  rw [h.1.length_eq, List.length_range]

end Generating

end ProcessorFuzz.Mutation
