import ProcessorFuzz.Mutation.WordInvariants

/-!
# Words that jump forward

A generated word jumps to a label of its part that comes after its own. What keeps this law when the
words of a part are renumbered is that the words with the label it names, if there are any, do not
all stand before it: then the last of them, whose place the reference becomes, stands after it, and
any other reference becomes a later label anyway.
-/

namespace ProcessorFuzz.Mutation

open Library Library.Stateful Generating RiscvDefinitions RvMutator

/-- The opcodes of the jumps, of the branches and of the returns. -/
def controlFlowOpcodes : List Text :=
  ["jal".toList, "jalr".toList] ++ rv32iBtype.keys ++ ["mret", "sret", "uret"].map String.toList

/-- What stands before the first blank of an instruction. -/
def instOpcode (inst : Text) : Text := inst.takeWhile (· ≠ ' ')

def IsControlFlow (insts : List Text) : Prop :=
  ∃ inst ∈ insts, instOpcode inst ∈ controlFlowOpcodes

instance (insts : List Text) : Decidable (IsControlFlow insts) :=
  inferInstanceAs (Decidable (∃ inst ∈ insts, _))

/-- A template that names a label in an instruction of its own, if it is one of control flow. -/
def JumpForm (r : WordType × List Text × OpcodeEntry) : Prop :=
  IsControlFlow r.2.1 → NeedsLater r.1 ∧ "symbol".toList ∈ r.2.2.symbols ∧
    ∃ before, PlainText before ∧ before ++ ", symbol".toList ∈ r.2.1

/-- What the tables say of the opcodes of control flow. -/
structure JumpEntry (item : Text × OpcodeEntry) : Prop where
  opcode : instOpcode item.2.asm ∈ controlFlowOpcodes → item.1 ∈ controlFlowOpcodes
  field : ¬ "\x7b\x7d".toList <:+: instOpcode item.2.asm
  label : item.1 ∈ "jal".toList :: rv32iBtype.keys → "symbol".toList ∈ item.2.symbols ∧
    ∃ before, PlainText before ∧ item.2.asm = before ++ ", symbol".toList

theorem jumpEntry_opcodesMap {item : Text × OpcodeEntry} (h : item ∈ opcodesMap) :
    JumpEntry item := by
  have htables : ∀ table ∈ baseTables, ∀ item ∈ table,
      (instOpcode item.2.asm ∈ controlFlowOpcodes → item.1 ∈ controlFlowOpcodes) ∧
        ¬ "\x7b\x7d".toList <:+: instOpcode item.2.asm ∧
        (item.1 ∈ "jal".toList :: rv32iBtype.keys → "symbol".toList ∈ item.2.symbols ∧
          PlainText (item.2.asm.take (item.2.asm.length - 8)) ∧
            item.2.asm = item.2.asm.take (item.2.asm.length - 8) ++ ", symbol".toList) := by
    decide +kernel
  obtain ⟨table, htable, hitem⟩ := exists_baseTable h
  obtain ⟨hopcode, hfield, hlabel⟩ := htables table htable item hitem
  exact ⟨hopcode, hfield, fun hkey ↦ (hlabel hkey).imp_right fun h ↦ ⟨_, h⟩⟩

/-- An instruction that is not one of control flow. -/
def Tame (inst : Text) : Prop := instOpcode inst ∉ controlFlowOpcodes

instance (inst : Text) : Decidable (Tame inst) := inferInstanceAs (Decidable (¬ _))

theorem instOpcode_append {opcode : Text} (hopcode : ' ' ∉ opcode) (rest : Text) :
    instOpcode (opcode ++ ' ' :: rest) = opcode := by
  have hall : ∀ c ∈ opcode, decide (c ≠ ' ') = true := by
    intro c hc
    apply decide_eq_true
    rintro rfl
    exact hopcode hc
  rw [instOpcode, List.takeWhile_append_of_pos hall]
  simp

theorem tame_append (opcode : Text) (hblank : ' ' ∉ opcode) (hopcode : opcode ∉ controlFlowOpcodes)
    (rest : Text) : Tame (opcode ++ ' ' :: rest) := by
  rw [Tame, instOpcode_append hblank]
  exact hopcode

theorem jumpForm_of_tame {r : WordType × List Text × OpcodeEntry} (h : ∀ inst ∈ r.2.1, Tame inst) :
    JumpForm r := by
  rintro ⟨inst, hinst, hcontrol⟩
  exact absurd hcontrol (h inst hinst)

/-- A name that is filled into a syntax leaves its opcode alone. -/
theorem tame_format {asm : Text} (h : Tame asm)
    (hfield : ¬ "\x7b\x7d".toList <:+: instOpcode asm) (arg : Text) :
    Tame (format asm arg) := by
  have hsplit : asm = instOpcode asm ++ asm.dropWhile (· ≠ ' ') :=
    List.takeWhile_append_dropWhile.symm
  have hblank : ' ' ∉ instOpcode asm := fun hmem ↦
    absurd (List.mem_takeWhile_imp hmem) (by decide)
  have hopcode : Text.replace "\x7b\x7d".toList arg (instOpcode asm) = instOpcode asm :=
    Text.replace_of_not_isInfix arg hfield
  cases hrest : asm.dropWhile (· ≠ ' ') with
  | nil =>
    rw [hrest, List.append_nil] at hsplit
    rw [format, hsplit, hopcode]
    rwa [← hsplit]
  | cons c rest =>
    have hc : c = ' ' := by
      have hhead := List.head?_dropWhile_not (fun c ↦ decide (c ≠ ' ')) asm
      rw [hrest] at hhead
      simpa using hhead
    rw [hrest, hc] at hsplit
    rw [format, hsplit, Text.replace_append_cons (by decide) arg (by decide), hopcode]
    exact tame_append _ hblank h _

section Words

variable {draws : Draws} {e : OpcodeEntry}

theorem tame_maskAddr : Ensures maskAddr draws fun r _ ↦ ∀ inst ∈ r.1, Tame inst := by
  have hmask : ∀ inst ∈ ["lui xreg2, 0xffe00".toList, "xor xreg1, xreg1, xreg2".toList],
      Tame inst := by decide
  apply Ensures.bind .trivial
  intro rand draws₁ _
  split
  · exact .pure hmask
  · exact .pure (List.forall_mem_nil _)

theorem tame_setBits (is : List ℕ) :
    Ensures (setBits is) draws fun r _ ↦ ∀ inst ∈ r.1, Tame inst := by
  induction is generalizing draws with
  | nil => exact .pure (List.forall_mem_nil _)
  | cons i is ih =>
    apply Ensures.bind .trivial
    intro bits draws₁ _
    apply Ensures.bind .trivial
    intro offset draws₂ _
    apply Ensures.bind ih
    intro ⟨insts, xregs⟩ draws₃ hinsts
    apply Ensures.pure
    rw [List.forall_mem_append]
    refine ⟨?_, hinsts⟩
    simp only [List.forall_mem_cons]
    exact ⟨tame_append "addi".toList (by decide) (by decide) _,
      tame_append "slli".toList (by decide) (by decide) _,
      tame_append "add".toList (by decide) (by decide) _, List.forall_mem_nil _⟩

theorem jumpForm_mem (he : Tame e.asm) (tpe : WordType) (opcode : Text) :
    Ensures (wordMem tpe opcode e) draws fun r _ ↦ JumpForm r := by
  apply Ensures.bind tame_maskAddr
  intro ⟨mask, xregs⟩ draws₁ hmask
  refine .pure (jumpForm_of_tame ?_)
  simp only [List.forall_mem_append, List.forall_mem_singleton]
  exact ⟨⟨by decide, hmask⟩, he⟩

theorem jumpForm_atomic (he : Tame e.asm) (opcode : Text) :
    Ensures (wordAtomic opcode e) draws fun r _ ↦ JumpForm r := by
  have hlines : ∀ inst ∈ ["la xreg1, symbol".toList, "addi xreg1, xreg1, imm6".toList],
      Tame inst := by decide
  apply Ensures.bind tame_maskAddr
  intro ⟨mask, xregs⟩ draws₁ hmask
  refine .pure (jumpForm_of_tame ?_)
  simp only [List.forall_mem_append, List.forall_mem_singleton]
  exact ⟨⟨hlines, hmask⟩, he⟩

theorem jumpForm_csrR (he : ∀ arg, Tame (format e.asm arg)) (opcode : Text) :
    Ensures (wordCsrR opcode e) draws fun r _ ↦ JumpForm r := by
  apply Ensures.bind .trivial
  intro csr draws₁ _
  split
  · refine .pure (jumpForm_of_tame ?_)
    simp only [List.forall_mem_cons]
    exact ⟨by decide, by decide, he _, List.forall_mem_nil _⟩
  · apply Ensures.bind .trivial
    intro rounds draws₂ _
    apply Ensures.bind (tame_setBits _)
    intro ⟨insts, xregs⟩ draws₃ hinsts
    refine .pure (jumpForm_of_tame ?_)
    simp only [List.forall_mem_append, List.forall_mem_singleton]
    exact ⟨⟨by decide, hinsts⟩, he _⟩

theorem jumpForm_sfence (he : Tame e.asm) (opcode : Text) :
    Ensures (wordSfence opcode e) draws fun r _ ↦ JumpForm r := by
  apply Ensures.bind .trivial
  intro pt draws₁ _
  refine .pure (jumpForm_of_tame ?_)
  simp only [List.forall_mem_cons]
  exact ⟨by decide, tame_append "la".toList (by decide) (by decide) _, by decide, he,
    List.forall_mem_nil _⟩

/-- A word function that makes one choice and formats the syntax with it. -/
theorem jumpForm_format {α : Type} {l : List α} {tpe : WordType} {f : α → Text}
    (he : ∀ arg, Tame (format e.asm arg)) :
    Ensures (do
      let a ← Draws.choice l
      return (tpe, [format e.asm (f a)], e)) draws fun r _ ↦ JumpForm r := by
  apply Ensures.bind .trivial
  intro a draws₁ _
  exact .pure (jumpForm_of_tame (List.forall_mem_singleton.mpr (he _)))

/-- The words of control flow come from the first four functions. -/
theorem ensures_jumpForm {opcode : Text} (hitem : (opcode, e) ∈ opcodesMap) :
    Ensures (wordFunction opcode opcode e) draws fun r _ ↦ JumpForm r := by
  have hentry := jumpEntry_opcodesMap hitem
  have htame (hopcode : opcode ∉ controlFlowOpcodes) : Tame e.asm :=
    fun hcontrol ↦ hopcode (hentry.opcode hcontrol)
  have hformat (hopcode : opcode ∉ controlFlowOpcodes) (arg : Text) : Tame (format e.asm arg) :=
    tame_format (htame hopcode) hentry.field arg
  have hnone : (∀ entry ∈ opcodesWords, opcode ∉ entry.1) → opcode ∉ controlFlowOpcodes := by
    have hopcodes : ∀ opcode ∈ controlFlowOpcodes, ∃ entry ∈ opcodesWords, opcode ∈ entry.1 := by
      decide +kernel
    intro h hopcode
    obtain ⟨entry, hmem, hin⟩ := hopcodes opcode hopcode
    exact h entry hmem hin
  have hother : ∀ entry ∈ opcodesWords.drop 4, ∀ opcode ∈ entry.1, opcode ∉ controlFlowOpcodes := by
    decide +kernel
  have hjump (hopcode : opcode ∈ "jal".toList :: rv32iBtype.keys) {tpe : WordType}
      (htpe : NeedsLater tpe) : JumpForm (tpe, [e.asm], e) := by
    obtain ⟨hsymbol, before, hbefore, hasm⟩ := hentry.label hopcode
    exact fun _ ↦ ⟨htpe, hsymbol, before, hbefore, List.mem_singleton.mpr hasm.symm⟩
  unfold wordFunction
  cases hfind : opcodesWords.find? fun entry ↦ decide (opcode ∈ entry.1) with
  | none =>
    have hmiss := hnone fun entry hentry ↦ by simpa using List.find?_eq_none.mp hfind entry hentry
    exact .pure (jumpForm_of_tame (List.forall_mem_singleton.mpr (htame hmiss)))
  | some entry =>
    have hopcode : opcode ∈ entry.1 := by simpa using List.find?_some hfind
    have hmem : entry ∈ opcodesWords.take 4 ++ opcodesWords.drop 4 := by
      rw [List.take_append_drop]
      exact List.mem_of_find?_eq_some hfind
    rcases List.mem_append.mp hmem with hmem | hmem
    · simp only [opcodesWords, List.take_succ_cons, List.take_zero, List.mem_cons,
        List.not_mem_nil, or_false] at hmem
      rcases hmem with rfl | rfl | rfl | rfl
      · exact .pure (hjump (List.mem_singleton.mp hopcode ▸ List.mem_cons_self) (by decide))
      · exact .pure fun _ ↦ ⟨(by decide : NeedsLater .cfJ),
          List.mem_append_right _ List.mem_cons_self, "la xreg1".toList, by decide,
          List.mem_cons_self⟩
      · exact .pure (hjump (List.mem_cons_of_mem _ hopcode) (by decide))
      · exact .pure fun _ ↦ ⟨(by decide : NeedsLater .cfRet),
          List.mem_append_right _ List.mem_cons_self, "la xreg0".toList, by decide,
          List.mem_cons_self⟩
    · have hmiss := hother entry hmem opcode hopcode
      simp only [opcodesWords, List.drop_succ_cons, List.drop_zero, List.mem_cons,
        List.not_mem_nil, or_false] at hmem
      rcases hmem with rfl | rfl | rfl | rfl | rfl | rfl | rfl
      · exact jumpForm_mem (htame hmiss) .memR opcode
      · exact jumpForm_mem (htame hmiss) .memW opcode
      · exact jumpForm_atomic (htame hmiss) opcode
      · exact jumpForm_csrR (hformat hmiss) opcode
      · exact jumpForm_format (hformat hmiss)
      · exact jumpForm_sfence (htame hmiss) opcode
      · exact jumpForm_format (f := id) (hformat hmiss)

end Words

/-- A word of `get_word` that can be populated so as to jump forward. -/
structure JumpTemplate (w : GenWord) : Prop extends LegibleTemplate w where
  label_nonneg : 0 ≤ w.label
  jump : IsControlFlow w.insts → NeedsLater w.tpe ∧ "symbol".toList ∈ w.symbols ∧
    ∃ before, PlainText before ∧ before ++ ", symbol".toList ∈ w.insts

theorem ensures_jumpTemplate {s : InstGenerator × Draws} (part : Part) :
    Ensures (getWord part) s fun w s' ↦ JumpTemplate w ∧ w.label = s.1.num part ∧
      s'.1.num = Function.update s.1.num part (s.1.num part + 1) := by
  have hjump : Ensures (getWord part) s fun w _ ↦ ∃ r, JumpForm r ∧
      ∃ label, w = GenWord.new label r.2.1 r.1 r.2.2 := by
    apply Ensures.bind .trivial
    intro opcode s₁ _
    apply Ensures.bind .trivial
    intro label s₂ _
    apply Ensures.bind .trivial
    intro _ s₃ _
    cases hlookup : opcodesMap.lookup opcode with
    | none => exact .lift fun _ h ↦ by cases h
    | some entry =>
      apply Ensures.bind (.draw (ensures_jumpForm (OpcodeTable.mem_of_lookup_eq hlookup)))
      intro r s₄ hr
      exact .pure ⟨r, hr, label, rfl⟩
  have hgot := ((returns_getWord (s := s) stable_true True.intro part).and_ensures
    (ensures_legibleTemplate part)).and_ensures hjump
  apply hgot.ensures.mono
  rintro w s' ⟨⟨⟨hgot, -⟩, hlegible⟩, r, hr, label, heq⟩
  refine ⟨⟨hlegible, ?_, heq ▸ hr⟩, hgot.label_eq, hgot.num_eq⟩
  rw [hgot.label_eq]
  exact Int.natCast_nonneg _

/-- A line of the word names the label `m` of the part. -/
def Word.References (part : Part) (w : Word) (m : ℕ) : Prop :=
  ∃ text ∈ w.texts, ∃ before after, RefersTo part text before m after

/-- The word at position `i` of a part with `n` words. It carries the label `i`, the labels of the
part that it names are those of the words and the one behind them, and if it is a word of control
flow, it names a label and only later ones. -/
structure Forward (part : Part) (n i : ℕ) (w : Word) : Prop where
  populated : w.populated = true
  label_eq : w.label = i
  texts_ne_nil : w.texts ≠ []
  retInsts_eq : w.retInsts = showLines part i w.texts
  texts : ∀ text ∈ w.texts, LabelText part text
  le : ∀ m, w.References part m → m ≤ n
  later : IsControlFlow w.insts → (∃ m, w.References part m) ∧ ∀ m, w.References part m → i < m

/-- A labelled word that names a label of the part, if it is one of control flow. -/
structure Linked (part : Part) (w : Word) : Prop extends Labelled part w where
  exists_reference : IsControlFlow w.insts → ∃ m, w.References part m

theorem Forward.linked {part : Part} {n i : ℕ} {w : Word} (h : Forward part n i w)
    (hi : i < 100000) : Linked part w where
  populated := h.populated
  label_nonneg := by rw [h.label_eq]; exact Int.natCast_nonneg i
  label_lt := by rw [h.label_eq]; omega
  retInsts_ne_nil := by
    obtain ⟨first, rest, htexts⟩ := List.exists_cons_of_ne_nil h.texts_ne_nil
    rw [h.retInsts_eq, htexts]
    exact List.cons_ne_nil _ _
  retInsts_eq := by rw [h.label_eq]; exact h.retInsts_eq
  texts := h.texts
  exists_reference hcontrol := (h.later hcontrol).1

section Populate

variable {s : InstGenerator × Draws} {part : Part} {w : GenWord} {maxLabel : ℤ}

/-- An instruction of control flow becomes one with a reference. -/
theorem DrawnEntries.exists_refersTo {entries : List (Text × Text)} (hw : JumpTemplate w)
    (h : DrawnEntries part w maxLabel entries) (hcontrol : IsControlFlow w.insts) :
    ∃ inst ∈ w.insts, ∃ before m, RefersTo part (Text.subst entries inst) before m [] := by
  obtain ⟨hlater, hsymbol, before, hbefore, hinst⟩ := hw.jump hcontrol
  obtain ⟨entry, hentry, hname⟩ := List.mem_map.mp (h.symbols _ hsymbol)
  obtain ⟨m, -, hval⟩ := h.later hlater entry hentry (hname ▸ hsymbol)
  have hsubst := subst_symbol_eq h.nodup h.drawn hw.names hentry hname
  exact ⟨_, hinst, _, m, refersTo_subst h.drawn hw.names hbefore (hsubst.trans hval)⟩

/-- A reference in a populated text is in the range of the word. -/
theorem RangeText.range {tpe : WordType} {label : ℤ} {text before after : Text} {m : ℕ}
    (h : RangeText part tpe label maxLabel text)
    (href : RefersTo part (Text.ljust 42 text) before m after) :
    SymbolRange tpe label maxLabel m := by
  obtain ⟨n, hpad⟩ := padded_ljust 42 text
  rw [hpad] at href
  rcases h with hplain | ⟨before', m', href', hrange⟩
  · exact absurd href.not_plain (not_infix_padded hplain n)
  · obtain ⟨-, rfl, -⟩ := href.unique (href'.padded n)
    exact hrange

/-- What populating makes of a template whose label fits. -/
theorem ensures_linked (hw : JumpTemplate w) (hlabel : w.label < 100000) :
    Ensures (populateWord w maxLabel part) s fun w' _ ↦ Linked part w'.toWord ∧
      w'.insts = w.insts ∧ w'.label = w.label ∧
      ∀ m, w'.References part m → SymbolRange w.tpe w.label maxLabel m := by
  apply (ensures_drawn hw.toLegibleTemplate hw.label_nonneg).mono
  rintro w' s' ⟨hpopulated, hinsts, hlabel', entries, hentries, hlines⟩
  have hshow : w'.retInsts = showLines part w.label
      ((w.insts.map (Text.subst entries)).map (Text.ljust 42)) := by
    rw [hlines]
    cases w.insts with
    | nil => rfl
    | cons inst insts =>
      simp only [List.map_cons, printWord, showLines, List.map_map]
      rfl
  have htexts := texts_of_showLines hw.label_nonneg hlabel hshow
  have hrange : ∀ text ∈ w'.texts, ∃ inst ∈ w.insts,
      text = Text.ljust 42 (Text.subst entries inst) := by
    rw [htexts]
    intro text htext
    rw [List.map_map] at htext
    obtain ⟨inst, hinst, rfl⟩ := List.mem_map.mp htext
    exact ⟨inst, hinst, rfl⟩
  refine ⟨⟨⟨hpopulated, ?_, ?_, ?_, ?_, fun text htext ↦ ?_⟩, fun hcontrol ↦ ?_⟩, hinsts, hlabel',
    fun m href ↦ ?_⟩
  · rw [hlabel']
    exact hw.label_nonneg
  · rwa [hlabel']
  · obtain ⟨first, rest, hcons⟩ := List.exists_cons_of_ne_nil hw.insts_ne_nil
    rw [hshow, hcons]
    exact List.cons_ne_nil _ _
  · rw [hlabel', htexts]
    exact hshow
  · obtain ⟨inst, hinst, rfl⟩ := hrange text htext
    exact (hentries.rangeText hw.toLegibleTemplate hinst).labelText.padded (padded_ljust 42 _)
  · rw [hinsts] at hcontrol
    obtain ⟨inst, hinst, before, m, href⟩ := hentries.exists_refersTo hw hcontrol
    obtain ⟨n, hpad⟩ := padded_ljust 42 (Text.subst entries inst)
    refine ⟨m, Text.ljust 42 (Text.subst entries inst), ?_, before, _, hpad ▸ href.padded n⟩
    rw [htexts, List.map_map]
    exact List.mem_map_of_mem hinst
  · obtain ⟨text, htext, before, after, href⟩ := href
    obtain ⟨inst, hinst, rfl⟩ := hrange text htext
    exact (hentries.rangeText hw.toLegibleTemplate hinst).range href

/-- A template that is populated at its position jumps forward. -/
theorem ensures_forward (hw : JumpTemplate w) {n i : ℕ} (hlabel : w.label = i) (hi : i < 100000) :
    Ensures (populateWord w n part) s fun w' _ ↦ Forward part n i w'.toWord := by
  have hfits : w.label < 100000 := by omega
  apply (ensures_linked hw hfits).mono
  rintro w' s' ⟨hlinked, hinsts, hlabel', hrange⟩
  rw [hlabel] at hlabel' hrange
  refine ⟨hlinked.populated, hlabel', ?_, hlabel' ▸ hlinked.retInsts_eq, hlinked.texts,
    fun m href ↦ ?_, fun hcontrol ↦ ⟨hlinked.exists_reference hcontrol, fun m href ↦ ?_⟩⟩
  · intro hnil
    have hretInsts := hlinked.retInsts_eq
    rw [hnil] at hretInsts
    exact hlinked.retInsts_ne_nil hretInsts
  · exact Int.ofNat_le.mp (hrange m href).1
  · rw [hinsts] at hcontrol
    exact Int.ofNat_lt.mp ((hrange m href).2 (hw.jump hcontrol).1.1)

end Populate

/-- The word at the position `q` is printed and carries the label `m`. -/
def HasLabel (words : List GenWord) (q m : ℕ) : Prop :=
  ∃ w, words[q]? = some w ∧ w.populated = true ∧ w.label = m

/-- Whenever a word of control flow names the label of a printed word that does not stand behind it,
some printed word behind it has this label, too. -/
def Ahead (part : Part) (words : List GenWord) : Prop :=
  ∀ (i : ℕ) (w : GenWord) (m : ℕ), words[i]? = some w → w.populated = true →
    IsControlFlow w.insts → w.References part m → (∃ q ≤ i, HasLabel words q m) →
      ∃ q, i < q ∧ HasLabel words q m

/-- The entries of the map of `reset_labels`: the labels of the printed words and their places. -/
def printedLabels (n : ℕ) (words : List GenWord) : List (ℤ × ℤ) :=
  ((words.zipIdx n).filter fun entry ↦ entry.1.populated).map fun entry ↦
    (entry.1.label, (entry.2 : ℤ))

/-- A word after `reset_label`. -/
def setLabel (part : Part) (n : ℕ) (w : GenWord) : GenWord :=
  { w with toWord :=
      if w.populated then relabelWord part n w.toWord else { w.toWord with label := n } }

section Renumbering

variable {part : Part} {words : List GenWord}

theorem printedLabels_cons (n : ℕ) (w : GenWord) : printedLabels n (w :: words) =
    if w.populated then (w.label, (n : ℤ)) :: printedLabels (n + 1) words
    else printedLabels (n + 1) words := by
  cases hpopulated : w.populated <;> simp [printedLabels, hpopulated]

theorem relabel_eq_setLabel (h : ∀ w ∈ words, w.populated = true → Labelled part w.toWord) (n : ℕ)
    (labelMap : Dict ℤ ℤ) : relabel part n labelMap words =
      .ok ((words.zipIdx n).map fun entry ↦ setLabel part entry.2 entry.1,
        labelMap.update (printedLabels n words)) := by
  induction words generalizing n labelMap with
  | nil => rfl
  | cons w words ih =>
    obtain ⟨hw, hwords⟩ := List.forall_mem_cons.mp h
    cases hpopulated : w.populated with
    | false =>
      have hreset : w.toWord.resetLabel n part = .ok ({ w.toWord with label := n }, none) := by
        rw [Word.resetLabel, if_neg (by simp [hpopulated])]
      have hset : setLabel part n w = { w with toWord := { w.toWord with label := n } } := by
        rw [setLabel, if_neg (by simp [hpopulated])]
      rw [relabel, hreset, ok_bind]
      dsimp only
      rw [ih hwords, ok_bind, List.zipIdx_cons, List.map_cons, hset, printedLabels_cons,
        if_neg (by simp [hpopulated])]
      rfl
    | true =>
      have hset : setLabel part n w = { w with toWord := relabelWord part n w.toWord } := by
        rw [setLabel, if_pos hpopulated]
      rw [relabel, (hw hpopulated).resetLabel_eq, ok_bind]
      dsimp only
      rw [ih hwords, ok_bind, List.zipIdx_cons, List.map_cons, hset, printedLabels_cons,
        if_pos hpopulated]
      rfl

theorem mem_printedLabels {q m : ℕ} :
    ((m : ℤ), (q : ℤ)) ∈ printedLabels 0 words ↔ HasLabel words q m := by
  constructor
  · intro h
    obtain ⟨⟨w, q'⟩, hentry, heq⟩ := List.mem_map.mp h
    obtain ⟨hmem, hpopulated⟩ := List.mem_filter.mp hentry
    obtain ⟨hlabel, hq⟩ := Prod.mk.inj heq
    obtain rfl := Int.ofNat_inj.mp hq
    exact ⟨w, List.mem_zipIdx_iff_getElem?.mp hmem, hpopulated, hlabel⟩
  · rintro ⟨w, hw, hpopulated, hlabel⟩
    refine List.mem_map.mpr ⟨(w, q), List.mem_filter.mpr ⟨?_, hpopulated⟩, by rw [hlabel]⟩
    exact List.mem_zipIdx_iff_getElem?.mpr hw

theorem pairwise_printedLabels : ((printedLabels 0 words).map Prod.snd).Pairwise (· ≤ ·) := by
  have hsub : List.Sublist ((printedLabels 0 words).map Prod.snd)
      ((words.zipIdx.map Prod.snd).map fun q : ℕ ↦ (q : ℤ)) := by
    rw [printedLabels, List.map_map, List.map_map]
    exact List.filter_sublist.map _
  refine List.Pairwise.sublist hsub ?_
  rw [List.zipIdx_map_snd, List.pairwise_map]
  exact (List.pairwise_lt_range' 1).imp fun h ↦ by omega

/-- The map of `reset_labels`. -/
def labelMapOf (words : List GenWord) : Dict ℤ ℤ := Dict.empty.update (printedLabels 0 words)

theorem nonneg_of_mem_labelMapOf {v : ℤ} (hv : v ∈ (labelMapOf words).values) : 0 ≤ v := by
  obtain ⟨k, hk⟩ := Dict.mem_values_iff.mp hv
  obtain ⟨hmem, -⟩ := Dict.mem_and_le_of_get?_update pairwise_printedLabels hk
  obtain ⟨⟨w, q⟩, -, heq⟩ := List.mem_map.mp hmem
  rw [← (Prod.mk.inj heq).2]
  exact Int.natCast_nonneg q

/-- What a renamed reference names: the place of the last word with the old label, or a later
label. -/
theorem newReference_cases {i m m' : ℕ}
    (h : NewReference (labelMapOf words) i words.length m m') :
    (HasLabel words m' m ∧ ∀ q, HasLabel words q m → q ≤ m') ∨
      ((∀ q, ¬ HasLabel words q m) ∧ i < m' ∧ m' ≤ words.length) := by
  rcases h with hsome | ⟨hnone, hlow, hhigh⟩
  · obtain ⟨hmem, hlast⟩ := Dict.mem_and_le_of_get?_update pairwise_printedLabels hsome
    refine .inl ⟨mem_printedLabels.mp hmem, fun q hq ↦ ?_⟩
    exact Int.ofNat_le.mp (hlast _ (mem_printedLabels.mpr hq) rfl)
  · refine .inr ⟨fun q hq ↦ ?_, Int.ofNat_lt.mp hlow, Int.ofNat_le.mp hhigh⟩
    have hkey := Dict.get?_eq_none_iff.mp hnone
    rw [labelMapOf, Dict.mem_keys_update, not_or] at hkey
    exact hkey.1 (List.mem_map_of_mem (mem_printedLabels.mpr hq))

/-- The word at the position `i` after `reset_labels`. -/
structure Reset (part : Part) (words : List GenWord) (i : ℕ) (w w' : GenWord) : Prop where
  template : w.populated = false → w' = { w with toWord := { w.toWord with label := i } }
  printed : w.populated = true → w'.populated = true ∧ w'.insts = w.insts ∧ w'.label = i ∧
    w'.retInsts = showLines part i w'.texts ∧
      List.Forall₂ (Renamed part (NewReference (labelMapOf words) i words.length)) w.texts w'.texts

/-- One round of the second loop of `reset_labels`. -/
theorem returns_repop_setLabel {w : GenWord} (hw : w.populated = true → Labelled part w.toWord)
    {i : ℕ} (hi : i < words.length) (hlength : words.length ≤ 100000) (draws : Draws) :
    Returns (do
      let word ← (setLabel part i w).toWord.repopLabel (labelMapOf words) words.length part
      return { setLabel part i w with toWord := word } : Stateful Draws GenWord) draws
      fun w' _ ↦ Reset part words i w w' := by
  have hlabel : (0 : ℤ) ≤ i := Int.natCast_nonneg i
  have hlt : (i : ℤ) < 100000 := by omega
  cases hpopulated : w.populated with
  | false =>
    have hset : setLabel part i w = { w with toWord := { w.toWord with label := i } } := by
      rw [setLabel, if_neg (by simp [hpopulated])]
    have hrepop : (setLabel part i w).toWord.repopLabel (labelMapOf words) words.length part draws =
        .ok ((setLabel part i w).toWord, draws) := by
      rw [Word.repopLabel, if_neg (by simp [hset, hpopulated])]
      rfl
    refine ⟨_, by rw [bind_eq, hrepop]; rfl, ⟨fun _ ↦ hset, fun h ↦ ?_⟩⟩
    rw [hpopulated] at h
    exact absurd h Bool.false_ne_true
  | true =>
    have hset : setLabel part i w = { w with toWord := relabelWord part i w.toWord } := by
      rw [setLabel, if_pos hpopulated]
    have hlabelled := hw hpopulated
    have hlines : (relabelWord part i w.toWord).populated = true := hpopulated
    have hbelow : (relabelWord part i w.toWord).label < (words.length : ℤ) := Int.ofNat_lt.mpr hi
    obtain ⟨texts', draws', hrepop, hforall⟩ := exists_repopLabel_showLines hlines rfl
      hlabelled.padFirst_texts (fun _ ↦ nonneg_of_mem_labelMapOf) hlabel hlt hbelow draws
    have htexts : ({ w.toWord with label := i, retInsts := showLines part i texts' } : Word).texts =
        texts' := texts_of_showLines hlabel hlt rfl
    refine ⟨_, by rw [hset, bind_eq, hrepop]; rfl, ⟨fun h ↦ ?_, fun _ ↦
      ⟨hpopulated, rfl, rfl, congrArg (showLines part i) htexts.symm, ?_⟩⟩⟩
    · rw [hpopulated] at h
      exact absurd h.symm Bool.false_ne_true
    · exact htexts.symm ▸ renamed_of_padFirst hlabelled.texts hforall

/-- Whatever is drawn, `reset_labels` returns on words that are labelled or templates. -/
theorem returns_resetLabels_reset
    (hwords : ∀ w ∈ words, w.populated = true → Labelled part w.toWord)
    (hlength : words.length ≤ 100000) (draws : Draws) :
    Returns (resetLabels words part) draws fun words' _ ↦ words'.length = words.length ∧
      ∀ (i : ℕ) (w w' : GenWord), words[i]? = some w → words'[i]? = some w' →
        Reset part words i w w' := by
  have hrelabel := relabel_eq_setLabel hwords 0 Dict.empty
  have hstep : ∀ entry ∈ words.zipIdx, ∀ draws, True → Returns (do
      let word ← (setLabel part entry.2 entry.1).toWord.repopLabel (labelMapOf words)
        words.length part
      return { setLabel part entry.2 entry.1 with toWord := word } : Stateful Draws GenWord) draws
      fun w' _ ↦ Reset part words entry.2 entry.1 w' ∧ True := by
    intro entry hentry draws _
    have hget : words[entry.2]? = some entry.1 := List.mem_zipIdx_iff_getElem?.mp hentry
    have hi : entry.2 < words.length := (List.getElem?_eq_some_iff.mp hget).1
    exact (returns_repop_setLabel (hwords _ (List.mem_of_getElem? hget)) hi hlength draws).mono
      fun _ _ h ↦ ⟨h, True.intro⟩
  obtain ⟨⟨words', draws'⟩, hrun, hforall, -⟩ :=
    Returns.mapM (I := fun _ ↦ True) hstep (s := draws) True.intro
  have hlength' : words'.length = words.length := by
    rw [← hforall.length_eq, List.length_zipIdx]
  refine ⟨(words', draws'), ?_, hlength', fun i w w' hw hw' ↦ ?_⟩
  · rw [resetLabels, bind_eq, lift, hrelabel, ok_bind, ok_bind]
    dsimp only
    rw [List.mapM_map, List.length_map, List.length_zipIdx]
    exact hrun
  · obtain ⟨hi, rfl⟩ := List.getElem?_eq_some_iff.mp hw
    obtain ⟨hi', rfl⟩ := List.getElem?_eq_some_iff.mp hw'
    have hzip : i < words.zipIdx.length := by rwa [List.length_zipIdx]
    have hentry : words.zipIdx.get ⟨i, hzip⟩ = (words[i], i) := by
      rw [List.get_eq_getElem, List.getElem_zipIdx, Nat.zero_add]
    have hget := hforall.get hzip hi'
    rw [hentry] at hget
    exact hget

/-- The renamed reference of a text. -/
theorem RefersTo.rename {text before after : Text} {m : ℕ} (h : RefersTo part text before m after)
    (m' : ℕ) {text' : Text}
    (hpad : Padded (before ++ ", ".toList ++ part.text ++ Text.dec m' ++ after) text') :
    ∃ after', RefersTo part text' before m' after' := by
  obtain ⟨n, rfl⟩ := hpad
  have hnew : RefersTo part (before ++ ", ".toList ++ part.text ++ Text.dec m' ++ after) before m'
      after := ⟨rfl, h.before_plain, h.after_plain, h.after_blank⟩
  exact ⟨_, hnew.padded n⟩

/-- A reference of a renamed text comes from one of the old text. -/
theorem Renamed.exists_old {rename : ℕ → ℕ → Prop} {text text' before' after' : Text} {m' : ℕ}
    (h : Renamed part rename text text') (href : RefersTo part text' before' m' after') :
    ∃ before m after, RefersTo part text before m after ∧ rename m m' := by
  cases h with
  | plain hplain hpad =>
    obtain ⟨n, rfl⟩ := hpad
    exact absurd href.not_plain (not_infix_padded hplain n)
  | reference hold hrename hpad =>
    obtain ⟨after, hnew⟩ := hold.rename _ hpad
    obtain ⟨-, rfl, -⟩ := hnew.unique href
    exact ⟨_, _, _, hold, hrename⟩

/-- A reference of a text stays one. -/
theorem Renamed.exists_new {rename : ℕ → ℕ → Prop} {text text' before after : Text} {m : ℕ}
    (h : Renamed part rename text text') (href : RefersTo part text before m after) :
    ∃ before' m' after', RefersTo part text' before' m' after' ∧ rename m m' := by
  cases h with
  | plain hplain _ => exact absurd href.not_plain hplain
  | reference hold hrename hpad =>
    obtain ⟨-, rfl, -⟩ := hold.unique href
    obtain ⟨after', hnew⟩ := hold.rename _ hpad
    exact ⟨_, _, after', hnew, hrename⟩

section Texts

variable {rename : ℕ → ℕ → Prop} {w w' : Word}

theorem Word.References.exists_old (h : List.Forall₂ (Renamed part rename) w.texts w'.texts)
    {m' : ℕ} (href : w'.References part m') : ∃ m, w.References part m ∧ rename m m' := by
  obtain ⟨text', htext', before', after', href⟩ := href
  obtain ⟨n, hn, rfl⟩ := List.getElem_of_mem htext'
  have hn' : n < w.texts.length := h.length_eq ▸ hn
  obtain ⟨before, m, after, hold, hrename⟩ := (h.get hn' hn).exists_old href
  exact ⟨m, ⟨_, List.getElem_mem hn', before, after, hold⟩, hrename⟩

theorem Word.References.exists_new (h : List.Forall₂ (Renamed part rename) w.texts w'.texts)
    {m : ℕ} (href : w.References part m) : ∃ m', w'.References part m' ∧ rename m m' := by
  obtain ⟨text, htext, before, after, href⟩ := href
  obtain ⟨n, hn, rfl⟩ := List.getElem_of_mem htext
  have hn' : n < w'.texts.length := h.length_eq ▸ hn
  obtain ⟨before', m', after', hnew, hrename⟩ := (h.get hn hn').exists_new href
  exact ⟨m', ⟨_, List.getElem_mem hn', before', after', hnew⟩, hrename⟩

theorem labelText_renamed (htexts : ∀ text ∈ w.texts, LabelText part text)
    (h : List.Forall₂ (Renamed part rename) w.texts w'.texts) :
    ∀ text ∈ w'.texts, LabelText part text := by
  intro text' htext'
  obtain ⟨n, hn, rfl⟩ := List.getElem_of_mem htext'
  have hn' : n < w.texts.length := h.length_eq ▸ hn
  exact (h.get hn' hn).labelText (htexts _ (List.getElem_mem hn'))

end Texts

/-- A printed word is renumbered so as to jump forward, if the words it names are not all before it.
-/
theorem Reset.forward {i : ℕ} {w w' : GenWord} (h : Reset part words i w w')
    (hget : words[i]? = some w) (hpopulated : w.populated = true) (hw : Linked part w.toWord)
    (hahead : Ahead part words) : Forward part words.length i w'.toWord := by
  obtain ⟨hprinted, hinsts, hlabel, hlines, htexts⟩ := h.printed hpopulated
  have hi : i < words.length := (List.getElem?_eq_some_iff.mp hget).1
  refine ⟨hprinted, hlabel, ?_, hlines, labelText_renamed hw.texts htexts, fun m' href ↦ ?_,
    fun hcontrol ↦ ⟨?_, fun m' href ↦ ?_⟩⟩
  · intro hnil
    rw [hnil, List.forall₂_nil_right_iff] at htexts
    have hretInsts := hw.retInsts_eq
    rw [htexts] at hretInsts
    exact hw.retInsts_ne_nil hretInsts
  · obtain ⟨m, -, hrename⟩ := href.exists_old htexts
    rcases newReference_cases hrename with ⟨⟨w₀, hw₀, -⟩, -⟩ | ⟨-, -, hle⟩
    · exact (List.getElem?_eq_some_iff.mp hw₀).1.le
    · exact hle
  · rw [hinsts] at hcontrol
    obtain ⟨m, href⟩ := hw.exists_reference hcontrol
    obtain ⟨m', href', -⟩ := href.exists_new htexts
    exact ⟨m', href'⟩
  · rw [hinsts] at hcontrol
    obtain ⟨m, hold, hrename⟩ := href.exists_old htexts
    rcases newReference_cases hrename with ⟨hlast, hmax⟩ | ⟨-, hlater, -⟩
    · by_contra hle
      obtain ⟨q, hq, hlabelled⟩ := hahead i w m hget hpopulated hcontrol hold
        ⟨m', Nat.le_of_not_lt hle, hlast⟩
      exact absurd (hmax q hlabelled) (by omega)
    · exact hlater

/-- A printed word of control flow does not jump forward any more, if the words it names are all
before it. -/
theorem Reset.not_forward {i m n : ℕ} {w w' : GenWord} (h : Reset part words i w w')
    (hpopulated : w.populated = true) (hcontrol : IsControlFlow w.insts)
    (href : w.References part m) (hbefore : ∃ q ≤ i, HasLabel words q m)
    (hbehind : ∀ q, i < q → ¬ HasLabel words q m) : ¬ Forward part n i w'.toWord := by
  obtain ⟨-, hinsts, -, -, htexts⟩ := h.printed hpopulated
  obtain ⟨m', href', hrename⟩ := href.exists_new htexts
  intro hforward
  have hlt : i < m' := (hforward.later (hinsts ▸ hcontrol)).2 m' href'
  rcases newReference_cases hrename with ⟨hlast, -⟩ | ⟨hnone, -, -⟩
  · exact hbehind m' hlt hlast
  · obtain ⟨q, -, hq⟩ := hbefore
    exact hnone q hq

end Renumbering

end ProcessorFuzz.Mutation
