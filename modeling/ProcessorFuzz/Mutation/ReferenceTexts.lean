import ProcessorFuzz.Mutation.DataAccess
import ProcessorFuzz.Mutation.ResetLabels
import ProcessorFuzz.Mutation.WordLines

/-!
# The references of generated words

The templates of the generator name a label only at the end of an instruction, behind a comma. So a
populated line has at most one reference to a label of its part, with a number that `repop_label`
can read, and renaming keeps it like this. Hence `reset_labels` always returns on such words, however
their labels collide.
-/

namespace ProcessorFuzz.Mutation

open Library Library.Stateful Generating RiscvDefinitions

/-- A text without the line and the colon of a label and without the letter that only `symbol`
has. -/
def PlainText (text : Text) : Prop := ∀ c ∈ "_y:".toList, c ∉ text

instance (text : Text) : Decidable (PlainText text) :=
  inferInstanceAs (Decidable (∀ c ∈ "_y:".toList, c ∉ text))

/-- An instruction of a template: it is plain but for a label at its end. -/
def ReferenceForm (inst : Text) : Prop :=
  PlainText inst ∨ ∃ before, PlainText before ∧ inst = before ++ ", symbol".toList

/-- A name of a register or of an immediate. -/
def IsOperand (name : Text) : Prop :=
  (∃ c ∈ "gi".toList, c ∈ name) ∧ ∀ c ∈ ", ".toList, c ∉ name

instance (name : Text) : Decidable (IsOperand name) :=
  inferInstanceAs (Decidable (_ ∧ _))

/-- The operands of a template. -/
structure OperandForm (e : OpcodeEntry) : Prop where
  values : ∀ name ∈ e.xregs ++ e.fregs ++ e.imms.map Prod.fst, IsOperand name
  symbols : ∀ name ∈ e.symbols, name = "symbol".toList

namespace PlainText

variable {text text' : Text}

theorem append (h : PlainText text) (h' : PlainText text') : PlainText (text ++ text') :=
  fun c hc hmem ↦ (List.mem_append.mp hmem).elim (h c hc) (h' c hc)

theorem dec (n : ℕ) : PlainText (Text.dec n) := by
  have hdigits : ∀ c ∈ "_y:".toList, c.isDigit = false := by decide
  exact fun c hc ↦ Text.not_mem_dec (hdigits c hc)

theorem replace (h : PlainText text) (h' : PlainText text') (old : Text) :
    PlainText (Text.replace old text' text) := by
  intro c hc hmem
  rcases Text.mem_replaceFrom hmem with hmem | hmem
  · exact h c hc hmem
  · exact h' c hc hmem

theorem str {z : ℤ} : PlainText (Text.str z) := by
  cases z with
  | ofNat n => exact dec n
  | negSucc n =>
    have hminus : PlainText ['-'] := by decide
    exact hminus.append (dec (n + 1))

end PlainText

/-- A text without the line and the colon of a label. -/
def Unlabelled (text : Text) : Prop := ∀ c ∈ "_:".toList, c ∉ text

instance (text : Text) : Decidable (Unlabelled text) :=
  inferInstanceAs (Decidable (∀ c ∈ "_:".toList, c ∉ text))

theorem ReferenceForm.unlabelled {inst : Text} (h : ReferenceForm inst) : Unlabelled inst := by
  have hplain : ∀ c ∈ "_:".toList, c ∈ "_y:".toList ∧ c ∉ ", symbol".toList := by decide
  intro c hc hmem
  rcases h with h | ⟨before, h, rfl⟩
  · exact h c (hplain c hc).1 hmem
  · rcases List.mem_append.mp hmem with hmem | hmem
    · exact h c (hplain c hc).1 hmem
    · exact (hplain c hc).2 hmem

/-- The name of a register or a rounding mode in a syntax leaves a label at its end alone. -/
theorem ReferenceForm.format {asm arg : Text} (h : ReferenceForm asm) (harg : PlainText arg) :
    ReferenceForm (Mutation.format asm arg) := by
  rcases h with h | ⟨before, h, rfl⟩
  · exact .inl (h.replace harg _)
  · have hlabel : Text.replace "\x7b\x7d".toList arg " symbol".toList = " symbol".toList :=
      Text.replace_of_not_isInfix arg (by decide)
    refine .inr ⟨Text.replace "\x7b\x7d".toList arg before, h.replace harg _, ?_⟩
    calc
      Mutation.format (before ++ ", symbol".toList) arg
          = Text.replace "\x7b\x7d".toList arg (before ++ ',' :: " symbol".toList) := rfl
      _ = Text.replace "\x7b\x7d".toList arg before ++ ", symbol".toList := by
        rw [Text.replace_append_cons (by decide) arg (by decide), hlabel]
        rfl

namespace OperandForm

variable {e : OpcodeEntry}

theorem addXregs (h : OperandForm e) {xregs : List Text} (hxregs : ∀ name ∈ xregs, IsOperand name) :
    OperandForm (OpcodeEntry.addXregs e xregs) := by
  refine ⟨fun name hname ↦ ?_, h.symbols⟩
  have hvalues := h.values name
  simp only [OpcodeEntry.addXregs, List.mem_append] at hname hvalues
  rcases hname with ((hname | hname) | hname) | hname
  · exact hvalues (.inl (.inl hname))
  · exact hxregs name hname
  · exact hvalues (.inl (.inr hname))
  · exact hvalues (.inr hname)

theorem addImms (h : OperandForm e) {imms : List (Text × ℕ)}
    (himms : ∀ imm ∈ imms, IsOperand imm.1) : OperandForm (OpcodeEntry.addImms e imms) := by
  refine ⟨fun name hname ↦ ?_, h.symbols⟩
  have hvalues := h.values name
  simp only [OpcodeEntry.addImms, List.map_append, List.mem_append] at hname hvalues
  rcases hname with hname | hname | hname
  · exact hvalues (.inl hname)
  · exact hvalues (.inr hname)
  · obtain ⟨imm, himm, rfl⟩ := List.mem_map.mp hname
    exact himms imm himm

theorem addSymbol (h : OperandForm e) : OperandForm (OpcodeEntry.addSymbol e) := by
  refine ⟨h.values, fun name hname ↦ ?_⟩
  rcases List.mem_append.mp hname with hname | hname
  · exact h.symbols name hname
  · exact List.mem_singleton.mp hname

end OperandForm

/-- An entry of the opcode tables. Only a syntax without a label has a field for another name. -/
structure LegibleEntry (e : OpcodeEntry) : Prop extends OperandForm e where
  asm : ReferenceForm e.asm
  field : e.symbols = [] ∨ ¬ "\x7b\x7d".toList <:+: e.asm

theorem legibleEntry_opcodesMap {item : Text × OpcodeEntry} (h : item ∈ opcodesMap) :
    LegibleEntry item.2 := by
  have hvalues : ∀ table ∈ baseTables, ∀ item ∈ table,
      ∀ name ∈ item.2.xregs ++ item.2.fregs ++ item.2.imms.map Prod.fst, IsOperand name := by
    decide +kernel
  have hsymbols : ∀ table ∈ baseTables, ∀ item ∈ table,
      ∀ name ∈ item.2.symbols, name = "symbol".toList := by
    decide +kernel
  have hasm : ∀ table ∈ baseTables, ∀ item ∈ table, PlainText item.2.asm ∨
      (PlainText (item.2.asm.take (item.2.asm.length - 8)) ∧
        item.2.asm = item.2.asm.take (item.2.asm.length - 8) ++ ", symbol".toList) := by
    decide +kernel
  have hfield : ∀ table ∈ baseTables, ∀ item ∈ table,
      item.2.symbols = [] ∨ ¬ "\x7b\x7d".toList <:+: item.2.asm := by
    decide +kernel
  obtain ⟨table, htable, hitem⟩ := exists_baseTable h
  refine ⟨⟨hvalues table htable item hitem, hsymbols table htable item hitem⟩, ?_,
    hfield table htable item hitem⟩
  exact (hasm table htable item hitem).imp_right fun h ↦ ⟨_, h⟩

/-- What a word function makes of an entry. The rounding mode `dyn` shares a letter with `symbol`,
but it stands in words without a label only. -/
structure LegibleWord (r : WordType × List Text × OpcodeEntry) : Prop where
  operands : OperandForm r.2.2
  insts : (∀ inst ∈ r.2.1, ReferenceForm inst) ∨
    (r.2.2.symbols = [] ∧ ∀ inst ∈ r.2.1, Unlabelled inst)

section Words

variable {draws : Draws} {e : OpcodeEntry}

theorem plainText_name (csr : CsrName) : PlainText csr.name := by
  cases csr <;> decide

theorem isOperand_bitsReg (i : ℕ) : IsOperand (bitsReg i) := by
  have hdigits : ∀ c ∈ ", ".toList, c.isDigit = false := by decide
  have hreg : ∀ c ∈ ", ".toList, c ∉ "xreg".toList := by decide
  refine ⟨⟨'g', by decide, List.mem_append_left _ (by decide)⟩, fun c hc hmem ↦ ?_⟩
  rcases List.mem_append.mp hmem with hmem | hmem
  · exact hreg c hc hmem
  · exact Text.not_mem_dec (hdigits c hc) hmem

theorem plainText_bitsReg (i : ℕ) : PlainText (bitsReg i) :=
  PlainText.append (by decide) (.dec _)

/-- The label of a word, in its first instruction. -/
theorem referenceForm_la (reg : Text) (h : PlainText reg) :
    ReferenceForm ("la ".toList ++ reg ++ ", symbol".toList) :=
  .inr ⟨_, PlainText.append (by decide) h, rfl⟩

theorem ensures_maskAddr : Ensures maskAddr draws fun r _ ↦
    (∀ inst ∈ r.1, ReferenceForm inst) ∧ ∀ name ∈ r.2, IsOperand name := by
  apply Ensures.bind .trivial
  intro rand draws₁ _
  split
  · refine .pure ⟨?_, by decide⟩
    simp only [List.forall_mem_cons]
    exact ⟨.inl (by decide), .inl (by decide), nofun⟩
  · exact .pure ⟨nofun, nofun⟩

theorem ensures_setBits (is : List ℕ) : Ensures (setBits is) draws fun r _ ↦
    (∀ inst ∈ r.1, ReferenceForm inst) ∧ ∀ name ∈ r.2, IsOperand name := by
  induction is generalizing draws with
  | nil => exact .pure ⟨nofun, nofun⟩
  | cons i is ih =>
    apply Ensures.bind .trivial
    intro bits draws₁ _
    apply Ensures.bind .trivial
    intro offset draws₂ _
    apply Ensures.bind ih
    intro ⟨insts, xregs⟩ draws₃ ⟨hinsts, hxregs⟩
    have hreg := plainText_bitsReg i
    have hcomma : PlainText ", ".toList := by decide
    refine .pure ⟨?_, List.forall_mem_cons.mpr ⟨isOperand_bitsReg i, hxregs⟩⟩
    rw [List.forall_mem_append]
    refine ⟨?_, hinsts⟩
    simp only [List.forall_mem_cons]
    refine ⟨.inl ?_, .inl ?_, .inl ?_, nofun⟩
    · exact ((PlainText.append (by decide) hreg).append (by decide)).append (.dec bits)
    · exact ((((PlainText.append (by decide) hreg).append hcomma).append hreg).append hcomma).append
        .str
    · exact .append (by decide) hreg

theorem ensures_wordMem (he : LegibleEntry e) (tpe : WordType) (opcode : Text) :
    Ensures (wordMem tpe opcode e) draws fun r _ ↦ LegibleWord r := by
  apply Ensures.bind ensures_maskAddr
  intro ⟨mask, xregs⟩ draws₁ ⟨hmask, hxregs⟩
  refine .pure ⟨(he.addXregs hxregs).addSymbol, .inl ?_⟩
  simp only [List.forall_mem_append, List.forall_mem_singleton]
  exact ⟨⟨referenceForm_la "xreg1".toList (by decide), hmask⟩, he.asm⟩

theorem ensures_wordAtomic (he : LegibleEntry e) (opcode : Text) :
    Ensures (wordAtomic opcode e) draws fun r _ ↦ LegibleWord r := by
  apply Ensures.bind ensures_maskAddr
  intro ⟨mask, xregs⟩ draws₁ ⟨hmask, hxregs⟩
  refine .pure ⟨((he.addXregs hxregs).addImms ?_).addSymbol, .inl ?_⟩
  · exact List.forall_mem_singleton.mpr (by decide : IsOperand "imm6".toList)
  · simp only [List.forall_mem_append, List.forall_mem_cons]
    exact ⟨⟨⟨referenceForm_la "xreg1".toList (by decide), .inl (by decide), nofun⟩, hmask⟩,
      he.asm, nofun⟩

theorem ensures_wordCsrR (he : LegibleEntry e) (opcode : Text) :
    Ensures (wordCsrR opcode e) draws fun r _ ↦ LegibleWord r := by
  apply Ensures.bind .trivial
  intro csr draws₁ _
  have hformat := he.asm.format (plainText_name csr)
  split
  · refine .pure ⟨he.addSymbol, .inl ?_⟩
    simp only [List.forall_mem_cons]
    exact ⟨referenceForm_la "xreg1".toList (by decide), .inl (by decide), hformat, nofun⟩
  · apply Ensures.bind .trivial
    intro rounds draws₂ _
    apply Ensures.bind (ensures_setBits _)
    intro ⟨insts, xregs⟩ draws₃ ⟨hinsts, hxregs⟩
    refine .pure ⟨he.addXregs hxregs, .inl ?_⟩
    simp only [List.forall_mem_append, List.forall_mem_singleton]
    exact ⟨⟨.inl (by decide), hinsts⟩, hformat⟩

/-- A word function that makes one choice. -/
theorem ensures_chosenWord {α : Type} {l : List α} {r : α → WordType × List Text × OpcodeEntry}
    (hr : ∀ a ∈ l, LegibleWord (r a)) :
    Ensures (do
      let a ← Draws.choice l
      return r a) draws fun r _ ↦ LegibleWord r := by
  apply Ensures.bind (Q := fun a _ ↦ a ∈ l) ⟨fun _ h ↦ Draws.mem_of_choice_eq_ok h⟩
  intro a draws₁ ha
  exact .pure (hr a ha)

theorem legibleWord_ret (he : LegibleEntry e) (opcode : Text) :
    Ensures (wordRet opcode e) draws fun r _ ↦ LegibleWord r := by
  have hepc : PlainText (if e.asm = "mret".toList then "mepc".toList
      else if e.asm = "sret".toList then "sepc".toList else "uepc".toList) := by
    split
    · decide
    · split <;> decide
  refine .pure ⟨(he.addXregs (List.forall_mem_singleton.mpr (by decide))).addSymbol, .inl ?_⟩
  simp only [List.forall_mem_cons]
  refine ⟨referenceForm_la "xreg0".toList (by decide), .inl ?_, he.asm, nofun⟩
  exact (PlainText.append (by decide) hepc).append (by decide)

theorem legibleWord_sfence (he : LegibleEntry e) {pt : Text} (hpt : PlainText pt) :
    LegibleWord (.none, ["li xreg0, uimm1".toList, "la xreg1, ".toList ++ pt,
      "addi xreg1, xreg1, uimm6".toList, e.asm],
      OpcodeEntry.addImms e [("uimm1".toList, 1), ("uimm6".toList, 8)]) where
  operands := he.addImms (by decide)
  insts := by
    refine .inl ?_
    simp only [List.forall_mem_cons]
    exact ⟨.inl (by decide), .inl (PlainText.append (by decide) hpt), .inl (by decide), he.asm,
      nofun⟩

theorem legibleWord_fp (he : LegibleEntry e) {rm : Text} (hrm : Unlabelled rm) :
    LegibleWord (.none, [format e.asm rm], e) := by
  refine ⟨he.toOperandForm, ?_⟩
  dsimp only
  simp only [List.forall_mem_singleton]
  rcases he.field with hnil | hfield
  · refine .inr ⟨hnil, fun c hc hmem ↦ ?_⟩
    rcases Text.mem_replaceFrom hmem with hmem | hmem
    · exact he.asm.unlabelled c hc hmem
    · exact hrm c hc hmem
  · refine .inl ?_
    rw [format, Text.replace_of_not_isInfix rm hfield]
    exact he.asm

theorem ensures_wordFunction (he : LegibleEntry e) (opcode : Text) :
    Ensures (wordFunction opcode opcode e) draws fun r _ ↦ LegibleWord r := by
  have hasm : ∀ inst ∈ [e.asm], ReferenceForm inst := List.forall_mem_singleton.mpr he.asm
  unfold wordFunction
  cases hfind : opcodesWords.find? fun entry ↦ decide (opcode ∈ entry.1) with
  | none => exact .pure ⟨he.toOperandForm, .inl hasm⟩
  | some entry =>
    have hmem := List.mem_of_find?_eq_some hfind
    simp only [opcodesWords, List.mem_cons, List.not_mem_nil, or_false] at hmem
    rcases hmem with rfl | rfl | rfl | rfl | rfl | rfl | rfl | rfl | rfl | rfl | rfl
    · exact .pure ⟨he.toOperandForm, .inl hasm⟩
    · exact .pure ⟨he.addSymbol, .inl (List.forall_mem_cons.mpr
        ⟨referenceForm_la "xreg1".toList (by decide), hasm⟩)⟩
    · exact .pure ⟨he.toOperandForm, .inl hasm⟩
    · exact legibleWord_ret he opcode
    · exact ensures_wordMem he .memR opcode
    · exact ensures_wordMem he .memW opcode
    · exact ensures_wordAtomic he opcode
    · exact ensures_wordCsrR he opcode
    · exact ensures_chosenWord fun csr _ ↦
        ⟨he.toOperandForm,
          .inl (List.forall_mem_singleton.mpr (he.asm.format (plainText_name csr)))⟩
    · have hpts : ∀ pt ∈ ["pt0", "pt1", "pt2", "pt3"].map String.toList, PlainText pt := by decide
      exact ensures_chosenWord fun pt hpt ↦ legibleWord_sfence he (hpts pt hpt)
    · have hrms : ∀ rm ∈ ["rne", "rtz", "rdn", "rup", "rmm", "dyn"].map String.toList,
          Unlabelled rm := by decide
      exact ensures_chosenWord fun rm hrm ↦ legibleWord_fp he (hrms rm hrm)

end Words

/-- A word of `get_word`. -/
structure LegibleTemplate (w : GenWord) : Prop extends Template w where
  values : ∀ name ∈ w.xregs ++ w.fregs ++ w.imms.map Prod.fst, IsOperand name
  names : ∀ name ∈ w.symbols, name = "symbol".toList
  forms : (∀ inst ∈ w.insts, ReferenceForm inst) ∨
    (w.symbols = [] ∧ ∀ inst ∈ w.insts, Unlabelled inst)

section Generating

variable {s : InstGenerator × Draws} {part : Part} {w : GenWord} {maxLabel : ℤ}

theorem ensures_legibleTemplate (part : Part) :
    Ensures (getWord part) s fun w _ ↦ LegibleTemplate w := by
  have hlegible : Ensures (getWord part) s fun w _ ↦ ∃ r, LegibleWord r ∧
      ∃ label, w = GenWord.new label r.2.1 r.1 r.2.2 := by
    apply Ensures.bind .trivial
    intro opcode s₁ _
    apply Ensures.bind .trivial
    intro label s₂ _
    apply Ensures.bind .trivial
    intro _ s₃ _
    cases hlookup : opcodesMap.lookup opcode with
    | none => exact .lift nofun
    | some entry =>
      obtain ⟨before, after, heq, -⟩ := List.lookup_eq_some_iff.mp hlookup
      have hentry : LegibleEntry entry := by
        have hmem : (opcode, entry) ∈ opcodesMap := by
          rw [heq]
          exact List.mem_append_right _ List.mem_cons_self
        exact legibleEntry_opcodesMap hmem
      apply Ensures.bind (.draw (ensures_wordFunction hentry opcode))
      intro r s₄ hr
      exact .pure ⟨r, hr, label, rfl⟩
  have htemplate := (returns_getWord (s := s) stable_true True.intro part).and_ensures hlegible
  apply htemplate.ensures.mono
  rintro w s' ⟨⟨hgot, -⟩, r, hr, label, rfl⟩
  exact ⟨hgot.template, hr.operands.values, hr.operands.symbols, hr.insts⟩

/-- The number of a label that a symbol may name. -/
def SymbolRange (tpe : WordType) (label maxLabel : ℤ) (m : ℕ) : Prop :=
  (m : ℤ) ≤ maxLabel ∧ (tpe ≠ .memR → label < m)

/-- What a symbol becomes. -/
def SymbolValue (part : Part) (tpe : WordType) (label maxLabel : ℤ) (val : Text) : Prop :=
  IsDataSymbol val ∨ ∃ m, SymbolRange tpe label maxLabel m ∧ val = part.text ++ Text.dec m

theorem ensures_symbolValue {tpe : WordType} {label : ℤ} (hlabel : 0 ≤ label) {draws : Draws} :
    Ensures (getSymbol tpe label maxLabel part) draws
      fun val _ ↦ SymbolValue part tpe label maxLabel val := by
  have hdata (draws : Draws) : Ensures dataSymbol draws
      fun val _ ↦ SymbolValue part tpe label maxLabel val :=
    (returns_dataSymbol stable_true True.intro).ensures.mono fun _ _ h ↦ .inl h.1
  have hpart (low : ℤ) (hlow : 0 ≤ low) (hlater : tpe ≠ .memR → label < low) (draws : Draws) :
      Ensures (partSymbol low maxLabel part) draws
        fun val _ ↦ SymbolValue part tpe label maxLabel val := by
    apply Ensures.bind .randint
    intro num draws₁ ⟨hle, hhigh⟩
    lift num to ℕ using hlow.trans hle
    exact .pure (.inr ⟨num, ⟨hhigh, fun htpe ↦ (hlater htpe).trans_le hle⟩, rfl⟩)
  cases tpe with
  | memW => exact hdata draws
  | memR =>
    apply Ensures.bind .trivial
    intro rand draws₁ _
    split
    · exact hpart 0 le_rfl (fun h ↦ absurd rfl h) draws₁
    · exact hdata draws₁
  | _ => exact hpart (label + 1) (by omega) (fun _ ↦ by omega) draws

/-- A label of the part in the range of a word. -/
def LaterSymbol (part : Part) (tpe : WordType) (label maxLabel : ℤ) (val : Text) : Prop :=
  ∃ m, SymbolRange tpe label maxLabel m ∧ val = part.text ++ Text.dec m

/-- A word that jumps gets a label of its part. -/
theorem ensures_laterSymbol {tpe : WordType} (htpe : NeedsLater tpe) {label : ℤ} (hlabel : 0 ≤ label)
    {draws : Draws} : Ensures (getSymbol tpe label maxLabel part) draws
      fun val _ ↦ LaterSymbol part tpe label maxLabel val := by
  rw [getSymbol_of_needsLater htpe]
  apply Ensures.bind .randint
  intro num draws₁ ⟨hlow, hhigh⟩
  have hnum : 0 ≤ num := by omega
  lift num to ℕ using hnum
  exact .pure ⟨num, ⟨hhigh, fun _ ↦ hlow⟩, rfl⟩

theorem ensures_symbol {tpe : WordType} {label : ℤ} (hlabel : 0 ≤ label) {draws : Draws} :
    Ensures (getSymbol tpe label maxLabel part) draws fun val _ ↦
      SymbolValue part tpe label maxLabel val ∧
        (NeedsLater tpe → LaterSymbol part tpe label maxLabel val) :=
  ⟨fun r hr ↦ ⟨(ensures_symbolValue hlabel).of_eq_ok r hr,
    fun htpe ↦ (ensures_laterSymbol htpe hlabel).of_eq_ok r hr⟩⟩

/-- The value with which an operand of a word is filled in. -/
def Drawn (part : Part) (w : GenWord) (maxLabel : ℤ) (entry : Text × Text) : Prop :=
  IsValue entry.2 ∧ ((IsOperand entry.1 ∧ '_' ∉ entry.2) ∨
    (entry.1 ∈ w.symbols ∧ SymbolValue part w.tpe w.label maxLabel entry.2))

theorem not_line_mem_reg {c : Char} (hc : '_' ≠ c) (n : ℕ) : '_' ∉ c :: Text.dec n :=
  List.not_mem_cons_of_ne_of_not_mem hc (Text.not_mem_dec (by decide))

theorem not_line_mem_xreg {noZero : Bool} {val : Text} (h : IsXreg noZero val) : '_' ∉ val := by
  obtain ⟨n, rfl, -⟩ := h
  exact not_line_mem_reg (by decide) n

theorem not_line_mem_imm {bits align : ℕ} {signed : Bool} {val : Text}
    (h : ImmVal bits align signed val) : '_' ∉ val := by
  obtain ⟨sign, imm, hsign, rfl⟩ := h
  intro hmem
  rcases List.mem_append.mp hmem with hmem | hmem
  · rcases hsign with rfl | ⟨-, rfl⟩
    · exact nomatch hmem
    · exact absurd hmem (by decide)
  · exact Text.not_mem_dec (by decide) hmem

theorem isValue_symbolValue {tpe : WordType} {label : ℤ} {val : Text}
    (h : SymbolValue part tpe label maxLabel val) : IsValue val := by
  have hsymbol : IsDataSymbol val ∨ (True ∧ IsPartSymbol part val) :=
    h.imp_right fun ⟨m, _, hm⟩ ↦ ⟨True.intro, (m : ℤ), hm⟩
  exact IsValue.symbol hsymbol

/-- The value of a register or of an immediate. -/
def OperandValue (entry : Text × Text) : Prop :=
  IsValue entry.2 ∧ IsOperand entry.1 ∧ '_' ∉ entry.2

/-- The values with which a template was filled in. -/
structure DrawnEntries (part : Part) (w : GenWord) (maxLabel : ℤ) (entries : List (Text × Text)) :
    Prop where
  nodup : (entries.map Prod.fst).Nodup
  drawn : ∀ entry ∈ entries, Drawn part w maxLabel entry
  symbols : ∀ name ∈ w.symbols, name ∈ entries.map Prod.fst
  later : NeedsLater w.tpe → ∀ entry ∈ entries, entry.1 ∈ w.symbols →
    LaterSymbol part w.tpe w.label maxLabel entry.2

/-- A symbol is no register and no immediate. -/
theorem not_isOperand_symbol : ¬ IsOperand "symbol".toList := by
  rintro ⟨⟨c, hc, hmem⟩, -⟩
  have hletters : ∀ c ∈ "gi".toList, c ∉ "symbol".toList := by decide
  exact hletters c hc hmem

/-- The values with which a template is filled in, and the lines that are printed. -/
theorem ensures_drawn (hw : LegibleTemplate w) (hlabel : 0 ≤ w.label) :
    Ensures (populateWord w maxLabel part) s fun w' _ ↦ w'.populated = true ∧
      w'.insts = w.insts ∧ w'.label = w.label ∧ ∃ entries, DrawnEntries part w maxLabel entries ∧
        w'.retInsts = printWord part w.label (w.insts.map (Text.subst entries)) := by
  have hregion : (nums.take (if part = .prefixPart then (10, 15) else (0, 31)).2).drop
      (if part = .prefixPart then (10, 15) else (0, 31)).1 ≠ [] := by
    cases part <;> decide
  have hxreg : ∀ name ∈ w.xregs, IsOperand name := fun name hname ↦
    hw.values name (List.mem_append_left _ (List.mem_append_left _ hname))
  have hfreg : ∀ name ∈ w.fregs, IsOperand name := fun name hname ↦
    hw.values name (List.mem_append_left _ (List.mem_append_right _ hname))
  have himm : ∀ imm ∈ w.imms, IsOperand imm.1 := fun imm himm ↦
    hw.values imm.1 (List.mem_append_right _ (List.mem_map_of_mem himm))
  rw [populateWord, if_neg (by simp [hw.populated_eq])]
  apply Ensures.bind (ensures_fill (C := fun _ val ↦ ∃ noZero, IsXreg noZero val)
    fun xreg _ s' ↦ ?xregs)
  case xregs =>
    split
    · exact (returns_getXregs stable_true True.intro (by decide) false).ensures.mono
        fun _ _ h ↦ ⟨false, h.1⟩
    · exact (returns_getXregs stable_true True.intro hregion true).ensures.mono
        fun _ _ h ↦ ⟨true, h.1⟩
  intro opvals₁ s₁ h₁
  have hvalues₁ : ∀ entry ∈ opvals₁.entries, OperandValue entry :=
    h₁.forall_entries (fun name hname val hval ↦ by
      obtain ⟨_, hval⟩ := hval
      exact ⟨.xreg hval, hxreg name hname, not_line_mem_xreg hval⟩)
      (List.forall_mem_nil _)
  apply Ensures.bind (ensures_fill (C := fun _ val ↦ ∃ n, val = 'f' :: Text.dec n) fun freg _ s' ↦
    (returns_getFregs stable_true True.intro).ensures.mono fun _ _ h ↦ h.1)
  intro opvals₂ s₂ h₂
  have hvalues₂ : ∀ entry ∈ opvals₂.entries, OperandValue entry :=
    h₂.forall_entries (fun name hname val hval ↦ ⟨.freg hval, hfreg name hname, by
      obtain ⟨n, rfl⟩ := hval
      exact not_line_mem_reg (by decide) n⟩) hvalues₁
  apply Ensures.bind (ensures_fill (C := fun imm val ↦ ∃ bits signed, ImmVal bits imm.2 signed val)
    fun imm hmem s' ↦ ?imms)
  case imms =>
    obtain ⟨⟨bits, signed, hkind⟩, halign⟩ := exists_isImm (hw.imms_usual imm hmem)
    exact (returns_getImm stable_true True.intro hkind halign).ensures.mono
      fun _ _ h ↦ ⟨bits, signed, h.1⟩
  intro opvals₃ s₃ h₃
  have hvalues₃ : ∀ entry ∈ opvals₃.entries, OperandValue entry :=
    h₃.forall_entries (fun imm hmem val hval ↦ by
      obtain ⟨_, _, hval⟩ := hval
      exact ⟨.imm hval, himm imm hmem, not_line_mem_imm hval⟩) hvalues₂
  apply Ensures.bind (ensures_fill (C := fun _ val ↦ SymbolValue part w.tpe w.label maxLabel val ∧
    (NeedsLater w.tpe → LaterSymbol part w.tpe w.label maxLabel val))
    fun symbol _ s' ↦ .draw (ensures_symbol hlabel))
  intro opvals₄ s₄ h₄
  have hentries : DrawnEntries part w maxLabel opvals₄.entries := by
    refine ⟨opvals₄.nodup_keys, ?_, fun name hname ↦ ?_, fun htpe ↦ ?_⟩
    · exact h₄.forall_entries
        (fun name hname val hval ↦ ⟨isValue_symbolValue hval.1, .inr ⟨hname, hval.1⟩⟩)
        fun entry hentry ↦ ⟨(hvalues₃ entry hentry).1, .inl (hvalues₃ entry hentry).2⟩
    · exact h₄.mem_keys (.inl (by rwa [List.map_id]))
    · refine h₄.forall_entries (fun name hname val hval _ ↦ hval.2 htpe) fun entry hentry hname ↦ ?_
      have hoperand := (hvalues₃ entry hentry).2.1
      rw [hw.names _ hname] at hoperand
      exact absurd hoperand not_isOperand_symbol
  apply Ensures.bind (.lift (Q := fun word _ ↦ word.populated = true ∧ word.insts = w.insts ∧
    word.label = w.label ∧
      word.retInsts = printWord part w.label (w.insts.map (Text.subst opvals₄.entries)))
    fun word hword ↦ ?word)
  case word =>
    obtain ⟨hpopulated, hinsts, hlabel', -⟩ := length_retInsts_populate hword
    exact ⟨hpopulated, hinsts, hlabel', retInsts_populate hword⟩
  rintro word s₅ ⟨hpopulated, hinsts, hlabel', hlines⟩
  exact .pure ⟨hpopulated, hinsts, hlabel', opvals₄.entries, hentries, hlines⟩

/-- A text without a reference, or with one to a label in the range of the word at its end. -/
def RangeText (part : Part) (tpe : WordType) (label maxLabel : ℤ) (text : Text) : Prop :=
  ¬ part.text <:+: text ∨
    ∃ before m, RefersTo part text before m [] ∧ SymbolRange tpe label maxLabel m

theorem RangeText.labelText {tpe : WordType} {label : ℤ} {text : Text}
    (h : RangeText part tpe label maxLabel text) : LabelText part text :=
  h.imp_right fun ⟨before, m, h, _⟩ ↦ ⟨before, m, [], h⟩

theorem not_infix_of_not_line_mem {text : Text} (h : '_' ∉ text) : ¬ part.text <:+: text := by
  obtain ⟨c, hpart, -⟩ := exists_part_text_eq part
  exact Text.not_infix_of_not_mem (by rw [hpart]; exact List.mem_cons_self) h

/-- The label of a data word is not one of the part. -/
theorem not_infix_dataSymbol {before val : Text} (hbefore : '_' ∉ before) (h : IsDataSymbol val) :
    ¬ part.text <:+: before ++ val := by
  obtain ⟨n, k, -, -, rfl⟩ := h
  have hletter : ∃ c, part.text = ['_', c] ∧ c ≠ '_' ∧ c ≠ 'd' ∧ c.isDigit = false := by
    cases part <;> exact ⟨_, rfl, by decide, by decide, by decide⟩
  obtain ⟨c, hpart, hline, hd, hdigit⟩ := hletter
  rw [hpart, Text.infix_append_iff_of_not_mem hbefore]
  refine Text.not_infix_of_not_mem (c := c) (by simp) fun hmem ↦ ?_
  have hdec : ∀ n : ℕ, c ∉ Text.dec n := fun n ↦ Text.not_mem_dec hdigit
  have hpre : "d_".toList = ['d', '_'] := rfl
  have hsep : "_".toList = ['_'] := rfl
  simp only [List.mem_append, hdec, hpre, hsep, List.mem_cons, List.not_mem_nil, or_false,
    hd, hline] at hmem

section Subst

variable {entries : List (Text × Text)} (hnodup : (entries.map Prod.fst).Nodup)
  (hdrawn : ∀ entry ∈ entries, Drawn part w maxLabel entry)
  (hnames : ∀ name ∈ w.symbols, name = "symbol".toList)

include hdrawn hnames

theorem name_eq_or_isOperand {entry : Text × Text} (hentry : entry ∈ entries) :
    entry.1 = "symbol".toList ∨ IsOperand entry.1 := by
  rcases (hdrawn entry hentry).2 with h | h
  · exact .inr h.1
  · exact .inl (hnames _ h.1)

theorem separates_drawn {c : Char} (hc : c ∈ ", ".toList) : Text.Separates c entries := by
  have hsymbol : ∀ c ∈ ", ".toList, c ∉ "symbol".toList := by decide
  intro entry hentry
  rcases name_eq_or_isOperand hdrawn hnames hentry with h | ⟨⟨d, -, hd⟩, hname⟩
  · rw [h]
    exact ⟨by decide, hsymbol c hc⟩
  · exact ⟨List.ne_nil_of_mem hd, hname c hc⟩

/-- No label comes into a plain text. -/
theorem not_line_mem_subst {text : Text} (h : PlainText text) :
    '_' ∉ Text.subst entries text := by
  have hvalues : ∀ entry ∈ entries, 'y' ∉ entry.2 := fun entry hentry hmem ↦
    (hdrawn entry hentry).1 'y' hmem (by decide)
  rw [Text.subst_filter (p := fun entry ↦ decide (entry.1 ≠ "symbol".toList)) (h 'y' (by decide))
    hvalues fun entry _ hentry ↦ by rw [of_decide_eq_false hentry |> not_not.mp]; decide]
  intro hmem
  rcases Text.mem_subst hmem with hmem | ⟨entry, hentry, hmem⟩
  · exact h '_' (by decide) hmem
  · obtain ⟨hentry, hne⟩ := List.mem_filter.mp hentry
    rcases (hdrawn entry hentry).2 with hvalue | hvalue
    · exact hvalue.2 hmem
    · exact of_decide_eq_true hne (hnames _ hvalue.1)

/-- The label at the end of an instruction is substituted on its own. -/
theorem subst_reference (before : Text) : Text.subst entries (before ++ ", symbol".toList) =
    Text.subst entries before ++ ", ".toList ++ Text.subst entries "symbol".toList := by
  have hcomma := Text.subst_append_cons (separates_drawn hdrawn hnames (c := ',') (by decide))
    before (' ' :: "symbol".toList)
  have hblank := Text.subst_append_cons (separates_drawn hdrawn hnames (c := ' ') (by decide))
    [] "symbol".toList
  rw [Text.subst_nil, List.nil_append, List.nil_append] at hblank
  calc
    Text.subst entries (before ++ ", symbol".toList)
        = Text.subst entries before ++ ',' :: Text.subst entries (' ' :: "symbol".toList) :=
      hcomma
    _ = _ := by
      rw [hblank]
      simp

/-- An instruction whose symbol is a label of the part refers to this label. -/
theorem refersTo_subst {before : Text} (h : PlainText before) {m : ℕ}
    (hval : Text.subst entries "symbol".toList = part.text ++ Text.dec m) :
    RefersTo part (Text.subst entries (before ++ ", symbol".toList)) (Text.subst entries before) m
      [] := by
  have hbefore := not_line_mem_subst hdrawn hnames h
  refine ⟨?_, not_infix_of_not_line_mem hbefore, not_infix_of_not_line_mem nofun, nofun⟩
  rw [subst_reference hdrawn hnames, hval, List.append_nil, List.append_assoc, List.append_assoc,
    List.append_assoc]

theorem eq_symbol_of_isInfix {entry : Text × Text} (hentry : entry ∈ entries)
    (hwithin : entry.1 <:+: "symbol".toList) : entry.1 = "symbol".toList := by
  refine (name_eq_or_isOperand hdrawn hnames hentry).resolve_right ?_
  rintro ⟨⟨c, hc, hmem⟩, -⟩
  have hletters : ∀ c ∈ "gi".toList, c ∉ "symbol".toList := by decide
  exact hletters c hc (hwithin.subset hmem)

include hnodup

/-- The symbol becomes the value that was drawn for it. -/
theorem subst_symbol_eq {entry : Text × Text} (hentry : entry ∈ entries)
    (hname : entry.1 = "symbol".toList) : Text.subst entries "symbol".toList = entry.2 := by
  refine Text.subst_of_mem (by decide) (hname ▸ hentry) ?_ fun other hother hwithin ↦ ?_
  · intro other hother hwithin
    have hletter : ∃ c ∈ "giy:".toList, c ∈ other.1 := by
      rcases name_eq_or_isOperand hdrawn hnames hother with h | ⟨⟨c, hc, hmem⟩, -⟩
      · rw [h]
        decide
      · have hsub : ∀ c ∈ "gi".toList, c ∈ "giy:".toList := by decide
        exact ⟨c, hsub c hc, hmem⟩
    obtain ⟨c, hc, hmem⟩ := hletter
    exact (hdrawn entry hentry).1 c (hwithin.subset hmem) hc
  · have heq : other.1 = entry.1 :=
      (eq_symbol_of_isInfix hdrawn hnames hother hwithin).trans hname.symm
    have hsame := List.inj_on_of_nodup_map hnodup hother hentry heq
    rw [hsame, ← hname]

theorem subst_symbol : Text.subst entries "symbol".toList = "symbol".toList ∨
    SymbolValue part w.tpe w.label maxLabel (Text.subst entries "symbol".toList) := by
  by_cases hmem : "symbol".toList ∈ entries.map Prod.fst
  · obtain ⟨entry, hentry, hname⟩ := List.mem_map.mp hmem
    have hvalue : SymbolValue part w.tpe w.label maxLabel entry.2 := by
      refine ((hdrawn entry hentry).2.resolve_left fun h ↦ ?_).2
      exact not_isOperand_symbol (hname ▸ h.1)
    rw [subst_symbol_eq hnodup hdrawn hnames hentry hname]
    exact .inr hvalue
  · refine .inl (Text.subst_of_unnamed fun entry hentry hwithin ↦ hmem ?_)
    exact List.mem_map.mpr ⟨entry, hentry, eq_symbol_of_isInfix hdrawn hnames hentry hwithin⟩

/-- What an instruction of a template becomes. -/
theorem rangeText_subst {inst : Text} (h : ReferenceForm inst) :
    RangeText part w.tpe w.label maxLabel (Text.subst entries inst) := by
  rcases h with h | ⟨before, h, rfl⟩
  · exact .inl (not_infix_of_not_line_mem (not_line_mem_subst hdrawn hnames h))
  · have hbefore := not_line_mem_subst hdrawn hnames h
    have hline : '_' ∉ Text.subst entries before ++ ", ".toList := by
      intro hmem
      rcases List.mem_append.mp hmem with hmem | hmem
      · exact hbefore hmem
      · exact absurd hmem (by decide)
    rcases subst_symbol hnodup hdrawn hnames with heq | hdata | ⟨m, hm, hval⟩
    · rw [subst_reference hdrawn hnames, heq]
      refine .inl (not_infix_of_not_line_mem fun hmem ↦ ?_)
      rcases List.mem_append.mp hmem with hmem | hmem
      · exact hline hmem
      · exact absurd hmem (by decide)
    · rw [subst_reference hdrawn hnames]
      exact .inl (not_infix_dataSymbol hline hdata)
    · exact .inr ⟨_, m, refersTo_subst hdrawn hnames h hval, hm⟩

end Subst

/-- What an instruction of a word becomes. -/
theorem DrawnEntries.rangeText {entries : List (Text × Text)} (hw : LegibleTemplate w)
    (h : DrawnEntries part w maxLabel entries) {inst : Text} (hinst : inst ∈ w.insts) :
    RangeText part w.tpe w.label maxLabel (Text.subst entries inst) := by
  rcases hw.forms with hforms | ⟨hnil, hforms⟩
  · exact rangeText_subst h.nodup h.drawn hw.names (hforms inst hinst)
  · refine .inl (not_infix_of_not_line_mem fun hmem ↦ ?_)
    rcases Text.mem_subst hmem with hmem | ⟨entry, hentry, hmem⟩
    · exact hforms inst hinst '_' (by decide) hmem
    · rcases (h.drawn entry hentry).2 with hvalue | ⟨hsymbol, -⟩
      · exact hvalue.2 hmem
      · rw [hnil] at hsymbol
        exact absurd hsymbol List.not_mem_nil

/-- The lines of a word that was populated from a template. -/
theorem ensures_rangeTexts (hw : LegibleTemplate w) (hlabel : 0 ≤ w.label) :
    Ensures (populateWord w maxLabel part) s fun w' _ ↦ w'.populated = true ∧
      w'.label = w.label ∧ ∃ texts, texts ≠ [] ∧ w'.retInsts = printWord part w.label texts ∧
        ∀ text ∈ texts, RangeText part w.tpe w.label maxLabel text := by
  apply (ensures_drawn hw hlabel).mono
  rintro w' s' ⟨hpopulated, -, hlabel', entries, hentries, hlines⟩
  refine ⟨hpopulated, hlabel', _, ?_, hlines, fun text htext ↦ ?_⟩
  · simpa using hw.insts_ne_nil
  · obtain ⟨inst, hinst, rfl⟩ := List.mem_map.mp htext
    exact hentries.rangeText hw hinst

end Generating

/-- Eight columns without a comma and then a text with at most one reference. -/
def LegibleLine (part : Part) (inst : Text) : Prop :=
  ∃ columns text, inst = columns ++ text ∧ columns.length = 8 ∧ ',' ∉ columns ∧
    LabelText part text

/-- A populated word whose references can be renamed, whatever its label is. -/
structure LegibleLines (part : Part) (w : Word) : Prop where
  populated : w.populated = true
  retInsts_ne_nil : w.retInsts ≠ []
  lines : ∀ inst ∈ w.retInsts, LegibleLine part inst

section Lines

variable {part : Part} {text : Text}

theorem LabelText.prepend (h : LabelText part text) {front : Text} (hfront : '_' ∉ front) :
    LabelText part (front ++ text) := by
  obtain ⟨c, hpart, -⟩ := exists_part_text_eq part
  have hwithin (text : Text) : part.text <:+: front ++ text ↔ part.text <:+: text := by
    rw [hpart, Text.infix_append_iff_of_not_mem hfront]
  rcases h with h | ⟨before, m, after, h⟩
  · exact .inl fun hmem ↦ h ((hwithin text).mp hmem)
  · refine .inr ⟨front ++ before, m, after, ?_, fun hmem ↦ h.before_plain ((hwithin before).mp hmem),
      h.after_plain, h.after_blank⟩
    rw [h.text_eq]
    simp

theorem not_mem_str {c : Char} (hc : c.isDigit = false) (hsign : c ≠ '-') (z : ℤ) :
    c ∉ Text.str z := by
  cases z with
  | ofNat n => exact Text.not_mem_dec hc
  | negSucc n => exact List.not_mem_cons_of_ne_of_not_mem hsign (Text.not_mem_dec hc)

/-- A line with a label, which may be longer than its columns. -/
theorem legibleLine_label (h : LabelText part text) (label : ℤ) :
    LegibleLine part (Text.ljust 8 (Word.labelText part label) ++ text) := by
  have hlabel : Text.ljust 8 (Word.labelText part label) = part.text ++ (Text.str label ++ [':'] ++
      List.replicate (8 - (Word.labelText part label).length) ' ') := by
    rw [Text.ljust_eq_append, Word.labelText]
    simp only [List.append_assoc]
  have hnumber {c : Char} (hc : c.isDigit = false) (hother : c ∉ "-: ".toList) :
      c ∉ Text.str label ++ [':'] ++
        List.replicate (8 - (Word.labelText part label).length) ' ' := by
    have hletters : "-: ".toList = ['-', ':', ' '] := rfl
    simp only [hletters, List.mem_cons, List.not_mem_nil, or_false, not_or] at hother
    simp only [List.mem_append, List.mem_singleton, not_or]
    exact ⟨⟨not_mem_str hc hother.1 label, hother.2.1⟩,
      fun hmem ↦ hother.2.2 (List.eq_of_mem_replicate hmem)⟩
  have hlength : 8 ≤ (Text.ljust 8 (Word.labelText part label)).length := by
    rw [Text.length_ljust]
    exact Nat.le_max_left 8 _
  refine ⟨(Text.ljust 8 (Word.labelText part label)).take 8,
    (Text.ljust 8 (Word.labelText part label)).drop 8 ++ text, ?_, ?_, fun hmem ↦ ?_, ?_⟩
  · rw [← List.append_assoc, List.take_append_drop]
  · rw [List.length_take, Nat.min_eq_left hlength]
  · have hcomma := List.mem_of_mem_take hmem
    rw [hlabel, List.mem_append] at hcomma
    rcases hcomma with hcomma | hcomma
    · exact not_mem_part_text (by decide) part hcomma
    · exact hnumber (by decide) (by decide) hcomma
  · refine h.prepend fun hmem ↦ ?_
    have hpart : part.text.length = 2 := by cases part <;> rfl
    have hdrop : (Text.ljust 8 (Word.labelText part label)).drop 8 =
        (Text.str label ++ [':'] ++
          List.replicate (8 - (Word.labelText part label).length) ' ').drop 6 := by
      rw [hlabel, List.drop_append, List.drop_eq_nil_of_le (by omega), hpart, List.nil_append]
    rw [hdrop] at hmem
    exact hnumber (by decide) (by decide) (List.mem_of_mem_drop hmem)

theorem legibleLine_blank (h : LabelText part text) :
    LegibleLine part (Text.ljust 8 [] ++ text) :=
  ⟨Text.ljust 8 [], text, rfl, rfl, by decide, h⟩

/-- A populated template has legible lines. -/
theorem ensures_legibleLines {w : GenWord} {maxLabel : ℤ} {s : InstGenerator × Draws}
    (hw : LegibleTemplate w) (hlabel : 0 ≤ w.label) :
    Ensures (populateWord w maxLabel part) s fun w' _ ↦ LegibleLines part w'.toWord := by
  apply (ensures_rangeTexts hw hlabel).mono
  rintro w' s' ⟨hpopulated, -, texts, hne, hlines, htexts⟩
  obtain ⟨first, rest, rfl⟩ := List.exists_cons_of_ne_nil hne
  obtain ⟨hfirst, hrest⟩ := List.forall_mem_cons.mp htexts
  rw [printWord] at hlines
  refine ⟨hpopulated, by rw [hlines]; exact List.cons_ne_nil _ _, ?_⟩
  rw [hlines, List.forall_mem_cons]
  refine ⟨legibleLine_label (hfirst.labelText.padded (padded_ljust 42 first)) _, fun inst hinst ↦ ?_⟩
  obtain ⟨text, htext, rfl⟩ := List.mem_map.mp hinst
  exact legibleLine_blank ((hrest text htext).labelText.padded (padded_ljust 42 text))

end Lines

section ResetLabels

variable {part : Part} {w : Word} {words : List GenWord}

theorem LegibleLines.exists_resetLabel (h : LegibleLines part w) (newLabel : ℤ) :
    ∃ w', w.resetLabel newLabel part = .ok (w', some (w.label, newLabel)) ∧ w'.label = newLabel ∧
      LegibleLines part w' := by
  obtain ⟨first, rest, hlines⟩ := List.exists_cons_of_ne_nil h.retInsts_ne_nil
  have hall := h.lines
  rw [hlines] at hall
  obtain ⟨⟨columns, text, rfl, hlength, -, htext⟩, hrest⟩ := List.forall_mem_cons.mp hall
  rw [Word.resetLabel, if_pos h.populated, hlines]
  refine ⟨_, rfl, rfl, h.populated, List.cons_ne_nil _ _, List.forall_mem_cons.mpr ⟨?_, hrest⟩⟩
  rw [List.drop_left' hlength]
  exact legibleLine_label (htext.padded (padded_ljust 42 text)) newLabel

/-- The text of a renamed reference. -/
theorem Renamed.labelText {rename : ℕ → ℕ → Prop} {text text' : Text} (htext : LabelText part text)
    (h : Renamed part rename text text') : LabelText part text' := by
  cases h with
  | plain _ h' => exact htext.padded h'
  | reference h _ h' =>
    refine LabelText.padded (.inr ⟨_, _, _, rfl, h.before_plain, h.after_plain, h.after_blank⟩) h'

theorem LegibleLines.exists_repopLabel (h : LegibleLines part w) {labelMap : Dict ℤ ℤ}
    (hmap : ∀ v ∈ labelMap.values, 0 ≤ v) {maxLabel : ℤ} (hlabel : 0 ≤ w.label)
    (hlt : w.label < maxLabel) (draws : Draws) :
    ∃ w' draws', w.repopLabel labelMap maxLabel part draws = .ok (w', draws') ∧
      w'.label = w.label ∧ LegibleLines part w' := by
  have hlines : ∀ inst ∈ w.retInsts, ∀ draws, ∃ inst' draws',
      w.repopInst labelMap maxLabel part draws inst = .ok (inst', draws') ∧
        LegibleLine part inst' := by
    intro inst hinst draws
    obtain ⟨columns, text, rfl, hlength, hcomma, htext⟩ := h.lines inst hinst
    obtain ⟨text', draws', hrepop, hrenamed⟩ :=
      exists_repopInst htext hcomma hlength hmap hlabel hlt draws
    exact ⟨_, draws', hrepop, columns, text', rfl, hlength, hcomma, hrenamed.labelText htext⟩
  obtain ⟨retInsts, draws', hrepop, hforall⟩ :=
    Mutation.exists_repopLabel (R := fun _ inst' ↦ LegibleLine part inst') h.populated hlines draws
  refine ⟨_, draws', hrepop, rfl, h.populated, fun hnil ↦ ?_, fun inst' hinst' ↦ ?_⟩
  · have hnil : retInsts = [] := hnil
    rw [hnil, List.forall₂_nil_right_iff] at hforall
    exact h.retInsts_ne_nil hforall
  · obtain ⟨i, hi, rfl⟩ := List.getElem_of_mem hinst'
    exact hforall.get (hforall.length_eq ▸ hi) hi

/-- The words of a part with the labels `n, n + 1, …`. -/
def Numbered (part : Part) (n : ℕ) (words : List GenWord) : Prop :=
  ∀ (i : ℕ) (w : GenWord), words[i]? = some w →
    w.label = (n + i : ℕ) ∧ LegibleLines part w.toWord

theorem exists_relabel (h : ∀ w ∈ words, LegibleLines part w.toWord) (n : ℕ)
    {labelMap : Dict ℤ ℤ} (hmap : ∀ v ∈ labelMap.values, 0 ≤ v) :
    ∃ words' labelMap', relabel part n labelMap words = .ok (words', labelMap') ∧
      (∀ v ∈ labelMap'.values, 0 ≤ v) ∧ words'.length = words.length ∧ Numbered part n words' := by
  induction words generalizing n labelMap with
  | nil => exact ⟨[], labelMap, rfl, hmap, rfl, nofun⟩
  | cons w words ih =>
    obtain ⟨hw, hwords⟩ := List.forall_mem_cons.mp h
    obtain ⟨w', hreset, hlabel, hw'⟩ := hw.exists_resetLabel n
    have hmap' : ∀ v ∈ (labelMap.set w.label (n : ℤ)).values, 0 ≤ v := by
      intro v hv
      rcases Dict.mem_values_set hv with rfl | hv
      · exact Int.natCast_nonneg n
      · exact hmap v hv
    obtain ⟨words', labelMap', hrest, hvalues, hlength, hnumbered⟩ := ih hwords (n + 1) hmap'
    refine ⟨{ w with toWord := w' } :: words', labelMap', ?_, hvalues, by simp [hlength], ?_⟩
    · rw [relabel, hreset, ok_bind]
      dsimp only
      rw [hrest]
      rfl
    · intro i v hv
      cases i with
      | zero =>
        obtain rfl := Option.some.inj hv
        exact ⟨hlabel, hw'⟩
      | succ i =>
        obtain ⟨hv', hlegible⟩ := hnumbered i v hv
        exact ⟨by rw [hv']; push_cast; ring, hlegible⟩

/-- `reset_labels` returns on words with legible lines, whatever their labels are, and leaves words
with legible lines that are numbered from 0. -/
theorem returns_resetLabels (h : ∀ w ∈ words, LegibleLines part w.toWord) (draws : Draws) :
    Returns (resetLabels words part) draws fun words' _ ↦
      words'.length = words.length ∧ Numbered part 0 words' := by
  have hempty : ∀ v ∈ (Dict.empty : Dict ℤ ℤ).values, 0 ≤ v := nofun
  obtain ⟨words₁, labelMap, hrelabel, hmap, hlength, hnumbered⟩ := exists_relabel h 0 hempty
  apply Returns.bind (.lift hrelabel (Q := fun r _ ↦ r = (words₁, labelMap)) rfl)
  rintro ⟨words₁, labelMap⟩ draws₁ ⟨rfl, rfl⟩
  dsimp only
  have hstep : ∀ w ∈ words₁, ∀ draws, True → Returns (do
      let word ← w.toWord.repopLabel labelMap words₁.length part
      return { w with toWord := word } : Stateful Draws GenWord) draws
      fun w' _ ↦ (w'.label = w.label ∧ LegibleLines part w'.toWord) ∧ True := by
    intro w hw draws _
    obtain ⟨i, hi, rfl⟩ := List.getElem_of_mem hw
    obtain ⟨hlabel, hlegible⟩ := hnumbered i _ (List.getElem?_eq_getElem hi)
    have hlt : words₁[i].label < (words₁.length : ℤ) := by omega
    obtain ⟨w', draws', hrepop, hsame, hw'⟩ :=
      hlegible.exists_repopLabel hmap (by omega) hlt draws
    exact ⟨_, by rw [bind_eq, hrepop]; rfl, ⟨hsame, hw'⟩, True.intro⟩
  refine (Returns.mapM hstep True.intro).mono fun words' _ h' ↦ ⟨?_, fun i w' hw' ↦ ?_⟩
  · rw [← h'.1.length_eq, hlength]
  · obtain ⟨hi, rfl⟩ := List.getElem?_eq_some_iff.mp hw'
    have hi' : i < words₁.length := h'.1.length_eq ▸ hi
    obtain ⟨hsame, hlegible⟩ := h'.1.get hi' hi
    obtain ⟨hlabel, -⟩ := hnumbered i _ (List.getElem?_eq_getElem hi')
    exact ⟨hsame.trans hlabel, hlegible⟩

end ResetLabels

end ProcessorFuzz.Mutation
