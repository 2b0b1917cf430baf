import ProcessorFuzz.Library.Simultaneous
import ProcessorFuzz.Mutation.DataAccess
import ProcessorFuzz.Mutation.WordLines

/-!
# The placeholders of generated words

The templates of the generator consist of tokens between separators. A token is an operand of the
word, or it has nothing of a placeholder in it. Among the operands of one word none is a part of
another one, and no value has anything of a placeholder either. So it does not matter that
`populate` replaces one operand after the other, and it leaves no placeholder.
-/

namespace ProcessorFuzz.Mutation

open Library Library.Stateful Library.Text RiscvDefinitions Generating OpcodeEntry

def placeholderKinds : List Text := ["xreg", "freg", "uimm", "imm"].map String.toList

/-- The placeholder with which a text begins: `symbol`, or the kind of a register or an immediate
and a number. -/
def placeholderAt (text : Text) : Option Text :=
  if "symbol".toList <+: text then some "symbol".toList
  else
    match placeholderKinds.find? fun kind ↦ kind.isPrefixOf text with
    | none => none
    | some kind =>
      match (text.drop kind.length).takeWhile Char.isDigit with
      | [] => none
      | digit :: digits => some (kind ++ digit :: digits)

/-- The characters between the tokens of an instruction. -/
def isSep (c : Char) : Bool := decide (c ∈ " ,()".toList)

theorem prefix_of_find? {kinds : List Text} {text kind : Text}
    (h : (kinds.find? fun kind ↦ kind.isPrefixOf text) = some kind) : kind <+: text := by
  have hbegins := List.find?_some h
  exact List.isPrefixOf_iff_prefix.mp hbegins

theorem found_placeholderAt : Found placeholderAt := by
  intro text name h
  unfold placeholderAt at h
  split at h
  · next hsymbol =>
    obtain rfl := Option.some.inj h
    exact ⟨by decide, hsymbol⟩
  · split at h
    · exact nomatch h
    · next kind hkind =>
      split at h
      · exact nomatch h
      · next digit digits hdigits =>
        obtain rfl := Option.some.inj h
        obtain ⟨rest, rfl⟩ := prefix_of_find? hkind
        rw [List.drop_left] at hdigits
        refine ⟨List.append_ne_nil_of_right_ne_nil _ (List.cons_ne_nil _ _), ?_⟩
        rw [List.prefix_append_right_inj, ← hdigits]
        exact List.takeWhile_prefix _

theorem prefix_append_cons_iff {pattern left right : Text} {c : Char} (hc : c ∉ pattern) :
    pattern <+: left ++ c :: right ↔ pattern <+: left :=
  ⟨prefix_of_prefix_append_cons left hc, fun h ↦ h.trans (List.prefix_append left _)⟩

theorem takeWhile_append_cons {p : Char → Bool} {c : Char} (hc : p c = false) (left right : Text) :
    (left ++ c :: right).takeWhile p = left.takeWhile p := by
  induction left with
  | nil => rw [List.nil_append, List.takeWhile_cons_of_neg (by simp [hc]), List.takeWhile_nil]
  | cons d left ih =>
    rw [List.cons_append, List.takeWhile_cons, List.takeWhile_cons, ih]

theorem breaks_placeholderAt {c : Char} (hc : isSep c = true) : Breaks placeholderAt c where
  append left right := by
    have hdigit : ∀ c ∈ " ,()".toList, c.isDigit = false := by decide
    have hsymbol : ∀ c ∈ " ,()".toList, c ∉ "symbol".toList := by decide
    have hkinds : ∀ c ∈ " ,()".toList, ∀ kind ∈ placeholderKinds, c ∉ kind := by decide
    have hmem : c ∈ " ,()".toList := of_decide_eq_true hc
    have hfind : (placeholderKinds.find? fun kind ↦ kind.isPrefixOf (left ++ c :: right)) =
        placeholderKinds.find? fun kind ↦ kind.isPrefixOf left := by
      have hsame : ∀ kind ∈ placeholderKinds,
          kind.isPrefixOf (left ++ c :: right) = kind.isPrefixOf left := by
        intro kind hkind
        rw [Bool.eq_iff_iff, List.isPrefixOf_iff_prefix, List.isPrefixOf_iff_prefix,
          prefix_append_cons_iff (hkinds c hmem kind hkind)]
      generalize placeholderKinds = kinds at hsame ⊢
      induction kinds with
      | nil => rfl
      | cons kind kinds ih =>
        obtain ⟨hkind, hsame⟩ := List.forall_mem_cons.mp hsame
        rw [List.find?_cons, List.find?_cons, hkind, ih hsame]
    unfold placeholderAt
    simp only [prefix_append_cons_iff (hsymbol c hmem), hfind]
    split
    · rfl
    · cases hkind : placeholderKinds.find? fun kind ↦ kind.isPrefixOf left with
      | none => rfl
      | some kind =>
        dsimp only
        rw [List.drop_append_of_le_length (prefix_of_find? hkind).length_le,
          takeWhile_append_cons (hdigit c hmem)]

/-- What every placeholder has in it, and the field of a syntax. -/
def marks : List Text := ["xreg", "freg", "imm", "symbol", "\x7b\x7d"].map String.toList

/-- There is nothing of a placeholder in the text. -/
def Clear (text : Text) : Prop := ∀ mark ∈ marks, ¬mark <:+: text

instance (text : Text) : Decidable (Clear text) :=
  inferInstanceAs (Decidable (∀ mark ∈ marks, ¬mark <:+: text))

theorem not_mem_marks {c : Char} (hc : isSep c = true) {mark : Text} (hmark : mark ∈ marks) :
    c ∉ mark := by
  have hall : ∀ mark ∈ marks, ∀ c ∈ " ,()".toList, c ∉ mark := by decide
  exact hall mark hmark c (of_decide_eq_true hc)

theorem Clear.placeholderAt_suffix {text suffix : Text} (h : Clear text)
    (hsuffix : suffix <:+ text) :
    placeholderAt suffix = none := by
  have hkinds : ∀ kind ∈ placeholderKinds, ∃ mark ∈ marks, mark <:+: kind := by decide
  have hsymbol : "symbol".toList ∈ marks := by decide
  unfold placeholderAt
  split
  · next hbegins => exact absurd (hbegins.isInfix.trans hsuffix.isInfix) (h _ hsymbol)
  · split
    · rfl
    · next kind hkind =>
      obtain ⟨mark, hmark, hwithin⟩ := hkinds kind (List.mem_of_find?_eq_some hkind)
      have hmarks := (hwithin.trans (prefix_of_find? hkind).isInfix).trans hsuffix.isInfix
      exact absurd hmarks (h mark hmark)

/-- All operands of the templates. -/
def knownOperands : List Text :=
  ["xreg0", "xreg1", "xreg2", "xreg3", "xreg4", "freg0", "freg1", "freg2", "freg3", "imm6", "imm12",
    "uimm1", "uimm5", "uimm6", "uimm20", "symbol"].map String.toList

theorem placeholderAt_operand {op : Text} (h : op ∈ knownOperands) :
    placeholderAt op = some op := by
  have hall : ∀ op ∈ knownOperands, placeholderAt op = some op := by decide
  exact hall op h

/-- Operands of which none is a part of another one. -/
structure Apart (operands : List Text) : Prop where
  known : ∀ op ∈ operands, op ∈ knownOperands
  imm6 : "imm6".toList ∉ operands ∨ "uimm6".toList ∉ operands

theorem Apart.eq_of_infix {operands : List Text} (h : Apart operands) {op op' : Text}
    (hop : op ∈ operands) (hop' : op' ∈ operands) (hwithin : op <:+: op') : op = op' := by
  have hall : ∀ op ∈ knownOperands, ∀ op' ∈ knownOperands, op <:+: op' →
      op = op' ∨ (op = "imm6".toList ∧ op' = "uimm6".toList) := by decide
  rcases hall op (h.known op hop) op' (h.known op' hop') hwithin with heq | ⟨rfl, rfl⟩
  · exact heq
  · exact absurd h.imm6 (not_or_intro (not_not.mpr hop) (not_not.mpr hop'))

theorem Clear.not_infix_operand {text op : Text} (h : Clear text) (hop : op ∈ knownOperands) :
    ¬op <:+: text := by
  have hall : ∀ op ∈ knownOperands, ∃ mark ∈ marks, mark <:+: op := by decide
  obtain ⟨mark, hmark, hwithin⟩ := hall op hop
  exact fun hop ↦ h mark hmark (hwithin.trans hop)

/-- An instruction whose tokens are operands or have nothing of a placeholder in them. -/
def Legible (operands : List Text) (inst : Text) : Prop :=
  Tokens isSep (fun token ↦ token ∈ operands ∨ Clear token) inst

theorem Legible.mono {operands operands' : List Text} {inst : Text} (h : Legible operands inst)
    (hsub : operands ⊆ operands') : Legible operands' inst :=
  Tokens.mono h fun _ htoken ↦ htoken.imp_left fun hmem ↦ hsub hmem

/-- Values for the operands, without anything of a placeholder. -/
structure ClearMap (operands : List Text) (opvals : Dict Text Text) : Prop where
  mem_keys : ∀ op, op ∈ opvals.keys ↔ op ∈ operands
  values : ∀ entry ∈ opvals.entries, Clear entry.2

section Filling

variable {operands : List Text} {opvals : Dict Text Text} {inst op : Text}

theorem ClearMap.separates (h : ClearMap operands opvals) (hoperands : Apart operands) {c : Char}
    (hc : isSep c = true) : Separates c opvals.entries := by
  have hall : ∀ op ∈ knownOperands, op ≠ [] ∧ ∀ c ∈ " ,()".toList, c ∉ op := by decide
  intro entry hentry
  have hkey : entry.1 ∈ operands := (h.mem_keys _).mp (List.mem_map_of_mem hentry)
  obtain ⟨hne, hsep⟩ := hall entry.1 (hoperands.known _ hkey)
  exact ⟨hne, hsep c (of_decide_eq_true hc)⟩

theorem ClearMap.unnamed (h : ClearMap operands opvals) (hoperands : Apart operands) {text : Text}
    (htext : Clear text) : Unnamed opvals.entries text := fun _ hentry ↦
  htext.not_infix_operand (hoperands.known _ ((h.mem_keys _).mp (List.mem_map_of_mem hentry)))

/-- An operand becomes its value. -/
theorem ClearMap.exists_value (h : ClearMap operands opvals) (hoperands : Apart operands)
    (hop : op ∈ operands) :
    ∃ val, Clear val ∧ opvals.get? op = some val ∧ subst opvals.entries op = val := by
  obtain ⟨⟨key, val⟩, hentry, rfl⟩ := List.mem_map.mp ((h.mem_keys op).mpr hop)
  have hclear := h.values _ hentry
  refine ⟨val, hclear, Dict.get?_eq_some_iff.mpr hentry, ?_⟩
  have hne : key ≠ [] := (found_placeholderAt key key
    (placeholderAt_operand (hoperands.known key hop))).1
  refine subst_of_mem hne hentry (h.unnamed hoperands hclear) fun entry hother hwithin ↦ ?_
  have hkey := (h.mem_keys _).mp (List.mem_map_of_mem (f := Prod.fst) hother)
  have heq : entry.1 = key := hoperands.eq_of_infix hkey hop hwithin
  have hval := (Dict.get?_eq_some_iff.mpr hother).symm.trans
    (heq ▸ Dict.get?_eq_some_iff.mpr hentry)
  exact Prod.ext heq (Option.some.inj hval)

/-- Every placeholder of an instruction has a value. -/
theorem ClearMap.names_subset (h : ClearMap operands opvals) (hoperands : Apart operands)
    (hinst : Legible operands inst) : ∀ name ∈ names placeholderAt inst, name ∈ opvals.keys := by
  refine Tokens.forall_names hinst found_placeholderAt (fun c hc ↦ breaks_placeholderAt hc) ?_
  rintro token (hop | hclear)
  · rw [names_of_name found_placeholderAt (placeholderAt_operand (hoperands.known _ hop))]
    exact List.forall_mem_singleton.mpr ((h.mem_keys _).mpr hop)
  · rw [names_of_forall_suffix fun suffix ↦ hclear.placeholderAt_suffix]
    exact nofun

/-- The replacements one after the other are the replacement at once. -/
theorem ClearMap.popInst_eq (h : ClearMap operands opvals) (hoperands : Apart operands)
    (hinst : Legible operands inst) :
    Word.popInst inst opvals = fillNames placeholderAt (fun name ↦ opvals.getD name []) inst := by
  refine Tokens.subst_eq_fillNames hinst (fun c hc ↦ h.separates hoperands hc) found_placeholderAt
    (fun c hc ↦ breaks_placeholderAt hc) ?_
  rintro token (hop | hclear)
  · obtain ⟨val, -, hget, hsubst⟩ := h.exists_value hoperands hop
    rw [hsubst, fillNames_of_name found_placeholderAt
      (placeholderAt_operand (hoperands.known _ hop)), Dict.getD, hget, Option.getD_some]
  · rw [subst_of_unnamed (h.unnamed hoperands hclear),
      fillNames_of_forall_suffix fun suffix ↦ hclear.placeholderAt_suffix]

/-- Nothing of a placeholder is left. -/
theorem ClearMap.tokens_popInst (h : ClearMap operands opvals) (hoperands : Apart operands)
    (hinst : Legible operands inst) : Tokens isSep Clear (Word.popInst inst opvals) := by
  refine Tokens.subst hinst (fun c hc ↦ h.separates hoperands hc) ?_
  rintro token (hop | hclear)
  · obtain ⟨val, hval, -, hsubst⟩ := h.exists_value hoperands hop
    rwa [hsubst]
  · rwa [subst_of_unnamed (h.unnamed hoperands hclear)]

end Filling

/-- The operands that the constructor of a word puts together. -/
def entryOperands (e : OpcodeEntry) : List Text :=
  e.xregs ++ e.fregs ++ e.imms.map Prod.fst ++ e.symbols

section Operands

variable {e : OpcodeEntry} {xregs : List Text} {imms : List (Text × ℕ)} {op : Text}

@[simp]
theorem mem_entryOperands_addXregs :
    op ∈ entryOperands (addXregs e xregs) ↔ op ∈ entryOperands e ∨ op ∈ xregs := by
  simp only [entryOperands, addXregs, List.mem_append]
  tauto

@[simp]
theorem mem_entryOperands_addImms :
    op ∈ entryOperands (addImms e imms) ↔ op ∈ entryOperands e ∨ op ∈ imms.map Prod.fst := by
  simp only [entryOperands, addImms, List.map_append, List.mem_append]
  tauto

@[simp]
theorem mem_entryOperands_addSymbol :
    op ∈ entryOperands (addSymbol e) ↔ op ∈ entryOperands e ∨ op = "symbol".toList := by
  simp only [entryOperands, addSymbol, List.mem_append, List.mem_singleton]
  tauto

theorem subset_addXregs : entryOperands e ⊆ entryOperands (addXregs e xregs) :=
  fun _ hop ↦ mem_entryOperands_addXregs.mpr (.inl hop)

theorem subset_addImms : entryOperands e ⊆ entryOperands (addImms e imms) :=
  fun _ hop ↦ mem_entryOperands_addImms.mpr (.inl hop)

theorem subset_addSymbol : entryOperands e ⊆ entryOperands (addSymbol e) :=
  fun _ hop ↦ mem_entryOperands_addSymbol.mpr (.inl hop)

theorem Apart.addXregs (h : Apart (entryOperands e))
    (hxregs : ∀ op ∈ xregs, op ∈ knownOperands ∧ op ≠ "imm6".toList ∧ op ≠ "uimm6".toList) :
    Apart (entryOperands (addXregs e xregs)) where
  known op hop := by
    rcases mem_entryOperands_addXregs.mp hop with hop | hop
    · exact h.known op hop
    · exact (hxregs op hop).1
  imm6 := by
    simp only [mem_entryOperands_addXregs, not_or]
    exact h.imm6.imp (fun hnot ↦ ⟨hnot, fun hmem ↦ (hxregs _ hmem).2.1 rfl⟩)
      fun hnot ↦ ⟨hnot, fun hmem ↦ (hxregs _ hmem).2.2 rfl⟩

theorem Apart.addSymbol (h : Apart (entryOperands e)) : Apart (entryOperands (addSymbol e)) where
  known op hop := by
    rcases mem_entryOperands_addSymbol.mp hop with hop | rfl
    · exact h.known op hop
    · decide
  imm6 := by
    have hnot : "imm6".toList ≠ "symbol".toList ∧ "uimm6".toList ≠ "symbol".toList := by decide
    simp only [mem_entryOperands_addSymbol, hnot.1, hnot.2, or_false]
    exact h.imm6

/-- An immediate is added where the other one of the two does not occur. -/
theorem Apart.addImms (h : Apart (entryOperands e))
    (himms : ∀ op ∈ imms.map Prod.fst, op ∈ knownOperands)
    (himm6 : ("imm6".toList ∉ entryOperands e ∧ "imm6".toList ∉ imms.map Prod.fst) ∨
      ("uimm6".toList ∉ entryOperands e ∧ "uimm6".toList ∉ imms.map Prod.fst)) :
    Apart (entryOperands (addImms e imms)) where
  known op hop := by
    rcases mem_entryOperands_addImms.mp hop with hop | hop
    · exact h.known op hop
    · exact himms op hop
  imm6 := by
    simp only [mem_entryOperands_addImms, not_or]
    exact himm6

end Operands

/-- The opcodes whose syntax has a field, except those of floating point loads and stores. -/
def fieldOpcodes : List Text :=
  ["csrrw", "csrrs", "csrrc", "csrrwi", "csrrsi", "csrrci"].map String.toList ++
    (rv32f.keys ++ rv64f.keys).filter fun opcode ↦
      decide (opcode ∉ ["flw", "fsw"].map String.toList)

/-- The field of a syntax. -/
def field : Text := "{}".toList

/-- An entry of the opcode tables. -/
structure LegibleOpcode (opcode : Text) (e : OpcodeEntry) : Prop where
  apart : Apart (entryOperands e)
  asm : Tokens isSep (fun token ↦ (token ∈ entryOperands e ∨ Clear token) ∨
    (token = field ∧ opcode ∈ fieldOpcodes)) e.asm

theorem forall_opcodesMap {P : Text × OpcodeEntry → Prop}
    (h : ∀ table ∈ baseTables, ∀ item ∈ table, P item) {item : Text × OpcodeEntry}
    (hitem : item ∈ opcodesMap) : P item := by
  obtain ⟨table, htable, hitem⟩ := exists_baseTable hitem
  exact h table htable item hitem

theorem legibleOpcode_opcodesMap {item : Text × OpcodeEntry} (h : item ∈ opcodesMap) :
    LegibleOpcode item.1 item.2 := by
  have hknown : ∀ table ∈ baseTables, ∀ item ∈ table, ∀ op ∈ entryOperands item.2,
      op ∈ knownOperands := by
    decide
  have himm6 : ∀ table ∈ baseTables, ∀ item ∈ table, "imm6".toList ∉ entryOperands item.2 ∨
      "uimm6".toList ∉ entryOperands item.2 := by
    decide
  have hasm : ∀ table ∈ baseTables, ∀ item ∈ table, ∀ token ∈ item.2.asm.splitOnP isSep,
      (token ∈ entryOperands item.2 ∨ Clear token) ∨ (token = field ∧ item.1 ∈ fieldOpcodes) := by
    decide +kernel
  exact ⟨⟨forall_opcodesMap hknown h, forall_opcodesMap himm6 h⟩,
    .of_splitOnP (forall_opcodesMap hasm h)⟩

namespace LegibleOpcode

variable {opcode : Text} {e : OpcodeEntry}

/-- A syntax without a field. -/
theorem legible (h : LegibleOpcode opcode e) (hopcode : opcode ∉ fieldOpcodes) :
    Legible (entryOperands e) e.asm :=
  Tokens.mono h.asm fun _ htoken ↦ htoken.resolve_right fun hfield ↦ hopcode hfield.2

/-- A syntax whose field has been filled in. -/
theorem format (h : LegibleOpcode opcode e) {arg : Text} (harg : Clear arg) :
    Legible (entryOperands e) (Mutation.format e.asm arg) := by
  have hne : field ≠ [] := by decide
  have hmark : field ∈ marks := by decide
  have hoperands : ∀ op ∈ knownOperands, ¬field <:+: op := by decide
  change Tokens isSep _ (replace field arg e.asm)
  refine Tokens.replace h.asm hne (fun c hc ↦ not_mem_marks hc hmark) fun token htoken ↦ ?_
  rcases htoken with (hop | hclear) | ⟨rfl, -⟩
  · rw [replace_of_not_isInfix arg (hoperands token (h.apart.known token hop))]
    exact .inl hop
  · rw [replace_of_not_isInfix arg (hclear field hmark)]
    exact .inr hclear
  · have hreplace : replace field arg field = arg := by
      simpa using replace_prefix hne arg []
    rw [hreplace]
    exact .inr harg

end LegibleOpcode

/-- What a word function makes of an entry. -/
structure LegibleInsts (r : WordType × List Text × OpcodeEntry) : Prop where
  apart : Apart (entryOperands r.2.2)
  insts : ∀ inst ∈ r.2.1, Legible (entryOperands r.2.2) inst

section Builders

variable {draws : Draws} {opcode : Text} {e : OpcodeEntry}

/-- A given instruction with some operands of the word. -/
theorem legible_literal (used : List Text) {operands : List Text} {inst : Text}
    (h : ∀ token ∈ inst.splitOnP isSep, token ∈ used ∨ Clear token)
    (hused : ∀ op ∈ used, op ∈ operands) : Legible operands inst :=
  .of_splitOnP fun token htoken ↦ (h token htoken).imp_left (hused token)

theorem legible_la {operands : List Text} (hreg : "xreg1".toList ∈ operands)
    (hsymbol : "symbol".toList ∈ operands) : Legible operands "la xreg1, symbol".toList :=
  legible_literal ["xreg1".toList, "symbol".toList] (by decide)
    (by simp only [List.forall_mem_cons]; exact ⟨hreg, hsymbol, nofun⟩)

theorem legibleInsts_asm (he : LegibleOpcode opcode e) (hopcode : opcode ∉ fieldOpcodes)
    (tpe : WordType) : LegibleInsts (tpe, [e.asm], e) :=
  ⟨he.apart, List.forall_mem_singleton.mpr (he.legible hopcode)⟩

theorem legibleInsts_format (he : LegibleOpcode opcode e) {arg : Text} (harg : Clear arg)
    (tpe : WordType) : LegibleInsts (tpe, [format e.asm arg], e) :=
  ⟨he.apart, List.forall_mem_singleton.mpr (he.format harg)⟩

theorem legibleInsts_jalr (he : LegibleOpcode opcode e) (hopcode : opcode ∉ fieldOpcodes)
    (hxreg1 : "xreg1".toList ∈ entryOperands e) :
    LegibleInsts (.cfJ, ["la xreg1, symbol".toList, e.asm], addSymbol e) where
  apart := he.apart.addSymbol
  insts := by
    simp only [List.forall_mem_cons]
    exact ⟨legible_la (subset_addSymbol hxreg1) (by simp),
      (he.legible hopcode).mono subset_addSymbol, nofun⟩

theorem legibleInsts_ret (he : LegibleOpcode opcode e) (hopcode : opcode ∉ fieldOpcodes)
    {epc : Text} (hepc : epc ∈ ["mepc", "sepc", "uepc"].map String.toList) :
    LegibleInsts (.cfRet, ["la xreg0, symbol".toList,
      "csrrw zero, ".toList ++ epc ++ ", xreg0".toList, e.asm], addSymbol (addXregs e ["xreg0".toList])) where
  apart := (he.apart.addXregs (by decide)).addSymbol
  insts := by
    have hwrite : ∀ epc ∈ ["mepc", "sepc", "uepc"].map String.toList, ∀ token ∈
        ("csrrw zero, ".toList ++ epc ++ ", xreg0".toList).splitOnP isSep,
        token ∈ ["xreg0".toList] ∨ Clear token := by
      decide
    simp only [List.forall_mem_cons]
    refine ⟨legible_literal ["xreg0".toList, "symbol".toList] (by decide) ?_,
      legible_literal ["xreg0".toList] (hwrite epc hepc) ?_,
      (he.legible hopcode).mono (List.Subset.trans subset_addXregs subset_addSymbol), nofun⟩
    · simp
    · simp

/-- The address mask of a memory word. -/
theorem ensures_legible_maskAddr {operands : List Text} (hxreg1 : "xreg1".toList ∈ operands) :
    Ensures maskAddr draws fun r _ ↦
      (∀ op ∈ r.2, op ∈ knownOperands ∧ op ≠ "imm6".toList ∧ op ≠ "uimm6".toList) ∧
        ∀ operands', operands ⊆ operands' → r.2 ⊆ operands' →
          ∀ inst ∈ r.1, Legible operands' inst := by
  apply Ensures.bind .trivial
  intro rand draws₁ _
  split
  · refine .pure ⟨by decide, fun operands' hsub hmask ↦ ?_⟩
    have hxreg2 : "xreg2".toList ∈ operands' := hmask List.mem_cons_self
    simp only [List.forall_mem_cons]
    refine ⟨legible_literal ["xreg2".toList] (by decide) ?_,
      legible_literal ["xreg1".toList, "xreg2".toList] (by decide) ?_, nofun⟩
    · exact List.forall_mem_singleton.mpr hxreg2
    · simp only [List.forall_mem_cons]
      exact ⟨hsub hxreg1, hxreg2, nofun⟩
  · exact .pure ⟨nofun, fun _ _ _ ↦ nofun⟩

theorem ensures_legible_wordMem (he : LegibleOpcode opcode e) (hopcode : opcode ∉ fieldOpcodes)
    (hxreg1 : "xreg1".toList ∈ entryOperands e) (tpe : WordType) :
    Ensures (wordMem tpe opcode e) draws fun r _ ↦ LegibleInsts r := by
  apply Ensures.bind (ensures_legible_maskAddr hxreg1)
  intro ⟨mask, xregs⟩ draws₁ ⟨hxregs, hmask⟩
  have hsub : entryOperands e ⊆ entryOperands (addSymbol (addXregs e xregs)) :=
    List.Subset.trans subset_addXregs subset_addSymbol
  refine .pure ⟨(he.apart.addXregs hxregs).addSymbol, ?_⟩
  simp only [List.forall_mem_append, List.forall_mem_singleton]
  exact ⟨⟨legible_la (hsub hxreg1) (by simp), hmask _ hsub fun op hop ↦ by simp [hop]⟩,
    (he.legible hopcode).mono hsub⟩

theorem ensures_legible_wordAtomic (he : LegibleOpcode opcode e) (hopcode : opcode ∉ fieldOpcodes)
    (hxreg1 : "xreg1".toList ∈ entryOperands e) (huimm6 : "uimm6".toList ∉ entryOperands e) :
    Ensures (wordAtomic opcode e) draws fun r _ ↦ LegibleInsts r := by
  apply Ensures.bind (ensures_legible_maskAddr hxreg1)
  intro ⟨mask, xregs⟩ draws₁ ⟨hxregs, hmask⟩
  set imms := [("imm6".toList, if opcode ∈ rv64.keys then 8 else 4)] with himms
  have hnames : imms.map Prod.fst = ["imm6".toList] := rfl
  have hsub : entryOperands e ⊆ entryOperands (addSymbol (addImms (addXregs e xregs) imms)) :=
    List.Subset.trans (List.Subset.trans subset_addXregs subset_addImms) subset_addSymbol
  have himm6 : "imm6".toList ∈ entryOperands (addSymbol (addImms (addXregs e xregs) imms)) := by
    simp [hnames]
  have hapart : Apart (entryOperands (addImms (addXregs e xregs) imms)) := by
    refine (he.apart.addXregs hxregs).addImms (by rw [hnames]; decide) (.inr ⟨?_, ?_⟩)
    · rw [mem_entryOperands_addXregs, not_or]
      exact ⟨huimm6, fun hmem ↦ (hxregs _ hmem).2.2 rfl⟩
    · rw [hnames]
      decide
  refine .pure ⟨hapart.addSymbol, ?_⟩
  simp only [List.forall_mem_append, List.forall_mem_cons]
  refine ⟨⟨⟨legible_la (hsub hxreg1) (by simp), ?_, nofun⟩,
    hmask _ hsub fun op hop ↦ by simp [hop]⟩, (he.legible hopcode).mono hsub, nofun⟩
  refine legible_literal ["xreg1".toList, "imm6".toList] (by decide) ?_
  simp only [List.forall_mem_cons]
  exact ⟨hsub hxreg1, himm6, nofun⟩

/-- The register that a round fills. -/
theorem bitsReg_known {i : ℕ} (h : i < 3) : bitsReg i ∈ knownOperands ∧ bitsReg i ≠ "imm6".toList ∧
    bitsReg i ≠ "uimm6".toList := by
  have hall : ∀ i < 3, bitsReg i ∈ knownOperands ∧ bitsReg i ≠ "imm6".toList ∧
      bitsReg i ≠ "uimm6".toList := by
    decide
  exact hall i h

/-- The instructions of a round. -/
theorem legible_bits {operands : List Text} {i bits : ℕ} {offset : ℤ} (hi : i < 3)
    (hbits : bits ∈ [1, 3]) (hoffset : 0 ≤ offset ∧ offset ≤ 31)
    (hxreg1 : "xreg1".toList ∈ operands) (hreg : bitsReg i ∈ operands) :
    ∀ inst ∈ ["addi ".toList ++ bitsReg i ++ ", zero, ".toList ++ Text.dec bits,
      "slli ".toList ++ bitsReg i ++ ", ".toList ++ bitsReg i ++ ", ".toList ++ Text.str offset,
      "add xreg1, xreg1, ".toList ++ bitsReg i], Legible operands inst := by
  have hfill : ∀ i < 3, ∀ bits ∈ [1, 3], ∀ token ∈ List.splitOnP isSep ("addi ".toList ++
      bitsReg i ++ ", zero, ".toList ++ Text.dec bits), token ∈ [bitsReg i] ∨ Clear token := by
    decide
  have hshift : ∀ i < 3, ∀ n < 32, ∀ token ∈ List.splitOnP isSep ("slli ".toList ++ bitsReg i ++
      ", ".toList ++ bitsReg i ++ ", ".toList ++ Text.dec n),
      token ∈ [bitsReg i] ∨ Clear token := by
    decide
  have hadd : ∀ i < 3, ∀ token ∈ List.splitOnP isSep ("add xreg1, xreg1, ".toList ++ bitsReg i),
      token ∈ ["xreg1".toList, bitsReg i] ∨ Clear token := by
    decide
  lift offset to ℕ using hoffset.1
  have hregs : ∀ op ∈ [bitsReg i], op ∈ operands := List.forall_mem_singleton.mpr hreg
  simp only [List.forall_mem_cons]
  refine ⟨legible_literal [bitsReg i] (hfill i hi bits hbits) hregs,
    legible_literal [bitsReg i] (hshift i hi offset (by omega)) hregs,
    legible_literal ["xreg1".toList, bitsReg i] (hadd i hi) ?_, nofun⟩
  simp only [List.forall_mem_cons]
  exact ⟨hxreg1, hreg, nofun⟩

theorem ensures_legible_setBits {operands : List Text} (hxreg1 : "xreg1".toList ∈ operands)
    {is : List ℕ} (his : ∀ i ∈ is, i < 3) : Ensures (setBits is) draws fun r _ ↦
      (∀ op ∈ r.2, op ∈ knownOperands ∧ op ≠ "imm6".toList ∧ op ≠ "uimm6".toList) ∧
        ∀ operands', operands ⊆ operands' → r.2 ⊆ operands' →
          ∀ inst ∈ r.1, Legible operands' inst := by
  induction is generalizing draws with
  | nil => exact .pure ⟨nofun, fun _ _ _ ↦ nofun⟩
  | cons i is ih =>
    obtain ⟨hi, his⟩ := List.forall_mem_cons.mp his
    apply Ensures.bind (Q := fun bits _ ↦ bits ∈ [1, 3]) ⟨fun _ h ↦ Draws.mem_of_choice_eq_ok h⟩
    intro bits draws₁ hbits
    apply Ensures.bind .randint
    intro offset draws₂ hoffset
    apply Ensures.bind (ih his)
    intro ⟨insts, xregs⟩ draws₃ ⟨hxregs, hinsts⟩
    refine .pure ⟨List.forall_mem_cons.mpr ⟨bitsReg_known hi, hxregs⟩,
      fun operands' hsub hregs ↦ ?_⟩
    obtain ⟨hreg, hrest⟩ := List.cons_subset.mp hregs
    rw [List.forall_mem_append]
    exact ⟨legible_bits hi hbits hoffset (hsub hxreg1) hreg, hinsts operands' hsub hrest⟩

theorem clear_name (csr : CsrName) : Clear csr.name := by
  cases csr <;> decide

theorem ensures_legible_wordCsrR (he : LegibleOpcode opcode e)
    (hxreg1 : "xreg1".toList ∈ entryOperands e) :
    Ensures (wordCsrR opcode e) draws fun r _ ↦ LegibleInsts r := by
  apply Ensures.bind .trivial
  intro csr draws₁ _
  have hformat := he.format (clear_name csr)
  split
  · refine .pure ⟨he.apart.addSymbol, ?_⟩
    simp only [List.forall_mem_cons]
    refine ⟨legible_la (subset_addSymbol hxreg1) (by simp),
      legible_literal ["xreg1".toList] (by decide) ?_, hformat.mono subset_addSymbol, nofun⟩
    exact List.forall_mem_singleton.mpr (subset_addSymbol hxreg1)
  · apply Ensures.bind .randint
    intro rounds draws₂ hrounds
    have his : ∀ i ∈ List.range rounds.toNat, i < 3 := by
      intro i hi
      rw [List.mem_range] at hi
      omega
    apply Ensures.bind (ensures_legible_setBits hxreg1 his)
    intro ⟨insts, xregs⟩ draws₃ ⟨hxregs, hinsts⟩
    refine .pure ⟨he.apart.addXregs hxregs, ?_⟩
    simp only [List.forall_mem_append, List.forall_mem_singleton]
    refine ⟨⟨legible_literal ["xreg1".toList] (by decide) ?_,
      hinsts _ subset_addXregs fun op hop ↦ by simp [hop]⟩, hformat.mono subset_addXregs⟩
    exact List.forall_mem_singleton.mpr (subset_addXregs hxreg1)

theorem legibleInsts_sfence (he : LegibleOpcode opcode e) (hopcode : opcode ∉ fieldOpcodes)
    (hxregs : "xreg0".toList ∈ entryOperands e ∧ "xreg1".toList ∈ entryOperands e)
    (himm6 : "imm6".toList ∉ entryOperands e) {pt : Text}
    (hpt : pt ∈ ["pt0", "pt1", "pt2", "pt3"].map String.toList) :
    LegibleInsts (.none, ["li xreg0, uimm1".toList, "la xreg1, ".toList ++ pt,
      "addi xreg1, xreg1, uimm6".toList, e.asm],
      addImms e [("uimm1".toList, 1), ("uimm6".toList, 8)]) where
  apart := he.apart.addImms (by decide) (.inl ⟨himm6, by decide⟩)
  insts := by
    have hla : ∀ pt ∈ ["pt0", "pt1", "pt2", "pt3"].map String.toList, ∀ token ∈
        List.splitOnP isSep ("la xreg1, ".toList ++ pt),
        token ∈ ["xreg1".toList] ∨ Clear token := by
      decide
    have hsub : entryOperands e ⊆
        entryOperands (addImms e [("uimm1".toList, 1), ("uimm6".toList, 8)]) := subset_addImms
    simp only [List.forall_mem_cons]
    refine ⟨legible_literal ["xreg0".toList, "uimm1".toList] (by decide) ?_,
      legible_literal ["xreg1".toList] (hla pt hpt) ?_,
      legible_literal ["xreg1".toList, "uimm6".toList] (by decide) ?_,
      (he.legible hopcode).mono hsub, nofun⟩
    · simp only [List.forall_mem_cons]
      exact ⟨hsub hxregs.1, by simp, nofun⟩
    · exact List.forall_mem_singleton.mpr (hsub hxregs.2)
    · simp only [List.forall_mem_cons]
      exact ⟨hsub hxregs.2, by simp, nofun⟩

/-- A fact about the entries of some opcodes. -/
theorem of_mem_opcodes {opcodes : List Text} {P : OpcodeEntry → Prop}
    (hentry : (opcode, e) ∈ opcodesMap) (hopcode : opcode ∈ opcodes)
    (h : ∀ table ∈ baseTables, ∀ item ∈ table, item.1 ∈ opcodes → P item.2) : P e :=
  forall_opcodesMap (P := fun item ↦ item.1 ∈ opcodes → P item.2) h hentry hopcode

/-- The entries of `opcodesWords` whose opcodes have no field. -/
def plainWords : List (List Text × WordFunction) :=
  opcodesWords.take 7 ++ (opcodesWords.drop 9).take 1

/-- The words of all opcodes. -/
theorem ensures_legible_wordFunction (hentry : (opcode, e) ∈ opcodesMap) :
    Ensures (wordFunction opcode opcode e) draws fun r _ ↦ LegibleInsts r := by
  have he : LegibleOpcode opcode e := legibleOpcode_opcodesMap hentry
  have hfields : ∀ opcode ∈ fieldOpcodes, (∃ entry ∈ opcodesWords, opcode ∈ entry.1) ∧
      ∀ entry ∈ plainWords, opcode ∉ entry.1 := by
    decide +kernel
  unfold wordFunction
  cases hfind : opcodesWords.find? fun entry ↦ decide (opcode ∈ entry.1) with
  | none =>
    refine .pure (legibleInsts_asm he (fun hfield ↦ ?_) .none)
    obtain ⟨entry, hmem, hopcode⟩ := (hfields opcode hfield).1
    exact List.find?_eq_none.mp hfind entry hmem (decide_eq_true hopcode)
  | some entry =>
    have hsome := List.find?_some hfind
    have hopcode : opcode ∈ entry.1 := of_decide_eq_true hsome
    have hmem := List.mem_of_find?_eq_some hfind
    simp only [opcodesWords, List.mem_cons, List.not_mem_nil, or_false] at hmem
    have hxreg1 : (∀ table ∈ baseTables, ∀ item ∈ table, item.1 ∈ entry.1 →
        "xreg1".toList ∈ entryOperands item.2) → "xreg1".toList ∈ entryOperands e :=
      of_mem_opcodes (P := fun e ↦ "xreg1".toList ∈ entryOperands e) hentry hopcode
    have hplain (i : ℕ) (hi : plainWords[i]? = some entry) : opcode ∉ fieldOpcodes :=
      fun hfield ↦ (hfields opcode hfield).2 entry (List.mem_of_getElem? hi) hopcode
    rcases hmem with rfl | rfl | rfl | rfl | rfl | rfl | rfl | rfl | rfl | rfl | rfl
    · exact .pure (legibleInsts_asm he (hplain 0 rfl) .cfJ)
    · exact .pure (legibleInsts_jalr he (hplain 1 rfl)
        (hxreg1 (by decide)))
    · exact .pure (legibleInsts_asm he (hplain 2 rfl) .cfBr)
    · refine .pure (legibleInsts_ret he (hplain 3 rfl) ?_)
      split
      · decide
      · split <;> decide
    · exact ensures_legible_wordMem he (hplain 4 rfl)
        (hxreg1 (by decide)) .memR
    · exact ensures_legible_wordMem he (hplain 5 rfl)
        (hxreg1 (by decide)) .memW
    · exact ensures_legible_wordAtomic he (hplain 6 rfl)
        (hxreg1 (by decide))
        (of_mem_opcodes (P := fun e ↦ "uimm6".toList ∉ entryOperands e) hentry hopcode
          (by decide))
    · exact ensures_legible_wordCsrR he (hxreg1 (by decide))
    · apply Ensures.bind .trivial
      intro csr draws₁ _
      exact .pure (legibleInsts_format he (clear_name csr) .csr)
    · have hxreg0 : "xreg0".toList ∈ entryOperands e :=
        of_mem_opcodes (P := fun e ↦ "xreg0".toList ∈ entryOperands e) hentry hopcode
          (by decide)
      have himm6 : "imm6".toList ∉ entryOperands e :=
        of_mem_opcodes (P := fun e ↦ "imm6".toList ∉ entryOperands e) hentry hopcode
          (by decide)
      apply Ensures.bind (Q := fun pt _ ↦ pt ∈ ["pt0", "pt1", "pt2", "pt3"].map String.toList)
        ⟨fun _ h ↦ Draws.mem_of_choice_eq_ok h⟩
      intro pt draws₁ hpt
      exact .pure (legibleInsts_sfence he (hplain 7 rfl)
        ⟨hxreg0, hxreg1 (by decide)⟩ himm6 hpt)
    · have hrms : ∀ rm ∈ ["rne", "rtz", "rdn", "rup", "rmm", "dyn"].map String.toList,
          Clear rm := by
        decide
      apply Ensures.bind (Q := fun rm _ ↦
        rm ∈ ["rne", "rtz", "rdn", "rup", "rmm", "dyn"].map String.toList)
        ⟨fun _ h ↦ Draws.mem_of_choice_eq_ok h⟩
      intro rm draws₁ hrm
      exact .pure (legibleInsts_format he (hrms rm hrm) .none)

end Builders

/-- The characters of values. -/
def IsValueText (val : Text) : Prop := ∀ c ∈ val, c.isDigit = true ∨ c ∈ "xf-d_lps".toList

namespace IsValueText

variable {val val' : Text}

theorem append (h : IsValueText val) (h' : IsValueText val') : IsValueText (val ++ val') :=
  List.forall_mem_append.mpr ⟨h, h'⟩

theorem dec (n : ℕ) : IsValueText (Text.dec n) := fun _ hc ↦ .inl (isDigit_of_mem_dec hc)

theorem cons {c : Char} (hc : c ∈ "xf-d_lps".toList) (h : IsValueText val) :
    IsValueText (c :: val) := List.forall_mem_cons.mpr ⟨.inr hc, h⟩

theorem str (z : ℤ) : IsValueText (Text.str z) := by
  cases z with
  | ofNat n => exact dec n
  | negSucc n => exact cons (by decide) (dec (n + 1))

theorem part (part : Part) : IsValueText part.text := by
  have hall : ∀ c ∈ part.text, c ∈ "xf-d_lps".toList := by cases part <;> decide
  exact fun c hc ↦ .inr (hall c hc)

theorem clear (h : IsValueText val) : Clear val := by
  have hmarks : ∀ mark ∈ marks, ∃ c ∈ mark, c.isDigit = false ∧ c ∉ "xf-d_lps".toList := by decide
  intro mark hmark
  obtain ⟨c, hc, hdigit, hchar⟩ := hmarks mark hmark
  refine not_infix_of_not_mem hc fun hval ↦ ?_
  rcases h c hval with hd | hd
  · exact Bool.false_ne_true (hdigit.symm.trans hd)
  · exact hchar hd

end IsValueText

theorem clear_xreg {noZero : Bool} {val : Text} (h : IsXreg noZero val) : Clear val := by
  obtain ⟨n, rfl, -⟩ := h
  exact (IsValueText.cons (by decide) (.dec n)).clear

theorem clear_freg {val : Text} (h : ∃ n, val = 'f' :: Text.dec n) : Clear val := by
  obtain ⟨n, rfl⟩ := h
  exact (IsValueText.cons (by decide) (.dec n)).clear

theorem clear_imm {bits align : ℕ} {signed : Bool} {val : Text} (h : ImmVal bits align signed val) :
    Clear val := by
  obtain ⟨sign, imm, hsign, rfl⟩ := h
  rcases hsign with rfl | ⟨-, rfl⟩
  · exact (IsValueText.dec _).clear
  · exact (IsValueText.cons (by decide) (.dec _)).clear

theorem clear_symbol {part : Part} {P : Prop} {val : Text}
    (h : IsDataSymbol val ∨ (P ∧ IsPartSymbol part val)) : Clear val := by
  rcases h with ⟨n, k, -, -, rfl⟩ | ⟨-, num, rfl⟩
  · have hd : IsValueText "d_".toList := .cons (by decide) (.cons (by decide) nofun)
    have hline : IsValueText "_".toList := .cons (by decide) nofun
    exact (((hd.append (.dec n)).append hline).append (.dec k)).clear
  · exact ((IsValueText.part part).append (.str num)).clear

/-- The loops of `populate_word` over the operands. -/
def operandMap (w : GenWord) (maxLabel : ℤ) (part : Part) : Generating (Dict Text Text) := do
  let opvals ← fillValues w part
  fill w.symbols id (fun _ ↦ onSnd (getSymbol w.tpe w.label maxLabel part)) opvals

section Populating

variable {s : InstGenerator × Draws} {part : Part} {w : GenWord} {maxLabel : ℤ}
  {opvals : Dict Text Text}

theorem populateWord_eq_operandMap (hw : w.populated = false) :
    populateWord w maxLabel part = (do
      let opvals ← operandMap w maxLabel part
      let word ← lift (w.toWord.populate opvals part)
      return { w with toWord := word }) := by
  rw [populateWord_eq hw, operandMap, bind_assoc]

theorem ensures_operandMap (hw : Template w) :
    Ensures (operandMap w maxLabel part) s fun opvals _ ↦ ClearMap w.operands opvals := by
  have hregion : (nums.take (if part = .prefixPart then (10, 15) else (0, 31)).2).drop
      (if part = .prefixPart then (10, 15) else (0, 31)).1 ≠ [] := by
    cases part <;> decide
  have hvalues : Ensures (fillValues w part) s fun opvals _ ↦
      (∀ op, op ∈ opvals.keys ↔ op ∈ w.xregs ++ w.fregs ++ w.imms.map Prod.fst) ∧
        ∀ entry ∈ opvals.entries, Clear entry.2 := by
    apply Ensures.bind (ensures_fill (C := fun _ val ↦ Clear val) fun xreg _ s' ↦ ?xregs)
    case xregs =>
      split
      · exact (returns_getXregs stable_true True.intro (by decide) false).ensures.mono
          fun _ _ h ↦ clear_xreg h.1
      · exact (returns_getXregs stable_true True.intro hregion true).ensures.mono
          fun _ _ h ↦ clear_xreg h.1
    intro opvals₁ s₁ h₁
    apply Ensures.bind (ensures_fill (C := fun _ val ↦ Clear val) fun freg _ s' ↦
      (returns_getFregs stable_true True.intro).ensures.mono fun _ _ h ↦ clear_freg h.1)
    intro opvals₂ s₂ h₂
    refine (ensures_fill (C := fun _ val ↦ Clear val) fun imm himm s' ↦ ?imms).mono
      fun opvals₃ s₃ h₃ ↦ ⟨fun op ↦ ?_, ?_⟩
    case imms =>
      obtain ⟨⟨bits, signed, hkind⟩, halign⟩ := exists_isImm (hw.imms_usual imm himm)
      exact (returns_getImm stable_true True.intro hkind halign).ensures.mono
        fun _ _ h ↦ clear_imm h.1
    · rw [h₃.mem_keys_iff, h₂.mem_keys_iff, h₁.mem_keys_iff, List.map_id, List.map_id,
        Dict.keys_empty, List.mem_append, List.mem_append]
      simp only [List.not_mem_nil, or_false]
      tauto
    · exact h₃.forall_entries (fun _ _ _ h ↦ h) (h₂.forall_entries (fun _ _ _ h ↦ h)
        (h₁.forall_entries (fun _ _ _ h ↦ h) nofun))
  apply Ensures.bind hvalues
  intro opvals₃ s₃ ⟨hkeys, hclear⟩
  refine (ensures_fill (C := fun _ val ↦ Clear val) fun symbol _ s' ↦
    .draw (ensures_getSymbol.mono fun _ _ h ↦ clear_symbol h)).mono fun opvals₄ s₄ h₄ ↦ ?_
  refine ⟨fun op ↦ ?_, h₄.forall_entries (fun _ _ _ h ↦ h) hclear⟩
  rw [h₄.mem_keys_iff, hkeys, List.map_id, hw.operands_eq, or_comm]
  exact List.mem_append.symm

/-- A word of `get_word`. -/
structure LegibleGenWord (w : GenWord) : Prop extends Template w where
  apart : Apart w.operands
  legible : ∀ inst ∈ w.insts, Legible w.operands inst

theorem ensures_legibleGenWord (part : Part) :
    Ensures (getWord part) s fun w _ ↦ LegibleGenWord w := by
  have hlegible : Ensures (getWord part) s fun w _ ↦ ∃ r, LegibleInsts r ∧
      ∃ label, w = GenWord.new label r.2.1 r.1 r.2.2 := by
    apply Ensures.bind .trivial
    intro opcode s₁ _
    apply Ensures.bind .trivial
    intro label s₂ _
    apply Ensures.bind .trivial
    intro _ s₃ _
    cases hlookup : opcodesMap.lookup opcode with
    | none => exact .lift nofun
    | some entry =>
      apply Ensures.bind
        (.draw (ensures_legible_wordFunction (OpcodeTable.mem_of_lookup_eq hlookup)))
      intro r s₄ hr
      exact .pure ⟨r, hr, label, rfl⟩
  have htemplate := (returns_getWord (s := s) stable_true True.intro part).and_ensures hlegible
  apply htemplate.ensures.mono
  rintro w s' ⟨⟨hgot, -⟩, r, hr, label, rfl⟩
  exact ⟨hgot.template, hr.apart, hr.insts⟩

theorem clear_append_cons {c : Char} (hc : ∀ mark ∈ marks, c ∉ mark) {left right : Text}
    (hleft : Clear left) (hright : Clear right) : Clear (left ++ c :: right) := by
  intro mark hmark
  rw [infix_append_cons_iff (hc mark hmark), not_or]
  exact ⟨hleft mark hmark, hright mark hmark⟩

theorem clear_blanks_append (n : ℕ) {text : Text} (h : Clear text) :
    Clear (List.replicate n ' ' ++ text) := by
  have hblank : ∀ mark ∈ marks, ' ' ∉ mark := by decide
  have hnil : Clear [] := by decide
  induction n with
  | zero => exact h
  | succ n ih => exact clear_append_cons hblank hnil ih

theorem clear_append_blanks (n : ℕ) {text : Text} (h : Clear text) :
    Clear (text ++ List.replicate n ' ') := by
  have hblank : ∀ mark ∈ marks, ' ' ∉ mark := by decide
  cases n with
  | zero => rwa [List.replicate_zero, List.append_nil]
  | succ n =>
    have hnil : Clear [] := by decide
    have hblanks := clear_blanks_append n hnil
    rw [List.append_nil] at hblanks
    exact clear_append_cons hblank h hblanks

theorem clear_printWord {part : Part} {label : ℤ} {insts : List Text}
    (h : ∀ inst ∈ insts, Clear inst) : ∀ line ∈ printWord part label insts, Clear line := by
  have hcolon : ∀ mark ∈ marks, ':' ∉ mark := by decide
  have hcolumn : ∀ inst, Clear inst → Clear (ljust 42 inst) := by
    intro inst hinst
    rw [ljust_eq_append]
    exact clear_append_blanks _ hinst
  cases insts with
  | nil => exact nofun
  | cons first rest =>
    obtain ⟨hfirst, hrest⟩ := List.forall_mem_cons.mp h
    rw [printWord, List.forall_mem_cons, List.forall_mem_map]
    constructor
    · have hlabel : Clear (part.text ++ Text.str label) :=
        ((IsValueText.part part).append (.str label)).clear
      have hline : ljust 8 (Word.labelText part label) ++ ljust 42 first =
          (part.text ++ Text.str label) ++ ':' ::
            (List.replicate (8 - (Word.labelText part label).length) ' ' ++ ljust 42 first) := by
        rw [ljust_eq_append 8, Word.labelText]
        simp only [List.append_assoc, List.cons_append, List.nil_append]
      rw [hline]
      exact clear_append_cons hcolon hlabel (clear_blanks_append _ (hcolumn first hfirst))
    · intro inst hinst
      rw [ljust_eq_append 8, List.nil_append]
      exact clear_blanks_append _ (hcolumn inst (hrest inst hinst))

/-- Every placeholder of a word has a value, whatever label the word has got since. The replacements
one after the other are those at once, these are the lines that the populated word has, and they
have nothing of a placeholder. -/
theorem populate_resolves {part' : Part} {label : ℤ} {s₁ s₂ s₃ : InstGenerator × Draws}
    (hget : getWord part s = .ok (w, s₁))
    (hmap : operandMap { w with label } maxLabel part' s₂ = .ok (opvals, s₃)) :
    (∀ inst ∈ w.insts, (∀ name ∈ names placeholderAt inst, name ∈ opvals.keys) ∧
      Word.popInst inst opvals = fillNames placeholderAt (fun name ↦ opvals.getD name []) inst) ∧
      ∃ word, Word.populate { w.toWord with label } opvals part' = .ok word ∧
        populateWord { w with label } maxLabel part' s₂ = .ok ({ w with toWord := word }, s₃) ∧
        word.populated = true ∧
        word.retInsts = printWord part' label
          (w.insts.map (fillNames placeholderAt fun name ↦ opvals.getD name [])) ∧
        ∀ line ∈ word.retInsts, Clear line := by
  have hw : LegibleGenWord w := (ensures_legibleGenWord part).of_eq_ok _ hget
  have htemplate : Template { w with label } :=
    ⟨hw.insts_ne_nil, hw.operands_eq, hw.populated_eq, hw.insts_lines, hw.imms_usual⟩
  have hclear : ClearMap w.operands opvals := (ensures_operandMap htemplate).of_eq_ok _ hmap
  have hpop : ∀ inst ∈ w.insts, Word.popInst inst opvals =
      fillNames placeholderAt (fun name ↦ opvals.getD name []) inst :=
    fun inst hinst ↦ hclear.popInst_eq hw.apart (hw.legible inst hinst)
  refine ⟨fun inst hinst ↦ ⟨hclear.names_subset hw.apart (hw.legible inst hinst),
    hpop inst hinst⟩, ?_⟩
  obtain ⟨word, hword⟩ : ∃ word, Word.populate { w.toWord with label } opvals part' = .ok word :=
    exists_populate_eq (fun op hop ↦ (hclear.mem_keys op).mpr hop) hw.insts_ne_nil
  have hpopulate : populateWord { w with label } maxLabel part' s₂ =
      .ok ({ w with toWord := word }, s₃) := by
    have hlift : lift (Word.populate { w.toWord with label } opvals part') s₃ =
        .ok (word, s₃) := by
      rw [hword]
      rfl
    rw [populateWord_eq_operandMap htemplate.populated_eq, bind_eq, hmap, ok_bind, bind_eq]
    exact congrArg (· >>= fun r : Word × _ ↦ .ok ({ w with toWord := r.1 }, r.2)) hlift
  have hlines : w.insts.map (Text.subst opvals.entries) =
      w.insts.map (fillNames placeholderAt fun name ↦ opvals.getD name []) :=
    List.map_congr_left hpop
  refine ⟨word, hword, hpopulate, (length_retInsts_populate hword).1, ?_, ?_⟩
  · rw [retInsts_populate hword, hlines]
  rw [retInsts_populate hword]
  refine clear_printWord fun line hline ↦ ?_
  obtain ⟨inst, hinst, rfl⟩ := List.mem_map.mp hline
  have htokens := hclear.tokens_popInst hw.apart (hw.legible inst hinst)
  exact fun mark hmark ↦ htokens.not_isInfix (fun c hc ↦ not_mem_marks hc hmark)
    fun token htoken ↦ htoken mark hmark

end Populating

/-- The first word of a test. -/
theorem populate_resolves_sd : ∃ (w : GenWord) (s₁ s₃ : InstGenerator × Draws)
    (opvals : Dict Text Text), getWord .mainPart (InstGenerator.start, storeDraws) = .ok (w, s₁) ∧
      operandMap w 1 .mainPart s₁ = .ok (opvals, s₃) ∧
      (∀ inst ∈ w.insts, (∀ name ∈ names placeholderAt inst, name ∈ opvals.keys) ∧
        Word.popInst inst opvals =
          fillNames placeholderAt (fun name ↦ opvals.getD name []) inst) ∧
      ∃ word, Word.populate w.toWord opvals .mainPart = .ok word ∧
        populateWord w 1 .mainPart s₁ = .ok ({ w with toWord := word }, s₃) ∧
        word.populated = true ∧
        word.retInsts = printWord .mainPart w.label
          (w.insts.map (fillNames placeholderAt fun name ↦ opvals.getD name [])) ∧
        ∀ line ∈ word.retInsts, Clear line := by
  obtain ⟨⟨w, s₁⟩, hget, hgot, -⟩ := returns_getWord
    (s := (InstGenerator.start, storeDraws)) stable_true True.intro .mainPart
  have hlabel : w.label = 0 := hgot.label_eq
  have hlt : w.label < 1 := by
    rw [hlabel]
    decide
  obtain ⟨r, hr, -⟩ := returns_populateWord (s := s₁) stable_true True.intro hgot.template
    zero_le_one (fun _ ↦ hlt) .mainPart
  rw [populateWord_eq_operandMap hgot.template.populated_eq, bind_eq] at hr
  obtain ⟨⟨opvals, s₃⟩, hmap, -⟩ := bind_eq_ok.mp hr
  obtain ⟨hinsts, hword⟩ :=
    @populate_resolves (InstGenerator.start, storeDraws) .mainPart w 1 opvals .mainPart w.label s₁
      s₁ s₃ hget hmap
  exact ⟨w, s₁, s₃, opvals, hget, hmap, hinsts, hword⟩

end ProcessorFuzz.Mutation
