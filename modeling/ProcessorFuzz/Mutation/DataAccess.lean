import ProcessorFuzz.Execution.DataLabels
import ProcessorFuzz.Library.Substitution
import ProcessorFuzz.Mutation.Generation

/-!
# The memory accesses of a test

A word that accesses memory loads the address of a symbol into a base register, which atomic words
move by an immediate, and accesses memory at an offset from it. The same description fits the
template of the word and the word with its operands filled in. The labels that are drawn for a data
section of 64 words have 32 bytes of the section on either side, which is as far as an immediate of
six bits and the width of the access can reach.
-/

namespace ProcessorFuzz.Mutation

open Library Library.Stateful RiscvDefinitions Generating OpcodeEntry

/-- The instructions of a word that accesses memory. `step` is what is added to the base first. -/
structure Access where
  opcode : Text
  base : Text
  symbol : Text
  step : Option Text
  regs : List Text
  offset : Text

namespace Access

/-- `op reg, offset(base)`. -/
def instLine (a : Access) : Text :=
  a.opcode ++ ' ' :: (a.regs.flatMap fun reg ↦ reg ++ ", ".toList) ++ a.offset ++
    '(' :: a.base ++ ")".toList

def laLine (a : Access) : Text := "la".toList ++ ' ' :: a.base ++ ',' :: ' ' :: a.symbol

def addiLine (a : Access) (imm : Text) : Text :=
  "addi".toList ++ ' ' :: a.base ++ ',' :: ' ' :: a.base ++ ',' :: ' ' :: imm

def lines (a : Access) : List Text := a.laLine :: a.step.toList.map a.addiLine ++ [a.instLine]

/-- The same instructions with other operands. -/
def map (f : Text → Text) (a : Access) : Access where
  opcode := a.opcode
  base := f a.base
  symbol := f a.symbol
  step := a.step.map f
  regs := a.regs.map f
  offset := f a.offset

end Access

/-- Names that can be filled in behind an opcode. -/
structure Fills (entries : List (Text × Text)) (opcode : Text) : Prop where
  separates : ∀ c ∈ " ,()".toList, Text.Separates c entries
  unnamed : ∀ text ∈ [opcode, "la".toList, "addi".toList], Text.Unnamed entries text

namespace Fills

variable {entries : List (Text × Text)} {opcode : Text}

theorem subst_append (h : Fills entries opcode) {c : Char} (hc : c ∈ " ,()".toList)
    (left right : Text) : Text.subst entries (left ++ c :: right) =
      Text.subst entries left ++ c :: Text.subst entries right :=
  Text.subst_append_cons (h.separates c hc) left right

theorem subst_cons (h : Fills entries opcode) {c : Char} (hc : c ∈ " ,()".toList) (right : Text) :
    Text.subst entries (c :: right) = c :: Text.subst entries right := by
  simpa using h.subst_append hc [] right

theorem subst_comma (h : Fills entries opcode) (left right : Text) :
    Text.subst entries (left ++ ',' :: ' ' :: right) =
      Text.subst entries left ++ ',' :: ' ' :: Text.subst entries right := by
  rw [h.subst_append (by decide), h.subst_cons (by decide)]

theorem subst_laLine (h : Fills entries opcode) (a : Access) :
    Text.subst entries a.laLine = (a.map (Text.subst entries)).laLine := by
  have hla := Text.subst_of_unnamed (h.unnamed "la".toList (by simp))
  simp only [Access.laLine, List.append_assoc, List.cons_append, Access.map]
  rw [h.subst_append (by decide), hla, h.subst_comma]

theorem subst_addiLine (h : Fills entries opcode) (a : Access) (imm : Text) :
    Text.subst entries (a.addiLine imm) =
      (a.map (Text.subst entries)).addiLine (Text.subst entries imm) := by
  have haddi := Text.subst_of_unnamed (h.unnamed "addi".toList (by simp))
  simp only [Access.addiLine, List.append_assoc, List.cons_append, Access.map]
  rw [h.subst_append (by decide), haddi, h.subst_comma, h.subst_comma]

theorem subst_regs (h : Fills entries opcode) (regs : List Text) (rest : Text) :
    Text.subst entries ((regs.flatMap fun reg ↦ reg ++ ", ".toList) ++ rest) =
      ((regs.map (Text.subst entries)).flatMap fun reg ↦ reg ++ ", ".toList) ++
        Text.subst entries rest := by
  have hcomma : ", ".toList = [',', ' '] := rfl
  induction regs with
  | nil => rfl
  | cons reg regs ih =>
    simp only [List.flatMap_cons, List.map_cons, hcomma, List.append_assoc, List.cons_append,
      List.nil_append] at ih ⊢
    rw [h.subst_comma, ih]

theorem subst_instLine {a : Access} (h : Fills entries a.opcode) :
    Text.subst entries a.instLine = (a.map (Text.subst entries)).instLine := by
  have hopcode := Text.subst_of_unnamed (h.unnamed a.opcode (by simp))
  have hclose : Text.subst entries (a.base ++ ")".toList) =
      Text.subst entries a.base ++ ")".toList := by
    have hempty : ")".toList = [')'] := rfl
    rw [hempty, h.subst_append (by decide), Text.subst_nil]
  simp only [Access.instLine, List.append_assoc, List.cons_append, Access.map]
  rw [h.subst_append (by decide), hopcode, h.subst_regs, h.subst_append (by decide), hclose]

/-- The operands of the instructions are filled in one by one. -/
theorem map_subst_lines {a : Access} (h : Fills entries a.opcode) :
    a.lines.map (Text.subst entries) = (a.map (Text.subst entries)).lines := by
  have hstep : (a.step.toList.map a.addiLine).map (Text.subst entries) =
      (a.map (Text.subst entries)).step.toList.map (a.map (Text.subst entries)).addiLine := by
    cases hcase : a.step with
    | none => simp [Access.map, hcase]
    | some imm => simp [hcase, h.subst_addiLine, Access.map]
  rw [Access.lines, List.map_append, List.map_cons, List.map_singleton, hstep, h.subst_laLine,
    h.subst_instLine, Access.lines]

end Fills

/-- The names of the operands of memory words. -/
def operandNames : List Text :=
  ["xreg0", "xreg1", "xreg2", "freg0", "imm6", "symbol"].map String.toList

/-- A text without three characters of which each name has one, and without the colon of a label. -/
def IsValue (val : Text) : Prop := ∀ c ∈ val, c ∉ "giy:".toList

namespace IsValue

variable {val val' name : Text}

theorem not_isInfix (h : IsValue val) (hname : name ∈ operandNames) : ¬ name <:+: val := by
  have hnames : ∀ name ∈ operandNames, ∃ c ∈ "giy:".toList, c ∈ name := by decide
  obtain ⟨c, hc, hmem⟩ := hnames name hname
  exact Text.not_infix_of_not_mem hmem fun hval ↦ h c hval hc

theorem cons {c : Char} (hc : c ∉ "giy:".toList) (h : IsValue val) : IsValue (c :: val) :=
  List.forall_mem_cons.mpr ⟨hc, h⟩

theorem append (h : IsValue val) (h' : IsValue val') : IsValue (val ++ val') :=
  List.forall_mem_append.mpr ⟨h, h'⟩

theorem dec (n : ℕ) : IsValue (Text.dec n) := by
  intro c hc hmem
  have hdigits : ∀ c ∈ "giy:".toList, c.isDigit = false := by decide
  exact Text.not_mem_dec (hdigits c hmem) hc

theorem str (z : ℤ) : IsValue (Text.str z) := by
  cases z with
  | ofNat n => exact dec n
  | negSucc n => exact cons (by decide) (dec (n + 1))

theorem xreg {noZero : Bool} (h : IsXreg noZero val) : IsValue val := by
  obtain ⟨n, rfl, -⟩ := h
  exact cons (by decide) (dec n)

theorem freg (h : ∃ n, val = 'f' :: Text.dec n) : IsValue val := by
  obtain ⟨n, rfl⟩ := h
  exact cons (by decide) (dec n)

theorem imm {bits align : ℕ} {signed : Bool} (h : ImmVal bits align signed val) : IsValue val := by
  obtain ⟨sign, imm, hsign, rfl⟩ := h
  refine append ?_ (dec _)
  rcases hsign with rfl | ⟨-, rfl⟩
  · exact nofun
  · exact cons (by decide) nofun

theorem symbol {part : Part} {P : Prop} (h : IsDataSymbol val ∨ (P ∧ IsPartSymbol part val)) :
    IsValue val := by
  rcases h with ⟨n, k, -, -, rfl⟩ | ⟨-, num, rfl⟩
  · have hd : IsValue "d_".toList := by
      unfold IsValue
      decide
    have hline : IsValue "_".toList := by
      unfold IsValue
      decide
    exact ((hd.append (dec n)).append hline).append (dec k)
  · have hpart : IsValue part.text := by
      unfold IsValue
      cases part <;> decide
    exact hpart.append (str num)

end IsValue

/-- The label, or blanks, and an instruction in each line. -/
def printWord (part : Part) (label : ℤ) : List Text → List Text
  | [] => []
  | first :: rest => (Text.ljust 8 (Word.labelText part label) ++ Text.ljust 42 first) ::
      rest.map fun inst ↦ Text.ljust 8 [] ++ Text.ljust 42 inst

theorem retInsts_populate {w w' : Word} {opvals : Dict Text Text} {part : Part}
    (h : w.populate opvals part = .ok w') :
    w'.retInsts = printWord part w.label (w.insts.map (Text.subst opvals.entries)) := by
  unfold Word.populate at h
  obtain ⟨-, -, h⟩ := bind_eq_ok.mp h
  have hpop : (w.insts.map fun inst ↦ Word.popInst inst opvals) =
      w.insts.map (Text.subst opvals.entries) := rfl
  rw [hpop] at h
  split at h
  · exact nomatch h
  · next first rest hlines =>
    obtain rfl := Except.ok.inj h
    rw [hlines]
    rfl

/-- The values with which the template of a word was filled in. -/
structure FilledIn (part : Part) (w : GenWord) (entries : List (Text × Text)) : Prop where
  names : entries.map Prod.fst = w.operands
  values : ∀ entry ∈ entries, IsValue entry.2
  xregs : ∀ name ∈ w.xregs, ∃ val, (name, val) ∈ entries ∧ IsXreg true val
  imms : ∀ imm ∈ w.imms, ∃ val, (imm.1, val) ∈ entries ∧
    ∀ bits signed, IsImm imm.1 bits signed → ImmVal bits imm.2 signed val
  symbols : ∀ name ∈ w.symbols, ∃ val, (name, val) ∈ entries ∧
    (IsDataSymbol val ∨ (w.tpe ≠ .memW ∧ IsPartSymbol part val))

section Zip

variable {ι : Type} {operands : List ι} {name : ι → Text} {vals : List Text} {C : ι → Text → Prop}

theorem exists_mem_zip (h : List.Forall₂ C operands vals) {operand : ι}
    (hmem : operand ∈ operands) :
    ∃ val, (name operand, val) ∈ (operands.map name).zip vals ∧ C operand val := by
  induction h with
  | nil => exact nomatch hmem
  | cons hval _ ih =>
    rcases List.mem_cons.mp hmem with rfl | hmem
    · exact ⟨_, List.mem_cons_self, hval⟩
    · obtain ⟨val, hzip, hC⟩ := ih hmem
      exact ⟨val, List.mem_cons_of_mem _ hzip, hC⟩

theorem isValue_zip (h : List.Forall₂ C operands vals) (hC : ∀ operand val, C operand val → IsValue val) :
    ∀ entry ∈ (operands.map name).zip vals, IsValue entry.2 := by
  induction h with
  | nil => exact nofun
  | cons hval _ ih => exact List.forall_mem_cons.mpr ⟨hC _ _ hval, ih⟩

theorem map_fst_zip_map (h : List.Forall₂ C operands vals) :
    ((operands.map name).zip vals).map Prod.fst = operands.map name := by
  apply List.map_fst_zip
  rw [List.length_map, h.length_eq]

end Zip

section Populate

variable {s : InstGenerator × Draws} {maxLabel : ℤ} {part : Part} {w : GenWord}

/-- A control flow or memory word is filled in with registers other than `x0`. -/
theorem ensures_filledIn (hw : Template w) (htpe : w.tpe ≠ .none) (hnodup : w.operands.Nodup) :
    Ensures (populateWord w maxLabel part) s fun w' _ ↦ ∃ entries, FilledIn part w entries ∧
      w'.retInsts = printWord part w.label (w.insts.map (Text.subst entries)) := by
  have hstable : Stable fun _ ↦ True := fun _ _ ↦ True.intro
  have hregion : (nums.take (if part = .prefixPart then (10, 15) else (0, 31)).2).drop
      (if part = .prefixPart then (10, 15) else (0, 31)).1 ≠ [] := by
    cases part <;> decide
  rw [populateWord, if_neg (by simp [hw.populated_eq])]
  apply Ensures.bind (ensures_fill (C := fun _ val ↦ IsXreg true val) fun xreg _ s' ↦ ?xregs)
  case xregs =>
    rw [if_neg htpe]
    exact (returns_getXregs hstable True.intro hregion true).ensures.mono fun _ _ h ↦ h.1
  rintro opvals₁ s₁ ⟨vals₁, hvals₁, heq₁⟩
  apply Ensures.bind (ensures_fill (C := fun _ val ↦ ∃ n, val = 'f' :: Text.dec n) fun freg _ s' ↦
    (returns_getFregs hstable True.intro).ensures.mono fun _ _ h ↦ h.1)
  rintro opvals₂ s₂ ⟨vals₂, hvals₂, heq₂⟩
  apply Ensures.bind (ensures_fill (C := fun imm val ↦ (∃ bits signed, IsImm imm.1 bits signed) ∧
    ∀ bits signed, IsImm imm.1 bits signed → ImmVal bits imm.2 signed val) fun imm himm s' ↦ ?imms)
  case imms =>
    obtain ⟨hkind, halign⟩ := exists_isImm (hw.imms_usual imm himm)
    constructor
    intro r hr
    refine ⟨hkind, fun bits signed h ↦ ?_⟩
    exact ((returns_getImm hstable True.intro h halign).ensures.of_eq_ok r hr).1
  rintro opvals₃ s₃ ⟨vals₃, hvals₃, heq₃⟩
  apply Ensures.bind (ensures_fill (C := fun _ val ↦ IsDataSymbol val ∨
    (w.tpe ≠ .memW ∧ IsPartSymbol part val)) fun symbol _ s' ↦ Ensures.draw ensures_getSymbol)
  rintro opvals₄ s₄ ⟨vals₄, hvals₄, heq₄⟩
  have hnames : ((w.xregs.map id).zip vals₁ ++ (w.fregs.map id).zip vals₂ ++
      (w.imms.map Prod.fst).zip vals₃ ++ (w.symbols.map id).zip vals₄).map Prod.fst =
        w.operands := by
    rw [List.map_append, List.map_append, List.map_append, map_fst_zip_map hvals₁,
      map_fst_zip_map hvals₂, map_fst_zip_map hvals₃, map_fst_zip_map hvals₄, hw.operands_eq,
      List.map_id, List.map_id, List.map_id]
  have hupdate : opvals₄ = Dict.empty.update ((w.xregs.map id).zip vals₁ ++
      (w.fregs.map id).zip vals₂ ++ (w.imms.map Prod.fst).zip vals₃ ++
        (w.symbols.map id).zip vals₄) := by
    rw [Dict.update_append, Dict.update_append, Dict.update_append, heq₄, heq₃, heq₂, heq₁]
  have hentries : opvals₄.entries = (w.xregs.map id).zip vals₁ ++ (w.fregs.map id).zip vals₂ ++
      (w.imms.map Prod.fst).zip vals₃ ++ (w.symbols.map id).zip vals₄ := by
    rw [hupdate, Dict.entries_update_of_nodup]
    · exact List.nil_append _
    · rw [Dict.keys_empty, List.nil_append, hnames]
      exact hnodup
  apply Ensures.bind (.lift (Q := fun word _ ↦ word.retInsts =
    printWord part w.label (w.insts.map (Text.subst opvals₄.entries))) fun word hword ↦
      retInsts_populate hword)
  intro word s₅ hword
  refine .pure ⟨opvals₄.entries, ?_, hword⟩
  rw [hentries]
  refine ⟨hnames, ?_, fun name hname ↦ ?_, fun imm himm ↦ ?_, fun name hname ↦ ?_⟩
  · have himms : ∀ (imm : Text × ℕ) val, (∃ bits signed, IsImm imm.1 bits signed) ∧ (∀ bits signed,
        IsImm imm.1 bits signed → ImmVal bits imm.2 signed val) → IsValue val := by
      rintro imm val ⟨⟨bits, signed, hkind⟩, h⟩
      exact .imm (h bits signed hkind)
    simp only [List.forall_mem_append]
    exact ⟨⟨⟨isValue_zip hvals₁ fun _ _ ↦ IsValue.xreg, isValue_zip hvals₂ fun _ _ ↦ IsValue.freg⟩,
      isValue_zip hvals₃ himms⟩, isValue_zip hvals₄ fun _ _ ↦ IsValue.symbol⟩
  · obtain ⟨val, hmem, hval⟩ := @exists_mem_zip _ _ id _ _ hvals₁ _ hname
    exact ⟨val, by simp only [List.mem_append]; exact .inl (.inl (.inl hmem)), hval⟩
  · obtain ⟨val, hmem, hval⟩ := @exists_mem_zip _ _ Prod.fst _ _ hvals₃ _ himm
    exact ⟨val, by simp only [List.mem_append]; exact .inl (.inr hmem), hval.2⟩
  · obtain ⟨val, hmem, hval⟩ := @exists_mem_zip _ _ id _ _ hvals₄ _ hname
    exact ⟨val, by simp only [List.mem_append]; exact .inr hmem, hval⟩

end Populate

/-- The value of an immediate in the assembly text, which may be left out. -/
def immValue (imm : Text) : Except PyError ℤ := if imm = [] then .ok 0 else Text.int 10 imm

/-- The registers of the templates of memory words. -/
def regNames : List (List Text × List Text) :=
  [(["xreg0".toList, "xreg1".toList], []), (["xreg1".toList], ["freg0".toList]),
    (["xreg0".toList, "xreg1".toList, "xreg2".toList], [])]

/-- A word that `get_word` makes for an access of `width` bytes, whose operands are all named. -/
structure MemTemplate (w : GenWord) (a : Access) (width : ℕ) : Prop where
  template : Template w
  tpe_ne : w.tpe ≠ .none
  insts_eq : w.insts = a.lines
  opcode : ∀ name ∈ operandNames, ¬ name <:+: a.opcode
  base_eq : a.base = "xreg1".toList
  symbol_eq : a.symbol = "symbol".toList
  imm : (a.step = none ∧ a.offset = "imm6".toList) ∨
    (a.step = some "imm6".toList ∧ a.offset = [])
  imms_eq : ∃ align, w.imms = [("imm6".toList, align)] ∧ alignMask (2 ^ 5 - 1) align + width ≤ 32
  symbols_eq : w.symbols = ["symbol".toList]
  regs : (w.xregs, w.fregs) ∈ regNames

/-- An instruction that reaches at most 32 bytes from the symbol. -/
structure Reaches (tpe : WordType) (part : Part) (access : Access) (width : ℕ) : Prop where
  base : IsXreg true access.base
  symbol : IsDataSymbol access.symbol ∨ (tpe ≠ .memW ∧ IsPartSymbol part access.symbol)
  offset : ∃ step offset : ℤ, immValue (access.step.getD []) = .ok step ∧
    immValue access.offset = .ok offset ∧ |step + offset| + width ≤ 32

/-- An immediate of six bits has five bits and a sign. -/
theorem exists_immValue_eq {bits align : ℕ} {signed : Bool} {val : Text}
    (h : ImmVal bits align signed val) :
    ∃ z : ℤ, immValue val = .ok z ∧ |z| ≤ alignMask (2 ^ bits - 1) align := by
  obtain ⟨sign, imm, hsign, rfl⟩ := h
  have hle : ((alignMask (2 ^ bits - 1) align &&& imm : ℕ) : ℤ) ≤ alignMask (2 ^ bits - 1) align :=
    Int.ofNat_le.mpr Nat.and_le_left
  have hne : ∀ sign : Text, sign ++ Text.dec (alignMask (2 ^ bits - 1) align &&& imm) ≠ [] := by
    intro sign hnil
    exact Text.dec_ne_nil _ (List.append_eq_nil_iff.mp hnil).2
  unfold immValue
  rw [if_neg (hne sign)]
  rcases hsign with rfl | ⟨-, rfl⟩
  · exact ⟨_, Text.int_dec _, by rwa [Int.abs_natCast]⟩
  · exact ⟨_, Text.int_neg_dec _, by rwa [abs_neg, Int.abs_natCast]⟩

namespace MemTemplate

variable {w : GenWord} {a : Access} {width : ℕ}

theorem operands_eq (h : MemTemplate w a width) :
    w.operands = w.xregs ++ w.fregs ++ ["imm6".toList, "symbol".toList] := by
  obtain ⟨align, himms, -⟩ := h.imms_eq
  rw [h.template.operands_eq, himms, h.symbols_eq, List.append_assoc (w.xregs ++ w.fregs)]
  rfl

theorem nodup_operands (h : MemTemplate w a width) : w.operands.Nodup := by
  have hnodup : ∀ regs ∈ regNames,
      (regs.1 ++ regs.2 ++ ["imm6".toList, "symbol".toList]).Nodup := by decide
  rw [h.operands_eq]
  exact hnodup _ h.regs

theorem operands_subset (h : MemTemplate w a width) : w.operands ⊆ operandNames := by
  have hsubset : ∀ regs ∈ regNames,
      regs.1 ++ regs.2 ++ ["imm6".toList, "symbol".toList] ⊆ operandNames := by decide
  rw [h.operands_eq]
  exact hsubset _ h.regs

theorem xreg1_mem (h : MemTemplate w a width) : "xreg1".toList ∈ w.xregs := by
  have hmem : ∀ regs ∈ regNames, "xreg1".toList ∈ regs.1 := by decide
  exact hmem _ h.regs

variable {part : Part} {entries : List (Text × Text)}

theorem mem_operandNames (h : MemTemplate w a width) (hfilled : FilledIn part w entries)
    {entry : Text × Text} (hentry : entry ∈ entries) : entry.1 ∈ operandNames := by
  apply h.operands_subset
  rw [← hfilled.names]
  exact List.mem_map_of_mem hentry

theorem fills (h : MemTemplate w a width) (hfilled : FilledIn part w entries) :
    Fills entries a.opcode := by
  have hseparates : ∀ c ∈ " ,()".toList, ∀ name ∈ operandNames, name ≠ [] ∧ c ∉ name := by decide
  have hla : ∀ name ∈ operandNames, ¬ name <:+: "la".toList := by decide
  have haddi : ∀ name ∈ operandNames, ¬ name <:+: "addi".toList := by decide
  constructor
  · intro c hc entry hentry
    exact hseparates c hc _ (h.mem_operandNames hfilled hentry)
  · simp only [List.forall_mem_cons]
    exact ⟨fun _ hentry ↦ h.opcode _ (h.mem_operandNames hfilled hentry),
      fun _ hentry ↦ hla _ (h.mem_operandNames hfilled hentry),
      fun _ hentry ↦ haddi _ (h.mem_operandNames hfilled hentry), nofun⟩

/-- A name that stands alone becomes its value. -/
theorem subst_name (h : MemTemplate w a width) (hfilled : FilledIn part w entries)
    {name val : Text} (hmem : (name, val) ∈ entries) : Text.subst entries name = val := by
  have hname := h.mem_operandNames hfilled hmem
  have hne : ∀ name ∈ operandNames, name ≠ [] := by decide
  have hwithin : ∀ name ∈ operandNames, ∀ name' ∈ operandNames, name' <:+: name → name' = name := by
    decide
  have hnodup : (entries.map Prod.fst).Nodup := by
    rw [hfilled.names]
    exact h.nodup_operands
  refine Text.subst_of_mem (hne _ hname) hmem (fun entry hentry ↦ ?_) fun entry hentry hin ↦ ?_
  · exact (hfilled.values _ hmem).not_isInfix (h.mem_operandNames hfilled hentry)
  · have hkey := hwithin name hname _ (h.mem_operandNames hfilled hentry) hin
    exact List.inj_on_of_nodup_map hnodup hentry hmem hkey

/-- Whatever is drawn, the populated word reaches at most 32 bytes from its symbol. -/
theorem ensures_access (h : MemTemplate w a width) {maxLabel : ℤ} {s : InstGenerator × Draws} :
    Ensures (populateWord w maxLabel part) s fun w' _ ↦ ∃ access : Access,
      access.opcode = a.opcode ∧ w'.retInsts = printWord part w.label access.lines ∧
        Reaches w.tpe part access width := by
  refine (ensures_filledIn h.template h.tpe_ne h.nodup_operands).mono
    fun w' _ ⟨entries, hfilled, hlines⟩ ↦ ⟨a.map (Text.subst entries), rfl, ?_, ?_, ?_, ?_⟩
  · rw [hlines, h.insts_eq, (h.fills hfilled).map_subst_lines]
  · obtain ⟨val, hmem, hval⟩ := hfilled.xregs _ h.xreg1_mem
    rw [Access.map, h.base_eq, h.subst_name hfilled hmem]
    exact hval
  · obtain ⟨val, hmem, hval⟩ := hfilled.symbols "symbol".toList (by simp [h.symbols_eq])
    rw [Access.map, h.symbol_eq, h.subst_name hfilled hmem]
    exact hval
  · obtain ⟨align, himms, hbound⟩ := h.imms_eq
    obtain ⟨val, hmem, hval⟩ := hfilled.imms ("imm6".toList, align) (by simp [himms])
    obtain ⟨z, hz, hle⟩ := exists_immValue_eq (hval 5 true isImm_imm6)
    dsimp only at hle
    have hsubst : Text.subst entries "imm6".toList = val := h.subst_name hfilled hmem
    have hwidth : |z| + (width : ℤ) ≤ 32 := by omega
    rcases h.imm with ⟨hstep, hoffset⟩ | ⟨hstep, hoffset⟩
    · refine ⟨0, z, ?_, ?_, by rwa [zero_add]⟩
      · rw [Access.map, hstep]
        rfl
      · rw [Access.map, hoffset, hsubst]
        exact hz
    · refine ⟨z, 0, ?_, ?_, by rwa [add_zero]⟩
      · rw [Access.map, hstep, Option.map_some, Option.getD_some, hsubst]
        exact hz
      · rw [Access.map, hoffset, Text.subst_nil]
        rfl

end MemTemplate

/-- The widths of loads and stores. -/
def memWidths : List (Text × ℕ) :=
  [("lb", 1), ("lbu", 1), ("lh", 2), ("lhu", 2), ("lw", 4), ("lwu", 4), ("ld", 8), ("flw", 4),
    ("sb", 1), ("sh", 2), ("sw", 4), ("sd", 8), ("fsw", 4)].map fun item ↦ (item.1.toList, item.2)

/-- The widths of `lr`, `sc` and the AMOs. -/
def atomicWidths : List (Text × ℕ) :=
  (rv32aRtype.keys.map fun opcode ↦ (opcode, 4)) ++ rv64aRtype.keys.map fun opcode ↦ (opcode, 8)

/-- How many bytes an opcode accesses; the other opcodes do not access memory. -/
def accessWidth (opcode : Text) : Option ℕ := (memWidths ++ atomicWidths).lookup opcode

/-- A load or store, with its immediate in the instruction. -/
def memAccess (opcode : Text) (regs : List Text) : Access where
  opcode
  base := "xreg1".toList
  symbol := "symbol".toList
  step := none
  regs
  offset := "imm6".toList

/-- An atomic access, with its immediate added to the base before. -/
def atomicAccess (opcode : Text) (regs : List Text) : Access where
  opcode
  base := "xreg1".toList
  symbol := "symbol".toList
  step := some "imm6".toList
  regs
  offset := []

/-- The operands before the address. -/
def regShapes : List (List Text) :=
  [["xreg0"], ["freg0"], ["xreg0", "xreg2"], ["xreg0", "xreg1"]].map (List.map String.toList)

/-- The alignment of the immediate of an atomic word. -/
def atomicAlign (opcode : Text) : ℕ := if opcode ∈ rv64.keys then 8 else 4

/-- The entry of a load or store. -/
structure IsMemEntry (item : Text × ℕ) (e : OpcodeEntry) : Prop where
  asm : ∃ regs ∈ regShapes, e.asm = (memAccess item.1 regs).instLine
  imms : ∃ align ∈ [1, 2, 4, 8], e.imms = [("imm6".toList, align)] ∧
    alignMask (2 ^ 5 - 1) align + item.2 ≤ 32
  symbols : e.symbols = []
  regs : (e.xregs, e.fregs) ∈ regNames

/-- The entry of an atomic access. -/
structure IsAtomicEntry (item : Text × ℕ) (e : OpcodeEntry) : Prop where
  asm : ∃ regs ∈ regShapes, e.asm = (atomicAccess item.1 regs).instLine
  imms : e.imms = [] ∧ alignMask (2 ^ 5 - 1) (atomicAlign item.1) + item.2 ≤ 32
  symbols : e.symbols = []
  regs : (e.xregs, e.fregs) ∈ regNames

section Entries

variable {item : Text × ℕ} {e : OpcodeEntry}

instance : Decidable (IsMemEntry item e) :=
  decidable_of_iff ((∃ regs ∈ regShapes, e.asm = (memAccess item.1 regs).instLine) ∧
    (∃ align ∈ [1, 2, 4, 8], e.imms = [("imm6".toList, align)] ∧
      alignMask (2 ^ 5 - 1) align + item.2 ≤ 32) ∧ e.symbols = [] ∧ (e.xregs, e.fregs) ∈ regNames)
    ⟨fun h ↦ ⟨h.1, h.2.1, h.2.2.1, h.2.2.2⟩, fun h ↦ ⟨h.asm, h.imms, h.symbols, h.regs⟩⟩

instance : Decidable (IsAtomicEntry item e) :=
  decidable_of_iff ((∃ regs ∈ regShapes, e.asm = (atomicAccess item.1 regs).instLine) ∧
    (e.imms = [] ∧ alignMask (2 ^ 5 - 1) (atomicAlign item.1) + item.2 ≤ 32) ∧ e.symbols = [] ∧
      (e.xregs, e.fregs) ∈ regNames)
    ⟨fun h ↦ ⟨h.1, h.2.1, h.2.2.1, h.2.2.2⟩, fun h ↦ ⟨h.asm, h.imms, h.symbols, h.regs⟩⟩

theorem isMemEntry (hitem : item ∈ memWidths) (hentry : (item.1, e) ∈ opcodesMap) :
    IsMemEntry item e := by
  have hall : ∀ table ∈ baseTables, ∀ entry ∈ table, ∀ item ∈ memWidths, entry.1 = item.1 →
      IsMemEntry item entry.2 := by
    decide
  obtain ⟨table, htable, hmem⟩ := exists_baseTable hentry
  exact hall table htable _ hmem item hitem rfl

theorem isAtomicEntry (hitem : item ∈ atomicWidths) (hentry : (item.1, e) ∈ opcodesMap) :
    IsAtomicEntry item e := by
  have hall : ∀ table ∈ baseTables, ∀ entry ∈ table, ∀ item ∈ atomicWidths, entry.1 = item.1 →
      IsAtomicEntry item entry.2 := by
    decide +kernel
  obtain ⟨table, htable, hmem⟩ := exists_baseTable hentry
  exact hall table htable _ hmem item hitem rfl

end Entries

section WordFunctions

variable {opcode : Text} {e : OpcodeEntry} {draws draws' : Draws}
  {r : WordType × List Text × OpcodeEntry}

/-- The function of an opcode is that of the first entry with the opcode. -/
theorem wordFunction_eq {before after : List (List Text × WordFunction)}
    {entry : List Text × WordFunction} (hsplit : opcodesWords = before ++ entry :: after)
    (hbefore : ∀ opcodes ∈ before.map Prod.fst, opcode ∉ opcodes) (hmem : opcode ∈ entry.1) :
    wordFunction opcode = entry.2 := by
  have hfind : (opcodesWords.find? fun entry ↦ decide (opcode ∈ entry.1)) = some entry := by
    rw [List.find?_eq_some_iff_append]
    refine ⟨decide_eq_true hmem, before, after, hsplit, fun other hother ↦ ?_⟩
    simpa using hbefore _ (List.mem_map_of_mem hother)
  rw [wordFunction, hfind]

theorem wordFunction_of_memWidths (h : opcode ∈ memWidths.map Prod.fst) :
    wordFunction opcode = wordMemR ∨ wordFunction opcode = wordMemW := by
  have hbefore : ∀ opcode ∈ memWidths.map Prod.fst,
      ∀ opcodes ∈ (opcodesWords.take 4).map Prod.fst, opcode ∉ opcodes := by decide
  have hmem : ∀ opcode ∈ memWidths.map Prod.fst, opcode ∈ (opcodesWords[4]).1 ∨
      (opcode ∉ (opcodesWords[4]).1 ∧ opcode ∈ (opcodesWords[5]).1) := by decide
  rcases hmem opcode h with hread | ⟨hread, hwrite⟩
  · have hsplit : opcodesWords = opcodesWords.take 4 ++ opcodesWords[4] :: opcodesWords.drop 5 := rfl
    exact .inl (wordFunction_eq hsplit (hbefore opcode h) hread)
  · have hsplit : opcodesWords = opcodesWords.take 5 ++ opcodesWords[5] :: opcodesWords.drop 6 := rfl
    refine .inr (wordFunction_eq hsplit (fun opcodes hopcodes ↦ ?_) hwrite)
    have htake : (opcodesWords.take 5).map Prod.fst =
        (opcodesWords.take 4).map Prod.fst ++ [(opcodesWords[4]).1] := rfl
    rw [htake] at hopcodes
    rcases List.mem_append.mp hopcodes with hopcodes | hopcodes
    · exact hbefore opcode h opcodes hopcodes
    · rw [List.mem_singleton.mp hopcodes]
      exact hread

theorem wordFunction_of_atomicWidths (h : opcode ∈ atomicWidths.map Prod.fst) :
    wordFunction opcode = wordAtomic := by
  have hbefore : ∀ opcode ∈ atomicWidths.map Prod.fst,
      ∀ opcodes ∈ (opcodesWords.take 6).map Prod.fst, opcode ∉ opcodes := by decide
  have hmem : ∀ opcode ∈ atomicWidths.map Prod.fst, opcode ∈ (opcodesWords[6]).1 := by
    decide
  have hsplit : opcodesWords = opcodesWords.take 6 ++ opcodesWords[6] :: opcodesWords.drop 7 := rfl
  exact wordFunction_eq hsplit (hbefore opcode h) (hmem opcode h)

/-- The first instruction of the address mask. -/
def maskInst : Text := "lui xreg2, 0xffe00".toList

/-- The mask is made of two instructions, or there is none. -/
theorem maskAddr_eq_ok {mask : List Text × List Text} (h : maskAddr draws = .ok (mask, draws')) :
    maskInst ∈ mask.1 ∨ mask = ([], []) := by
  rw [maskAddr, bind_eq] at h
  obtain ⟨⟨rand, draws₁⟩, -, h⟩ := bind_eq_ok.mp h
  dsimp only at h
  split at h
  · obtain ⟨rfl, -⟩ := Prod.mk.inj (Except.ok.inj h)
    exact .inl List.mem_cons_self
  · obtain ⟨rfl, -⟩ := Prod.mk.inj (Except.ok.inj h)
    exact .inr rfl

theorem wordMem_eq_ok {tpe : WordType} (h : wordMem tpe opcode e draws = .ok (r, draws'))
    (hmask : maskInst ∉ r.2.1) :
    r = (tpe, ["la xreg1, symbol".toList, e.asm], addSymbol (addXregs e [])) := by
  obtain ⟨⟨mask, draws₁⟩, hmaskAddr, h⟩ := bind_eq_ok.mp h
  obtain ⟨rfl, -⟩ := Prod.mk.inj (Except.ok.inj h)
  rcases maskAddr_eq_ok hmaskAddr with hmem | rfl
  · exact absurd (List.mem_append_left _ (List.mem_append_right _ hmem)) hmask
  · rfl

theorem wordAtomic_eq_ok (h : wordAtomic opcode e draws = .ok (r, draws'))
    (hmask : maskInst ∉ r.2.1) :
    r = (.memW, ["la xreg1, symbol".toList, "addi xreg1, xreg1, imm6".toList, e.asm],
      addSymbol (addImms (addXregs e []) [("imm6".toList, atomicAlign opcode)])) := by
  obtain ⟨⟨mask, draws₁⟩, hmaskAddr, h⟩ := bind_eq_ok.mp h
  obtain ⟨rfl, -⟩ := Prod.mk.inj (Except.ok.inj h)
  rcases maskAddr_eq_ok hmaskAddr with hmem | rfl
  · exact absurd (List.mem_append_left _ (List.mem_append_right _ hmem)) hmask
  · rfl

variable {part : Part} {s s' : InstGenerator × Draws} {w : GenWord} {rest : Draws}

/-- `get_word` calls the function of the opcode that it chooses. -/
theorem ensures_getWord_of_choice
    (hopcode : Draws.choice (partOpcodes part) s.2 = .ok (opcode, rest)) :
    Ensures (getWord part) s fun w _ ↦ ∃ entry r draws', opcodesMap.lookup opcode = some entry ∧
      wordFunction opcode opcode entry rest = .ok (r, draws') ∧
      w = GenWord.new (s.1.num part) r.2.1 r.1 r.2.2 := by
  have hchoice : Ensures (onSnd (Draws.choice (partOpcodes part))) s
      fun opcode' s' ↦ opcode' = opcode ∧ s' = (s.1, rest) := by
    refine .onSnd ⟨fun r hr ↦ ?_⟩
    rw [hopcode] at hr
    have heq := Except.ok.inj hr
    rw [← heq]
    exact ⟨rfl, rfl⟩
  apply Ensures.bind hchoice
  intro opcode' s' ⟨hopcode', hs'⟩
  rw [hopcode', hs']
  apply Ensures.bind (.read (Q := fun label s' ↦ label = s.1.num part ∧ s' = (s.1, rest)) ⟨rfl, rfl⟩)
  intro label s₁ ⟨hlabel, hs₁⟩
  rw [hlabel, hs₁]
  apply Ensures.bind (.write (Q := fun _ s' ↦ s'.2 = rest) rfl)
  intro _ s₂ hs₂
  cases hlookup : opcodesMap.lookup opcode with
  | none => exact .lift nofun
  | some entry =>
    apply Ensures.bind (Q := fun r _ ↦ ∃ draws', wordFunction opcode opcode entry rest =
      .ok (r, draws'))
    · refine .onSnd ⟨fun r hr ↦ ⟨r.2, ?_⟩⟩
      rw [← hs₂]
      exact hr
    · rintro r s₃ ⟨draws', hr⟩
      exact .pure ⟨entry, r, draws', rfl, hr, rfl⟩

end WordFunctions

section Accesses

variable {opcode : Text} {width : ℕ} {part : Part} {s s₁ : InstGenerator × Draws} {w : GenWord}
  {rest : Draws}

theorem not_infix_opcode (h : accessWidth opcode = some width) :
    ∀ name ∈ operandNames, ¬ name <:+: opcode := by
  have hall : ∀ item ∈ memWidths ++ atomicWidths, ∀ name ∈ operandNames, ¬ name <:+: item.1 := by
    decide
  obtain ⟨before, after, heq, -⟩ := List.lookup_eq_some_iff.mp h
  refine hall (opcode, width) ?_
  rw [heq]
  exact List.mem_append_right _ List.mem_cons_self

/-- What `get_word` makes for an opcode that accesses memory, without the address mask. -/
theorem exists_memTemplate (h : getWord part s = .ok (w, s₁))
    (hopcode : Draws.choice (partOpcodes part) s.2 = .ok (opcode, rest))
    (hwidth : accessWidth opcode = some width) (hmask : maskInst ∉ w.insts) :
    ∃ a : Access, a.opcode = opcode ∧ MemTemplate w a width := by
  have htemplate : Template w := by
    have hgot := @returns_getWord _ s stable_true True.intro part
    exact (hgot.ensures.of_eq_ok (w, s₁) h).1.template
  obtain ⟨e, r, draws', hlookup, hr, hw⟩ :=
    (ensures_getWord_of_choice hopcode).of_eq_ok (w, s₁) h
  dsimp only at hw
  have hr_mask : maskInst ∉ r.2.1 := by
    rw [hw] at hmask
    exact hmask
  have hwithin := not_infix_opcode hwidth
  have hxregs : ((addXregs e []).xregs, e.fregs) = (e.xregs, e.fregs) := by
    rw [addXregs, List.append_nil]
  obtain ⟨before, after, heq, -⟩ := List.lookup_eq_some_iff.mp hwidth
  have hitem : (opcode, width) ∈ memWidths ++ atomicWidths := by
    rw [heq]
    exact List.mem_append_right _ List.mem_cons_self
  have hentry : (opcode, e) ∈ opcodesMap := OpcodeTable.mem_of_lookup_eq hlookup
  rcases List.mem_append.mp hitem with hmem | hatomic
  · obtain ⟨⟨regs, -, hasm⟩, ⟨align, -, himms, hbound⟩, hsymbols, hregs⟩ := isMemEntry hmem hentry
    have hword : ∃ tpe, tpe ≠ .none ∧ wordMem tpe opcode e rest = .ok (r, draws') := by
      rcases wordFunction_of_memWidths (List.mem_map_of_mem (f := Prod.fst) hmem) with heq | heq
      · exact ⟨.memR, nofun, (congrFun (congrFun (congrFun heq opcode) e) rest).symm.trans hr⟩
      · exact ⟨.memW, nofun, (congrFun (congrFun (congrFun heq opcode) e) rest).symm.trans hr⟩
    obtain ⟨tpe, htpe, hword⟩ := hword
    have hr_eq := wordMem_eq_ok hword hr_mask
    rw [hr_eq] at hw
    refine ⟨memAccess opcode regs, rfl, htemplate, ?_, ?_, hwithin, rfl, rfl, .inl ⟨rfl, rfl⟩,
      ⟨align, ?_, hbound⟩, ?_, ?_⟩
    · rw [hw]
      exact htpe
    · rw [hw, Access.lines, ← hasm]
      rfl
    · rw [hw]
      exact himms
    · rw [hw]
      exact congrArg (· ++ ["symbol".toList]) hsymbols
    · rw [hw]
      exact hxregs ▸ hregs
  · obtain ⟨⟨regs, -, hasm⟩, ⟨himms, hbound⟩, hsymbols, hregs⟩ := isAtomicEntry hatomic hentry
    rw [wordFunction_of_atomicWidths (List.mem_map_of_mem (f := Prod.fst) hatomic)] at hr
    have hr_eq := wordAtomic_eq_ok hr hr_mask
    rw [hr_eq] at hw
    refine ⟨atomicAccess opcode regs, rfl, htemplate, ?_, ?_, hwithin, rfl, rfl, .inr ⟨rfl, rfl⟩,
      ⟨atomicAlign opcode, ?_, hbound⟩, ?_, ?_⟩
    · rw [hw]
      exact nofun
    · rw [hw, Access.lines, ← hasm]
      rfl
    · rw [hw]
      exact congrArg (· ++ [("imm6".toList, atomicAlign opcode)]) himms
    · rw [hw]
      exact congrArg (· ++ ["symbol".toList]) hsymbols
    · rw [hw]
      exact hxregs ▸ hregs

end Accesses

open Execution.Preprocessor Execution.DataImage Execution.DataLabels

/-- The lines of section `n`, where `process` puts them and what the assembler makes of them. -/
structure SectionLines (data : List ℤ) (S n : ℕ) (lines : List DataLine) : Prop where
  emitted : emitSection data S n = .ok lines
  inserted : ∀ line : Text,
    (∀ m < 6, Marks (Execution.SignatureFile.dataStartSymbol m) line ↔ m = n) →
      dataInsertion data S 6 line = .ok (lines.map DataLine.text)
  labels : ∀ start, labelsFrom start lines = (List.range (S / 2 - 4)).map fun k ↦
    (dataLabel n k ++ ":".toList, start + 32 + 16 * k)
  size : ∀ start, endFrom start lines = start + 8 * S

/-- Some section has the label `symbol`. -/
def Defined (data : List ℤ) (S : ℕ) (symbol : Text) : Prop :=
  ∃ n < 6, ∃ lines, emitSection data S n = .ok lines ∧
    ∀ start, ∃ addr, (symbol ++ ":".toList, addr) ∈ labelsFrom start lines

/-- The bytes that are accessed lie in the section that has the symbol. -/
def Inside (data : List ℤ) (S : ℕ) (access : Access) (width : ℕ) : Prop :=
  ∃ step offset : ℤ, immValue (access.step.getD []) = .ok step ∧
    immValue access.offset = .ok offset ∧
      ∀ n < 6, ∀ lines, emitSection data S n = .ok lines → ∀ start addr,
        (access.symbol ++ ":".toList, addr) ∈ labelsFrom start lines →
          (start : ℤ) ≤ addr + step + offset ∧
            addr + step + offset + width ≤ endFrom start lines

section Sections

variable {data : List ℤ} {S n : ℕ} {symbol : Text} {part : Part}

theorem exists_sectionLines (hsize : SectionSize data S) (hS : 16 ≤ S) (hn : n < 6) :
    ∃ lines, SectionLines data S n lines := by
  have hemit := emitSection_eq_ok hsize.even (hsize.le_length hn)
  exact ⟨_, hemit, fun line hline ↦ dataInsertion_eq_ok hn hline hemit,
    fun start ↦ (labelsFrom_emitSection hsize hS hn hemit start).1,
    fun start ↦ (labelsFrom_emitSection hsize hS hn hemit start).2⟩

/-- The labels that are drawn are those of sections of 64 words. -/
theorem defined_of_isDataSymbol (hsize : SectionSize data 64) (h : IsDataSymbol symbol) :
    Defined data 64 symbol := by
  obtain ⟨n, k, hn, hk, rfl⟩ := h
  obtain ⟨lines, hlines⟩ := exists_sectionLines hsize (by decide) (Nat.lt_succ_of_le hn)
  refine ⟨n, Nat.lt_succ_of_le hn, lines, hlines.emitted, fun start ↦ ⟨start + 32 + 16 * k, ?_⟩⟩
  rw [hlines.labels]
  exact List.mem_map.mpr ⟨k, List.mem_range.mpr (Nat.lt_succ_of_le hk), rfl⟩

theorem isPrefix_dataSymbol (h : IsDataSymbol symbol) : "d_".toList <+: symbol := by
  obtain ⟨n, k, -, -, rfl⟩ := h
  rw [List.append_assoc, List.append_assoc]
  exact List.prefix_append _ _

theorem isDataSymbol_of_isPrefix (hdata : "d_".toList <+: symbol)
    (h : IsDataSymbol symbol ∨ IsPartSymbol part symbol) : IsDataSymbol symbol := by
  rcases h with h | ⟨num, rfl⟩
  · exact h
  · have hpart : ∀ rest, ¬ "d_".toList <+: part.text ++ rest := by
      intro rest
      cases part <;> simp [Part.text]
    exact absurd hdata (hpart _)

/-- Every label has 32 bytes of its section before it and 32 bytes behind it. -/
theorem inside_of_reaches (hsize : SectionSize data S) (hS : 16 ≤ S) {tpe : WordType}
    {access : Access} {width : ℕ} (h : Reaches tpe part access width) : Inside data S access width := by
  obtain ⟨step, offset, hstep, hoffset, hle⟩ := h.offset
  refine ⟨step, offset, hstep, hoffset, fun n hn lines hlines start addr hmem ↦ ?_⟩
  obtain ⟨hlabels, hend⟩ := labelsFrom_emitSection hsize hS hn hlines start
  rw [hlabels] at hmem
  obtain ⟨k, hk, heq⟩ := List.mem_map.mp hmem
  have haddr : start + 32 + 16 * k = addr := (Prod.mk.inj heq).2
  have hk := List.mem_range.mp hk
  have hreach := abs_le.mp (show |step + offset| ≤ 32 - (width : ℤ) by omega)
  rw [hend]
  omega

end Sections

/-- The data sections, the labels that are drawn for them and the accesses to these labels. -/
theorem data_accesses_inside {data : List ℤ} {S : ℕ} (hsize : SectionSize data S) (hS : 16 ≤ S) :
    (∀ n < 6, ∃ lines, SectionLines data S n lines) ∧
    (S = 64 → ∀ (tpe : WordType) (myLabel maxLabel : ℤ) (part : Part) (draws draws' : Draws)
      (symbol : Text), getSymbol tpe myLabel maxLabel part draws = .ok (symbol, draws') →
        "d_".toList <+: symbol → Defined data S symbol) ∧
    (S = 64 → ∀ (part : Part) (s s₁ s₂ s₃ : InstGenerator × Draws) (opcode : Text) (rest : Draws)
      (width : ℕ) (w w' : GenWord) (maxLabel : ℤ),
        Draws.choice (partOpcodes part) s.2 = .ok (opcode, rest) →
        accessWidth opcode = some width → getWord part s = .ok (w, s₁) → maskInst ∉ w.insts →
        populateWord w maxLabel part s₂ = .ok (w', s₃) →
        ∃ access : Access, access.opcode = opcode ∧
          w'.retInsts = printWord part w.label access.lines ∧ IsXreg true access.base ∧
          (w.tpe = .memW → "d_".toList <+: access.symbol) ∧
          ("d_".toList <+: access.symbol →
            Defined data S access.symbol ∧ Inside data S access width)) := by
  refine ⟨fun n hn ↦ exists_sectionLines hsize hS hn, ?symbols, ?accesses⟩
  case symbols =>
    rintro rfl tpe myLabel maxLabel part draws draws' symbol hget hdata
    have hsymbol := ensures_getSymbol.of_eq_ok (symbol, draws') hget
    exact defined_of_isDataSymbol hsize (isDataSymbol_of_isPrefix hdata (hsymbol.imp_right And.right))
  case accesses =>
    rintro rfl part s s₁ s₂ s₃ opcode rest width w w' maxLabel hopcode hwidth hget hmask hpopulate
    obtain ⟨a, ha, htemplate⟩ := exists_memTemplate hget hopcode hwidth hmask
    obtain ⟨access, haccess, hlines, hreaches⟩ :=
      htemplate.ensures_access.of_eq_ok (w', s₃) hpopulate
    refine ⟨access, haccess.trans ha, hlines, hreaches.base, fun htpe ↦ ?_, fun hdata ↦ ⟨?_, ?_⟩⟩
    · rcases hreaches.symbol with hsymbol | ⟨hne, -⟩
      · exact isPrefix_dataSymbol hsymbol
      · exact absurd htpe hne
    · have hsymbol := hreaches.symbol.imp_right And.right
      exact defined_of_isDataSymbol hsize (isDataSymbol_of_isPrefix hdata hsymbol)
    · exact inside_of_reaches hsize hS hreaches

/-- The outcomes with which the first word of a test stores a double word. -/
def storeDraws : Draws := fun _ ↦ 118 * 70000000000000 + 44

theorem data_accesses_inside_sd : ∃ (w w' : GenWord) (s₁ s₃ : InstGenerator × Draws)
    (access : Access), getWord .mainPart (InstGenerator.start, storeDraws) = .ok (w, s₁) ∧
      populateWord w 1 .mainPart s₁ = .ok (w', s₃) ∧ access.opcode = "sd".toList ∧
      w'.retInsts = printWord .mainPart w.label access.lines ∧
      Defined (List.replicate 384 0) 64 access.symbol ∧
      Inside (List.replicate 384 0) 64 access 8 := by
  have hsize : SectionSize (List.replicate 384 0) 64 := ⟨⟨6, rfl⟩, by decide, List.length_replicate⟩
  have hstable : Stable fun _ : Draws ↦ True := fun _ _ ↦ True.intro
  obtain ⟨⟨w, s₁⟩, hget, hgot, -⟩ := returns_getWord
    (s := (InstGenerator.start, storeDraws)) hstable True.intro .mainPart
  have hlabel : w.label = 0 := hgot.label_eq
  have hlt : w.label < 1 := by
    rw [hlabel]
    decide
  obtain ⟨⟨w', s₃⟩, hpopulate, -⟩ := returns_populateWord (s := s₁) hstable True.intro hgot.template
    zero_le_one (fun _ ↦ hlt) .mainPart
  obtain ⟨hopcode, hword⟩ : (partOpcodes .mainPart)[storeDraws 0 %
      (partOpcodes .mainPart).length]? = some "sd".toList ∧
      ((getWord .mainPart (InstGenerator.start, storeDraws)).toOption.map fun r ↦
        decide (r.1.tpe = .memW ∧ maskInst ∉ r.1.insts)) = some true := by
    decide +kernel
  rw [hget] at hword
  obtain ⟨htpe, hmask⟩ := of_decide_eq_true (Option.some.inj hword)
  have hchoice : Draws.choice (partOpcodes .mainPart) storeDraws =
      .ok ("sd".toList, storeDraws.rest) := by
    rw [Draws.choice, hopcode]
  obtain ⟨access, hopcode, hlines, -, hdata, hinside⟩ :=
    (data_accesses_inside hsize (by decide)).2.2 rfl .mainPart (InstGenerator.start, storeDraws) s₁
      s₁ s₃ "sd".toList storeDraws.rest 8 w w' 1 hchoice (by decide) hget hmask hpopulate
  obtain ⟨hdefined, hinside⟩ := hinside (hdata htpe)
  exact ⟨w, w', s₁, s₃, access, hget, hpopulate, hopcode, hlines, hdefined, hinside⟩

end ProcessorFuzz.Mutation
