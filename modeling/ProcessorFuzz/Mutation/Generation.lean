import ProcessorFuzz.Mutation.DataSeeds
import ProcessorFuzz.Mutation.Operands

/-!
# Generation never fails

The templates that `get_word` builds can be filled in: they have instructions, their operands are
those of their four kinds, and their immediates are named and aligned as `_get_imm` expects. In the
phase `GENERATION` the label of a word is its place, so that there is always a label behind it, and
`get` returns whatever is drawn.
-/

namespace ProcessorFuzz.Mutation

open Library Library.Stateful RiscvDefinitions Generating OpcodeEntry

/-- The immediates of the templates, with their alignments. -/
def usualImms : List (Text × ℕ) :=
  [("imm6", 1), ("imm6", 2), ("imm6", 4), ("imm6", 8), ("imm12", 1), ("uimm1", 1), ("uimm5", 1),
    ("uimm6", 1), ("uimm6", 8), ("uimm20", 1)].map fun imm ↦ (imm.1.toList, imm.2)

theorem isImm_imm6 : IsImm "imm6".toList 5 true :=
  .signed (by decide) (by decide +kernel)

theorem exists_isImm {imm : Text × ℕ} (h : imm ∈ usualImms) :
    (∃ bits signed, IsImm imm.1 bits signed) ∧ imm.2 &&& (imm.2 - 1) = 0 := by
  have halign : ∀ imm ∈ usualImms, imm.2 &&& (imm.2 - 1) = 0 := by decide
  have hname : ∀ name ∈ usualImms.map Prod.fst, name ∈
      ["imm6", "imm12", "uimm1", "uimm5", "uimm6", "uimm20"].map String.toList := by decide
  refine ⟨?_, halign imm h⟩
  have hmem := hname imm.1 (List.mem_map_of_mem h)
  simp only [List.map_cons, List.map_nil, List.mem_cons, List.not_mem_nil, or_false] at hmem
  rcases hmem with heq | heq | heq | heq | heq | heq <;> rw [heq]
  · exact ⟨5, true, isImm_imm6⟩
  · exact ⟨11, true, .signed (by decide) (by decide +kernel)⟩
  · exact ⟨1, false, .unsigned (by decide) (by decide +kernel)⟩
  · exact ⟨5, false, .unsigned (by decide) (by decide +kernel)⟩
  · exact ⟨6, false, .unsigned (by decide) (by decide +kernel)⟩
  · exact ⟨20, false, .unsigned (by decide) (by decide +kernel)⟩

/-- An entry whose syntax is one line and whose immediates are usual ones. -/
structure UsualEntry (e : OpcodeEntry) : Prop where
  asm : Text.IsLineText e.asm
  imms : ∀ imm ∈ e.imms, imm ∈ usualImms

/-- The tables from which the tables of the source are put together. -/
def baseTables : List OpcodeTable :=
  [trapRet, rv32iRtype, rv32iItype, rv32iBtype, rv32iStype, rv32iJtype, rv32iUtype, rv64iItype,
    rv64iStype, rv32aRtype, rv64aRtype, rv32fRtype, rv32fR4type, rv32fItype, rv32fStype, rv64fRtype,
    rvZifencei, rvZicsr, rv32mRtype, rv64mRtype]

theorem exists_baseTable {item : Text × OpcodeEntry} (h : item ∈ opcodesMap) :
    ∃ table ∈ baseTables, item ∈ table := by
  have hupdate : ∀ {tables : List OpcodeTable}, item ∈ tables.foldl OpcodeTable.update [] →
      ∃ table ∈ tables, item ∈ table := fun h ↦
    (OpcodeTable.mem_foldl_update h).resolve_left List.not_mem_nil
  have hsub : ∀ {tables : List OpcodeTable}, item ∈ tables.foldl OpcodeTable.update [] →
      tables ⊆ baseTables → ∃ table ∈ baseTables, item ∈ table := by
    intro tables hitem htables
    obtain ⟨table, htable, hitem⟩ := hupdate hitem
    exact ⟨table, htables htable, hitem⟩
  have htables : ∀ table ∈ [trapRet, rv32i, rv64i, rv32a, rv64a, rv32f, rv64f, rvZifencei, rvZicsr,
      rv32m, rv64m], item ∈ table → ∃ table ∈ baseTables, item ∈ table := by
    simp only [List.forall_mem_cons]
    exact ⟨fun h ↦ ⟨trapRet, by simp [baseTables], h⟩,
      fun h ↦ hsub h (by simp [baseTables]), fun h ↦ hsub h (by simp [baseTables]),
      fun h ↦ ⟨rv32aRtype, by simp [baseTables], h⟩, fun h ↦ ⟨rv64aRtype, by simp [baseTables], h⟩,
      fun h ↦ hsub h (by simp [baseTables]), fun h ↦ ⟨rv64fRtype, by simp [baseTables], h⟩,
      fun h ↦ ⟨rvZifencei, by simp [baseTables], h⟩, fun h ↦ ⟨rvZicsr, by simp [baseTables], h⟩,
      fun h ↦ ⟨rv32mRtype, by simp [baseTables], h⟩, fun h ↦ ⟨rv64mRtype, by simp [baseTables], h⟩,
      nofun⟩
  obtain ⟨table, htable, hitem⟩ := hupdate h
  exact htables table htable hitem

theorem usualEntry_opcodesMap {item : Text × OpcodeEntry} (h : item ∈ opcodesMap) :
    UsualEntry item.2 := by
  have hasm : ∀ table ∈ baseTables, ∀ item ∈ table, Text.IsLineText item.2.asm := by
    decide +kernel
  have himms : ∀ table ∈ baseTables, ∀ item ∈ table, ∀ imm ∈ item.2.imms, imm ∈ usualImms := by
    decide +kernel
  obtain ⟨table, htable, hitem⟩ := exists_baseTable h
  exact ⟨hasm table htable item hitem, himms table htable item hitem⟩

/-- Lines of instructions. -/
def AreLines (insts : List Text) : Prop := ∀ inst ∈ insts, Text.IsLineText inst

namespace AreLines

variable {inst : Text} {insts insts' : List Text}

theorem nil : AreLines [] := nofun

theorem cons (h : Text.IsLineText inst) (hs : AreLines insts) : AreLines (inst :: insts) :=
  List.forall_mem_cons.mpr ⟨h, hs⟩

theorem append (h : AreLines insts) (h' : AreLines insts') : AreLines (insts ++ insts') :=
  List.forall_mem_append.mpr ⟨h, h'⟩

theorem singleton (h : Text.IsLineText inst) : AreLines [inst] := .cons h .nil

end AreLines

namespace UsualEntry

variable {e : OpcodeEntry}

theorem addXregs (h : UsualEntry e) (xregs : List Text) :
    UsualEntry (OpcodeEntry.addXregs e xregs) := ⟨h.asm, h.imms⟩

theorem addSymbol (h : UsualEntry e) : UsualEntry (OpcodeEntry.addSymbol e) := ⟨h.asm, h.imms⟩

theorem addImms (h : UsualEntry e) {imms : List (Text × ℕ)} (himms : ∀ imm ∈ imms, imm ∈ usualImms) :
    UsualEntry (OpcodeEntry.addImms e imms) :=
  ⟨h.asm, List.forall_mem_append.mpr ⟨h.imms, himms⟩⟩

theorem format (h : UsualEntry e) {arg : Text} (harg : Text.IsLineText arg) :
    Text.IsLineText (Mutation.format e.asm arg) := h.asm.replace harg

end UsualEntry

section Words

variable {P : Draws → Prop} {draws : Draws} {e : OpcodeEntry}

/-- What a word function makes of an entry: some lines of instructions, and usual immediates. -/
structure UsualWord (r : WordType × List Text × OpcodeEntry) : Prop where
  insts_ne_nil : r.2.1 ≠ []
  insts_lines : AreLines r.2.1
  entry : UsualEntry r.2.2

theorem isLineText_name (csr : CsrName) : Text.IsLineText csr.name := by
  cases csr <;> decide

theorem returns_maskAddr (hP : Stable P) (h : P draws) :
    Returns maskAddr draws fun r draws' ↦ AreLines r.1 ∧ P draws' := by
  apply Returns.bind (.random hP h)
  intro rand draws₁ ⟨_, h₁⟩
  split
  · exact .pure ⟨.cons (by decide) (.singleton (by decide)), h₁⟩
  · exact .pure ⟨.nil, h₁⟩

theorem isLineText_bitsReg (i : ℕ) : Text.IsLineText (bitsReg i) :=
  .append (by decide) (Text.isLineText_dec (i + 2))

theorem returns_setBits (hP : Stable P) (h : P draws) (is : List ℕ) :
    Returns (setBits is) draws fun r draws' ↦ AreLines r.1 ∧ P draws' := by
  induction is generalizing draws with
  | nil => exact .pure ⟨.nil, h⟩
  | cons i is ih =>
    apply Returns.bind (.choice (by simp) hP h)
    intro setBits draws₁ ⟨_, h₁⟩
    apply Returns.bind (.randint (by decide) hP h₁)
    intro offset draws₂ ⟨_, h₂⟩
    apply Returns.bind (ih h₂)
    intro ⟨insts, xregs⟩ draws₃ ⟨hinsts, h₃⟩
    have hreg := isLineText_bitsReg i
    have hcomma : Text.IsLineText ", ".toList := by decide
    refine .pure ⟨.append ?_ hinsts, h₃⟩
    refine .cons ?_ (.cons ?_ (.singleton ?_))
    · exact (((Text.IsLineText.append (by decide) hreg).append (by decide)).append
        (Text.isLineText_dec setBits))
    · exact (((((Text.IsLineText.append (by decide) hreg).append hcomma).append hreg).append
        hcomma).append (Text.isLineText_str offset))
    · exact .append (by decide) hreg

theorem returns_wordMem (hP : Stable P) (h : P draws) (he : UsualEntry e) (tpe : WordType)
    (opcode : Text) :
    Returns (wordMem tpe opcode e) draws fun r draws' ↦ UsualWord r ∧ P draws' := by
  apply Returns.bind (returns_maskAddr hP h)
  intro ⟨mask, xregs⟩ draws₁ ⟨hmask, h₁⟩
  refine .pure ⟨⟨by simp, ?_, (he.addXregs xregs).addSymbol⟩, h₁⟩
  exact ((AreLines.singleton (by decide)).append hmask).append (.singleton he.asm)

theorem returns_wordAtomic (hP : Stable P) (h : P draws) (he : UsualEntry e) (opcode : Text) :
    Returns (wordAtomic opcode e) draws fun r draws' ↦ UsualWord r ∧ P draws' := by
  apply Returns.bind (returns_maskAddr hP h)
  intro ⟨mask, xregs⟩ draws₁ ⟨hmask, h₁⟩
  refine .pure ⟨⟨by simp, ?_, ((he.addXregs xregs).addImms ?_).addSymbol⟩, h₁⟩
  · exact (((AreLines.cons (by decide) (.singleton (by decide))).append hmask).append
      (.singleton he.asm))
  · intro imm hmem
    rw [List.mem_singleton.mp hmem]
    split <;> decide

theorem returns_wordCsrR (hP : Stable P) (h : P draws) (he : UsualEntry e) (opcode : Text) :
    Returns (wordCsrR opcode e) draws fun r draws' ↦ UsualWord r ∧ P draws' := by
  apply Returns.bind (.choice (by decide) hP h)
  intro csr draws₁ ⟨_, h₁⟩
  have hformat := he.format (isLineText_name csr)
  split
  · refine .pure ⟨⟨by simp, ?_, he.addSymbol⟩, h₁⟩
    exact .cons (by decide) (.cons (by decide) (.singleton hformat))
  · apply Returns.bind (.randint (by decide) hP h₁)
    intro rounds draws₂ ⟨_, h₂⟩
    apply Returns.bind (returns_setBits hP h₂ _)
    intro ⟨insts, xregs⟩ draws₃ ⟨hinsts, h₃⟩
    refine .pure ⟨⟨by simp, ?_, he.addXregs xregs⟩, h₃⟩
    exact ((AreLines.singleton (by decide)).append hinsts).append (.singleton hformat)

/-- A word function that makes one choice. -/
theorem returns_chosenWord {α : Type} (hP : Stable P) (h : P draws) {l : List α} (hl : l ≠ [])
    {r : α → WordType × List Text × OpcodeEntry} (hr : ∀ a ∈ l, UsualWord (r a)) :
    Returns (do
      let a ← Draws.choice l
      return r a) draws fun r draws' ↦ UsualWord r ∧ P draws' := by
  apply Returns.bind (.choice hl hP h)
  intro a draws₁ ⟨ha, h₁⟩
  exact .pure ⟨hr a ha, h₁⟩

theorem usualWord_sfence (he : UsualEntry e) {pt : Text} (hpt : Text.IsLineText pt) :
    UsualWord (.none, ["li xreg0, uimm1".toList, "la xreg1, ".toList ++ pt,
      "addi xreg1, xreg1, uimm6".toList, e.asm],
      addImms e [("uimm1".toList, 1), ("uimm6".toList, 8)]) where
  insts_ne_nil := by simp
  insts_lines := .cons (by decide) (.cons (.append (by decide) hpt) (.cons (by decide)
    (.singleton he.asm)))
  entry := he.addImms (by decide)

theorem usualWord_ret (he : UsualEntry e) (opcode : Text) :
    Returns (wordRet opcode e) draws fun r draws' ↦ UsualWord r ∧ draws' = draws := by
  have hepc : Text.IsLineText (if e.asm = "mret".toList then "mepc".toList
      else if e.asm = "sret".toList then "sepc".toList else "uepc".toList) := by
    split
    · decide
    · split <;> decide
  refine .pure ⟨⟨by simp, ?_, (he.addXregs _).addSymbol⟩, rfl⟩
  exact .cons (by decide) (.cons (.append (.append (by decide) hepc) (by decide))
    (.singleton he.asm))

theorem returns_wordFunction (hP : Stable P) (h : P draws) (he : UsualEntry e) (opcode : Text) :
    Returns (wordFunction opcode opcode e) draws fun r draws' ↦ UsualWord r ∧ P draws' := by
  have hasm := AreLines.singleton he.asm
  unfold wordFunction
  cases hfind : opcodesWords.find? fun entry ↦ decide (opcode ∈ entry.1) with
  | none => exact .pure ⟨⟨by simp, hasm, he⟩, h⟩
  | some entry =>
    have hmem := List.mem_of_find?_eq_some hfind
    simp only [opcodesWords, List.mem_cons, List.not_mem_nil, or_false] at hmem
    rcases hmem with rfl | rfl | rfl | rfl | rfl | rfl | rfl | rfl | rfl | rfl | rfl
    · exact .pure ⟨⟨by simp, hasm, he⟩, h⟩
    · exact .pure ⟨⟨by simp, .cons (by decide) hasm, he.addSymbol⟩, h⟩
    · exact .pure ⟨⟨by simp, hasm, he⟩, h⟩
    · exact (usualWord_ret he opcode).mono fun _ _ h' ↦ ⟨h'.1, h'.2 ▸ h⟩
    · exact returns_wordMem hP h he .memR opcode
    · exact returns_wordMem hP h he .memW opcode
    · exact returns_wordAtomic hP h he opcode
    · exact returns_wordCsrR hP h he opcode
    · exact returns_chosenWord hP h (by decide) fun csr _ ↦
        ⟨by simp, .singleton (he.format (isLineText_name csr)), he⟩
    · have hpts : AreLines (["pt0", "pt1", "pt2", "pt3"].map String.toList) := by
        unfold AreLines
        decide
      exact returns_chosenWord hP h (by simp) fun pt hpt ↦ usualWord_sfence he (hpts pt hpt)
    · have hrms : AreLines (["rne", "rtz", "rdn", "rup", "rmm", "dyn"].map String.toList) := by
        unfold AreLines
        decide
      exact returns_chosenWord hP h (by simp) fun rm hrm ↦
        ⟨by simp, .singleton (he.format (hrms rm hrm)), he⟩

end Words

/-- A word that `get_word` has made. -/
structure Template (w : GenWord) : Prop where
  insts_ne_nil : w.insts ≠ []
  operands_eq : w.operands = w.xregs ++ w.fregs ++ w.imms.map Prod.fst ++ w.symbols
  populated_eq : w.populated = false
  insts_lines : AreLines w.insts
  imms_usual : ∀ imm ∈ w.imms, imm ∈ usualImms

section Generating

variable {P : Draws → Prop} {s : InstGenerator × Draws} {part : Part}

theorem partOpcodes_subset (part : Part) : partOpcodes part ⊆ opcodesMap.keys := by
  cases part with
  | prefixPart => exact OpcodeTable.keys_foldl_update_subset (.inr (by simp))
  | mainPart => exact List.Subset.refl _
  | suffixPart => exact List.Subset.refl _

theorem partOpcodes_ne_nil (part : Part) : partOpcodes part ≠ [] := by
  have hbegins : partOpcodes .prefixPart ≠ [] := by decide
  cases part with
  | prefixPart => exact hbegins
  | mainPart => exact fun h ↦ hbegins (List.subset_nil.mp (h ▸ partOpcodes_subset .prefixPart))
  | suffixPart => exact fun h ↦ hbegins (List.subset_nil.mp (h ▸ partOpcodes_subset .prefixPart))

theorem exists_lookup {opcode : Text} (h : opcode ∈ partOpcodes part) :
    ∃ entry, opcodesMap.lookup opcode = some entry ∧ UsualEntry entry := by
  obtain ⟨entry, hentry, hmem⟩ := OpcodeTable.exists_lookup_eq (partOpcodes_subset part h)
  exact ⟨entry, hentry, usualEntry_opcodesMap hmem⟩

/-- What `get_word` returns and leaves: the counter of the part moves on. -/
structure GotWord (part : Part) (s : InstGenerator × Draws) (w : GenWord)
    (s' : InstGenerator × Draws) : Prop where
  template : Template w
  label_eq : w.label = s.1.num part
  num_eq : s'.1.num = Function.update s.1.num part (s.1.num part + 1)

theorem returns_getWord (hP : Stable P) (hs : P s.2) (part : Part) :
    Returns (getWord part) s fun w s' ↦ GotWord part s w s' ∧ P s'.2 := by
  apply Returns.bind (.onSnd (P := fun opcode s' ↦ (opcode ∈ partOpcodes part ∧ P s'.2) ∧ s'.1 = s.1)
    ((Returns.choice (partOpcodes_ne_nil part) hP hs).mono fun _ _ h ↦ ⟨h, rfl⟩))
  intro opcode s₁ ⟨⟨hopcode, hs₁⟩, heq₁⟩
  apply Returns.bind (.read (Q := fun label s' ↦ label = s.1.num part ∧ s' = s₁) ⟨by rw [heq₁], rfl⟩)
  rintro label s₁ ⟨rfl, rfl⟩
  apply Returns.bind (.write (Q := fun _ s' ↦
    s'.1.num = Function.update s.1.num part (s.1.num part + 1) ∧ P s'.2) ⟨by rw [heq₁], hs₁⟩)
  intro _ s₂ ⟨hnum, hs₂⟩
  obtain ⟨entry, hlookup, hentry⟩ := exists_lookup hopcode
  rw [hlookup]
  apply Returns.bind (.onSnd (P := fun r s' ↦ (UsualWord r ∧ P s'.2) ∧ s'.1 = s₂.1)
    ((returns_wordFunction hP hs₂ hentry opcode).mono fun _ _ h ↦ ⟨h, rfl⟩))
  intro ⟨tpe, insts, operands⟩ s₃ ⟨⟨hword, hs₃⟩, heq₃⟩
  exact .pure ⟨⟨⟨hword.insts_ne_nil, rfl, rfl, hword.insts_lines, hword.entry.imms⟩, rfl,
    by rw [heq₃, hnum]⟩, hs₃⟩

/-- The words of a part that is generated, with the labels `0, 1, …`. -/
structure GotWords (part : Part) (n : ℕ) (s : InstGenerator × Draws) (words : List GenWord)
    (s' : InstGenerator × Draws) : Prop where
  length_eq : words.length = n
  template : ∀ w ∈ words, Template w
  label_nonneg : ∀ w ∈ words, 0 ≤ w.label
  label_lt : ∀ w ∈ words, w.label < ((s.1.num part + n : ℕ) : ℤ)
  num_eq : s'.1.num = Function.update s.1.num part (s.1.num part + n)

theorem returns_getWords (hP : Stable P) (hs : P s.2) (part : Part) (is : List ℕ) :
    Returns (is.mapM fun _ ↦ getWord part) s
      fun words s' ↦ GotWords part is.length s words s' ∧ P s'.2 := by
  induction is generalizing s with
  | nil => exact .pure ⟨⟨rfl, nofun, nofun, nofun, by simp⟩, hs⟩
  | cons i is ih =>
    rw [List.mapM_cons]
    apply Returns.bind (returns_getWord hP hs part)
    intro w s₁ ⟨hw, hs₁⟩
    apply Returns.bind (ih hs₁)
    intro words s₂ ⟨hwords, hs₂⟩
    have hcount : s₁.1.num part = s.1.num part + 1 := by simp [hw.num_eq]
    have hlabel := hw.label_eq
    refine .pure ⟨⟨?_, ?_, ?_, ?_, ?_⟩, hs₂⟩
    · rw [List.length_cons, List.length_cons, hwords.length_eq]
    · exact List.forall_mem_cons.mpr ⟨hw.template, hwords.template⟩
    · exact List.forall_mem_cons.mpr ⟨by omega, hwords.label_nonneg⟩
    · refine List.forall_mem_cons.mpr ⟨by rw [List.length_cons]; omega, fun w' hw' ↦ ?_⟩
      have hlt := hwords.label_lt w' hw'
      rw [List.length_cons]
      omega
    · rw [hwords.num_eq, hcount, hw.num_eq, Function.update_idem, List.length_cons]
      congr 1
      omega

/-- What `populate` returns when every operand has a value. -/
theorem exists_populate_eq {w : Word} {opvals : Dict Text Text} {part : Part}
    (hoperands : ∀ op ∈ w.operands, op ∈ opvals.keys) (hinsts : w.insts ≠ []) :
    ∃ w', w.populate opvals part = .ok w' := by
  have hcheck : ∀ ops : List Text, (∀ op ∈ ops, op ∈ opvals.keys) →
      (ops.forM fun op ↦ assert (decide (op ∈ opvals.keys)) (String.ofList (op ++
        " is not in label ".toList ++ Text.str w.label ++ " Word opvals".toList))) = .ok () := by
    intro ops hops
    induction ops with
    | nil => rfl
    | cons op ops ih =>
      obtain ⟨hop, hops⟩ := List.forall_mem_cons.mp hops
      rw [List.forM, decide_eq_true hop, assert_true, ok_bind]
      exact ih hops
  obtain ⟨first, rest, hcons⟩ := List.exists_cons_of_ne_nil hinsts
  rw [Word.populate, hcheck w.operands hoperands, ok_bind, hcons]
  exact ⟨_, rfl⟩

theorem length_retInsts_populate {w w' : Word} {opvals : Dict Text Text} {part : Part}
    (h : w.populate opvals part = .ok w') :
    w'.populated = true ∧ w'.insts = w.insts ∧ w'.label = w.label ∧
      w'.retInsts.length = w'.insts.length := by
  unfold Word.populate at h
  obtain ⟨-, -, h⟩ := bind_eq_ok.mp h
  split at h
  · exact nomatch h
  · next first rest hcons =>
    obtain rfl := Except.ok.inj h
    have hlength := congrArg List.length hcons
    rw [List.length_map, List.length_cons] at hlength
    exact ⟨rfl, rfl, rfl, by simp [hlength]⟩

/-- A word that jumps to a label of its part. -/
def Jumps (w : GenWord) : Prop := w.symbols ≠ [] ∧ NeedsLater w.tpe

instance (w : GenWord) : Decidable (Jumps w) := inferInstanceAs (Decidable (_ ∧ _))

/-- The loops of `populate_word` over the registers and the immediates. -/
def fillValues (w : GenWord) (part : Part) : Generating (Dict Text Text) := do
  let opvals ← fill w.xregs id (fun _ ↦ if w.tpe = .none then getXregs (0, 31) false
    else getXregs (if part = .prefixPart then (10, 15) else (0, 31)) true) Dict.empty
  let opvals ← fill w.fregs id (fun _ ↦ getFregs) opvals
  fill w.imms Prod.fst (fun imm ↦ getImm imm.1 imm.2) opvals

theorem populateWord_eq {w : GenWord} (hw : w.populated = false) (maxLabel : ℤ) (part : Part) :
    populateWord w maxLabel part = (do
      let opvals ← fillValues w part
      let opvals ← fill w.symbols id
        (fun _ ↦ onSnd (getSymbol w.tpe w.label maxLabel part)) opvals
      let word ← lift (w.toWord.populate opvals part)
      return { w with toWord := word }) := by
  rw [populateWord, if_neg (by simp [hw])]
  simp only [fillValues, bind_assoc]

/-- The registers and the immediates of a template can always be drawn. -/
theorem returns_fillValues (hP : Stable P) (hs : P s.2) {w : GenWord} (hw : Template w)
    (part : Part) : Returns (fillValues w part) s fun opvals s' ↦
      (∀ op ∈ w.xregs ++ w.fregs ++ w.imms.map Prod.fst, op ∈ opvals.keys) ∧ P s'.2 := by
  have hregion : (nums.take (if part = .prefixPart then (10, 15) else (0, 31)).2).drop
      (if part = .prefixPart then (10, 15) else (0, 31)).1 ≠ [] := by
    cases part <;> decide
  apply Returns.bind (returns_fill (C := fun _ _ ↦ True) hs fun xreg _ s' hs' ↦ ?xregs)
  case xregs =>
    split
    · exact (returns_getXregs hP hs' (by decide) false).mono fun _ _ h ↦ ⟨True.intro, h.2⟩
    · exact (returns_getXregs hP hs' hregion true).mono fun _ _ h ↦ ⟨True.intro, h.2⟩
  intro opvals₁ s₁ ⟨hxregs, hs₁⟩
  apply Returns.bind (returns_fill (C := fun _ _ ↦ True) hs₁ fun freg _ s' hs' ↦
    (returns_getFregs hP hs').mono fun _ _ h ↦ ⟨True.intro, h.2⟩)
  intro opvals₂ s₂ ⟨hfregs, hs₂⟩
  have himms : Returns (fill w.imms Prod.fst (fun imm ↦ getImm imm.1 imm.2) opvals₂) s₂
      fun opvals s' ↦ Filled w.imms Prod.fst (fun _ _ ↦ True) opvals₂ opvals ∧ P s'.2 := by
    refine returns_fill hs₂ fun imm himm s' hs' ↦ ?_
    obtain ⟨⟨bits, signed, hkind⟩, halign⟩ := exists_isImm (hw.imms_usual imm himm)
    exact (returns_getImm hP hs' hkind halign).mono fun _ _ h ↦ ⟨True.intro, h.2⟩
  refine himms.mono fun opvals₃ s₃ ⟨himms, hs₃⟩ ↦ ⟨fun op hop ↦ ?_, hs₃⟩
  rw [List.mem_append, List.mem_append] at hop
  have hmap : ∀ l : List Text, op ∈ l → op ∈ l.map id := fun l h ↦ by rwa [List.map_id]
  rcases hop with (hop | hop) | hop
  · exact himms.mem_keys (.inr (hfregs.mem_keys (.inr (hxregs.mem_keys (.inl (hmap _ hop))))))
  · exact himms.mem_keys (.inr (hfregs.mem_keys (.inl (hmap _ hop))))
  · exact himms.mem_keys (.inl hop)

theorem returns_populateWord (hP : Stable P) (hs : P s.2) {w : GenWord} (hw : Template w)
    {maxLabel : ℤ} (hmax : 0 ≤ maxLabel) (hjump : Jumps w → w.label < maxLabel) (part : Part) :
    Returns (populateWord w maxLabel part) s
      fun w' s' ↦ (w'.populated = true ∧ w'.insts = w.insts) ∧ P s'.2 := by
  rw [populateWord_eq hw.populated_eq]
  apply Returns.bind (returns_fillValues hP hs hw part)
  intro opvals₃ s₃ ⟨hvalues, hs₃⟩
  apply Returns.bind (returns_fill (C := fun _ _ ↦ True) hs₃ fun symbol hsymbol s' hs' ↦
    (Returns.draw (returns_getSymbol hP hs' hmax fun hlater ↦
      hjump ⟨List.ne_nil_of_mem hsymbol, hlater⟩)).mono fun _ _ h ↦ ⟨True.intro, h⟩)
  intro opvals₄ s₄ ⟨hsymbols, hs₄⟩
  have hoperands : ∀ op ∈ w.operands, op ∈ opvals₄.keys := by
    intro op hop
    rw [hw.operands_eq, List.mem_append] at hop
    rcases hop with hop | hop
    · exact hsymbols.mem_keys (.inr (hvalues op hop))
    · exact hsymbols.mem_keys (.inl (by rwa [List.map_id]))
  obtain ⟨w', hw'⟩ : ∃ w', w.toWord.populate opvals₄ part = .ok w' :=
    exists_populate_eq hoperands hw.insts_ne_nil
  obtain ⟨hpopulated, hinsts, -⟩ := length_retInsts_populate hw'
  apply Returns.bind (.lift hw' (Q := fun word s' ↦ (word.populated = true ∧ word.insts = w.insts) ∧
    P s'.2) ⟨⟨hpopulated, hinsts⟩, hs₄⟩)
  intro word s₅ h₅
  exact .pure h₅

/-- A jump with no label behind it cannot be populated. -/
theorem populateWord_eq_error {w : GenWord} (hw : Template w) (hjump : Jumps w) {maxLabel : ℤ}
    (hle : maxLabel ≤ w.label) (part : Part) (s : InstGenerator × Draws) :
    populateWord w maxLabel part s = .error .valueError := by
  obtain ⟨⟨opvals, s₁⟩, hvalues, -⟩ :=
    @returns_fillValues _ s stable_true True.intro _ hw part
  obtain ⟨symbol, symbols, hsymbols⟩ := List.exists_cons_of_ne_nil hjump.1
  rw [populateWord_eq hw.populated_eq, bind_eq, hvalues, ok_bind, hsymbols, bind_eq, fill,
    List.foldlM_cons, bind_eq, bind_eq, onSnd, getSymbol_eq_error hjump.2 hle]
  rfl

/-- Words that can be populated, with a label behind each one. -/
def Fillable (words : List GenWord) : Prop :=
  ∀ w ∈ words, Template w ∧ 0 ≤ w.label ∧ w.label < (words.length : ℤ)

theorem GotWords.fillable {n : ℕ} {s s' : InstGenerator × Draws} {words : List GenWord}
    (h : GotWords part n s words s') (hnum : s.1.num part = 0) : Fillable words := by
  intro w hw
  have hlt := h.label_lt w hw
  rw [hnum, zero_add, ← h.length_eq] at hlt
  exact ⟨h.template w hw, h.label_nonneg w hw, hlt⟩

theorem returns_generate (hP : Stable P) (hs : P s.2) (hnum : ∀ part, s.1.num part = 0)
    (m : RvMutator) : Returns m.generate s fun parts s' ↦
      ((∀ part, Fillable (parts.words part)) ∧ (parts.words .mainPart).length = m.numWords ∧
        parts.parent = none) ∧ P s'.2 := by
  apply Returns.bind (returns_getWords hP hs .prefixPart _)
  intro prefixWords s₁ ⟨hbegins, hs₁⟩
  have hmain₀ : s₁.1.num .mainPart = 0 := by simp [hbegins.num_eq, hnum]
  apply Returns.bind (returns_getWords hP hs₁ .mainPart _)
  intro words s₂ ⟨hmain, hs₂⟩
  have hsuffix₀ : s₂.1.num .suffixPart = 0 := by simp [hmain.num_eq, hbegins.num_eq, hnum]
  apply Returns.bind (returns_getWords hP hs₂ .suffixPart _)
  intro suffixWords s₃ ⟨hsuffix, hs₃⟩
  refine .pure ⟨⟨fun part ↦ ?_, ?_, rfl⟩, hs₃⟩
  · cases part with
    | prefixPart => exact hbegins.fillable (hnum .prefixPart)
    | mainPart => exact hmain.fillable hmain₀
    | suffixPart => exact hsuffix.fillable hsuffix₀
  · exact hmain.length_eq.trans List.length_range

theorem returns_populateWords (hP : Stable P) (hs : P s.2) {words : List GenWord}
    (h : Fillable words) (part : Part) :
    Returns (RvMutator.populateWords words part) s fun words' s' ↦
      List.Forall₂ (fun w w' ↦ w'.insts = w.insts) words words' ∧ P s'.2 := by
  refine Returns.mapM (I := fun s : InstGenerator × Draws ↦ P s.2) (fun w hw s₁ hs₁ ↦ ?_) hs
  obtain ⟨htemplate, hnonneg, hlt⟩ := h w hw
  apply Returns.bind (returns_populateWord hP hs₁ htemplate (by omega) (fun _ ↦ hlt) part)
  intro w' s₂ ⟨⟨_, hinsts⟩, hs₂⟩
  exact .pure ⟨hinsts, hs₂⟩

theorem returns_drawInts (hP : Stable P) {draws : Draws} (h : P draws) {length : ℕ}
    (hlength : 0 < length) (assertIntr : Bool) :
    Returns (RvMutator.drawInts length assertIntr) draws fun _ draws' ↦ P draws' := by
  unfold RvMutator.drawInts
  split
  · apply Returns.bind (.randint (by omega) hP h)
    intro idx draws₁ ⟨_, h₁⟩
    apply Returns.bind (.randint (by decide) hP h₁)
    intro int draws₂ ⟨_, h₂⟩
    exact .pure h₂
  · exact .pure h

/-- Generated words have an instruction, if there is a word. -/
theorem sum_length_pos {words : List GenWord} {words' : List Word} (h : Fillable words)
    (hne : words ≠ []) (hinsts : List.Forall₂ (fun w w' ↦ w'.insts = w.insts) words words') :
    0 < (words'.map fun w ↦ w.insts.length).sum := by
  cases hinsts with
  | nil => exact absurd rfl hne
  | cons heq hrest =>
    have hinsts := (h _ List.mem_cons_self).1.insts_ne_nil
    rw [← heq] at hinsts
    have hpos := List.length_pos_iff.mpr hinsts
    rw [List.map_cons, List.sum_cons]
    omega

theorem returns_makeDraft (hP : Stable P) (hs : P s.2) (hnum : ∀ part, s.1.num part = 0)
    {m : RvMutator} (hphase : m.phase = .generation) (hwords : 0 < m.numWords)
    (assertIntr : Bool) : Returns (m.makeDraft assertIntr) s fun draft s' ↦
      (draft.parent = none ∧ draft.words ≠ []) ∧ P s'.2 := by
  have hparts := returns_generate hP hs hnum m
  have hmake : m.makeParts = m.generate := by rw [RvMutator.makeParts, hphase]
  rw [← hmake] at hparts
  apply Returns.bind hparts
  intro parts s₁ ⟨⟨hfillable, hlength, hparent⟩, hs₁⟩
  apply Returns.bind (returns_populateWords hP hs₁ (hfillable .prefixPart) .prefixPart)
  intro prefixWords s₂ ⟨_, hs₂⟩
  apply Returns.bind (returns_populateWords hP hs₂ (hfillable .mainPart) .mainPart)
  intro words s₃ ⟨hinsts, hs₃⟩
  apply Returns.bind (returns_populateWords hP hs₃ (hfillable .suffixPart) .suffixPart)
  intro suffixWords s₄ ⟨_, hs₄⟩
  have hne : parts.words .mainPart ≠ [] := by
    rw [← List.length_pos_iff, hlength]
    exact hwords
  apply Returns.bind (.draw (returns_drawInts hP hs₄
    (sum_length_pos (hfillable .mainPart) hne hinsts) assertIntr))
  intro ints s₅ hs₅
  refine .pure ⟨⟨hparent, ?_⟩, hs₅⟩
  rw [← List.length_pos_iff, ← hinsts.length_eq]
  exact List.length_pos_iff.mpr hne

end Generating

/-- A mutator with room for data generates a test whatever is drawn, and gives it new data. -/
theorem exists_get_eq_of_generation {m : RvMutator} (hm : m.Seeded)
    (hphase : m.phase = .generation) (hwords : 0 < m.numWords) (it : ℕ) (assertIntr : Bool)
    {P : Draws → Prop} (hP : Stable P) {draws : Draws} (hdraws : P draws) :
    ∃ x m' draws₁ draws₂, P draws₁ ∧
      m.get it assertIntr draws = .ok ((x, Mutator.newWords draws₁), m', draws₂) := by
  obtain ⟨⟨draft, s⟩, hdraft, ⟨hparent, -⟩, hs⟩ := returns_makeDraft hP
    (s := (InstGenerator.start, draws)) hdraws (fun _ ↦ rfl) hphase hwords assertIntr
  have hseeds : ∀ seed template, draft.parent = some (seed, template) → seed ∈ m.dataSeeds := by
    intro seed template hsome
    rw [hparent] at hsome
    exact nomatch hsome
  obtain ⟨x, data, base, draws', hfinish, -, hseed⟩ := RvMutator.finish_eq hm hseeds it s.2
  rw [hparent] at hseed
  obtain ⟨-, rfl⟩ := hseed
  exact ⟨x, _, s.2, draws', hs, bind_eq_ok.mpr ⟨_, hdraft, hfinish⟩⟩

end ProcessorFuzz.Mutation
