import ProcessorFuzz.Common.Transitions

/-!
# The second criterion

A transition is to be skipped when the instruction accesses a monitored register and nothing but
this register changes. `extract_transitions` finds the register in each of the disassembler's forms,
but compares four of the eight monitored registers only. So it keeps transitions of the other four,
and skips transitions in which one of those changes, too.
-/

namespace ProcessorFuzz.Common.Transitions

open Library

inductive Monitored
  | mstatus
  | frm
  | fflags
  | mcause
  | scause
  | medeleg
  | mcounteren
  | scounteren
  deriving DecidableEq, Repr

namespace Monitored

def name : Monitored → Text
  | mstatus => "mstatus".toList
  | frm => "frm".toList
  | fflags => "fflags".toList
  | mcause => "mcause".toList
  | scause => "scause".toList
  | medeleg => "medeleg".toList
  | mcounteren => "mcounteren".toList
  | scounteren => "scounteren".toList

def value (r : Record) : Monitored → Text
  | mstatus => r.mstatus
  | frm => r.frm
  | fflags => r.fflags
  | mcause => r.mcause
  | scause => r.scause
  | medeleg => r.medeleg
  | mcounteren => r.mcounteren
  | scounteren => r.scounteren

/-- The registers of `csr_names`. -/
def compared : List Monitored := [mstatus, mcause, scause, fflags]

end Monitored

/-- The register is one of those that differ between the two records. -/
def Changes (p r : Record) (c : Monitored) : Prop := c.value p ≠ c.value r

instance (p r : Record) (c : Monitored) : Decidable (Changes p r c) :=
  inferInstanceAs (Decidable (_ ≠ _))

/-- The operand stands for a monitored register. `sstatus` is a part of `mstatus`. -/
def Names (csr : Option Text) (c : Monitored) : Prop :=
  csr = some c.name ∨ c = .mstatus ∧ csr = some "sstatus".toList

/-- What the criterion says. -/
def ShouldSkip (csr : Option Text) (p r : Record) : Prop :=
  ∃ c, Names csr c ∧ ∀ c', Changes p r c' ↔ c' = c

/-- `disasm_insn_t::to_string` of an instruction with operands. -/
def disasmText (name : Text) (args : List Text) : Text :=
  name ++ List.replicate (max 1 (8 - name.length)) ' ' ++ ", ".toList.intercalate args

/-- The mnemonics of the instructions that read and write a register. -/
def csrAccesses : List Text :=
  ["csrrw".toList, "csrrs".toList, "csrrc".toList, "csrrwi".toList, "csrrsi".toList,
    "csrrci".toList]

/-- The name of a register or a number. -/
structure IsOperand (arg : Text) : Prop where
  ne_nil : arg ≠ []
  word : ∀ c ∈ arg, Text.isSpace c = false ∧ c ≠ ','
  noCsrr : ¬ "csrr".toList <:+: arg

/-- The text of an instruction, and the register that it accesses if it is a CSR instruction. -/
inductive Disassembles : Text → Option Text → Prop
  | reads {rd csr : Text} (hrd : IsOperand rd) (hcsr : IsOperand csr) :
    Disassembles (disasmText "csrr".toList [rd, csr]) (some csr)
  | accesses {name rd csr src : Text} (hname : name ∈ csrAccesses) (hrd : IsOperand rd)
    (hcsr : IsOperand csr) (hsrc : IsOperand src) :
    Disassembles (disasmText name [rd, csr, src]) (some csr)
  | writes {name csr src : Text} (hname : name ∈ csrWrites) (hcsr : IsOperand csr)
    (hsrc : IsOperand src) : Disassembles (disasmText name [csr, src]) (some csr)
  | other {text first : Text} {rest : List Text} (hwords : Text.words text = first :: rest)
    (hfirst : first ∉ csrWrites) (htext : ¬ "csrr".toList <:+: text) : Disassembles text none

section Disassembler

variable {name rd csr src text : Text} {args : List Text}

theorem disasmText_eq (hname : name.length ≤ 7) : disasmText name args =
    name ++ ' ' :: (List.replicate (7 - name.length) ' ' ++ ", ".toList.intercalate args) := by
  have hgap : max 1 (8 - name.length) = 7 - name.length + 1 := by omega
  rw [disasmText, hgap, List.replicate_succ, List.append_assoc, List.cons_append]

theorem IsOperand.strip (h : IsOperand csr) : Text.strip (' ' :: csr) = csr := by
  have hword := Text.strip_eq_self fun c hc ↦ (h.word c hc).1
  rw [Text.strip] at hword ⊢
  rwa [List.dropWhile_cons_of_pos (by decide)]

theorem IsOperand.not_comma (h : IsOperand csr) : ',' ∉ csr := fun hc ↦ (h.word ',' hc).2 rfl

theorem IsOperand.takeWhile (h : IsOperand csr) (rest : Text) :
    (csr ++ rest).takeWhile (· ≠ ',') = csr ++ rest.takeWhile (· ≠ ',') :=
  List.takeWhile_append_of_pos fun c hc ↦ decide_eq_true (h.word c hc).2

theorem IsOperand.words (h : IsOperand csr) : Text.words csr = [csr] := by
  have hscan := @Text.wordsFrom_append csr (fun c hc ↦ (h.word c hc).1) [] []
  rw [List.append_nil, List.nil_append] at hscan
  rw [Text.words, hscan, Text.wordsFrom, if_neg (by simpa using h.ne_nil)]

theorem words_disasmText (hname : name ∈ "csrr".toList :: (csrAccesses ++ csrWrites)) :
    Text.words (' ' :: disasmText name args) = name :: Text.words (", ".toList.intercalate args) := by
  have hword : ∀ name ∈ "csrr".toList :: (csrAccesses ++ csrWrites), name ≠ [] ∧
      name.length ≤ 7 ∧ ∀ c ∈ name, Text.isSpace c = false := by decide
  obtain ⟨hne, hlength, hspace⟩ := hword name hname
  rw [Text.words_cons_space (by decide), disasmText_eq hlength,
    Text.words_append_cons hne hspace (by decide), Text.words_replicate_space (by decide)]

/-- The second operand stands behind the first comma. -/
theorem item_split_second (hname : name ∈ "csrr".toList :: csrAccesses) (hrd : IsOperand rd)
    (hcsr : IsOperand csr) {rest : Text} (hrest : rest.takeWhile (· ≠ ',') = [])
    (hargs : ", ".toList.intercalate args = rd ++ ',' :: ' ' :: (csr ++ rest)) :
    Text.item (Text.split [','] (' ' :: disasmText name args)) 1 = .ok (' ' :: csr) := by
  have hcomma : ∀ name ∈ "csrr".toList :: csrAccesses, name.length ≤ 7 ∧ ',' ∉ name := by decide
  obtain ⟨hlength, hname⟩ := hcomma name hname
  have hleft : ',' ∉ ' ' :: name ++ ' ' :: (List.replicate (7 - name.length) ' ' ++ rd) := by
    simp [hname, hrd.not_comma]
  have htext : ' ' :: disasmText name args =
      (' ' :: name ++ ' ' :: (List.replicate (7 - name.length) ' ' ++ rd)) ++
        ',' :: (' ' :: (csr ++ rest)) := by
    rw [disasmText_eq hlength, hargs]
    simp
  rw [htext, Text.split_append_cons hleft]
  apply Text.item_of_getElem?
  rw [List.getElem?_cons_succ, Text.split_head, List.takeWhile_cons_of_pos (by decide),
    hcsr.takeWhile, hrest, List.append_nil]

theorem instrKey_second (hname : name ∈ "csrr".toList :: csrAccesses) (hrd : IsOperand rd)
    (hcsr : IsOperand csr) {rest : Text} (hrest : rest.takeWhile (· ≠ ',') = [])
    (hargs : ", ".toList.intercalate args = rd ++ ',' :: ' ' :: (csr ++ rest)) :
    ∃ instrT, instrKey (' ' :: disasmText name args) = .ok (instrT, csr) := by
  have hwords := @words_disasmText _ args
    (List.mem_append_left csrWrites hname : name ∈ _ :: (csrAccesses ++ csrWrites))
  have hfirst : Text.item (Text.words (' ' :: disasmText name args)) 0 = .ok name := by
    rw [hwords]
    rfl
  have hwithin : "csrr".toList <:+: ' ' :: disasmText name args := by
    have hbegins : ∀ name ∈ "csrr".toList :: csrAccesses, "csrr".toList <+: name := by decide
    have htext : name <:+: ' ' :: disasmText name args := by
      rw [disasmText, List.append_assoc]
      exact (List.prefix_append name _).isInfix.trans (List.suffix_cons ' ' _).isInfix
    exact (hbegins name hname).isInfix.trans htext
  rw [instrKey, hfirst, ok_bind, if_pos hwithin, item_split_second hname hrd hcsr hrest hargs,
    ok_bind, hcsr.strip]
  exact ⟨_, rfl⟩

theorem instrKey_first (hname : name ∈ csrWrites) (hcsr : IsOperand csr) (hsrc : IsOperand src) :
    ∃ instrT, instrKey (' ' :: disasmText name [csr, src]) = .ok (instrT, csr) := by
  have hargs : ", ".toList.intercalate [csr, src] = csr ++ ',' :: ' ' :: src := by
    simp [List.intercalate]
  have hforms : ∀ name ∈ csrWrites, name.length ≤ 7 ∧ ',' ∉ name ∧ ¬ "csrr".toList <:+: name ∧
      Text.strip name = name ∧ name ≠ [] ∧ ∀ c ∈ name, Text.isSpace c = false := by decide
  obtain ⟨hlength, hcomma, hcsrr, hstrip, hne, hspace⟩ := hforms name hname
  have htext : ' ' :: disasmText name [csr, src] =
      (' ' :: name ++ ' ' :: (List.replicate (7 - name.length) ' ' ++ csr)) ++ ',' :: ' ' :: src := by
    rw [disasmText_eq hlength, hargs]
    simp
  have hfirst : Text.item (Text.words (' ' :: disasmText name [csr, src])) 0 = .ok name := by
    rw [words_disasmText (List.mem_cons_of_mem _ (List.mem_append_right csrAccesses hname))]
    rfl
  have hwithin : ¬ "csrr".toList <:+: ' ' :: disasmText name [csr, src] := by
    have hshape : ' ' :: disasmText name [csr, src] =
        [] ++ ' ' :: (name ++ ' ' :: ((List.replicate (7 - name.length) ' ' ++ csr) ++
          ',' :: ([] ++ ' ' :: src))) := by
      rw [htext]
      simp
    have hgap : "csrr".toList <:+: List.replicate (7 - name.length) ' ' ++ csr ↔
        "csrr".toList <:+: csr := by
      apply Text.infix_append_iff_of_not_mem
      intro hc
      exact nomatch List.eq_of_mem_replicate hc
    have hblank : ' ' ∉ "csrr".toList := by decide
    rw [hshape, Text.infix_append_cons_iff hblank, Text.infix_append_cons_iff hblank,
      Text.infix_append_cons_iff (by decide), Text.infix_append_cons_iff hblank, hgap]
    have hnil : ¬ "csrr".toList <:+: [] := by decide
    simp only [hnil, hcsrr, hcsr.noCsrr, hsrc.noCsrr, or_self, not_false_eq_true]
  have hleft : ',' ∉ ' ' :: name ++ ' ' :: (List.replicate (7 - name.length) ' ' ++ csr) := by
    simp [hcomma, hcsr.not_comma]
  have hhead : Text.item (Text.split [','] (' ' :: disasmText name [csr, src])) 0 =
      .ok (' ' :: name ++ ' ' :: (List.replicate (7 - name.length) ' ' ++ csr)) := by
    rw [htext, Text.split_append_cons hleft]
    rfl
  have hsecond : Text.words (' ' :: name ++ ' ' :: (List.replicate (7 - name.length) ' ' ++ csr)) =
      [name, csr] := by
    rw [List.cons_append, Text.words_cons_space (by decide),
      Text.words_append_cons hne hspace (by decide), Text.words_replicate_space (by decide),
      hcsr.words]
  rw [instrKey, hfirst, ok_bind, if_neg hwithin, hstrip, if_pos hname, hhead, ok_bind, hsecond]
  exact ⟨_, rfl⟩

theorem instrKey_other {first : Text} {rest : List Text} (hwords : Text.words text = first :: rest)
    (hfirst : first ∉ csrWrites) (htext : ¬ "csrr".toList <:+: text) :
    ∃ instrT, instrKey (' ' :: text) = .ok (instrT, []) := by
  have hitem : Text.item (Text.words (' ' :: text)) 0 = .ok first := by
    rw [Text.words_cons_space (by decide), hwords]
    rfl
  have hstrip : Text.strip first = first :=
    Text.strip_eq_self (Text.isSpace_of_mem_words (hwords ▸ List.mem_cons_self))
  have hwithin : ¬ "csrr".toList <:+: ' ' :: text := by
    intro hwithin
    rcases List.infix_cons_iff.mp hwithin with hbegins | hrest
    · exact nomatch (List.cons_prefix_cons.mp hbegins).1
    · exact htext hrest
  rw [instrKey, hitem, ok_bind, if_neg hwithin, hstrip, if_neg hfirst]
  exact ⟨_, rfl⟩

/-- The register is found in each of the forms. -/
theorem Disassembles.instrKey {csr : Option Text} (h : Disassembles text csr) :
    ∃ instrT, instrKey (' ' :: text) = .ok (instrT, csr.getD []) := by
  cases h with
  | reads hrd hcsr =>
    apply @instrKey_second _ _ _ _ List.mem_cons_self hrd hcsr []
    · rfl
    · simp [List.intercalate]
  | @accesses name rd csr src hname hrd hcsr hsrc =>
    apply @instrKey_second _ _ _ _ (List.mem_cons_of_mem _ hname) hrd hcsr (',' :: ' ' :: src)
    · rfl
    · simp [List.intercalate]
  | writes hname hcsr hsrc => exact instrKey_first hname hcsr hsrc
  | other hwords hfirst htext => exact instrKey_other hwords hfirst htext

end Disassembler

section Skips

variable {p r : Record} {csr : Option Text} {c c' : Monitored}

theorem Monitored.name_injective (h : c.name = c'.name) : c = c' := by
  cases c <;> cases c' <;> first | rfl | exact absurd h (by decide)

theorem Monitored.name_ne_sstatus : c.name ≠ "sstatus".toList := by
  cases c <;> decide

theorem Names.unique (h : Names csr c) (h' : Names csr c') : c = c' := by
  rcases h with rfl | ⟨rfl, rfl⟩
  · rcases h' with hname | ⟨-, hname⟩
    · exact Monitored.name_injective (Option.some.inj hname)
    · exact absurd (Option.some.inj hname) Monitored.name_ne_sstatus
  · rcases h' with hname | ⟨rfl, -⟩
    · exact absurd (Option.some.inj hname).symm Monitored.name_ne_sstatus
    · rfl

/-- `csr` with `sstatus` read as `mstatus`. -/
def readStatus (csr : Text) : Text := if csr = "sstatus".toList then "mstatus".toList else csr

theorem names_iff : Names csr c ↔ readStatus (csr.getD []) = c.name := by
  cases csr with
  | none =>
    refine iff_of_false ?_ ?_
    · rintro (h | ⟨-, h⟩) <;> exact nomatch h
    · cases c <;> decide
  | some text =>
    rw [Names, Option.getD_some, readStatus, Option.some.injEq, Option.some.injEq]
    by_cases h : text = "sstatus".toList
    · rw [if_pos h, h]
      constructor
      · rintro (hname | ⟨rfl, -⟩)
        · exact absurd hname.symm Monitored.name_ne_sstatus
        · rfl
      · exact fun hname ↦ .inr ⟨Monitored.name_injective hname.symm, rfl⟩
    · rw [if_neg h]
      exact ⟨fun hnames ↦ hnames.resolve_right fun hstatus ↦ h hstatus.2, .inl⟩

/-- `csr_n`. -/
def nameFlags (csr : Text) : List Bool := csrNames.map fun name ↦ decide (name = csr)

/-- `csr_l`. -/
def changeFlags (p r : Record) : List Bool :=
  Monitored.compared.map fun c ↦ decide (Changes p r c)

theorem skips_eq (csr : Text) (p r : Record) : skips csr p r =
    if readStatus csr ∈ csrNames then
      (changeFlags p r).count true == 1 && changeFlags p r == nameFlags (readStatus csr)
    else false := by
  have hflags : changeFlags p r = [decide (r.mstatus ≠ p.mstatus), decide (r.mcause ≠ p.mcause),
      decide (r.scause ≠ p.scause), decide (r.fflags ≠ p.fflags)] := by
    simp only [changeFlags, Monitored.compared, List.map_cons, List.map_nil, Changes,
      Monitored.value, ne_comm]
    rfl
  rw [hflags]
  rfl

theorem changeFlags_eq_iff (hc : c ∈ Monitored.compared) :
    changeFlags p r = nameFlags c.name ↔ ∀ c' ∈ Monitored.compared, Changes p r c' ↔ c' = c := by
  have hnames : nameFlags c.name = Monitored.compared.map fun c' ↦ decide (c' = c) := by
    revert hc
    cases c <;> decide
  rw [hnames, changeFlags, List.map_inj_left]
  constructor
  · exact fun h c' hc' ↦ by simpa using h c' hc'
  · exact fun h c' hc' ↦ by simpa using h c' hc'

/-- `skip` compares four registers. -/
theorem skips_iff (csr : Text) : skips csr p r = true ↔
    ∃ c ∈ Monitored.compared, readStatus csr = c.name ∧
      ∀ c' ∈ Monitored.compared, Changes p r c' ↔ c' = c := by
  have hmem : readStatus csr ∈ csrNames ↔ ∃ c ∈ Monitored.compared, readStatus csr = c.name := by
    have hnames : csrNames = Monitored.compared.map Monitored.name := rfl
    rw [hnames, List.mem_map]
    exact exists_congr fun c ↦ and_congr_right fun _ ↦ eq_comm
  rw [skips_eq]
  by_cases h : readStatus csr ∈ csrNames
  · obtain ⟨c, hc, hname⟩ := hmem.mp h
    have hcount : (nameFlags c.name).count true = 1 := by
      revert hc
      cases c <;> decide
    rw [if_pos h, hname, Bool.and_eq_true, beq_iff_eq, beq_iff_eq]
    constructor
    · exact fun hskip ↦ ⟨c, hc, rfl, (changeFlags_eq_iff hc).mp hskip.2⟩
    · rintro ⟨c', hc', hname', hchanges⟩
      obtain rfl := Monitored.name_injective hname'
      have hflags := (changeFlags_eq_iff hc).mpr hchanges
      exact ⟨by rw [hflags, hcount], hflags⟩
  · rw [if_neg h]
    exact iff_of_false Bool.false_ne_true fun ⟨c, hc, hname, _⟩ ↦ h (hmem.mpr ⟨c, hc, hname⟩)

/-- The values of the eight registers, and no others. -/
theorem values_ne_of_changes (h : Changes p r c) (hp : p.others = []) (hr : r.others = []) :
    p.values ≠ r.values := by
  intro heq
  rw [Record.values, Record.values, hp, hr, List.append_nil, List.append_nil] at heq
  simp only [List.cons.injEq, and_true] at heq
  obtain ⟨h₁, h₂, h₃, h₄, h₅, h₆, h₇, h₈⟩ := heq
  cases c
  · exact h h₁
  · exact h h₂
  · exact h h₃
  · exact h h₄
  · exact h h₅
  · exact h h₆
  · exact h h₇
  · exact h h₈

/-- The register changes, and no other register that is compared. -/
def ChangesAlone (p r : Record) (c : Monitored) : Prop :=
  Changes p r c ∧ ∀ c' ∈ Monitored.compared, Changes p r c' → c' = c

/-- What is skipped is what should be skipped exactly if a named register that changes alone among
the compared ones is compared just when it changes alone among all. -/
theorem skips_eq_shouldSkip_iff : (skips (csr.getD []) p r = true ↔ ShouldSkip csr p r) ↔
    ∀ c, Names csr c → ChangesAlone p r c →
      (c ∈ Monitored.compared ↔ ∀ c', Changes p r c' → c' = c) := by
  have hskips : skips (csr.getD []) p r = true ↔
      ∃ c ∈ Monitored.compared, Names csr c ∧ ChangesAlone p r c := by
    rw [skips_iff]
    refine exists_congr fun c ↦ and_congr_right fun hc ↦ and_congr names_iff.symm ?_
    constructor
    · exact fun h ↦ ⟨(h c hc).mpr rfl, fun c' hc' ↦ (h c' hc').mp⟩
    · rintro ⟨hchanges, halone⟩ c' hc'
      exact ⟨halone c' hc', fun heq ↦ heq ▸ hchanges⟩
  have hshould : ShouldSkip csr p r ↔
      ∃ c, Names csr c ∧ Changes p r c ∧ ∀ c', Changes p r c' → c' = c := by
    refine exists_congr fun c ↦ and_congr_right fun _ ↦ ?_
    constructor
    · exact fun h ↦ ⟨(h c).mpr rfl, fun c' ↦ (h c').mp⟩
    · rintro ⟨hchanges, hall⟩ c'
      exact ⟨hall c', fun heq ↦ heq ▸ hchanges⟩
  rw [hskips, hshould]
  constructor
  · rintro h c hnames halone
    constructor
    · intro hc
      obtain ⟨c', hnames', -, hall⟩ := h.mp ⟨c, hc, hnames, halone⟩
      rwa [hnames.unique hnames']
    · intro hall
      obtain ⟨c', hc', hnames', -⟩ := h.mpr ⟨c, hnames, halone.1, hall⟩
      rwa [hnames.unique hnames']
  · intro h
    constructor
    · rintro ⟨c, hc, hnames, halone⟩
      exact ⟨c, hnames, halone.1, (h c hnames halone).mp hc⟩
    · rintro ⟨c, hnames, hchanges, hall⟩
      have halone : ChangesAlone p r c := ⟨hchanges, fun c' _ ↦ hall c'⟩
      exact ⟨c, (h c hnames halone).mpr hall, hnames, halone⟩

theorem exists_compareCsrs {text : Text} (hinstr : p.instr = ' ' :: text)
    (htext : Disassembles text csr) {pstatus status : ℤ}
    (hpstatus : Text.int 16 p.mstatus = .ok pstatus) (hstatus : Text.int 16 r.mstatus = .ok status)
    (hvalues : p.values ≠ r.values) :
    ∃ keys, compareCsrs p r = .ok (some (.csrs keys)) ∧
      keys.skip = skips (csr.getD []) p r := by
  obtain ⟨instrT, hkey⟩ := htext.instrKey
  rw [compareCsrs, if_pos hvalues, combF, combF, hpstatus, hstatus, hinstr, hkey]
  exact ⟨_, rfl, rfl⟩

/-- Whatever two records differ in: the transition between them is skipped as the criterion says,
unless the instruction names one of `frm`, `medeleg`, `mcounteren` and `scounteren` and changes this
register only, or it names another monitored register and changes it together with one of these. -/
theorem extractTransitions_skips_iff {text : Text} (hinstr : p.instr = ' ' :: text)
    (htext : Disassembles text csr) {pstatus status : ℤ}
    (hpstatus : Text.int 16 p.mstatus = .ok pstatus) (hstatus : Text.int 16 r.mstatus = .ok status)
    (hp : p.others = []) (hr : r.others = []) (hchanges : ∃ c, Changes p r c) :
    ∃ keys, changeFrom false (some p) r = .ok (some (.csrs keys)) ∧
      (keys.skip = true → ∀ fpCsr s, admitChange fpCsr s (.csrs keys) = s) ∧
      ((keys.skip = true ↔ ShouldSkip csr p r) ↔
        ∀ c, Names csr c → ChangesAlone p r c →
          (c ∈ Monitored.compared ↔ ∀ c', Changes p r c' → c' = c)) := by
  obtain ⟨c, hc⟩ := hchanges
  obtain ⟨keys, hcompare, hskip⟩ :=
    exists_compareCsrs hinstr htext hpstatus hstatus (values_ne_of_changes hc hp hr)
  refine ⟨keys, hcompare, fun hkeys fpCsr s ↦ ?_, ?_⟩
  · rw [admitChange, if_pos hkeys]
  · rw [hskip]
    exact skips_eq_shouldSkip_iff

end Skips

/-- The record before `csrrsi a2, frm, 1`, or with the rounding mode after it. -/
def frmRecord (frm : Text) : Record where
  mstatus := "0x8000000a00006000".toList
  frm
  fflags := "00".toList
  mcause := "00".toList
  scause := "00".toList
  medeleg := "00000000".toList
  mcounteren := "00000000".toList
  scounteren := "00000000".toList
  others := []
  instr := ' ' :: disasmText "csrrsi".toList ["a2".toList, "frm".toList, "1".toList]
  pc := "0x0000000080002000".toList

theorem disassembles_frm :
    Disassembles (disasmText "csrrsi".toList ["a2".toList, "frm".toList, "1".toList])
      (some "frm".toList) :=
  .accesses (by decide) ⟨by decide, by decide, by decide⟩ ⟨by decide, by decide, by decide⟩
    ⟨by decide, by decide, by decide⟩

/-- Only the named register changes, but the transition is kept. -/
theorem not_skips_frm :
    ShouldSkip (some "frm".toList) (frmRecord ['0']) (frmRecord ['1']) ∧
      ∃ keys, changeFrom false (some (frmRecord ['0'])) (frmRecord ['1']) =
        .ok (some (.csrs keys)) ∧ keys.skip = false := by
  constructor
  · refine ⟨.frm, .inl rfl, fun c' ↦ ?_⟩
    cases c' <;> decide
  · have hvalues : (frmRecord ['0']).values ≠ (frmRecord ['1']).values := by decide
    obtain ⟨keys, hcompare, hskip⟩ :=
      exists_compareCsrs rfl disassembles_frm (by rfl) (by rfl) hvalues
    exact ⟨keys, hcompare, hskip.trans (by decide)⟩

theorem extractTransitions_skips_iff_frm :
    ∃ keys, changeFrom false (some (frmRecord ['0'])) (frmRecord ['1']) =
        .ok (some (.csrs keys)) ∧
      ((keys.skip = true ↔ ShouldSkip (some "frm".toList) (frmRecord ['0']) (frmRecord ['1'])) ↔
        ∀ c, Names (some "frm".toList) c → ChangesAlone (frmRecord ['0']) (frmRecord ['1']) c →
          (c ∈ Monitored.compared ↔
            ∀ c', Changes (frmRecord ['0']) (frmRecord ['1']) c' → c' = c)) := by
  obtain ⟨keys, hchange, -, hiff⟩ := extractTransitions_skips_iff (p := frmRecord ['0'])
    (r := frmRecord ['1']) rfl disassembles_frm (by rfl) (by rfl) rfl rfl ⟨.frm, by decide⟩
  exact ⟨keys, hchange, hiff⟩

end ProcessorFuzz.Common.Transitions
