import ProcessorFuzz.Library.Text

/-!
# RISC-V opcode tables and register names

The opcode dictionaries of `riscv_definitions.py` that the `RV64G` generator uses, in source order,
and the names of the monitored control and status registers. An entry holds the assembly syntax
with its operand placeholders and the operands to be filled in.

The source binds `rv32i_rtype` twice. The second binding, with the word-sized operations, is the
one that `rv32i` is built from, so the first one is not part of any table. The double and quad
precision tables are never selected by `RV64G` and are left out.
-/

namespace ProcessorFuzz.Mutation.RiscvDefinitions

open Library

/-- One entry `(syntax, xregs, fregs, imms, symbols)` of an opcode dictionary. -/
structure OpcodeEntry where
  asm : Text
  xregs : List Text
  fregs : List Text
  imms : List (Text × ℕ)
  symbols : List Text
  deriving DecidableEq, Repr

/-- A Python dictionary keyed by opcode, in insertion order. -/
abbrev OpcodeTable := List (Text × OpcodeEntry)

def opcode (name asm : String) (xregs fregs : List String) (imms : List (String × ℕ))
    (symbols : List String) : Text × OpcodeEntry :=
  (name.toList,
    { asm := asm.toList
      xregs := xregs.map String.toList
      fregs := fregs.map String.toList
      imms := imms.map fun imm ↦ (imm.1.toList, imm.2)
      symbols := symbols.map String.toList })

namespace OpcodeTable

def keys (table : OpcodeTable) : List Text := table.map Prod.fst

/-- `table[key] = entry`: a known key keeps its place. -/
def insert (table : OpcodeTable) (item : Text × OpcodeEntry) : OpcodeTable :=
  if item.1 ∈ table.keys then
    table.map fun old ↦ if old.1 = item.1 then item else old
  else table ++ [item]

/-- `table.update(other)`. -/
def update (table other : OpcodeTable) : OpcodeTable := other.foldl insert table

/-- Every entry of an updated table comes from one of the two tables. -/
theorem mem_update {table other : OpcodeTable} {item : Text × OpcodeEntry}
    (h : item ∈ table.update other) : item ∈ table ∨ item ∈ other := by
  induction other generalizing table with
  | nil => exact .inl h
  | cons next other ih =>
    rcases ih h with hmem | hmem
    · unfold insert at hmem
      split at hmem
      · obtain ⟨old, hold, rfl⟩ := List.mem_map.mp hmem
        split
        · exact .inr List.mem_cons_self
        · exact .inl hold
      · rcases List.mem_append.mp hmem with hmem | hmem
        · exact .inl hmem
        · rw [List.mem_singleton.mp hmem]
          exact .inr List.mem_cons_self
    · exact .inr (List.mem_cons_of_mem next hmem)

/-- Every entry of a table that is built by updates comes from one of the tables. -/
theorem mem_foldl_update {tables : List OpcodeTable} {table : OpcodeTable}
    {item : Text × OpcodeEntry} (h : item ∈ tables.foldl update table) :
    item ∈ table ∨ ∃ other ∈ tables, item ∈ other := by
  induction tables generalizing table with
  | nil => exact .inl h
  | cons next tables ih =>
    rcases ih h with hmem | ⟨other, hother, hmem⟩
    · rcases mem_update hmem with hmem | hmem
      · exact .inl hmem
      · exact .inr ⟨next, List.mem_cons_self, hmem⟩
    · exact .inr ⟨other, List.mem_cons_of_mem next hother, hmem⟩

theorem keys_insert_subset (table : OpcodeTable) (item : Text × OpcodeEntry) :
    item.1 ∈ (table.insert item).keys ∧ table.keys ⊆ (table.insert item).keys := by
  unfold insert
  split
  · next h =>
    have hkeys : keys (table.map fun old ↦ if old.1 = item.1 then item else old) = table.keys := by
      unfold keys
      rw [List.map_map]
      apply List.map_congr_left
      intro old _
      by_cases heq : old.1 = item.1
      · simp [heq]
      · simp [heq]
    rw [hkeys]
    exact ⟨h, List.Subset.refl _⟩
  · unfold keys
    rw [List.map_append]
    exact ⟨List.mem_append_right _ List.mem_cons_self, List.subset_append_left _ _⟩

theorem keys_update_subset (table other : OpcodeTable) :
    table.keys ⊆ (table.update other).keys ∧ other.keys ⊆ (table.update other).keys := by
  induction other generalizing table with
  | nil => exact ⟨List.Subset.refl _, List.nil_subset _⟩
  | cons next other ih =>
    obtain ⟨hnext, htable⟩ := keys_insert_subset table next
    obtain ⟨hinsert, hother⟩ := ih (table.insert next)
    exact ⟨fun _ h ↦ hinsert (htable h), List.cons_subset.mpr ⟨hinsert hnext, hother⟩⟩

/-- No opcode is lost by updates. -/
theorem keys_foldl_update_subset {tables : List OpcodeTable} {table other : OpcodeTable}
    (h : other = table ∨ other ∈ tables) : other.keys ⊆ (tables.foldl update table).keys := by
  induction tables generalizing table other with
  | nil =>
    rcases h with rfl | h
    · exact List.Subset.refl _
    · exact nomatch h
  | cons next tables ih =>
    obtain ⟨htable, hnext⟩ := keys_update_subset table next
    have hrest : (table.update next).keys ⊆ ((next :: tables).foldl update table).keys :=
      ih (.inl rfl)
    rcases h with rfl | h
    · exact fun _ hkey ↦ hrest (htable hkey)
    · rcases List.mem_cons.mp h with rfl | h
      · exact fun _ hkey ↦ hrest (hnext hkey)
      · exact ih (.inr h)

theorem mem_of_lookup_eq {table : OpcodeTable} {key : Text} {entry : OpcodeEntry}
    (h : table.lookup key = some entry) : (key, entry) ∈ table := by
  obtain ⟨before, after, heq, -⟩ := List.lookup_eq_some_iff.mp h
  rw [heq]
  exact List.mem_append_right _ List.mem_cons_self

theorem exists_lookup_eq {table : OpcodeTable} {key : Text} (h : key ∈ table.keys) :
    ∃ entry, table.lookup key = some entry ∧ (key, entry) ∈ table := by
  obtain ⟨⟨k, value⟩, hmem, heq⟩ := List.mem_map.mp h
  obtain rfl : k = key := heq
  cases hlookup : table.lookup k with
  | none =>
    have hne := List.lookup_eq_none_iff.mp hlookup (k, value) hmem
    exact absurd rfl (bne_iff_ne.mp hne)
  | some entry => exact ⟨entry, rfl, mem_of_lookup_eq hlookup⟩

end OpcodeTable

def rv32iRtype : OpcodeTable :=
  [opcode "addw" "addw xreg0, xreg1, xreg2" ["xreg0", "xreg1", "xreg2"] [] [] [],
    opcode "subw" "subw xreg0, xreg1, xreg2" ["xreg0", "xreg1", "xreg2"] [] [] [],
    opcode "sllw" "sllw xreg0, xreg1, xreg2" ["xreg0", "xreg1", "xreg2"] [] [] [],
    opcode "srlw" "srlw xreg0, xreg1, xreg2" ["xreg0", "xreg1", "xreg2"] [] [] [],
    opcode "sraw" "sraw xreg0, xreg1, xreg2" ["xreg0", "xreg1", "xreg2"] [] [] []]

def rv32iItype : OpcodeTable :=
  [opcode "jalr" "jalr xreg0, 0(xreg1)" ["xreg0", "xreg1"] [] [] [],
    opcode "lb" "lb xreg0, imm6(xreg1)" ["xreg0", "xreg1"] [] [("imm6", 1)] [],
    opcode "lh" "lh xreg0, imm6(xreg1)" ["xreg0", "xreg1"] [] [("imm6", 2)] [],
    opcode "lw" "lw xreg0, imm6(xreg1)" ["xreg0", "xreg1"] [] [("imm6", 4)] [],
    opcode "lbu" "lbu xreg0, imm6(xreg1)" ["xreg0", "xreg1"] [] [("imm6", 1)] [],
    opcode "lhu" "lhu xreg0, imm6(xreg1)" ["xreg0", "xreg1"] [] [("imm6", 2)] [],
    opcode "slli" "slli xreg0, xreg1, uimm5" ["xreg0", "xreg1"] [] [("uimm5", 1)] [],
    opcode "srli" "srli xreg0, xreg1, uimm5" ["xreg0", "xreg1"] [] [("uimm5", 1)] [],
    opcode "srai" "srai xreg0, xreg1, uimm5" ["xreg0", "xreg1"] [] [("uimm5", 1)] [],
    opcode "addi" "addi xreg0, xreg1, imm12" ["xreg0", "xreg1"] [] [("imm12", 1)] [],
    opcode "slti" "slti xreg0, xreg1, imm12" ["xreg0", "xreg1"] [] [("imm12", 1)] [],
    opcode "sltiu" "sltiu xreg0, xreg1, imm12" ["xreg0", "xreg1"] [] [("imm12", 1)] [],
    opcode "xori" "xori xreg0, xreg1, imm12" ["xreg0", "xreg1"] [] [("imm12", 1)] [],
    opcode "ori" "ori xreg0, xreg1, imm12" ["xreg0", "xreg1"] [] [("imm12", 1)] [],
    opcode "andi" "andi xreg0, xreg1, imm12" ["xreg0", "xreg1"] [] [("imm12", 1)] [],
    opcode "fence" "fence" [] [] [] [],
    opcode "ecall" "ecall" [] [] [] [],
    opcode "ebreak" "ebreak" [] [] [] []]

def rv32iStype : OpcodeTable :=
  [opcode "sb" "sb xreg0, imm6(xreg1)" ["xreg0", "xreg1"] [] [("imm6", 1)] [],
    opcode "sh" "sh xreg0, imm6(xreg1)" ["xreg0", "xreg1"] [] [("imm6", 2)] [],
    opcode "sw" "sw xreg0, imm6(xreg1)" ["xreg0", "xreg1"] [] [("imm6", 4)] []]

def rv32iBtype : OpcodeTable :=
  [opcode "beq" "beq xreg0, xreg1, symbol" ["xreg0", "xreg1"] [] [] ["symbol"],
    opcode "bne" "bne xreg0, xreg1, symbol" ["xreg0", "xreg1"] [] [] ["symbol"],
    opcode "blt" "blt xreg0, xreg1, symbol" ["xreg0", "xreg1"] [] [] ["symbol"],
    opcode "bge" "bge xreg0, xreg1, symbol" ["xreg0", "xreg1"] [] [] ["symbol"],
    opcode "bltu" "bltu xreg0, xreg1, symbol" ["xreg0", "xreg1"] [] [] ["symbol"],
    opcode "bgeu" "bgeu xreg0, xreg1, symbol" ["xreg0", "xreg1"] [] [] ["symbol"]]

def rv32iUtype : OpcodeTable :=
  [opcode "lui" "lui xreg0, uimm20" ["xreg0"] [] [("uimm20", 1)] [],
    opcode "auipc" "auipc xreg0, uimm20" ["xreg0"] [] [("uimm20", 1)] []]

def rv32iJtype : OpcodeTable :=
  [opcode "jal" "jal xreg0, symbol" ["xreg0"] [] [] ["symbol"]]

def rv64iItype : OpcodeTable :=
  [opcode "lwu" "lwu xreg0, imm6(xreg1)" ["xreg0", "xreg1"] [] [("imm6", 4)] [],
    opcode "ld" "ld xreg0, imm6(xreg1)" ["xreg0", "xreg1"] [] [("imm6", 8)] [],
    opcode "slli" "slli xreg0, xreg1, uimm6" ["xreg0", "xreg1"] [] [("uimm6", 1)] [],
    opcode "srli" "srli xreg0, xreg1, uimm6" ["xreg0", "xreg1"] [] [("uimm6", 1)] [],
    opcode "srai" "srai xreg0, xreg1, uimm6" ["xreg0", "xreg1"] [] [("uimm6", 1)] [],
    opcode "addiw" "addiw xreg0, xreg1, imm12" ["xreg0", "xreg1"] [] [("imm12", 1)] [],
    opcode "slliw" "slliw xreg0, xreg1, uimm5" ["xreg0", "xreg1"] [] [("uimm5", 1)] [],
    opcode "srliw" "srliw xreg0, xreg1, uimm5" ["xreg0", "xreg1"] [] [("uimm5", 1)] [],
    opcode "sraiw" "sraiw xreg0, xreg1, uimm5" ["xreg0", "xreg1"] [] [("uimm5", 1)] []]

def rv64iStype : OpcodeTable :=
  [opcode "sd" "sd xreg0, imm6(xreg1)" ["xreg0", "xreg1"] [] [("imm6", 8)] []]

def rvZifencei : OpcodeTable :=
  [opcode "fence.i" "fence.i" [] [] [] [],
    opcode "sfence.vma" "sfence.vma xreg0, xreg1" ["xreg0", "xreg1"] [] [] []]

def rvZicsr : OpcodeTable :=
  [opcode "csrrw" "csrrw xreg0, \x7b\x7d, xreg1" ["xreg0", "xreg1"] [] [] [],
    opcode "csrrs" "csrrs xreg0, \x7b\x7d, xreg1" ["xreg0", "xreg1"] [] [] [],
    opcode "csrrc" "csrrc xreg0, \x7b\x7d, xreg1" ["xreg0", "xreg1"] [] [] [],
    opcode "csrrwi" "csrrwi xreg0, \x7b\x7d, uimm5" ["xreg0"] [] [("uimm5", 1)] [],
    opcode "csrrsi" "csrrsi xreg0, \x7b\x7d, uimm5" ["xreg0"] [] [("uimm5", 1)] [],
    opcode "csrrci" "csrrci xreg0, \x7b\x7d, uimm5" ["xreg0"] [] [("uimm5", 1)] []]

def rv32mRtype : OpcodeTable :=
  [opcode "mul" "mul xreg0, xreg1, xreg2" ["xreg0", "xreg1", "xreg2"] [] [] [],
    opcode "mulh" "mulh xreg0, xreg1, xreg2" ["xreg0", "xreg1", "xreg2"] [] [] [],
    opcode "mulhsu" "mulhsu xreg0, xreg1, xreg2" ["xreg0", "xreg1", "xreg2"] [] [] [],
    opcode "mulhu" "mulhu xreg0, xreg1, xreg2" ["xreg0", "xreg1", "xreg2"] [] [] [],
    opcode "div" "div xreg0, xreg1, xreg2" ["xreg0", "xreg1", "xreg2"] [] [] [],
    opcode "divu" "divu xreg0, xreg1, xreg2" ["xreg0", "xreg1", "xreg2"] [] [] [],
    opcode "rem" "rem xreg0, xreg1, xreg2" ["xreg0", "xreg1", "xreg2"] [] [] [],
    opcode "remu" "remu xreg0, xreg1, xreg2" ["xreg0", "xreg1", "xreg2"] [] [] []]

def rv64mRtype : OpcodeTable :=
  [opcode "mulw" "mulw xreg0, xreg1, xreg2" ["xreg0", "xreg1", "xreg2"] [] [] [],
    opcode "divw" "divw xreg0, xreg1, xreg2" ["xreg0", "xreg1", "xreg2"] [] [] [],
    opcode "divuw" "divuw xreg0, xreg1, xreg2" ["xreg0", "xreg1", "xreg2"] [] [] [],
    opcode "remw" "remw xreg0, xreg1, xreg2" ["xreg0", "xreg1", "xreg2"] [] [] [],
    opcode "remuw" "remuw xreg0, xreg1, xreg2" ["xreg0", "xreg1", "xreg2"] [] [] []]

def rv32aRtype : OpcodeTable :=
  [opcode "lr.w" "lr.w xreg0, (xreg1)" ["xreg0", "xreg1"] [] [] [],
    opcode "sc.w" "sc.w xreg0, xreg2, (xreg1)" ["xreg0", "xreg1", "xreg2"] [] [] [],
    opcode "amoswap.w" "amoswap.w xreg0, xreg2, (xreg1)" ["xreg0", "xreg1", "xreg2"] [] [] [],
    opcode "amoadd.w" "amoadd.w xreg0, xreg2, (xreg1)" ["xreg0", "xreg1", "xreg2"] [] [] [],
    opcode "amoxor.w" "amoxor.w xreg0, xreg2, (xreg1)" ["xreg0", "xreg1", "xreg2"] [] [] [],
    opcode "amoand.w" "amoand.w xreg0, xreg2, (xreg1)" ["xreg0", "xreg1", "xreg2"] [] [] [],
    opcode "amoor.w" "amoor.w xreg0, xreg2, (xreg1)" ["xreg0", "xreg1", "xreg2"] [] [] [],
    opcode "amomin.w" "amomin.w xreg0, xreg2, (xreg1)" ["xreg0", "xreg1", "xreg2"] [] [] [],
    opcode "amomax.w" "amomax.w xreg0, xreg2, (xreg1)" ["xreg0", "xreg1", "xreg2"] [] [] [],
    opcode "amominu.w" "amominu.w xreg0, xreg2, (xreg1)" ["xreg0", "xreg1", "xreg2"] [] [] [],
    opcode "amomaxu.w" "amomaxu.w xreg0, xreg2, (xreg1)" ["xreg0", "xreg1", "xreg2"] [] [] []]

def rv64aRtype : OpcodeTable :=
  [opcode "lr.d" "lr.d xreg0, (xreg1)" ["xreg0", "xreg1"] [] [] [],
    opcode "sc.d" "sc.d xreg0, xreg1, (xreg1)" ["xreg0", "xreg1", "xreg2"] [] [] [],
    opcode "amoswap.d" "amoswap.d xreg0, xreg2, (xreg1)" ["xreg0", "xreg1", "xreg2"] [] [] [],
    opcode "amoadd.d" "amoadd.d xreg0, xreg2, (xreg1)" ["xreg0", "xreg1", "xreg2"] [] [] [],
    opcode "amoxor.d" "amoxor.d xreg0, xreg2, (xreg1)" ["xreg0", "xreg1", "xreg2"] [] [] [],
    opcode "amoand.d" "amoand.d xreg0, xreg2, (xreg1)" ["xreg0", "xreg1", "xreg2"] [] [] [],
    opcode "amoor.d" "amoor.d xreg0, xreg2, (xreg1)" ["xreg0", "xreg1", "xreg2"] [] [] [],
    opcode "amomin.d" "amomin.d xreg0, xreg2, (xreg1)" ["xreg0", "xreg1", "xreg2"] [] [] [],
    opcode "amomax.d" "amomax.d xreg0, xreg2, (xreg1)" ["xreg0", "xreg1", "xreg2"] [] [] [],
    opcode "amominu.d" "amominu.d xreg0, xreg2, (xreg1)" ["xreg0", "xreg1", "xreg2"] [] [] [],
    opcode "amomaxu.d" "amomaxu.d xreg0, xreg2, (xreg1)" ["xreg0", "xreg1", "xreg2"] [] [] []]

def rv32fRtype : OpcodeTable :=
  [opcode "fadd.s" "fadd.s freg0, freg1, freg2, \x7b\x7d" [] ["freg0", "freg1", "freg2"] [] [],
    opcode "fsub.s" "fsub.s freg0, freg1, freg2, \x7b\x7d" [] ["freg0", "freg1", "freg2"] [] [],
    opcode "fmul.s" "fmul.s freg0, freg1, freg2, \x7b\x7d" [] ["freg0", "freg1", "freg2"] [] [],
    opcode "fdiv.s" "fdiv.s freg0, freg1, freg2, \x7b\x7d" [] ["freg0", "freg1", "freg2"] [] [],
    opcode "fsqrt.s" "fsqrt.s freg0, freg1, \x7b\x7d" [] ["freg0", "freg1"] [] [],
    opcode "fsgnj.s" "fsgnj.s freg0, freg1, freg2" ["xreg0"] ["freg0", "freg1", "freg2"] [] [],
    opcode "fsgnjn.s" "fsgnjn.s freg0, freg1, freg2" ["xreg0"] ["freg0", "freg1", "freg2"] [] [],
    opcode "fsgnjx.s" "fsgnjx.s freg0, freg1, freg2" ["xreg0"] ["freg0", "freg1", "freg2"] [] [],
    opcode "fmin.s" "fmin.s freg0, freg1, freg2" [] ["freg0", "freg1", "freg2"] [] [],
    opcode "fmax.s" "fmax.s freg0, freg1, freg2" [] ["freg0", "freg1", "freg2"] [] [],
    opcode "fcvt.w.s" "fcvt.w.s xreg0, freg0, \x7b\x7d" ["xreg0"] ["freg0"] [] [],
    opcode "fcvt.wu.s" "fcvt.wu.s xreg0, freg0, \x7b\x7d" ["xreg0"] ["freg0"] [] [],
    opcode "fmv.x.w" "fmv.x.w xreg0, freg0" ["xreg0"] ["freg0"] [] [],
    opcode "feq.s" "feq.s xreg0, freg0, freg1" ["xreg0"] ["freg0", "freg1"] [] [],
    opcode "flt.s" "flt.s xreg0, freg0, freg1" ["xreg0"] ["freg0", "freg1"] [] [],
    opcode "fle.s" "fle.s xreg0, freg0, freg1" ["xreg0"] ["freg0", "freg1"] [] [],
    opcode "fclass.s" "fclass.s xreg0, freg0" ["xreg0"] ["freg0"] [] [],
    opcode "fcvt.s.w" "fcvt.s.w freg0, xreg0, \x7b\x7d" ["xreg0"] ["freg0"] [] [],
    opcode "fcvt.s.wu" "fcvt.s.wu freg0, xreg0, \x7b\x7d" ["xreg0"] ["freg0"] [] [],
    opcode "fmv.w.x" "fmv.w.x freg0, xreg0" ["xreg0"] ["freg0"] [] []]

def rv32fR4type : OpcodeTable :=
  [opcode "fmadd.s" "fmadd.s freg0, freg1, freg2, freg3, \x7b\x7d" [] ["freg0", "freg1", "freg2", "freg3"] [] [],
    opcode "fmsub.s" "fmsub.s freg0, freg1, freg2, freg3, \x7b\x7d" [] ["freg0", "freg1", "freg2", "freg3"] [] [],
    opcode "fnmsub.s" "fnmsub.s freg0, freg1, freg2, freg3, \x7b\x7d" [] ["freg0", "freg1", "freg2", "freg3"] [] [],
    opcode "fnmadd.s" "fnmadd.s freg0, freg1, freg2, freg3, \x7b\x7d" [] ["freg0", "freg1", "freg2", "freg3"] [] []]

def rv32fItype : OpcodeTable :=
  [opcode "flw" "flw freg0, imm6(xreg1)" ["xreg1"] ["freg0"] [("imm6", 4)] []]

def rv32fStype : OpcodeTable :=
  [opcode "fsw" "fsw freg0, imm6(xreg1)" ["xreg1"] ["freg0"] [("imm6", 4)] []]

def rv64fRtype : OpcodeTable :=
  [opcode "fcvt.l.s" "fcvt.l.s xreg0, freg0, \x7b\x7d" ["xreg0"] ["freg0"] [] [],
    opcode "fcvt.lu.s" "fcvt.lu.s xreg0, freg0, \x7b\x7d" ["xreg0"] ["freg0"] [] [],
    opcode "fcvt.s.l" "fcvt.s.l freg0, xreg0, \x7b\x7d" ["xreg0"] ["freg0"] [] [],
    opcode "fcvt.s.lu" "fcvt.s.lu freg0, xreg0, \x7b\x7d" ["xreg0"] ["freg0"] [] []]

def trapRet : OpcodeTable :=
  [opcode "mret" "mret" [] [] [] [],
    opcode "sret" "sret" [] [] [] [],
    opcode "uret" "uret" [] [] [] []]

def rv32i : OpcodeTable :=
  [rv32iRtype, rv32iItype, rv32iBtype, rv32iStype, rv32iJtype, rv32iUtype].foldl OpcodeTable.update []

def rv64i : OpcodeTable :=
  [rv64iItype, rv64iStype].foldl OpcodeTable.update []

def rv32m : OpcodeTable := rv32mRtype

def rv64m : OpcodeTable := rv64mRtype

def rv32a : OpcodeTable := rv32aRtype

def rv64a : OpcodeTable := rv64aRtype

def rv32f : OpcodeTable :=
  [rv32fRtype, rv32fR4type, rv32fItype, rv32fStype].foldl OpcodeTable.update []

def rv64f : OpcodeTable := rv64fRtype

/-- The `RV64G` part of `rv64`. -/
def rv64 : OpcodeTable :=
  [rv64i, rv64m, rv64a, rv64f].foldl OpcodeTable.update []

inductive CsrName
  | fflags | frm | fcsr | sstatus | sie | sscratch | sepc | scause | stval | sip | satp |
  mhartid | mstatus | medeleg | mie | mscratch | mepc | mcause | mtval | mip | pmpcfg0 |
  pmpaddr0 | pmpaddr1 | pmpaddr2 | pmpaddr3 | pmpaddr4 | pmpaddr5 | pmpaddr6 | pmpaddr7
  deriving DecidableEq, Repr

def CsrName.name : CsrName → Text
  | .fflags => "fflags".toList
  | .frm => "frm".toList
  | .fcsr => "fcsr".toList
  | .sstatus => "sstatus".toList
  | .sie => "sie".toList
  | .sscratch => "sscratch".toList
  | .sepc => "sepc".toList
  | .scause => "scause".toList
  | .stval => "stval".toList
  | .sip => "sip".toList
  | .satp => "satp".toList
  | .mhartid => "mhartid".toList
  | .mstatus => "mstatus".toList
  | .medeleg => "medeleg".toList
  | .mie => "mie".toList
  | .mscratch => "mscratch".toList
  | .mepc => "mepc".toList
  | .mcause => "mcause".toList
  | .mtval => "mtval".toList
  | .mip => "mip".toList
  | .pmpcfg0 => "pmpcfg0".toList
  | .pmpaddr0 => "pmpaddr0".toList
  | .pmpaddr1 => "pmpaddr1".toList
  | .pmpaddr2 => "pmpaddr2".toList
  | .pmpaddr3 => "pmpaddr3".toList
  | .pmpaddr4 => "pmpaddr4".toList
  | .pmpaddr5 => "pmpaddr5".toList
  | .pmpaddr6 => "pmpaddr6".toList
  | .pmpaddr7 => "pmpaddr7".toList

def csrNames : List CsrName :=
  [.fflags, .frm, .fcsr, .sstatus, .sie, .sscratch, .sepc, .scause, .stval, .sip, .satp,
    .mhartid, .mstatus, .medeleg, .mie, .mscratch, .mepc, .mcause, .mtval, .mip, .pmpcfg0,
    .pmpaddr0, .pmpaddr1, .pmpaddr2, .pmpaddr3, .pmpaddr4, .pmpaddr5, .pmpaddr6, .pmpaddr7]

theorem mem_csrNames (csr : CsrName) : csr ∈ csrNames := by
  cases csr <;> decide

end ProcessorFuzz.Mutation.RiscvDefinitions
