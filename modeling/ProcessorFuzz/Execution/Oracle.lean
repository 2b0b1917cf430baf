import ProcessorFuzz.Execution.HtifSignature
import ProcessorFuzz.Execution.RtlMemory
import ProcessorFuzz.Execution.SignatureChecker

/-!
# The oracle on the files of the two simulators

`check` reads the signature file that Spike leaves and the one of the RTL host with the symbols of
the test, and compares the registers, the CSRs and the data. Each simulator has written its file
from its own memory in its own way. So the verdict on the files is the verdict on the two memories:
they agree up to the tolerances, or what is not tolerated is hidden by what is tolerated after it.

`check_intr` reads the file of the RTL host alone, and `write_isa_intr` hands the interrupt that it
found to Spike.
-/

namespace ProcessorFuzz.Execution.Oracle

open Library Mutation.RiscvDefinitions SignatureFile SignatureChecker HtifSignature

/-- The values that were read, as a signature of these sizes. Words are printed without a sign. -/
def signature (values : SignatureValues) (sizes : Fin 6 → ℕ) : Signature sizes where
  xregVals := Vector.ofFn fun i ↦ (values.xregVals.getD i 0).toNat
  fregVals := Vector.ofFn fun i ↦ (values.fregVals.getD i 0).toNat
  csrVals csr := (values.csrVals.getD csr 0).toNat
  dataVals i := Vector.ofFn fun j ↦ ((values.dataVals.getD (dataKey i) []).getD j 0).toNat

/-- The sizes of the sections that were read. -/
def sectionSizes (values : SignatureValues) (i : Fin 6) : ℕ :=
  (values.dataVals.getD (dataKey i) []).length

/-- `sigChecker.check` on the contents of the two files. -/
def checkFiles (symbols : Dict Text ℕ) (isaSig rtlSig : Text) : Except PyError Bool := do
  let indexes ← readSymbols symbols
  let isa ← readSig isaSig indexes
  let rtl ← readSig rtlSig indexes
  let sizes := sectionSizes isa
  .ok (check (signature isa sizes) (signature rtl sizes))

/-- The top bit of a cause: it is that of an interrupt. -/
def IsInterrupt (cause : ℤ) : Prop := cause / 2 ^ 63 % 2 = 1

instance (cause : ℤ) : Decidable (IsInterrupt cause) :=
  inferInstanceAs (Decidable (_ = _))

/-- `sigChecker.check_intr`: the address at which an interrupt was taken, zero when there was
none. -/
def checkIntr (symbols : Dict Text ℕ) (rtlSig : Text) : Except PyError ℤ := do
  let indexes ← readSymbols symbols
  let rtl ← readSig rtlSig indexes
  let value csr := rtl.csrVals.getD csr 0
  assert (decide ¬ (IsInterrupt (value .scause) ∧ IsInterrupt (value .mcause)))
    "Only one of Supervisor or Machine interrupt can be asserted"
  .ok (if IsInterrupt (value .scause) then value .sepc
    else if IsInterrupt (value .mcause) then value .mepc
    else 0)

/-- `write_isa_intr`: the interrupt file of Spike from that of the RTL host. -/
def writeIsaIntr (intrfile : Text) (epc : ℤ) : Except PyError Text := do
  let tuples := (Text.readlines intrfile).map (Text.split ":".toList)
  assert (decide (tuples.length = 1)) "Interrupt must be asserted only one time"
  let tuple ← Text.item tuples 0
  let val ← Text.item tuple 1
  let val ← Text.int 2 val
  .ok (Text.zeroPadInt 16 16 epc ++ ":".toList ++ Text.zeroPadInt 2 4 val ++ "\n".toList)

/-- The number of words in a section. -/
def sizes (layout : Layout) (i : Fin 6) : ℕ := (layout.dataEnd i - layout.dataStart i) / 8

/-- The registers, CSRs and data that a memory has at the symbols of a layout. -/
def signatureOf (layout : Layout) (word : ℕ → UInt64) : Signature (sizes layout) where
  xregVals := Vector.ofFn fun i ↦ (word (layout.xreg i)).toNat
  fregVals := Vector.ofFn fun i ↦ (word (layout.freg i)).toNat
  csrVals csr := (word (layout.csr csr)).toNat
  dataVals i := Vector.ofFn fun j ↦ (word (layout.dataStart i + 8 * j)).toNat

section Values

variable {layout : Layout} (word : ℕ → UInt64)

theorem wordsBetween_eq (haligned : layout.Aligned) (i : Fin 6) :
    wordsBetween word (layout.dataStart i) (layout.dataEnd i) =
      (List.range (sizes layout i)).map fun j ↦ ((word (layout.dataStart i + 8 * j)).toNat : ℤ) := by
  have hsize : 8 ∣ layout.dataEnd i - layout.dataStart i :=
    (by decide : 8 ∣ 16).trans (haligned.dataSize i i.isLt)
  rw [wordsBetween, rangeStep_of_dvd (by decide) hsize, List.map_map]
  rfl

theorem getD_dataVals (haligned : layout.Aligned) (i : Fin 6) :
    (layout.values word).dataVals.getD (dataKey i) [] =
      (List.range (sizes layout i)).map fun j ↦ ((word (layout.dataStart i + 8 * j)).toNat : ℤ) := by
  rw [Dict.getD, (layout.shows_values word).data i i.isLt, Option.getD_some,
    wordsBetween_eq word haligned]

theorem sectionSizes_values (haligned : layout.Aligned) :
    sectionSizes (layout.values word) = sizes layout := by
  funext i
  rw [sectionSizes, getD_dataVals word haligned, List.length_map, List.length_range]

theorem getD_map_range {n i : ℕ} (hi : i < n) (value : ℕ → ℤ) :
    ((List.range n).map value).getD i 0 = value i := by
  rw [List.getD_eq_getElem?_getD, List.getElem?_map, List.getElem?_range hi]
  rfl

/-- The values that are read from a file are those of the memory. -/
theorem signature_values (haligned : layout.Aligned) :
    signature (layout.values word) (sizes layout) = signatureOf layout word := by
  have hshows := layout.shows_values word
  have hxreg : (fun i : Fin 32 ↦ ((layout.values word).xregVals.getD i 0).toNat) =
      fun i : Fin 32 ↦ (word (layout.xreg i)).toNat := by
    funext i
    rw [hshows.xreg, getD_map_range i.isLt fun i ↦ ((word (layout.xreg i)).toNat : ℤ)]
    rfl
  have hfreg : (fun i : Fin 32 ↦ ((layout.values word).fregVals.getD i 0).toNat) =
      fun i : Fin 32 ↦ (word (layout.freg i)).toNat := by
    funext i
    rw [hshows.freg, getD_map_range i.isLt fun i ↦ ((word (layout.freg i)).toNat : ℤ)]
    rfl
  have hcsr : (fun csr ↦ ((layout.values word).csrVals.getD csr 0).toNat) =
      fun csr ↦ (word (layout.csr csr)).toNat := by
    funext csr
    rw [Dict.getD, hshows.csr csr (mem_csrNames csr)]
    rfl
  have hdata : (fun i : Fin 6 ↦ Vector.ofFn fun j : Fin (sizes layout i) ↦
      (((layout.values word).dataVals.getD (dataKey i) []).getD j 0).toNat) =
      fun i : Fin 6 ↦ Vector.ofFn fun j : Fin (sizes layout i) ↦
        (word (layout.dataStart i + 8 * j)).toNat := by
    funext i
    congr 1
    funext j
    rw [getD_dataVals word haligned, getD_map_range j.isLt fun j ↦
      ((word (layout.dataStart i + 8 * j)).toNat : ℤ)]
    rfl
  rw [signature, signatureOf, hxreg, hfreg, hcsr, hdata]

/-- The verdict on two files is the verdict on the memories from which they were written. -/
theorem checkFiles_fileLines {symbols : Dict Text ℕ} (haligned : layout.Aligned)
    (hsymbols : layout.Describes symbols) (isaWord rtlWord : ℕ → UInt64) :
    checkFiles symbols (writeLines (layout.fileLines isaWord))
      (writeLines (layout.fileLines rtlWord)) =
        .ok (check (signatureOf layout isaWord) (signatureOf layout rtlWord)) := by
  rw [checkFiles, readSymbols_eq_ok hsymbols, ok_bind, readSig_eq_ok haligned, ok_bind,
    readSig_eq_ok haligned, ok_bind]
  dsimp only
  rw [sectionSizes_values isaWord haligned, signature_values isaWord haligned,
    signature_values rtlWord haligned]

end Values

/-- What is accepted: signatures that agree up to the tolerances, and those whose differences are
hidden. -/
theorem check_eq_true_iff_accepts_or_hidden {sizes : Fin 6 → ℕ} (isa rtl : Signature sizes) :
    check isa rtl = true ↔ Accepts isa rtl ∨ Hidden isa rtl := by
  rw [check_eq_true_iff, accepts_iff, Hidden]
  constructor
  · rintro ⟨hregisters, hcsrs, hdata⟩
    by_cases huntolerated :
        Untolerated (registerEntries isa rtl) ∨ Untolerated (csrEntries isa rtl)
    · exact .inr ⟨hdata, huntolerated, hregisters, hcsrs⟩
    · obtain ⟨hregisters', hcsrs'⟩ := not_or.mp huntolerated
      exact .inl ⟨hregisters', hcsrs', hdata⟩
  · rintro (⟨hregisters, hcsrs, hdata⟩ | ⟨hdata, -, hregisters, hcsrs⟩)
    · exact ⟨endsTolerated_of_not_untolerated hregisters, endsTolerated_of_not_untolerated hcsrs,
        hdata⟩
    · exact ⟨hregisters, hcsrs, hdata⟩

/-- The symbols as the fuzzer reads them from the listing. -/
def hostSymbols (symbols : Dict Text UInt64) : Dict Text ℕ where
  entries := symbols.entries.map fun entry ↦ (entry.1, entry.2.toNat)
  nodup := by
    rw [List.map_map]
    exact symbols.nodup

theorem get?_hostSymbols (symbols : Dict Text UInt64) (name : Text) :
    (hostSymbols symbols).get? name = (symbols.get? name).map UInt64.toNat := by
  ext addr
  rw [Dict.get?_eq_some_iff, Option.map_eq_some_iff]
  constructor
  · intro h
    obtain ⟨⟨name', addr'⟩, hmem, heq⟩ := List.mem_map.mp h
    obtain ⟨rfl, rfl⟩ := Prod.mk.inj heq
    exact ⟨addr', Dict.get?_eq_some_iff.mpr hmem, rfl⟩
  · rintro ⟨addr', hget, rfl⟩
    exact List.mem_map.mpr ⟨(name, addr'), Dict.get?_eq_some_iff.mp hget, rfl⟩

/-- A linked test. -/
structure Program where
  symbols : Dict Text UInt64
  regions : Regions
  layout : Layout
  valid : regions.Valid
  aligned : layout.Aligned
  regions_describes : regions.Describes symbols
  layout_describes : layout.Describes (hostSymbols symbols)

namespace Program

variable (program : Program)

theorem addr_eq {name : Text} {addr : ℕ} {addr' : UInt64}
    (h : (hostSymbols program.symbols).get? name = some addr)
    (h' : program.symbols.get? name = some addr') : addr = addr'.toNat := by
  rw [get?_hostSymbols, h'] at h
  exact (Option.some.inj h).symm

theorem sigStart_eq : program.layout.sigStart = program.regions.sigStart.toNat :=
  program.addr_eq program.layout_describes.sigStart program.regions_describes.sigStart

theorem sigEnd_eq : program.layout.sigEnd = program.regions.sigEnd.toNat :=
  program.addr_eq program.layout_describes.sigEnd program.regions_describes.sigEnd

theorem dataAddrs_eq : program.layout.dataAddrs =
    program.regions.dataAddrs.map fun addrs ↦ (addrs.1.toNat, addrs.2.toNat) := by
  rw [Layout.dataAddrs, Regions.dataAddrs, List.map_map]
  apply List.map_congr_left
  intro i hi
  have hlt := List.mem_range.mp hi
  exact Prod.ext
    (program.addr_eq (program.layout_describes.dataStart i hlt)
      (program.regions_describes.dataStart i hlt))
    (program.addr_eq (program.layout_describes.dataEnd i hlt)
      (program.regions_describes.dataEnd i hlt))

theorem sigStart_lt : program.layout.sigStart < program.layout.sigEnd := by
  have houtput := program.aligned.xreg 0 (by decide)
  exact houtput.le.trans_lt houtput.lt

/-- What `htif_t::stop` writes from the memory of Spike. -/
theorem stop_eq {sigFile : Text} (hfile : sigFile ≠ []) (mem : ByteMemory) :
    stop (loadProgram {} program.symbols) sigFile mem =
      .ok (some (writeLines (program.layout.fileLines (leWord mem)))) := by
  have hvalid := program.valid
  have hlen : (program.regions.sigEnd - program.regions.sigStart).toNat =
      program.regions.sigEnd.toNat - program.regions.sigStart.toNat :=
    UInt64.toNat_sub_of_le _ _ hvalid.sigLe
  have hlt := program.sigStart_lt
  rw [program.sigStart_eq, program.sigEnd_eq] at hlt
  have hne : program.regions.sigEnd - program.regions.sigStart ≠ 0 := by
    intro hzero
    rw [hzero, UInt64.toNat_zero] at hlen
    omega
  have hfits : ∀ addrs ∈ program.regions.dataAddrs, addrs.1 ≤ addrs.2 ∧
      16 ∣ addrs.2.toNat - addrs.1.toNat ∧ addrs.2.toNat - addrs.1.toNat ≤
        (program.regions.sigEnd - program.regions.sigStart).toNat := by
    intro addrs hmem
    obtain ⟨i, hi, rfl⟩ := List.mem_map.mp hmem
    have hi := List.mem_range.mp hi
    exact ⟨hvalid.dataLe i hi, hvalid.dataSize i hi, hlen ▸ hvalid.dataFits i hi⟩
  rw [loadProgram_eq program.regions_describes, stop_eq_ok _ mem hfile hne (hlen ▸ hvalid.sigSize)
    hfits, Layout.fileLines, ← Layout.sectionLines_dataAddrs, program.dataAddrs_eq,
    program.sigStart_eq, program.sigEnd_eq]
  dsimp only
  rw [hlen, Nat.add_sub_cancel' hlt.le]

end Program

/-- A word memory in which the regions of a test are defined. -/
structure FinalMemory (layout : Layout) where
  memory : Memory
  word : ℕ → UInt64
  stored : layout.Stored memory word

/-- What `save_signature` writes from the memory of the device under test. -/
theorem FinalMemory.saveSignature_eq {layout : Layout} (haligned : layout.Aligned)
    (rtl : FinalMemory layout) :
    saveSignature rtl.memory layout.sigStart layout.sigEnd layout.dataAddrs =
      .ok (writeLines (layout.fileLines rtl.word)) := by
  have hdata : ∀ addrs ∈ layout.dataAddrs,
      16 ∣ addrs.2 - addrs.1 ∧ Holds rtl.memory rtl.word addrs.1 addrs.2 := by
    intro addrs haddrs
    obtain ⟨i, hi, rfl⟩ := List.mem_map.mp haddrs
    have hlt := List.mem_range.mp hi
    exact ⟨haligned.dataSize i hlt, rtl.stored.data i hlt⟩
  rw [saveSignature_eq_ok (Nat.dvd_sub haligned.sigEnd haligned.sigStart) rtl.stored.region hdata,
    Layout.sectionLines_dataAddrs]
  rfl

/-- The words of a memory, zero where it is not defined. -/
def wordAt (memory : Memory) (addr : ℕ) : UInt64 := UInt64.ofNat ((memory addr).getD 0)

section Dumped

variable {memory : Memory} {fd contents : Text} {start stop : ℕ}

theorem exists_of_dump {i : ℕ} {line : Text} (h : dump memory i = .ok line) :
    (∃ word, memory i = some word) ∧ ∃ word, memory (i + 8) = some word := by
  have hload {addr word : ℕ} (h : load memory addr = .ok word) : memory addr = some word := by
    unfold load at h
    split at h
    · exact nomatch h
    · next word' hword =>
      rw [hword, Except.ok.inj h]
  obtain ⟨high, hhigh, h⟩ := bind_eq_ok.mp h
  obtain ⟨low, hlow, -⟩ := bind_eq_ok.mp h
  exact ⟨⟨low, hload hlow⟩, high, hload hhigh⟩

/-- A range that was written is defined. -/
theorem holds_of_dumpRange (hwords : ∀ addr word, memory addr = some word → word < 2 ^ 64)
    (h : dumpRange memory fd start stop = .ok contents) :
    Holds memory (wordAt memory) start stop := by
  intro k hk
  have hmem : start + 16 * (k / 2) ∈ rangeStep start stop 16 :=
    (RtlMemory.mem_rangeStep (by decide)).mpr ⟨k / 2, rfl, by omega⟩
  obtain ⟨fd₁, fd₂, hstep⟩ := exists_of_foldlM_eq_ok h _ hmem
  obtain ⟨line, hline, -⟩ := bind_eq_ok.mp hstep
  obtain ⟨hlow, hhigh⟩ := exists_of_dump hline
  have hdefined : ∃ word, memory (start + 8 * k) = some word := by
    rcases Nat.mod_two_eq_zero_or_one k with hk | hk
    · have haddr : start + 8 * k = start + 16 * (k / 2) := by omega
      exact haddr ▸ hlow
    · have haddr : start + 8 * k = start + 16 * (k / 2) + 8 := by omega
      exact haddr ▸ hhigh
  obtain ⟨word, hword⟩ := hdefined
  rw [wordAt, hword, Option.getD_some, UInt64.toNat_ofNat_of_lt' (hwords _ _ hword)]

/-- A memory from which a file was written is one in which the regions of the test are defined. -/
theorem stored_of_saveSignature {layout : Layout}
    (hwords : ∀ addr word, memory addr = some word → word < 2 ^ 64)
    (h : saveSignature memory layout.sigStart layout.sigEnd layout.dataAddrs = .ok contents) :
    layout.Stored memory (wordAt memory) := by
  obtain ⟨fd, hregion, hdata⟩ := bind_eq_ok.mp h
  refine ⟨holds_of_dumpRange hwords hregion, fun i hi ↦ ?_⟩
  have hmem : (layout.dataStart i, layout.dataEnd i) ∈ layout.dataAddrs :=
    List.mem_map_of_mem (List.mem_range.mpr hi)
  obtain ⟨fd₁, fd₂, hsection⟩ := exists_of_foldlM_eq_ok hdata _ hmem
  exact holds_of_dumpRange hwords hsection

/-- The file shows the words of the memory. -/
theorem contents_of_saveSignature {layout : Layout} (haligned : layout.Aligned)
    (hwords : ∀ addr word, memory addr = some word → word < 2 ^ 64)
    (h : saveSignature memory layout.sigStart layout.sigEnd layout.dataAddrs = .ok contents) :
    contents = writeLines (layout.fileLines (wordAt memory)) := by
  have hsave := FinalMemory.saveSignature_eq haligned ⟨memory, _, stored_of_saveSignature hwords h⟩
  exact Except.ok.inj (h.symm.trans hsave)

end Dumped

/-- `setup`: the files of the signatures, for the only process. -/
def isaSigFile : Text := ".isa_sig_0.txt".toList

def rtlSigFile : Text := ".rtl_sig_0.txt".toList

/-- The regions of a layout. -/
def regionsOf (layout : Layout) : Regions where
  sigStart := UInt64.ofNat layout.sigStart
  sigEnd := UInt64.ofNat layout.sigEnd
  dataStart i := UInt64.ofNat (layout.dataStart i)
  dataEnd i := UInt64.ofNat (layout.dataEnd i)

/-- The linked test with sections of the size that the tests have. -/
def linkedProgramLayout : Layout :=
  { linkedLayout with
    dataStart := fun i ↦ 0x80010000 + 0x10000 * i
    dataEnd := fun i ↦ 0x80010200 + 0x10000 * i }

theorem linkedProgramLayout_aligned : linkedProgramLayout.Aligned where
  sigStart := linkedLayout_aligned.sigStart
  sigEnd := linkedLayout_aligned.sigEnd
  xreg i hi := ⟨(linkedLayout_aligned.xreg i hi).1, (linkedLayout_aligned.xreg i hi).2,
    (linkedLayout_aligned.xreg i hi).3⟩
  freg i hi := ⟨(linkedLayout_aligned.freg i hi).1, (linkedLayout_aligned.freg i hi).2,
    (linkedLayout_aligned.freg i hi).3⟩
  csr csr hcsr := ⟨(linkedLayout_aligned.csr csr hcsr).1, (linkedLayout_aligned.csr csr hcsr).2,
    (linkedLayout_aligned.csr csr hcsr).3⟩
  dataLe := by decide
  dataSize := by decide

/-- The symbols of the code besides those of the layout. -/
def codeSymbols : List (Text × ℕ) :=
  [("_start".toList, 0x80000000), ("_end_main".toList, 0x80000000), ("tohost".toList, 0x80001000)]

def linkedSymbols : Dict Text UInt64 where
  entries := (linkedProgramLayout.symbolEntries.flatten ++ codeSymbols).map fun entry ↦
    (entry.1, UInt64.ofNat entry.2)
  nodup := by
    have hnames : linkedProgramLayout.symbolEntries.flatten.map Prod.fst = symbolNames := rfl
    rw [List.map_map]
    change ((linkedProgramLayout.symbolEntries.flatten ++ codeSymbols).map Prod.fst).Nodup
    rw [List.map_append, hnames]
    have hnew : ∀ name ∈ symbolNames, name ∉ codeSymbols.map Prod.fst := by decide +kernel
    exact symbolNames_nodup.append (by decide) fun name hname ↦ hnew name hname

theorem get?_linkedSymbols {name : Text} {addr : ℕ}
    (h : linkedProgramLayout.symbols.get? name = some addr ∨ (name, addr) ∈ codeSymbols) :
    linkedSymbols.get? name = some (UInt64.ofNat addr) := by
  rw [Dict.get?_eq_some_iff]
  refine List.mem_map_of_mem (f := fun entry : Text × ℕ ↦ (entry.1, UInt64.ofNat entry.2))
    (List.mem_append.mpr (h.imp_left Dict.get?_eq_some_iff.mp))

theorem get?_hostSymbols_linkedSymbols {name : Text} {addr : ℕ}
    (h : linkedProgramLayout.symbols.get? name = some addr ∨ (name, addr) ∈ codeSymbols)
    (hlt : addr < 2 ^ 64) : (hostSymbols linkedSymbols).get? name = some addr := by
  rw [get?_hostSymbols, get?_linkedSymbols h, Option.map_some, UInt64.toNat_ofNat_of_lt' hlt]

def linkedProgram : Program where
  symbols := linkedSymbols
  regions := regionsOf linkedProgramLayout
  layout := linkedProgramLayout
  valid :=
    { sigLe := by decide
      sigSize := by decide
      dataLe := by decide
      dataSize := by decide
      dataFits := by decide }
  aligned := linkedProgramLayout_aligned
  regions_describes :=
    have hdescribes := linkedProgramLayout.describes_symbols
    { sigStart := get?_linkedSymbols (.inl hdescribes.sigStart)
      sigEnd := get?_linkedSymbols (.inl hdescribes.sigEnd)
      dataStart := fun i hi ↦ get?_linkedSymbols (.inl (hdescribes.dataStart i hi))
      dataEnd := fun i hi ↦ get?_linkedSymbols (.inl (hdescribes.dataEnd i hi)) }
  layout_describes :=
    have hdescribes := linkedProgramLayout.describes_symbols
    have haligned := linkedProgramLayout_aligned
    have hsig : linkedProgramLayout.sigEnd < 2 ^ 64 := by decide
    have hdata : ∀ i < 6, linkedProgramLayout.dataStart i < 2 ^ 64 ∧
      linkedProgramLayout.dataEnd i < 2 ^ 64 := by decide
    { sigStart := get?_hostSymbols_linkedSymbols (.inl hdescribes.sigStart) (by decide)
      sigEnd := get?_hostSymbols_linkedSymbols (.inl hdescribes.sigEnd) hsig
      xreg := fun i hi ↦ get?_hostSymbols_linkedSymbols (.inl (hdescribes.xreg i hi))
        ((haligned.xreg i hi).lt.trans hsig)
      freg := fun i hi ↦ get?_hostSymbols_linkedSymbols (.inl (hdescribes.freg i hi))
        ((haligned.freg i hi).lt.trans hsig)
      csr := fun csr hcsr ↦ get?_hostSymbols_linkedSymbols (.inl (hdescribes.csr csr hcsr))
        ((haligned.csr csr hcsr).lt.trans hsig)
      dataStart := fun i hi ↦ get?_hostSymbols_linkedSymbols (.inl (hdescribes.dataStart i hi))
        (hdata i hi).1
      dataEnd := fun i hi ↦ get?_hostSymbols_linkedSymbols (.inl (hdescribes.dataEnd i hi))
        (hdata i hi).2 }

/-- Whatever memories the two simulators end with, both write their file, `check` reads both, and
its verdict is that of the memories. -/
theorem checkFiles_of_memories (program : Program) (isa : ByteMemory)
    (rtl : FinalMemory program.layout) :
    ∃ isaSig rtlSig verdict,
      stop (loadProgram {} program.symbols) isaSigFile isa = .ok (some isaSig) ∧
      dataSections (hostSymbols program.symbols) = .ok program.layout.dataAddrs ∧
      saveSignature rtl.memory program.layout.sigStart program.layout.sigEnd
        program.layout.dataAddrs = .ok rtlSig ∧
      checkFiles (hostSymbols program.symbols) isaSig rtlSig = .ok verdict ∧
      (verdict = true ↔
        Accepts (signatureOf program.layout (leWord isa)) (signatureOf program.layout rtl.word) ∨
        Hidden (signatureOf program.layout (leWord isa)) (signatureOf program.layout rtl.word)) :=
  ⟨_, _, _, program.stop_eq (by decide) isa, dataSections_eq_ok program.layout_describes,
    rtl.saveSignature_eq program.aligned,
    checkFiles_fileLines program.aligned program.layout_describes _ _,
    check_eq_true_iff_accepts_or_hidden _ _⟩

/-- Spike ends with the low byte of every address, the device under test with the address. -/
theorem checkFiles_of_memories_linked :
    ∃ isaSig rtlSig verdict,
      stop (loadProgram {} linkedSymbols) isaSigFile UInt8.ofNat = .ok (some isaSig) ∧
      dataSections (hostSymbols linkedSymbols) = .ok linkedProgramLayout.dataAddrs ∧
      saveSignature (fun addr ↦ some (UInt64.ofNat addr).toNat) linkedProgramLayout.sigStart
        linkedProgramLayout.sigEnd linkedProgramLayout.dataAddrs = .ok rtlSig ∧
      checkFiles (hostSymbols linkedSymbols) isaSig rtlSig = .ok verdict ∧
      (verdict = true ↔
        Accepts (signatureOf linkedProgramLayout (leWord UInt8.ofNat))
          (signatureOf linkedProgramLayout UInt64.ofNat) ∨
        Hidden (signatureOf linkedProgramLayout (leWord UInt8.ofNat))
          (signatureOf linkedProgramLayout UInt64.ofNat)) :=
  checkFiles_of_memories linkedProgram UInt8.ofNat
    { memory := fun addr ↦ some (UInt64.ofNat addr).toNat
      word := UInt64.ofNat
      stored :=
        { region := fun _ _ ↦ rfl
          data := fun _ _ _ _ ↦ rfl } }

end ProcessorFuzz.Execution.Oracle
