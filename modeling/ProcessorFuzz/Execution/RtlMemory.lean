import ProcessorFuzz.Execution.SignatureFile

/-!
# The memory of the RTL simulation

`rvRTLhost` and `RTL_Simulator` build the memory of the device under test as a dictionary from
addresses to words: the boot ROM, the code from the hex file and the six data sections. The older
host also stores a zero at `tohost` and in the signature region before it loads the data, and the
newer one does not.
-/

namespace ProcessorFuzz.Execution.RtlMemory

open Library SignatureFile

/-- The input of a simulation, with the contents of its two files. -/
structure RtlInput where
  hexfile : Text
  intrfile : Text
  data : List ℤ
  symbols : Dict Text ℕ
  maxCycles : ℕ

def bootrom : List ℕ :=
  [0x00000297, 0x02028593, 0xf1402573, 0x0182b283, 0x00028067, 0x00000000, 0x80000000, 0x00000000,
    0x00000000, 0x00000000, 0x00000000, 0x00000000, 0x00000000, 0x00000000, 0x00000000, 0x00000000]

/-- The words of the boot ROM with their addresses. -/
def bootromWords : List (ℕ × ℤ) :=
  (rangeStep 0 bootrom.length 2).map fun i ↦
    (0x10000 + i * 4, ((bootrom.getD (i + 1) 0 <<< 32 ||| bootrom.getD i 0 : ℕ) : ℤ))

/-- `set_bootrom` and `_set_bootrom`: the addresses and the memory. -/
def setBootrom : List ℕ × Dict ℕ ℤ :=
  (bootromWords.map Prod.fst, Dict.empty.update bootromWords)

/-- Words are stored at consecutive addresses; `word i` is computed for the address number `i`. -/
def storeWords (word : ℕ → Except PyError ℤ) (addrs : List ℕ) (memory : Dict ℕ ℤ) :
    Except PyError (Dict ℕ ℤ) :=
  addrs.zipIdx.foldlM (fun memory entry ↦ do
    let value ← word entry.2
    .ok (memory.set entry.1 value)) memory

/-- `int(lines[i], 16)`. -/
def codeWord (lines : List Text) (i : ℕ) : Except PyError ℤ := do
  let line ← Text.item lines i
  Text.int 16 line

/-- The addresses `range(_start, _end_main + 36, 8)`. -/
def codeAddrs (start endMain : ℕ) : List ℕ := rangeStep start (endMain + 36) 8

/-- The loop that stores the code. -/
def loadCode (input : RtlInput) (memory : Dict ℕ ℤ) : Except PyError (Dict ℕ ℤ) := do
  let start ← symbol input.symbols "_start".toList
  let endMain ← symbol input.symbols "_end_main".toList
  storeWords (codeWord (Text.readlines input.hexfile)) (codeAddrs start endMain) memory

/-- The addresses `range(start // 8 * 8, stop // 8 * 8, 8)`. -/
def sectionAddrs (start stop : ℕ) : List ℕ := rangeStep (start / 8 * 8) (stop / 8 * 8) 8

/-- `data[i + offset]`. -/
def dataWord (data : List ℤ) (offset : ℤ) (i : ℕ) : Except PyError ℤ := Text.item data (i + offset)

/-- One data section, with the running offset into the data. -/
def loadSection (input : RtlInput) (state : Dict ℕ ℤ × ℤ) (n : ℕ) :
    Except PyError (Dict ℕ ℤ × ℤ) := do
  let dataStart ← symbol input.symbols (dataStartSymbol n)
  let dataEnd ← symbol input.symbols (dataEndSymbol n)
  let memory ← storeWords (dataWord input.data state.2) (sectionAddrs dataStart dataEnd) state.1
  .ok (memory, state.2 + ((dataEnd : ℤ) - dataStart) / 8)

def loadData (input : RtlInput) (memory : Dict ℕ ℤ) : Except PyError (Dict ℕ ℤ) := do
  let state ← (List.range 6).foldlM (loadSection input) (memory, 0)
  .ok state.1

/-- The addresses that `rvRTLhost` sets to zero. -/
def zeroAddrs (tohostAddr sigStart sigEnd : ℕ) : List ℕ :=
  tohostAddr :: rangeStep (sigStart / 8 * 8) sigEnd 8

def storeZeros (addrs : List ℕ) (memory : Dict ℕ ℤ) : Dict ℕ ℤ :=
  memory.update (addrs.map fun addr ↦ (addr, 0))

/-- The memory that `rvRTLhost.run_test` hands to the adapter. -/
def hostMemory (input : RtlInput) : Except PyError (Dict ℕ ℤ) := do
  let memory ← loadCode input setBootrom.2
  let tohostAddr ← symbol input.symbols "tohost".toList
  let sigStart ← symbol input.symbols "begin_signature".toList
  let sigEnd ← symbol input.symbols "end_signature".toList
  loadData input (storeZeros (zeroAddrs tohostAddr sigStart sigEnd) memory)

/-- `RTL_Simulator._load_test_memory`. -/
def loadTestMemory (input : RtlInput) (memory : Dict ℕ ℤ) : Except PyError (Dict ℕ ℤ) := do
  let memory ← loadCode input memory
  loadData input memory

/-- The memory that `_set_bootrom` and `_load_test_memory` build. -/
def simulatorMemory (input : RtlInput) : Except PyError (Dict ℕ ℤ) :=
  loadTestMemory input setBootrom.2

/-- The symbols that both builders look up. -/
structure Linked (symbols : Dict Text ℕ) where
  start : ℕ
  endMain : ℕ
  tohost : ℕ
  sigStart : ℕ
  sigEnd : ℕ
  dataStart : ℕ → ℕ
  dataEnd : ℕ → ℕ
  get?_start : symbols.get? "_start".toList = some start
  get?_endMain : symbols.get? "_end_main".toList = some endMain
  get?_tohost : symbols.get? "tohost".toList = some tohost
  get?_sigStart : symbols.get? "begin_signature".toList = some sigStart
  get?_sigEnd : symbols.get? "end_signature".toList = some sigEnd
  get?_dataStart : ∀ n < 6, symbols.get? (dataStartSymbol n) = some (dataStart n)
  get?_dataEnd : ∀ n < 6, symbols.get? (dataEndSymbol n) = some (dataEnd n)

theorem symbol_eq_ok {symbols : Dict Text ℕ} {name : Text} {addr : ℕ} :
    symbol symbols name = .ok addr ↔ symbols.get? name = some addr := by
  unfold symbol
  split
  · next h => simp [h]
  · next h => simp [h]

theorem nodup_rangeStep (start stop : ℕ) {step : ℕ} (hstep : 0 < step) :
    (rangeStep start stop step).Nodup := by
  apply List.Nodup.map _ List.nodup_range
  intro i j h
  exact Nat.eq_of_mul_eq_mul_left hstep (Nat.add_left_cancel h)

theorem getElem?_rangeStep {start stop step i : ℕ} (hstep : 0 < step) :
    (rangeStep start stop step)[i]? =
      if start + step * i < stop then some (start + step * i) else none := by
  have hcount : i < (stop - start + (step - 1)) / step ↔ start + step * i < stop := by
    rw [Nat.lt_div_iff_mul_lt hstep, Nat.mul_comm]
    omega
  rw [rangeStep, List.getElem?_map]
  split
  · next h => rw [List.getElem?_range (hcount.mpr h), Option.map_some]
  · next h =>
    rw [List.getElem?_eq_none (by simpa using fun hlt ↦ h (hcount.mp hlt)), Option.map_none]

theorem mem_rangeStep {start stop step addr : ℕ} (hstep : 0 < step) :
    addr ∈ rangeStep start stop step ↔ ∃ i, addr = start + step * i ∧ addr < stop := by
  rw [List.mem_iff_getElem?]
  constructor
  · rintro ⟨i, hi⟩
    rw [getElem?_rangeStep hstep] at hi
    split at hi
    · next h =>
      obtain rfl := Option.some.inj hi
      exact ⟨i, rfl, h⟩
    · exact nomatch hi
  · rintro ⟨i, rfl, h⟩
    exact ⟨i, by rw [getElem?_rangeStep hstep, if_pos h]⟩

/-- The word that a computation returns. -/
def wordOf (word : Except PyError ℤ) : ℤ := word.toOption.getD 0

/-- The entries that `storeWords` assigns. -/
def entries (word : ℕ → Except PyError ℤ) (addrs : List ℕ) : List (ℕ × ℤ) :=
  addrs.zipIdx.map fun entry ↦ (entry.1, wordOf (word entry.2))

@[simp]
theorem map_fst_entries (word : ℕ → Except PyError ℤ) (addrs : List ℕ) :
    (entries word addrs).map Prod.fst = addrs := by
  rw [entries, List.map_map]
  exact List.zipIdx_map_fst 0 addrs

theorem mem_entries {word : ℕ → Except PyError ℤ} {addrs : List ℕ} {i addr : ℕ}
    (h : addrs[i]? = some addr) : (addr, wordOf (word i)) ∈ entries word addrs :=
  List.mem_map.mpr ⟨(addr, i), List.mk_mem_zipIdx_iff_getElem?.mpr h, rfl⟩

theorem storeWords_eq_ok {word : ℕ → Except PyError ℤ} {addrs : List ℕ}
    (h : ∀ i < addrs.length, ∃ value, word i = .ok value) (memory : Dict ℕ ℤ) :
    storeWords word addrs memory = .ok (memory.update (entries word addrs)) := by
  have hstep : ∀ entry ∈ addrs.zipIdx, ∀ memory : Dict ℕ ℤ,
      (do let value ← word entry.2; .ok (memory.set entry.1 value)) =
        (Except.ok (memory.set entry.1 (wordOf (word entry.2))) :
          Except PyError (Dict ℕ ℤ)) := by
    intro entry hentry memory
    have hindex : entry.2 < addrs.length + 0 := List.snd_lt_of_mem_zipIdx hentry
    obtain ⟨value, hvalue⟩ := h entry.2 (by omega)
    rw [hvalue]
    rfl
  rw [storeWords, foldlM_eq_ok hstep, Dict.update, entries, List.foldl_map]

/-- A loop that returns has computed each of its words. -/
theorem exists_word_of_foldlM {word : ℕ → Except PyError ℤ} {l : List (ℕ × ℕ)}
    {memory memory' : Dict ℕ ℤ}
    (h : l.foldlM (fun memory entry ↦ do
      let value ← word entry.2
      .ok (memory.set entry.1 value)) memory = .ok memory') :
    ∀ entry ∈ l, ∃ value, word entry.2 = .ok value := by
  induction l generalizing memory with
  | nil => exact fun _ hentry ↦ absurd hentry List.not_mem_nil
  | cons first rest ih =>
    rw [List.foldlM_cons] at h
    obtain ⟨next, hnext, hrest⟩ := bind_eq_ok.mp h
    obtain ⟨value, hvalue, -⟩ := bind_eq_ok.mp hnext
    intro entry hentry
    rcases List.mem_cons.mp hentry with rfl | hentry
    · exact ⟨value, hvalue⟩
    · exact ih hrest entry hentry

theorem exists_word_of_storeWords {word : ℕ → Except PyError ℤ} {addrs : List ℕ}
    {memory memory' : Dict ℕ ℤ} (h : storeWords word addrs memory = .ok memory') :
    ∀ i < addrs.length, ∃ value, word i = .ok value := by
  intro i hi
  exact exists_word_of_foldlM h (addrs[i], i)
    (List.mk_mem_zipIdx_iff_getElem?.mpr (List.getElem?_eq_getElem hi))

namespace Linked

variable {symbols : Dict Text ℕ} (linked : Linked symbols)

/-- The offset into the data at which a section begins. -/
def offset : ℕ → ℤ
  | 0 => 0
  | n + 1 => offset n + ((linked.dataEnd n : ℤ) - linked.dataStart n) / 8

/-- The addresses of a section. -/
def sectionAddrs (n : ℕ) : List ℕ :=
  RtlMemory.sectionAddrs (linked.dataStart n) (linked.dataEnd n)

/-- The entries of the code. -/
def codeEntries (lines : List Text) : List (ℕ × ℤ) :=
  entries (codeWord lines) (codeAddrs linked.start linked.endMain)

/-- The entries of a section. -/
def sectionEntries (data : List ℤ) (n : ℕ) : List (ℕ × ℤ) :=
  entries (dataWord data (linked.offset n)) (linked.sectionAddrs n)

/-- The entries of the first sections. -/
def dataEntries (data : List ℤ) (n : ℕ) : List (ℕ × ℤ) :=
  (List.range n).flatMap (linked.sectionEntries data)

/-- Every address of the code has a line with a number. -/
def CodeReadable (lines : List Text) : Prop :=
  ∀ i < (codeAddrs linked.start linked.endMain).length, ∃ value, codeWord lines i = .ok value

/-- Every address of a section has a word of the data. -/
def DataReadable (data : List ℤ) (n : ℕ) : Prop :=
  ∀ i < (linked.sectionAddrs n).length, ∃ value, dataWord data (linked.offset n) i = .ok value

end Linked

section Linked

variable {input : RtlInput} (linked : Linked input.symbols)

include linked in
theorem loadCode_eq_ok {memory memory' : Dict ℕ ℤ} :
    loadCode input memory = .ok memory' ↔ linked.CodeReadable (Text.readlines input.hexfile) ∧
      memory' = memory.update (linked.codeEntries (Text.readlines input.hexfile)) := by
  rw [loadCode, symbol_eq_ok.mpr linked.get?_start, ok_bind,
    symbol_eq_ok.mpr linked.get?_endMain, ok_bind]
  constructor
  · intro h
    have hreadable := exists_word_of_storeWords h
    rw [storeWords_eq_ok hreadable] at h
    exact ⟨hreadable, (Except.ok.inj h).symm⟩
  · rintro ⟨hreadable, rfl⟩
    exact storeWords_eq_ok hreadable memory

theorem loadSection_eq_ok {n : ℕ} (hn : n < 6) {memory : Dict ℕ ℤ} {state : Dict ℕ ℤ × ℤ} :
    loadSection input (memory, linked.offset n) n = .ok state ↔
      linked.DataReadable input.data n ∧
        state = (memory.update (linked.sectionEntries input.data n), linked.offset (n + 1)) := by
  rw [loadSection, symbol_eq_ok.mpr (linked.get?_dataStart n hn), ok_bind,
    symbol_eq_ok.mpr (linked.get?_dataEnd n hn), ok_bind]
  constructor
  · intro h
    obtain ⟨memory', hmemory, hstate⟩ := bind_eq_ok.mp h
    have hreadable := exists_word_of_storeWords hmemory
    rw [storeWords_eq_ok hreadable] at hmemory
    obtain rfl := Except.ok.inj hmemory
    exact ⟨hreadable, (Except.ok.inj hstate).symm⟩
  · rintro ⟨hreadable, rfl⟩
    have hstore := storeWords_eq_ok hreadable memory
    exact bind_eq_ok.mpr ⟨_, hstore, rfl⟩

/-- The loop over the first sections: every section is stored at its own offset. -/
theorem loadSections_eq_ok {n : ℕ} (hn : n ≤ 6) {memory : Dict ℕ ℤ} {state : Dict ℕ ℤ × ℤ} :
    (List.range n).foldlM (loadSection input) (memory, 0) = .ok state ↔
      (∀ m < n, linked.DataReadable input.data m) ∧
        state = (memory.update (linked.dataEntries input.data n), linked.offset n) := by
  induction n generalizing state with
  | zero =>
    constructor
    · intro h
      exact ⟨fun m hm ↦ absurd hm (Nat.not_lt_zero m), (Except.ok.inj h).symm⟩
    · rintro ⟨-, rfl⟩
      rfl
  | succ n ih =>
    have hentries : linked.dataEntries input.data (n + 1) =
        linked.dataEntries input.data n ++ linked.sectionEntries input.data n := by
      rw [Linked.dataEntries, List.range_succ, List.flatMap_append, List.flatMap_singleton]
      rfl
    rw [List.range_succ, List.foldlM_append, bind_eq_ok, hentries, Dict.update_append]
    constructor
    · rintro ⟨state', hstate', h⟩
      obtain ⟨hreadable, rfl⟩ := (ih (by omega)).mp hstate'
      rw [List.foldlM_cons] at h
      obtain ⟨state'', hlast, h⟩ := bind_eq_ok.mp h
      obtain rfl := Except.ok.inj h
      obtain ⟨hn', rfl⟩ := (loadSection_eq_ok linked (by omega)).mp hlast
      refine ⟨fun m hm ↦ ?_, rfl⟩
      rcases Nat.lt_succ_iff_lt_or_eq.mp hm with hm | rfl
      · exact hreadable m hm
      · exact hn'
    · rintro ⟨hreadable, rfl⟩
      refine ⟨_, (ih (by omega)).mpr ⟨fun m hm ↦ hreadable m (by omega), rfl⟩, ?_⟩
      have hlast : loadSection input
          (memory.update (linked.dataEntries input.data n), linked.offset n) n =
          .ok ((memory.update (linked.dataEntries input.data n)).update
            (linked.sectionEntries input.data n), linked.offset (n + 1)) :=
        (loadSection_eq_ok linked (by omega)).mpr ⟨hreadable n (Nat.lt_succ_self n), rfl⟩
      rw [List.foldlM_cons, hlast]
      rfl

theorem loadData_eq_ok {memory memory' : Dict ℕ ℤ} :
    loadData input memory = .ok memory' ↔ (∀ n < 6, linked.DataReadable input.data n) ∧
      memory' = memory.update (linked.dataEntries input.data 6) := by
  rw [loadData, bind_eq_ok]
  constructor
  · rintro ⟨state, hstate, h⟩
    obtain ⟨hreadable, rfl⟩ := (loadSections_eq_ok linked le_rfl).mp hstate
    exact ⟨hreadable, (Except.ok.inj h).symm⟩
  · rintro ⟨hreadable, rfl⟩
    exact ⟨_, (loadSections_eq_ok linked le_rfl).mpr ⟨hreadable, rfl⟩, rfl⟩

/-- The boot ROM and the code, which both builders store first. -/
def codeMemory : Dict ℕ ℤ :=
  setBootrom.2.update (linked.codeEntries (Text.readlines input.hexfile))

/-- Both builders return for the same inputs. -/
structure Readable : Prop where
  code : linked.CodeReadable (Text.readlines input.hexfile)
  data : ∀ n < 6, linked.DataReadable input.data n

theorem hostMemory_eq_ok {memory : Dict ℕ ℤ} :
    hostMemory input = .ok memory ↔ Readable linked ∧
      memory = (storeZeros (zeroAddrs linked.tohost linked.sigStart linked.sigEnd)
        (codeMemory linked)).update (linked.dataEntries input.data 6) := by
  rw [hostMemory, bind_eq_ok]
  constructor
  · rintro ⟨code, hcode, h⟩
    obtain ⟨hcodeReadable, rfl⟩ := (loadCode_eq_ok linked).mp hcode
    rw [symbol_eq_ok.mpr linked.get?_tohost, ok_bind, symbol_eq_ok.mpr linked.get?_sigStart,
      ok_bind, symbol_eq_ok.mpr linked.get?_sigEnd, ok_bind] at h
    obtain ⟨hdata, rfl⟩ := (loadData_eq_ok linked).mp h
    exact ⟨⟨hcodeReadable, hdata⟩, rfl⟩
  · rintro ⟨hreadable, rfl⟩
    refine ⟨_, (loadCode_eq_ok linked).mpr ⟨hreadable.code, rfl⟩, ?_⟩
    rw [symbol_eq_ok.mpr linked.get?_tohost, ok_bind, symbol_eq_ok.mpr linked.get?_sigStart,
      ok_bind, symbol_eq_ok.mpr linked.get?_sigEnd, ok_bind]
    exact (loadData_eq_ok linked).mpr ⟨hreadable.data, rfl⟩

theorem simulatorMemory_eq_ok {memory : Dict ℕ ℤ} :
    simulatorMemory input = .ok memory ↔ Readable linked ∧
      memory = (codeMemory linked).update (linked.dataEntries input.data 6) := by
  rw [simulatorMemory, loadTestMemory, bind_eq_ok]
  constructor
  · rintro ⟨code, hcode, h⟩
    obtain ⟨hcodeReadable, rfl⟩ := (loadCode_eq_ok linked).mp hcode
    obtain ⟨hdata, rfl⟩ := (loadData_eq_ok linked).mp h
    exact ⟨⟨hcodeReadable, hdata⟩, rfl⟩
  · rintro ⟨hreadable, rfl⟩
    refine ⟨_, (loadCode_eq_ok linked).mpr ⟨hreadable.code, rfl⟩, ?_⟩
    exact (loadData_eq_ok linked).mpr ⟨hreadable.data, rfl⟩

end Linked

section SameMemory

variable {input : RtlInput} (linked : Linked input.symbols)

/-- `RTL_Simulator` builds the memory that `rvRTLhost` builds, and every address that the run reads
later is defined: `tohost` and the words of the signature region. -/
def SameMemory (input : RtlInput) (linked : Linked input.symbols) (memory : Dict ℕ ℤ) : Prop :=
  ∃ memory', simulatorMemory input = .ok memory' ∧
    (∀ addr, memory'.get? addr = memory.get? addr) ∧ linked.tohost ∈ memory'.keys ∧
    ∀ addr ∈ rangeStep (linked.sigStart / 8 * 8) linked.sigEnd 8, addr ∈ memory'.keys

/-- An address that holds zero without being set to zero, or that the data overwrite: it is in a
data section, or the line of the hex file for it is zero, or it is an empty word of the boot ROM
outside the code. -/
inductive Preset (input : RtlInput) (linked : Linked input.symbols) (addr : ℕ) : Prop
  | data (n : ℕ) (hn : n < 6) (h : addr ∈ linked.sectionAddrs n)
  | code (i : ℕ) (line : Text) (haddr : addr = linked.start + 8 * i)
      (hlt : addr < linked.endMain + 36) (hline : (Text.readlines input.hexfile)[i]? = some line)
      (hzero : Text.int 16 line = .ok 0)
  | bootrom (hword : (addr, 0) ∈ bootromWords)
      (hcode : addr ∉ codeAddrs linked.start linked.endMain)

theorem mem_dataEntries {data : List ℤ} {addr : ℕ} :
    addr ∈ (linked.dataEntries data 6).map Prod.fst ↔ ∃ n < 6, addr ∈ linked.sectionAddrs n := by
  rw [Linked.dataEntries, List.map_flatMap, List.mem_flatMap]
  constructor
  · rintro ⟨n, hn, h⟩
    rw [Linked.sectionEntries, map_fst_entries] at h
    exact ⟨n, List.mem_range.mp hn, h⟩
  · rintro ⟨n, hn, h⟩
    refine ⟨n, List.mem_range.mpr hn, ?_⟩
    rwa [Linked.sectionEntries, map_fst_entries]

theorem nodup_codeEntries (lines : List Text) :
    ((linked.codeEntries lines).map Prod.fst).Nodup := by
  rw [Linked.codeEntries, map_fst_entries]
  exact nodup_rangeStep _ _ (by decide)

theorem nodup_bootromWords : (bootromWords.map Prod.fst).Nodup := by decide

theorem get?_setBootrom {addr : ℕ} {word : ℤ} :
    setBootrom.2.get? addr = some word ↔ (addr, word) ∈ bootromWords := by
  constructor
  · intro h
    rw [setBootrom, Dict.get?_update, Dict.get?_empty, Option.or_none,
      Dict.find?_eq_some_iff (by decide), List.mem_reverse] at h
    exact h
  · intro h
    exact Dict.get?_update_of_nodup _ nodup_bootromWords h

/-- The word that the code leaves at one of its addresses is the one on its line. -/
theorem get?_codeMemory_code (hreadable : Readable linked) {i : ℕ}
    (hlt : linked.start + 8 * i < linked.endMain + 36) :
    ∃ line value, (Text.readlines input.hexfile)[i]? = some line ∧ Text.int 16 line = .ok value ∧
      (codeMemory linked).get? (linked.start + 8 * i) = some value := by
  have haddr : (codeAddrs linked.start linked.endMain)[i]? = some (linked.start + 8 * i) := by
    rw [codeAddrs, getElem?_rangeStep (by decide), if_pos hlt]
  obtain ⟨hi, -⟩ := List.getElem?_eq_some_iff.mp haddr
  obtain ⟨value, hvalue⟩ := hreadable.code i hi
  obtain ⟨line, hline, hint⟩ := bind_eq_ok.mp hvalue
  have hstored : (codeMemory linked).get? (linked.start + 8 * i) =
      some (wordOf (codeWord (Text.readlines input.hexfile) i)) :=
    Dict.get?_update_of_nodup _ (nodup_codeEntries linked _) (mem_entries haddr)
  rw [hvalue] at hstored
  rw [Text.item_natCast] at hline
  split at hline
  · cases hline
  · next line' hline' =>
    obtain rfl := Except.ok.inj hline
    exact ⟨line', value, hline', hint, hstored⟩

theorem mem_codeAddrs {addr : ℕ} :
    addr ∈ codeAddrs linked.start linked.endMain ↔
      ∃ i, addr = linked.start + 8 * i ∧ addr < linked.endMain + 36 :=
  mem_rangeStep (by decide)

theorem get?_codeMemory_of_not_mem {addr : ℕ}
    (h : addr ∉ codeAddrs linked.start linked.endMain) :
    (codeMemory linked).get? addr = setBootrom.2.get? addr := by
  apply Dict.get?_update_of_not_mem
  rwa [Linked.codeEntries, map_fst_entries]

/-- Where the code and the boot ROM leave a zero. -/
theorem get?_codeMemory_eq_zero (hreadable : Readable linked) {addr : ℕ}
    (hdata : ∀ n < 6, addr ∉ linked.sectionAddrs n) :
    (codeMemory linked).get? addr = some 0 ↔ Preset input linked addr := by
  constructor
  · intro h
    by_cases hcode : addr ∈ codeAddrs linked.start linked.endMain
    · obtain ⟨i, rfl, hlt⟩ := (mem_codeAddrs linked).mp hcode
      obtain ⟨line, value, hline, hint, hstored⟩ := get?_codeMemory_code linked hreadable hlt
      rw [h] at hstored
      obtain rfl := Option.some.inj hstored
      exact .code i line rfl hlt hline hint
    · rw [get?_codeMemory_of_not_mem linked hcode, get?_setBootrom] at h
      exact .bootrom h hcode
  · intro h
    cases h with
    | data n hn hmem => exact absurd hmem (hdata n hn)
    | code i line haddr hlt hline hzero =>
      subst haddr
      obtain ⟨line', value, hline', hint, hstored⟩ := get?_codeMemory_code linked hreadable hlt
      rw [hline] at hline'
      obtain rfl := Option.some.inj hline'
      rw [hzero] at hint
      obtain rfl := Except.ok.inj hint
      exact hstored
    | bootrom hword hcode =>
      rw [get?_codeMemory_of_not_mem linked hcode, get?_setBootrom]
      exact hword

theorem get?_storeZeros (addrs : List ℕ) (memory : Dict ℕ ℤ) (addr : ℕ) :
    (storeZeros addrs memory).get? addr = if addr ∈ addrs then some 0 else memory.get? addr :=
  Dict.get?_foldl_set_const addrs 0 memory addr

/-- The addresses that `rvRTLhost` sets to zero are defined in its memory. -/
theorem mem_keys_hostMemory {memory : Dict ℕ ℤ} (h : hostMemory input = .ok memory) {addr : ℕ}
    (haddr : addr ∈ zeroAddrs linked.tohost linked.sigStart linked.sigEnd) :
    addr ∈ memory.keys := by
  obtain ⟨-, rfl⟩ := (hostMemory_eq_ok linked).mp h
  rw [Dict.mem_keys_update, storeZeros, Dict.mem_keys_update, List.map_map]
  exact Or.inr (Or.inl (List.mem_map.mpr ⟨addr, haddr, rfl⟩))

/-- The two memories agree at the addresses that only `rvRTLhost` stores exactly when these are
preset. -/
theorem sameMemory_iff {memory : Dict ℕ ℤ} (h : hostMemory input = .ok memory) :
    SameMemory input linked memory ↔
      ∀ addr ∈ zeroAddrs linked.tohost linked.sigStart linked.sigEnd,
        Preset input linked addr := by
  obtain ⟨hreadable, hmemory⟩ := (hostMemory_eq_ok linked).mp h
  have hsimulator := (simulatorMemory_eq_ok linked).mpr ⟨hreadable, rfl⟩
  constructor
  · rintro ⟨memory', hmemory', hsame, -⟩ addr haddr
    rw [hsimulator] at hmemory'
    obtain rfl := Except.ok.inj hmemory'
    by_cases hdata : ∃ n < 6, addr ∈ linked.sectionAddrs n
    · obtain ⟨n, hn, hmem⟩ := hdata
      exact .data n hn hmem
    · have hnot : addr ∉ (linked.dataEntries input.data 6).map Prod.fst := fun hmem ↦
        hdata ((mem_dataEntries linked).mp hmem)
      apply (get?_codeMemory_eq_zero linked hreadable fun n hn hmem ↦ hdata ⟨n, hn, hmem⟩).mp
      calc
        (codeMemory linked).get? addr = memory.get? addr := by
          rw [← hsame addr, Dict.get?_update_of_not_mem _ hnot]
        _ = some 0 := by
          rw [hmemory, Dict.get?_update_of_not_mem _ hnot, get?_storeZeros, if_pos haddr]
  · intro hpreset
    have hsame : ∀ addr, ((codeMemory linked).update (linked.dataEntries input.data 6)).get? addr =
        memory.get? addr := by
      intro addr
      rw [hmemory]
      by_cases hdata : addr ∈ (linked.dataEntries input.data 6).map Prod.fst
      · exact Dict.get?_update_of_mem _ _ hdata
      · rw [Dict.get?_update_of_not_mem _ hdata, Dict.get?_update_of_not_mem _ hdata,
          get?_storeZeros]
        split
        · next haddr =>
          exact (get?_codeMemory_eq_zero linked hreadable fun n hn hmem ↦
            hdata ((mem_dataEntries linked).mpr ⟨n, hn, hmem⟩)).mpr (hpreset addr haddr)
        · rfl
    have hkeys : ∀ addr ∈ zeroAddrs linked.tohost linked.sigStart linked.sigEnd,
        addr ∈ ((codeMemory linked).update (linked.dataEntries input.data 6)).keys := by
      intro addr haddr
      have hkey := mem_keys_hostMemory linked h haddr
      rwa [← Dict.isSome_get?_iff, hsame addr, Dict.isSome_get?_iff]
    exact ⟨_, hsimulator, hsame, hkeys _ List.mem_cons_self, fun addr haddr ↦
      hkeys addr (List.mem_cons_of_mem _ haddr)⟩

end SameMemory

end ProcessorFuzz.Execution.RtlMemory
