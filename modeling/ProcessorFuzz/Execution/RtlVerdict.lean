import ProcessorFuzz.Execution.RtlHost

/-!
# The verdict of the older RTL host

`rvRTLhost.run_test` decides between success and a time-out by the value that the loop variable has
after the loop. It polls in the cycles that are multiples of 100, so that the value of a stopped
loop is that of a full one only if the last cycle is such a multiple. A successful run dumps the
signature region and the data sections, which the host itself has stored before the run.
-/

namespace ProcessorFuzz.Execution.RtlVerdict

open Library SignatureFile RtlMemory RtlHost

/-- The addresses that `save_signature` reads. -/
def signatureAddrs (sigStart sigEnd : ℕ) (dataAddrs : List (ℕ × ℕ)) : List ℕ :=
  ((sigStart, sigEnd) :: dataAddrs).flatMap fun addrs ↦
    (rangeStep addrs.1 addrs.2 16).flatMap fun i ↦ [i + 8, i]

theorem load_returns_iff {memory : Memory} {addr : ℕ} :
    (∃ word, load memory addr = .ok word) ↔ (memory addr).isSome := by
  unfold load
  cases memory addr with
  | none => simp
  | some word => simp

theorem dump_returns_iff {memory : Memory} {i : ℕ} :
    (∃ line, dump memory i = .ok line) ↔ ∀ addr ∈ [i + 8, i], (memory addr).isSome := by
  rw [List.forall_mem_cons, List.forall_mem_singleton, ← load_returns_iff, ← load_returns_iff]
  constructor
  · rintro ⟨line, h⟩
    obtain ⟨high, hhigh, h⟩ := bind_eq_ok.mp h
    obtain ⟨low, hlow, -⟩ := bind_eq_ok.mp h
    exact ⟨⟨high, hhigh⟩, ⟨low, hlow⟩⟩
  · rintro ⟨⟨high, hhigh⟩, ⟨low, hlow⟩⟩
    rw [dump, hhigh, ok_bind, hlow]
    exact ⟨_, rfl⟩

theorem dumpRange_returns_iff {memory : Memory} {fd : Text} {start stop : ℕ} :
    (∃ fd', dumpRange memory fd start stop = .ok fd') ↔
      ∀ addr ∈ (rangeStep start stop 16).flatMap fun i ↦ [i + 8, i], (memory addr).isSome := by
  have hstep (fd : Text) (i : ℕ) :
      (∃ fd', (do let line ← dump memory i; .ok (fd ++ line) : Except PyError Text) = .ok fd') ↔
        ∀ addr ∈ [i + 8, i], (memory addr).isSome := by
    rw [← dump_returns_iff]
    constructor
    · rintro ⟨fd', h⟩
      obtain ⟨line, hline, -⟩ := bind_eq_ok.mp h
      exact ⟨line, hline⟩
    · rintro ⟨line, hline⟩
      rw [hline]
      exact ⟨_, rfl⟩
  rw [dumpRange, exists_foldlM_eq_ok_iff hstep, List.forall_mem_flatMap]

/-- `save_signature` returns exactly when every address that it reads is defined. -/
theorem saveSignature_returns_iff {memory : Memory} {sigStart sigEnd : ℕ}
    {dataAddrs : List (ℕ × ℕ)} :
    (∃ contents, saveSignature memory sigStart sigEnd dataAddrs = .ok contents) ↔
      ∀ addr ∈ signatureAddrs sigStart sigEnd dataAddrs, (memory addr).isSome := by
  have hsections (fd : Text) :
      (∃ contents, dataAddrs.foldlM (fun fd addrs ↦ dumpRange memory fd addrs.1 addrs.2) fd =
        .ok contents) ↔ ∀ addrs ∈ dataAddrs,
          ∀ addr ∈ (rangeStep addrs.1 addrs.2 16).flatMap fun i ↦ [i + 8, i],
            (memory addr).isSome :=
    exists_foldlM_eq_ok_iff (fun _ _ ↦ dumpRange_returns_iff) fd
  rw [signatureAddrs, List.forall_mem_flatMap, List.forall_mem_cons, ← dumpRange_returns_iff]
  constructor
  · rintro ⟨contents, h⟩
    obtain ⟨fd, hfd, h⟩ := bind_eq_ok.mp h
    exact ⟨⟨fd, hfd⟩, (hsections fd).mp ⟨contents, h⟩⟩
  · rintro ⟨⟨fd, hfd⟩, h⟩
    rw [saveSignature, hfd, ok_bind]
    exact (hsections fd).mpr h

/-- The signature region and the data sections start at words and consist of whole lines. -/
structure Spaced {symbols : Dict Text ℕ} (linked : Linked symbols) : Prop where
  sigStart : 8 ∣ linked.sigStart
  sigSize : 16 ∣ linked.sigEnd - linked.sigStart
  dataStart : ∀ n < 6, 8 ∣ linked.dataStart n
  dataSize : ∀ n < 6, 16 ∣ linked.dataEnd n - linked.dataStart n

/-- The data fill the sections. -/
structure Filled {symbols : Dict Text ℕ} (linked : Linked symbols) (data : List ℤ) : Prop where
  dataLe : ∀ n < 6, linked.dataStart n ≤ linked.dataEnd n
  dataLength : (data.length : ℤ) = linked.offset 6

/-- The sections whose words `save_signature` dumps after the signature region. -/
def dataAddrs {symbols : Dict Text ℕ} (linked : Linked symbols) : List (ℕ × ℕ) :=
  (List.range 6).map fun n ↦ (linked.dataStart n, linked.dataEnd n)

theorem dataSections_eq_ok {symbols : Dict Text ℕ} (linked : Linked symbols) :
    dataSections symbols = .ok (dataAddrs linked) := by
  apply mapM_eq_ok
  intro n hn
  have hlt : n < 6 := List.mem_range.mp hn
  rw [symbol_eq_ok.mpr (linked.get?_dataStart n hlt), ok_bind,
    symbol_eq_ok.mpr (linked.get?_dataEnd n hlt), ok_bind]

/-- Both words of a line lie in the range that is dumped, on the grid of the words stored. -/
theorem mem_rangeStep_of_dump {start stop addr : ℕ} (hstart : 8 ∣ start)
    (hsize : 16 ∣ stop - start)
    (h : addr ∈ (rangeStep start stop 16).flatMap fun i ↦ [i + 8, i]) :
    addr ∈ rangeStep (start / 8 * 8) stop 8 := by
  obtain ⟨i, hi, haddr⟩ := List.mem_flatMap.mp h
  obtain ⟨k, rfl, hlt⟩ := (mem_rangeStep (by decide)).mp hi
  rw [mem_rangeStep (by decide), Nat.div_mul_cancel hstart]
  simp only [List.mem_cons, List.not_mem_nil, or_false] at haddr
  rcases haddr with rfl | rfl
  · exact ⟨2 * k + 1, by omega, by omega⟩
  · exact ⟨2 * k, by omega, hlt⟩

section Stored

variable {input : RtlInput} {linked : Linked input.symbols}

theorem mem_keys_of_mem_section {memory : Dict ℕ ℤ} (hmemory : hostMemory input = .ok memory)
    {n addr : ℕ} (hn : n < 6) (haddr : addr ∈ linked.sectionAddrs n) : addr ∈ memory.keys := by
  obtain ⟨-, rfl⟩ := (hostMemory_eq_ok linked).mp hmemory
  rw [Dict.mem_keys_update]
  exact Or.inl ((mem_dataEntries linked).mpr ⟨n, hn, haddr⟩)

/-- The host stores every word that it will dump before the run. -/
theorem mem_keys_of_mem_signatureAddrs (hspaced : Spaced linked) {memory : Dict ℕ ℤ}
    (hmemory : hostMemory input = .ok memory) {addr : ℕ}
    (haddr : addr ∈ signatureAddrs linked.sigStart linked.sigEnd (dataAddrs linked)) :
    addr ∈ memory.keys := by
  obtain ⟨addrs, haddrs, haddr⟩ := List.mem_flatMap.mp haddr
  rcases List.mem_cons.mp haddrs with rfl | haddrs
  · apply mem_keys_hostMemory linked hmemory
    exact List.mem_cons_of_mem _ (mem_rangeStep_of_dump hspaced.sigStart hspaced.sigSize haddr)
  · obtain ⟨n, hn, rfl⟩ := List.mem_map.mp haddrs
    have hlt : n < 6 := List.mem_range.mp hn
    have hstart := hspaced.dataStart n hlt
    have hsize := hspaced.dataSize n hlt
    have hword := mem_rangeStep_of_dump hstart hsize haddr
    obtain ⟨k, hk, hstop⟩ := (mem_rangeStep (by decide)).mp hword
    have hsection : addr ∈ linked.sectionAddrs n := by
      rw [Linked.sectionAddrs, RtlMemory.sectionAddrs, mem_rangeStep (by decide)]
      exact ⟨k, hk, by omega⟩
    exact mem_keys_of_mem_section hmemory hlt hsection

/-- The offsets of the sections grow with the sections. -/
theorem offset_mono (hle : ∀ n < 6, linked.dataStart n ≤ linked.dataEnd n) {m n : ℕ} (hmn : m ≤ n)
    (hn : n ≤ 6) : linked.offset m ≤ linked.offset n := by
  induction n, hmn using Nat.le_induction with
  | base => exact le_rfl
  | succ n _ ih =>
    have hnext : (0 : ℤ) ≤ ((linked.dataEnd n : ℤ) - linked.dataStart n) / 8 := by
      have hsection := hle n hn
      omega
    calc
      linked.offset m ≤ linked.offset n := ih (by omega)
      _ ≤ linked.offset n + ((linked.dataEnd n : ℤ) - linked.dataStart n) / 8 := by omega

/-- Data that fill the sections have a word for each of their addresses. -/
theorem dataReadable_of_filled (hspaced : Spaced linked) (hfilled : Filled linked input.data)
    {n : ℕ} (hn : n < 6) : linked.DataReadable input.data n := by
  intro i hi
  have hlow : (0 : ℤ) ≤ linked.offset n := offset_mono hfilled.dataLe (Nat.zero_le n) hn.le
  have hhigh : linked.offset n + ((linked.dataEnd n : ℤ) - linked.dataStart n) / 8 ≤
      input.data.length := by
    rw [hfilled.dataLength]
    exact offset_mono hfilled.dataLe (Nat.succ_le_of_lt hn) le_rfl
  have hstart := hspaced.dataStart n hn
  have hle := hfilled.dataLe n hn
  have hindex : (i : ℤ) < ((linked.dataEnd n : ℤ) - linked.dataStart n) / 8 := by
    rw [Linked.sectionAddrs, RtlMemory.sectionAddrs, rangeStep, List.length_map,
      List.length_range] at hi
    omega
  obtain ⟨j, hj⟩ := Int.eq_ofNat_of_zero_le (show (0 : ℤ) ≤ i + linked.offset n by omega)
  have hlt : j < input.data.length := by omega
  refine ⟨input.data[j], ?_⟩
  rw [dataWord, hj]
  exact Text.item_of_getElem? (List.getElem?_eq_getElem hlt)

end Stored

/-- The adapter only adds and overwrites words: every address of the memory that it starts with
stays defined. -/
structure Adds (dut : Dut) : Prop where
  running : ∀ memory ints i, memory.keys ⊆ ((dut memory ints).memory i).keys
  stopped : ∀ memory ints, memory.keys ⊆ (dut memory ints).final.keys

/-- A run that has ended by itself, without an illegal access or an assertion failure, and whose
signature can be written. -/
structure Finished (behaviour : Behaviour) {symbols : Dict Text ℕ} (linked : Linked symbols)
    (maxCycles : ℕ) : Prop where
  polled : ∃ i < maxCycles, Polled behaviour linked.tohost i
  legal : ∀ addr ∈ behaviour.final.keys, addr ∈ setBootrom.1 ∨ dramBase ≤ addr
  unasserted : behaviour.asserted = false
  dumped : ∀ addr ∈ signatureAddrs linked.sigStart linked.sigEnd (dataAddrs linked),
    addr ∈ behaviour.final.keys

theorem checkMemoryAccess_eq_true {memory : Dict ℕ ℤ} {bootromAddrs : List ℕ} :
    checkMemoryAccess memory bootromAddrs = true ↔
      ∀ addr ∈ memory.keys, addr ∈ bootromAddrs ∨ dramBase ≤ addr := by
  simp [checkMemoryAccess]

theorem hostLoop_returns {behaviour : Behaviour} {tohostAddr : ℕ}
    (h : ∀ i, tohostAddr ∈ (behaviour.memory i).keys) (rounds i : ℕ) (last : Option ℕ) :
    ∃ last', hostLoop behaviour tohostAddr rounds i last = .ok last' := by
  induction rounds generalizing i last with
  | zero => exact ⟨last, rfl⟩
  | succ rounds ih =>
    obtain ⟨word, hword⟩ := Option.isSome_iff_exists.mp (Dict.isSome_get?_iff.mpr (h i))
    rw [hostLoop, loadWord_eq_ok.mpr hword, ok_bind]
    split
    · split
      · exact ih (i + 1) (some i)
      · exact ⟨some i, rfl⟩
    · exact ih (i + 1) (some i)

section Run

variable {input : RtlInput} {linked : Linked input.symbols} {dut : Dut} {assertIntr : Bool}
  {memory : Dict ℕ ℤ} {ints : Dict ℤ ℤ}

/-- The variable `i` when a linked test is in the memory. -/
def linkedIndex {symbols : Dict Text ℕ} (linked : Linked symbols) : Option ℕ :=
  (dataAddrs linked).foldl (fun last addrs ↦ lastIndex (sectionAddrs addrs.1 addrs.2) last)
    (lastIndex (codeAddrs linked.start linked.endMain) none)

theorem loadedIndex_eq (linked : Linked input.symbols) :
    loadedIndex input (dataAddrs linked) = .ok (linkedIndex linked) := by
  rw [loadedIndex, symbol_eq_ok.mpr linked.get?_start, ok_bind,
    symbol_eq_ok.mpr linked.get?_endMain, ok_bind]
  rfl

/-- With its memory and its interrupts at hand, `run_test` is its loop and the verdict after it. -/
theorem hostRunTest_eq (hmemory : hostMemory input = .ok memory)
    (hints : assertedInterrupts assertIntr (hostInterrupts input.intrfile) = .ok ints) :
    hostRunTest dut input assertIntr = (do
      let last ← hostLoop (dut memory ints) linked.tohost input.maxCycles 0 (linkedIndex linked)
      if checkMemoryAccess (dut memory ints).final setBootrom.1 then
        match last with
        | none => .error (.unboundLocalError "i")
        | some i =>
          if i + 1 = input.maxCycles then .ok (Verdict.timeOut.code, (dut memory ints).covSum)
          else if (dut memory ints).asserted then
            .ok (Verdict.assertionFail.code, (dut memory ints).covSum)
          else do
            let _ ← saveSignature (lookups (dut memory ints).final) linked.sigStart linked.sigEnd
              (dataAddrs linked)
            .ok (Verdict.success.code, (dut memory ints).covSum)
      else .ok (Verdict.illMem.code, (dut memory ints).covSum)) := by
  rw [hostRunTest, hmemory, ok_bind, symbol_eq_ok.mpr linked.get?_tohost, ok_bind,
    symbol_eq_ok.mpr linked.get?_sigStart, ok_bind, symbol_eq_ok.mpr linked.get?_sigEnd, ok_bind,
    dataSections_eq_ok linked, ok_bind, loadedIndex_eq linked, ok_bind, hints]
  rfl

/-- The loop of a run that is not empty ends with a cycle. It is the last one exactly when no poll
finds `tohost` set, as the last cycle polls nothing. -/
theorem hostLoop_last {behaviour : Behaviour} {tohostAddr maxCycles : ℕ}
    {loaded last : Option ℕ} (hpos : 0 < maxCycles) (hcycles : maxCycles % 100 ≠ 1)
    (h : hostLoop behaviour tohostAddr maxCycles 0 loaded = .ok last) :
    ∃ i, last = some i ∧
      (i + 1 = maxCycles ↔ ∀ k < maxCycles, ¬Polled behaviour tohostAddr k) := by
  rcases hostLoop_ends h with ⟨j, rfl, hlt, hpolled, -⟩ | ⟨rfl, hnever⟩
  · refine ⟨j, rfl, fun hlast ↦ ?_, fun hnever ↦ absurd hpolled (hnever j (by omega))⟩
    have hmod : j % 100 = 0 := hpolled.1
    exact absurd hlast (by omega)
  · refine ⟨0 + maxCycles - 1, if_neg hpos.ne', fun _ k hk ↦ ?_, fun _ ↦ by omega⟩
    exact hnever k (Nat.zero_le k) (by omega)

/-- The signature of a run of an adapter that only adds and overwrites words can be written. -/
theorem saveSignature_returns (hspaced : Spaced linked) (hadds : Adds dut)
    (hmemory : hostMemory input = .ok memory) :
    ∃ contents, saveSignature (lookups (dut memory ints).final) linked.sigStart linked.sigEnd
      (dataAddrs linked) = .ok contents := by
  rw [saveSignature_returns_iff]
  intro addr haddr
  rw [lookups, Option.isSome_map, Dict.isSome_get?_iff]
  exact hadds.stopped memory ints (mem_keys_of_mem_signatureAddrs hspaced hmemory haddr)

/-- A run with a memory and interrupts returns. -/
theorem hostRunTest_returns (hspaced : Spaced linked) (hpos : 0 < input.maxCycles)
    (hcycles : input.maxCycles % 100 ≠ 1) (hadds : Adds dut)
    (hmemory : hostMemory input = .ok memory)
    (hints : assertedInterrupts assertIntr (hostInterrupts input.intrfile) = .ok ints) :
    ∃ result, hostRunTest dut input assertIntr = .ok result := by
  have htohost (i : ℕ) : linked.tohost ∈ ((dut memory ints).memory i).keys :=
    hadds.running memory ints i (mem_keys_hostMemory linked hmemory List.mem_cons_self)
  obtain ⟨last, hlast⟩ := hostLoop_returns htohost input.maxCycles 0 (linkedIndex linked)
  obtain ⟨i, rfl, -⟩ := hostLoop_last hpos hcycles hlast
  obtain ⟨contents, hcontents⟩ := @saveSignature_returns input linked dut memory ints hspaced hadds hmemory
  rw [hostRunTest_eq hmemory hints, hlast, ok_bind, hcontents, ok_bind]
  dsimp only
  split
  · split
    · exact ⟨_, rfl⟩
    · split
      · exact ⟨_, rfl⟩
      · exact ⟨_, rfl⟩
  · exact ⟨_, rfl⟩

/-- What the result code of a run says about the run. -/
theorem finished_or_not_polled (hpos : 0 < input.maxCycles)
    (hcycles : input.maxCycles % 100 ≠ 1) (hmemory : hostMemory input = .ok memory)
    (hints : assertedInterrupts assertIntr (hostInterrupts input.intrfile) = .ok ints)
    {result : ℤ × ℕ} (h : hostRunTest dut input assertIntr = .ok result) :
    (result.1 = Verdict.success.code → Finished (dut memory ints) linked input.maxCycles) ∧
      (result.1 = Verdict.timeOut.code →
        ∀ i < input.maxCycles, ¬Polled (dut memory ints) linked.tohost i) := by
  rw [hostRunTest_eq hmemory hints] at h
  obtain ⟨last, hlast, h⟩ := bind_eq_ok.mp h
  obtain ⟨i, rfl, hi⟩ := hostLoop_last hpos hcycles hlast
  dsimp only at h
  split at h
  · next hlegal =>
    split at h
    · next hfull =>
      obtain rfl := Except.ok.inj h
      exact ⟨by simp [Verdict.code], fun _ ↦ hi.mp hfull⟩
    · next hstopped =>
      split at h
      · obtain rfl := Except.ok.inj h
        simp [Verdict.code]
      · next hunasserted =>
        obtain ⟨contents, hcontents, h⟩ := bind_eq_ok.mp h
        obtain rfl := Except.ok.inj h
        refine ⟨fun _ ↦ ?_, by simp [Verdict.code]⟩
        have hpolled : ∃ k < input.maxCycles, Polled (dut memory ints) linked.tohost k := by
          by_contra hnone
          exact hstopped (hi.mpr fun k hk hpolled ↦ hnone ⟨k, hk, hpolled⟩)
        refine ⟨hpolled, checkMemoryAccess_eq_true.mp hlegal, eq_false_of_ne_true hunasserted, ?_⟩
        intro addr haddr
        have hread := saveSignature_returns_iff.mp ⟨contents, hcontents⟩ addr haddr
        rwa [lookups, Option.isSome_map, Dict.isSome_get?_iff] at hread
  · obtain rfl := Except.ok.inj h
    simp [Verdict.code]

/-- A run that has ended by itself, legally and with a signature that can be written, is
successful. -/
theorem hostRunTest_of_finished (hcycles : input.maxCycles % 100 ≠ 1) (hadds : Adds dut)
    (hmemory : hostMemory input = .ok memory)
    (hints : assertedInterrupts assertIntr (hostInterrupts input.intrfile) = .ok ints)
    (hfinished : Finished (dut memory ints) linked input.maxCycles) :
    hostRunTest dut input assertIntr = .ok (Verdict.success.code, (dut memory ints).covSum) := by
  obtain ⟨cycle, hcycle, hpolled⟩ := hfinished.polled
  have htohost (i : ℕ) : linked.tohost ∈ ((dut memory ints).memory i).keys :=
    hadds.running memory ints i (mem_keys_hostMemory linked hmemory List.mem_cons_self)
  obtain ⟨last, hlast⟩ := hostLoop_returns htohost input.maxCycles 0 (linkedIndex linked)
  obtain ⟨i, rfl, hi⟩ := hostLoop_last (by omega) hcycles hlast
  have hstopped : i + 1 ≠ input.maxCycles := fun hfull ↦ hi.mp hfull cycle hcycle hpolled
  obtain ⟨contents, hcontents⟩ : ∃ contents, saveSignature (lookups (dut memory ints).final)
      linked.sigStart linked.sigEnd (dataAddrs linked) = .ok contents := by
    rw [saveSignature_returns_iff]
    intro addr haddr
    rw [lookups, Option.isSome_map, Dict.isSome_get?_iff]
    exact hfinished.dumped addr haddr
  have hasserted : (dut memory ints).asserted ≠ true := by
    rw [hfinished.unasserted]
    exact Bool.false_ne_true
  rw [hostRunTest_eq hmemory hints, hlast, ok_bind,
    if_pos (checkMemoryAccess_eq_true.mpr hfinished.legal)]
  dsimp only
  rw [if_neg hstopped, if_neg hasserted, hcontents]
  rfl

end Run

/-- All symbols of a test are in the DRAM. -/
structure InDram {symbols : Dict Text ℕ} (linked : Linked symbols) : Prop where
  start : dramBase ≤ linked.start
  tohost : dramBase ≤ linked.tohost
  sigStart : dramBase ≤ linked.sigStart
  dataStart : ∀ n < 6, dramBase ≤ linked.dataStart n

/-- The host loads such a test into the boot ROM and the DRAM only. -/
theorem InDram.legal {input : RtlInput} {linked : Linked input.symbols} (h : InDram linked)
    {memory : Dict ℕ ℤ} (hmemory : hostMemory input = .ok memory) {addr : ℕ}
    (haddr : addr ∈ memory.keys) : addr ∈ setBootrom.1 ∨ dramBase ≤ addr := by
  have hrange {start stop : ℕ} (hstart : dramBase ≤ start)
      (hmem : addr ∈ rangeStep (start / 8 * 8) stop 8) : dramBase ≤ addr := by
    obtain ⟨i, hi, -⟩ := (mem_rangeStep (by decide)).mp hmem
    unfold dramBase at hstart ⊢
    omega
  obtain ⟨-, rfl⟩ := (hostMemory_eq_ok linked).mp hmemory
  rw [Dict.mem_keys_update, mem_dataEntries, storeZeros, Dict.mem_keys_update, codeMemory,
    Dict.mem_keys_update] at haddr
  rcases haddr with ⟨n, hn, hsection⟩ | hzero | hcode | hbootrom
  · exact .inr (hrange (h.dataStart n hn) hsection)
  · rw [List.map_map, List.mem_map] at hzero
    obtain ⟨addr', hzero, rfl⟩ := hzero
    rcases List.mem_cons.mp hzero with rfl | hzero
    · exact .inr h.tohost
    · exact .inr (hrange h.sigStart hzero)
  · rw [Linked.codeEntries, map_fst_entries] at hcode
    obtain ⟨i, hi, -⟩ := (mem_rangeStep (by decide)).mp hcode
    exact .inr (hi ▸ h.start.trans (Nat.le_add_right _ _))
  · exact .inl hbootrom

/-- For aligned symbols, a number of cycles whose last one polls nothing and an adapter that only
adds and overwrites words: with data that fill the sections, a hex file with a word for each address
of the code and readable interrupts the run returns; success is reported only for a run that has
ended by itself, legally and with a signature that can be written, and a time-out only when no poll
has found `tohost` set. -/
theorem hostRunTest_verdict {input : RtlInput} (linked : Linked input.symbols)
    (hspaced : Spaced linked) (hpos : 0 < input.maxCycles) (hcycles : input.maxCycles % 100 ≠ 1)
    {dut : Dut} (hadds : Adds dut) (assertIntr : Bool) :
    (Filled linked input.data → linked.CodeReadable (Text.readlines input.hexfile) →
      ∀ ints, assertedInterrupts assertIntr (hostInterrupts input.intrfile) = .ok ints →
        ∃ result, hostRunTest dut input assertIntr = .ok result) ∧
    ∀ result, hostRunTest dut input assertIntr = .ok result →
      ∃ memory ints, hostMemory input = .ok memory ∧
        assertedInterrupts assertIntr (hostInterrupts input.intrfile) = .ok ints ∧
        (result.1 = Verdict.success.code →
          Finished (dut memory ints) linked input.maxCycles) ∧
        (result.1 = Verdict.timeOut.code →
          ∀ i < input.maxCycles, ¬Polled (dut memory ints) linked.tohost i) := by
  constructor
  · intro hfilled hcode ints hints
    have hreadable : Readable linked :=
      ⟨hcode, fun n hn ↦ dataReadable_of_filled hspaced hfilled hn⟩
    have hmemory := (hostMemory_eq_ok linked).mpr ⟨hreadable, rfl⟩
    exact hostRunTest_returns hspaced hpos hcycles hadds hmemory hints
  · intro result h
    obtain ⟨memory, hmemory, hrest⟩ := bind_eq_ok.mp h
    rw [symbol_eq_ok.mpr linked.get?_tohost, ok_bind, symbol_eq_ok.mpr linked.get?_sigStart,
      ok_bind, symbol_eq_ok.mpr linked.get?_sigEnd, ok_bind, dataSections_eq_ok linked, ok_bind,
      loadedIndex_eq linked, ok_bind] at hrest
    obtain ⟨ints, hints, -⟩ := bind_eq_ok.mp hrest
    exact ⟨memory, ints, hmemory, hints,
      finished_or_not_polled hpos hcycles hmemory hints h⟩

theorem adds_writesTohost : Adds writesTohost where
  running _ _ _ _ haddr := Dict.mem_keys_set.mpr (Or.inr haddr)
  stopped _ _ _ haddr := Dict.mem_keys_set.mpr (Or.inr haddr)

theorem spaced_linkedTest : Spaced linkedTestLinked where
  sigStart := by decide
  sigSize := by decide
  dataStart := by decide
  dataSize := by decide

theorem hostRunTest_verdict_linkedTest :
    hostRunTest writesTohost linkedTest false = .ok (Verdict.success.code, 0) ∧
      ∃ memory ints, hostMemory linkedTest = .ok memory ∧
        Finished (writesTohost memory ints) linkedTestLinked linkedTest.maxCycles := by
  have hrun : hostRunTest writesTohost linkedTest false = .ok (Verdict.success.code, 0) := by
    decide
  obtain ⟨-, hverdict⟩ := hostRunTest_verdict linkedTestLinked spaced_linkedTest (by decide)
    (by decide) adds_writesTohost false
  obtain ⟨memory, ints, hmemory, -, hfinished, -⟩ := hverdict _ hrun
  exact ⟨hrun, memory, ints, hmemory, hfinished rfl⟩

end ProcessorFuzz.Execution.RtlVerdict
