import ProcessorFuzz.Execution.RtlMemory

/-!
# The run of the two RTL hosts

Both hosts start the device under test with the memory they have built and run it cycle by cycle.
`rvRTLhost` reads the `tohost` word every 100 cycles and stops when it is set. `RTL_Simulator`
stops at the `eos` signal, which it drives itself after the loop, and its first statement passes
one argument too many to `debug_print`, so that it never comes to the loop.
-/

namespace ProcessorFuzz.Execution.RtlHost

open Library SignatureFile RtlMemory

/-- What the host sees of the device: the memory and the `eos` signal at each clock edge, the memory
after the adapter has stopped, the assertion flag and the coverage sum. -/
structure Behaviour where
  memory : ℕ → Dict ℕ ℤ
  eos : ℕ → Bool
  final : Dict ℕ ℤ
  asserted : Bool
  covSum : ℕ

/-- A device under test, started with a memory and with interrupts. -/
abbrev Dut := Dict ℕ ℤ → Dict ℤ ℤ → Behaviour

inductive Verdict
  | success
  | assertionFail
  | timeOut
  | illMem
  deriving DecidableEq, Repr

/-- The result codes. -/
def Verdict.code : Verdict → ℤ
  | success => 0
  | assertionFail => 1
  | timeOut => 2
  | illMem => -1

def dramBase : ℕ := 0x80000000

/-- Every address outside the boot ROM is in the DRAM. -/
def checkMemoryAccess (memory : Dict ℕ ℤ) (bootromAddrs : List ℕ) : Bool :=
  memory.keys.all fun addr ↦ decide (addr ∈ bootromAddrs) || decide (dramBase ≤ addr)

/-- `memory[addr]`. -/
def loadWord (memory : Dict ℕ ℤ) (addr : ℕ) : Except PyError ℤ :=
  match memory.get? addr with
  | none => .error .keyError
  | some word => .ok word

/-- The lookups that the writer of the signature file makes. -/
def lookups (memory : Dict ℕ ℤ) : Memory := fun addr ↦ (memory.get? addr).map Int.toNat

/-- The interrupts of a test: none unless they are asserted. -/
def assertedInterrupts (assertIntr : Bool) (ints : Except PyError (Dict ℤ ℤ)) :
    Except PyError (Dict ℤ ℤ) :=
  if assertIntr then ints else .ok Dict.empty

/-- The interrupts in the file, from addresses to values. -/
def hostInterrupts (contents : Text) : Except PyError (Dict ℤ ℤ) :=
  (Text.readlines contents).foldlM (fun ints line ↦
    match Text.split [':'] line with
    | addr :: value :: _ => do
      let addr ← Text.int 16 addr
      let value ← Text.int 2 value
      .ok (ints.set addr value)
    | _ => .error .indexError) Dict.empty

/-- The variable `i` after a loop over addresses, which leaves it alone when there are none. -/
def lastIndex (addrs : List ℕ) (last : Option ℕ) : Option ℕ :=
  if addrs = [] then last else some (addrs.length - 1)

/-- The variable `i` when the code and the data are in the memory. -/
def loadedIndex (input : RtlInput) (dataAddrs : List (ℕ × ℕ)) : Except PyError (Option ℕ) := do
  let start ← symbol input.symbols "_start".toList
  let endMain ← symbol input.symbols "_end_main".toList
  let last := lastIndex (codeAddrs start endMain) none
  .ok (dataAddrs.foldl (fun last addrs ↦ lastIndex (sectionAddrs addrs.1 addrs.2) last) last)

/-- The loop of `run_test` from cycle `i` on, for some more rounds. `last` is the variable `i`
after the rounds before. -/
def hostLoop (behaviour : Behaviour) (tohostAddr : ℕ) : ℕ → ℕ → Option ℕ →
    Except PyError (Option ℕ)
  | 0, _, last => .ok last
  | rounds + 1, i, _ =>
    if i % 100 = 0 then do
      let tohost ← loadWord (behaviour.memory i) tohostAddr
      if tohost = 0 then hostLoop behaviour tohostAddr rounds (i + 1) (some i) else .ok (some i)
    else hostLoop behaviour tohostAddr rounds (i + 1) (some i)

/-- `rvRTLhost.run_test`: the result code and the coverage sum. -/
def hostRunTest (dut : Dut) (input : RtlInput) (assertIntr : Bool) :
    Except PyError (ℤ × ℕ) := do
  let memory ← hostMemory input
  let tohostAddr ← symbol input.symbols "tohost".toList
  let sigStart ← symbol input.symbols "begin_signature".toList
  let sigEnd ← symbol input.symbols "end_signature".toList
  let dataAddrs ← dataSections input.symbols
  let loaded ← loadedIndex input dataAddrs
  let ints ← assertedInterrupts assertIntr (hostInterrupts input.intrfile)
  let behaviour := dut memory ints
  let last ← hostLoop behaviour tohostAddr input.maxCycles 0 loaded
  if checkMemoryAccess behaviour.final setBootrom.1 then
    match last with
    | none => .error (.unboundLocalError "i")
    | some i =>
      if i + 1 = input.maxCycles then .ok (Verdict.timeOut.code, behaviour.covSum)
      else if behaviour.asserted then .ok (Verdict.assertionFail.code, behaviour.covSum)
      else do
        let _ ← saveSignature (lookups behaviour.final) sigStart sigEnd dataAddrs
        .ok (Verdict.success.code, behaviour.covSum)
  else .ok (Verdict.illMem.code, behaviour.covSum)

/-- The fields that a run reads. -/
structure Simulator where
  debug : Bool
  maxCycles : ℕ
  rtlSigFile : Option Text

/-- An argument of a call. -/
inductive Argument
  | text (message : Text)
  | flag (value : Bool)

/-- `debug_print`, which takes one argument besides `self`. -/
def debugPrint : List Argument → Except PyError Unit
  | [_] => .ok ()
  | _ => .error .typeError

/-- `_parse_interrupts`: every line has exactly one colon. -/
def parseInterrupts (contents : Text) : Except PyError (Dict ℤ ℤ) :=
  (Text.readlines contents).foldlM (fun ints line ↦
    match Text.split [':'] line with
    | [addr, value] => do
      let addr ← Text.int 16 addr
      let value ← Text.int 2 value
      .ok (ints.set addr value)
    | _ => .error .valueError) Dict.empty

/-- The loop of `run_test` from a cycle on, for some more rounds: the flag `timeout`. -/
def simulatorLoop (behaviour : Behaviour) (maxCycles : ℕ) : ℕ → ℕ → Bool → Bool
  | 0, _, timeout => timeout
  | rounds + 1, cycle, timeout =>
    if behaviour.eos cycle then timeout
    else simulatorLoop behaviour maxCycles rounds (cycle + 1)
      (timeout || decide (cycle + 1 = maxCycles))

/-- `run_test` after its first statement. -/
def simulatorBody (sim : Simulator) (dut : Dut) (input : RtlInput) (assertIntr : Bool) :
    Except PyError (ℤ × ℕ) := do
  let memory ← simulatorMemory input
  let ints ← assertedInterrupts assertIntr (parseInterrupts input.intrfile)
  let behaviour := dut memory ints
  let _ ← symbol input.symbols "tohost".toList
  if checkMemoryAccess behaviour.final setBootrom.1 then
    if simulatorLoop behaviour sim.maxCycles sim.maxCycles 0 false then
      .ok (Verdict.timeOut.code, behaviour.covSum)
    else if behaviour.asserted then .ok (Verdict.assertionFail.code, behaviour.covSum)
    else do
      let sigStart ← symbol input.symbols "begin_signature".toList
      let sigEnd ← symbol input.symbols "end_signature".toList
      let dataAddrs ← dataSections input.symbols
      let _ ← rtlSimulatorSaveSignature sim.rtlSigFile (lookups behaviour.final) sigStart sigEnd
        dataAddrs
      .ok (Verdict.success.code, behaviour.covSum)
  else .ok (Verdict.illMem.code, behaviour.covSum)

/-- `RTL_Simulator.run_test`. -/
def simulatorRunTest (sim : Simulator) (dut : Dut) (input : RtlInput) (iteration : ℕ)
    (assertIntr : Bool) : Except PyError (ℤ × ℕ) := do
  debugPrint [.text ("[RTL_Simulator] Starting simulation (test ".toList ++ Text.dec iteration ++
    ")".toList), .flag sim.debug]
  simulatorBody sim dut input assertIntr

/-- A poll at this cycle finds the `tohost` word set. -/
def Polled (behaviour : Behaviour) (tohostAddr i : ℕ) : Prop :=
  i % 100 = 0 ∧ ∃ word ≠ 0, (behaviour.memory i).get? tohostAddr = some word

theorem loadWord_eq_ok {memory : Dict ℕ ℤ} {addr : ℕ} {word : ℤ} :
    loadWord memory addr = .ok word ↔ memory.get? addr = some word := by
  unfold loadWord
  split
  · next h => simp [h]
  · next h => simp [h]

/-- The older loop ends at the first poll that finds `tohost` set, and otherwise with its last
cycle. -/
theorem hostLoop_ends {behaviour : Behaviour} {tohostAddr rounds i : ℕ} {last last' : Option ℕ}
    (h : hostLoop behaviour tohostAddr rounds i last = .ok last') :
    (∃ j, last' = some j ∧ j < i + rounds ∧ Polled behaviour tohostAddr j ∧
      ∀ k, i ≤ k → k < j → ¬Polled behaviour tohostAddr k) ∨
    (last' = (if rounds = 0 then last else some (i + rounds - 1)) ∧
      ∀ k, i ≤ k → k < i + rounds → ¬Polled behaviour tohostAddr k) := by
  induction rounds generalizing i last with
  | zero =>
    obtain rfl := Except.ok.inj h
    exact .inr ⟨rfl, fun k hk hlt ↦ absurd hlt (by omega)⟩
  | succ rounds ih =>
    -- A round that does not stop the loop hands over to the rounds after it.
    have hnext (hround : ¬Polled behaviour tohostAddr i)
        (hrest : hostLoop behaviour tohostAddr rounds (i + 1) (some i) = .ok last') :
        (∃ j, last' = some j ∧ j < i + (rounds + 1) ∧ Polled behaviour tohostAddr j ∧
          ∀ k, i ≤ k → k < j → ¬Polled behaviour tohostAddr k) ∨
        (last' = (if rounds + 1 = 0 then last else some (i + (rounds + 1) - 1)) ∧
          ∀ k, i ≤ k → k < i + (rounds + 1) → ¬Polled behaviour tohostAddr k) := by
      have hearlier (bound : ℕ) (hbefore : ∀ k, i + 1 ≤ k → k < bound →
          ¬Polled behaviour tohostAddr k) :
          ∀ k, i ≤ k → k < bound → ¬Polled behaviour tohostAddr k := by
        intro k hk hlt
        rcases Nat.eq_or_lt_of_le hk with rfl | hk
        · exact hround
        · exact hbefore k hk hlt
      rcases ih hrest with ⟨j, hj, hlt, hpolled, hbefore⟩ | ⟨hlast, hbefore⟩
      · exact .inl ⟨j, hj, by omega, hpolled, hearlier j hbefore⟩
      · refine .inr ⟨?_, hearlier _ fun k hk hlt ↦ hbefore k hk (by omega)⟩
        rw [hlast, if_neg (Nat.succ_ne_zero rounds)]
        split
        · next hzero =>
          subst hzero
          rfl
        · congr 1
          omega
    rw [hostLoop] at h
    split at h
    · next hmod =>
      obtain ⟨tohost, htohost, h⟩ := bind_eq_ok.mp h
      have hstored := loadWord_eq_ok.mp htohost
      split at h
      · next hzero =>
        apply hnext _ h
        rintro ⟨-, word, hword, hget⟩
        rw [hstored] at hget
        exact hword ((Option.some.inj hget).symm.trans hzero)
      · next hset =>
        obtain rfl := Except.ok.inj h
        refine .inl ⟨i, rfl, by omega, ⟨hmod, tohost, hset, hstored⟩, fun k hk hlt ↦ ?_⟩
        exact absurd hlt (by omega)
    · next hmod => exact hnext (fun hpolled ↦ hmod hpolled.1) h

theorem simulatorRunTest_eq_error (sim : Simulator) (dut : Dut) (input : RtlInput) (iteration : ℕ)
    (assertIntr : Bool) : simulatorRunTest sim dut input iteration assertIntr = .error .typeError :=
  rfl

/-- Both hosts return, with the same result code. -/
def SameVerdict (sim : Simulator) (dut : Dut) (input : RtlInput) (iteration : ℕ)
    (assertIntr : Bool) : Prop :=
  ∃ code covSum covSum', simulatorRunTest sim dut input iteration assertIntr = .ok (code, covSum) ∧
    hostRunTest dut input assertIntr = .ok (code, covSum')

theorem not_sameVerdict (sim : Simulator) (dut : Dut) (input : RtlInput) (iteration : ℕ)
    (assertIntr : Bool) : ¬SameVerdict sim dut input iteration assertIntr := by
  rintro ⟨code, covSum, -, h, -⟩
  rw [simulatorRunTest_eq_error] at h
  exact nomatch h

/-- The memory that `_set_bootrom` and `_load_test_memory` build is the one of `rvRTLhost` exactly
when what only `rvRTLhost` stores is preset. A run comes to neither of them. -/
theorem simulatorMemory_same_iff {input : RtlInput} (linked : Linked input.symbols)
    {memory : Dict ℕ ℤ} (h : hostMemory input = .ok memory) :
    (SameMemory input linked memory ↔
      ∀ addr ∈ zeroAddrs linked.tohost linked.sigStart linked.sigEnd,
        Preset input linked addr) ∧
    ∀ sim dut iteration assertIntr,
      simulatorRunTest sim dut input iteration assertIntr = .error .typeError :=
  ⟨sameMemory_iff linked h, fun sim dut iteration assertIntr ↦
    simulatorRunTest_eq_error sim dut input iteration assertIntr⟩

/-- Five words of code, a signature of two words and six sections of two words. -/
def linkedTest : RtlInput where
  hexfile := (List.replicate 5 ("0000001300000013\n".toList)).flatten
  intrfile := []
  data := [1, 2, 3, 4, 5, 6, 7, 8, 9, 10, 11, 12]
  symbols := Dict.ofList [("_start".toList, 0x80000000), ("_end_main".toList, 0x80000000),
    ("tohost".toList, 0x80001000), ("begin_signature".toList, 0x80002000),
    ("end_signature".toList, 0x80002010),
    ("_random_data0".toList, 0x80010000), ("_end_data0".toList, 0x80010010),
    ("_random_data1".toList, 0x80020000), ("_end_data1".toList, 0x80020010),
    ("_random_data2".toList, 0x80030000), ("_end_data2".toList, 0x80030010),
    ("_random_data3".toList, 0x80040000), ("_end_data3".toList, 0x80040010),
    ("_random_data4".toList, 0x80050000), ("_end_data4".toList, 0x80050010),
    ("_random_data5".toList, 0x80060000), ("_end_data5".toList, 0x80060010)]
  maxCycles := 6000

def linkedTestLinked : Linked linkedTest.symbols where
  start := 0x80000000
  endMain := 0x80000000
  tohost := 0x80001000
  sigStart := 0x80002000
  sigEnd := 0x80002010
  dataStart n := 0x80010000 + 0x10000 * n
  dataEnd n := 0x80010010 + 0x10000 * n
  get?_start := rfl
  get?_endMain := rfl
  get?_tohost := rfl
  get?_sigStart := rfl
  get?_sigEnd := rfl
  get?_dataStart := by decide
  get?_dataEnd := by decide

/-- The memory of `rvRTLhost` for the linked test. -/
def linkedTestMemory : Dict ℕ ℤ :=
  (storeZeros (zeroAddrs 0x80001000 0x80002000 0x80002010) (codeMemory linkedTestLinked)).update
    (linkedTestLinked.dataEntries linkedTest.data 6)

theorem hostMemory_linkedTest : hostMemory linkedTest = .ok linkedTestMemory := by decide

theorem simulatorMemory_same_iff_linkedTest :
    (SameMemory linkedTest linkedTestLinked linkedTestMemory ↔
      ∀ addr ∈ zeroAddrs linkedTestLinked.tohost linkedTestLinked.sigStart linkedTestLinked.sigEnd,
        Preset linkedTest linkedTestLinked addr) ∧
    ∀ sim dut iteration assertIntr,
      simulatorRunTest sim dut linkedTest iteration assertIntr = .error .typeError :=
  simulatorMemory_same_iff linkedTestLinked hostMemory_linkedTest

/-- `RTL_Simulator` leaves the `tohost` word of the linked test undefined. -/
theorem not_sameMemory_linkedTest :
    hostMemory linkedTest = .ok linkedTestMemory ∧
      ¬SameMemory linkedTest linkedTestLinked linkedTestMemory := by
  refine ⟨hostMemory_linkedTest, ?_⟩
  rintro ⟨memory', hmemory', -, htohost, -⟩
  have hbuilt : simulatorMemory linkedTest = .ok ((codeMemory linkedTestLinked).update
      (linkedTestLinked.dataEntries linkedTest.data 6)) := by decide
  have hundefined : linkedTestLinked.tohost ∉ ((codeMemory linkedTestLinked).update
      (linkedTestLinked.dataEntries linkedTest.data 6)).keys := by decide
  rw [hbuilt] at hmemory'
  obtain rfl := Except.ok.inj hmemory'
  exact hundefined htohost

/-- A device that sets `tohost` in its first cycle. -/
def writesTohost : Dut := fun memory _ ↦
  { memory := fun _ ↦ memory.set 0x80001000 1
    eos := fun _ ↦ false
    final := memory.set 0x80001000 1
    asserted := false
    covSum := 0 }

def quietSimulator : Simulator where
  debug := false
  maxCycles := 6000
  rtlSigFile := some "rtl.sig".toList

/-- The older host reports success on the linked test, the newer one nothing. -/
theorem not_sameVerdict_linkedTest :
    hostRunTest writesTohost linkedTest false = .ok (Verdict.success.code, 0) ∧
      ¬SameVerdict quietSimulator writesTohost linkedTest 0 false := by
  have hhost : hostRunTest writesTohost linkedTest false = .ok (Verdict.success.code, 0) := by
    decide
  refine ⟨hhost, ?_⟩
  rintro ⟨code, covSum, -, h, -⟩
  exact nomatch h

end ProcessorFuzz.Execution.RtlHost
