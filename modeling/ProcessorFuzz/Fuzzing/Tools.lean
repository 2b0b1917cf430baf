import ProcessorFuzz.Common.SpikeTransitions
import ProcessorFuzz.Fuzzing.FuzzSteps

/-!
# Tools that work

The tools of an iteration when they do what they are there for: the listing has the symbols of the
program, Spike prints its log and the signature region of its memory, and the log of the RTL
simulation has lines. Programs, devices and memories are arbitrary, and each tool may still fail as a
whole. How a test is judged is then a matter of the two memories.
-/

namespace ProcessorFuzz.Fuzzing

open Library Mutation Execution
open Common.SpikeTransitions (transitionsOf)
open HtifSignature (ByteMemory leWord)
open Oracle (isaSigFile rtlSigFile hostSymbols signatureOf wordAt)
open RtlHost (Dut Verdict hostRunTest lookups)
open RtlMemory (RtlInput hostMemory)
open SignatureChecker (check)
open SignatureFile (writeLines)
open SpikeEvents (Event logText StartsWell)

/-- A run of Spike that comes to its end, with the memory that it leaves. -/
structure SpikeRun where
  events : List Event
  legible : ∀ t ∈ transitionsOf events, t.Legible
  memory : ByteMemory

/-- A device under test and the log of its simulation. The memory has words of 64 bits. -/
structure Device where
  dut : Dut
  log : Text
  word_lt : ∀ memory ints addr word, (dut memory ints).final.get? addr = some word → word < 2 ^ 64
  startsWell : StartsWell (Text.readlines log)

inductive SpikeResult
  | failed (run : IsaRun) (hfailed : isaEnd run ≠ none)
  | completed (run : SpikeRun)

inductive RtlResult
  | failed (log : Option Text)
  | completed (device : Device)

/-- What is made of an assembly file, and its simulations. -/
structure Tools where
  elf : Text
  hexfile : Text
  listing : Text
  program : Oracle.Program
  listing_eq : getSymbols listing = .ok (hostSymbols program.symbols)
  spike : SpikeResult
  rtl : RtlResult
  isaAgain : IsaRun
  elapsed : Text

/-- An assembly file is rejected by the compiler, or simulated. -/
inductive Attempt
  | rejected (outcome : Outcome) (hbuild : outcome.build = none)
  | simulated (tools : Tools)

/-- The signature file that Spike leaves. -/
def SpikeRun.signature (run : SpikeRun) (program : Oracle.Program) : Option Text :=
  match HtifSignature.stop (HtifSignature.loadProgram {} program.symbols) isaSigFile run.memory with
  | .error _ => none
  | .ok contents => contents

theorem SpikeRun.signature_eq (run : SpikeRun) (program : Oracle.Program) :
    run.signature program =
      some (writeLines (program.layout.fileLines (leWord run.memory))) := by
  rw [signature, program.stop_eq (by decide)]

def Tools.isaRun (tools : Tools) : IsaRun :=
  match tools.spike with
  | .failed run _ => run
  | .completed run => ⟨false, 0, logText run.events, run.signature tools.program⟩

def Tools.rtlRun (tools : Tools) : RtlRun :=
  match tools.rtl with
  | .failed log => ⟨none, log⟩
  | .completed device => ⟨some device.dut, some device.log⟩

def Attempt.outcome : Attempt → Outcome
  | rejected outcome _ => outcome
  | simulated tools =>
    { build := some ⟨tools.elf, tools.hexfile, tools.listing⟩
      isa := tools.isaRun
      rtl := tools.rtlRun
      isaAgain := tools.isaAgain
      elapsed := tools.elapsed }

inductive Judgement
  | passed
  | illegal
  | bug
  deriving DecidableEq, Repr

/-- The judgement of a result code; `same` is the verdict on the two signatures. -/
def judgementOf (code : ℤ) (same : Bool) : Judgement :=
  if code = Verdict.illMem.code then .illegal
  else if code = Verdict.success.code ∧ same = true then .passed
  else .bug

/-- The input of the RTL simulation, without interrupts. -/
def Tools.input (tools : Tools) (test : Test) : RtlInput where
  hexfile := tools.hexfile
  intrfile := []
  data := test.data
  symbols := hostSymbols tools.program.symbols
  maxCycles := if test.simInput.template = Preprocessor.templateVU then 200000 else 6000

/-- The verdict on the memories that the two simulators end with. -/
def Tools.agrees (tools : Tools) (run : SpikeRun) (final : Dict ℕ ℤ) : Bool :=
  check (signatureOf tools.program.layout (leWord run.memory))
    (signatureOf tools.program.layout (wordAt (lookups final)))

/-- The judgement of a test, unless a simulator fails or the RTL host cannot load the test. -/
def Tools.judgement (tools : Tools) (test : Test) : Option Judgement :=
  match tools.spike, tools.rtl with
  | .completed run, .completed device =>
    match hostMemory (tools.input test), hostRunTest device.dut (tools.input test) false with
    | .ok memory, .ok (code, _) =>
      some (judgementOf code (tools.agrees run (device.dut memory Dict.empty).final))
    | _, _ => none
  | _, _ => none

theorem Tools.judgement_eq_some {tools : Tools} {test : Test} {run : SpikeRun} {device : Device}
    {memory : Dict ℕ ℤ} {code : ℤ} {count : ℕ} (hspike : tools.spike = .completed run)
    (hrtl : tools.rtl = .completed device) (hmemory : hostMemory (tools.input test) = .ok memory)
    (hhost : hostRunTest device.dut (tools.input test) false = .ok (code, count)) :
    tools.judgement test =
      some (judgementOf code (tools.agrees run (device.dut memory Dict.empty).final)) := by
  unfold judgement
  rw [hspike, hrtl]
  dsimp only
  rw [hmemory, hhost]

def Attempt.judgement : Attempt → Test → Option Judgement
  | rejected _ _, _ => none
  | simulated tools, test => tools.judgement test

/-- No test of the size of the sections is judged to be worth a report. -/
def Attempt.Passes (attempt : Attempt) : Prop :=
  ∀ test : Test, test.data.length = 384 → ∀ judgement,
    attempt.judgement test = some judgement → judgement = .passed

/-- How an iteration ends whose test shows so many new transitions. -/
def Attempt.fate (attempt : Attempt) (test : Test) (trns : ℕ) : Fate :=
  match attempt with
  | rejected _ _ => .compileFailed
  | simulated tools =>
    match isaEnd tools.isaRun with
    | some fate => fate
    | none =>
      if trns = 0 then .repeated
      else if (tools.judgement test).isSome then .judged
      else .rtlFailed

end ProcessorFuzz.Fuzzing
