import Mathlib.Algebra.Group.Nat.Defs
import Mathlib.Data.Nat.Factorization.Basic
import ProcessorFuzz.Library.Lanes
import ProcessorFuzz.Library.Python

/-!
# TileLink messages

Opcodes, parameters and message records of the five channels. An opcode is an enumeration; the
parameter wire carries a different enumeration for each opcode, so parameters stay numbers with the
names that the adapter uses.
-/

namespace ProcessorFuzz.TileLink

open Library

/-- The levels `TL_UL`, `TL_UH` and `TL_C`. -/
abbrev Protocol := ℕ

def tlUL : Protocol := 0
def tlUH : Protocol := 1
def tlC : Protocol := 2

inductive AOpcode
  | putFullData | putPartialData | arithmeticData | logicalData | get | intent
  | acquireBlock | acquirePerm
  deriving DecidableEq, Repr

inductive COpcode
  | accessAck | accessAckData | hintAck | reserved | probeAck | probeAckData | release
  | releaseData
  deriving DecidableEq, Repr

inductive DOpcode
  | accessAck | accessAckData | hintAck | grant | grantData | releaseAck
  deriving DecidableEq, Repr

inductive BOpcode
  | probeBlock | probePerm
  deriving DecidableEq, Repr

inductive Permission
  | none | branch | trunk | tip
  deriving DecidableEq, Repr

def MIN : ℕ := 0
def MAX : ℕ := 1
def MINU : ℕ := 2
def MAXU : ℕ := 3
def ADD : ℕ := 4

def XOR : ℕ := 0
def OR : ℕ := 1
def AND : ℕ := 2
def SWAP : ℕ := 3

def toT : ℕ := 0
def toB : ℕ := 1
def toN : ℕ := 2

def NtoB : ℕ := 0
def NtoT : ℕ := 1
def BtoT : ℕ := 2

def TtoB : ℕ := 0
def TtoN : ℕ := 1
def BtoN : ℕ := 2

def TtoT : ℕ := 3
def BtoB : ℕ := 4
def NtoN : ℕ := 5

structure AMessage where
  opcode : AOpcode
  param : ℕ
  size : ℕ
  source : ℕ
  address : ℕ
  mask : ℕ
  data : ℕ
  deriving DecidableEq, Repr

structure CMessage where
  opcode : COpcode
  param : ℕ
  size : ℕ
  source : ℕ
  address : ℕ
  data : ℕ
  corrupt : ℕ
  deriving DecidableEq, Repr

structure BMessage where
  opcode : BOpcode
  param : ℕ
  size : ℕ
  source : ℕ
  address : ℕ
  mask : ℕ
  data : ℕ := 0
  deriving DecidableEq, Repr

structure DMessage where
  opcode : DOpcode
  param : ℕ := 0
  size : ℕ
  source : ℕ
  sink : ℕ := 0
  data : ℕ := 0
  corrupt : ℕ := 0
  denied : ℕ := 0
  deriving DecidableEq, Repr

/-- `a & ~b`. -/
def andNot (a b : ℕ) : ℕ := a ^^^ (a &&& b)

theorem testBit_andNot (a b i : ℕ) :
    (andNot a b).testBit i = (a.testBit i && !b.testBit i) := by
  unfold andNot
  rw [Nat.testBit_xor, Nat.testBit_and]
  cases a.testBit i <;> cases b.testBit i <;> rfl

/-- `mask & -mask`, where `-mask` is `~(mask - 1)`. -/
def lowestSetBit (mask : ℕ) : ℕ := andNot mask (mask - 1)

/-- The lowest set bit of an odd number that has been moved to the left. -/
theorem lowestSetBit_two_pow_mul (p : ℕ) {m : ℕ} (hm : Odd m) :
    lowestSetBit (2 ^ p * m) = 2 ^ p := by
  obtain ⟨k, rfl⟩ := hm
  have hpos := Nat.two_pow_pos p
  have hsub : 2 ^ p * (2 * k + 1) - 1 = 2 ^ p * (2 * k) + (2 ^ p - 1) := by
    rw [Nat.mul_succ]
    omega
  apply Nat.eq_of_testBit_eq
  intro i
  rw [lowestSetBit, testBit_andNot, hsub, Nat.testBit_two_pow_mul_add _ (by omega),
    Nat.testBit_two_pow_mul, Nat.testBit_two_pow, Nat.testBit_two_pow_sub_one]
  rcases Nat.lt_trichotomy i p with hi | rfl | hi
  · have hle : ¬p ≤ i := by omega
    simp [hle, hi.ne']
  · simp
  · -- above the lowest set bit, the number and its predecessor have the same bits
    obtain ⟨d, rfl⟩ : ∃ d, i = p + 1 + d := Nat.exists_eq_add_of_le hi
    have hbit : p + 1 + d - p = d + 1 := by omega
    have hlt : ¬p + 1 + d < p := by omega
    have hne : p ≠ p + 1 + d := by omega
    have hhalf : (2 * k + 1) / 2 = k := by omega
    rw [if_neg hlt, hbit, Nat.testBit_succ, Nat.testBit_succ, hhalf]
    simp [hne]

theorem lowestSetBit_run (p : ℕ) {b : ℕ} (hb : 0 < b) : lowestSetBit (Lanes.run p b) = 2 ^ p := by
  rw [Lanes.run, Nat.mul_comm, lowestSetBit_two_pow_mul p (Lanes.odd_two_pow_sub_one hb)]

/-- The test `(mask & (mask + (mask & -mask))) == 0`. -/
def maskContiguous (mask : ℕ) : Bool := mask &&& (mask + lowestSetBit mask) == 0

theorem maskContiguous_two_pow_mul (p : ℕ) {m : ℕ} (hm : Odd m) :
    maskContiguous (2 ^ p * m) = true ↔ ∃ b, 2 ^ p * m = Lanes.run p b := by
  rw [maskContiguous, beq_iff_eq, lowestSetBit_two_pow_mul p hm, Lanes.and_add_two_pow_eq_zero_iff]

theorem maskContiguous_run (p b : ℕ) : maskContiguous (Lanes.run p b) = true := by
  rcases Nat.eq_zero_or_pos b with rfl | hb
  · simp [Lanes.run, maskContiguous]
  · have hrun : Lanes.run p b = 2 ^ p * (2 ^ b - 1) := Nat.mul_comm _ _
    rw [hrun, maskContiguous_two_pow_mul p (Lanes.odd_two_pow_sub_one hb)]
    exact ⟨b, hrun.symm⟩

/-- The test accepts the masks whose bits form one run, and the empty mask. -/
theorem maskContiguous_iff (mask : ℕ) :
    maskContiguous mask = true ↔ mask = 0 ∨ ∃ a b, mask = (2 ^ a - 1) * 2 ^ b := by
  constructor
  · intro h
    rcases eq_or_ne mask 0 with hzero | hne
    · exact .inl hzero
    · obtain ⟨p, m, hm, rfl⟩ := Nat.exists_eq_two_pow_mul_odd hne
      obtain ⟨b, hb⟩ := (maskContiguous_two_pow_mul p hm).mp h
      exact .inr ⟨b, p, hb⟩
  · rintro (rfl | ⟨a, b, rfl⟩)
    · rfl
    · exact maskContiguous_run b a

/-- The checks that every message of an aligned channel repeats. -/
def assertAligned (label : String) (size addr : ℕ) : Except PyError Unit :=
  assert (addr % 2 ^ size == 0) (label ++ ": address must be aligned to size")

def assertContiguous (label : String) (mask : ℕ) : Except PyError Unit :=
  assert (maskContiguous mask) (label ++ ": bits in mask must be contiguous")

/-- `A_assertions`. -/
def aAssertions (m : AMessage) (debug : Bool) : Except PyError Unit :=
  if debug then
    match m.opcode with
    | .get => do
      assert (m.param == 0) "GET: param must be 0"
      assertAligned "GET" m.size m.address
      assertContiguous "GET" m.mask
    | .putFullData => do
      assert (m.param == 0) "PUT_FULL_DATA: param must be 0"
      assertAligned "PUT_FULL_DATA" m.size m.address
      assertContiguous "PUT_FULL_DATA" m.mask
    | .putPartialData => do
      assert (m.param == 0) "PUT_PARTIAL_DATA: param must be 0"
      assertAligned "PUT_PARTIAL_DATA" m.size m.address
    | .arithmeticData => do
      assert (decide (m.param < 5)) "ARITHMETIC_DATA: param must be lower than 5"
      assertAligned "ARITHMETIC_DATA" m.size m.address
      assertContiguous "ARITHMETIC_DATA" m.mask
    | .logicalData => do
      assert (decide (m.param < 4)) "LOGICAL_DATA: param must be lower than 4"
      assertAligned "LOGICAL_DATA" m.size m.address
      assertContiguous "LOGICAL_DATA" m.mask
    | .intent => do
      assert (decide (m.param < 2)) "INTENT: param must be lower than 2"
      assertAligned "INTENT" m.size m.address
    | .acquireBlock => do
      assert ([NtoB, NtoT, BtoT].contains m.param)
        "ACQUIRE_BLOCK: param must be in GROW transactions"
      assertAligned "ACQUIRE_BLOCK" m.size m.address
      assertContiguous "ACQUIRE_BLOCK" m.mask
    | .acquirePerm => do
      assert ([NtoB, NtoT, BtoT].contains m.param)
        "ACQUIRE_PERM: param must be in GROW transactions"
      assertAligned "ACQUIRE_PERM" m.size m.address
      assertContiguous "ACQUIRE_PERM" m.mask
  else .ok ()

/-- `C_assertions`. -/
def cAssertions (m : CMessage) (debug : Bool) : Except PyError Unit :=
  if debug then
    match m.opcode with
    | .probeAck | .probeAckData => do
      assert ([TtoB, TtoN, BtoN, TtoT, BtoB, NtoN].contains m.param)
        "PROBE_ACK: param must be PRUNE or REPORT"
      assertAligned "PROBE_ACK" m.size m.address
      assert (m.corrupt == 0) "PROBE_ACK: corrupt must be 0"
    | .release => do
      assert ([TtoB, TtoN, BtoN, TtoT, BtoB, NtoN].contains m.param)
        "RELEASE: param must be in PRUNE or REPORT transitions"
      assertAligned "RELEASE" m.size m.address
    | .releaseData => do
      assert ([TtoB, TtoN, BtoN].contains m.param)
        "RELEASE: param must be in PRUNE transitions"
      assertAligned "RELEASE" m.size m.address
    | .accessAck | .accessAckData | .hintAck | .reserved => .ok ()
  else .ok ()

@[simp]
theorem aAssertions_false (m : AMessage) : aAssertions m false = .ok () := rfl

@[simp]
theorem cAssertions_false (m : CMessage) : cAssertions m false = .ok () := rfl

/-- A message that passes the checks passes them with debugging off as well. -/
theorem aAssertions_of_true {m : AMessage} (h : aAssertions m true = .ok ()) (debug : Bool) :
    aAssertions m debug = .ok () := by
  cases debug with
  | false => rfl
  | true => exact h

theorem cAssertions_of_true {m : CMessage} (h : cAssertions m true = .ok ()) (debug : Bool) :
    cAssertions m debug = .ok () := by
  cases debug with
  | false => rfl
  | true => exact h

end ProcessorFuzz.TileLink
