import Mathlib.Data.Nat.Bitwise
import ProcessorFuzz.Execution.SpikeLog

/-!
# What the logged registers can hold

The registers that reach the Spike log are written by `set_csr`, by the accrued exceptions of
floating-point instructions and by traps. The fork masks the writes to the cause registers, to
`medeleg` and to the floating-point registers as Rocket does, and the causes of traps are the
exception codes and the interrupts. From reset, a cause register therefore only ever holds a small
code or has the interrupt bit set.
-/

namespace ProcessorFuzz.Execution.SpikeCsrs

open SpikeLog

/-- The codes `CAUSE_*` that traps are thrown with. -/
def exceptionCauses : List UInt64 :=
  [0x0, 0x1, 0x2, 0x3, 0x4, 0x5, 0x6, 0x7, 0x8, 0x9, 0xa, 0xb, 0xc, 0xd, 0xf, 0x14, 0x15, 0x16,
    0x17]

inductive TrapCause
  | exception (code : { code : UInt64 // code ∈ exceptionCauses })
  | interrupt (irq : Fin 64)

/-- `t.cause()` on a processor with 64-bit registers. -/
def TrapCause.cause : TrapCause → UInt64
  | .exception code => code
  | .interrupt irq => ((1 : UInt64) <<< 63) ||| UInt64.ofNat irq

/-- A write to one of the logged registers. -/
inductive CsrUpdate
  | pc (val : UInt64)
  /-- Whatever `set_csr` and the trap entry leave in `mstatus`. -/
  | mstatus (val : UInt64)
  | fflags (val : UInt64)
  | frm (val : UInt64)
  | fcsr (val : UInt64)
  /-- The flags `softfloat_exceptionFlags` are accrued. -/
  | accrue (flags : Fin 32)
  | mcause (val : UInt64)
  | scause (val : UInt64)
  | medeleg (val : UInt64)
  | mcounteren (val : UInt64)
  | scounteren (val : UInt64)
  | trapToMachine (trap : TrapCause)
  | trapToSupervisor (trap : TrapCause)

/-- The bits that `set_csr` writes to `medeleg`. -/
def medelegMask : UInt64 :=
  ((1 : UInt64) <<< 0x0) ||| ((1 : UInt64) <<< 0x2) ||| ((1 : UInt64) <<< 0x3) ||| ((1 : UInt64) <<< 0x4) ||| ((1 : UInt64) <<< 0x6) ||| ((1 : UInt64) <<< 0x8) |||
    ((1 : UInt64) <<< 0xc) ||| ((1 : UInt64) <<< 0xd) ||| ((1 : UInt64) <<< 0xf)

def mcauseMask : UInt64 := ((1 : UInt64) <<< 63) + 15

def scauseMask : UInt64 := ((1 : UInt64) <<< 63) + 31

/-- `(old & ~mask) | (val & mask)`. -/
def masked (mask old val : UInt64) : UInt64 := (old &&& ~~~mask) ||| (val &&& mask)

def apply (s : State) : CsrUpdate → State
  | .pc val => { s with pc := val }
  | .mstatus val => { s with mstatus := val }
  | .fflags val => { s with fflags := (val &&& 0x1f).toUInt32 }
  | .frm val => { s with frm := (val &&& 0x7).toUInt32 }
  | .fcsr val =>
    { s with fflags := ((val &&& 0x1f) >>> 0).toUInt32, frm := ((val &&& 0xe0) >>> 5).toUInt32 }
  | .accrue flags => { s with fflags := s.fflags ||| UInt32.ofNat flags }
  | .mcause val => { s with mcause := masked mcauseMask s.mcause val }
  | .scause val => { s with scause := masked scauseMask s.scause val }
  | .medeleg val => { s with medeleg := masked medelegMask s.medeleg val }
  | .mcounteren val => { s with mcounteren := val.toUInt32 }
  | .scounteren val => { s with scounteren := val.toUInt32 }
  | .trapToMachine trap => { s with mcause := trap.cause }
  | .trapToSupervisor trap => { s with scause := trap.cause }

/-- `state_t::reset`. -/
def reset : State where
  pc := 0x1000
  mstatus := 0
  frm := 0
  fflags := 0
  mcause := 0
  scause := 0
  medeleg := 0
  mcounteren := 0
  scounteren := 0

/-- The states that any sequence of writes leads to. -/
def Reachable (s : State) : Prop := ∃ updates : List CsrUpdate, s = updates.foldl apply reset

/-- A small code, or an interrupt. -/
def IsCause (c : UInt64) : Prop := c.toNat < 0x80 ∨ 2 ^ 63 ≤ c.toNat

/-- Only bits of the mask are set. -/
def Within (bits c : UInt64) : Prop := c &&& ~~~bits = 0

instance (bits c : UInt64) : Decidable (Within bits c) := inferInstanceAs (Decidable (_ = _))

/-- The bits of a cause: the interrupt bit and seven bits for the code. -/
def causeBits : UInt64 := ((1 : UInt64) <<< 63) ||| 0x7f

structure Held (s : State) : Prop where
  frm : s.frm.toNat < 8
  fflags : s.fflags.toNat < 32
  mcause : Within causeBits s.mcause
  scause : Within causeBits s.scause
  medeleg : Within 0xffff s.medeleg

theorem within_masked {bits mask old : UInt64} (hold : Within bits old)
    (hmask : Within bits mask) (val : UInt64) : Within bits (masked mask old val) := by
  unfold Within masked at *
  calc
    (old &&& ~~~mask ||| val &&& mask) &&& ~~~bits =
        ((old &&& ~~~bits) &&& ~~~mask) ||| (val &&& (mask &&& ~~~bits)) := by
      apply UInt64.toBitVec_inj.mp
      ext i hi
      simp only [UInt64.toBitVec_and, UInt64.toBitVec_or, UInt64.toBitVec_not, BitVec.getElem_and,
        BitVec.getElem_or, BitVec.getElem_not]
      cases old.toBitVec[i] <;> cases mask.toBitVec[i] <;> cases bits.toBitVec[i] <;>
        cases val.toBitVec[i] <;> rfl
    _ = 0 := by
      rw [hold, hmask]
      simp

theorem within_cause (trap : TrapCause) : Within causeBits trap.cause := by
  cases trap with
  | exception code =>
    have hall : exceptionCauses.all (fun c ↦ Within causeBits c) = true := by decide
    exact of_decide_eq_true (List.all_eq_true.mp hall code code.2)
  | interrupt irq =>
    have hall : ∀ irq : Fin 64, Within causeBits (TrapCause.interrupt irq).cause := by decide
    exact hall irq

theorem held_reset : Held reset where
  frm := by decide
  fflags := by decide
  mcause := by decide
  scause := by decide
  medeleg := by decide

/-- A masked value is no larger than the mask. -/
theorem toNat_and_toUInt32_lt {mask : UInt64} {n : ℕ} (h : mask.toNat < n) (val : UInt64) :
    (val &&& mask).toUInt32.toNat < n := by
  calc
    (val &&& mask).toUInt32.toNat ≤ (val &&& mask).toNat := by
      rw [UInt64.toNat_toUInt32]
      exact Nat.mod_le _ _
    _ ≤ mask.toNat := by
      rw [UInt64.toNat_and]
      exact Nat.and_le_right
    _ < n := h

/-- Every write keeps the invariant. -/
theorem Held.apply {s : State} (h : Held s) (update : CsrUpdate) : Held (apply s update) := by
  cases update with
  | pc | mstatus | mcounteren | scounteren =>
    exact ⟨h.frm, h.fflags, h.mcause, h.scause, h.medeleg⟩
  | fflags val =>
    exact ⟨h.frm, toNat_and_toUInt32_lt (by decide) val, h.mcause, h.scause, h.medeleg⟩
  | frm val =>
    exact ⟨toNat_and_toUInt32_lt (by decide) val, h.fflags, h.mcause, h.scause, h.medeleg⟩
  | fcsr val =>
    refine ⟨?_, ?_, h.mcause, h.scause, h.medeleg⟩
    · have hshift : ((val &&& 0xe0) >>> 5).toNat ≤ 0xe0 >>> 5 := by
        rw [UInt64.toNat_shiftRight, UInt64.toNat_and, Nat.shiftRight_eq_div_pow,
          Nat.shiftRight_eq_div_pow]
        exact Nat.div_le_div_right Nat.and_le_right
      show (((val &&& 0xe0) >>> 5).toUInt32).toNat < 8
      rw [UInt64.toNat_toUInt32]
      exact (Nat.mod_le _ _).trans_lt (Nat.lt_succ_of_le hshift)
    · show (((val &&& 0x1f) >>> 0).toUInt32).toNat < 32
      rw [UInt64.shiftRight_zero]
      exact toNat_and_toUInt32_lt (by decide) val
  | accrue flags =>
    refine ⟨h.frm, ?_, h.mcause, h.scause, h.medeleg⟩
    show (s.fflags ||| UInt32.ofNat flags).toNat < 2 ^ 5
    rw [UInt32.toNat_or]
    apply Nat.or_lt_two_pow h.fflags
    rw [UInt32.toNat_ofNat']
    exact (Nat.mod_le _ _).trans_lt flags.isLt
  | mcause val =>
    exact ⟨h.frm, h.fflags, within_masked h.mcause (by decide) val, h.scause, h.medeleg⟩
  | scause val =>
    exact ⟨h.frm, h.fflags, h.mcause, within_masked h.scause (by decide) val, h.medeleg⟩
  | medeleg val =>
    exact ⟨h.frm, h.fflags, h.mcause, h.scause, within_masked h.medeleg (by decide) val⟩
  | trapToMachine trap => exact ⟨h.frm, h.fflags, within_cause trap, h.scause, h.medeleg⟩
  | trapToSupervisor trap => exact ⟨h.frm, h.fflags, h.mcause, within_cause trap, h.medeleg⟩

theorem Reachable.held {s : State} (h : Reachable s) : Held s := by
  obtain ⟨updates, rfl⟩ := h
  suffices hrun : ∀ s₀, Held s₀ → Held (updates.foldl SpikeCsrs.apply s₀) from
    hrun reset held_reset
  induction updates with
  | nil => exact fun _ h₀ ↦ h₀
  | cons update updates ih => exact fun s₀ h₀ ↦ ih (SpikeCsrs.apply s₀ update) (h₀.apply update)

theorem shiftRight_mod_eq_zero {c mask k n : ℕ} (h : c &&& mask = 0)
    (hmask : mask >>> k = 2 ^ n - 1) : (c >>> k) % 2 ^ n = 0 := by
  rw [← Nat.and_two_pow_sub_one_eq_mod, ← hmask, ← Nat.shiftRight_and_distrib, h,
    Nat.zero_shiftRight]

theorem Within.isCause {c : UInt64} (h : Within causeBits c) : IsCause c := by
  have hbits : c.toNat &&& (~~~causeBits).toNat = 0 := by
    rw [← UInt64.toNat_and, h]
    rfl
  have hmod : (c.toNat >>> 7) % 2 ^ 56 = 0 := shiftRight_mod_eq_zero hbits (by decide)
  have hlt := c.toNat_lt
  rw [Nat.shiftRight_eq_div_pow] at hmod
  unfold IsCause
  omega

end ProcessorFuzz.Execution.SpikeCsrs
