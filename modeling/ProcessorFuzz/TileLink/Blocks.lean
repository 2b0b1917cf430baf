import Mathlib.Algebra.Order.Group.Nat
import ProcessorFuzz.TileLink.AdapterSteps

/-!
# Blocks and words

The words that a transfer touches lie in the block of its address. The masks of the adapter round
an address down, which needs the widths to be powers of two; a transfer that is aligned to its size
and no larger than a block does not leave the block.
-/

namespace ProcessorFuzz.TileLink.Adapter

open Library

variable {cfg : Config}

/-- The data width divides the block size, and both are powers of two. -/
def Config.Geometric (cfg : Config) : Prop :=
  ∃ j k, cfg.dataLen = 2 ^ j ∧ cfg.blockSize = 2 ^ k ∧ j ≤ k

/-- A transfer that is aligned to its size and no larger than a block. -/
structure Fits (cfg : Config) (addr size : ℕ) : Prop where
  aligned : addr % 2 ^ size = 0
  le_blockSize : 2 ^ size ≤ cfg.blockSize

instance (addr size : ℕ) : Decidable (Fits cfg addr size) :=
  decidable_of_iff (addr % 2 ^ size = 0 ∧ 2 ^ size ≤ cfg.blockSize)
    ⟨fun h ↦ ⟨h.1, h.2⟩, fun h ↦ ⟨h.aligned, h.le_blockSize⟩⟩

/-- Clearing the low bits rounds down to a multiple of a power of two. -/
theorem andNot_two_pow_sub_one (a k : ℕ) : andNot a (2 ^ k - 1) = a / 2 ^ k * 2 ^ k := by
  apply Nat.eq_of_testBit_eq
  intro i
  rw [testBit_andNot, Nat.testBit_two_pow_sub_one, ← Nat.shiftRight_eq_div_pow,
    ← Nat.shiftLeft_eq, Nat.testBit_shiftLeft, Nat.testBit_shiftRight]
  by_cases hik : i < k
  · simp [hik]
  · have hki : k ≤ i := Nat.le_of_not_lt hik
    simp [hik, hki]

/-- Addresses with the same quotient are in the same block. -/
theorem blockAddr_congr {k a b : ℕ} (hblock : cfg.blockSize = 2 ^ k) (h : a / 2 ^ k = b / 2 ^ k) :
    cfg.blockAddr a = cfg.blockAddr b := by
  unfold Config.blockAddr
  rw [hblock, andNot_two_pow_sub_one, andNot_two_pow_sub_one, h]

/-- A quotient by a power of two determines the quotients by larger ones. -/
theorem div_two_pow_congr {a b j k : ℕ} (hjk : j ≤ k) (h : a / 2 ^ j = b / 2 ^ j) :
    a / 2 ^ k = b / 2 ^ k := by
  rw [← Nat.sub_add_cancel hjk, Nat.add_comm, Nat.pow_add, ← Nat.div_div_eq_div_mul,
    ← Nat.div_div_eq_div_mul, h]

/-- The words of a transfer lie in the block of its address. -/
theorem blockAddr_word (hcfg : cfg.Geometric) {addr size i : ℕ} (hfits : Fits cfg addr size)
    (hi : i < cfg.burstLen size) :
    cfg.blockAddr (cfg.addrAligned addr + i * cfg.dataLen) = cfg.blockAddr addr := by
  obtain ⟨j, k, hdata, hblock, hjk⟩ := hcfg
  have haligned : cfg.addrAligned addr = addr / 2 ^ j * 2 ^ j := by
    unfold Config.addrAligned
    rw [hdata, Nat.log2_two_pow, andNot_two_pow_sub_one]
  have hlen : cfg.burstLen size = max (2 ^ size / 2 ^ j) 1 := by
    unfold Config.burstLen
    rw [hdata]
  rw [hlen] at hi
  apply blockAddr_congr hblock
  rw [haligned, hdata]
  obtain hsize | hsize := Nat.lt_or_ge size j
  · -- less than one word: there is one beat, and rounding stays inside the word
    have hzero : 2 ^ size / 2 ^ j = 0 := Nat.div_eq_of_lt (Nat.pow_lt_pow_right (by decide) hsize)
    have hi0 : i = 0 := by
      rw [hzero] at hi
      omega
    rw [hi0, Nat.zero_mul, Nat.add_zero]
    exact div_two_pow_congr hjk (Nat.mul_div_cancel _ (Nat.two_pow_pos j))
  · have hk : size ≤ k := (Nat.pow_le_pow_iff_right (by decide)).mp (hblock ▸ hfits.le_blockSize)
    have hpow : 2 ^ size = 2 ^ (size - j) * 2 ^ j := by
      rw [← Nat.pow_add, Nat.sub_add_cancel hsize]
    have hquot : 2 ^ size / 2 ^ j = 2 ^ (size - j) := by
      rw [hpow, Nat.mul_div_cancel _ (Nat.two_pow_pos j)]
    have hi' : i < 2 ^ (size - j) := by
      rw [hquot, Nat.max_eq_left (Nat.two_pow_pos _)] at hi
      exact hi
    have hoffset : i * 2 ^ j < 2 ^ size := by
      rw [hpow]
      exact Nat.mul_lt_mul_of_pos_right hi' (Nat.two_pow_pos j)
    obtain ⟨q, hq⟩ : 2 ^ size ∣ addr := Nat.dvd_of_mod_eq_zero hfits.aligned
    have hround : addr / 2 ^ j * 2 ^ j = addr := by
      refine Nat.div_mul_cancel ((Nat.pow_dvd_pow 2 hsize).trans ?_)
      exact Nat.dvd_of_mod_eq_zero hfits.aligned
    refine div_two_pow_congr hk ?_
    rw [hround, hq, Nat.mul_add_div (Nat.two_pow_pos size), Nat.div_eq_of_lt hoffset,
      Nat.mul_div_cancel_left _ (Nat.two_pow_pos size), Nat.add_zero]

/-- Transfers of different blocks have no word in common. -/
theorem word_ne_of_blockAddr_ne (hcfg : cfg.Geometric) {addr addr' size size' i i' : ℕ}
    (hfits : Fits cfg addr size) (hfits' : Fits cfg addr' size') (hi : i < cfg.burstLen size)
    (hi' : i' < cfg.burstLen size') (hne : cfg.blockAddr addr ≠ cfg.blockAddr addr') :
    cfg.addrAligned addr + i * cfg.dataLen ≠ cfg.addrAligned addr' + i' * cfg.dataLen := by
  intro heq
  apply hne
  rw [← blockAddr_word hcfg hfits hi, ← blockAddr_word hcfg hfits' hi', heq]

end ProcessorFuzz.TileLink.Adapter
