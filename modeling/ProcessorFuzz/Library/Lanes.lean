import Mathlib.Data.Nat.Digits.Defs
import Mathlib.Data.Nat.Digits.Lemmas

/-!
# Bytes of a word

A word is a number whose bytes can be selected one by one. A mask of bytes becomes a mask of bits by
repeating every bit eight times; a run of bytes is a field of bits at a multiple of eight.
-/

namespace ProcessorFuzz.Library.Lanes

/-- Byte `i` of a number. -/
def byte (n i : ℕ) : ℕ := n / 256 ^ i % 256

theorem testBit_byte (n i j : ℕ) :
    (byte n i).testBit j = (decide (j < 8) && n.testBit (8 * i + j)) := by
  have hpow : 256 ^ i = 2 ^ (8 * i) := by rw [Nat.pow_mul]
  have hbyte : 256 = 2 ^ 8 := rfl
  rw [byte, hpow, hbyte, Nat.testBit_mod_two_pow, Nat.testBit_div_two_pow, Nat.add_comm j]

/-- Two numbers with the same bits in a byte. -/
theorem byte_congr {m n i : ℕ}
    (h : ∀ j < 8, m.testBit (8 * i + j) = n.testBit (8 * i + j)) : byte m i = byte n i := by
  apply Nat.eq_of_testBit_eq
  intro j
  rw [testBit_byte, testBit_byte]
  by_cases hj : j < 8
  · rw [h j hj]
  · simp [hj]

theorem testBit_of_byte_eq {m n i : ℕ} (h : byte m i = byte n i) {j : ℕ} (hj : j < 8) :
    m.testBit (8 * i + j) = n.testBit (8 * i + j) := by
  have hbit := congrArg (Nat.testBit · j) h
  simpa [testBit_byte, hj] using hbit

/-- The mask of bits for a mask of bytes. -/
def expand (mask : ℕ) : ℕ := Nat.ofDigits 256 ((Nat.digits 2 mask).map (0xff * ·))

@[simp]
theorem expand_zero : expand 0 = 0 := rfl

theorem expand_eq (mask : ℕ) : expand mask = 2 ^ 8 * expand (mask / 2) + 0xff * (mask % 2) := by
  rcases Nat.eq_zero_or_pos mask with rfl | hpos
  · rfl
  · rw [expand, Nat.digits_def' (by decide) hpos, List.map_cons, Nat.ofDigits_cons, Nat.add_comm]
    rfl

/-- Every bit of the mask of bytes is repeated eight times. -/
theorem testBit_expand (mask i : ℕ) : (expand mask).testBit i = mask.testBit (i / 8) := by
  induction mask using Nat.strong_induction_on generalizing i with
  | _ mask ih =>
    rcases Nat.eq_zero_or_pos mask with rfl | hpos
    · simp
    · have hlow : 0xff * (mask % 2) < 2 ^ 8 := by omega
      rw [expand_eq, Nat.testBit_two_pow_mul_add _ hlow]
      split
      · next hi =>
        have hzero : i / 8 = 0 := Nat.div_eq_of_lt hi
        rw [hzero, Nat.testBit_zero]
        rcases Nat.mod_two_eq_zero_or_one mask with hmod | hmod
        · simp [hmod]
        · rw [hmod, Nat.mul_one, show 0xff = 2 ^ 8 - 1 from rfl, Nat.testBit_two_pow_sub_one]
          simp [hi]
      · next hi =>
        have hquot : i / 8 = (i - 8) / 8 + 1 := by omega
        rw [ih _ (Nat.div_lt_self hpos (by decide)), hquot, Nat.testBit_add_one]

/-- A byte of the mask of bits is full or empty. -/
theorem byte_expand (mask i : ℕ) : byte (expand mask) i = if mask.testBit i then 0xff else 0 := by
  apply Nat.eq_of_testBit_eq
  intro j
  rw [testBit_byte, testBit_expand]
  by_cases hj : j < 8
  · have hquot : (8 * i + j) / 8 = i := by omega
    rw [hquot]
    cases mask.testBit i
    · simp
    · rw [if_pos rfl, show 0xff = 2 ^ 8 - 1 from rfl, Nat.testBit_two_pow_sub_one]
      simp [hj]
  · cases mask.testBit i
    · simp [hj]
    · rw [if_pos rfl, show 0xff = 2 ^ 8 - 1 from rfl, Nat.testBit_two_pow_sub_one]
      simp [hj]

/-- The mask of the `b` bytes from byte `p` on. -/
def run (p b : ℕ) : ℕ := (2 ^ b - 1) * 2 ^ p

theorem testBit_run (p b i : ℕ) : (run p b).testBit i = (decide (p ≤ i) && decide (i < p + b)) := by
  rw [run, Nat.mul_comm, Nat.testBit_two_pow_mul, Nat.testBit_two_pow_sub_one]
  by_cases hp : p ≤ i
  · have hlt : i - p < b ↔ i < p + b := by omega
    simp [hp, hlt]
  · simp [hp]

/-- A run of bytes is a run of bits. -/
theorem expand_run (p b : ℕ) : expand (run p b) = run (8 * p) (8 * b) := by
  apply Nat.eq_of_testBit_eq
  intro i
  rw [testBit_expand, testBit_run, testBit_run]
  have hlow : p ≤ i / 8 ↔ 8 * p ≤ i := by omega
  have hhigh : i / 8 < p + b ↔ i < 8 * p + 8 * b := by omega
  rw [decide_eq_decide.mpr hlow, decide_eq_decide.mpr hhigh]

theorem run_ne_zero {b : ℕ} (hb : 0 < b) (p : ℕ) : run p b ≠ 0 := by
  have hpow : 2 ≤ 2 ^ b := by
    calc
      2 = 2 ^ 1 := rfl
      _ ≤ 2 ^ b := Nat.pow_le_pow_right (by decide) hb
  have hpos := Nat.two_pow_pos p
  exact Nat.mul_ne_zero (by omega) (by omega)

theorem odd_two_pow_sub_one {b : ℕ} (hb : 0 < b) : Odd (2 ^ b - 1) := by
  obtain ⟨c, rfl⟩ : ∃ c, b = c + 1 := Nat.exists_eq_add_one.mpr hb
  refine ⟨2 ^ c - 1, ?_⟩
  have hpos := Nat.two_pow_pos c
  rw [Nat.pow_succ]
  omega

/-- A number and its successor have no bit in common if all bits of the number are set. -/
theorem and_succ_eq_zero_iff (m : ℕ) : m &&& (m + 1) = 0 ↔ ∃ b, m = 2 ^ b - 1 := by
  have hpower := Nat.and_sub_one_eq_zero_iff_isPowerOfTwo (Nat.succ_ne_zero m)
  rw [Nat.succ_sub_one, Nat.and_comm] at hpower
  rw [hpower, Nat.isPowerOfTwo]
  refine exists_congr fun b ↦ ?_
  have hpos := Nat.two_pow_pos b
  omega

/-- The carry of a bit at or below the lowest one of a number passes over all bits of the number if
these are a run from the place of the carry on. -/
theorem and_add_two_pow_eq_zero_iff (p m : ℕ) :
    2 ^ p * m &&& (2 ^ p * m + 2 ^ p) = 0 ↔ ∃ b, 2 ^ p * m = run p b := by
  have hmul : 2 ^ p * m &&& (2 ^ p * m + 2 ^ p) = (m &&& (m + 1)) * 2 ^ p := by
    calc
      2 ^ p * m &&& (2 ^ p * m + 2 ^ p) = m <<< p &&& (m + 1) <<< p := by
        rw [Nat.shiftLeft_eq, Nat.shiftLeft_eq, Nat.succ_mul, Nat.mul_comm]
      _ = (m &&& (m + 1)) * 2 ^ p := by
        rw [← Nat.shiftLeft_and_distrib, Nat.shiftLeft_eq]
  rw [hmul, Nat.mul_eq_zero, or_iff_left (Nat.two_pow_pos p).ne', and_succ_eq_zero_iff]
  refine exists_congr fun b ↦ ?_
  rw [run, Nat.mul_comm, Nat.mul_left_inj (Nat.two_pow_pos p).ne']

/-- The bits of a number under a run of bits, moved to the right. -/
theorem and_run_shiftRight (n p b : ℕ) : (n &&& run p b) >>> p = (n >>> p) % 2 ^ b := by
  apply Nat.eq_of_testBit_eq
  intro i
  rw [Nat.testBit_shiftRight, Nat.testBit_and, testBit_run, Nat.testBit_mod_two_pow,
    Nat.testBit_shiftRight]
  have hle : p ≤ p + i := Nat.le_add_right p i
  have hlt : p + i < p + b ↔ i < b := by omega
  rw [decide_eq_true hle, decide_eq_decide.mpr hlt, Bool.true_and, Bool.and_comm]

/-- A run has as many set bits as it is long. -/
theorem sum_digits_run (p b : ℕ) : (Nat.digits 2 (run p b)).sum = b := by
  have hones : (Nat.digits 2 (2 ^ b - 1)).sum = b := by
    induction b with
    | zero => rfl
    | succ b ih =>
      have hodd : 2 ^ (b + 1) - 1 = 1 + 2 * (2 ^ b - 1) := by
        have hpow := Nat.two_pow_pos b
        rw [Nat.pow_succ]
        omega
      rw [hodd, Nat.digits_add 2 (by decide) 1 _ (by decide) (.inl Nat.one_ne_zero), List.sum_cons,
        ih, Nat.add_comm]
  rcases Nat.eq_zero_or_pos (2 ^ b - 1) with hzero | hpos
  · rw [run, hzero, Nat.zero_mul, ← hones, hzero]
  · rw [run, Nat.mul_comm, Nat.digits_base_pow_mul (by decide) hpos, List.sum_append, hones,
      List.sum_replicate_nat, Nat.mul_zero, Nat.zero_add]

/-- The `b` bytes of a number from byte `p` on. -/
def field (p b n : ℕ) : BitVec (8 * b) := BitVec.ofNat (8 * b) (n >>> (8 * p))

/-- A field is what a mask of bytes selects, moved to the right. -/
theorem toNat_field (p b n : ℕ) : (field p b n).toNat = (n &&& expand (run p b)) >>> (8 * p) := by
  rw [field, BitVec.toNat_ofNat, expand_run, and_run_shiftRight]

theorem byte_toNat_field (p b n i : ℕ) :
    byte (field p b n).toNat i = if i < b then byte n (p + i) else 0 := by
  apply Nat.eq_of_testBit_eq
  intro j
  rw [testBit_byte, field, BitVec.toNat_ofNat, Nat.testBit_mod_two_pow, Nat.testBit_shiftRight]
  by_cases hj : j < 8
  · have hlt : 8 * i + j < 8 * b ↔ i < b := by omega
    have hadd : 8 * p + (8 * i + j) = 8 * (p + i) + j := by ring
    rw [decide_eq_decide.mpr hlt, hadd]
    split
    · next hi => rw [testBit_byte, decide_eq_true hi, Bool.true_and]
    · next hi => simp [hi]
  · split <;> simp [hj, testBit_byte]

/-- Numbers with the same bytes have the same fields. -/
theorem field_congr {p b m n : ℕ} (h : ∀ i < b, byte m (p + i) = byte n (p + i)) :
    field p b m = field p b n := by
  apply BitVec.eq_of_getLsbD_eq
  intro i hi
  have hbyte := testBit_of_byte_eq (h (i / 8) (by omega)) (j := i % 8) (by omega)
  have hadd : 8 * (p + i / 8) + i % 8 = 8 * p + i := by omega
  rw [hadd] at hbyte
  rw [field, field, BitVec.getLsbD_ofNat, BitVec.getLsbD_ofNat, Nat.testBit_shiftRight,
    Nat.testBit_shiftRight, hbyte]

/-- An integer that is put at a field of a word is found there modulo the size of the field. -/
theorem field_toNat_mul_emod {p b n : ℕ} (h : p + b ≤ n) (r : ℤ) :
    field p b (r * 2 ^ (8 * p) % 2 ^ (8 * n)).toNat = BitVec.ofInt (8 * b) r := by
  obtain ⟨k, rfl⟩ : ∃ k, n = p + b + k := Nat.exists_eq_add_of_le h
  have hplace : (r * 2 ^ (8 * p) % 2 ^ (8 * (p + b + k))).toNat =
      (r % 2 ^ (8 * (b + k))).toNat * 2 ^ (8 * p) := by
    have hsplit : (2 : ℤ) ^ (8 * (p + b + k)) = 2 ^ (8 * (b + k)) * 2 ^ (8 * p) := by
      rw [← pow_add]
      congr 1
      ring
    rw [hsplit, mul_comm r, mul_comm (2 ^ (8 * (b + k)) : ℤ),
      Int.mul_emod_mul_of_pos _ _ (by positivity), mul_comm,
      Int.toNat_mul (Int.emod_nonneg r (by positivity)) (by positivity)]
    congr 1
  have hdvd : (2 : ℤ) ^ (8 * b) ∣ 2 ^ (8 * (b + k)) := pow_dvd_pow 2 (by omega)
  apply BitVec.eq_of_toNat_eq
  rw [field, BitVec.toNat_ofNat, BitVec.toNat_ofInt, hplace, Nat.shiftRight_eq_div_pow,
    Nat.mul_div_cancel _ (Nat.two_pow_pos _)]
  calc
    (r % 2 ^ (8 * (b + k))).toNat % 2 ^ (8 * b)
      = (r % 2 ^ (8 * (b + k)) % 2 ^ (8 * b)).toNat := by
        rw [Int.toNat_emod (Int.emod_nonneg r (by positivity)) (by positivity)]
        congr 1
    _ = (r % 2 ^ (8 * b)).toNat := by rw [Int.emod_emod_of_dvd r hdvd]
    _ = (r % (2 ^ (8 * b) : ℕ)).toNat := by norm_cast

end ProcessorFuzz.Library.Lanes
