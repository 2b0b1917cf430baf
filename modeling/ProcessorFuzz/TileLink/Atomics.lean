import ProcessorFuzz.TileLink.PutBurst

/-!
# Atomic operations

An atomic operation computes on unbounded integers: it moves the lanes of both operands to the
right, reconstructs their signs, and moves the result back under the mask. The lanes are compared
with bit vectors of their width, and the answer with what a Get would have returned.
-/

namespace ProcessorFuzz.TileLink.Adapter

open Library Client
open Library.Lanes (byte byte_congr expand_run field testBit_run toNat_field)

variable {cfg : Config} {s s' : State}

theorem andNot_lt_two_pow {a n : ℕ} (h : a < 2 ^ n) (b : ℕ) : andNot a b < 2 ^ n :=
  Nat.xor_lt_two_pow h (Nat.and_le_left.trans_lt h)

theorem laneOffset_run (p : ℕ) {b : ℕ} (hb : 0 < b) : laneOffset (Lanes.run p b) = 8 * p := by
  rw [laneOffset, lowestSetBit_run p hb, Nat.log2_two_pow, Nat.mul_comm]

theorem operand_run (p : ℕ) {b : ℕ} (hb : 0 < b) (word : ℕ) :
    operand (Lanes.run p b) word = (field p b word).toNat := by
  rw [operand, laneOffset_run p hb, bitMask_eq_expand, toNat_field]

theorem maskBits_run (p b : ℕ) : maskBits (Lanes.run p b) = 8 * b := by
  rw [maskBits, Lanes.sum_digits_run]

section Operations

variable {n : ℕ} (d w : BitVec n)

/-- The arithmetic operations on two numbers of `n` bits, the first of which is the request's. -/
def arithmeticLanes (param : ℕ) : BitVec n :=
  if param = MIN then if d.slt w then d else w
  else if param = MAX then if d.slt w then w else d
  else if param = MINU then if d.ult w then d else w
  else if param = MAXU then if d.ult w then w else d
  else d + w

def logicalLanes (param : ℕ) : BitVec n :=
  if param = XOR then d ^^^ w
  else if param = OR then d ||| w
  else if param = AND then d &&& w
  else d

/-- The reconstructed sign is that of two's complement. -/
theorem signedOperand_toNat : signedOperand n d.toNat = d.toInt := by
  have hlt : d.toNat < 2 ^ n := d.isLt
  have hbit : d.toNat.testBit (n - 1) = d.msb := by
    rw [BitVec.msb_eq_getLsbD_last]
    rfl
  rw [signedOperand, hbit, BitVec.toInt_eq_msb_cond]
  split
  · next hmsb =>
    have hpos : 0 < d.toNat := by
      have hle := BitVec.le_toNat_of_msb_true hmsb
      have hpow := Nat.two_pow_pos (n - 1)
      omega
    have hneg : -(d.toNat : ℤ) % 2 ^ n = 2 ^ n - d.toNat := by
      have hcast : ((2 ^ n : ℕ) : ℤ) = 2 ^ n := by norm_cast
      rw [← Int.add_emod_left, Int.emod_eq_of_lt (by omega) (by omega)]
      ring
    rw [hneg]
    push_cast
    ring
  · rfl

/-- A number of at most 64 bits is not changed by the mask of 64 bits. -/
theorem toNat_and_mask (hn : n ≤ 64) :
    d.toNat &&& (0xffffffff <<< 32 ||| 0xffffffff) = d.toNat := by
  have hlt : d.toNat < 2 ^ 64 := d.isLt.trans_le (Nat.pow_le_pow_right (by decide) hn)
  have hmask : (0xffffffff <<< 32 ||| 0xffffffff) = 2 ^ 64 - 1 := by decide
  rw [hmask, Nat.and_two_pow_sub_one_eq_mod, Nat.mod_eq_of_lt hlt]

theorem ofInt_min_toInt : BitVec.ofInt n (min d.toInt w.toInt) = if d.slt w then d else w := by
  by_cases h : d.toInt < w.toInt
  · rw [min_eq_left h.le, BitVec.ofInt_toInt, if_pos (BitVec.slt_iff_toInt_lt.mpr h)]
  · rw [min_eq_right (not_lt.mp h), BitVec.ofInt_toInt,
      if_neg (fun hslt ↦ h (BitVec.slt_iff_toInt_lt.mp hslt))]

theorem ofInt_max_toInt : BitVec.ofInt n (max d.toInt w.toInt) = if d.slt w then w else d := by
  by_cases h : d.toInt < w.toInt
  · rw [max_eq_right h.le, BitVec.ofInt_toInt, if_pos (BitVec.slt_iff_toInt_lt.mpr h)]
  · rw [max_eq_left (not_lt.mp h), BitVec.ofInt_toInt,
      if_neg (fun hslt ↦ h (BitVec.slt_iff_toInt_lt.mp hslt))]

theorem ofInt_min_toNat :
    BitVec.ofInt n (min d.toNat w.toNat : ℕ) = if d.ult w then d else w := by
  by_cases h : d.toNat < w.toNat
  · rw [min_eq_left h.le, BitVec.ofInt_natCast, BitVec.ofNat_toNat, BitVec.setWidth_eq,
      if_pos (BitVec.ult_iff_toNat_lt.mpr h)]
  · rw [min_eq_right (not_lt.mp h), BitVec.ofInt_natCast, BitVec.ofNat_toNat, BitVec.setWidth_eq,
      if_neg (fun hult ↦ h (BitVec.ult_iff_toNat_lt.mp hult))]

theorem ofInt_max_toNat :
    BitVec.ofInt n (max d.toNat w.toNat : ℕ) = if d.ult w then w else d := by
  by_cases h : d.toNat < w.toNat
  · rw [max_eq_right h.le, BitVec.ofInt_natCast, BitVec.ofNat_toNat, BitVec.setWidth_eq,
      if_pos (BitVec.ult_iff_toNat_lt.mpr h)]
  · rw [max_eq_left (not_lt.mp h), BitVec.ofInt_natCast, BitVec.ofNat_toNat, BitVec.setWidth_eq,
      if_neg (fun hult ↦ h (BitVec.ult_iff_toNat_lt.mp hult))]

/-- `_arithmetic_op` on the lanes is the operation on bit vectors. -/
theorem arithmeticOp_toNat {mask param : ℕ} (hmask : maskBits mask = n) (hn : n ≤ 64)
    (hparam : param < 5) :
    ∃ result, arithmeticOp param d.toNat w.toNat mask = some result ∧
      BitVec.ofInt n result = arithmeticLanes d w param := by
  unfold arithmeticOp
  dsimp only
  rw [hmask, signedOperand_toNat d, signedOperand_toNat w, toNat_and_mask d hn,
    toNat_and_mask w hn]
  interval_cases param
  · exact ⟨_, rfl, ofInt_min_toInt d w⟩
  · exact ⟨_, rfl, ofInt_max_toInt d w⟩
  · exact ⟨_, rfl, ofInt_min_toNat d w⟩
  · exact ⟨_, rfl, ofInt_max_toNat d w⟩
  · refine ⟨_, rfl, ?_⟩
    rw [BitVec.ofInt_add, BitVec.ofInt_toInt, BitVec.ofInt_toInt]
    rfl

theorem logicalOp_toNat {param : ℕ} (hparam : param < 4) :
    ∃ result, logicalOp param d.toNat w.toNat = some result ∧
      BitVec.ofInt n result = logicalLanes d w param := by
  have hofInt (x : BitVec n) : BitVec.ofInt n x.toNat = x := by
    rw [BitVec.ofInt_natCast, BitVec.ofNat_toNat, BitVec.setWidth_eq]
  unfold logicalOp
  interval_cases param
  · refine ⟨_, rfl, ?_⟩
    rw [← BitVec.toNat_xor, hofInt]
    rfl
  · refine ⟨_, rfl, ?_⟩
    rw [← BitVec.toNat_or, hofInt]
    rfl
  · refine ⟨_, rfl, ?_⟩
    rw [← BitVec.toNat_and, hofInt]
    rfl
  · exact ⟨_, rfl, hofInt d⟩

end Operations

/-- A request for an atomic operation on the `b` bytes from byte `p` on. -/
structure AtomicRequest (cfg : Config) (m : AMessage) (p b : ℕ) : Prop where
  opcode : m.opcode = .arithmeticData ∧ m.param < 5 ∨ m.opcode = .logicalData ∧ m.param < 4
  protocol : tlUH ≤ cfg.protocol
  checked : aAssertions m cfg.debug = .ok ()
  single : cfg.burstLen m.size = 1
  mask_eq : m.mask = Lanes.run p b
  pos : 0 < b
  fits : p + b ≤ 8

/-- The operation of a request on the lanes of its data and of the word. -/
def atomicLanes {n : ℕ} (m : AMessage) (d w : BitVec n) : BitVec n :=
  if m.opcode = .arithmeticData then arithmeticLanes d w m.param else logicalLanes d w m.param

/-- What an atomic operation leaves in the memory. -/
structure Exact (cfg : Config) (m : AMessage) (p b : ℕ) (s s' : State) : Prop where
  lanes : field p b (s'.memory.getD (atomicAddr cfg m s) 0) =
    atomicLanes m (field p b m.data) (field p b (s.memory.getD (atomicAddr cfg m s) 0))
  rest : ∀ i, i < p ∨ p + b ≤ i → byte (s'.memory.getD (atomicAddr cfg m s) 0) i =
    byte (s.memory.getD (atomicAddr cfg m s) 0) i
  lt : s'.memory.getD (atomicAddr cfg m s) 0 < 2 ^ 64
  other : ∀ addr ≠ atomicAddr cfg m s, s'.memory.get? addr = s.memory.get? addr

section Atomic

variable {m : AMessage} {p b : ℕ}

theorem AtomicRequest.mask_ne_zero (h : AtomicRequest cfg m p b) : m.mask ≠ 0 := by
  rw [h.mask_eq]
  exact Lanes.run_ne_zero h.pos p

theorem AtomicRequest.operand_eq (h : AtomicRequest cfg m p b) (word : ℕ) :
    operand m.mask word = (field p b word).toNat := by
  rw [h.mask_eq, operand_run p h.pos]

/-- A request on a `TIP` block has a result, which is that of its operation on the lanes. -/
theorem AtomicRequest.step_eq (h : AtomicRequest cfg m p b) (hdrive : s.drive = true)
    (hcount : (s.aOngoings.keys.isEmpty || decide (m.source ∈ s.aOngoings.keys)) = true)
    (htip : s.perm (cfg.blockAddr m.address) = .tip) :
    ∃ result, step cfg s (.a m) = .ok (atomicDirect cfg m result (received cfg m s)) ∧
      BitVec.ofInt (8 * b) result = atomicLanes m (field p b m.data)
        (field p b (s.memory.getD (atomicAddr cfg m s) 0)) := by
  have hreceived : (received cfg m s).perm (cfg.blockAddr m.address) = .tip := by
    rw [perm_received, htip]
  have hword : operand m.mask ((received cfg m s).memory.getD
      (atomicAddr cfg m (received cfg m s)) nopData) =
        (field p b (s.memory.getD (atomicAddr cfg m s) 0)).toNat := h.operand_eq _
  rw [step_a_of_checked hdrive h.checked hcount]
  obtain ⟨hop, hparam⟩ | ⟨hop, hparam⟩ := h.opcode
  · have hmask : maskBits m.mask = 8 * b := by rw [h.mask_eq, maskBits_run]
    have hfits := h.fits
    obtain ⟨result, hresult, hlanes⟩ := arithmeticOp_toNat (field p b m.data)
      (field p b (s.memory.getD (atomicAddr cfg m s) 0)) hmask (by omega) hparam
    refine ⟨result, ?_, ?_⟩
    · rw [aDispatch_arithmetic hop h.protocol, aArithmetic]
      apply aAtomic_of_tip h.single h.mask_ne_zero hreceived
      rw [hword, h.operand_eq]
      exact hresult
    · rw [hlanes, atomicLanes, if_pos hop]
  · obtain ⟨result, hresult, hlanes⟩ := logicalOp_toNat (field p b m.data)
      (field p b (s.memory.getD (atomicAddr cfg m s) 0)) hparam
    refine ⟨result, ?_, ?_⟩
    · rw [aDispatch_logical hop h.protocol, aLogical]
      apply aAtomic_of_tip h.single h.mask_ne_zero hreceived
      rw [hword, h.operand_eq]
      exact hresult
    · rw [hlanes, atomicLanes, if_neg (by rw [hop]; decide)]

/-- The word that an atomic operation stores. -/
theorem getD_atomicDirect (result : ℤ) (s : State) :
    (atomicDirect cfg m result s).memory.getD (atomicAddr cfg m s) 0 =
      andNot (s.memory.getD (atomicAddr cfg m s) 0) (bitMask m.mask) |||
        (placeResult cfg result (laneOffset m.mask) &&& bitMask m.mask) := by
  change Dict.getD (Dict.set _ _ _) _ _ = _
  rw [Dict.getD_set, if_pos rfl]
  rfl

theorem get?_atomicDirect (result : ℤ) (s : State) {addr : ℕ} (h : addr ≠ atomicAddr cfg m s) :
    (atomicDirect cfg m result s).memory.get? addr = s.memory.get? addr := by
  change (Dict.set (fillWord s.memory (atomicAddr cfg m s)) _ _).get? addr = _
  rw [Dict.get?_set_of_ne _ _ h, fillWord]
  split
  · rfl
  · rw [Dict.get?_set_of_ne _ _ h]

/-- An atomic operation on a `TIP` block leaves the exact result in its lanes, the other lanes and
the other words as they were, and a word of 64 bits. -/
theorem step_atomic_exact (h : AtomicRequest cfg m p b) (hlen : cfg.dataLen = 8)
    (hdrive : s.drive = true)
    (hcount : (s.aOngoings.keys.isEmpty || decide (m.source ∈ s.aOngoings.keys)) = true)
    (htip : s.perm (cfg.blockAddr m.address) = .tip)
    (hword : s.memory.getD (atomicAddr cfg m s) 0 < 2 ^ 64) :
    ∃ s', step cfg s (.a m) = .ok s' ∧ Exact cfg m p b s s' := by
  obtain ⟨result, hstep, hresult⟩ := h.step_eq hdrive hcount htip
  let placed := placeResult cfg result (laneOffset m.mask)
  have hstored : (atomicDirect cfg m result (received cfg m s)).memory.getD
      (atomicAddr cfg m s) 0 = andNot (s.memory.getD (atomicAddr cfg m s) 0) (bitMask m.mask) |||
        (placed &&& bitMask m.mask) := getD_atomicDirect result (received cfg m s)
  have hplaced : placed = (result * 2 ^ (8 * p) % 2 ^ (8 * 8)).toNat := by
    change (result * 2 ^ laneOffset m.mask % 2 ^ (8 * cfg.dataLen)).toNat = _
    rw [hlen, h.mask_eq, laneOffset_run p h.pos]
  have hmask (i : ℕ) : m.mask.testBit i = (decide (p ≤ i) && decide (i < p + b)) := by
    rw [h.mask_eq, testBit_run]
  refine ⟨_, hstep, ?_, ?_, ?_, fun addr haddr ↦ get?_atomicDirect result _ haddr⟩
  · rw [← hresult, hstored, ← Lanes.field_toNat_mul_emod h.fits result, ← hplaced]
    apply Lanes.field_congr
    intro i hi
    rw [byte_andNot_or, hmask, if_pos (by simp [hi])]
  · intro i hi
    rw [hstored, byte_andNot_or, hmask, if_neg]
    simp only [Bool.and_eq_true, decide_eq_true_eq]
    omega
  · have hlt : placed < 2 ^ 64 := by
      have hpos : (0 : ℤ) < 2 ^ (8 * 8) := by positivity
      have hmod := Int.emod_lt_of_pos (result * 2 ^ (8 * p)) hpos
      rw [hplaced]
      omega
    rw [hstored]
    exact Nat.or_lt_two_pow (andNot_lt_two_pow hword _)
      (Nat.and_le_left.trans_lt hlt)

end Atomic

/-- An addition in two lanes whose carry leaves them. -/
theorem step_atomic_exact_carry :
    let m : AMessage := ⟨.arithmeticData, ADD, 1, 0, 0x80000002, 0b1100, 0xffff0000⟩
    let s := start (Dict.ofList [(0x80000000, 0x1122334400025566)]) [0x80000000] fun _ ↦ 0
    ∃ s', step {} s (.a m) = .ok s' ∧ Exact {} m 2 2 s s' :=
  step_atomic_exact ⟨.inl ⟨rfl, by decide⟩, by decide, rfl, by decide, rfl, by decide, by decide⟩
    rfl rfl rfl (by decide) (by decide)

/-- A request for an atomic operation on a bus of eight bytes, whose mask selects the bytes of its
size at its address. -/
structure LaneRequest (cfg : Config) (m : AMessage) : Prop where
  opcode : isAtomic m.opcode
  wellFormed : WellFormedA cfg m
  dataLen_eq : cfg.dataLen = 8
  size_le : 2 ^ m.size ≤ 8
  mask_eq : m.mask = Lanes.run (m.address % 8) (2 ^ m.size)

/-- The Get of the same address and size. -/
def getRequest (m : AMessage) : AMessage := { m with opcode := .get, param := 0, data := 0 }

/-- The request and the Get are both answered with one message, and the data of the two agree in
the lanes of the mask. -/
def AnswersOld (cfg : Config) (m : AMessage) (answer : ProbeAnswer) (s : State) : Prop :=
  ∃ d t g t', probedPath cfg [m] answer s = .ok ([d], t) ∧ d.opcode = .accessAckData ∧
    probedPath cfg [getRequest m] answer s = .ok ([g], t') ∧ g.opcode = .accessAckData ∧
    ∀ i, m.mask.testBit i → byte d.data i = byte g.data i

/-- A message that is answered at once, with nothing to probe. -/
theorem probedPath_of_answered {m : AMessage} {d : DMessage} {answer : ProbeAnswer}
    (hstep : step cfg s (.a m) = .ok s') (hdrive : s'.drive = true) (hdPort : s'.dPort = none)
    (hbPort : s'.bPort = none) (hbQueue : s'.probes.bQueue = []) (hdQueue : s'.dQueue = [plain d]) :
    ∃ t, probedPath cfg [m] answer s = .ok ([d], t) := by
  have hbPop : step cfg s' .bPop = .ok s' := by
    unfold step
    dsimp only
    rw [if_pos hdrive]
    unfold bPortDriver
    rw [hbPort, hbQueue]
  have hport : answer.toPort s' = [] := by
    rw [ProbeAnswer.toPort, hbPort]
  let fired : State := { s' with bPort := none }
  have hfire : run cfg s' [.bFire] = .ok fired := rfl
  have hdPop : step cfg fired .dPop = .ok { fired with dQueue := [], dPort := some d } := by
    unfold step
    dsimp only
    rw [if_pos hdrive]
    unfold dPortDriver
    dsimp only [fired]
    rw [hdPort, hdQueue]
    rfl
  refine ⟨{ fired with dQueue := [], dPort := none }, ?_⟩
  unfold probedPath answerProbe
  rw [List.map_singleton, run_singleton hstep, ok_bind, hbPop, ok_bind, hport, List.map_nil, hfire,
    ok_bind]
  unfold drain
  have hqueue : fired.dQueue = [plain d] := hdQueue
  rw [hqueue, List.foldlM_cons]
  unfold deliver
  dsimp only
  rw [hdPop]
  rfl

section Answer

variable {m : AMessage} {answer : ProbeAnswer}

theorem LaneRequest.burstLen_eq (h : LaneRequest cfg m) : cfg.burstLen m.size = 1 := by
  have hle := h.size_le
  have hdiv : 2 ^ m.size / 8 ≤ 1 := by omega
  rw [Config.burstLen, h.dataLen_eq, max_eq_right hdiv]

theorem LaneRequest.legal (h : LaneRequest cfg m) : LegalRequest cfg m [] where
  opcode := by
    have hop := h.opcode
    revert hop
    cases m.opcode <;> decide
  length_eq := by
    rw [h.burstLen_eq]
    split <;> rfl
  wellFormed := by
    intro m' hm'
    rw [List.mem_singleton.mp hm']
    exact h.wellFormed
  continues := nofun

/-- The lanes of a request lie at a multiple of their number. -/
theorem LaneRequest.dvd_offset (h : LaneRequest cfg m) : 2 ^ m.size ∣ m.address % 8 := by
  have haligned : 2 ^ m.size ∣ m.address :=
    Nat.dvd_of_mod_eq_zero (aligned_of_checked h.wellFormed.checked)
  have hsize : m.size ≤ 3 := (Nat.pow_le_pow_iff_right (by decide)).mp h.size_le
  have hdvd : 2 ^ m.size ∣ 2 ^ 3 := pow_dvd_pow 2 hsize
  exact (Nat.dvd_mod_iff hdvd).mpr haligned

theorem LaneRequest.atomicRequest (h : LaneRequest cfg m) :
    AtomicRequest cfg m (m.address % 8) (2 ^ m.size) where
  opcode := by
    have hop := h.opcode
    obtain ⟨harithmetic, hlogical⟩ := atomic_param_lt h.wellFormed.checked
    revert hop harithmetic hlogical
    cases m.opcode <;> simp [isAtomic]
  protocol := h.wellFormed.protocol_ge (by
    have hop := h.opcode
    revert hop
    cases m.opcode <;> decide)
  checked := aAssertions_of_true h.wellFormed.checked cfg.debug
  single := h.burstLen_eq
  mask_eq := h.mask_eq
  pos := Nat.two_pow_pos m.size
  fits := by
    have hsize : m.size ≤ 3 := (Nat.pow_le_pow_iff_right (by decide)).mp h.size_le
    obtain ⟨k, hk⟩ : 2 ^ m.size ∣ 2 ^ 3 := pow_dvd_pow 2 hsize
    obtain ⟨l, hl⟩ := h.dvd_offset
    have hlt : 2 ^ m.size * l < 2 ^ m.size * k := by
      rw [← hl, ← hk]
      exact Nat.mod_lt _ (by decide)
    calc
      m.address % 8 + 2 ^ m.size = 2 ^ m.size * (l + 1) := by rw [hl, Nat.mul_succ]
      _ ≤ 2 ^ m.size * k := Nat.mul_le_mul_left _ (Nat.lt_of_mul_lt_mul_left hlt)
      _ = 8 := hk.symm

/-- The Get passes the checks that the request has passed. -/
theorem checked_getRequest (h : aAssertions m true = .ok ()) (hop : isAtomic m.opcode) :
    aAssertions (getRequest m) true = .ok () := by
  have hcontiguous : maskContiguous m.mask = true := by
    unfold aAssertions at h
    rw [if_pos rfl] at h
    cases hopcode : m.opcode with
    | arithmeticData | logicalData =>
      rw [hopcode] at h
      obtain ⟨_, -, h⟩ := bind_eq_ok.mp h
      obtain ⟨_, -, hmask⟩ := bind_eq_ok.mp h
      exact assert_eq_ok.mp hmask
    | _ =>
      rw [hopcode] at hop
      exact absurd hop (by decide)
  have haligned := aligned_of_checked h
  simp [aAssertions, getRequest, assertAligned, assertContiguous, haligned, hcontiguous]

theorem burst_one (header : DMessage) (addr : ℕ) (memory : Dict ℕ ℕ) :
    burst cfg header 1 addr memory = [{ header with data := memory.getD addr nopData }] := by
  simp [burst]

/-- The answer to the Get is the whole word. -/
theorem Quiet.probedPath_get (h : Quiet s) (hm : LaneRequest cfg m)
    (htip : s.perm (cfg.blockAddr m.address) = .tip) :
    ∃ t, probedPath cfg [getRequest m] answer s =
      .ok ([{ opcode := .accessAckData, size := m.size, source := m.source
              data := s.memory.getD (cfg.addrAligned m.address) 0 }], t) := by
  have hchecked := checked_getRequest hm.wellFormed.checked hm.opcode
  have htip' : (received cfg (getRequest m) s).perm (cfg.blockAddr m.address) = .tip := by
    rw [perm_received, htip]
  have hstep : step cfg s (.a (getRequest m)) = .ok (accessAckDataCb cfg (cfg.burstLen m.size)
      (cfg.addrAligned m.address) m.size m.source (received cfg (getRequest m) s)) := by
    rw [step_a_eq_dispatch h.drive hchecked (by rw [h.aOngoings]; rfl)]
    exact if_neg (not_not.mpr htip')
  rw [accessAckDataCb_eq, hm.burstLen_eq, burst_one] at hstep
  apply probedPath_of_answered hstep h.drive h.dPort h.bPort h.bQueue
  change s.dQueue ++ _ = _
  rw [h.dQueue]
  rfl

/-- The answer to the request is the old lanes, moved to the right. -/
theorem Quiet.probedPath_atomic (h : Quiet s) (hm : LaneRequest cfg m)
    (htip : s.perm (cfg.blockAddr m.address) = .tip) :
    ∃ t, probedPath cfg [m] answer s =
      .ok ([{ opcode := .accessAckData, size := m.size, source := m.source
              data := (field (m.address % 8) (2 ^ m.size)
                (s.memory.getD (cfg.addrAligned m.address) 0)).toNat }], t) := by
  obtain ⟨result, hstep, -⟩ :=
    hm.atomicRequest.step_eq h.drive (by rw [h.aOngoings]; rfl) htip
  have haddr : atomicAddr cfg m (received cfg m s) = cfg.addrAligned m.address := by
    have hcount : (received cfg m s).aOngoings.getD m.source 0 = 0 := by
      change s.aOngoings.getD m.source 0 = 0
      rw [h.aOngoings]
      rfl
    rw [atomicAddr, hcount, Nat.zero_mul, Nat.add_zero]
  apply probedPath_of_answered hstep h.drive h.dPort h.bPort h.bQueue
  change s.dQueue ++ [plain { opcode := .accessAckData, size := m.size, source := m.source
                              data := operand m.mask (s.memory.getD _ nopData) }] = _
  rw [h.dQueue, haddr, hm.atomicRequest.operand_eq]
  rfl

/-- A field that is moved to the right agrees with its word in its own lanes if it was not moved or
is empty. -/
theorem field_agrees_iff {p b word : ℕ} (hdvd : b ∣ p) :
    (∀ i, (Lanes.run p b).testBit i → byte (field p b word).toNat i = byte word i) ↔
      p = 0 ∨ field p b word = 0 := by
  have hzero (i : ℕ) : byte 0 i = 0 := by rw [byte, Nat.zero_div]
  have hnat : (0 : BitVec (8 * b)).toNat = 0 := rfl
  constructor
  · intro h
    rcases Nat.eq_zero_or_pos p with hp | hpos
    · exact .inl hp
    · have hle : b ≤ p := Nat.le_of_dvd hpos hdvd
      have hbyte : ∀ i < b, byte word (p + i) = byte 0 (p + i) := by
        intro i hi
        have hlane : (Lanes.run p b).testBit (p + i) = true := by simp [testBit_run, hi]
        rw [← h (p + i) hlane, Lanes.byte_toNat_field, if_neg (by omega), hzero]
      right
      rw [Lanes.field_congr hbyte, field, Nat.zero_shiftRight]
      rfl
  · intro h i hi
    rw [testBit_run, Bool.and_eq_true, decide_eq_true_eq, decide_eq_true_eq] at hi
    rcases h with rfl | hfield
    · rw [Lanes.byte_toNat_field, if_pos (by omega), Nat.zero_add]
    · have hbyte := Lanes.byte_toNat_field p b word (i - p)
      rw [hfield, if_pos (by omega), Nat.add_sub_cancel' hi.1] at hbyte
      rw [hfield, ← hbyte, hnat, hzero, hzero]

/-- On a `TIP` block. -/
theorem Quiet.answersOld_iff (h : Quiet s) (hm : LaneRequest cfg m)
    (htip : s.perm (cfg.blockAddr m.address) = .tip) :
    AnswersOld cfg m answer s ↔ m.address % 8 = 0 ∨
      field (m.address % 8) (2 ^ m.size) (s.memory.getD (cfg.addrAligned m.address) 0) = 0 := by
  obtain ⟨t, hatomic⟩ := @Quiet.probedPath_atomic cfg s m answer h hm htip
  obtain ⟨t', hget⟩ := @Quiet.probedPath_get cfg s m answer h hm htip
  rw [← field_agrees_iff hm.dvd_offset, ← hm.mask_eq]
  constructor
  · rintro ⟨d, u, g, u', hd, -, hg, -, hagree⟩
    rw [hatomic] at hd
    rw [hget] at hg
    cases hd
    cases hg
    exact hagree
  · intro hagree
    exact ⟨_, t, _, t', hatomic, rfl, hget, rfl, hagree⟩

/-- On another block, the continuation raises. -/
theorem Quiet.not_answersOld (h : Quiet s) (hm : LaneRequest cfg m)
    (hlegal : answer.Legal cfg m.size) (htip : s.perm (cfg.blockAddr m.address) ≠ .tip) :
    ¬AnswersOld cfg m answer s := by
  obtain ⟨e, herror⟩ := h.probedPath_eq_error hm.legal hlegal htip
  rintro ⟨d, t, g, t', hd, -⟩
  rw [herror] at hd
  exact nomatch hd

/-- An atomic operation answers with the old value in the lanes of a Get if and only if its block is
`TIP` and its lanes start at the word or were zero: the lanes are returned moved to the right, and
on another block the continuation raises. -/
theorem answersOld_iff_tip_and_lanes (h : Quiet s) (hm : LaneRequest cfg m)
    (hlegal : answer.Legal cfg m.size) :
    AnswersOld cfg m answer s ↔ s.perm (cfg.blockAddr m.address) = .tip ∧
      (m.address % 8 = 0 ∨
        field (m.address % 8) (2 ^ m.size) (s.memory.getD (cfg.addrAligned m.address) 0) = 0) := by
  by_cases htip : s.perm (cfg.blockAddr m.address) = .tip
  · rw [h.answersOld_iff hm htip, and_iff_right htip]
  · exact iff_of_false (h.not_answersOld hm hlegal htip) fun hcond ↦ htip hcond.1

end Answer

def upperLanes : State :=
  start (Dict.ofList [(0, 0x1122334455667788)]) [0] fun _ ↦ 0

theorem quiet_upperLanes : Quiet upperLanes where
  drive := rfl
  dQueue := rfl
  dPort := rfl
  bPort := rfl
  bQueue := rfl
  aOngoings := rfl
  cOngoings := rfl
  consistent :=
    (simulated_start (Dict.ofList [(0, 0x1122334455667788)]) [0] fun _ ↦ 0).consistent
  source_free := by decide
  sink_free := by decide

/-- A swap of the upper four lanes, which answers with the old lanes in the lower ones. -/
theorem not_answersOld_upperLanes :
    ¬AnswersOld {} ⟨.logicalData, SWAP, 2, 0, 4, 0xf0, 0⟩ ⟨TtoN, none⟩ upperLanes := by
  have hm : LaneRequest {} ⟨.logicalData, SWAP, 2, 0, 4, 0xf0, 0⟩ :=
    ⟨by decide, by decide, rfl, by decide, by decide⟩
  rw [quiet_upperLanes.answersOld_iff hm (by decide)]
  decide

/-- The same operation on the lower lanes. -/
theorem answersOld_iff_lowerLanes :
    AnswersOld {} ⟨.logicalData, SWAP, 2, 0, 0, 0xf, 0⟩ ⟨TtoN, none⟩ upperLanes ↔
      upperLanes.perm 0 = .tip ∧ (0 % 8 = 0 ∨ field (0 % 8) (2 ^ 2) 0x1122334455667788 = 0) :=
  answersOld_iff_tip_and_lanes quiet_upperLanes
    ⟨by decide, by decide, rfl, by decide, by decide⟩ ⟨by decide, nofun⟩

end ProcessorFuzz.TileLink.Adapter
