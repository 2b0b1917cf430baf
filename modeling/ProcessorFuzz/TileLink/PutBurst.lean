import ProcessorFuzz.Library.Lanes
import ProcessorFuzz.Library.Reading
import ProcessorFuzz.TileLink.ProbePath

/-!
# Put bursts

The messages of a put on a `TIP` block are written to memory one by one: message `k` overwrites the
bytes that its mask selects, in the word `k` words behind the aligned address. The messages are
counted in `ongoings` for as long as the burst lasts, and the last one is answered.
-/

namespace ProcessorFuzz.TileLink.Adapter

open Library Client
open Library.Lanes (byte byte_congr byte_expand expand expand_eq testBit_expand)

variable {cfg : Config} {s s' : State}

/-- `int(''.join(['{:02x}'.format(0xff * int(i)) for i in '{:0b}'.format(mask)]), 16)`. -/
def readBitMask (mask : ℕ) : Except PyError ℤ := do
  let bits ← (Nat.toDigits 2 mask).mapM fun c ↦ Text.int 10 [c]
  Text.int 16 (bits.flatMap fun i ↦ Text.zeroPadInt 16 2 (0xff * i))

theorem bitMask_eq_expand (mask : ℕ) : bitMask mask = expand mask := rfl

/-- The digits of the mask of bits, two for each digit of the mask of bytes. -/
def maskDigits (mask : ℕ) : Text :=
  (Nat.toDigits 2 mask).flatMap fun c ↦ Text.zeroPad 16 2 (0xff * (Text.digitValue c).getD 0)

theorem length_byteDigits {bit : ℕ} (h : bit < 2) :
    (Text.zeroPad 16 2 (0xff * bit)).length = 2 :=
  Text.length_zeroPad (by decide) (by decide) (by omega)

theorem isNumeral_maskDigits (mask : ℕ) : Text.IsNumeral 16 (maskDigits mask) := by
  intro c hc
  obtain ⟨bit, -, hbit⟩ := List.mem_flatMap.mp hc
  exact Text.isNumeral_zeroPad (by decide) (by decide) 2 _ c hbit

theorem maskDigits_ne_nil (mask : ℕ) : maskDigits mask ≠ [] := by
  obtain ⟨c, rest, hdigits⟩ := List.exists_cons_of_ne_nil (Nat.toDigits_ne_nil (b := 2) (n := mask))
  rw [maskDigits, hdigits, List.flatMap_cons]
  intro hnil
  exact Text.zeroPad_ne_nil 16 2 _ (List.append_eq_nil_iff.mp hnil).1

/-- The text has the value of the expanded mask. -/
theorem numeralValue_maskDigits (mask : ℕ) :
    Text.numeralValue 16 (maskDigits mask) = expand mask := by
  have hbit : ∀ bit < 2, Text.numeralValue 16 ([Nat.digitChar bit].flatMap fun c ↦
      Text.zeroPad 16 2 (0xff * (Text.digitValue c).getD 0)) = 0xff * bit := by decide
  induction mask using Nat.strong_induction_on with
  | _ mask ih =>
    rw [maskDigits, Nat.toDigits_eq_if (by decide)]
    split
    · next hlt =>
      rw [hbit mask hlt, expand_eq, Nat.div_eq_of_lt hlt, Nat.mod_eq_of_lt hlt]
      simp
    · next hle =>
      have hmod : mask % 2 < 2 := Nat.mod_lt mask (by decide)
      have hvalue : Text.digitValue (Nat.digitChar (mask % 2)) = some (mask % 2) :=
        Text.digitValue_digitChar (by omega)
      have hlast : ([Nat.digitChar (mask % 2)].flatMap fun c ↦
          Text.zeroPad 16 2 (0xff * (Text.digitValue c).getD 0)).length = 2 := by
        rw [List.flatMap_singleton, hvalue, Option.getD_some, length_byteDigits hmod]
      have hrest : Text.numeralValue 16 ((Nat.toDigits 2 (mask / 2)).flatMap fun c ↦
          Text.zeroPad 16 2 (0xff * (Text.digitValue c).getD 0)) = expand (mask / 2) :=
        ih (mask / 2) (by omega)
      rw [List.flatMap_append, Text.numeralValue_append, hlast, hrest, hbit _ hmod, expand_eq mask]
      ring

/-- The text is read as the mask of bits. -/
theorem readBitMask_eq (mask : ℕ) : readBitMask mask = .ok (bitMask mask : ℤ) := by
  have hdigit : ∀ c ∈ Nat.toDigits 2 mask,
      Text.int 10 [c] = .ok (((Text.digitValue c).getD 0 : ℕ) : ℤ) := by
    intro c hc
    obtain ⟨d, hd, hvalue⟩ := Text.isNumeral_toDigits (by decide) (by decide) mask c hc
    have hnumeral : Text.IsNumeral 10 [c] := by
      intro c' hc'
      rw [List.mem_singleton.mp hc']
      exact ⟨d, by omega, hvalue⟩
    rw [Text.int_numeral (List.cons_ne_nil c []) hnumeral]
    simp [Text.numeralValue]
  have htext : ((Nat.toDigits 2 mask).map fun c ↦ (((Text.digitValue c).getD 0 : ℕ) : ℤ)).flatMap
      (fun i ↦ Text.zeroPadInt 16 2 (0xff * i)) = maskDigits mask := by
    rw [List.flatMap_map, maskDigits]
    rfl
  rw [readBitMask, mapM_eq_ok hdigit, ok_bind, htext,
    Text.int_numeral (maskDigits_ne_nil mask) (isNumeral_maskDigits mask),
    numeralValue_maskDigits, bitMask_eq_expand]

/-- The address of the word that message `k` of a burst writes. -/
def beatAddr (cfg : Config) (first : AMessage) (k : ℕ) : ℕ :=
  cfg.addrAligned first.address + k * cfg.dataLen

/-- The messages of a burst write different words. -/
theorem beatAddr_inj {first : AMessage} {k k' : ℕ} (hk : k < cfg.burstLen first.size)
    (hk' : k' < cfg.burstLen first.size) (h : beatAddr cfg first k = beatAddr cfg first k') :
    k = k' := by
  have hmul : k * cfg.dataLen = k' * cfg.dataLen := Nat.add_left_cancel h
  rcases Nat.eq_zero_or_pos cfg.dataLen with hzero | hpos
  · have hlen : cfg.burstLen first.size = 1 := by
      rw [Config.burstLen, hzero, Nat.div_zero]
      rfl
    omega
  · exact Nat.eq_of_mul_eq_mul_right hpos hmul

/-- The bytes of a word after an assignment: those under the mask are new. -/
theorem byte_andNot_or (mask data word i : ℕ) :
    byte (andNot word (bitMask mask) ||| (data &&& bitMask mask)) i =
      if mask.testBit i then byte data i else byte word i := by
  have hbit : ∀ j < 8, (andNot word (bitMask mask) ||| (data &&& bitMask mask)).testBit
      (8 * i + j) = (if mask.testBit i then data else word).testBit (8 * i + j) := by
    intro j hj
    have hquot : (8 * i + j) / 8 = i := by omega
    rw [Nat.testBit_or, testBit_andNot, Nat.testBit_and, bitMask_eq_expand, testBit_expand, hquot]
    cases mask.testBit i <;> simp
  rw [byte_congr hbit]
  split <;> rfl

/-- The memory after the messages of a burst: each has overwritten the bytes under its mask in its
own word, and the other words are as before. -/
structure Overwritten (cfg : Config) (first : AMessage) (beats : List AMessage)
    (memory memory' : Dict ℕ ℕ) : Prop where
  word : ∀ (k : ℕ) (m : AMessage), beats[k]? = some m → ∀ i,
    byte (memory'.getD (beatAddr cfg first k) 0) i =
      if m.mask.testBit i then byte m.data i else byte (memory.getD (beatAddr cfg first k) 0) i
  other : ∀ addr, (∀ k < beats.length, addr ≠ beatAddr cfg first k) →
    memory'.get? addr = memory.get? addr

/-- One more message of the burst is written. -/
theorem Overwritten.concat {first m : AMessage} {beats : List AMessage}
    {memory memory' : Dict ℕ ℕ} (h : Overwritten cfg first beats memory memory')
    (hlt : beats.length < cfg.burstLen first.size) :
    Overwritten cfg first (beats ++ [m]) memory
      (memory'.set (beatAddr cfg first beats.length)
        (andNot (memory'.getD (beatAddr cfg first beats.length) 0) (bitMask m.mask) |||
          (m.data &&& bitMask m.mask))) := by
  have hfresh : memory'.get? (beatAddr cfg first beats.length) =
      memory.get? (beatAddr cfg first beats.length) := by
    apply h.other
    intro k hk heq
    exact absurd (beatAddr_inj hlt (hk.trans hlt) heq) hk.ne'
  constructor
  · intro k m' hm' i
    rw [Dict.getD_set]
    rcases Nat.lt_trichotomy k beats.length with hk | rfl | hk
    · have hne : beatAddr cfg first k ≠ beatAddr cfg first beats.length := fun heq ↦
        absurd (beatAddr_inj (hk.trans hlt) hlt heq) hk.ne
      rw [if_neg hne]
      rw [List.getElem?_append_left hk] at hm'
      exact h.word k m' hm' i
    · rw [List.getElem?_concat_length] at hm'
      obtain rfl := Option.some.inj hm'
      rw [if_pos rfl, byte_andNot_or, Dict.getD, Dict.getD, hfresh]
    · rw [List.getElem?_eq_none (by rw [List.length_append, List.length_singleton]; omega)] at hm'
      cases hm'
  · intro addr haddr
    rw [List.length_append, List.length_singleton] at haddr
    rw [Dict.get?_set_of_ne _ _ (haddr beats.length (Nat.lt_succ_self _))]
    exact h.other addr fun k hk ↦ haddr k (hk.trans (Nat.lt_succ_self _))

/-- The messages of a put burst: puts with the same header. -/
structure PutBurst (cfg : Config) (first : AMessage) (beats : List AMessage) : Prop where
  opcode : first.opcode = .putFullData ∨ first.opcode = .putPartialData
  length_eq : beats.length = cfg.burstLen first.size
  continues : ∀ m ∈ beats, ContinuesA first m
  checked : ∀ m ∈ beats, aAssertions m cfg.debug = .ok ()

/-- The acknowledgement of a put. -/
def accessAck (first : AMessage) : DEntry :=
  plain { opcode := .accessAck, size := first.size, source := first.source }

/-- The adapter after the first messages of a burst. -/
structure BurstState (cfg : Config) (first : AMessage) (beats : List AMessage) (s s' : State) :
    Prop where
  drive : s'.drive = true
  tip : s'.perm (cfg.blockAddr first.address) = .tip
  memory : Overwritten cfg first beats s.memory s'.memory
  dQueue : s'.dQueue = s.dQueue ++
    if beats.length = cfg.burstLen first.size then [accessAck first] else []
  aOngoings : s'.aOngoings =
    if beats.length = cfg.burstLen first.size then Dict.empty
    else counted first.source beats.length

section Burst

variable {first m : AMessage} {beats : List AMessage}

theorem BurstState.start (hdrive : s.drive = true) (hidle : s.aOngoings = Dict.empty)
    (htip : s.perm (cfg.blockAddr first.address) = .tip) : BurstState cfg first [] s s := by
  have hne : ([] : List AMessage).length ≠ cfg.burstLen first.size := (cfg.burstLen_pos _).ne
  refine ⟨hdrive, htip, ⟨nofun, fun _ _ ↦ rfl⟩, ?_, ?_⟩
  · rw [if_neg hne, List.append_nil]
  · rw [if_neg hne, hidle]
    rfl

theorem erase_counted {source count : ℕ} :
    (if count ≠ 0 then (counted source count).erase source else counted source count) =
      Dict.empty := by
  split
  · next hne =>
    rw [counted, if_neg hne]
    apply Dict.ext
    simp [Dict.erase, Dict.set, Dict.put, Dict.empty]
  · next hzero =>
    rw [counted, if_pos (not_not.mp hzero)]

/-- What one message does. -/
theorem BurstState.step (h : BurstState cfg first beats s s')
    (hlt : beats.length < cfg.burstLen first.size)
    (hop : first.opcode = .putFullData ∨ first.opcode = .putPartialData)
    (hm : ContinuesA first m) (hchecked : aAssertions m cfg.debug = .ok ()) :
    ∃ s'', Adapter.step cfg s' (.a m) = .ok s'' ∧ BurstState cfg first (beats ++ [m]) s s'' := by
  have hopcode : m.opcode = first.opcode := by rw [hm]
  have hsource : m.source = first.source := by rw [hm]
  have hsize : m.size = first.size := by rw [hm]
  have haddress : m.address = first.address := by rw [hm]
  have hongoings : s'.aOngoings = counted first.source beats.length := by
    rw [h.aOngoings, if_neg hlt.ne]
  have hqueue : s'.dQueue = s.dQueue := by
    rw [h.dQueue, if_neg hlt.ne, List.append_nil]
  have hcount : s'.aOngoings.getD m.source 0 = beats.length := by
    rw [hongoings, hsource, getD_counted]
  have htip : (received cfg m s').perm (cfg.blockAddr m.address) = .tip := by
    rw [perm_received, haddress, h.tip]
  have hstep : Adapter.step cfg s' (.a m) = .ok (putDirect cfg m (received cfg m s')) := by
    rw [step_a_of_checked h.drive hchecked, aDispatch_put (hopcode ▸ hop) htip]
    rw [hongoings, hsource]
    exact counted_not_interleaved first.source beats.length
  have hmemory : (writeMasked cfg m (s'.aOngoings.getD m.source 0) (received cfg m s')).memory =
      s'.memory.set (beatAddr cfg first beats.length)
        (andNot (s'.memory.getD (beatAddr cfg first beats.length) 0) (bitMask m.mask) |||
          (m.data &&& bitMask m.mask)) := by
    rw [hcount, beatAddr, ← haddress]
    rfl
  have hlength : (beats ++ [m]).length = beats.length + 1 := by
    rw [List.length_append, List.length_singleton]
  refine ⟨_, hstep, ?_⟩
  by_cases hlast : beats.length + 1 = cfg.burstLen first.size
  · rw [putDirect_of_last (s := received cfg m s') (by rw [hsize, ← hlast, ← hcount]; rfl)]
    refine ⟨h.drive, haddress ▸ htip, ?_, ?_, ?_⟩
    · exact hmemory ▸ h.memory.concat hlt
    · rw [if_pos (hlength.trans hlast), accessAck, ← hsize, ← hsource, ← hqueue]
      rfl
    · rw [if_pos (hlength.trans hlast)]
      change (if s'.aOngoings.getD m.source 0 ≠ 0 then s'.aOngoings.erase m.source
        else s'.aOngoings) = _
      rw [hcount, hongoings, hsource, erase_counted]
  · rw [putDirect_of_not_last (s := received cfg m s') (by rw [hsize]; exact hcount ▸ hlast)]
    refine ⟨h.drive, haddress ▸ htip, ?_, ?_, ?_⟩
    · exact hmemory ▸ h.memory.concat hlt
    · rw [if_neg (hlength ▸ hlast), List.append_nil, ← hqueue]
      rfl
    · rw [if_neg (hlength ▸ hlast), hlength]
      change s'.aOngoings.set m.source (s'.aOngoings.getD m.source 0 + 1) = _
      rw [hcount, hongoings, hsource, set_counted]

/-- The messages of a put burst on a `TIP` block, processed one after another: after each number of
them the memory has the bytes that they select, and with the last one the acknowledgement is queued
and the count is gone. The mask of bits that the code makes of digits has a full byte for each bit of
the mask and empty bytes otherwise. -/
theorem run_putBurst (hburst : PutBurst cfg first beats) (hdrive : s.drive = true)
    (hidle : s.aOngoings = Dict.empty) (htip : s.perm (cfg.blockAddr first.address) = .tip) :
    (∀ n ≤ beats.length, ∃ s', run cfg s ((beats.take n).map .a) = .ok s' ∧
      BurstState cfg first (beats.take n) s s') ∧
    ∀ m ∈ beats, readBitMask m.mask = .ok (bitMask m.mask : ℤ) ∧
      ∀ i, byte (bitMask m.mask) i = if m.mask.testBit i then 0xff else 0 := by
  refine ⟨fun n hn ↦ ?_, fun m _ ↦ ⟨readBitMask_eq m.mask, byte_expand m.mask⟩⟩
  induction n with
  | zero => exact ⟨s, rfl, .start hdrive hidle htip⟩
  | succ n ih =>
    obtain ⟨s₁, hrun, hstate⟩ := ih (Nat.le_of_succ_le hn)
    have hmem : beats[n] ∈ beats := List.getElem_mem hn
    have hlength : (beats.take n).length = n := List.length_take_of_le (Nat.le_of_succ_le hn)
    obtain ⟨s₂, hstep, hnext⟩ := hstate.step
      (by rw [hlength]; exact hburst.length_eq ▸ hn) hburst.opcode
      (hburst.continues _ hmem) (hburst.checked _ hmem)
    have htake : beats.take (n + 1) = beats.take n ++ [beats[n]] := (List.take_append_getElem hn).symm
    refine ⟨s₂, ?_, htake ▸ hnext⟩
    rw [htake, List.map_append]
    unfold run at hrun ⊢
    rw [List.foldlM_append, hrun, ok_bind, List.map_singleton, List.foldlM_cons, hstep]
    rfl

end Burst

/-- A burst of two words, of which the second message writes two bytes. -/
theorem run_putBurst_twoWords :
    let first : AMessage := ⟨.putPartialData, 0, 4, 1, 0x80000000, 0xff, 0x1122334455667788⟩
    let beats := [first, { first with mask := 0b101, data := 0xaabbcc }]
    let s := start (Dict.ofList [(0x80000008, 0xffffffff)]) [0x80000000] fun _ ↦ 0
    (∀ n ≤ beats.length, ∃ s', run {} s ((beats.take n).map .a) = .ok s' ∧
      BurstState {} first (beats.take n) s s') ∧
    ∀ m ∈ beats, readBitMask m.mask = .ok (bitMask m.mask : ℤ) ∧
      ∀ i, byte (bitMask m.mask) i = if m.mask.testBit i then 0xff else 0 :=
  run_putBurst ⟨.inr rfl, by decide, by decide, fun _ _ ↦ rfl⟩ rfl rfl (by decide)

end ProcessorFuzz.TileLink.Adapter
