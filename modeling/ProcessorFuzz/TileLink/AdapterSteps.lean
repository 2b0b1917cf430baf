import Mathlib.Tactic.IntervalCases
import ProcessorFuzz.TileLink.AdapterProbes

/-!
# What single steps compute

The messages of a burst, the acknowledgement of a probe and the checks in front of the handlers,
each as one equation, so that the results about runs need not unfold the handlers.
-/

namespace ProcessorFuzz.TileLink.Adapter

open Library

variable {cfg : Config} {s s' : State}

/-- The messages of a burst: message `i` carries the word at `addr + i * d_datalen`. -/
def burst (cfg : Config) (header : DMessage) (burstLen addr : ℕ) (memory : Dict ℕ ℕ) :
    List DMessage :=
  (List.range burstLen).map fun i ↦
    { header with data := memory.getD (addr + i * cfg.dataLen) nopData }

@[simp]
theorem length_burst (header : DMessage) (burstLen addr : ℕ) (memory : Dict ℕ ℕ) :
    (burst cfg header burstLen addr memory).length = burstLen := by
  simp [burst]

/-- Creating a missing word changes no lookup. -/
theorem getD_fillWord (memory : Dict ℕ ℕ) (addr addr' : ℕ) :
    (fillWord memory addr).getD addr' nopData = memory.getD addr' nopData := by
  unfold fillWord
  split
  · rfl
  · next h =>
    rw [Dict.getD_set]
    split
    · next heq =>
      rw [heq, Dict.getD, Dict.get?_eq_none_iff.mpr h]
      rfl
    · rfl

/-- The memory that `get_d_messages` leaves. -/
def filled (cfg : Config) (burstLen addr : ℕ) (memory : Dict ℕ ℕ) : Dict ℕ ℕ :=
  (List.range burstLen).foldl (fun memory i ↦ fillWord memory (addr + i * cfg.dataLen)) memory

theorem getD_foldl_fillWord (addrs : List ℕ) (memory : Dict ℕ ℕ) (addr : ℕ) :
    (addrs.foldl fillWord memory).getD addr nopData = memory.getD addr nopData := by
  induction addrs generalizing memory with
  | nil => rfl
  | cons addr' addrs ih => rw [List.foldl_cons, ih, getD_fillWord]

@[simp]
theorem getD_filled (burstLen addr addr' : ℕ) (memory : Dict ℕ ℕ) :
    (filled cfg burstLen addr memory).getD addr' nopData = memory.getD addr' nopData := by
  unfold filled
  rw [← List.foldl_map (f := fun i ↦ addr + i * cfg.dataLen)]
  exact getD_foldl_fillWord _ memory addr'

theorem getDMessages_eq (header : DMessage) (burstLen addr : ℕ) (memory : Dict ℕ ℕ) :
    getDMessages cfg header burstLen addr memory =
      (burst cfg header burstLen addr memory, filled cfg burstLen addr memory) := by
  unfold getDMessages burst filled
  induction burstLen with
  | zero => rfl
  | succ n ih =>
    have hfilled : ((List.range n).foldl
        (fun memory i ↦ fillWord memory (addr + i * cfg.dataLen)) memory).getD
        (addr + n * cfg.dataLen) nopData = memory.getD (addr + n * cfg.dataLen) nopData :=
      getD_filled n addr _ memory
    rw [List.range_succ, List.foldl_concat, ih, List.map_append, List.foldl_concat]
    simp only [getD_fillWord, hfilled, List.map_cons, List.map_nil]

/-- Memories with the same lookups give the same burst. -/
theorem burst_congr {memory memory' : Dict ℕ ℕ}
    (h : ∀ addr, memory.getD addr nopData = memory'.getD addr nopData) (header : DMessage)
    (burstLen addr : ℕ) :
    burst cfg header burstLen addr memory = burst cfg header burstLen addr memory' := by
  unfold burst
  exact List.map_congr_left fun i _ ↦ by rw [h]

theorem accessAckDataCb_eq (burstLen addr size source : ℕ) (s : State) :
    accessAckDataCb cfg burstLen addr size source s =
      { s with memory := filled cfg burstLen addr s.memory }.push
        ((burst cfg { opcode := .accessAckData, size := size, source := source } burstLen addr
          s.memory).map plain) := by
  unfold accessAckDataCb
  dsimp only
  rw [getDMessages_eq]

theorem grantDataCb_eq (burstLen addr param sink size source blockAddr : ℕ) (s : State) :
    grantDataCb cfg burstLen addr param sink size source blockAddr s =
      { s with
        memory := filled cfg burstLen addr s.memory
        ongoingTlc := s.ongoingTlc.set sink blockAddr }.push
        (withCallback (.updatePerm blockAddr param)
          (burst cfg { opcode := .grantData, param := param, size := size, source := source
                       sink := sink } burstLen addr s.memory)) := by
  unfold grantDataCb
  dsimp only
  rw [getDMessages_eq]

section Requests

variable {m : AMessage}

/-- The state in which the handler of a message runs. -/
def received (cfg : Config) (m : AMessage) (s : State) : State :=
  s.setPerm (cfg.blockAddr m.address) (s.perm (cfg.blockAddr m.address))

theorem perm_received (s : State) (blockAddr : ℕ) :
    (received cfg m s).perm blockAddr = s.perm blockAddr :=
  perm_setPerm_self s _ blockAddr

/-- A message that passes the checks of the adapter reaches its handler. -/
theorem step_a_of_checked (hdrive : s.drive = true) (hchecked : aAssertions m cfg.debug = .ok ())
    (hcount : (s.aOngoings.keys.isEmpty || decide (m.source ∈ s.aOngoings.keys)) = true) :
    step cfg s (.a m) = aDispatch cfg m (received cfg m s) := by
  unfold step
  dsimp only
  rw [if_pos hdrive]
  unfold aPortMonitor
  rw [hchecked, ok_bind, hcount]
  rfl

theorem step_a_eq_dispatch (hdrive : s.drive = true) (hchecked : aAssertions m true = .ok ())
    (hcount : (s.aOngoings.keys.isEmpty || decide (m.source ∈ s.aOngoings.keys)) = true) :
    step cfg s (.a m) = aDispatch cfg m (received cfg m s) :=
  step_a_of_checked hdrive (aAssertions_of_true hchecked cfg.debug) hcount

theorem aDispatch_put (hop : m.opcode = .putFullData ∨ m.opcode = .putPartialData)
    (htip : s.perm (cfg.blockAddr m.address) = .tip) :
    aDispatch cfg m s = .ok (putDirect cfg m s) := by
  have haPut : aPut cfg m s = .ok (putDirect cfg m s) := by
    unfold aPut
    rw [htip]
    rfl
  unfold aDispatch
  rcases hop with hop | hop <;> rw [hop] <;> exact haPut

/-- The last message of a put writes its word and is answered. -/
theorem putDirect_of_last (hlast : s.aOngoings.getD m.source 0 + 1 = cfg.burstLen m.size) :
    putDirect cfg m s =
      { (writeMasked cfg m (s.aOngoings.getD m.source 0) s).push
          [plain { opcode := .accessAck, size := m.size, source := m.source }] with
        aOngoings := if s.aOngoings.getD m.source 0 ≠ 0 then s.aOngoings.erase m.source
          else s.aOngoings } := by
  unfold putDirect
  dsimp only
  rw [if_pos hlast]
  split <;> rfl

theorem putDirect_of_not_last (hlast : s.aOngoings.getD m.source 0 + 1 ≠ cfg.burstLen m.size) :
    putDirect cfg m s =
      { writeMasked cfg m (s.aOngoings.getD m.source 0) s with
        aOngoings := s.aOngoings.set m.source (s.aOngoings.getD m.source 0 + 1) } := by
  unfold putDirect
  exact if_neg hlast

/-- The state after `d_sinks.get()` has returned `sink`. -/
def withoutSink (sink : ℕ) (s : State) : State :=
  { s with
    dSinks := s.dSinks.remove sink
    probes := { s.probes with draws := s.probes.draws.rest } }

theorem exists_getSink_eq_ok (h : s.dSinks.freeList ≠ []) :
    ∃ sink ∈ s.dSinks.freeList, getSink s = .ok (sink, withoutSink sink s) := by
  obtain ⟨sink, hsink, hget⟩ := FreeList.exists_get_eq_ok h s.probes.draws
  refine ⟨sink, hsink, ?_⟩
  unfold getSink
  rw [hget]
  rfl

/-- The handlers of Acquires run at the highest protocol level. -/
theorem aDispatch_acquireBlock (hop : m.opcode = .acquireBlock) (hprotocol : cfg.protocol = tlC) :
    aDispatch cfg m s = aAcquireBlock cfg m s := by
  unfold aDispatch
  rw [hop]
  exact if_pos hprotocol

theorem aDispatch_acquirePerm (hop : m.opcode = .acquirePerm) (hprotocol : cfg.protocol = tlC) :
    aDispatch cfg m s = aAcquirePerm cfg m s := by
  unfold aDispatch
  rw [hop]
  exact if_pos hprotocol

theorem aAcquirePerm_of_tip {sink : ℕ} (hget : getSink s = .ok (sink, withoutSink sink s))
    (htip : s.perm (cfg.blockAddr m.address) = .tip) :
    aAcquirePerm cfg m s =
      .ok ({ withoutSink sink s with
        ongoingTlc := s.ongoingTlc.set sink (cfg.blockAddr m.address) }.push
        [some ({ opcode := .grant, param := grantParam m.param, size := m.size, source := m.source
                 sink := sink },
          some (.updatePerm (cfg.blockAddr m.address) (grantParam m.param)))]) := by
  unfold aAcquirePerm
  dsimp only
  rw [hget, ok_bind]
  exact if_neg (not_not.mpr htip)

theorem isSome_arithmeticOp {param : ℕ} (h : param < 5) (operand1 operand2 mask : ℕ) :
    (arithmeticOp param operand1 operand2 mask).isSome := by
  unfold arithmeticOp
  interval_cases param <;> rfl

theorem isSome_logicalOp {param : ℕ} (h : param < 4) (operand1 operand2 : ℕ) :
    (logicalOp param operand1 operand2).isSome := by
  unfold logicalOp
  interval_cases param <;> rfl

/-- The address of the word that an atomic operation changes. -/
def atomicAddr (cfg : Config) (m : AMessage) (s : State) : ℕ :=
  cfg.addrAligned m.address + s.aOngoings.getD m.source 0 * cfg.dataLen

/-- The distance of the lanes that a mask selects. -/
def laneOffset (mask : ℕ) : ℕ := Nat.log2 (lowestSetBit mask) * 8

/-- The lanes of a word that a mask selects, moved to the right. -/
def operand (mask word : ℕ) : ℕ := (word &&& bitMask mask) >>> laneOffset mask

/-- An atomic operation on a `TIP` block: the word with the result in its lanes, and the old lanes
as the answer. -/
def atomicDirect (cfg : Config) (m : AMessage) (result : ℤ) (s : State) : State :=
  let word := s.memory.getD (atomicAddr cfg m s) nopData
  ({ s with memory := fillWord s.memory (atomicAddr cfg m s) }.write (atomicAddr cfg m s)
    (andNot word (bitMask m.mask) |||
      (placeResult cfg result (laneOffset m.mask) &&& bitMask m.mask))).push
    [plain { opcode := .accessAckData, size := m.size, source := m.source
             data := operand m.mask word }]

theorem aAtomic_of_tip {m : AMessage} {label : String} {op : ℕ → ℕ → Option ℤ}
    {callback : ℕ → ℕ → Callback} {result : ℤ} (hlen : cfg.burstLen m.size = 1)
    (hmask : m.mask ≠ 0) (htip : s.perm (cfg.blockAddr m.address) = .tip)
    (hop : op (operand m.mask m.data)
      (operand m.mask (s.memory.getD (atomicAddr cfg m s) nopData)) = some result) :
    aAtomic cfg label op callback m s = .ok (atomicDirect cfg m result s) := by
  have hoffset : maskOffset m.mask = .ok (laneOffset m.mask) := by
    unfold maskOffset
    rw [if_neg hmask]
    rfl
  have hassert : assert (cfg.burstLen m.size == 1)
      (label ++ " can not span over multiple block") = .ok () := by
    rw [hlen]
    rfl
  have hword : (fillWord s.memory (cfg.addrAligned m.address +
      s.aOngoings.getD m.source 0 * cfg.dataLen)).getD (cfg.addrAligned m.address +
      s.aOngoings.getD m.source 0 * cfg.dataLen) nopData =
        s.memory.getD (atomicAddr cfg m s) nopData :=
    getD_fillWord s.memory _ _
  unfold atomicAddr operand at hop
  unfold atomicAddr at hword
  unfold aAtomic
  dsimp only
  rw [hassert, ok_bind, hoffset, ok_bind, if_neg (not_not.mpr htip), hword, hop]
  rfl

/-- An atomic operation on a `TIP` block writes one word and answers with one message. -/
theorem aAtomic_eq_ok {m : AMessage} {label : String} {op : ℕ → ℕ → Option ℤ}
    {callback : ℕ → ℕ → Callback} (hlen : cfg.burstLen m.size = 1) (hmask : m.mask ≠ 0)
    (htip : s.perm (cfg.blockAddr m.address) = .tip)
    (hop : ∀ operand1 operand2, (op operand1 operand2).isSome) :
    ∃ memory value data, aAtomic cfg label op callback m s =
      .ok (({ s with memory := memory }.write
        (cfg.addrAligned m.address + s.aOngoings.getD m.source 0 * cfg.dataLen) value).push
        [plain { opcode := .accessAckData, size := m.size, source := m.source, data := data }]) := by
  obtain ⟨result, hresult⟩ := Option.isSome_iff_exists.mp (hop (operand m.mask m.data)
    (operand m.mask (s.memory.getD (atomicAddr cfg m s) nopData)))
  exact ⟨_, _, _, aAtomic_of_tip hlen hmask htip hresult⟩

theorem aDispatch_arithmetic (hop : m.opcode = .arithmeticData) (hprotocol : tlUH ≤ cfg.protocol) :
    aDispatch cfg m s = aArithmetic cfg m s := by
  unfold aDispatch
  rw [hop]
  exact if_pos hprotocol

theorem aDispatch_logical (hop : m.opcode = .logicalData) (hprotocol : tlUH ≤ cfg.protocol) :
    aDispatch cfg m s = aLogical cfg m s := by
  unfold aDispatch
  rw [hop]
  exact if_pos hprotocol

/-- The parameter of an atomic operation passes its check. -/
theorem atomic_param_lt (hchecked : aAssertions m true = .ok ()) :
    (m.opcode = .arithmeticData → m.param < 5) ∧ (m.opcode = .logicalData → m.param < 4) := by
  constructor <;>
  · intro hop
    unfold aAssertions at hchecked
    rw [if_pos rfl, hop] at hchecked
    obtain ⟨_, hparam, -⟩ := bind_eq_ok.mp hchecked
    exact decide_eq_true_eq.mp (assert_eq_ok.mp hparam)

/-- An atomic operation that passes its checks is executed on a `TIP` block. -/
theorem aDispatch_atomic (hop : m.opcode = .arithmeticData ∨ m.opcode = .logicalData)
    (hprotocol : tlUH ≤ cfg.protocol) (hchecked : aAssertions m true = .ok ())
    (hlen : cfg.burstLen m.size = 1) (hmask : m.mask ≠ 0)
    (htip : s.perm (cfg.blockAddr m.address) = .tip) :
    ∃ memory value data, aDispatch cfg m s =
      .ok (({ s with memory := memory }.write
        (cfg.addrAligned m.address + s.aOngoings.getD m.source 0 * cfg.dataLen) value).push
        [plain { opcode := .accessAckData, size := m.size, source := m.source, data := data }]) := by
  rcases hop with hop | hop
  · rw [aDispatch_arithmetic hop hprotocol]
    exact aAtomic_eq_ok hlen hmask htip fun operand1 operand2 ↦
      isSome_arithmeticOp ((atomic_param_lt hchecked).1 hop) operand1 operand2 m.mask
  · rw [aDispatch_logical hop hprotocol]
    exact aAtomic_eq_ok hlen hmask htip fun operand1 operand2 ↦
      isSome_logicalOp ((atomic_param_lt hchecked).2 hop) operand1 operand2

end Requests

theorem exists_prune_eq (cfg : Config) (m : CMessage) (s : State) :
    ∃ blockPerm, prune cfg m s = { s with blockPerm := blockPerm } := by
  unfold prune
  split
  · exact ⟨_, rfl⟩
  · exact ⟨s.blockPerm, rfl⟩

/-- A message that passes the checks reaches its handler. -/
theorem step_c_eq_dispatch {m : CMessage} (hdrive : s.drive = true)
    (hchecked : cAssertions m true = .ok ())
    (hcount : (s.cOngoings.keys.isEmpty || decide (m.source ∈ s.cOngoings.keys)) = true) :
    step cfg s (.c m) = cDispatch cfg m s := by
  unfold step
  dsimp only
  rw [if_pos hdrive]
  unfold cPortMonitor
  rw [cAssertions_of_true hchecked, ok_bind, hcount]
  rfl

/-- A beat that is not the last one writes its word and is counted. -/
theorem cBeat_of_not_last {m : CMessage} (finish : State → Except PyError State)
    (hlast : s.cOngoings.getD m.source 0 + 1 ≠ cfg.burstLen m.size) :
    cBeat cfg finish m s = .ok { s with
      memory := s.memory.set
        (cfg.addrAligned m.address + s.cOngoings.getD m.source 0 * cfg.dataLen) m.data
      cOngoings := s.cOngoings.set m.source (s.cOngoings.getD m.source 0 + 1) } := by
  unfold cBeat
  dsimp only
  rw [if_neg hlast]
  rfl

/-- The last beat writes its word and lets `finish` run. -/
theorem cBeat_of_last_eq {m : CMessage} (finish : State → Except PyError State)
    (hlast : s.cOngoings.getD m.source 0 + 1 = cfg.burstLen m.size) :
    cBeat cfg finish m s = (do
      let t ← finish (prune cfg m
        (s.write (cfg.addrAligned m.address + s.cOngoings.getD m.source 0 * cfg.dataLen) m.data))
      return if s.cOngoings.getD m.source 0 ≠ 0 then
        { t with cOngoings := t.cOngoings.erase m.source } else t) := by
  unfold cBeat
  dsimp only
  rw [if_pos hlast]

/-- The last beat, with the permission that it leaves unspecified. -/
theorem cBeat_of_last {m : CMessage} (finish : State → Except PyError State)
    (hlast : s.cOngoings.getD m.source 0 + 1 = cfg.burstLen m.size) :
    ∃ blockPerm, cBeat cfg finish m s = (do
      let t ← finish { s with
        memory := s.memory.set
          (cfg.addrAligned m.address + s.cOngoings.getD m.source 0 * cfg.dataLen) m.data
        blockPerm := blockPerm }
      return if s.cOngoings.getD m.source 0 ≠ 0 then
        { t with cOngoings := t.cOngoings.erase m.source } else t) := by
  obtain ⟨blockPerm, hprune⟩ := exists_prune_eq cfg m
    (s.write (cfg.addrAligned m.address + s.cOngoings.getD m.source 0 * cfg.dataLen) m.data)
  refine ⟨blockPerm, ?_⟩
  rw [cBeat_of_last_eq finish hlast, hprune]
  rfl

/-- The acknowledgement of a source runs its continuation and releases the source. -/
theorem acknowledge_of_registered {source : ℕ} {callback : Callback}
    (h : s.probes.registered source = some callback) :
    acknowledge cfg source s = (do
      let s ← runCallback cfg callback { s with probes := s.probes.unregister source }
      let probes ← s.probes.releaseSource source
      return { s with probes := probes }) := by
  unfold acknowledge
  rw [Probes.callSource_of_registered h]
  rfl

/-- A pop that takes a message, with its permission update if it has one. -/
theorem step_dPop_eq_ok (hdrive : s.drive = true) (hport : s.dPort = none) {m : DMessage}
    (grant : Option (ℕ × ℕ)) {tail : List DEntry}
    (hqueue : s.dQueue = some (m, grant.map fun g ↦ .updatePerm g.1 g.2) :: tail) :
    ∃ blockPerm, step cfg s .dPop =
      .ok { s with dQueue := tail, dPort := some m, blockPerm := blockPerm } := by
  unfold step
  dsimp only
  rw [if_pos hdrive]
  unfold dPortDriver
  rw [hport, hqueue]
  cases grant with
  | none => exact ⟨_, rfl⟩
  | some g =>
    dsimp only [Option.map_some, runDCallback, ok_bind]
    unfold updatePerm
    split
    · exact ⟨_, rfl⟩
    · exact ⟨s.blockPerm, rfl⟩

end ProcessorFuzz.TileLink.Adapter
