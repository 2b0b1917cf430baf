import ProcessorFuzz.TileLink.Adapter

/-!
# The adapter's probes

Every step of the adapter treats the probe bookkeeping as some events of `ProbeSystem` do. What is
known about every run of the latter therefore holds of every run of the adapter.
-/

namespace ProcessorFuzz.TileLink.Adapter

open Library

variable {cfg : Config} {s s' : State}

/-- The probe of the flush for the block `addr`; `rest` is what remains to be flushed. -/
def flushProbe (cfg : Config) (addr : ℕ) (rest : List ℕ) : Probe Callback where
  callback := .probeBlocksRec rest
  param := toN
  size := cfg.probeSize
  addr := addr
  mask := cfg.probeMask

/-- The probes that a continuation requests. -/
def Callback.requests (cfg : Config) : Callback → List (Probe Callback)
  | .probeBlocksRec (addr :: rest) => [flushProbe cfg addr rest]
  | _ => []

/-- The adapter's continuations as actions on the probe bookkeeping. -/
def body (cfg : Config) : ProbeSystem.Body Callback Unit :=
  fun callback _ ↦ ((), callback.requests cfg)

/-- The handler of this opcode probes a block that is not `TIP`. -/
def opcodeProbes (cfg : Config) : AOpcode → Bool
  | .get | .putFullData | .putPartialData => true
  | .arithmeticData | .logicalData => decide (tlUH ≤ cfg.protocol)
  | .acquireBlock => decide (cfg.protocol = tlC)
  | .intent | .acquirePerm => false

/-- The message makes the handler request a probe. -/
def Probing (cfg : Config) (m : AMessage) (s : State) : Prop :=
  opcodeProbes cfg m.opcode ∧ s.perm (cfg.blockAddr m.address) ≠ .tip ∧
    (m.opcode = .putFullData ∨ m.opcode = .putPartialData → s.aOngoings.getD m.source 0 = 0)

instance (m : AMessage) : Decidable (Probing cfg m s) :=
  inferInstanceAs (Decidable (_ ∧ _ ∧ _))

/-- A step requests the given probes, after it has drawn from `random` for something else. -/
def Requested (ps : List (Probe Callback)) (before after : Probes Callback) : Prop :=
  ∃ draws, ps.foldlM (fun probes p ↦ probes.retrieveBlock p) { before with draws := draws } =
    .ok after

theorem Requested.refl (probes : Probes Callback) : Requested [] probes probes :=
  ⟨probes.draws, rfl⟩

theorem State.retrieveBlock_eq_ok {p : Probe Callback} :
    s.retrieveBlock p = .ok s' ↔
      ∃ probes, s.probes.retrieveBlock p = .ok probes ∧ s' = { s with probes := probes } := by
  unfold State.retrieveBlock
  rw [bind_eq_ok]
  simp only [pure, Except.pure, Except.ok.injEq, eq_comm]

theorem Requested.of_retrieveBlock {p : Probe Callback} (h : s.retrieveBlock p = .ok s') :
    Requested [p] s.probes s'.probes ∧ s'.ongoingTlc = s.ongoingTlc := by
  obtain ⟨probes, hprobes, rfl⟩ := State.retrieveBlock_eq_ok.mp h
  refine ⟨⟨s.probes.draws, ?_⟩, rfl⟩
  rw [List.foldlM_cons, hprobes]
  rfl

@[simp]
theorem perm_setPerm_self (s : State) (blockAddr blockAddr' : ℕ) :
    (s.setPerm blockAddr (s.perm blockAddr)).perm blockAddr' = s.perm blockAddr' := by
  unfold State.perm State.setPerm
  rw [Dict.getD_set]
  split
  · next h => rw [h]
  · rfl

/-- What an A message does to the probes: the handler requests one for the message's address, and
then leaves `ongoing_tlc` alone, or it requests none. -/
def ARequested (cfg : Config) (m : AMessage) (s s' : State) : Prop :=
  if Probing cfg m s then
    ∃ p : Probe Callback, p.addr = m.address ∧ Requested [p] s.probes s'.probes ∧
      s'.ongoingTlc = s.ongoingTlc
  else Requested [] s.probes s'.probes

theorem aGet_requested {m : AMessage} (hop : m.opcode = .get) (h : aGet cfg m s = .ok s') :
    ARequested cfg m s s' := by
  have hiff : Probing cfg m s ↔ s.perm (cfg.blockAddr m.address) ≠ .tip := by
    simp [Probing, hop, opcodeProbes]
  unfold ARequested
  rw [if_congr hiff rfl rfl]
  unfold aGet at h
  split at h
  · next hperm =>
    rw [if_pos hperm]
    exact ⟨_, rfl, Requested.of_retrieveBlock h⟩
  · next hperm =>
    obtain rfl := Except.ok.inj h
    rw [if_neg hperm]
    exact Requested.refl s.probes

theorem putDirect_frame (m : AMessage) (s : State) :
    (putDirect cfg m s).probes = s.probes ∧ (putDirect cfg m s).ongoingTlc = s.ongoingTlc := by
  unfold putDirect
  dsimp only
  split_ifs <;> exact ⟨rfl, rfl⟩

theorem storeBeat_frame {getAddr : ℕ} {m : AMessage} (h : storeBeat getAddr m s = .ok s') :
    s'.probes = s.probes ∧ s'.ongoingTlc = s.ongoingTlc := by
  unfold storeBeat at h
  split at h
  · exact nomatch h
  · obtain rfl := Except.ok.inj h
    exact ⟨rfl, rfl⟩

theorem aPut_requested {m : AMessage}
    (hop : m.opcode = .putFullData ∨ m.opcode = .putPartialData) (h : aPut cfg m s = .ok s') :
    ARequested cfg m s s' := by
  have hiff : Probing cfg m s ↔
      s.perm (cfg.blockAddr m.address) ≠ .tip ∧ s.aOngoings.getD m.source 0 = 0 := by
    have hprobes : opcodeProbes cfg m.opcode = true := by
      rcases hop with hop | hop <;> rw [hop] <;> rfl
    simp [Probing, hop, hprobes]
  unfold ARequested
  rw [if_congr hiff rfl rfl]
  unfold aPut at h
  split at h
  · next hperm =>
    unfold putDeferred at h
    obtain ⟨s₁, hs₁, hstore⟩ := bind_eq_ok.mp h
    obtain ⟨hprobes, htlc⟩ := storeBeat_frame hstore
    rw [hprobes, htlc]
    unfold putProbe at hs₁
    split at hs₁
    · next hcount =>
      rw [if_pos ⟨hperm, hcount⟩]
      have hrequested := Requested.of_retrieveBlock hs₁
      exact ⟨_, rfl, hrequested⟩
    · next hcount =>
      rw [if_neg fun hboth ↦ hcount hboth.2]
      obtain rfl := Except.ok.inj hs₁
      exact Requested.refl _
  · next hperm =>
    obtain rfl := Except.ok.inj h
    rw [if_neg fun hboth ↦ hperm hboth.1, (putDirect_frame m s).1]
    exact Requested.refl _

theorem aAtomic_requested {m : AMessage} {label : String} {op : ℕ → ℕ → Option ℤ}
    {callback : ℕ → ℕ → Callback} (hop : opcodeProbes cfg m.opcode = true)
    (hput : ¬(m.opcode = .putFullData ∨ m.opcode = .putPartialData))
    (h : aAtomic cfg label op callback m s = .ok s') : ARequested cfg m s s' := by
  have hiff : Probing cfg m s ↔ s.perm (cfg.blockAddr m.address) ≠ .tip := by
    simp [Probing, hop, hput]
  unfold ARequested
  rw [if_congr hiff rfl rfl]
  unfold aAtomic at h
  dsimp only at h
  obtain ⟨-, -, h⟩ := bind_eq_ok.mp h
  obtain ⟨offset, -, h⟩ := bind_eq_ok.mp h
  split at h
  · next hperm =>
    rw [if_pos hperm]
    exact ⟨_, rfl, Requested.of_retrieveBlock h⟩
  · next hperm =>
    rw [if_neg hperm]
    split at h
    · cases h
    · obtain rfl := Except.ok.inj h
      exact Requested.refl _

theorem getSink_eq_ok {r : ℕ × State} (h : getSink s = .ok r) :
    ∃ sink ∈ s.dSinks.freeList, r = (sink, { s with
      dSinks := s.dSinks.remove sink
      probes := { s.probes with draws := s.probes.draws.rest } }) := by
  unfold getSink at h
  obtain ⟨r', hget, h⟩ := bind_eq_ok.mp h
  obtain ⟨sink, hsink, -, rfl⟩ := FreeList.get_eq_ok_iff.mp hget
  exact ⟨sink, hsink, (Except.ok.inj h).symm⟩

theorem aAcquireBlock_requested {m : AMessage} (hop : m.opcode = .acquireBlock)
    (hprotocol : cfg.protocol = tlC) (h : aAcquireBlock cfg m s = .ok s') :
    ARequested cfg m s s' := by
  have hiff : Probing cfg m s ↔ s.perm (cfg.blockAddr m.address) ≠ .tip := by
    simp [Probing, hop, opcodeProbes, hprotocol]
  unfold ARequested
  rw [if_congr hiff rfl rfl]
  unfold aAcquireBlock at h
  dsimp only at h
  obtain ⟨r, hsink, h⟩ := bind_eq_ok.mp h
  obtain ⟨sink, -, rfl⟩ := getSink_eq_ok hsink
  dsimp only at h
  split at h
  · next hperm =>
    have hperm' : s.perm (cfg.blockAddr m.address) ≠ .tip := hperm
    rw [if_pos hperm']
    obtain ⟨⟨draws, hfold⟩, htlc⟩ := Requested.of_retrieveBlock h
    exact ⟨_, rfl, ⟨draws, hfold⟩, htlc⟩
  · next hperm =>
    have hperm' : ¬s.perm (cfg.blockAddr m.address) ≠ .tip := hperm
    rw [if_neg hperm']
    obtain rfl := Except.ok.inj h
    exact ⟨s.probes.draws.rest, rfl⟩

theorem aAcquirePerm_requested {m : AMessage} (hop : m.opcode = .acquirePerm)
    (h : aAcquirePerm cfg m s = .ok s') : ARequested cfg m s s' := by
  have hnot : ¬Probing cfg m s := by simp [Probing, hop, opcodeProbes]
  unfold ARequested
  rw [if_neg hnot]
  unfold aAcquirePerm at h
  dsimp only at h
  obtain ⟨r, hsink, h⟩ := bind_eq_ok.mp h
  obtain ⟨sink, -, rfl⟩ := getSink_eq_ok hsink
  dsimp only at h
  split at h
  · cases h
  · obtain rfl := Except.ok.inj h
    exact ⟨s.probes.draws.rest, rfl⟩

theorem aDispatch_requested {m : AMessage} (h : aDispatch cfg m s = .ok s') :
    ARequested cfg m s s' := by
  have hignored (hprobes : opcodeProbes cfg m.opcode = false) (heq : s'.probes = s.probes) :
      ARequested cfg m s s' := by
    unfold ARequested
    rw [if_neg (by simp [Probing, hprobes]), heq]
    exact Requested.refl _
  unfold aDispatch at h
  split at h
  · next hop => exact aGet_requested hop h
  · next hop => exact aPut_requested (Or.inl hop) h
  · next hop => exact aPut_requested (Or.inr hop) h
  · next hop =>
    split at h
    · next hprotocol =>
      have hprobes : opcodeProbes cfg m.opcode = true := by simp [hop, opcodeProbes, hprotocol]
      exact aAtomic_requested hprobes (by simp [hop]) h
    · next hprotocol =>
      exact hignored (by simpa [hop, opcodeProbes] using hprotocol) (by rw [Except.ok.inj h])
  · next hop =>
    split at h
    · next hprotocol =>
      have hprobes : opcodeProbes cfg m.opcode = true := by simp [hop, opcodeProbes, hprotocol]
      exact aAtomic_requested hprobes (by simp [hop]) h
    · next hprotocol =>
      exact hignored (by simpa [hop, opcodeProbes] using hprotocol) (by rw [Except.ok.inj h])
  · next hop =>
    refine hignored (by rw [hop]; rfl) ?_
    obtain rfl := Except.ok.inj h
    split <;> rfl
  · next hop =>
    split at h
    · next hprotocol => exact aAcquireBlock_requested hop hprotocol h
    · next hprotocol =>
      exact hignored (by simpa [hop, opcodeProbes] using hprotocol) (by rw [Except.ok.inj h])
  · next hop =>
    split at h
    · exact aAcquirePerm_requested hop h
    · exact hignored (by rw [hop]; rfl) (by rw [Except.ok.inj h])

theorem aPortMonitor_eq_ok {m : AMessage} (h : aPortMonitor cfg m s = .ok s') :
    aDispatch cfg m (s.setPerm (cfg.blockAddr m.address) (s.perm (cfg.blockAddr m.address))) =
      .ok s' := by
  unfold aPortMonitor at h
  obtain ⟨-, -, h⟩ := bind_eq_ok.mp h
  obtain ⟨-, -, h⟩ := bind_eq_ok.mp h
  exact h

theorem aPortMonitor_requested {m : AMessage} (h : aPortMonitor cfg m s = .ok s') :
    ARequested cfg m s s' := by
  have hdispatch := aDispatch_requested (aPortMonitor_eq_ok h)
  have hiff : Probing cfg m
      (s.setPerm (cfg.blockAddr m.address) (s.perm (cfg.blockAddr m.address))) ↔
      Probing cfg m s := by
    unfold Probing
    rw [perm_setPerm_self]
    rfl
  unfold ARequested at hdispatch
  rw [if_congr hiff rfl rfl] at hdispatch
  exact hdispatch

/-- The dictionary `ongoing_tlc` after a continuation has run. -/
def Callback.grants (ongoingTlc : Dict ℕ ℕ) : Callback → Dict ℕ ℕ
  | .grantData _ _ _ sink _ _ blockAddr => ongoingTlc.set sink blockAddr
  | _ => ongoingTlc

theorem atomicAckCb_ne_ok (addrAligned : ℕ) (s s' : State) :
    atomicAckCb addrAligned s ≠ .ok s' := by
  unfold atomicAckCb
  split <;> exact nofun

/-- The continuations of the atomic operations and of `AcquirePerm` raise. The others request
their probes and leave the rest of the probe bookkeeping alone. -/
theorem runCallback_effect {callback : Callback} (h : runCallback cfg callback s = .ok s') :
    (callback.requests cfg).foldlM (fun probes p ↦ probes.retrieveBlock p) s.probes =
        .ok s'.probes ∧
      s'.ongoingTlc = callback.grants s.ongoingTlc := by
  cases callback with
  | accessAck | accessAckData | grantData | enableProbe =>
    obtain rfl := Except.ok.inj h
    exact ⟨rfl, rfl⟩
  | arithmeticAck | logicalAck => exact absurd h (atomicAckCb_ne_ok _ s s')
  | grant => exact nomatch h
  | probeBlocksRec probeAddrs =>
    cases probeAddrs with
    | nil =>
      obtain rfl := Except.ok.inj h
      exact ⟨rfl, rfl⟩
    | cons addr rest =>
      obtain ⟨probes, hprobes, rfl⟩ := State.retrieveBlock_eq_ok.mp h
      refine ⟨?_, rfl⟩
      change List.foldlM _ s.probes [flushProbe cfg addr rest] = _
      rw [List.foldlM_cons]
      exact bind_eq_ok.mpr ⟨probes, hprobes, rfl⟩

/-- The continuation of an outstanding source runs between the two halves of its
acknowledgement. -/
theorem acknowledge_eq_ok {source : ℕ} (hconsistent : s.probes.Consistent none)
    (h : acknowledge cfg source s = .ok s') :
    source ∈ s.probes.bSrcs.initList ∧ source ∉ s.probes.bSrcs.freeList ∧
      ∃ callback s₁ probes, s.probes.registered source = some callback ∧
        runCallback cfg callback { s with probes := s.probes.unregister source } = .ok s₁ ∧
        s₁.probes.releaseSource source = .ok probes ∧ s' = { s₁ with probes := probes } := by
  unfold acknowledge at h
  obtain ⟨called, hcall, h⟩ := bind_eq_ok.mp h
  obtain ⟨hnone, rfl⟩ | ⟨callback, hsome, rfl⟩ := Probes.callSource_cases hcall
  · -- without a continuation the source is not in use, and its release raises
    obtain ⟨s₁, hrun, h⟩ := bind_eq_ok.mp h
    obtain rfl := Except.ok.inj hrun
    obtain ⟨probes, hrelease, -⟩ := bind_eq_ok.mp h
    have hbusy := Probes.mem_of_releaseSource_eq_ok hrelease
    have hregistered := (hconsistent.registered_iff source).mpr ⟨hbusy.1, hbusy.2, nofun⟩
    simp [hnone] at hregistered
  · have hregistered := (hconsistent.registered_iff source).mp (by rw [hsome]; rfl)
    obtain ⟨s₁, hrun, h⟩ := bind_eq_ok.mp h
    obtain ⟨probes, hrelease, h⟩ := bind_eq_ok.mp h
    exact ⟨hregistered.1, hregistered.2.1, callback, s₁, probes, hsome, hrun, hrelease,
      (Except.ok.inj h).symm⟩

/-- The message completes the acknowledgement of a probe. -/
def Acknowledges (cfg : Config) (m : CMessage) (s : State) : Prop :=
  m.opcode = .probeAck ∨ m.opcode = .probeAckData ∧
    s.cOngoings.getD m.source 0 + 1 = cfg.burstLen m.size

instance (m : CMessage) : Decidable (Acknowledges cfg m s) :=
  inferInstanceAs (Decidable (_ ∨ _ ∧ _))

/-- What the acknowledgement of a source does to the probes and to `ongoing_tlc`. -/
structure Acknowledged (cfg : Config) (source : ℕ) (callback : Callback) (s s' : State) : Prop where
  mem_initList : source ∈ s.probes.bSrcs.initList
  not_mem_freeList : source ∉ s.probes.bSrcs.freeList
  registered : s.probes.registered source = some callback
  released : ∃ probes,
    (callback.requests cfg).foldlM (fun probes p ↦ probes.retrieveBlock p)
      (s.probes.unregister source) = .ok probes ∧ probes.releaseSource source = .ok s'.probes
  ongoingTlc : s'.ongoingTlc = callback.grants s.ongoingTlc

theorem acknowledge_acknowledged {source : ℕ} (hconsistent : s.probes.Consistent none)
    (h : acknowledge cfg source s = .ok s') : ∃ callback, Acknowledged cfg source callback s s' := by
  obtain ⟨hinit, hbusy, callback, s₁, probes, hsome, hrun, hrelease, rfl⟩ :=
    acknowledge_eq_ok hconsistent h
  obtain ⟨hrequests, htlc⟩ := runCallback_effect hrun
  exact ⟨callback, hinit, hbusy, hsome, ⟨s₁.probes, hrequests, hrelease⟩, htlc⟩

theorem prune_frame (cfg : Config) (m : CMessage) (s : State) :
    (prune cfg m s).probes = s.probes ∧ (prune cfg m s).ongoingTlc = s.ongoingTlc := by
  unfold prune
  split <;> exact ⟨rfl, rfl⟩

/-- An acknowledgement sees the probes and `ongoing_tlc` only. -/
theorem Acknowledged.frame {source : ℕ} {callback : Callback} {s₀ s₀' : State}
    (h : Acknowledged cfg source callback s s') (hprobes : s.probes = s₀.probes)
    (htlc : s.ongoingTlc = s₀.ongoingTlc) (hprobes' : s₀'.probes = s'.probes)
    (htlc' : s₀'.ongoingTlc = s'.ongoingTlc) : Acknowledged cfg source callback s₀ s₀' := by
  obtain ⟨hinit, hbusy, hsome, hreleased, hgrants⟩ := h
  rw [hprobes] at hinit hbusy hsome hreleased
  rw [htlc] at hgrants
  rw [← hprobes'] at hreleased
  exact ⟨hinit, hbusy, hsome, hreleased, htlc'.trans hgrants⟩

/-- A C message either completes an acknowledgement or leaves the probes alone. -/
theorem cPortMonitor_acknowledged {m : CMessage} (hconsistent : s.probes.Consistent none)
    (h : cPortMonitor cfg m s = .ok s') :
    if Acknowledges cfg m s then ∃ callback, Acknowledged cfg m.source callback s s'
    else s'.probes = s.probes ∧ s'.ongoingTlc = s.ongoingTlc := by
  unfold cPortMonitor at h
  obtain ⟨-, -, h⟩ := bind_eq_ok.mp h
  obtain ⟨-, -, h⟩ := bind_eq_ok.mp h
  unfold cDispatch at h
  split at h
  case h_1 | h_2 | h_3 => exact nomatch h
  case h_4 hop =>
    obtain rfl := Except.ok.inj h
    rw [if_neg (by simp [Acknowledges, hop])]
    exact ⟨rfl, rfl⟩
  case h_5 hop =>
    have hacknowledges : Acknowledges cfg m s := Or.inl hop
    rw [if_pos hacknowledges]
    obtain ⟨hprobes, htlc⟩ := prune_frame cfg m s
    obtain ⟨callback, hacknowledged⟩ := acknowledge_acknowledged (hprobes ▸ hconsistent) h
    exact ⟨callback, hacknowledged.frame hprobes htlc rfl rfl⟩
  case h_6 hop =>
    unfold cBeat at h
    dsimp only at h
    split at h
    · next hlast =>
      have hacknowledges : Acknowledges cfg m s := Or.inr ⟨hop, hlast⟩
      rw [if_pos hacknowledges]
      obtain ⟨s₁, hs₁, h⟩ := bind_eq_ok.mp h
      obtain ⟨hprobes, htlc⟩ := prune_frame cfg m (s.write _ m.data)
      obtain ⟨callback, hacknowledged⟩ := acknowledge_acknowledged (hprobes ▸ hconsistent) hs₁
      refine ⟨callback, hacknowledged.frame hprobes htlc ?_ ?_⟩ <;>
      · rw [← Except.ok.inj h]
        split <;> rfl
    · next hlast =>
      rw [if_neg (by simp [Acknowledges, hop, hlast])]
      obtain rfl := Except.ok.inj h
      exact ⟨rfl, rfl⟩
  case h_7 hop =>
    obtain rfl := Except.ok.inj h
    rw [if_neg (by simp [Acknowledges, hop])]
    exact prune_frame cfg m s
  case h_8 hop =>
    rw [if_neg (by simp [Acknowledges, hop])]
    unfold cBeat at h
    dsimp only at h
    split at h
    · obtain ⟨s₁, hs₁, h⟩ := bind_eq_ok.mp h
      obtain rfl := Except.ok.inj hs₁
      have hframe := prune_frame cfg m
        (s.write (cfg.addrAligned m.address + s.cOngoings.getD m.source 0 * cfg.dataLen) m.data)
      rw [← Except.ok.inj h]
      split <;> exact hframe
    · obtain rfl := Except.ok.inj h
      exact ⟨rfl, rfl⟩

/-- The poll makes a probe. -/
def HostProbing (cfg : Config) (s : State) : Prop :=
  (s.probe && s.probeEn) = true ∧ s.probeAddr ∉ s.ongoingTlc.values ∧
    s.perm (cfg.blockAddr s.probeAddr) ≠ .tip

instance : Decidable (HostProbing cfg s) := inferInstanceAs (Decidable (_ ∧ _ ∧ _))

theorem hostInterface_requested (h : hostInterface cfg s = .ok s') :
    if HostProbing cfg s then
      ∃ p : Probe Callback, p.addr = s.probeAddr ∧ Requested [p] s.probes s'.probes ∧
        s'.ongoingTlc = s.ongoingTlc
    else s' = s := by
  unfold hostInterface at h
  split at h
  · next hpoll =>
    rw [Bool.and_eq_true, decide_eq_true_eq] at hpoll
    obtain ⟨-, -, h⟩ := bind_eq_ok.mp h
    split at h
    · next hperm =>
      have hprobing : HostProbing cfg s := ⟨hpoll.1, hpoll.2, hperm⟩
      rw [if_pos hprobing]
      obtain ⟨s₁, hs₁, h⟩ := bind_eq_ok.mp h
      obtain rfl := Except.ok.inj h
      have hrequested := Requested.of_retrieveBlock hs₁
      exact ⟨_, rfl, hrequested⟩
    · next hperm =>
      have hprobing : ¬HostProbing cfg s := fun hprobing ↦ hperm hprobing.2.2
      rw [if_neg hprobing]
      exact (Except.ok.inj h).symm
  · next hpoll =>
    have hprobing : ¬HostProbing cfg s := fun hprobing ↦ hpoll (by
      rw [Bool.and_eq_true, decide_eq_true_eq]
      exact ⟨hprobing.1, hprobing.2.1⟩)
    rw [if_neg hprobing]
    exact (Except.ok.inj h).symm

/-- The blocks that a flush starting now probes, in order. -/
def flushBlocks (s : State) : List ℕ :=
  if s.retrieve && !s.retrieved then s.blockPerm.keys.filter fun addr ↦ s.perm addr ≠ .tip else []

theorem dataRetriever_requested (h : dataRetriever cfg s = .ok s') :
    (match flushBlocks s with
      | [] => s'.probes = s.probes
      | addr :: rest => Requested [flushProbe cfg addr rest] s.probes s'.probes) ∧
      s'.ongoingTlc = s.ongoingTlc := by
  unfold dataRetriever at h
  unfold flushBlocks
  split at h
  · next hretrieve =>
    rw [if_pos hretrieve]
    unfold probeBlocks at h
    change probeBlocksRec cfg (s.blockPerm.keys.filter fun addr ↦ s.perm addr ≠ .tip) _ = _ at h
    cases hblocks : s.blockPerm.keys.filter fun addr ↦ s.perm addr ≠ .tip with
    | nil =>
      rw [hblocks] at h
      obtain rfl := Except.ok.inj h
      exact ⟨rfl, rfl⟩
    | cons addr rest =>
      rw [hblocks] at h
      have hrequested := Requested.of_retrieveBlock h
      exact hrequested
  · next hretrieve =>
    obtain rfl := Except.ok.inj h
    rw [if_neg hretrieve]
    exact ⟨rfl, rfl⟩

/-- What one step does to the probes. -/
inductive ProbeEffect (cfg : Config) (s s' : State) : Prop
  | requested (ps : List (Probe Callback)) (h : Requested ps s.probes s'.probes)
  | acknowledged (source : ℕ) (callback : Callback)
    (h : Acknowledged cfg source callback s s')
  | delivered (h : s'.probes = { s.probes with bQueue := s.probes.bQueue.tail })

theorem ProbeEffect.of_eq (h : s'.probes = s.probes) : ProbeEffect cfg s s' :=
  .requested [] (h ▸ Requested.refl _)

theorem runDCallback_frame {callback : DCallback} (h : runDCallback callback s = .ok s') :
    s'.probes = s.probes ∧ s'.ongoingTlc = s.ongoingTlc := by
  cases callback with
  | updatePerm blockAddr param =>
    obtain rfl := Except.ok.inj h
    unfold updatePerm
    split <;> exact ⟨rfl, rfl⟩
  | updateMem burst =>
    change updateMem burst s = .ok s' at h
    unfold updateMem at h
    split at h
    · exact nomatch h
    · split at h
      · obtain rfl := Except.ok.inj h
        exact ⟨rfl, rfl⟩
      · exact nomatch h

theorem dPortDriver_frame (h : dPortDriver s = .ok s') :
    s'.probes = s.probes ∧ s'.ongoingTlc = s.ongoingTlc := by
  unfold dPortDriver at h
  split at h
  · obtain rfl := Except.ok.inj h
    exact ⟨rfl, rfl⟩
  · obtain rfl := Except.ok.inj h
    exact ⟨rfl, rfl⟩
  · obtain rfl := Except.ok.inj h
    exact ⟨rfl, rfl⟩
  · obtain rfl := Except.ok.inj h
    exact ⟨rfl, rfl⟩
  · obtain ⟨s₁, hs₁, h⟩ := bind_eq_ok.mp h
    obtain rfl := Except.ok.inj h
    have hframe := runDCallback_frame hs₁
    exact hframe

theorem ePortMonitor_probes {sink : ℕ} (h : ePortMonitor sink s = .ok s') :
    s'.probes = s.probes := by
  unfold ePortMonitor at h
  obtain ⟨r, -, h⟩ := bind_eq_ok.mp h
  dsimp only at h
  split at h
  · obtain rfl := Except.ok.inj h
    rfl
  · exact nomatch h

theorem step_probeEffect {event : Event} (hconsistent : s.probes.Consistent none)
    (h : step cfg s event = .ok s') : ProbeEffect cfg s s' := by
  unfold step at h
  cases event with
  | a m =>
    dsimp only at h
    split at h
    · have hrequested := aPortMonitor_requested h
      unfold ARequested at hrequested
      split at hrequested
      · obtain ⟨p, -, hp, -⟩ := hrequested
        exact .requested [p] hp
      · exact .requested [] hrequested
    · exact .of_eq (by rw [Except.ok.inj h])
  | c m =>
    dsimp only at h
    split at h
    · have hacknowledged := cPortMonitor_acknowledged hconsistent h
      split at hacknowledged
      · obtain ⟨callback, hcallback⟩ := hacknowledged
        exact .acknowledged m.source callback hcallback
      · exact .of_eq hacknowledged.1
    · exact .of_eq (by rw [Except.ok.inj h])
  | e sink =>
    dsimp only at h
    split at h
    · exact .of_eq (ePortMonitor_probes h)
    · exact .of_eq (by rw [Except.ok.inj h])
  | dPop =>
    dsimp only at h
    split at h
    · exact .of_eq (dPortDriver_frame h).1
    · exact .of_eq (by rw [Except.ok.inj h])
  | bPop =>
    obtain rfl := Except.ok.inj h
    split
    · unfold bPortDriver
      split
      · exact .of_eq rfl
      · exact .of_eq rfl
      · next hqueue => exact .delivered (by rw [hqueue]; rfl)
    · exact .of_eq rfl
  | hostPoll =>
    dsimp only at h
    split at h
    · have hrequested := hostInterface_requested h
      split at hrequested
      · obtain ⟨p, -, hp, -⟩ := hrequested
        exact .requested [p] hp
      · exact .of_eq (by rw [hrequested])
    · exact .of_eq (by rw [Except.ok.inj h])
  | retriever =>
    have hrequested := (dataRetriever_requested h).1
    split at hrequested
    · exact .of_eq hrequested
    · exact .requested _ hrequested
  | dFire | bFire | probeBlock | stop =>
    obtain rfl := Except.ok.inj h
    exact .of_eq rfl

/-- Requests made one after the other are as many `retrieve` events. -/
theorem run_retrieve (cfg : Config) (sys : ProbeSystem Callback Unit)
    {ps : List (Probe Callback)} {probes : Probes Callback}
    (h : ps.foldlM (fun probes p ↦ probes.retrieveBlock p) sys.probes = .ok probes) :
    sys.Legal (body cfg) (ps.map .retrieve) ∧
      ∃ sys', sys.run (body cfg) (ps.map .retrieve) = .ok sys' ∧
        ps.foldlM (fun sys p ↦ sys.request p) sys = .ok sys' ∧ sys'.probes = probes := by
  induction ps generalizing sys with
  | nil => exact ⟨trivial, sys, rfl, rfl, Except.ok.inj h⟩
  | cons p ps ih =>
    rw [List.foldlM_cons] at h
    obtain ⟨probes₁, hprobes₁, h⟩ := bind_eq_ok.mp h
    have hrequest := ProbeSystem.request_eq_ok hprobes₁
    have hstep : sys.step (body cfg) (.retrieve p) = .ok _ := hrequest
    obtain ⟨hlegal, sys', hrun, hfold, hprobes⟩ :=
      ih { sys with probes := probes₁, requests := sys.requests ++ [p] } h
    refine ⟨⟨trivial, ?_⟩, sys', ?_, ?_, hprobes⟩
    · rw [hstep]
      exact hlegal
    · unfold ProbeSystem.run
      rw [List.map_cons, List.foldlM_cons, hstep]
      exact hrun
    · rw [List.foldlM_cons, hrequest]
      exact hfold

/-- Each step of the adapter is matched by events of the probe system. -/
theorem ProbeEffect.simulated {sys : ProbeSystem Callback Unit} (h : ProbeEffect cfg s s')
    (hsim : sys.probes = s.probes) :
    ∃ events sys', sys.Legal (body cfg) events ∧ sys.run (body cfg) events = .ok sys' ∧
      sys'.probes = s'.probes := by
  cases h with
  | requested ps h =>
    obtain ⟨draws, hfold⟩ := h
    rw [← hsim] at hfold
    obtain ⟨hlegal, sys', hrun, -, hprobes⟩ :=
      run_retrieve cfg { sys with probes := { sys.probes with draws := draws } } hfold
    exact ⟨.other () draws :: ps.map .retrieve, sys', ⟨trivial, hlegal⟩, hrun, hprobes⟩
  | acknowledged source callback h =>
    obtain ⟨hinit, hbusy, hsome, ⟨probes, hfold, hrelease⟩, -⟩ := h
    rw [← hsim] at hinit hbusy hsome hfold
    obtain ⟨-, sys₁, -, hrequests, hprobes⟩ :=
      run_retrieve cfg { sys with
        probes := sys.probes.unregister source
        ran := sys.ran ++ [(source, callback)] } hfold
    have hstep : sys.step (body cfg) (.acknowledge source) =
        .ok { sys₁ with probes := s'.probes } := by
      change sys.acknowledge (body cfg) source = _
      unfold ProbeSystem.acknowledge
      rw [Probes.callSource_of_registered hsome, ok_bind]
      dsimp only [ProbeSystem.runCalled, ProbeSystem.runCallback, body]
      rw [hrequests, ok_bind, hprobes, hrelease]
      rfl
    refine ⟨[.acknowledge source], { sys₁ with probes := s'.probes }, ⟨⟨hinit, hbusy⟩, ?_⟩, ?_, rfl⟩
    · rw [hstep]
      trivial
    · unfold ProbeSystem.run
      rw [List.foldlM_cons, hstep]
      rfl
  | delivered h =>
    refine ⟨[.deliver], _, ⟨trivial, trivial⟩, rfl, ?_⟩
    rw [h, ← hsim]

/-- Some run of the probe system has the same bookkeeping. -/
def Simulated (s : State) : Prop :=
  ∃ sys : ProbeSystem Callback Unit, sys.probes = s.probes ∧ sys.Inv bSrcList none

theorem simulated_start (memory : Dict ℕ ℕ) (blocks : List ℕ) (draws : Draws) :
    Simulated (start memory blocks draws) :=
  ⟨ProbeSystem.start bSrcList List.nodup_range draws (), rfl,
    ProbeSystem.inv_start List.nodup_range draws ()⟩

theorem Simulated.consistent (h : Simulated s) : s.probes.Consistent none := by
  obtain ⟨sys, hprobes, hinv⟩ := h
  exact hprobes ▸ hinv.consistent

theorem Simulated.initList_eq (h : Simulated s) : s.probes.bSrcs.initList = bSrcList := by
  obtain ⟨sys, hprobes, hinv⟩ := h
  exact hprobes ▸ hinv.initList_eq

theorem Simulated.step {event : Event} (h : Simulated s)
    (hstep : step cfg s event = .ok s') : Simulated s' := by
  have heffect := step_probeEffect h.consistent hstep
  obtain ⟨sys, hprobes, hinv⟩ := h
  obtain ⟨events, sys', hlegal, hrun, hprobes'⟩ := heffect.simulated hprobes
  obtain ⟨sys'', hrun', hinv', -⟩ := hinv.run (body cfg) hlegal
  rw [hrun] at hrun'
  obtain rfl := Except.ok.inj hrun'
  exact ⟨sys', hprobes', hinv'⟩

/-- In every state that the adapter reaches, the probe bookkeeping is one that the probe system
reaches. -/
theorem simulated_of_run {memory : Dict ℕ ℕ} {blocks : List ℕ} {draws : Draws}
    {events : List Event} (h : run cfg (start memory blocks draws) events = .ok s) : Simulated s :=
  foldlM_invariant (fun _ _ _ hs hstep ↦ hs.step hstep) (simulated_start memory blocks draws) h

end ProcessorFuzz.TileLink.Adapter
