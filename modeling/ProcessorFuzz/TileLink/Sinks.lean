import ProcessorFuzz.TileLink.AdapterSteps
import ProcessorFuzz.TileLink.Client
import ProcessorFuzz.TileLink.Restart

/-!
# The life of a Grant's sink

An Acquire takes a sink. A continuation may hold it until a probe is acknowledged; then the Grant
carries it through `d_queue` to the client, `ongoing_tlc` maps it to the Acquire's block, and the
GrantAck gives it back. All other steps leave the sinks, `ongoing_tlc` and the Grants in the queue
alone, whatever they do besides.
-/

namespace ProcessorFuzz.TileLink.Adapter

open Library Client

variable {cfg : Config} {s s' : State}

def isGrant : DOpcode → Bool
  | .grant | .grantData => true
  | .accessAck | .accessAckData | .hintAck | .releaseAck => false

/-- The messages of Grants among the entries, in order. -/
def grantMsgs (entries : List DEntry) : List DMessage :=
  (entries.filterMap (Option.map Prod.fst)).filter (isGrant ·.opcode)

@[simp]
theorem grantMsgs_append (left right : List DEntry) :
    grantMsgs (left ++ right) = grantMsgs left ++ grantMsgs right := by
  rw [grantMsgs, List.filterMap_append, List.filter_append]
  rfl

theorem mem_grantMsgs {entries : List DEntry} {m : DMessage} :
    m ∈ grantMsgs entries ↔ (∃ callback, some (m, callback) ∈ entries) ∧ isGrant m.opcode := by
  simp [grantMsgs]

theorem grantMsgs_plain (ms : List DMessage) :
    grantMsgs (ms.map plain) = ms.filter (isGrant ·.opcode) := by
  rw [grantMsgs, List.filterMap_map]
  change (ms.filterMap fun m ↦ some m).filter _ = _
  rw [List.filterMap_some]

theorem grantMsgs_withCallback (callback : DCallback) (ms : List DMessage) :
    grantMsgs (withCallback callback ms) = ms.filter (isGrant ·.opcode) := by
  cases ms with
  | nil => rfl
  | cons m ms =>
    calc
      grantMsgs (withCallback callback (m :: ms))
          = grantMsgs [some (m, some callback)] ++ grantMsgs (ms.map plain) :=
        grantMsgs_append [_] _
      _ = [m].filter (isGrant ·.opcode) ++ ms.filter (isGrant ·.opcode) := by
        rw [grantMsgs_plain]
        rfl
      _ = (m :: ms).filter (isGrant ·.opcode) := (List.filter_append [m] ms).symm

/-- The messages of a burst have the opcode of its header. -/
theorem filter_burst_of_not_isGrant {header : DMessage} (h : isGrant header.opcode = false)
    (burstLen addr : ℕ) (memory : Dict ℕ ℕ) :
    (burst cfg header burstLen addr memory).filter (isGrant ·.opcode) = [] := by
  rw [List.filter_eq_nil_iff]
  intro m hm
  obtain ⟨i, -, rfl⟩ := List.mem_map.mp hm
  exact Bool.eq_false_iff.mp h

theorem filter_burst_of_isGrant {header : DMessage} (h : isGrant header.opcode = true)
    (burstLen addr : ℕ) (memory : Dict ℕ ℕ) :
    (burst cfg header burstLen addr memory).filter (isGrant ·.opcode) =
      burst cfg header burstLen addr memory := by
  rw [List.filter_eq_self]
  intro m hm
  obtain ⟨i, -, rfl⟩ := List.mem_map.mp hm
  exact h

/-- A sink that is held, with what is kept of its Acquire. -/
structure Hold where
  sink : ℕ
  size : ℕ
  source : ℕ
  blockAddr : ℕ
  deriving DecidableEq

/-- What a pending continuation holds. -/
def Callback.held : Callback → Option Hold
  | .grantData _ _ _ sink size source blockAddr => some ⟨sink, size, source, blockAddr⟩
  | _ => none

/-- The continuation answers with as many beats as the size prescribes. -/
def Callback.Counted (cfg : Config) : Callback → Prop
  | .grantData burstLen _ _ _ size _ _ => burstLen = cfg.burstLen size
  | _ => True

theorem Callback.counted_of_held {callback : Callback} (h : callback.held = none) :
    callback.Counted cfg := by
  cases callback with
  | grantData => exact nomatch h
  | accessAck | accessAckData | arithmeticAck | logicalAck | grant | probeBlocksRec | enableProbe =>
    trivial

/-- The sinks, `ongoing_tlc`, the Grants in the queue and the pending Grants stay. -/
structure KeepsSinks (cfg : Config) (s s' : State) : Prop where
  dSinks : s'.dSinks = s.dSinks
  ongoingTlc : s'.ongoingTlc = s.ongoingTlc
  grants : grantMsgs s'.dQueue = grantMsgs s.dQueue
  held : (s'.probes.pending.filterMap Callback.held).Perm
    (s.probes.pending.filterMap Callback.held)
  counted : (∀ callback ∈ s.probes.pending, callback.Counted cfg) →
    ∀ callback ∈ s'.probes.pending, callback.Counted cfg

namespace KeepsSinks

theorem of_eq (hsinks : s'.dSinks = s.dSinks) (htlc : s'.ongoingTlc = s.ongoingTlc)
    (hgrants : grantMsgs s'.dQueue = grantMsgs s.dQueue)
    (hpending : s'.probes.pending = s.probes.pending) : KeepsSinks cfg s s' where
  dSinks := hsinks
  ongoingTlc := htlc
  grants := hgrants
  held := by rw [hpending]
  counted h := by rwa [hpending]

theorem refl (s : State) : KeepsSinks cfg s s := of_eq rfl rfl rfl rfl

theorem trans {s₁ s₂ s₃ : State} (h : KeepsSinks cfg s₁ s₂) (h' : KeepsSinks cfg s₂ s₃) :
    KeepsSinks cfg s₁ s₃ where
  dSinks := h'.dSinks.trans h.dSinks
  ongoingTlc := h'.ongoingTlc.trans h.ongoingTlc
  grants := h'.grants.trans h.grants
  held := h'.held.trans h.held
  counted hcounted := h'.counted (h.counted hcounted)

/-- Queueing anything but Grants. -/
theorem of_push {entries : List DEntry} (h : grantMsgs entries = [])
    (hqueue : s'.dQueue = s.dQueue ++ entries) (hsinks : s'.dSinks = s.dSinks)
    (htlc : s'.ongoingTlc = s.ongoingTlc) (hpending : s'.probes.pending = s.probes.pending) :
    KeepsSinks cfg s s' := by
  apply of_eq hsinks htlc _ hpending
  rw [hqueue, grantMsgs_append, h, List.append_nil]

/-- A continuation that holds no sink becomes pending. -/
theorem of_pending {probes : Probes Callback} {callback : Callback} (hheld : callback.held = none)
    (h : probes.pending.Perm (callback :: s.probes.pending)) :
    KeepsSinks cfg s { s with probes := probes } where
  dSinks := rfl
  ongoingTlc := rfl
  grants := rfl
  held := by
    have hfilter := h.filterMap Callback.held
    rwa [List.filterMap_cons_none hheld] at hfilter
  counted hcounted other hother := by
    rcases List.mem_cons.mp (h.subset hother) with rfl | hold
    · exact Callback.counted_of_held hheld
    · exact hcounted other hold

theorem retrieveBlock {limbo : Option ℕ} {p : Probe Callback}
    (hconsistent : s.probes.Consistent limbo) (hheld : p.callback.held = none)
    (h : s.retrieveBlock p = .ok s') : KeepsSinks cfg s s' := by
  obtain ⟨probes, hprobes, rfl⟩ := State.retrieveBlock_eq_ok.mp h
  exact of_pending hheld (hconsistent.perm_pending_retrieveBlock hprobes)

end KeepsSinks

section AMessages

variable {m : AMessage}

theorem accessAckDataCb_keepsSinks (burstLen addr size source : ℕ) (s : State) :
    KeepsSinks cfg s (accessAckDataCb cfg burstLen addr size source s) := by
  rw [accessAckDataCb_eq]
  refine KeepsSinks.of_push ?_ rfl rfl rfl rfl
  rw [grantMsgs_plain, filter_burst_of_not_isGrant rfl]

theorem aGet_keepsSinks (hconsistent : s.probes.Consistent none) (h : aGet cfg m s = .ok s') :
    KeepsSinks cfg s s' := by
  unfold aGet at h
  dsimp only at h
  split at h
  · apply KeepsSinks.retrieveBlock hconsistent _ h
    rfl
  · obtain rfl := Except.ok.inj h
    exact accessAckDataCb_keepsSinks _ _ _ _ s

theorem storeBeat_keepsSinks {getAddr : ℕ} (h : storeBeat getAddr m s = .ok s') :
    KeepsSinks cfg s s' := by
  unfold storeBeat at h
  split at h
  · exact nomatch h
  · obtain rfl := Except.ok.inj h
    exact .of_eq rfl rfl rfl rfl

theorem putDirect_keepsSinks : KeepsSinks cfg s (putDirect cfg m s) := by
  unfold putDirect
  dsimp only
  split_ifs
  · exact .of_push rfl rfl rfl rfl rfl
  · exact .of_push rfl rfl rfl rfl rfl
  · exact .of_eq rfl rfl rfl rfl

theorem aPut_keepsSinks (hconsistent : s.probes.Consistent none) (h : aPut cfg m s = .ok s') :
    KeepsSinks cfg s s' := by
  unfold aPut at h
  split at h
  · unfold putDeferred at h
    obtain ⟨s₁, hprobe, hstore⟩ := bind_eq_ok.mp h
    apply KeepsSinks.trans _ (storeBeat_keepsSinks hstore)
    unfold putProbe at hprobe
    split at hprobe
    · have hopen : KeepsSinks cfg s (openBurst s) := .of_eq rfl rfl rfl rfl
      have hconsistent' : (openBurst s).probes.Consistent none := hconsistent
      apply hopen.trans
      apply KeepsSinks.retrieveBlock hconsistent' _ hprobe
      rfl
    · obtain rfl := Except.ok.inj hprobe
      exact KeepsSinks.refl s
  · obtain rfl := Except.ok.inj h
    exact putDirect_keepsSinks

theorem aAtomic_keepsSinks {label : String} {op : ℕ → ℕ → Option ℤ} {callback : ℕ → ℕ → Callback}
    (hheld : ∀ operand offset, (callback operand offset).held = none)
    (hconsistent : s.probes.Consistent none) (h : aAtomic cfg label op callback m s = .ok s') :
    KeepsSinks cfg s s' := by
  unfold aAtomic at h
  dsimp only at h
  obtain ⟨-, -, h⟩ := bind_eq_ok.mp h
  obtain ⟨offset, -, h⟩ := bind_eq_ok.mp h
  split at h
  · apply KeepsSinks.retrieveBlock hconsistent _ h
    exact hheld _ _
  · split at h
    · cases h
    · obtain rfl := Except.ok.inj h
      exact .of_push rfl rfl rfl rfl rfl

/-- The message takes a sink. -/
def Acquires (cfg : Config) (m : AMessage) : Prop :=
  isAcquire m.opcode = true ∧ cfg.protocol = tlC

instance (m : AMessage) : Decidable (Acquires cfg m) := inferInstanceAs (Decidable (_ ∧ _))

theorem aDispatch_keepsSinks (hconsistent : s.probes.Consistent none) (hm : ¬Acquires cfg m)
    (h : aDispatch cfg m s = .ok s') : KeepsSinks cfg s s' := by
  unfold aDispatch at h
  unfold Acquires at hm
  cases hop : m.opcode with
  | get =>
    rw [hop] at h
    exact aGet_keepsSinks hconsistent h
  | putFullData | putPartialData =>
    rw [hop] at h
    exact aPut_keepsSinks hconsistent h
  | arithmeticData | logicalData =>
    rw [hop] at h
    dsimp only at h
    split at h
    · exact aAtomic_keepsSinks (fun _ _ ↦ rfl) hconsistent h
    · obtain rfl := Except.ok.inj h
      exact KeepsSinks.refl s
  | intent =>
    rw [hop] at h
    obtain rfl := Except.ok.inj h
    split
    · exact .of_push rfl rfl rfl rfl rfl
    · exact KeepsSinks.refl s
  | acquireBlock | acquirePerm =>
    rw [hop] at h hm
    dsimp only at h
    split at h
    · next hprotocol => exact absurd ⟨rfl, hprotocol⟩ hm
    · obtain rfl := Except.ok.inj h
      exact KeepsSinks.refl s

theorem aPortMonitor_keepsSinks (hconsistent : s.probes.Consistent none) (hm : ¬Acquires cfg m)
    (h : aPortMonitor cfg m s = .ok s') : KeepsSinks cfg s s' := by
  have hreceived : KeepsSinks cfg s (received cfg m s) := .of_eq rfl rfl rfl rfl
  have hconsistent' : (received cfg m s).probes.Consistent none := hconsistent
  exact hreceived.trans (aDispatch_keepsSinks hconsistent' hm (aPortMonitor_eq_ok h))

end AMessages

/-- The messages of one Grant. -/
structure Beats (cfg : Config) (hold : Hold) (ms : List DMessage) : Prop where
  ne_nil : ms ≠ []
  grant : ∀ m ∈ ms, isGrant m.opcode = true
  sink : ∀ m ∈ ms, m.sink = hold.sink
  request : ∀ m ∈ ms, m.size = hold.size ∧ m.source = hold.source
  length : ∀ m ∈ ms, dBurstLen cfg m = ms.length

theorem beats_burst (param sink size source addr blockAddr : ℕ) (memory : Dict ℕ ℕ) :
    Beats cfg ⟨sink, size, source, blockAddr⟩
      (burst cfg { opcode := .grantData, param := param, size := size, source := source
                   sink := sink } (cfg.burstLen size) addr memory) where
  ne_nil := by
    apply List.ne_nil_of_length_pos
    rw [length_burst]
    exact cfg.burstLen_pos size
  grant m hm := by
    obtain ⟨i, -, rfl⟩ := List.mem_map.mp hm
    rfl
  sink m hm := by
    obtain ⟨i, -, rfl⟩ := List.mem_map.mp hm
    rfl
  request m hm := by
    obtain ⟨i, -, rfl⟩ := List.mem_map.mp hm
    exact ⟨rfl, rfl⟩
  length m hm := by
    rw [length_burst]
    obtain ⟨i, -, rfl⟩ := List.mem_map.mp hm
    rfl

/-- A held sink is mapped to its block and its Grant is queued. -/
structure Queues (cfg : Config) (hold : Hold) (s s' : State) : Prop where
  ongoingTlc : s'.ongoingTlc = s.ongoingTlc.set hold.sink hold.blockAddr
  grants : ∃ ms, Beats cfg hold ms ∧ grantMsgs s'.dQueue = grantMsgs s.dQueue ++ ms

theorem grantDataCb_queues {burstLen size : ℕ} (hlen : burstLen = cfg.burstLen size)
    (addr param sink source blockAddr : ℕ) (s : State) :
    Queues cfg ⟨sink, size, source, blockAddr⟩ s
      (grantDataCb cfg burstLen addr param sink size source blockAddr s) := by
  subst hlen
  rw [grantDataCb_eq]
  refine ⟨rfl, _, beats_burst param sink size source addr blockAddr s.memory, ?_⟩
  change grantMsgs (s.dQueue ++ _) = _
  rw [grantMsgs_append, grantMsgs_withCallback, filter_burst_of_isGrant rfl]

/-- A continuation queues the Grant for the sink that it holds. -/
structure Settles (cfg : Config) (hold : Hold) (s s' : State) : Prop
    extends Queues cfg hold s s' where
  dSinks : s'.dSinks = s.dSinks
  held : (s.probes.pending.filterMap Callback.held).Perm
    (hold :: s'.probes.pending.filterMap Callback.held)
  counted : (∀ callback ∈ s.probes.pending, callback.Counted cfg) →
    ∀ callback ∈ s'.probes.pending, callback.Counted cfg

theorem Settles.frame {s₁ s₂ s₃ s₄ : State} {hold : Hold} (h : Settles cfg hold s₂ s₃)
    (hbefore : KeepsSinks cfg s₁ s₂) (hafter : KeepsSinks cfg s₃ s₄) :
    Settles cfg hold s₁ s₄ where
  ongoingTlc := by rw [hafter.ongoingTlc, h.ongoingTlc, hbefore.ongoingTlc]
  grants := by
    rw [hafter.grants, ← hbefore.grants]
    exact h.grants
  dSinks := hafter.dSinks.trans (h.dSinks.trans hbefore.dSinks)
  held := hbefore.held.symm.trans (h.held.trans (hafter.held.symm.cons hold))
  counted hcounted := hafter.counted (h.counted (hbefore.counted hcounted))

theorem runCallback_keepsSinks {limbo : Option ℕ} {callback : Callback}
    (hconsistent : s.probes.Consistent limbo) (hheld : callback.held = none)
    (h : runCallback cfg callback s = .ok s') : KeepsSinks cfg s s' := by
  cases callback with
  | accessAck burstLen burst size source =>
    obtain rfl := Except.ok.inj h
    refine KeepsSinks.of_push ?_ rfl rfl rfl rfl
    rw [grantMsgs_append, grantMsgs, List.filterMap_replicate_of_none rfl]
    rfl
  | accessAckData burstLen addr size source =>
    obtain rfl := Except.ok.inj h
    exact accessAckDataCb_keepsSinks burstLen addr size source s
  | arithmeticAck | logicalAck => exact absurd h (atomicAckCb_ne_ok _ s s')
  | grant => exact nomatch h
  | grantData => exact nomatch hheld
  | probeBlocksRec probeAddrs =>
    cases probeAddrs with
    | nil =>
      obtain rfl := Except.ok.inj h
      exact .of_eq rfl rfl rfl rfl
    | cons addr rest => exact .retrieveBlock hconsistent rfl h
  | enableProbe =>
    obtain rfl := Except.ok.inj h
    exact .of_eq rfl rfl rfl rfl

/-- Releasing a source leaves all continuations pending. -/
theorem releaseSource_keepsSinks {source : ℕ} {probes : Probes Callback}
    (hconsistent : s.probes.Consistent (some source))
    (h : s.probes.releaseSource source = .ok probes) :
    KeepsSinks cfg s { s with probes := probes } := by
  have hpending := hconsistent.perm_pending_releaseSource h
  exact {
    dSinks := rfl
    ongoingTlc := rfl
    grants := rfl
    held := hpending.filterMap Callback.held
    counted := fun hcounted callback hmem ↦ hcounted callback (hpending.subset hmem) }

/-- The continuation of an acknowledged source, taken out of the pending ones, runs to a state from
which only the release of the source is left. -/
theorem acknowledge_sinks {source : ℕ} (hconsistent : s.probes.Consistent none)
    (hcounted : ∀ callback ∈ s.probes.pending, callback.Counted cfg)
    (h : acknowledge cfg source s = .ok s') :
    KeepsSinks cfg s s' ∨ ∃ hold, Settles cfg hold s s' := by
  obtain ⟨hinit, hbusy, callback, s₁, probes, hregistered, hrun, hrelease, rfl⟩ :=
    acknowledge_eq_ok hconsistent h
  have hlimbo := hconsistent.unregister hinit hbusy
  have hpending := Probes.perm_pending_unregister hinit hregistered
  have hconsistent₁ : s₁.probes.Consistent (some source) :=
    hlimbo.of_requests (runCallback_effect hrun).1
  have hafter : KeepsSinks cfg s₁ { s₁ with probes := probes } :=
    releaseSource_keepsSinks hconsistent₁ hrelease
  have hfewer : ∀ other ∈ (s.probes.unregister source).pending, other ∈ s.probes.pending :=
    fun other hother ↦ hpending.symm.subset (List.mem_cons_of_mem callback hother)
  cases hheld : callback.held with
  | none =>
    left
    have hbefore : KeepsSinks cfg s { s with probes := s.probes.unregister source } := by
      refine ⟨rfl, rfl, rfl, ?_, fun hcounted other hother ↦ hcounted other (hfewer other hother)⟩
      have hfilter := hpending.filterMap Callback.held
      rw [List.filterMap_cons_none hheld] at hfilter
      exact hfilter.symm
    exact (hbefore.trans (runCallback_keepsSinks hlimbo hheld hrun)).trans hafter
  | some hold =>
    right
    cases callback with
    | accessAck | accessAckData | arithmeticAck | logicalAck | grant | probeBlocksRec
      | enableProbe => exact nomatch hheld
    | grantData burstLen addr param sink size source' blockAddr =>
      obtain rfl := Option.some.inj hheld
      obtain rfl := Except.ok.inj hrun
      have hlen : burstLen = cfg.burstLen size :=
        hcounted _ (hpending.symm.subset List.mem_cons_self)
      have hqueues := grantDataCb_queues hlen addr param sink source' blockAddr
        { s with probes := s.probes.unregister source }
      have hsettles : Settles cfg ⟨sink, size, source', blockAddr⟩ s
          (grantDataCb cfg burstLen addr param sink size source' blockAddr
            { s with probes := s.probes.unregister source }) := by
        refine ⟨⟨hqueues.ongoingTlc, hqueues.grants⟩, rfl, ?_, ?_⟩
        · have hfilter := hpending.filterMap Callback.held
          rwa [List.filterMap_cons_some hheld] at hfilter
        · exact fun hcounted other hother ↦ hcounted other (hfewer other hother)
      exact ⟨_, hsettles.frame (KeepsSinks.refl s) hafter⟩

theorem prune_keepsSinks (m : CMessage) (s : State) : KeepsSinks cfg s (prune cfg m s) := by
  obtain ⟨blockPerm, hprune⟩ := exists_prune_eq cfg m s
  rw [hprune]
  exact .of_eq rfl rfl rfl rfl

/-- A beat that lets `finish` run treats the sinks as `finish` does. -/
theorem cBeat_sinks {m : CMessage} {finish : State → Except PyError State}
    (hfinish : ∀ t t', KeepsSinks cfg s t → t.probes = s.probes → finish t = .ok t' →
      KeepsSinks cfg t t' ∨ ∃ hold, Settles cfg hold t t')
    (h : cBeat cfg finish m s = .ok s') :
    KeepsSinks cfg s s' ∨ ∃ hold, Settles cfg hold s s' := by
  by_cases hlast : s.cOngoings.getD m.source 0 + 1 = cfg.burstLen m.size
  · obtain ⟨blockPerm, hbeat⟩ := cBeat_of_last finish hlast
    rw [hbeat] at h
    obtain ⟨t, ht, h⟩ := bind_eq_ok.mp h
    have hbefore : KeepsSinks cfg s { s with
        memory := s.memory.set
          (cfg.addrAligned m.address + s.cOngoings.getD m.source 0 * cfg.dataLen) m.data
        blockPerm := blockPerm } := .of_eq rfl rfl rfl rfl
    have hafter : KeepsSinks cfg t s' := by
      obtain rfl := Except.ok.inj h
      split
      · exact .of_eq rfl rfl rfl rfl
      · exact KeepsSinks.refl t
    rcases hfinish _ t hbefore rfl ht with hkeeps | ⟨hold, hsettles⟩
    · exact Or.inl ((hbefore.trans hkeeps).trans hafter)
    · exact Or.inr ⟨hold, hsettles.frame hbefore hafter⟩
  · rw [cBeat_of_not_last finish hlast] at h
    obtain rfl := Except.ok.inj h
    exact Or.inl (.of_eq rfl rfl rfl rfl)

theorem cPortMonitor_sinks {m : CMessage} (hconsistent : s.probes.Consistent none)
    (hcounted : ∀ callback ∈ s.probes.pending, callback.Counted cfg)
    (h : cPortMonitor cfg m s = .ok s') :
    KeepsSinks cfg s s' ∨ ∃ hold, Settles cfg hold s s' := by
  unfold cPortMonitor at h
  obtain ⟨-, -, h⟩ := bind_eq_ok.mp h
  obtain ⟨-, -, h⟩ := bind_eq_ok.mp h
  have hacknowledge : ∀ t t', KeepsSinks cfg s t → t.probes = s.probes →
      acknowledge cfg m.source t = .ok t' →
        KeepsSinks cfg t t' ∨ ∃ hold, Settles cfg hold t t' := by
    intro t t' _ hprobes ht
    apply acknowledge_sinks _ _ ht
    · rw [hprobes]
      exact hconsistent
    · rw [hprobes]
      exact hcounted
  unfold cDispatch at h
  split at h
  case h_1 | h_2 | h_3 => exact nomatch h
  case h_4 =>
    obtain rfl := Except.ok.inj h
    exact Or.inl (KeepsSinks.refl s)
  case h_5 =>
    have hbefore : KeepsSinks cfg s (prune cfg m s) := prune_keepsSinks m s
    rcases hacknowledge _ s' hbefore (prune_frame cfg m s).1 h with hkeeps | ⟨hold, hsettles⟩
    · exact Or.inl (hbefore.trans hkeeps)
    · exact Or.inr ⟨hold, hsettles.frame hbefore (KeepsSinks.refl s')⟩
  case h_6 => exact cBeat_sinks hacknowledge h
  case h_7 =>
    obtain rfl := Except.ok.inj h
    exact Or.inl ((prune_keepsSinks m s).trans (.of_push rfl rfl rfl rfl rfl))
  case h_8 =>
    apply cBeat_sinks _ h
    intro t t' _ _ ht
    obtain rfl := Except.ok.inj ht
    exact Or.inl (.of_push rfl rfl rfl rfl rfl)

/-- The hold of an Acquire on its sink. -/
def Hold.of (cfg : Config) (acquire : ℕ × AMessage) : Hold where
  sink := acquire.1
  size := acquire.2.size
  source := acquire.2.source
  blockAddr := cfg.blockAddr acquire.2.address

theorem beats_grant (param : ℕ) (hold : Hold) :
    Beats cfg hold [{ opcode := .grant, param := param, size := hold.size, source := hold.source
                      sink := hold.sink }] := by
  refine ⟨List.cons_ne_nil _ _, ?_, ?_, ?_, ?_⟩
  all_goals
    intro m hm
    obtain rfl := List.mem_singleton.mp hm
  · rfl
  · rfl
  · exact ⟨rfl, rfl⟩
  · rfl

/-- An Acquire takes a free sink. Its Grant is queued at once or becomes pending. -/
structure Takes (cfg : Config) (hold : Hold) (s s' : State) : Prop where
  dSinks : s'.dSinks = s.dSinks.remove hold.sink
  counted : (∀ callback ∈ s.probes.pending, callback.Counted cfg) →
    ∀ callback ∈ s'.probes.pending, callback.Counted cfg
  grant : (s.perm hold.blockAddr = .tip ∧ Queues cfg hold s s' ∧
      s'.probes.pending = s.probes.pending) ∨
    s.perm hold.blockAddr ≠ .tip ∧ s'.ongoingTlc = s.ongoingTlc ∧ s'.dQueue = s.dQueue ∧
      (s'.probes.pending.filterMap Callback.held).Perm
        (hold :: s.probes.pending.filterMap Callback.held)

theorem takes_of_queues {m : AMessage} {sink : ℕ} {t : State}
    (htip : s.perm (cfg.blockAddr m.address) = .tip)
    (hdSinks : s'.dSinks = s.dSinks.remove sink) (hpending : s'.probes.pending = s.probes.pending)
    (hqueues : Queues cfg (.of cfg (sink, m)) t s') (htlc : t.ongoingTlc = s.ongoingTlc)
    (hqueue : t.dQueue = s.dQueue) : Takes cfg (.of cfg (sink, m)) s s' where
  dSinks := hdSinks
  counted hcounted := by rwa [hpending]
  grant := by
    refine Or.inl ⟨htip, ⟨htlc ▸ hqueues.ongoingTlc, ?_⟩, hpending⟩
    rw [← hqueue]
    exact hqueues.grants

/-- The sink that the next Acquire takes. -/
def nextSink (s : State) : Except PyError ℕ := do
  let (sink, _, _) ← s.dSinks.get s.probes.draws
  return sink

theorem nextSink_of_getSink {r : ℕ × State} (h : getSink s = .ok r) :
    ∃ sink ∈ s.dSinks.freeList, nextSink s = .ok sink ∧ r = (sink, withoutSink sink s) := by
  unfold getSink at h
  obtain ⟨r', hget, h⟩ := bind_eq_ok.mp h
  obtain ⟨sink, hsink, -, rfl⟩ := FreeList.get_eq_ok_iff.mp hget
  refine ⟨sink, hsink, ?_, (Except.ok.inj h).symm⟩
  rw [nextSink, hget]
  rfl

theorem aAcquireBlock_takes {m : AMessage} (hconsistent : s.probes.Consistent none)
    (h : aAcquireBlock cfg m s = .ok s') : ∃ sink ∈ s.dSinks.freeList,
      nextSink s = .ok sink ∧ Takes cfg (.of cfg (sink, m)) s s' := by
  unfold aAcquireBlock at h
  dsimp only at h
  obtain ⟨r, hget, h⟩ := bind_eq_ok.mp h
  obtain ⟨sink, hsink, hnext, rfl⟩ := nextSink_of_getSink hget
  refine ⟨sink, hsink, hnext, ?_⟩
  dsimp only at h
  split at h
  · next hperm =>
    obtain ⟨probes, hprobes, rfl⟩ := State.retrieveBlock_eq_ok.mp h
    have hframe : (withoutSink sink s).probes.Consistent none := hconsistent.frame rfl rfl
    have hpending := hframe.perm_pending_retrieveBlock hprobes
    refine ⟨rfl, fun hcounted callback hmem ↦ ?_, Or.inr ⟨hperm, rfl, rfl, ?_⟩⟩
    · rcases List.mem_cons.mp (hpending.subset hmem) with rfl | hold
      · exact rfl
      · exact hcounted callback hold
    · exact hpending.filterMap Callback.held
  · next hperm =>
    obtain rfl := Except.ok.inj h
    exact takes_of_queues (not_not.mp hperm) rfl rfl
      (grantDataCb_queues rfl _ _ sink _ _ (withoutSink sink s)) rfl rfl

theorem aAcquirePerm_takes {m : AMessage} (h : aAcquirePerm cfg m s = .ok s') :
    ∃ sink ∈ s.dSinks.freeList,
      nextSink s = .ok sink ∧ Takes cfg (.of cfg (sink, m)) s s' := by
  unfold aAcquirePerm at h
  dsimp only at h
  obtain ⟨r, hget, h⟩ := bind_eq_ok.mp h
  obtain ⟨sink, hsink, hnext, rfl⟩ := nextSink_of_getSink hget
  refine ⟨sink, hsink, hnext, ?_⟩
  dsimp only at h
  split at h
  · exact nomatch h
  · next hperm =>
    obtain rfl := Except.ok.inj h
    have hbeats : Beats cfg _ _ := beats_grant (grantParam m.param) (.of cfg (sink, m))
    apply takes_of_queues (t := withoutSink sink s)
    · exact not_not.mp hperm
    · rfl
    · rfl
    · exact ⟨rfl, _, hbeats, grantMsgs_append _ _⟩
    · rfl
    · rfl

/-- An Acquire that does not raise has taken the next sink. -/
theorem aPortMonitor_takes {m : AMessage} (hconsistent : s.probes.Consistent none)
    (hm : Acquires cfg m) (h : aPortMonitor cfg m s = .ok s') :
    ∃ sink ∈ s.dSinks.freeList, nextSink s = .ok sink ∧ Takes cfg (.of cfg (sink, m)) s s' := by
  have hdispatch : aDispatch cfg m (received cfg m s) = .ok s' := aPortMonitor_eq_ok h
  have hconsistent' : (received cfg m s).probes.Consistent none := hconsistent
  obtain ⟨hacquire, hprotocol⟩ := hm
  have htakes : ∃ sink ∈ s.dSinks.freeList,
      nextSink s = .ok sink ∧ Takes cfg (.of cfg (sink, m)) (received cfg m s) s' := by
    unfold aDispatch at hdispatch
    cases hop : m.opcode with
    | acquireBlock =>
      rw [hop] at hdispatch
      dsimp only at hdispatch
      rw [if_pos hprotocol] at hdispatch
      exact aAcquireBlock_takes hconsistent' hdispatch
    | acquirePerm =>
      rw [hop] at hdispatch
      dsimp only at hdispatch
      rw [if_pos hprotocol] at hdispatch
      exact aAcquirePerm_takes hdispatch
    | get | putFullData | putPartialData | arithmeticData | logicalData | intent =>
      rw [hop] at hacquire
      exact nomatch hacquire
  obtain ⟨sink, hsink, hnext, htakes⟩ := htakes
  refine ⟨sink, hsink, hnext, htakes.dSinks, htakes.counted, ?_⟩
  have hperm : (received cfg m s).perm (Hold.of cfg (sink, m)).blockAddr =
      s.perm (Hold.of cfg (sink, m)).blockAddr := perm_received s _
  rw [← hperm]
  exact htakes.grant.imp (fun h ↦ ⟨h.1, ⟨h.2.1.ongoingTlc, h.2.1.grants⟩, h.2.2⟩) id

theorem hostInterface_keepsSinks (hconsistent : s.probes.Consistent none)
    (h : hostInterface cfg s = .ok s') : KeepsSinks cfg s s' := by
  unfold hostInterface at h
  split at h
  · obtain ⟨-, -, h⟩ := bind_eq_ok.mp h
    split at h
    · obtain ⟨s₁, hs₁, h⟩ := bind_eq_ok.mp h
      obtain rfl := Except.ok.inj h
      have hbefore : KeepsSinks cfg s s₁ := .retrieveBlock hconsistent rfl hs₁
      exact hbefore.trans (.of_eq rfl rfl rfl rfl)
    · obtain rfl := Except.ok.inj h
      exact KeepsSinks.refl s
  · obtain rfl := Except.ok.inj h
    exact KeepsSinks.refl s

theorem dataRetriever_keepsSinks (hconsistent : s.probes.Consistent none)
    (h : dataRetriever cfg s = .ok s') : KeepsSinks cfg s s' := by
  unfold dataRetriever at h
  split at h
  · have hbefore : KeepsSinks cfg s { s with retrieved := true } := .of_eq rfl rfl rfl rfl
    apply hbefore.trans
    have hrun : runCallback cfg (.probeBlocksRec _) _ = .ok s' := h
    exact runCallback_keepsSinks hconsistent rfl hrun
  · obtain rfl := Except.ok.inj h
    exact KeepsSinks.refl s

theorem bPortDriver_keepsSinks (s : State) : KeepsSinks cfg s (bPortDriver s) := by
  unfold bPortDriver
  split
  · exact KeepsSinks.refl s
  · exact KeepsSinks.refl s
  · exact .of_eq rfl rfl rfl (Probes.pending_frame rfl rfl)

theorem runDCallback_sinks {callback : DCallback} (h : runDCallback callback s = .ok s') :
    s'.dSinks = s.dSinks ∧ s'.dQueue = s.dQueue := by
  cases callback with
  | updatePerm blockAddr param =>
    obtain rfl := Except.ok.inj h
    unfold updatePerm
    split <;> exact ⟨rfl, rfl⟩
  | updateMem burst =>
    change updateMem burst s = .ok s' at h
    unfold updateMem at h
    split at h
    · exact nomatch h
    · split at h
      · obtain rfl := Except.ok.inj h
        exact ⟨rfl, rfl⟩
      · exact nomatch h

/-- A pop takes one message from the queue, if any. -/
theorem dPortDriver_sinks (h : dPortDriver s = .ok s') : s'.dSinks = s.dSinks ∧
    grantMsgs s.dQueue = (taken s).toList.filter (isGrant ·.opcode) ++ grantMsgs s'.dQueue := by
  unfold dPortDriver at h
  unfold taken
  split at h
  · next hport =>
    obtain rfl := Except.ok.inj h
    rw [hport]
    exact ⟨rfl, rfl⟩
  · next hport hqueue =>
    obtain rfl := Except.ok.inj h
    rw [hport, hqueue]
    exact ⟨rfl, rfl⟩
  · next rest hport hqueue =>
    obtain rfl := Except.ok.inj h
    rw [hport, hqueue]
    exact ⟨rfl, rfl⟩
  · next m rest hport hqueue =>
    obtain rfl := Except.ok.inj h
    rw [hport, hqueue]
    exact ⟨rfl, grantMsgs_append [some (m, none)] rest⟩
  · next m callback rest hport hqueue =>
    obtain ⟨s₁, hs₁, h⟩ := bind_eq_ok.mp h
    obtain rfl := Except.ok.inj h
    obtain ⟨hsinks, hrest⟩ := runDCallback_sinks hs₁
    rw [hport, hqueue]
    refine ⟨hsinks, ?_⟩
    change grantMsgs ([some (m, some callback)] ++ rest) = _ ++ grantMsgs s₁.dQueue
    rw [grantMsgs_append, hrest]
    rfl

end ProcessorFuzz.TileLink.Adapter
