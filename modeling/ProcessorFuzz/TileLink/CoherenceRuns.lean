import ProcessorFuzz.TileLink.Coherence

/-!
# Coherence of runs

Every event keeps the invariant of the clients' copies, and what the invariant says of one step is
that the step is coherent. A run of protocol-abiding, careful clients is therefore coherent; a run
in which a block with a read-only copy is written need not be.
-/

namespace ProcessorFuzz.TileLink.Adapter

open Library Client

variable {cfg : Config} {s s' : State} {k k' : Caches}

section Acquires

variable {m : AMessage}

theorem pending_withoutSink (sink : ℕ) (s : State) :
    (withoutSink sink s).probes.pending = s.probes.pending :=
  Probes.pending_frame rfl rfl

/-- The conditions under which a client sends an Acquire, and what it then knows. -/
structure Acquiring (cfg : Config) (m : AMessage) (k k' : Caches) : Prop where
  fits : Fits cfg m.address m.size
  block_ne : Caches.Unacquired cfg k (cfg.blockAddr m.address)
  copies_eq : k'.copies = k.copies
  acquiring_eq : k'.acquiring = k.acquiring ++ [m]

/-- The Grant of an Acquire of a `TIP` block is queued at once, and that of another waits in a
continuation. -/
theorem Core.aAcquireBlock (h : Core cfg s k) (hacquiring : Acquiring cfg m k k')
    (hconsistent : s.probes.Consistent none) (hstep : aAcquireBlock cfg m s = .ok s') :
    Core cfg s' k' ∧ s'.aOngoings = s.aOngoings ∧ s'.cOngoings = s.cOngoings := by
  unfold Adapter.aAcquireBlock at hstep
  dsimp only at hstep
  obtain ⟨r, hget, hstep⟩ := bind_eq_ok.mp hstep
  obtain ⟨sink, -, rfl⟩ := getSink_eq_ok hget
  dsimp only at hstep
  split at hstep
  · obtain ⟨probes, hprobes, rfl⟩ := State.retrieveBlock_eq_ok.mp hstep
    have hconsistent' : (withoutSink sink s).probes.Consistent none :=
      hconsistent.frame rfl rfl
    have hrequest : probes.pending.Perm
        (grantCallback cfg m sink :: (withoutSink sink s).probes.pending) :=
      hconsistent'.perm_pending_retrieveBlock hprobes
    have hpending := pendingGrants_of_cons_grant hrequest rfl
    rw [pendingGrants_congr (pending_withoutSink sink s)] at hpending
    refine ⟨h.acquire (List.append_nil _).symm .nil (fun _ ↦ rfl) (fun callback hmem ↦ ?_) ?_
      (fun _ ↦ rfl) hacquiring.copies_eq hacquiring.acquiring_eq hacquiring.fits
      hacquiring.block_ne (List.forall_mem_nil _), rfl, rfl⟩
    · obtain rfl | hold := List.mem_cons.mp (hpending.subset hmem)
      · exact Or.inr ⟨sink, rfl⟩
      · exact Or.inl hold
    · exact hpending.filterMap pendingKey
  · next hperm =>
    obtain rfl := Except.ok.inj hstep
    rw [grantDataCb_eq]
    have htip : s.perm (cfg.blockAddr m.address) = .tip := not_not.mp hperm
    have hpending := pendingGrants_congr (pending_withoutSink sink s)
    have hkeys : acquireKey cfg m ::
        (pendingGrants (withoutSink sink s).probes).filterMap pendingKey =
          acquireKey cfg m :: (pendingGrants s.probes).filterMap pendingKey := by
      rw [hpending]
    refine ⟨h.acquire (rfl : _ = s.dQueue ++ grantDataEntries cfg m sink s.memory) ?_
      (fun addr ↦ getD_filled _ _ _ _) (fun callback hmem ↦ Or.inl ?_) ?_ (fun _ ↦ rfl)
      hacquiring.copies_eq hacquiring.acquiring_eq hacquiring.fits hacquiring.block_ne
      (fun key hkey ↦ ?_), rfl, rfl⟩
    · have hentries : GrantQueue cfg s.memory (k.acquiring ++ [m])
          (grantDataEntries cfg m sink s.memory ++ []) :=
        .grantData (List.mem_append_right _ List.mem_cons_self) sink .nil
      rw [List.append_nil] at hentries
      exact hentries.of_memory fun a _ _ i _ ↦ getD_filled _ _ _ _
    · exact hpending ▸ hmem
    · rw [filterMap_grantKey_grantData]
      exact List.Perm.of_eq hkeys
    · rw [filterMap_grantKey_grantData] at hkey
      rw [List.mem_singleton.mp hkey]
      exact h.copy_ne_trunk htip

theorem Core.aAcquirePerm (h : Core cfg s k) (hacquiring : Acquiring cfg m k k')
    (hstep : aAcquirePerm cfg m s = .ok s') :
    Core cfg s' k' ∧ s'.aOngoings = s.aOngoings ∧ s'.cOngoings = s.cOngoings := by
  unfold Adapter.aAcquirePerm at hstep
  dsimp only at hstep
  obtain ⟨r, hget, hstep⟩ := bind_eq_ok.mp hstep
  obtain ⟨sink, -, rfl⟩ := getSink_eq_ok hget
  dsimp only at hstep
  split at hstep
  · cases hstep
  · next hperm =>
    obtain rfl := Except.ok.inj hstep
    have htip : s.perm (cfg.blockAddr m.address) = .tip := not_not.mp hperm
    have hpending := pendingGrants_congr (pending_withoutSink sink s)
    have hkeys : acquireKey cfg m ::
        (pendingGrants (withoutSink sink s).probes).filterMap pendingKey =
          acquireKey cfg m :: (pendingGrants s.probes).filterMap pendingKey := by
      rw [hpending]
    refine ⟨h.acquire (rfl : _ = s.dQueue ++ [grantEntry cfg m sink]) ?_ (fun _ ↦ rfl)
      (fun callback hmem ↦ Or.inl (hpending ▸ hmem)) ?_ (fun _ ↦ rfl) hacquiring.copies_eq
      hacquiring.acquiring_eq hacquiring.fits hacquiring.block_ne (fun key hkey ↦ ?_), rfl, rfl⟩
    · exact .grant (List.mem_append_right _ List.mem_cons_self) sink .nil
    · exact List.Perm.of_eq hkeys
    · rw [List.mem_singleton.mp hkey]
      exact h.copy_ne_trunk htip

/-- The handler of an Acquire. -/
theorem Core.aDispatch (h : Core cfg s k) (hacquire : isAcquire m.opcode)
    (hacquiring : Acquiring cfg m k k') (hprotocol : cfg.protocol = tlC)
    (hconsistent : s.probes.Consistent none) (hstep : aDispatch cfg m s = .ok s') :
    Core cfg s' k' ∧ s'.aOngoings = s.aOngoings ∧ s'.cOngoings = s.cOngoings := by
  cases hop : m.opcode with
  | acquireBlock =>
    rw [aDispatch_acquireBlock hop hprotocol] at hstep
    exact h.aAcquireBlock hacquiring hconsistent hstep
  | acquirePerm =>
    rw [aDispatch_acquirePerm hop hprotocol] at hstep
    exact h.aAcquirePerm hacquiring hstep
  | get | putFullData | putPartialData | arithmeticData | logicalData | intent =>
    rw [hop] at hacquire
    cases hacquire

end Acquires

/-- A step that writes nothing keeps what is known about the copies. -/
theorem Core.idle (h : Core cfg s k) (hserved : Served (fun _ ↦ False) s s') : Core cfg s' k :=
  h.served hserved (fun _ _ _ _ _ ↦ not_false) rfl rfl

/-- A continuation that is no Grant. -/
theorem runCallback_served {limbo : Option ℕ} {callback : Callback}
    (hconsistent : s.probes.Consistent limbo) (hkey : pendingKey callback = none)
    (h : runCallback cfg callback s = .ok s') :
    Served (fun _ ↦ False) s s' ∧ s'.aOngoings = s.aOngoings := by
  cases callback with
  | accessAck burstLen burst size source =>
    obtain rfl := Except.ok.inj h
    refine ⟨served_push fun entry hentry ↦ ?_, rfl⟩
    obtain hbubble | hlast := List.mem_append.mp hentry
    · rw [List.eq_of_mem_replicate hbubble]
      rfl
    · rw [List.mem_singleton.mp hlast]
      rfl
  | accessAckData burstLen addr size source =>
    obtain rfl := Except.ok.inj h
    refine ⟨served_accessAckDataCb burstLen addr size source, ?_⟩
    rw [accessAckDataCb_eq]
    rfl
  | arithmeticAck | logicalAck => exact absurd h (atomicAckCb_ne_ok _ s s')
  | grant => cases h
  | grantData => cases hkey
  | enableProbe =>
    obtain rfl := Except.ok.inj h
    exact ⟨served_of_eq rfl rfl (List.Perm.refl _) rfl rfl, rfl⟩
  | probeBlocksRec probeAddrs =>
    cases probeAddrs with
    | nil =>
      obtain rfl := Except.ok.inj h
      exact ⟨served_of_eq rfl rfl (List.Perm.refl _) rfl rfl, rfl⟩
    | cons addr rest => exact served_retrieveBlock hconsistent rfl h

/-- A continuation that is a Grant is the one of some Acquire, and queues its messages. -/
theorem Core.runGrant (h : Core cfg s k) {callback : Callback} {key : ℕ × ℕ}
    (hkey : pendingKey callback = some key) (hcopy : ∀ source, k.copy source key.2 ≠ .trunk)
    {probes : Probes Callback}
    (hpending : s.probes.pending.Perm (callback :: probes.pending))
    (hrun : runCallback cfg callback { s with probes := probes } = .ok s') :
    Core cfg s' k ∧ s'.aOngoings = s.aOngoings ∧ s'.cOngoings = s.cOngoings ∧
      s'.probes = probes := by
  have hgrants := pendingGrants_of_cons_grant hpending hkey
  obtain ⟨a, ha, sink, rfl⟩ := h.pending callback (hgrants.symm.subset List.mem_cons_self)
  obtain rfl := Option.some.inj hkey
  obtain rfl := Except.ok.inj hrun
  rw [grantDataCb_eq]
  refine ⟨h.settle ha hcopy ?_ (fun addr ↦ getD_filled _ _ _ _) hgrants fun _ ↦ rfl,
    rfl, rfl, rfl⟩
  unfold grantDataEntries
  dsimp only [State.push]
  rw [burst_congr fun addr ↦ getD_filled _ _ addr s.memory]

theorem mem_waitingGrant {source : ℕ} {callback : Callback} {key : ℕ × ℕ}
    (hregistered : s.probes.registered source = some callback)
    (hkey : pendingKey callback = some key) : key.2 ∈ waitingGrant s source := by
  unfold waitingGrant
  rw [hregistered]
  cases callback with
  | grantData =>
    obtain rfl := Option.some.inj hkey
    rfl
  | accessAck | accessAckData | arithmeticAck | logicalAck | grant | enableProbe
  | probeBlocksRec => cases hkey

/-- The acknowledgement of a probe runs its continuation and issues a waiting probe. -/
theorem Core.acknowledge (h : Core cfg s k) (hconsistent : s.probes.Consistent none)
    {source : ℕ} (hcopy : ∀ blockAddr ∈ waitingGrant s source, ∀ source',
      k.copy source' blockAddr ≠ .trunk) (hack : acknowledge cfg source s = .ok s') :
    Core cfg s' k ∧ s'.aOngoings = s.aOngoings ∧ s'.cOngoings = s.cOngoings := by
  obtain ⟨hinit, hbusy, callback, s₁, probes, hregistered, hrun, hrelease, rfl⟩ :=
    acknowledge_eq_ok hconsistent hack
  have hlimbo := hconsistent.unregister hinit hbusy
  have hunregister := Probes.perm_pending_unregister hinit hregistered
  have hran : Core cfg s₁ k ∧ s₁.aOngoings = s.aOngoings ∧ s₁.cOngoings = s.cOngoings ∧
      s₁.probes.Consistent (some source) := by
    obtain ⟨hrequests, -⟩ := runCallback_effect hrun
    have hconsistent₁ := hlimbo.of_requests hrequests
    cases hkey : pendingKey callback with
    | none =>
      have hgrants := (pendingGrants_of_cons_other hunregister hkey).symm
      have hcore : Core cfg { s with probes := s.probes.unregister source } k :=
        h.idle (served_of_eq rfl rfl hgrants rfl rfl)
      obtain ⟨hserved, hongoings⟩ := runCallback_served hlimbo hkey hrun
      exact ⟨hcore.idle hserved, hongoings, hserved.cOngoings, hconsistent₁⟩
    | some key =>
      have hwaiting : key.2 ∈ waitingGrant s source :=
        mem_waitingGrant hregistered hkey
      obtain ⟨hcore, hongoings, hcOngoings, -⟩ :=
        h.runGrant hkey (hcopy key.2 hwaiting) hunregister hrun
      exact ⟨hcore, hongoings, hcOngoings, hconsistent₁⟩
  obtain ⟨hcore, hongoings, hcOngoings, hconsistent₁⟩ := hran
  have hgrants := (hconsistent₁.perm_pending_releaseSource hrelease).filter
    fun callback ↦ (pendingKey callback).isSome
  exact ⟨hcore.idle (served_of_eq rfl rfl hgrants rfl rfl), hongoings, hcOngoings⟩

/-- The adapter counts the messages of a put that finds its block `TIP`, and no others. -/
def PutMatches (cfg : Config) (aOngoings : Dict ℕ ℕ) (k : Caches) : Prop :=
  if k.direct then
    BurstMatches (fun m : AMessage ↦ hasBurst m.opcode) (cfg.burstLen ·.size) (·.source) aOngoings
      k.aBurst
  else aOngoings = Dict.empty ∧ ∀ first count, k.aBurst = some (first, count) →
    hasBurst first.opcode = true

structure Inv (cfg : Config) (s : State) (k : Caches) : Prop where
  simulated : Simulated s
  core : Core cfg s k
  aBurst : PutMatches cfg s.aOngoings k
  cBurst : BurstMatches (fun m : CMessage ↦ isCBurst m.opcode) (cfg.burstLen ·.size) (·.source)
    s.cOngoings k.cBurst

/-- A step outside the A and the C channel leaves the bursts alone. -/
theorem Inv.idle (h : Inv cfg s k) (hsimulated : Simulated s')
    (hserved : Served (fun _ ↦ False) s s') (hongoings : s'.aOngoings = s.aOngoings) :
    Inv cfg s' k where
  simulated := hsimulated
  core := h.core.idle hserved
  aBurst := hongoings ▸ h.aBurst
  cBurst := hserved.cOngoings ▸ h.cBurst

section Puts

variable {aOngoings : Dict ℕ ℕ} {m : AMessage}

/-- Only puts have unfinished bursts. -/
theorem PutMatches.hasBurst_first (h : PutMatches cfg aOngoings k) {first : AMessage} {count : ℕ}
    (heq : k.aBurst = some (first, count)) : hasBurst first.opcode = true := by
  unfold PutMatches at h
  split at h
  · rw [heq] at h
    exact h.1
  · exact h.2 first count heq

theorem PutMatches.aBurst_eq_none (h : PutMatches cfg aOngoings k)
    (hcontinues : ∀ first count, k.aBurst = some (first, count) → ContinuesA first m)
    (hburst : hasBurst m.opcode = false) : k.aBurst = none := by
  cases haBurst : k.aBurst with
  | none => rfl
  | some entry =>
    obtain ⟨first, count⟩ := entry
    rw [(hcontinues first count haBurst).same.1, h.hasBurst_first haBurst] at hburst
    cases hburst

/-- Between bursts the adapter counts nothing. -/
theorem PutMatches.empty_of_none (h : PutMatches cfg aOngoings k) (hnone : k.aBurst = none) :
    aOngoings = Dict.empty := by
  unfold PutMatches at h
  split at h
  · rwa [hnone] at h
  · exact h.1

theorem putMatches_of_empty (hempty : aOngoings = Dict.empty) (hnone : k.aBurst = none) :
    PutMatches cfg aOngoings k := by
  unfold PutMatches
  rw [hnone]
  split
  · exact hempty
  · exact ⟨hempty, fun _ _ heq ↦ absurd heq (Option.some_ne_none _).symm⟩

theorem PutMatches.count_lt (h : PutMatches cfg aOngoings k)
    (hcontinues : ∀ first count, k.aBurst = some (first, count) → ContinuesA first m) :
    aOngoings.getD m.source 0 < cfg.burstLen m.size := by
  unfold PutMatches at h
  split at h
  · have hcount := (h.count_eq m fun first count heq ↦
      (hcontinues first count heq).same.2.1).1
    rw [hcount]
    cases haBurst : k.aBurst with
    | none => exact cfg.burstLen_pos m.size
    | some entry =>
      obtain ⟨first, count⟩ := entry
      rw [haBurst] at h
      rw [(hcontinues first count haBurst).same.2.2]
      exact h.2.2.1
  · rw [h.1]
    exact cfg.burstLen_pos m.size

theorem aOngoings_putDirect (m : AMessage) (s : State) : (putDirect cfg m s).aOngoings =
    if s.aOngoings.getD m.source 0 + 1 = cfg.burstLen m.size then
      if s.aOngoings.getD m.source 0 ≠ 0 then s.aOngoings.erase m.source else s.aOngoings
    else s.aOngoings.set m.source (s.aOngoings.getD m.source 0 + 1) := by
  split
  · next hlast => rw [putDirect_of_last hlast]
  · next hlast => rw [putDirect_of_not_last hlast]

/-- A message of a put that the adapter counts. -/
theorem PutMatches.advance_direct (h : PutMatches cfg aOngoings k)
    (hcontinues : ∀ first count, k.aBurst = some (first, count) → ContinuesA first m)
    (hburst : hasBurst m.opcode = true) (hdirect : k.aBurst.isSome → k.direct = true) :
    BurstMatches (fun m : AMessage ↦ hasBurst m.opcode) (cfg.burstLen ·.size) (·.source)
      (if aOngoings.getD m.source 0 + 1 = cfg.burstLen m.size then
        if aOngoings.getD m.source 0 ≠ 0 then aOngoings.erase m.source else aOngoings
      else aOngoings.set m.source (aOngoings.getD m.source 0 + 1))
      (advance m (cfg.burstLen m.size) k.aBurst) := by
  have hmatches : BurstMatches (fun m : AMessage ↦ hasBurst m.opcode) (cfg.burstLen ·.size)
      (·.source) aOngoings k.aBurst := by
    cases haBurst : k.aBurst with
    | none => exact h.empty_of_none haBurst
    | some entry =>
      unfold PutMatches at h
      rwa [if_pos (hdirect (by rw [haBurst]; rfl)), haBurst] at h
  refine hmatches.advance (fun first count heq ↦ ?_) (cfg.burstLen_pos m.size) hburst
  obtain ⟨-, hsource, hsize⟩ := (hcontinues first count heq).same
  exact ⟨hsource, congrArg cfg.burstLen hsize⟩

theorem advance_eq_some {μ : Type} {m m' : μ} {burstLen count : ℕ} {current : Option (μ × ℕ)}
    (h : advance m burstLen current = some (m', count)) : m' = m := by
  unfold advance at h
  dsimp only at h
  split at h
  · cases h
  · exact (congrArg Prod.fst (Option.some.inj h)).symm

end Puts

/-- The words that an A message writes are not those that an Acquire waits for. -/
theorem Inv.not_written (h : Inv cfg s k) (hcfg : cfg.Geometric) {m : AMessage}
    (hlegal : Caches.LegalA cfg m k) (hcareful : Caches.Careful cfg s k (.a m)) {a : AMessage}
    (ha : a ∈ k.acquiring) {i : ℕ} (hi : i < cfg.burstLen a.size) :
    ¬(isWrite m.opcode ∧ s.perm (cfg.blockAddr m.address) = .tip ∧
      cfg.addrAligned a.address + i * cfg.dataLen =
        cfg.addrAligned m.address + s.aOngoings.getD m.source 0 * cfg.dataLen) := by
  rintro ⟨hwrite, htip, heq⟩
  exact word_ne_of_blockAddr_ne hcfg (h.core.fits a ha) hlegal.fits hi
    (h.aBurst.count_lt hlegal.continues) ((hcareful.2.1 hwrite htip).1 a ha) heq

theorem acquiring_of_careful {m : AMessage} (hlegal : Caches.LegalA cfg m k)
    (hcareful : Caches.Careful cfg s k (.a m)) (hacquire : isAcquire m.opcode) :
    Acquiring cfg m k (Caches.sendA cfg m s k) :=
  ⟨hlegal.fits, hcareful.1 hacquire, rfl, if_pos hacquire⟩

theorem Inv.a (h : Inv cfg s k) (hcfg : cfg.Geometric) (hprotocol : cfg.protocol = tlC)
    {m : AMessage} (hlegal : Caches.LegalA cfg m k) (hcareful : Caches.Careful cfg s k (.a m))
    (hdrive : s.drive = true) (hstep : step cfg s (.a m) = .ok s') :
    Inv cfg s' (Caches.sendA cfg m s k) := by
  have hsimulated := h.simulated.step hstep
  have hconsistent := h.simulated.consistent
  unfold step at hstep
  dsimp only at hstep
  rw [if_pos hdrive] at hstep
  have hdispatch : aDispatch cfg m (received cfg m s) = .ok s' := aPortMonitor_eq_ok hstep
  have hreceived : Core cfg (received cfg m s) k :=
    h.core.frame (List.append_nil _).symm (List.forall_mem_nil _) (fun _ _ _ _ _ ↦ rfl)
      (List.Perm.refl _) (perm_received s) rfl rfl
  cases hacquire : isAcquire m.opcode with
  | true =>
    have hacquiring := acquiring_of_careful hlegal hcareful hacquire
    obtain ⟨hcore, hongoings, hcOngoings⟩ :=
      hreceived.aDispatch hacquire hacquiring hprotocol hconsistent hdispatch
    have hburst : hasBurst m.opcode = false := by
      cases hop : m.opcode <;> rw [hop] at hacquire <;> first | rfl | cases hacquire
    have hnone := h.aBurst.aBurst_eq_none hlegal.continues hburst
    refine ⟨hsimulated, hcore, ?_, hcOngoings ▸ h.cBurst⟩
    exact putMatches_of_empty (hongoings.trans (h.aBurst.empty_of_none hnone))
      (if_neg (by rw [hburst]; exact Bool.false_ne_true))
  | false =>
    obtain ⟨hserved, hdirect, hongoings⟩ :=
      aDispatch_served (s := received cfg m s) hacquire hconsistent hdispatch
    rw [perm_received] at hserved hdirect hongoings
    have hcore : Core cfg s' (Caches.sendA cfg m s k) := by
      refine hreceived.served hserved
        (fun a ha _ i hi ↦ h.not_written hcfg hlegal hcareful ha hi) rfl ?_
      unfold Caches.sendA
      rw [hacquire]
      rfl
    refine ⟨hsimulated, hcore, ?_, hserved.cOngoings ▸ h.cBurst⟩
    cases hburst : hasBurst m.opcode with
    | false =>
      have hnone := h.aBurst.aBurst_eq_none hlegal.continues hburst
      exact putMatches_of_empty ((hongoings (Or.inl hburst)).trans (h.aBurst.empty_of_none hnone))
        (if_neg (by rw [hburst]; exact Bool.false_ne_true))
    | true =>
      have hsend : (Caches.sendA cfg m s k).aBurst =
          advance m (cfg.burstLen m.size) k.aBurst := if_pos hburst
      -- whether the messages of this put find the block `TIP`
      have hsendDirect : (Caches.sendA cfg m s k).direct = true ↔
          s.perm (cfg.blockAddr m.address) = .tip := by
        unfold Caches.sendA
        dsimp only
        cases haBurst : k.aBurst with
        | none => exact decide_eq_true_iff
        | some entry => exact (hcareful.2.2 (by rw [haBurst]; rfl)).symm
      unfold PutMatches
      rw [hsend]
      split
      · next hdirect' =>
        have htip := hsendDirect.mp hdirect'
        rw [hdirect hburst htip, aOngoings_putDirect]
        exact h.aBurst.advance_direct hlegal.continues hburst fun hsome ↦
          (hcareful.2.2 hsome).mp htip
      · next hdirect' =>
        have htip : s.perm (cfg.blockAddr m.address) ≠ .tip := fun htip ↦
          hdirect' (hsendDirect.mpr htip)
        refine ⟨(hongoings (Or.inr htip)).trans ?_, fun first count heq ↦ ?_⟩
        · cases haBurst : k.aBurst with
          | none => exact h.aBurst.empty_of_none haBurst
          | some entry =>
            have hmatches := h.aBurst
            have hnot : ¬k.direct = true := fun hk ↦
              htip ((hcareful.2.2 (by rw [haBurst]; rfl)).mpr hk)
            unfold PutMatches at hmatches
            rw [if_neg hnot] at hmatches
            exact hmatches.1
        · rw [advance_eq_some heq]
          exact hburst

theorem cPortMonitor_eq_ok {m : CMessage} (h : cPortMonitor cfg m s = .ok s') :
    cDispatch cfg m s = .ok s' := by
  unfold cPortMonitor at h
  obtain ⟨-, -, h⟩ := bind_eq_ok.mp h
  obtain ⟨-, -, h⟩ := bind_eq_ok.mp h
  exact h

/-- The end of a C message, after the permission has been updated, keeps what is known about the
copies and leaves the bursts alone, unless somebody can write the block that it grants. -/
structure Completes (cfg : Config) (granted : State → Option ℕ)
    (finish : State → Except PyError State) : Prop where
  granted_congr : ∀ {t t' : State}, t'.probes = t.probes → granted t' = granted t
  keeps : ∀ {t t' : State} {k : Caches}, Core cfg t k → t.probes.Consistent none →
    (∀ blockAddr ∈ granted t, ∀ source, k.copy source blockAddr ≠ .trunk) → finish t = .ok t' →
    Core cfg t' k ∧ t'.aOngoings = t.aOngoings ∧ t'.cOngoings = t.cOngoings

theorem completes_acknowledge (cfg : Config) (source : ℕ) :
    Completes cfg (waitingGrant · source) (acknowledge cfg source) where
  granted_congr h := by
    unfold waitingGrant
    rw [h]
  keeps hcore hconsistent hcopy hack := hcore.acknowledge hconsistent hcopy hack

theorem completes_releaseAck (cfg : Config) (m : CMessage) :
    Completes cfg (fun _ ↦ none) fun s ↦ .ok (releaseAck m s) where
  granted_congr _ := rfl
  keeps hcore _ _ h := by
    obtain rfl := Except.ok.inj h
    exact ⟨hcore.idle (served_push fun entry hentry ↦ by rw [List.mem_singleton.mp hentry]; rfl),
      rfl, rfl⟩

/-- The last message of a Release or of a probe answer changes the copy. -/
theorem Caches.sendC_of_last {m : CMessage}
    (h : (if isCBurst m.opcode then advance m (cfg.burstLen m.size) k.cBurst else none) = none) :
    Caches.sendC cfg m k = ({ k with cBurst := none } : Caches).setCopy m.source
      (cfg.blockAddr m.address) (Copy.kept m.param) := by
  unfold Caches.sendC
  rw [h]
  rfl

section CMessages

variable {m : CMessage} {granted : State → Option ℕ} {finish : State → Except PyError State}

theorem Inv.cBurst_eq_none (h : Inv cfg s k) (hlegal : Caches.LegalC cfg m s k)
    (hburst : isCBurst m.opcode = false) : k.cBurst = none := by
  cases hcBurst : k.cBurst with
  | none => rfl
  | some entry =>
    obtain ⟨first, count⟩ := entry
    have hmatches := h.cBurst
    rw [hcBurst] at hmatches
    have hfirst : isCBurst first.opcode = true := hmatches.1
    rw [(hlegal.continues first count hcBurst).same.1, hfirst] at hburst
    cases hburst

/-- The count of a C burst is the client's and is below the length of the burst. -/
theorem Inv.cCount (h : Inv cfg s k) (hlegal : Caches.LegalC cfg m s k) :
    s.cOngoings.getD m.source 0 = (k.cBurst.map Prod.snd).getD 0 ∧
      s.cOngoings.getD m.source 0 < cfg.burstLen m.size := by
  have hmatches := h.cBurst
  have hcount := (hmatches.count_eq m fun first count heq ↦
    (hlegal.continues first count heq).same.2.1).1
  refine ⟨hcount, ?_⟩
  rw [hcount]
  cases hcBurst : k.cBurst with
  | none => exact cfg.burstLen_pos m.size
  | some entry =>
    obtain ⟨first, count⟩ := entry
    rw [hcBurst] at hmatches
    rw [(hlegal.continues first count hcBurst).same.2.2]
    exact hmatches.2.2.1

/-- A beat writes a word of a block that the client may write, for which no Grant is queued. -/
theorem Inv.cWrite (h : Inv cfg s k) (hcfg : cfg.Geometric) (hlegal : Caches.LegalC cfg m s k)
    (hburst : isCBurst m.opcode = true) :
    Core cfg (s.write
      (cfg.addrAligned m.address + s.cOngoings.getD m.source 0 * cfg.dataLen) m.data) k := by
  let addr := cfg.addrAligned m.address + s.cOngoings.getD m.source 0 * cfg.dataLen
  have hserved : Served (· = addr) s (s.write addr m.data) :=
    served_write (List.append_nil _).symm (List.forall_mem_nil _) rfl rfl rfl rfl
  refine h.core.served hserved (fun a ha hkey i hi ↦ ?_) rfl rfl
  refine word_ne_of_blockAddr_ne hcfg (h.core.fits a ha) hlegal.fits hi (h.cCount hlegal).2 ?_
  intro hblock
  have htrunk := hlegal.data hburst
  rw [← hblock] at htrunk
  exact h.core.apart (acquireKey cfg a) hkey m.source htrunk

/-- The last message of a Release or of a probe answer. -/
theorem Core.pruneComplete (h : Core cfg s k) (hconsistent : s.probes.Consistent none)
    (hreported : Copy.reported m.param = k.copy m.source (cfg.blockAddr m.address))
    (hgranted : ∀ blockAddr ∈ granted s, ∀ source,
      (k.setCopy m.source (cfg.blockAddr m.address) (Copy.kept m.param)).copy source blockAddr ≠
        .trunk)
    (hfinish : Completes cfg granted finish) (hstep : finish (Adapter.prune cfg m s) = .ok s') :
    Core cfg s' (k.setCopy m.source (cfg.blockAddr m.address) (Copy.kept m.param)) ∧
      s'.aOngoings = s.aOngoings ∧ s'.cOngoings = s.cOngoings := by
  have hprobes := (prune_frame cfg m s).1
  rw [← hfinish.granted_congr hprobes] at hgranted
  obtain ⟨hcore, haOngoings, hcOngoings⟩ :=
    hfinish.keeps (h.prune hreported) (hprobes ▸ hconsistent) hgranted hstep
  have hframe : (Adapter.prune cfg m s).aOngoings = s.aOngoings ∧
      (Adapter.prune cfg m s).cOngoings = s.cOngoings := by
    unfold Adapter.prune
    split <;> exact ⟨rfl, rfl⟩
  exact ⟨hcore, haOngoings.trans hframe.1, hcOngoings.trans hframe.2⟩

/-- A beat keeps the invariant if the end of the message does. -/
theorem Inv.cBeat (h : Inv cfg s k) (hcfg : cfg.Geometric) (hlegal : Caches.LegalC cfg m s k)
    (hcareful : Caches.Releases cfg m (granted s) k) (hburst : isCBurst m.opcode = true)
    (hfinish : Completes cfg granted finish) (hsimulated : Simulated s')
    (hbeat : cBeat cfg finish m s = .ok s') : Inv cfg s' (Caches.sendC cfg m k) := by
  have hwritten := h.cWrite hcfg hlegal hburst
  have hcount := (h.cCount hlegal).1
  have hadvance := h.cBurst.advance (m := m) (fun first count heq ↦ by
    obtain ⟨-, hsource, hsize⟩ := (hlegal.continues first count heq).same
    exact ⟨hsource, congrArg cfg.burstLen hsize⟩) (cfg.burstLen_pos m.size) hburst
  by_cases hlast : s.cOngoings.getD m.source 0 + 1 = cfg.burstLen m.size
  · have hnone : advance m (cfg.burstLen m.size) k.cBurst = none := by
      unfold advance
      rw [← hcount]
      exact if_pos hlast
    rw [if_pos hlast, hnone] at hadvance
    have hsend := @Caches.sendC_of_last cfg k m (by rw [hnone, ite_self])
    unfold Caches.Releases at hcareful
    rw [hsend] at hcareful ⊢
    rw [cBeat_of_last_eq finish hlast] at hbeat
    obtain ⟨t, ht, hbeat⟩ := bind_eq_ok.mp hbeat
    have hgranted : granted (s.write
        (cfg.addrAligned m.address + s.cOngoings.getD m.source 0 * cfg.dataLen) m.data) =
          granted s := hfinish.granted_congr rfl
    obtain ⟨hcore, haOngoings, hcOngoings⟩ := hwritten.pruneComplete h.simulated.consistent
      hlegal.reported (hgranted ▸ hcareful rfl) hfinish ht
    have hs' : s' = { t with
        cOngoings := if s.cOngoings.getD m.source 0 ≠ 0 then t.cOngoings.erase m.source
          else t.cOngoings } := by
      rw [← Except.ok.inj hbeat]
      split <;> rfl
    have hcOngoings' : t.cOngoings = s.cOngoings := hcOngoings
    rw [hcOngoings'] at hs'
    subst hs'
    refine ⟨hsimulated, ?_, haOngoings ▸ h.aBurst, hadvance⟩
    exact hcore.same rfl rfl rfl rfl rfl rfl
  · have hsome : (advance m (cfg.burstLen m.size) k.cBurst).isNone = false := by
      unfold advance
      rw [← hcount]
      dsimp only
      rw [if_neg hlast]
      rfl
    rw [cBeat_of_not_last finish hlast] at hbeat
    obtain rfl := Except.ok.inj hbeat
    rw [if_neg hlast] at hadvance
    unfold Caches.sendC
    dsimp only
    rw [if_pos hburst, hsome]
    refine ⟨hsimulated, ?_, h.aBurst, hadvance⟩
    exact hwritten.same rfl rfl rfl rfl rfl rfl

theorem Inv.c (h : Inv cfg s k) (hcfg : cfg.Geometric) (hlegal : Caches.LegalC cfg m s k)
    (hcareful : Caches.Careful cfg s k (.c m)) (hdrive : s.drive = true)
    (hstep : step cfg s (.c m) = .ok s') : Inv cfg s' (Caches.sendC cfg m k) := by
  have hsimulated := h.simulated.step hstep
  have hsingle (hburst : isCBurst m.opcode = false) {granted : State → Option ℕ}
      {finish : State → Except PyError State} (hreleases : Caches.Releases cfg m (granted s) k)
      (hfinish : Completes cfg granted finish) (hend : finish (prune cfg m s) = .ok s') :
      Inv cfg s' (Caches.sendC cfg m k) := by
    have hsend := @Caches.sendC_of_last cfg k m
      (if_neg (by rw [hburst]; exact Bool.false_ne_true))
    unfold Caches.Releases at hreleases
    rw [hsend] at hreleases ⊢
    obtain ⟨hcore, haOngoings, hcOngoings⟩ := h.core.pruneComplete h.simulated.consistent
      hlegal.reported (hreleases rfl) hfinish hend
    have hnone := h.cBurst_eq_none hlegal hburst
    have hmatches := h.cBurst
    rw [hnone] at hmatches
    refine ⟨hsimulated, ?_, haOngoings ▸ h.aBurst, hcOngoings ▸ hmatches⟩
    exact hcore.same rfl rfl rfl rfl rfl rfl
  -- a Release grants nothing
  have hnone : Caches.Releases cfg m none k := by
    rintro - blockAddr hmem
    cases hmem
  unfold step at hstep
  dsimp only at hstep
  rw [if_pos hdrive] at hstep
  have hdispatch := cPortMonitor_eq_ok hstep
  unfold cDispatch at hdispatch
  cases hop : m.opcode with
  | probeAck =>
    rw [hop] at hdispatch
    exact hsingle (by rw [hop]; rfl) (hcareful (by rw [hop]; decide))
      (completes_acknowledge cfg m.source) hdispatch
  | probeAckData =>
    rw [hop] at hdispatch
    exact h.cBeat hcfg hlegal (hcareful (by rw [hop]; decide)) (by rw [hop]; rfl)
      (completes_acknowledge cfg m.source) hsimulated hdispatch
  | release =>
    rw [hop] at hdispatch
    exact hsingle (by rw [hop]; rfl) hnone (completes_releaseAck cfg m) hdispatch
  | releaseData =>
    rw [hop] at hdispatch
    exact h.cBeat hcfg hlegal hnone (by rw [hop]; rfl) (completes_releaseAck cfg m) hsimulated
      hdispatch
  | accessAck | accessAckData | hintAck | reserved =>
    have hmem := hlegal.opcode
    rw [hop] at hmem
    exact absurd hmem (by decide)

end CMessages

/-- An entry that begins no Grant leaves the queue. -/
theorem Core.pop (h : Core cfg s k) {entry : DEntry} {rest : List DEntry}
    (hqueue : s.dQueue = entry :: rest) (hentry : grantKey entry = none) :
    Core cfg { s with dQueue := rest } k := by
  have hold := h.queue
  have houtstanding := h.outstanding
  have hapart := h.apart
  rw [hqueue] at hold houtstanding hapart
  rw [List.filterMap_cons_none hentry] at houtstanding hapart
  exact ⟨hold.of_cons.1, h.pending, houtstanding, h.nodup, h.fits, h.trunk, h.single, hapart⟩

theorem Core.setPort (h : Core cfg s k) (dPort : Option DMessage) :
    Core cfg { s with dPort := dPort } k :=
  ⟨h.queue, h.pending, h.outstanding, h.nodup, h.fits, h.trunk, h.single, h.apart⟩

/-- The Grant that a pop delivers answers an Acquire. -/
theorem Core.delivered (h : Core cfg s k) {m : DMessage} {blockAddr param : ℕ} {rest : List DEntry}
    (hqueue : s.dQueue = some (m, some (.updatePerm blockAddr param)) :: rest) :
    GrantQueue cfg s.memory k.acquiring rest ∧
      ∃ a ∈ k.acquiring, blockAddr = cfg.blockAddr a.address ∧ param = grantParam a.param ∧
        m.source = a.source ∧
        (m.opcode = .grantData → (s.dQueue.take (cfg.burstLen a.size)).map (Option.map Prod.fst) =
          (burst cfg m (cfg.burstLen a.size) (cfg.addrAligned a.address) s.memory).map some) := by
  have hold := h.queue
  rw [hqueue] at hold
  obtain ⟨hrest, hnone | ⟨a, ha, m', heq, hsource, hburst⟩⟩ := hold.of_cons
  · cases hnone
  · obtain ⟨rfl, hcallback⟩ := Prod.mk.inj (Option.some.inj heq)
    obtain ⟨rfl, rfl⟩ := DCallback.updatePerm.inj (Option.some.inj hcallback)
    rw [← hqueue] at hburst
    exact ⟨hrest, a, ha, rfl, rfl, hsource, hburst⟩

theorem Inv.dPop (h : Inv cfg s k) (hdrive : s.drive = true) (hstep : step cfg s .dPop = .ok s') :
    Inv cfg s' (Caches.react cfg s k .dPop) := by
  have hsimulated := h.simulated.step hstep
  unfold Caches.react
  dsimp only
  rw [if_pos hdrive]
  unfold step at hstep
  dsimp only at hstep
  rw [if_pos hdrive] at hstep
  unfold dPortDriver at hstep
  unfold Adapter.delivered
  cases hport : s.dPort with
  | some m =>
    rw [hport] at hstep
    obtain rfl := Except.ok.inj hstep
    exact h
  | none =>
    rw [hport] at hstep
    match hqueue : s.dQueue with
    | [] =>
      rw [hqueue] at hstep
      obtain rfl := Except.ok.inj hstep
      exact h
    | none :: rest =>
      rw [hqueue] at hstep
      obtain rfl := Except.ok.inj hstep
      exact ⟨hsimulated, (h.core.pop hqueue rfl).setPort none, h.aBurst, h.cBurst⟩
    | some (m, none) :: rest =>
      rw [hqueue] at hstep
      obtain rfl := Except.ok.inj hstep
      exact ⟨hsimulated, (h.core.pop hqueue rfl).setPort (some m), h.aBurst, h.cBurst⟩
    | some (m, some (.updateMem burst)) :: rest =>
      rw [hqueue] at hstep
      obtain ⟨t, ht, hstep⟩ := bind_eq_ok.mp hstep
      obtain rfl := Except.ok.inj hstep
      have hsame : t = { s with dQueue := rest, dPort := none } := by
        change updateMem burst _ = _ at ht
        unfold updateMem at ht
        split at ht
        · cases ht
        · split at ht
          · exact (Except.ok.inj ht).symm
          · cases ht
      subst hsame
      exact ⟨hsimulated, (h.core.pop hqueue rfl).setPort (some m), h.aBurst, h.cBurst⟩
    | some (m, some (.updatePerm blockAddr param)) :: rest =>
      rw [hqueue] at hstep
      obtain ⟨t, ht, hstep⟩ := bind_eq_ok.mp hstep
      obtain rfl := Except.ok.inj hstep
      obtain rfl := Except.ok.inj ht
      obtain ⟨hrest, a, ha, rfl, rfl, hsource, -⟩ := h.core.delivered hqueue
      rw [show ({ s with dQueue := rest, dPort := none } : State) = { s with dQueue := rest } by
        rw [← hport]] at hsimulated ⊢
      obtain ⟨-, -, -, haOngoings, hcOngoings⟩ := updatePerm_frame (cfg.blockAddr a.address)
        (grantParam a.param) { s with dQueue := rest }
      refine ⟨hsimulated, (h.core.receive hqueue ha hsource hrest).setPort (some m), ?_, ?_⟩
      · dsimp only
        rw [haOngoings]
        exact h.aBurst
      · dsimp only
        rw [hcOngoings]
        exact h.cBurst

/-- The events that are no messages of the clients and no pops. -/
theorem Inv.other (h : Inv cfg s k) {event : Event} (hstep : step cfg s event = .ok s')
    (hserved : Served (fun _ ↦ False) s s' ∧ s'.aOngoings = s.aOngoings) : Inv cfg s' k :=
  h.idle (h.simulated.step hstep) hserved.1 hserved.2

theorem hostInterface_served (hconsistent : s.probes.Consistent none)
    (h : hostInterface cfg s = .ok s') :
    Served (fun _ ↦ False) s s' ∧ s'.aOngoings = s.aOngoings := by
  have hnone : Served (fun _ ↦ False) s s :=
    served_of_eq rfl rfl (List.Perm.refl _) rfl rfl
  unfold hostInterface at h
  split at h
  · obtain ⟨-, -, h⟩ := bind_eq_ok.mp h
    split at h
    · obtain ⟨t, ht, h⟩ := bind_eq_ok.mp h
      obtain rfl := Except.ok.inj h
      have hrequest : Served (fun _ ↦ False) s t ∧ t.aOngoings = s.aOngoings :=
        served_retrieveBlock hconsistent rfl ht
      obtain ⟨hserved, hongoings⟩ := hrequest
      exact ⟨⟨hserved.dQueue, hserved.memory, hserved.pending, hserved.blockPerm,
        hserved.cOngoings⟩, hongoings⟩
    · obtain rfl := Except.ok.inj h
      exact ⟨hnone, rfl⟩
  · obtain rfl := Except.ok.inj h
    exact ⟨hnone, rfl⟩

theorem dataRetriever_served (hconsistent : s.probes.Consistent none)
    (h : dataRetriever cfg s = .ok s') :
    Served (fun _ ↦ False) s s' ∧ s'.aOngoings = s.aOngoings := by
  unfold dataRetriever at h
  split at h
  · unfold probeBlocks at h
    have hrun : runCallback cfg (.probeBlocksRec _) { s with retrieved := true } = .ok s' := h
    obtain ⟨hserved, hongoings⟩ := 
      runCallback_served (s := { s with retrieved := true }) hconsistent rfl hrun
    exact ⟨⟨hserved.dQueue, hserved.memory, hserved.pending, hserved.blockPerm,
        hserved.cOngoings⟩, hongoings⟩
  · obtain rfl := Except.ok.inj h
    exact ⟨served_of_eq rfl rfl (List.Perm.refl _) rfl rfl, rfl⟩

theorem bPortDriver_served (s : State) :
    Served (fun _ ↦ False) s (bPortDriver s) ∧ (bPortDriver s).aOngoings = s.aOngoings := by
  unfold bPortDriver
  split
  · exact ⟨served_of_eq rfl rfl (List.Perm.refl _) rfl rfl, rfl⟩
  · exact ⟨served_of_eq rfl rfl (List.Perm.refl _) rfl rfl, rfl⟩
  · refine ⟨served_of_eq rfl rfl (List.Perm.of_eq (pendingGrants_congr ?_)) rfl rfl, rfl⟩
    exact Probes.pending_frame rfl rfl

theorem ePortMonitor_served {sink : ℕ} (h : ePortMonitor sink s = .ok s') :
    Served (fun _ ↦ False) s s' ∧ s'.aOngoings = s.aOngoings := by
  unfold ePortMonitor at h
  obtain ⟨r, -, h⟩ := bind_eq_ok.mp h
  dsimp only at h
  split at h
  · obtain rfl := Except.ok.inj h
    exact ⟨served_of_eq rfl rfl (List.Perm.refl _) rfl rfl, rfl⟩
  · cases h

/-- An adapter that has stopped drives no port and takes no message. -/
theorem step_of_stopped (hdrive : s.drive = false) {event : Event}
    (hevent : event = .dPop ∨ event = .bPop ∨ event = .hostPoll ∨ (∃ m, event = .a m) ∨
      (∃ m, event = .c m) ∨ ∃ sink, event = .e sink) : step cfg s event = .ok s := by
  unfold step
  obtain rfl | rfl | rfl | ⟨m, rfl⟩ | ⟨m, rfl⟩ | ⟨sink, rfl⟩ := hevent <;>
  · dsimp only
    rw [if_neg (by rw [hdrive]; exact Bool.false_ne_true)]

/-- Every permitted event of careful clients keeps the invariant. -/
theorem Inv.step (h : Inv cfg s k) (hcfg : cfg.Geometric) (hprotocol : cfg.protocol = tlC)
    {event : Event} (hlegal : Caches.Legal cfg s k event)
    (hcareful : Caches.Careful cfg s k event) (hstep : step cfg s event = .ok s') :
    Inv cfg s' (Caches.react cfg s k event) := by
  have hconsistent := h.simulated.consistent
  have hnone : Served (fun _ ↦ False) s s :=
    served_of_eq rfl rfl (List.Perm.refl _) rfl rfl
  have hreact (hdrive : s.drive = false) : Caches.react cfg s k event = k := by
    unfold Caches.react
    rw [hdrive]
    rfl
  have hstopped (hdrive : s.drive = false) (hsame : Adapter.step cfg s event = .ok s) :
      Inv cfg s' (Caches.react cfg s k event) := by
    rw [hsame] at hstep
    rw [hreact hdrive, ← Except.ok.inj hstep]
    exact h
  cases event with
  | a m =>
    cases hdrive : s.drive with
    | false => exact hstopped hdrive (step_of_stopped hdrive (by simp))
    | true =>
      unfold Caches.react
      rw [if_pos hdrive]
      exact h.a hcfg hprotocol hlegal hcareful hdrive hstep
  | c m =>
    cases hdrive : s.drive with
    | false => exact hstopped hdrive (step_of_stopped hdrive (by simp))
    | true =>
      unfold Caches.react
      rw [if_pos hdrive]
      exact h.c hcfg hlegal hcareful hdrive hstep
  | dPop =>
    cases hdrive : s.drive with
    | false => exact hstopped hdrive (step_of_stopped hdrive (by simp))
    | true => exact h.dPop hdrive hstep
  | e sink =>
    rw [show Caches.react cfg s k (.e sink) = k by unfold Caches.react; split <;> rfl]
    refine h.other hstep ?_
    unfold Adapter.step at hstep
    dsimp only at hstep
    split at hstep
    · exact ePortMonitor_served hstep
    · obtain rfl := Except.ok.inj hstep
      exact ⟨hnone, rfl⟩
  | bPop =>
    rw [show Caches.react cfg s k .bPop = k by unfold Caches.react; split <;> rfl]
    refine h.other hstep ?_
    obtain rfl := Except.ok.inj hstep
    split
    · exact bPortDriver_served s
    · exact ⟨hnone, rfl⟩
  | hostPoll =>
    rw [show Caches.react cfg s k .hostPoll = k by unfold Caches.react; split <;> rfl]
    refine h.other hstep ?_
    unfold Adapter.step at hstep
    dsimp only at hstep
    split at hstep
    · exact hostInterface_served hconsistent hstep
    · obtain rfl := Except.ok.inj hstep
      exact ⟨hnone, rfl⟩
  | retriever =>
    rw [show Caches.react cfg s k .retriever = k by unfold Caches.react; split <;> rfl]
    exact h.other hstep (dataRetriever_served hconsistent hstep)
  | dFire | bFire | probeBlock | stop =>
    rw [show Caches.react cfg s k _ = k by unfold Caches.react; split <;> rfl]
    refine h.other hstep ?_
    obtain rfl := Except.ok.inj hstep
    exact ⟨served_of_eq rfl rfl (List.Perm.refl _) rfl rfl, rfl⟩

/-- In a state with the invariant every careful step is coherent. -/
theorem Inv.coherent (h : Inv cfg s k) {event : Event}
    (hcareful : Caches.Careful cfg s k event) : Caches.Coherent cfg s k event := by
  cases event with
  | a m =>
    intro _ hwrite htip
    obtain ⟨hacquiring, hbranch⟩ := hcareful.2.1 hwrite htip
    refine ⟨fun source ↦ ?_, h.core.not_grantQueued hacquiring⟩
    cases hcopy : k.copy source (cfg.blockAddr m.address) with
    | nothing => rfl
    | branch => exact absurd hcopy (hbranch source)
    | trunk => exact absurd hcopy (h.core.copy_ne_trunk htip source)
  | dPop =>
    rintro - ⟨m, blockAddr, param⟩ hdelivered hop
    unfold Adapter.delivered at hdelivered
    split at hdelivered
    · next hport hqueue =>
      cases hdelivered
      obtain ⟨-, a, ha, rfl, -, hsource, hburst⟩ := h.core.delivered hqueue
      exact ⟨a, ha, hsource.symm, rfl, hburst hop⟩
    · cases hdelivered
  | c | e | dFire | bPop | bFire | hostPoll | retriever | probeBlock | stop => exact trivial

theorem inv_start (memory : Dict ℕ ℕ) (blocks : List ℕ) (draws : Draws) :
    Inv cfg (start memory blocks draws) {} where
  simulated := simulated_start memory blocks draws
  core := by
    have hnone (source blockAddr : ℕ) : ({} : Caches).copy source blockAddr ≠ .trunk := by
      intro hcopy
      cases hcopy
    refine ⟨.nil, List.forall_mem_nil _, List.Perm.nil, List.nodup_nil, List.forall_mem_nil _, ?_,
      ?_, List.forall_mem_nil _⟩
    · exact fun source blockAddr hcopy ↦ absurd hcopy (hnone source blockAddr)
    · exact fun source _ blockAddr hcopy _ ↦ absurd hcopy (hnone source blockAddr)
  aBurst := rfl
  cBurst := rfl

theorem Inv.along (hcfg : cfg.Geometric) (hprotocol : cfg.protocol = tlC) {events : List Event}
    (h : Inv cfg s k) (hlegal : Caches.Along cfg (Caches.Legal cfg) s k events)
    (hcareful : Caches.Along cfg (Caches.Careful cfg) s k events) :
    Caches.Along cfg (Caches.Coherent cfg) s k events := by
  induction events generalizing s k with
  | nil => exact trivial
  | cons event events ih =>
    unfold Caches.Along at hlegal hcareful ⊢
    refine ⟨h.coherent hcareful.1, ?_⟩
    cases hstep : Adapter.step cfg s event with
    | error => exact trivial
    | ok s' =>
      rw [hstep] at hlegal hcareful
      exact ih (h.step hcfg hprotocol hlegal.1 hcareful.1 hstep) hlegal.2 hcareful.2

/-- No write leaves a careful client with a stale copy: along every run of clients that follow the
protocol, careful ones, each step is coherent. -/
theorem along_coherent_of_careful (cfg : Config) (memory : Dict ℕ ℕ) (blocks : List ℕ)
    (draws : Draws) (events : List Event) (hcfg : cfg.Geometric) (hprotocol : cfg.protocol = tlC)
    (hlegal : Caches.Along cfg (Caches.Legal cfg) (start memory blocks draws) {} events)
    (hcareful : Caches.Along cfg (Caches.Careful cfg) (start memory blocks draws) {} events) :
    Caches.Along cfg (Caches.Coherent cfg) (start memory blocks draws) {} events :=
  (inv_start memory blocks draws).along hcfg hprotocol hlegal hcareful

/-- A client hands a changed block over to another one, which releases it, and an uncached put
follows. Then the first client obtains a read-only copy and gives it up before the next put. -/
theorem along_coherent_of_careful_handOver :
    Caches.Along {} (Caches.Coherent {}) (start (Dict.ofList [(0, 7), (8, 9)]) [0] fun _ ↦ 0) {}
      [.a ⟨.acquireBlock, NtoT, 4, 0, 0, 0xff, 0⟩, .dPop, .dFire, .dPop, .dFire, .e 0,
        .a ⟨.acquireBlock, NtoT, 4, 5, 0, 0xff, 0⟩, .bPop, .bFire,
        .c ⟨.probeAckData, TtoN, 4, 0, 0, 5, 0⟩, .c ⟨.probeAckData, TtoN, 4, 0, 0, 6, 0⟩,
        .dPop, .dFire, .dPop, .dFire, .e 1,
        .c ⟨.releaseData, TtoN, 4, 5, 0, 1, 0⟩, .c ⟨.releaseData, TtoN, 4, 5, 0, 2, 0⟩,
        .dPop, .dFire, .a ⟨.putFullData, 0, 3, 1, 8, 0xff, 3⟩, .dPop, .dFire,
        .a ⟨.acquireBlock, NtoB, 4, 0, 0, 0xff, 0⟩, .dPop, .dFire, .dPop, .dFire, .e 2,
        .c ⟨.release, BtoN, 4, 0, 0, 0, 0⟩, .dPop, .dFire,
        .a ⟨.putFullData, 0, 3, 1, 0, 0xff, 4⟩, .dPop] :=
  along_coherent_of_careful {} (Dict.ofList [(0, 7), (8, 9)]) [0] (fun _ ↦ 0) _
    ⟨3, 6, rfl, rfl, by decide⟩ rfl (by decide) (by decide)

/-- A read-only copy leaves the block `TIP`, and an uncached put then writes it at once. -/
theorem not_along_coherent_NtoB :
    Caches.Along {} (Caches.Legal {}) (start (Dict.ofList [(0, 1)]) [0] fun _ ↦ 0) {}
      [.a ⟨.acquireBlock, NtoB, 3, 0, 0, 0xff, 0⟩, .dPop, .dFire, .e 0,
        .a ⟨.putFullData, 0, 3, 1, 0, 0xff, 2⟩] ∧
    ¬Caches.Along {} (Caches.Coherent {}) (start (Dict.ofList [(0, 1)]) [0] fun _ ↦ 0) {}
      [.a ⟨.acquireBlock, NtoB, 3, 0, 0, 0xff, 0⟩, .dPop, .dFire, .e 0,
        .a ⟨.putFullData, 0, 3, 1, 0, 0xff, 2⟩] := by
  decide

end ProcessorFuzz.TileLink.Adapter
