import ProcessorFuzz.TileLink.AdapterProbes

/-!
# Probes and unacknowledged Grants

A Grant for a block is unacknowledged while `ongoing_tlc` maps its sink to the block. Of the paths
that issue probes only `host_interface` looks at `ongoing_tlc`, and it compares the polled address
instead of its block. A probe that waited for a source is not checked again when it is issued.
-/

namespace ProcessorFuzz.TileLink.Adapter

open Library

variable {cfg : Config} {s s' : State}

/-- The probes that a step pushes on `b_queue`. -/
def pushed (s s' : State) : List BMessage := s'.probes.bQueue.drop s.probes.bQueue.length

/-- No probe that the step pushes is for a block with an unacknowledged Grant. A step that changes
`ongoing_tlc` does so before it pushes a probe, so its last value is the one that counts. -/
def NoRace (cfg : Config) (s s' : State) : Prop :=
  ∀ m ∈ pushed s s', cfg.blockAddr m.address ∉ s'.ongoingTlc.values

instance : Decidable (NoRace cfg s s') := inferInstanceAs (Decidable (∀ _ ∈ _, _))

/-- The check that is missing from the step: the probe that it is about to issue, if it is about to
issue one, is for a block without an unacknowledged Grant. -/
def Careful (cfg : Config) (s : State) : Event → Prop
  | .a m => s.drive = true → Probing cfg m s → s.probes.bSrcs.freeList ≠ [] →
    cfg.blockAddr m.address ∉ s.ongoingTlc.values
  | .c m => s.drive = true → Acknowledges cfg m s →
    ∀ callback ∈ s.probes.registered m.source,
      ∀ p ∈ (s.probes.bSrcs.eventQueue ++ callback.requests cfg).head?,
        cfg.blockAddr p.addr ∉ (callback.grants s.ongoingTlc).values
  | .hostPoll => s.drive = true → HostProbing cfg s → s.probes.bSrcs.freeList ≠ [] →
    cfg.blockAddr s.probeAddr ∉ s.ongoingTlc.values
  | .retriever => s.probes.bSrcs.freeList ≠ [] →
    ∀ addr ∈ (flushBlocks s).head?, cfg.blockAddr addr ∉ s.ongoingTlc.values
  | .e _ | .dPop | .dFire | .bPop | .bFire | .probeBlock _ | .stop => True

theorem noRace_of_length_le (h : s'.probes.bQueue.length ≤ s.probes.bQueue.length) :
    NoRace cfg s s' := by
  unfold NoRace pushed
  rw [List.drop_eq_nil_of_le h]
  exact nofun

theorem noRace_of_probes_eq (h : s'.probes = s.probes) : NoRace cfg s s' :=
  noRace_of_length_le (by rw [h])

/-- A step that requests one probe races exactly if a source is free and the block is granted. -/
theorem noRace_iff_of_requested {p : Probe Callback} (hconsistent : s.probes.Consistent none)
    (hrequested : Requested [p] s.probes s'.probes) (htlc : s'.ongoingTlc = s.ongoingTlc) :
    NoRace cfg s s' ↔
      (s.probes.bSrcs.freeList ≠ [] → cfg.blockAddr p.addr ∉ s.ongoingTlc.values) := by
  obtain ⟨draws, hfold⟩ := hrequested
  rw [List.foldlM_cons] at hfold
  obtain ⟨probes, hretrieve, hprobes⟩ := bind_eq_ok.mp hfold
  obtain rfl := Except.ok.inj hprobes
  have hframe : Probes.Consistent none { s.probes with draws := draws } :=
    hconsistent.frame rfl rfl
  unfold NoRace pushed
  rw [htlc]
  obtain ⟨hfree, src, -, hissue⟩ | ⟨hfree, hwait⟩ := hframe.retrieveBlock_cases hretrieve
  · have hqueue : s'.probes.bQueue = s.probes.bQueue ++ [p.message src] := by rw [hissue]; rfl
    rw [hqueue, List.drop_left]
    have hfree' : s.probes.bSrcs.freeList ≠ [] := hfree
    simp [hfree', Probe.message]
  · have hqueue : s'.probes.bQueue = s.probes.bQueue := by rw [hwait]; rfl
    rw [hqueue, List.drop_length]
    have hfree' : s.probes.bSrcs.freeList = [] := hfree
    simp [hfree']

theorem length_requests_le (callback : Callback) : (callback.requests cfg).length ≤ 1 := by
  unfold Callback.requests
  split
  · exact le_rfl
  · exact Nat.zero_le 1

/-- An acknowledgement races exactly if the first waiting probe, or failing that the one its
continuation requests, is for a granted block. -/
theorem noRace_iff_of_acknowledged {source : ℕ} {callback : Callback}
    (hconsistent : s.probes.Consistent none) (h : Acknowledged cfg source callback s s') :
    NoRace cfg s s' ↔ ∀ p ∈ (s.probes.bSrcs.eventQueue ++ callback.requests cfg).head?,
      cfg.blockAddr p.addr ∉ (callback.grants s.ongoingTlc).values := by
  obtain ⟨hinit, hbusy, -, ⟨probes, hfold, hrelease⟩, htlc⟩ := h
  obtain ⟨src', hqueue⟩ := hconsistent.bQueue_acknowledge hinit hbusy
    (length_requests_le callback) hfold hrelease
  unfold NoRace pushed
  rw [htlc, hqueue, List.drop_left]
  cases (s.probes.bSrcs.eventQueue ++ callback.requests cfg).head? with
  | none => simp
  | some p => simp [Probe.message]

theorem noRace_iff_careful {event : Event} (hconsistent : s.probes.Consistent none)
    (h : step cfg s event = .ok s') : NoRace cfg s s' ↔ Careful cfg s event := by
  have hidle (hdrive : ¬s.drive = true) (heq : (Except.ok s : Except PyError State) = Except.ok s') :
      NoRace cfg s s' := by
    obtain rfl := Except.ok.inj heq
    exact noRace_of_probes_eq rfl
  unfold step at h
  cases event with
  | a m =>
    dsimp only at h
    unfold Careful
    split at h
    · next hdrive =>
      have hrequested := aPortMonitor_requested h
      unfold ARequested at hrequested
      split at hrequested
      · next hprobing =>
        obtain ⟨p, haddr, hp, htlc⟩ := hrequested
        rw [noRace_iff_of_requested hconsistent hp htlc, haddr]
        simp [hdrive, hprobing]
      · next hprobing =>
        obtain ⟨draws, hprobes⟩ := hrequested
        have hqueue : s'.probes.bQueue = s.probes.bQueue := by rw [← Except.ok.inj hprobes]
        simp [hprobing, noRace_of_length_le (congrArg List.length hqueue).le]
    · next hdrive => simp [hdrive, hidle hdrive h]
  | c m =>
    dsimp only at h
    unfold Careful
    split at h
    · next hdrive =>
      have hacknowledged := cPortMonitor_acknowledged hconsistent h
      split at hacknowledged
      · next hacknowledges =>
        obtain ⟨callback, hcallback⟩ := hacknowledged
        rw [noRace_iff_of_acknowledged hconsistent hcallback]
        simp [hdrive, hacknowledges, hcallback.registered]
      · next hacknowledges => simp [hacknowledges, noRace_of_probes_eq hacknowledged.1]
    · next hdrive => simp [hdrive, hidle hdrive h]
  | hostPoll =>
    dsimp only at h
    unfold Careful
    split at h
    · next hdrive =>
      have hrequested := hostInterface_requested h
      split at hrequested
      · next hprobing =>
        obtain ⟨p, haddr, hp, htlc⟩ := hrequested
        rw [noRace_iff_of_requested hconsistent hp htlc, haddr]
        simp [hdrive, hprobing]
      · next hprobing =>
        have hsame : s'.probes = s.probes := by rw [hrequested]
        simp [hprobing, noRace_of_probes_eq hsame]
    · next hdrive => simp [hdrive, hidle hdrive h]
  | retriever =>
    obtain ⟨hrequested, htlc⟩ := dataRetriever_requested h
    unfold Careful
    cases hblocks : flushBlocks s with
    | nil =>
      rw [hblocks] at hrequested
      simp [noRace_of_probes_eq hrequested]
    | cons addr rest =>
      rw [hblocks] at hrequested
      rw [noRace_iff_of_requested hconsistent hrequested htlc]
      simp [flushProbe]
  | e sink =>
    dsimp only at h
    split at h
    · simp [Careful, noRace_of_probes_eq (ePortMonitor_probes h)]
    · next hdrive => simp [Careful, hidle hdrive h]
  | dPop =>
    dsimp only at h
    split at h
    · simp [Careful, noRace_of_probes_eq (dPortDriver_frame h).1]
    · next hdrive => simp [Careful, hidle hdrive h]
  | bPop =>
    obtain rfl := Except.ok.inj h
    have hlength : (if s.drive = true then bPortDriver s else s).probes.bQueue.length ≤
        s.probes.bQueue.length := by
      unfold bPortDriver
      split
      · split
        · exact le_rfl
        · exact le_rfl
        · next hqueue => simp [hqueue]
      · exact le_rfl
    simp [Careful, noRace_of_length_le hlength]
  | dFire | bFire | probeBlock | stop =>
    obtain rfl := Except.ok.inj h
    simp [Careful, noRace_of_probes_eq]

/-- No step of the run pushes a probe for a block with an unacknowledged Grant. A step that raises
ends the run. -/
def RaceFree (cfg : Config) (s : State) : List Event → Prop
  | [] => True
  | event :: events =>
    match step cfg s event with
    | .error _ => True
    | .ok s' => NoRace cfg s s' ∧ RaceFree cfg s' events

instance decidableRaceFree (cfg : Config) (s : State) :
    (events : List Event) → Decidable (RaceFree cfg s events)
  | [] => isTrue trivial
  | event :: events =>
    match h : step cfg s event with
    | .error _ => isTrue (by unfold RaceFree; rw [h]; trivial)
    | .ok s' =>
      have := decidableRaceFree cfg s' events
      decidable_of_iff (NoRace cfg s s' ∧ RaceFree cfg s' events) (by
        conv_rhs => unfold RaceFree
        rw [h])

/-- Every step of the run meets its condition. -/
def AllCareful (cfg : Config) (s : State) : List Event → Prop
  | [] => True
  | event :: events =>
    match step cfg s event with
    | .error _ => True
    | .ok s' => Careful cfg s event ∧ AllCareful cfg s' events

theorem raceFree_iff_of_simulated (events : List Event) (h : Simulated s) :
    RaceFree cfg s events ↔ AllCareful cfg s events := by
  induction events generalizing s with
  | nil => exact Iff.rfl
  | cons event events ih =>
    unfold RaceFree AllCareful
    cases hstep : step cfg s event with
    | error e => exact Iff.rfl
    | ok s' =>
      exact and_congr (noRace_iff_careful h.consistent hstep) (ih (h.step hstep))

/-- A run of the adapter is free of races exactly if each of its steps meets its condition. -/
theorem raceFree_iff_allCareful (cfg : Config) (memory : Dict ℕ ℕ) (blocks : List ℕ)
    (draws : Draws) (events : List Event) :
    RaceFree cfg (start memory blocks draws) events ↔
      AllCareful cfg (start memory blocks draws) events :=
  raceFree_iff_of_simulated events (simulated_start memory blocks draws)

/-- The data cache acquires the block 0 and receives the first beat of its `GrantData`; an uncached
`Get` of the same block arrives before the `GrantAck`. -/
theorem not_raceFree_get_before_grantAck :
    ¬RaceFree {} (start (Dict.ofList [(0, 1)]) [0] fun _ ↦ 0)
      [.a ⟨.acquireBlock, NtoT, 6, 0, 0, 0xff, 0⟩, .dPop, .dFire,
        .a ⟨.get, 0, 3, 5, 0, 0xff, 0⟩] := by
  decide

end ProcessorFuzz.TileLink.Adapter
