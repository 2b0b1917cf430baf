import ProcessorFuzz.TileLink.Restart
import ProcessorFuzz.TileLink.Sinks

/-!
# Isolation of the tests

What a test leaves in the adapter is decided by the last steps that touch each of the kept
attributes. The next test begins like the first one exactly if every sink that was put into
`ongoing_tlc` was acknowledged afterwards, every request of the host led to a probe and every probe
of the host was acknowledged.
-/

namespace ProcessorFuzz.TileLink.Adapter

open Library Latch

variable {cfg : Config} {s s' : State}

/-- The step maps the sink in `ongoing_tlc`. -/
def registers (cfg : Config) (sink : ℕ) : State × Event → Bool
  | (s, .a m) => s.drive && decide (Acquires cfg m ∧ s.perm (cfg.blockAddr m.address) = .tip ∧
    (nextSink s).toOption = some sink)
  | (s, .c m) => s.drive && decide (Acknowledges cfg m s ∧
    ∃ hold ∈ (s.probes.registered m.source).bind Callback.held, hold.sink = sink)
  | _ => false

/-- The step removes the sink from `ongoing_tlc`. -/
def withdraws (sink : ℕ) : State × Event → Bool
  | (s, .e sink') => s.drive && decide (sink' = sink)
  | _ => false

/-- The host asks for a probe. -/
def hostRequests : State × Event → Bool
  | (_, .probeBlock _) => true
  | _ => false

/-- The probe of the host is made. -/
def hostProbes (cfg : Config) : State × Event → Bool
  | (s, .hostPoll) => s.drive && decide (HostProbing cfg s)
  | _ => false

/-- The probe of the host is acknowledged. -/
def hostEnables (cfg : Config) : State × Event → Bool
  | (s, .c m) => s.drive && decide (Acknowledges cfg m s ∧
    s.probes.registered m.source = some .enableProbe)
  | _ => false

theorem registers_of_withdraws {sink : ℕ} (x : State × Event) (h : withdraws sink x = true) :
    registers cfg sink x = false := by
  obtain ⟨s, event⟩ := x
  cases event with
  | e => rfl
  | a | c | dPop | dFire | bPop | bFire | hostPoll | retriever | probeBlock | stop =>
    exact nomatch h

theorem hostRequests_of_hostProbes (x : State × Event) (h : hostProbes cfg x = true) :
    hostRequests x = false := by
  obtain ⟨s, event⟩ := x
  cases event with
  | hostPoll => rfl
  | a | c | e | dPop | dFire | bPop | bFire | retriever | probeBlock | stop => exact nomatch h

theorem hostProbes_of_hostEnables (x : State × Event) (h : hostEnables cfg x = true) :
    hostProbes cfg x = false := by
  obtain ⟨s, event⟩ := x
  cases event with
  | c => rfl
  | a | e | dPop | dFire | bPop | bFire | hostPoll | retriever | probeBlock | stop =>
    exact nomatch h

section OneStep

variable {sink : ℕ}

theorem registers_a {m : AMessage} (hdrive : s.drive = true)
    (hstep : aPortMonitor cfg m s = .ok s') (hconsistent : s.probes.Consistent none) :
    sink ∈ s'.ongoingTlc.keys ↔
      registers cfg sink (s, .a m) = true ∨ sink ∈ s.ongoingTlc.keys := by
  have hiff : registers cfg sink (s, .a m) = true ↔ Acquires cfg m ∧
      s.perm (cfg.blockAddr m.address) = .tip ∧ (nextSink s).toOption = some sink := by
    simp [registers, hdrive]
  rw [hiff]
  by_cases hm : Acquires cfg m
  · obtain ⟨sink', -, hnext, htakes⟩ := aPortMonitor_takes hconsistent hm hstep
    rw [hnext]
    rcases htakes.grant with ⟨htip, hqueues, -⟩ | ⟨htip, htlc, -⟩
    · have htip' : s.perm (cfg.blockAddr m.address) = .tip := htip
      have hsink : (Hold.of cfg (sink', m)).sink = sink' := rfl
      rw [hqueues.ongoingTlc, Dict.mem_keys_set, hsink]
      simp [hm, htip', Except.toOption, eq_comm]
    · have htip' : s.perm (cfg.blockAddr m.address) ≠ .tip := htip
      rw [htlc]
      simp [htip']
  · rw [(aPortMonitor_keepsSinks hconsistent hm hstep).ongoingTlc]
    simp [hm]

theorem registers_c {m : CMessage} (hdrive : s.drive = true)
    (hstep : cPortMonitor cfg m s = .ok s') (hconsistent : s.probes.Consistent none) :
    sink ∈ s'.ongoingTlc.keys ↔
      registers cfg sink (s, .c m) = true ∨ sink ∈ s.ongoingTlc.keys := by
  have hacknowledged := cPortMonitor_acknowledged hconsistent hstep
  split at hacknowledged
  · next hacknowledges =>
    obtain ⟨callback, hcallback⟩ := hacknowledged
    have hiff : registers cfg sink (s, .c m) = true ↔
        ∃ hold ∈ callback.held, hold.sink = sink := by
      simp [registers, hdrive, hacknowledges, hcallback.registered]
    rw [hiff, hcallback.ongoingTlc]
    cases callback with
    | grantData burstLen addr param sink' size source blockAddr =>
      have hheld : (∃ hold ∈ Callback.held
          (.grantData burstLen addr param sink' size source blockAddr), hold.sink = sink) ↔
          sink' = sink := by
        simp [Callback.held]
      rw [hheld, Callback.grants, Dict.mem_keys_set, eq_comm]
    | accessAck | accessAckData | arithmeticAck | logicalAck | grant | probeBlocksRec
      | enableProbe => simp [Callback.held, Callback.grants]
  · next hacknowledges =>
    rw [hacknowledged.2]
    simp [registers, hacknowledges]

/-- What a step does to the sinks in `ongoing_tlc`. -/
theorem ongoingTlc_step {event : Event} (hsim : Simulated s) (hstep : step cfg s event = .ok s') :
    sink ∈ s'.ongoingTlc.keys ↔ registers cfg sink (s, event) = true ∨
      withdraws sink (s, event) = false ∧ sink ∈ s.ongoingTlc.keys := by
  have hkept : s'.ongoingTlc = s.ongoingTlc → registers cfg sink (s, event) = false →
      withdraws sink (s, event) = false → (sink ∈ s'.ongoingTlc.keys ↔
        registers cfg sink (s, event) = true ∨
          withdraws sink (s, event) = false ∧ sink ∈ s.ongoingTlc.keys) := by
    intro htlc hregisters hwithdraws
    rw [htlc, hregisters, hwithdraws]
    simp
  cases event with
  | a m =>
    cases hdrive : s.drive with
    | false =>
      rw [step, hdrive] at hstep
      obtain rfl := Except.ok.inj hstep
      exact hkept rfl (by simp [registers, hdrive]) rfl
    | true =>
      rw [step, hdrive, if_pos rfl] at hstep
      rw [registers_a hdrive hstep hsim.consistent]
      simp [withdraws]
  | c m =>
    cases hdrive : s.drive with
    | false =>
      rw [step, hdrive] at hstep
      obtain rfl := Except.ok.inj hstep
      exact hkept rfl (by simp [registers, hdrive]) rfl
    | true =>
      rw [step, hdrive, if_pos rfl] at hstep
      rw [registers_c hdrive hstep hsim.consistent]
      simp [withdraws]
  | e sink' =>
    cases hdrive : s.drive with
    | false =>
      rw [step, hdrive] at hstep
      obtain rfl := Except.ok.inj hstep
      exact hkept rfl rfl (by simp [withdraws, hdrive])
    | true =>
      rw [step, hdrive, if_pos rfl] at hstep
      rw [(ePortMonitor_eq_ok hstep).2, Dict.mem_keys_erase]
      simp [registers, withdraws, hdrive, eq_comm, and_comm]
  | dPop =>
    rw [step] at hstep
    split at hstep
    · exact hkept (dPortDriver_frame hstep).2 rfl rfl
    · exact hkept (by rw [Except.ok.inj hstep]) rfl rfl
  | bPop =>
    obtain rfl := Except.ok.inj hstep
    refine hkept ?_ rfl rfl
    unfold bPortDriver
    split
    · split <;> rfl
    · rfl
  | hostPoll =>
    rw [step] at hstep
    split at hstep
    · have hrequested := hostInterface_requested hstep
      split at hrequested
      · obtain ⟨-, -, -, htlc⟩ := hrequested
        exact hkept htlc rfl rfl
      · exact hkept (by rw [hrequested]) rfl rfl
    · exact hkept (by rw [Except.ok.inj hstep]) rfl rfl
  | retriever => exact hkept (dataRetriever_requested hstep).2 rfl rfl
  | dFire | bFire | probeBlock | stop =>
    obtain rfl := Except.ok.inj hstep
    exact hkept rfl rfl rfl

/-- What a step does to the attributes of the host's probe. -/
structure HostStep (cfg : Config) (s s' : State) (event : Event) : Prop where
  probe : s'.probe = (effect false hostRequests (hostProbes cfg) (s, event)).getD s.probe
  probeEn : s'.probeEn =
    (effect true (hostProbes cfg) (hostEnables cfg) (s, event)).getD s.probeEn
  probeAddr : s'.probe = false → s'.probeAddr = if s.probe then 0 else s.probeAddr

theorem HostStep.kept {event : Event} (h : HostKept s s')
    (hrequests : hostRequests (s, event) = false) (hprobes : hostProbes cfg (s, event) = false)
    (henables : hostEnables cfg (s, event) = false) : HostStep cfg s s' event where
  probe := by simp [effect, hrequests, hprobes, h.probe]
  probeEn := by simp [effect, hprobes, henables, h.probeEn]
  probeAddr hprobe := by simp [← h.probe, hprobe, h.probeAddr]

theorem host_step {event : Event} (hsim : Simulated s) (hstep : step cfg s event = .ok s') :
    HostStep cfg s s' event := by
  cases event with
  | a m =>
    rw [step] at hstep
    split at hstep
    · exact .kept (aPortMonitor_hostKept hstep) rfl rfl rfl
    · exact .kept (Except.ok.inj hstep ▸ HostKept.refl s) rfl rfl rfl
  | c m =>
    cases hdrive : s.drive with
    | false =>
      rw [step, hdrive] at hstep
      obtain rfl := Except.ok.inj hstep
      exact .kept (HostKept.refl s) rfl rfl (by simp [hostEnables, hdrive])
    | true =>
      rw [step, hdrive, if_pos rfl] at hstep
      have hhost := cPortMonitor_host hsim.consistent hstep
      split at hhost
      · next hacknowledges =>
        obtain ⟨callback, hregistered, hcalled⟩ := hhost
        constructor
        · exact hcalled.probe
        · rw [hcalled.probeEn]
          by_cases hcallback : callback = .enableProbe <;>
            simp [effect, hostProbes, hostEnables, hdrive, hacknowledges, hregistered, hcallback]
        · intro hprobe
          simp [← hcalled.probe, hprobe, hcalled.probeAddr]
      · next hacknowledges =>
        exact .kept hhost rfl rfl (by simp [hostEnables, hacknowledges])
  | e sink =>
    rw [step] at hstep
    split at hstep
    · exact .kept (ePortMonitor_eq_ok hstep).1 rfl rfl rfl
    · exact .kept (Except.ok.inj hstep ▸ HostKept.refl s) rfl rfl rfl
  | dPop =>
    rw [step] at hstep
    split at hstep
    · exact .kept (dPortDriver_hostKept hstep) rfl rfl rfl
    · exact .kept (Except.ok.inj hstep ▸ HostKept.refl s) rfl rfl rfl
  | bPop =>
    obtain rfl := Except.ok.inj hstep
    refine .kept ?_ rfl rfl rfl
    unfold bPortDriver
    split
    · split <;> exact ⟨rfl, rfl, rfl⟩
    · exact HostKept.refl s
  | hostPoll =>
    cases hdrive : s.drive with
    | false =>
      rw [step, hdrive] at hstep
      obtain rfl := Except.ok.inj hstep
      exact .kept (HostKept.refl s) rfl (by simp [hostProbes, hdrive]) rfl
    | true =>
      rw [step, hdrive, if_pos rfl] at hstep
      have hhost := hostInterface_host hstep
      split at hhost
      · next hprobing =>
        obtain ⟨hprobe, hprobeEn, hprobeAddr⟩ := hhost
        have hpending : s.probe = true := (Bool.and_eq_true_iff.mp hprobing.1).1
        constructor
        · simp [effect, hostRequests, hostProbes, hdrive, hprobing, hprobe]
        · simp [effect, hostProbes, hdrive, hprobing, hprobeEn]
        · intro _
          rw [hprobeAddr, if_pos hpending]
      · next hprobing => exact .kept hhost rfl (by simp [hostProbes, hprobing]) rfl
  | probeBlock probeAddr =>
    obtain rfl := Except.ok.inj hstep
    exact ⟨rfl, rfl, fun hprobe ↦ nomatch hprobe⟩
  | retriever => exact .kept (dataRetriever_hostKept hstep) rfl rfl rfl
  | dFire | bFire | stop =>
    obtain rfl := Except.ok.inj hstep
    exact .kept ⟨rfl, rfl, rfl⟩ rfl rfl rfl

end OneStep

/-- Everything that the tests began in the kept attributes they also ended. -/
structure Clean (cfg : Config) (items : List (State × Event)) : Prop where
  sinks : ∀ sink, Followed (registers cfg sink) (withdraws sink) items
  requests : Followed hostRequests (hostProbes cfg) items
  probes : Followed (hostProbes cfg) (hostEnables cfg) items

section Completed

variable {tests : List Test}

theorem ongoingTlc_completed (h : Completed cfg created tests s) (sink : ℕ) :
    sink ∉ s.ongoingTlc.keys ↔
      Followed (registers cfg sink) (withdraws sink) (history cfg created tests) := by
  have hstep : ∀ s event s', Simulated s → step cfg s event = .ok s' →
      decide (sink ∈ s'.ongoingTlc.keys) =
        (effect false (registers cfg sink) (withdraws sink) (s, event)).getD
          (decide (sink ∈ s.ongoingTlc.keys)) := by
    intro s event s' hsim hevent
    rw [Bool.eq_iff_iff, decide_eq_true_iff, ongoingTlc_step hsim hevent]
    unfold effect
    by_cases hregisters : registers cfg sink (s, event) = true
    · simp [hregisters]
    · by_cases hwithdraws : withdraws sink (s, event) = true <;> simp [hregisters, hwithdraws]
  have hlatched := flag_completed hstep (fun _ _ ↦ rfl) h
  rw [show decide (sink ∈ created.ongoingTlc.keys) = false from rfl] at hlatched
  rw [← run_effect_eq_self_iff false registers_of_withdraws, ← hlatched, decide_eq_false_iff_not]

theorem probe_completed (h : Completed cfg created tests s) :
    s.probe = false ↔ Followed hostRequests (hostProbes cfg) (history cfg created tests) := by
  rw [← run_effect_eq_self_iff false hostRequests_of_hostProbes,
    flag_completed (fun _ _ _ hsim hevent ↦ (host_step hsim hevent).probe) (fun _ _ ↦ rfl) h]
  rfl

theorem probeEn_completed (h : Completed cfg created tests s) :
    s.probeEn = true ↔
      Followed (hostProbes cfg) (hostEnables cfg) (history cfg created tests) := by
  rw [← run_effect_eq_self_iff true hostProbes_of_hostEnables,
    flag_completed (fun _ _ _ hsim hevent ↦ (host_step hsim hevent).probeEn) (fun _ _ ↦ rfl) h]
  rfl

/-- Without a request the address of the host's probe is zero. -/
def Idle (s : State) : Prop := s.probe = false → s.probeAddr = 0

theorem Idle.run {events : List Event} (hidle : Idle s) (hsim : Simulated s)
    (hrun : run cfg s events = .ok s') : Idle s' := by
  induction events generalizing s with
  | nil =>
    obtain rfl := Except.ok.inj hrun
    exact hidle
  | cons event events ih =>
    unfold Adapter.run at hrun
    rw [List.foldlM_cons] at hrun
    obtain ⟨s₁, hs₁, hrest⟩ := bind_eq_ok.mp hrun
    refine ih (fun hprobe ↦ ?_) (hsim.step hs₁) hrest
    rw [(host_step hsim hs₁).probeAddr hprobe]
    split
    · rfl
    · next hbefore => exact hidle (Bool.eq_false_of_not_eq_true hbefore)

theorem Idle.completed (h : Completed cfg s tests s') (hidle : Idle s) : Idle s' := by
  induction h with
  | nil s => exact hidle
  | @cons s _ _ test _ hrun _ _ ih =>
    have hbegin : Idle (test.begin s) := hidle
    exact ih (hbegin.run (simulated_restart _ _ _ s) hrun)

/-- After any tests the next one begins like the first one exactly if they ended what they began. -/
theorem restart_eq_start_iff_clean (h : Completed cfg created tests s) (memory : Dict ℕ ℕ)
    (blocks : List ℕ) (draws : Draws) :
    restart memory blocks draws s = start memory blocks draws ↔
      Clean cfg (history cfg created tests) := by
  have htlc : s.ongoingTlc = Dict.empty ↔ ∀ sink, sink ∉ s.ongoingTlc.keys := by
    constructor
    · intro hempty sink
      rw [hempty]
      exact List.not_mem_nil
    · intro hnone
      exact Dict.ext (List.map_eq_nil_iff.mp (List.eq_nil_iff_forall_not_mem.mpr hnone))
  have hidle : Idle s := Idle.completed h fun _ ↦ rfl
  rw [restart_eq_start_iff, htlc]
  constructor
  · intro ⟨hsinks, hprobe, hprobeEn, _⟩
    exact
      { sinks := fun sink ↦ (ongoingTlc_completed h sink).mp (hsinks sink)
        requests := (probe_completed h).mp hprobe
        probes := (probeEn_completed h).mp hprobeEn }
  · intro hclean
    have hprobe := (probe_completed h).mpr hclean.requests
    exact ⟨fun sink ↦ (ongoingTlc_completed h sink).mpr (hclean.sinks sink), hprobe,
      (probeEn_completed h).mpr hclean.probes, hidle hprobe⟩

end Completed

/-- A test on one block, in which the host asks for a probe of a block that the client does not
have. -/
def polledTest : Test where
  memory := Dict.ofList [(0, 7)]
  blocks := [0]
  draws := fun _ ↦ 0
  events := [.probeBlock 0, .hostPoll, .stop, .retriever]

/-- The request of the host outlives the test. -/
theorem not_restart_eq_start : ¬ ∀ (tests : List Test) (s : State), Completed {} created tests s →
    ∀ (memory : Dict ℕ ℕ) (blocks : List ℕ) (draws : Draws),
      restart memory blocks draws s = start memory blocks draws := by
  intro hall
  have hcompleted : Completed {} created [polledTest] _ := .cons rfl rfl (.nil _)
  have hsame := hall _ _ hcompleted (Dict.ofList [(0, 7)]) [0] fun _ ↦ 0
  exact absurd (congrArg State.probe hsame) (by decide)

/-- The test of an Acquire whose block the host probes, with every answer of the client. -/
def probedTest : Test where
  memory := Dict.ofList [(0, 7)]
  blocks := [0]
  draws := fun _ ↦ 0
  events := [.a ⟨.acquirePerm, NtoT, 6, 0, 0, 0xff, 0⟩, .dPop, .dFire, .e 0, .probeBlock 0,
    .hostPoll, .bPop, .bFire, .c ⟨.probeAck, TtoN, 6, 0, 0, 0, 0⟩, .stop, .retriever]

theorem restart_eq_start_iff_clean_probedTest : ∃ s, Completed {} created [probedTest] s ∧
    Clean {} (history {} created [probedTest]) := by
  have hcompleted : Completed {} created [probedTest] _ := .cons rfl rfl (.nil _)
  refine ⟨_, hcompleted, (restart_eq_start_iff_clean hcompleted Dict.empty [] fun _ ↦ 0).mp ?_⟩
  rw [restart_eq_start_iff]
  exact ⟨rfl, rfl, rfl, rfl⟩

end ProcessorFuzz.TileLink.Adapter
