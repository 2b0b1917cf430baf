import ProcessorFuzz.Library.Latch
import ProcessorFuzz.TileLink.AdapterSteps

/-!
# Tests that share an adapter

One adapter object drives every test. `start` lets `drive_input` build the memory's permissions, the
free lists and the callback map anew and empty the two queues, and the coroutines begin with fresh
local variables and idle ports. `ongoing_tlc` and the three attributes of the host's probe are set
by the constructor only.
-/

namespace ProcessorFuzz.TileLink.Adapter

open Library

variable {cfg : Config} {s s' : State}

/-- `start` on an adapter that the tests before have left in the state `s`. -/
def restart (memory : Dict ℕ ℕ) (blocks : List ℕ) (draws : Draws) (s : State) : State where
  drive := true
  retrieve := false
  retrieved := false
  memory := memory
  blockPerm := Dict.ofList (blocks.map fun addr ↦ (addr, .tip))
  dSinks := FreeList.new "d_sinks" dSinkList nodup_dSinkList
  probes := Probes.new bSrcList nodup_bSrcList draws
  dQueue := []
  ongoingTlc := s.ongoingTlc
  aOngoings := Dict.empty
  burstData := none
  bursts := []
  cOngoings := Dict.empty
  probe := s.probe
  probeEn := s.probeEn
  probeAddr := s.probeAddr
  dPort := none
  bPort := none

/-- The attributes of the constructor; the other fields belong to tests. -/
def created : State := { start Dict.empty [] (fun _ ↦ 0) with drive := false }

theorem simulated_restart (memory : Dict ℕ ℕ) (blocks : List ℕ) (draws : Draws) (s : State) :
    Simulated (restart memory blocks draws s) :=
  simulated_start memory blocks draws

/-- A test begins like the first one if the four attributes are those of the constructor. -/
theorem restart_eq_start_iff (memory : Dict ℕ ℕ) (blocks : List ℕ) (draws : Draws) (s : State) :
    restart memory blocks draws s = start memory blocks draws ↔
      s.ongoingTlc = Dict.empty ∧ s.probe = false ∧ s.probeEn = true ∧ s.probeAddr = 0 := by
  unfold restart start
  simp

/-- The attributes of the host's probe stay. -/
structure HostKept (s s' : State) : Prop where
  probe : s'.probe = s.probe
  probeEn : s'.probeEn = s.probeEn
  probeAddr : s'.probeAddr = s.probeAddr

theorem HostKept.refl (s : State) : HostKept s s := ⟨rfl, rfl, rfl⟩

theorem HostKept.trans {s₁ s₂ s₃ : State} (h : HostKept s₁ s₂) (h' : HostKept s₂ s₃) :
    HostKept s₁ s₃ :=
  ⟨h'.probe.trans h.probe, h'.probeEn.trans h.probeEn, h'.probeAddr.trans h.probeAddr⟩

theorem retrieveBlock_hostKept {p : Probe Callback} (h : s.retrieveBlock p = .ok s') :
    HostKept s s' := by
  obtain ⟨probes, -, rfl⟩ := State.retrieveBlock_eq_ok.mp h
  exact ⟨rfl, rfl, rfl⟩

section AMessages

variable {m : AMessage}

theorem aGet_hostKept (h : aGet cfg m s = .ok s') : HostKept s s' := by
  unfold aGet at h
  dsimp only at h
  split at h
  · exact retrieveBlock_hostKept h
  · obtain rfl := Except.ok.inj h
    exact ⟨rfl, rfl, rfl⟩

theorem aPut_hostKept (h : aPut cfg m s = .ok s') : HostKept s s' := by
  unfold aPut at h
  split at h
  · unfold putDeferred at h
    obtain ⟨s₁, hprobe, hstore⟩ := bind_eq_ok.mp h
    have hbefore : HostKept s s₁ := by
      unfold putProbe at hprobe
      split at hprobe
      · have hopened := retrieveBlock_hostKept hprobe
        exact ⟨hopened.probe, hopened.probeEn, hopened.probeAddr⟩
      · obtain rfl := Except.ok.inj hprobe
        exact HostKept.refl s
    apply hbefore.trans
    unfold storeBeat at hstore
    split at hstore
    · cases hstore
    · obtain rfl := Except.ok.inj hstore
      exact ⟨rfl, rfl, rfl⟩
  · obtain rfl := Except.ok.inj h
    unfold putDirect
    dsimp only
    split_ifs <;> exact ⟨rfl, rfl, rfl⟩

theorem aAtomic_hostKept {label : String} {op : ℕ → ℕ → Option ℤ} {callback : ℕ → ℕ → Callback}
    (h : aAtomic cfg label op callback m s = .ok s') : HostKept s s' := by
  unfold aAtomic at h
  dsimp only at h
  obtain ⟨-, -, h⟩ := bind_eq_ok.mp h
  obtain ⟨offset, -, h⟩ := bind_eq_ok.mp h
  split at h
  · exact retrieveBlock_hostKept h
  · split at h
    · cases h
    · obtain rfl := Except.ok.inj h
      exact ⟨rfl, rfl, rfl⟩

theorem aAcquireBlock_hostKept (h : aAcquireBlock cfg m s = .ok s') : HostKept s s' := by
  unfold aAcquireBlock at h
  dsimp only at h
  obtain ⟨r, hget, h⟩ := bind_eq_ok.mp h
  obtain ⟨sink, -, rfl⟩ := getSink_eq_ok hget
  dsimp only at h
  split at h
  · have htaken := retrieveBlock_hostKept h
    exact ⟨htaken.probe, htaken.probeEn, htaken.probeAddr⟩
  · obtain rfl := Except.ok.inj h
    exact ⟨rfl, rfl, rfl⟩

theorem aAcquirePerm_hostKept (h : aAcquirePerm cfg m s = .ok s') : HostKept s s' := by
  unfold aAcquirePerm at h
  dsimp only at h
  obtain ⟨r, hget, h⟩ := bind_eq_ok.mp h
  obtain ⟨sink, -, rfl⟩ := getSink_eq_ok hget
  dsimp only at h
  split at h
  · exact nomatch h
  · obtain rfl := Except.ok.inj h
    exact ⟨rfl, rfl, rfl⟩

theorem aPortMonitor_hostKept (h : aPortMonitor cfg m s = .ok s') : HostKept s s' := by
  have hdispatch := aPortMonitor_eq_ok h
  have hreceived : HostKept s
      (s.setPerm (cfg.blockAddr m.address) (s.perm (cfg.blockAddr m.address))) := ⟨rfl, rfl, rfl⟩
  apply hreceived.trans
  unfold aDispatch at hdispatch
  split at hdispatch
  · exact aGet_hostKept hdispatch
  · exact aPut_hostKept hdispatch
  · exact aPut_hostKept hdispatch
  · split at hdispatch
    · exact aAtomic_hostKept hdispatch
    · obtain rfl := Except.ok.inj hdispatch
      exact HostKept.refl _
  · split at hdispatch
    · exact aAtomic_hostKept hdispatch
    · obtain rfl := Except.ok.inj hdispatch
      exact HostKept.refl _
  · obtain rfl := Except.ok.inj hdispatch
    split <;> exact ⟨rfl, rfl, rfl⟩
  · split at hdispatch
    · exact aAcquireBlock_hostKept hdispatch
    · obtain rfl := Except.ok.inj hdispatch
      exact HostKept.refl _
  · split at hdispatch
    · exact aAcquirePerm_hostKept hdispatch
    · obtain rfl := Except.ok.inj hdispatch
      exact HostKept.refl _

end AMessages

/-- A continuation enables the host's probes or leaves its attributes alone. -/
structure HostCalled (callback : Callback) (s s' : State) : Prop where
  probe : s'.probe = s.probe
  probeEn : s'.probeEn = if callback = .enableProbe then true else s.probeEn
  probeAddr : s'.probeAddr = s.probeAddr

theorem runCallback_hostCalled {callback : Callback} (h : runCallback cfg callback s = .ok s') :
    HostCalled callback s s' := by
  cases callback with
  | accessAck | accessAckData | grantData | enableProbe =>
    obtain rfl := Except.ok.inj h
    exact ⟨rfl, rfl, rfl⟩
  | arithmeticAck | logicalAck => exact absurd h (atomicAckCb_ne_ok _ s s')
  | grant => exact nomatch h
  | probeBlocksRec probeAddrs =>
    cases probeAddrs with
    | nil =>
      obtain rfl := Except.ok.inj h
      exact ⟨rfl, rfl, rfl⟩
    | cons addr rest =>
      have hkept := retrieveBlock_hostKept h
      exact ⟨hkept.probe, hkept.probeEn, hkept.probeAddr⟩

theorem acknowledge_hostCalled {source : ℕ} (h : acknowledge cfg source s = .ok s')
    (hconsistent : s.probes.Consistent none) :
    ∃ callback, s.probes.registered source = some callback ∧ HostCalled callback s s' := by
  obtain ⟨-, -, callback, s₁, probes, hregistered, hrun, -, rfl⟩ :=
    acknowledge_eq_ok hconsistent h
  have hcalled := runCallback_hostCalled hrun
  exact ⟨callback, hregistered, hcalled.probe, hcalled.probeEn, hcalled.probeAddr⟩

/-- A C message calls the continuation of its source if it completes an acknowledgement. -/
theorem cPortMonitor_host {m : CMessage} (hconsistent : s.probes.Consistent none)
    (h : cPortMonitor cfg m s = .ok s') :
    if Acknowledges cfg m s then
      ∃ callback, s.probes.registered m.source = some callback ∧ HostCalled callback s s'
    else HostKept s s' := by
  unfold cPortMonitor at h
  obtain ⟨-, -, h⟩ := bind_eq_ok.mp h
  obtain ⟨-, -, h⟩ := bind_eq_ok.mp h
  unfold cDispatch at h
  split at h
  case h_1 | h_2 | h_3 => exact nomatch h
  case h_4 hop =>
    obtain rfl := Except.ok.inj h
    rw [if_neg (by simp [Acknowledges, hop])]
    exact HostKept.refl s
  case h_5 hop =>
    have hacknowledges : Acknowledges cfg m s := Or.inl hop
    rw [if_pos hacknowledges]
    obtain ⟨blockPerm, hprune⟩ := exists_prune_eq cfg m s
    rw [hprune] at h
    obtain ⟨callback, hregistered, hcalled⟩ := acknowledge_hostCalled h hconsistent
    exact ⟨callback, hregistered, hcalled.probe, hcalled.probeEn, hcalled.probeAddr⟩
  case h_6 hop =>
    by_cases hlast : s.cOngoings.getD m.source 0 + 1 = cfg.burstLen m.size
    · have hacknowledges : Acknowledges cfg m s := Or.inr ⟨hop, hlast⟩
      rw [if_pos hacknowledges]
      obtain ⟨blockPerm, hbeat⟩ := cBeat_of_last (acknowledge cfg m.source) hlast
      rw [hbeat] at h
      obtain ⟨s₁, hs₁, h⟩ := bind_eq_ok.mp h
      obtain ⟨callback, hregistered, hcalled⟩ := acknowledge_hostCalled hs₁ hconsistent
      refine ⟨callback, hregistered, ?_⟩
      obtain rfl := Except.ok.inj h
      split <;> exact ⟨hcalled.probe, hcalled.probeEn, hcalled.probeAddr⟩
    · rw [if_neg (by simp [Acknowledges, hop, hlast])]
      rw [cBeat_of_not_last _ hlast] at h
      obtain rfl := Except.ok.inj h
      exact ⟨rfl, rfl, rfl⟩
  case h_7 hop =>
    rw [if_neg (by simp [Acknowledges, hop])]
    obtain ⟨blockPerm, hprune⟩ := exists_prune_eq cfg m s
    rw [hprune] at h
    obtain rfl := Except.ok.inj h
    exact ⟨rfl, rfl, rfl⟩
  case h_8 hop =>
    rw [if_neg (by simp [Acknowledges, hop])]
    by_cases hlast : s.cOngoings.getD m.source 0 + 1 = cfg.burstLen m.size
    · obtain ⟨blockPerm, hbeat⟩ := cBeat_of_last
        (fun s ↦ .ok (releaseAck m s)) hlast
      rw [hbeat] at h
      obtain ⟨s₁, hs₁, h⟩ := bind_eq_ok.mp h
      obtain rfl := Except.ok.inj hs₁
      obtain rfl := Except.ok.inj h
      split <;> exact ⟨rfl, rfl, rfl⟩
    · rw [cBeat_of_not_last _ hlast] at h
      obtain rfl := Except.ok.inj h
      exact ⟨rfl, rfl, rfl⟩

theorem dPortDriver_hostKept (h : dPortDriver s = .ok s') : HostKept s s' := by
  unfold dPortDriver at h
  split at h
  · obtain rfl := Except.ok.inj h
    exact HostKept.refl s
  · obtain rfl := Except.ok.inj h
    exact HostKept.refl s
  · obtain rfl := Except.ok.inj h
    exact ⟨rfl, rfl, rfl⟩
  · obtain rfl := Except.ok.inj h
    exact ⟨rfl, rfl, rfl⟩
  · next m callback rest _ _ =>
    obtain ⟨s₁, hs₁, h⟩ := bind_eq_ok.mp h
    obtain rfl := Except.ok.inj h
    cases callback with
    | updatePerm blockAddr param =>
      obtain rfl := Except.ok.inj hs₁
      unfold updatePerm
      split <;> exact ⟨rfl, rfl, rfl⟩
    | updateMem burst =>
      change updateMem burst _ = .ok s₁ at hs₁
      unfold updateMem at hs₁
      split at hs₁
      · exact nomatch hs₁
      · split at hs₁
        · obtain rfl := Except.ok.inj hs₁
          exact ⟨rfl, rfl, rfl⟩
        · exact nomatch hs₁

theorem ePortMonitor_eq_ok {sink : ℕ} (h : ePortMonitor sink s = .ok s') :
    HostKept s s' ∧ s'.ongoingTlc = s.ongoingTlc.erase sink := by
  unfold ePortMonitor at h
  obtain ⟨r, -, h⟩ := bind_eq_ok.mp h
  dsimp only at h
  split at h
  · obtain rfl := Except.ok.inj h
    exact ⟨⟨rfl, rfl, rfl⟩, rfl⟩
  · exact nomatch h

/-- A poll that probes uses the request of the host up. -/
theorem hostInterface_host (h : hostInterface cfg s = .ok s') :
    if HostProbing cfg s then s'.probe = false ∧ s'.probeEn = false ∧ s'.probeAddr = 0
    else HostKept s s' := by
  split
  · next hprobing =>
    obtain ⟨hpoll, htlc, hperm⟩ := hprobing
    unfold hostInterface at h
    rw [if_pos (by rw [hpoll, decide_eq_true htlc]; rfl)] at h
    obtain ⟨-, -, h⟩ := bind_eq_ok.mp h
    rw [if_pos hperm] at h
    obtain ⟨s₁, -, h⟩ := bind_eq_ok.mp h
    obtain rfl := Except.ok.inj h
    exact ⟨rfl, rfl, rfl⟩
  · next hprobing =>
    have hsame := hostInterface_requested h
    rw [if_neg hprobing] at hsame
    rw [hsame]
    exact HostKept.refl s

theorem dataRetriever_hostKept (h : dataRetriever cfg s = .ok s') : HostKept s s' := by
  unfold dataRetriever at h
  split at h
  · have hrun : runCallback cfg (.probeBlocksRec _) _ = .ok s' := h
    have hcalled := runCallback_hostCalled hrun
    exact ⟨hcalled.probe, hcalled.probeEn, hcalled.probeAddr⟩
  · obtain rfl := Except.ok.inj h
    exact HostKept.refl s

/-- One test: what `start` receives and the events until the adapter has stopped. -/
structure Test where
  memory : Dict ℕ ℕ
  blocks : List ℕ
  draws : Draws
  events : List Event

def Test.begin (test : Test) (s : State) : State :=
  restart test.memory test.blocks test.draws s

/-- The tests have been run to their ends on an adapter in the state `s` and leave it in `s'`. -/
inductive Completed (cfg : Config) : State → List Test → State → Prop
  | nil (s : State) : Completed cfg s [] s
  | cons {s s₁ s' : State} {test : Test} {tests : List Test}
    (hrun : run cfg (test.begin s) test.events = .ok s₁) (hstopped : s₁.drive = false)
    (h : Completed cfg s₁ tests s') : Completed cfg s (test :: tests) s'

/-- The events of a run, each with the state before it. -/
def trace (cfg : Config) : State → List Event → List (State × Event)
  | _, [] => []
  | s, event :: events => (s, event) ::
    match step cfg s event with
    | .error _ => []
    | .ok s' => trace cfg s' events

/-- The events of all tests, each with the state before it. -/
def history (cfg : Config) : State → List Test → List (State × Event)
  | _, [] => []
  | s, test :: tests => trace cfg (test.begin s) test.events ++
    match run cfg (test.begin s) test.events with
    | .error _ => []
    | .ok s' => history cfg s' tests

section Latched

variable {flag : State → Bool} {effect : State × Event → Option Bool}

/-- A flag that every step overwrites or keeps is latched along a run. -/
theorem flag_run
    (hstep : ∀ s event s', Simulated s → step cfg s event = .ok s' →
      flag s' = (effect (s, event)).getD (flag s))
    {events : List Event} (hsim : Simulated s) (hrun : run cfg s events = .ok s') :
    flag s' = Latch.run (flag s) ((trace cfg s events).map effect) := by
  induction events generalizing s with
  | nil =>
    obtain rfl := Except.ok.inj hrun
    rfl
  | cons event events ih =>
    unfold run at hrun
    rw [List.foldlM_cons] at hrun
    obtain ⟨s₁, hs₁, hrest⟩ := bind_eq_ok.mp hrun
    rw [ih (hsim.step hs₁) hrest, trace, hs₁, List.map_cons, Latch.run_cons,
      hstep s event s₁ hsim hs₁]

/-- A flag that `start` keeps is latched along a history. -/
theorem flag_completed
    (hstep : ∀ s event s', Simulated s → step cfg s event = .ok s' →
      flag s' = (effect (s, event)).getD (flag s))
    (hbegin : ∀ (test : Test) (s : State), flag (test.begin s) = flag s)
    {tests : List Test} (h : Completed cfg s tests s') :
    flag s' = Latch.run (flag s) ((history cfg s tests).map effect) := by
  induction h with
  | nil s => rfl
  | @cons s s₁ s' test tests hrun _ _ ih =>
    have hsim : Simulated (test.begin s) := simulated_restart _ _ _ s
    have hfirst := flag_run hstep hsim hrun
    rw [hbegin] at hfirst
    rw [ih, hfirst, history, hrun, List.map_append, Latch.run_append]

end Latched

end ProcessorFuzz.TileLink.Adapter
