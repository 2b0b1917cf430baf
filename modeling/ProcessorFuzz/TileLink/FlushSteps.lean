import ProcessorFuzz.TileLink.Flush

/-!
# Steps of a flush

Each step of the adapter and each message of the client keeps them in agreement. The message that
completes an answer takes its probe out of the line; the block of a probe that does not leave the
write permission with the client is `TIP` from then on.
-/

namespace ProcessorFuzz.TileLink.Adapter

open Library

variable {cfg : Config} {s s' : State} {o : Owner} {line : List (Probe Callback)} {m : Sending}

section Transfers

variable {sent rest : List Sending} {held : List ℕ}

theorem givenUp_append (cfg : Config) (sent rest : List Sending) :
    givenUp cfg (sent ++ rest) = givenUp cfg sent ++ givenUp cfg rest := by
  rw [givenUp, List.filter_append, List.map_append]
  rfl

theorem givenUp_cons (cfg : Config) (m : Sending) (rest : List Sending) :
    givenUp cfg (m :: rest) = (if m.GivesUp then [m.block cfg] else []) ++ givenUp cfg rest := by
  unfold givenUp
  by_cases h : m.GivesUp
  · simp [h]
  · simp [h]

theorem givenUp_with_beats (cfg : Config) (m : Sending) (beats : List ℕ) :
    givenUp cfg ({ m with beats := beats } :: rest) = givenUp cfg (m :: rest) := by
  rw [givenUp_cons, givenUp_cons]
  rfl

theorem wordsOnWay_append {taken : ℕ} (h : sent = [] → taken = 0) (m : Sending) :
    wordsOnWay cfg taken (sent ++ [m]) = wordsOnWay cfg taken sent ++ m.words cfg 0 := by
  cases sent with
  | nil =>
    rw [h rfl]
    exact List.append_nil _
  | cons first sent =>
    rw [List.cons_append, wordsOnWay, wordsOnWay, List.flatMap_append, List.flatMap_singleton,
      List.append_assoc]

theorem overlay_append (words words' : List (ℕ × ℕ)) (memory : ℕ → ℕ) :
    overlay (words ++ words') memory = overlay words' (overlay words memory) :=
  List.foldl_append

/-- A transfer about held blocks joins those on the way. -/
theorem InOrder.append (h : InOrder cfg held sent)
    (hholds : m.GivesUp ∨ isCBurst m.header.opcode → m.block cfg ∈ held)
    (hfinal : ∀ probe ∈ m.probe, probe.param ≠ toT → m.block cfg ∈ held → m.GivesUp) :
    InOrder cfg (if m.GivesUp then held.filter (· ≠ m.block cfg) else held) (sent ++ [m]) := by
  have hheld {blockAddr : ℕ} (hnot : blockAddr ∉ held) :
      blockAddr ∉ (if m.GivesUp then held.filter (· ≠ m.block cfg) else held) := by
    split
    · exact fun hmem ↦ hnot (List.mem_of_mem_filter hmem)
    · exact hnot
  have hgives {blockAddr : ℕ} (hnot : blockAddr ∉ held) {rest : List Sending}
      (hrest : blockAddr ∉ givenUp cfg rest) : blockAddr ∉ givenUp cfg (rest ++ [m]) := by
    rw [givenUp_append, List.mem_append, not_or]
    refine ⟨hrest, ?_⟩
    rw [givenUp_cons]
    split
    · next hgives =>
      intro hmem
      obtain rfl := List.mem_singleton.mp hmem
      exact hnot (hholds (.inl hgives))
    · exact List.not_mem_nil
  induction sent with
  | nil =>
    refine ⟨fun hgivesUp ↦ ⟨?_, List.not_mem_nil⟩, fun probe hprobe hparam ↦ ⟨?_, List.not_mem_nil⟩,
      fun hdata ↦ ?_, True.intro⟩
    · rw [if_pos hgivesUp]
      simp
    · by_cases hmem : m.block cfg ∈ held
      · rw [if_pos (hfinal probe hprobe hparam hmem)]
        simp
      · exact hheld hmem
    · have hmem := hholds (.inr hdata)
      by_cases hgivesUp : m.GivesUp
      · right
        rw [givenUp_cons, if_pos hgivesUp]
        exact List.mem_cons_self
      · left
        rw [if_neg hgivesUp]
        exact hmem
  | cons first sent ih =>
    obtain ⟨honce, hlast, hdata, hrest⟩ := h
    refine ⟨fun hgivesUp ↦ ?_, fun probe hprobe hparam ↦ ?_, fun hburst ↦ ?_, ih hrest⟩
    · obtain ⟨hnot, hlater⟩ := honce hgivesUp
      exact ⟨hheld hnot, hgives hnot hlater⟩
    · obtain ⟨hnot, hlater⟩ := hlast probe hprobe hparam
      exact ⟨hheld hnot, hgives hnot hlater⟩
    · change _ ∨ first.block cfg ∈ givenUp cfg ((first :: sent) ++ [m])
      rw [givenUp_append, List.mem_append]
      rcases hdata hburst with hmem | hmem
      · by_cases hblock : m.GivesUp ∧ first.block cfg = m.block cfg
        · right
          right
          rw [givenUp_cons, if_pos hblock.1, hblock.2]
          exact List.mem_cons_self
        · left
          split
          · next hgivesUp =>
            rw [List.mem_filter]
            exact ⟨hmem, by simpa [hgivesUp] using hblock⟩
          · exact hmem
      · exact .inr (.inl hmem)

/-- Nothing is on the way for blocks that nobody holds or gives up. -/
theorem InOrder.words_eq_nil (h : InOrder cfg held sent)
    (hnone : ∀ blockAddr, ¬ (blockAddr ∈ held ∨ blockAddr ∈ givenUp cfg sent)) (taken : ℕ) :
    wordsOnWay cfg taken sent = [] := by
  have hwords : ∀ m ∈ sent, ∀ start, m.words cfg start = [] := by
    induction sent with
    | nil => exact nofun
    | cons first sent ih =>
      obtain ⟨-, -, hdata, hrest⟩ := h
      have hburst : ¬ isCBurst first.header.opcode := fun hburst ↦ hnone _ (hdata hburst)
      refine List.forall_mem_cons.mpr ⟨fun start ↦ ?_, ih hrest fun blockAddr hmem ↦ ?_⟩
      · rw [Sending.words, if_neg hburst]
      · refine hnone blockAddr (hmem.imp_right fun hlater ↦ ?_)
        rw [givenUp_cons]
        exact List.mem_append_right _ hlater
  cases sent with
  | nil => rfl
  | cons first sent =>
    obtain ⟨hfirst, hsent⟩ := List.forall_mem_cons.mp hwords
    rw [wordsOnWay, hfirst, List.nil_append, List.flatMap_eq_nil_iff]
    exact fun m hm ↦ hsent m hm 0

end Transfers

/-- A list of at most one element is its only permutation. -/
theorem eq_toList_of_perm {α : Type} {l l' : List α} {o : Option α} (h : l = o.toList)
    (hperm : l'.Perm l) : l' = o.toList := by
  rw [h] at hperm
  cases o with
  | none => exact hperm.eq_nil
  | some a => exact List.perm_singleton.mp hperm

theorem Sending.length_pos (cfg : Config) (m : Sending) : 0 < m.length cfg := by
  unfold Sending.length
  split
  · exact cfg.burstLen_pos _
  · exact Nat.one_pos

theorem filterMap_probe_append (sent : List Sending) (m : Sending) :
    (sent ++ [m]).filterMap Sending.probe = sent.filterMap Sending.probe ++ m.probe.toList := by
  rw [List.filterMap_append]
  cases hprobe : m.probe <;> simp [hprobe]

/-- At most one probe is out. -/
theorem Agree.length_out_le (h : Agree cfg s o line) :
    s.probes.bQueue.length + s.bPort.toList.length + o.probed.length +
      (o.sent.filterMap Sending.probe).length ≤ 1 := by
  have hle : (line.head?.map (·.message 0)).toList.length ≤ 1 := by
    cases line.head? <;> simp
  rw [← h.out] at hle
  simpa only [List.length_append] using hle

/-- The probe that the client answers is the only one that is out. -/
theorem Agree.alone (h : Agree cfg s o line) {probe : BMessage} {probed : List BMessage}
    (hprobed : o.probed = probe :: probed) :
    probed = [] ∧ o.sent.filterMap Sending.probe = [] := by
  have hle := h.length_out_le
  rw [hprobed, List.length_cons] at hle
  exact ⟨List.eq_nil_of_length_eq_zero (by omega), List.eq_nil_of_length_eq_zero (by omega)⟩

/-- The client sends a Release or an answer. -/
theorem Agree.send (h : Agree cfg s o line) (hsend : FlushEvent.Sendable cfg m o.held)
    (hmade : WellMade cfg m)
    (hfinal : ∀ probe ∈ m.probe, probe.param ≠ toT → m.block cfg ∈ o.held → m.GivesUp)
    {probed : List BMessage} (hprobed : o.probed = m.probe.toList ++ probed) :
    Agree cfg s { o.send cfg m with probed := probed } line where
  probeLine := h.probeLine
  out := by
    refine eq_toList_of_perm h.out ?_
    change (s.probes.bQueue ++ s.bPort.toList ++ probed ++
      (o.sent ++ [m]).filterMap Sending.probe).Perm _
    rw [hprobed, filterMap_probe_append]
    simp only [List.append_assoc]
    refine .append_left _ (.append_left _ ?_)
    rw [← List.append_assoc]
    exact List.perm_append_comm
  received := by
    change o.received = o.answered ++ probed ++ (o.sent ++ [m]).filterMap Sending.probe
    rw [filterMap_probe_append, h.received, hprobed]
    cases hprobe : m.probe with
    | none => simp
    | some probe =>
      rw [hprobe] at hprobed
      have hcons : o.probed = probe :: probed := hprobed
      obtain ⟨hnone, hsent⟩ := h.alone hcons
      simp [hnone, hsent]
  wellMade := by
    intro m' hm'
    rcases List.mem_append.mp hm' with hm' | hm'
    · exact h.wellMade m' hm'
    · exact List.mem_singleton.mp hm' ▸ hmade
  inOrder := h.inOrder.append hsend.holds hfinal
  whole := by
    change ∀ m' ∈ (o.sent ++ [m]).tail, m'.beats.length = m'.length cfg
    have hwhole := h.whole
    cases hsent : o.sent with
    | nil => exact nofun
    | cons first sent =>
      rw [hsent] at hwhole
      intro m' hm'
      rcases List.mem_append.mp hm' with hm' | hm'
      · exact hwhole m' hm'
      · exact List.mem_singleton.mp hm' ▸ hsend.length_eq
  partly := by
    change ∀ m' ∈ (o.sent ++ [m]).head?, o.taken < m'.length cfg ∧
      m'.beats.length + o.taken = m'.length cfg
    have hpartly := h.partly
    cases hsent : o.sent with
    | nil =>
      intro m' hm'
      obtain rfl := Option.some.inj hm'
      rw [(h.idle hsent).1]
      exact ⟨m.length_pos cfg, hsend.length_eq⟩
    | cons first sent =>
      rw [hsent] at hpartly
      exact hpartly
  ongoings := by
    change ∀ m' ∈ (o.sent ++ [m]).head?,
      s.cOngoings = if o.taken = 0 then Dict.empty else Dict.empty.set m'.header.source o.taken
    have hongoings := h.ongoings
    cases hsent : o.sent with
    | nil =>
      intro m' _
      obtain ⟨htaken, hempty⟩ := h.idle hsent
      rw [hempty, if_pos htaken]
    | cons first sent =>
      rw [hsent] at hongoings
      exact hongoings
  idle hnil := absurd hnil (List.append_ne_nil_of_right_ne_nil _ (List.cons_ne_nil m []))
  perm_iff blockAddr := by
    change s.perm blockAddr ≠ .tip ↔
      blockAddr ∈ (if m.GivesUp then o.held.filter (· ≠ m.block cfg) else o.held) ∨
        blockAddr ∈ givenUp cfg (o.sent ++ [m])
    rw [h.perm_iff, givenUp_append, List.mem_append, givenUp_cons]
    by_cases hgives : m.GivesUp
    · have hmem := hsend.holds (.inl hgives)
      rw [if_pos hgives, if_pos hgives, List.mem_filter]
      by_cases heq : blockAddr = m.block cfg
      · subst heq
        simp [hmem, givenUp]
      · simp [heq, givenUp]
    · simp [hgives, givenUp]
  host := h.host
  hostOnce := h.hostOnce
  acknowledged := h.acknowledged

/-- Steps that leave the probes, the permissions and the C channel alone. -/
theorem Agree.congr (h : Agree cfg s o line) (hprobes : s'.probes = s.probes)
    (hport : s'.bPort = s.bPort) (hongoings : s'.cOngoings = s.cOngoings)
    (hperm : s'.blockPerm = s.blockPerm) (htlc : s'.ongoingTlc = s.ongoingTlc)
    (hprobe : s'.probe = s.probe) (haddr : s'.probeAddr = s.probeAddr)
    (hen : s'.probeEn = s.probeEn) : Agree cfg s' o line where
  probeLine := hprobes ▸ h.probeLine
  out := by
    rw [hprobes, hport]
    exact h.out
  received := h.received
  wellMade := h.wellMade
  inOrder := h.inOrder
  whole := h.whole
  partly := h.partly
  ongoings := hongoings ▸ h.ongoings
  idle := hongoings ▸ h.idle
  perm_iff blockAddr := by
    have hsame : s'.perm blockAddr = s.perm blockAddr := by
      rw [State.perm, hperm]
      rfl
    rw [hsame]
    exact h.perm_iff blockAddr
  host := by
    rw [hprobe, haddr, hperm]
    exact h.host
  hostOnce := hen ▸ h.hostOnce
  acknowledged := htlc ▸ h.acknowledged

section Take

theorem perm_prune (cfg : Config) (c : CMessage) (s : State) (blockAddr : ℕ) :
    (prune cfg c s).perm blockAddr =
      if c.param ∈ [TtoB, TtoN] ∧ blockAddr = cfg.blockAddr c.address then .tip
      else s.perm blockAddr := by
  unfold prune
  split
  · next hparam =>
    rw [State.perm, State.setPerm, Dict.getD_set]
    simp only [hparam, true_and]
    rfl
  · next hparam => simp [hparam]

theorem mem_keys_prune {c : CMessage} {blockAddr : ℕ} (h : blockAddr ∈ s.blockPerm.keys) :
    blockAddr ∈ (prune cfg c s).blockPerm.keys := by
  unfold prune
  split
  · exact Dict.mem_keys_set.mpr (.inr h)
  · exact h

theorem word_write (s : State) (addr data : ℕ) :
    (s.write addr data).word = Function.update s.word addr data := by
  funext addr'
  rw [State.word, State.write, Dict.getD_set, Function.update_apply]
  rfl

/-- The state when a transfer is complete: its last word and its permission have arrived. -/
def arrived (cfg : Config) (c : CMessage) (taken : ℕ) (s : State) : State :=
  prune cfg c (if isCBurst c.opcode then
    s.write (cfg.addrAligned c.address + taken * cfg.dataLen) c.data else s)

theorem exists_arrived_eq (cfg : Config) (c : CMessage) (taken : ℕ) (s : State) :
    ∃ memory blockPerm, arrived cfg c taken s =
      { s with memory := memory, blockPerm := blockPerm } := by
  obtain ⟨blockPerm, heq⟩ := exists_prune_eq cfg c (if isCBurst c.opcode then
    s.write (cfg.addrAligned c.address + taken * cfg.dataLen) c.data else s)
  rw [arrived, heq]
  split
  · exact ⟨_, blockPerm, rfl⟩
  · exact ⟨_, blockPerm, rfl⟩

variable {rest : List Sending} {data : ℕ} {beats : List ℕ}

theorem Agree.count_eq (h : Agree cfg s o line) (hsent : o.sent = m :: rest) :
    s.cOngoings.getD m.header.source 0 = o.taken ∧
      (s.cOngoings.keys.isEmpty || decide (m.header.source ∈ s.cOngoings.keys)) = true := by
  have hongoings := h.ongoings m (by rw [hsent]; rfl)
  rw [hongoings]
  split
  · next hzero => exact ⟨hzero.symm, rfl⟩
  · refine ⟨by simp [Dict.getD], ?_⟩
    rw [Bool.or_eq_true, decide_eq_true_eq, Dict.mem_keys_set]
    exact .inr (.inl rfl)

/-- The adapter takes a message from the client that it agrees with. -/
theorem Agree.step_c (h : Agree cfg s o line) (hdrive : s.drive = true)
    (hsent : o.sent = m :: rest) (data : ℕ) :
    step cfg s (.c (m.message data)) =
      cDispatch cfg (m.message data) s := by
  have hmade := h.wellMade m (hsent ▸ List.mem_cons_self)
  exact step_c_eq_dispatch hdrive hmade.checked (h.count_eq hsent).2

/-- The number of the beat that the adapter takes next. -/
theorem Agree.beat_lt (h : Agree cfg s o line) (hsent : o.sent = m :: rest)
    (hbeats : m.beats = data :: beats) : beats.length + 1 + o.taken = m.length cfg := by
  have hpartly := (h.partly m (by rw [hsent]; rfl)).2
  rwa [hbeats] at hpartly

/-- A beat that is not the last one. -/
theorem Agree.step_c_of_ne_nil (h : Agree cfg s o line) (hdrive : s.drive = true)
    (hsent : o.sent = m :: rest) (hbeats : m.beats = data :: beats) (hne : beats ≠ []) :
    isCBurst m.header.opcode = true ∧
      step cfg s (.c (m.message data)) = .ok { s with
        memory := s.memory.set (cfg.addrAligned m.header.address + o.taken * cfg.dataLen) data
        cOngoings := s.cOngoings.set m.header.source (o.taken + 1) } := by
  have hlength := h.beat_lt hsent hbeats
  have hpos := List.length_pos_iff.mpr hne
  have hburst : isCBurst m.header.opcode = true := by
    by_contra hburst
    rw [Sending.length, if_neg hburst] at hlength
    omega
  have hlen : m.length cfg = cfg.burstLen m.header.size := if_pos hburst
  have hcount := (h.count_eq hsent).1
  have hlast : s.cOngoings.getD m.header.source 0 + 1 ≠ cfg.burstLen m.header.size := by
    rw [hcount]
    omega
  refine ⟨hburst, ?_⟩
  rw [h.step_c hdrive hsent]
  have hbeat (finish : State → Except PyError State) :
      cBeat cfg finish (m.message data) s = .ok { s with
        memory := s.memory.set (cfg.addrAligned m.header.address + o.taken * cfg.dataLen) data
        cOngoings := s.cOngoings.set m.header.source (o.taken + 1) } := by
    rw [@cBeat_of_not_last cfg s (m.message data) finish hlast]
    change Except.ok { s with
      memory := s.memory.set (cfg.addrAligned m.header.address +
        s.cOngoings.getD m.header.source 0 * cfg.dataLen) data
      cOngoings := s.cOngoings.set m.header.source
        (s.cOngoings.getD m.header.source 0 + 1) } = _
    rw [hcount]
  have hmade := h.wellMade m (hsent ▸ List.mem_cons_self)
  have hop : (m.message data).opcode = .probeAckData ∨ (m.message data).opcode = .releaseData := by
    change m.header.opcode = _ ∨ m.header.opcode = _
    cases hcase : m.header.opcode <;> simp [hcase, isCBurst] at hburst ⊢
  unfold cDispatch
  rcases hop with hop | hop <;> rw [hop] <;> exact hbeat _

/-- The last beat of a transfer. -/
theorem Agree.cBeat_last (h : Agree cfg s o line) (hsent : o.sent = m :: rest)
    (hbeats : m.beats = [data]) (hburst : isCBurst m.header.opcode = true)
    (finish : State → Except PyError State) {t : State}
    (hfinish : finish (arrived cfg (m.message data) o.taken s) = .ok t)
    (ht : t.cOngoings = s.cOngoings) :
    cBeat cfg finish (m.message data) s =
      .ok { t with cOngoings := Dict.empty } := by
  have hlength := h.beat_lt hsent hbeats
  have hcount := (h.count_eq hsent).1
  have hlen : m.length cfg = cfg.burstLen m.header.size := if_pos hburst
  have hlast : s.cOngoings.getD m.header.source 0 + 1 = cfg.burstLen m.header.size := by
    rw [hcount, ← hlen, ← hlength, List.length_nil]
    omega
  have harrived : prune cfg (m.message data)
      (s.write (cfg.addrAligned m.header.address +
        s.cOngoings.getD m.header.source 0 * cfg.dataLen) data) =
        arrived cfg (m.message data) o.taken s := by
    have hburst' : isCBurst (m.message data).opcode = true := hburst
    rw [arrived, if_pos hburst', hcount]
    rfl
  have hongoings := h.ongoings m (by rw [hsent]; rfl)
  rw [@cBeat_of_last_eq cfg s (m.message data) finish hlast]
  change (finish (prune cfg (m.message data) (s.write (cfg.addrAligned m.header.address +
    s.cOngoings.getD m.header.source 0 * cfg.dataLen) data)) >>= fun t ↦ .ok
      (if s.cOngoings.getD m.header.source 0 ≠ 0 then
        { t with cOngoings := t.cOngoings.erase m.header.source } else t)) = _
  rw [harrived, hfinish, ok_bind, hcount]
  by_cases hzero : o.taken = 0
  · rw [if_neg (not_not.mpr hzero)]
    rw [if_pos hzero] at hongoings
    have hempty : t.cOngoings = Dict.empty := ht.trans hongoings
    rw [← hempty]
  · rw [if_pos hzero, ht, hongoings, if_neg hzero]
    have herase : (Dict.empty.set m.header.source o.taken).erase m.header.source = Dict.empty := by
      apply Dict.ext
      simp [Dict.erase, Dict.set, Dict.empty, Dict.put]
    rw [herase]

/-- A transfer without data is one message. -/
theorem Agree.cOngoings_eq_empty (h : Agree cfg s o line) (hsent : o.sent = m :: rest)
    (hburst : isCBurst m.header.opcode = false) : s.cOngoings = Dict.empty := by
  have hlt := (h.partly m (by rw [hsent]; rfl)).1
  have hlen : m.length cfg = 1 := if_neg (by simp [hburst])
  rw [h.ongoings m (by rw [hsent]; rfl), if_pos (by omega)]

/-- A Release is complete. -/
theorem Agree.step_release (h : Agree cfg s o line) (hdrive : s.drive = true)
    (hsent : o.sent = m :: rest) (hbeats : m.beats = [data]) (hprobe : m.probe = none) :
    step cfg s (.c (m.message data)) =
      .ok { releaseAck (m.message data) (arrived cfg (m.message data) o.taken s) with
        cOngoings := Dict.empty } := by
  rw [h.step_c hdrive hsent]
  obtain ⟨memory, blockPerm, harrived⟩ := exists_arrived_eq cfg (m.message data) o.taken s
  have hmade := h.wellMade m (hsent ▸ List.mem_cons_self)
  have hopcode := hmade.opcode
  rw [hprobe] at hopcode
  have hop : (m.message data).opcode = .release ∨ (m.message data).opcode = .releaseData := by
    change m.header.opcode = .release ∨ m.header.opcode = .releaseData
    simpa using hopcode
  unfold cDispatch
  rcases hop with hop | hop
  · have hburst : isCBurst (m.message data).opcode = false := by rw [hop]; rfl
    have hempty := h.cOngoings_eq_empty hsent hburst
    rw [hop]
    dsimp only
    rw [arrived, hburst, ← hempty]
    obtain ⟨blockPerm', hprune⟩ := exists_prune_eq cfg (m.message data) s
    rw [if_neg Bool.false_ne_true, hprune]
    rfl
  · have hburst : isCBurst (m.message data).opcode = true := by rw [hop]; rfl
    rw [hop]
    refine h.cBeat_last hsent hbeats hburst _ rfl ?_
    rw [harrived]
    rfl

/-- An answer is complete. -/
theorem Agree.step_answer (h : Agree cfg s o line) (hdrive : s.drive = true)
    (hsent : o.sent = m :: rest) (hbeats : m.beats = [data]) {probe : BMessage}
    (hprobe : m.probe = some probe) {t : State}
    (hack : acknowledge cfg m.header.source (arrived cfg (m.message data) o.taken s) = .ok t)
    (ht : t.cOngoings = s.cOngoings) :
    step cfg s (.c (m.message data)) = .ok { t with cOngoings := Dict.empty } := by
  rw [h.step_c hdrive hsent]
  have hmade := h.wellMade m (hsent ▸ List.mem_cons_self)
  have hopcode := hmade.opcode
  rw [hprobe] at hopcode
  have hop : (m.message data).opcode = .probeAck ∨ (m.message data).opcode = .probeAckData := by
    change m.header.opcode = .probeAck ∨ m.header.opcode = .probeAckData
    simpa using hopcode
  unfold cDispatch
  rcases hop with hop | hop
  · have hburst : isCBurst (m.message data).opcode = false := by rw [hop]; rfl
    have hempty : t.cOngoings = Dict.empty := ht.trans (h.cOngoings_eq_empty hsent hburst)
    rw [arrived, hburst, if_neg Bool.false_ne_true] at hack
    rw [hop, ← hempty]
    exact hack
  · have hburst : isCBurst (m.message data).opcode = true := by rw [hop]; rfl
    rw [hop]
    exact h.cBeat_last hsent hbeats hburst _ hack ht

theorem wordsOnWay_zero (cfg : Config) (sent : List Sending) :
    wordsOnWay cfg 0 sent = sent.flatMap (·.words cfg 0) := by
  cases sent with
  | nil => rfl
  | cons first sent => rfl

theorem word_arrived (hbeats : m.beats = [data]) (taken : ℕ) (s : State) :
    (arrived cfg (m.message data) taken s).word = overlay (m.words cfg taken) s.word := by
  have hprune (t : State) : (prune cfg (m.message data) t).word = t.word := by
    obtain ⟨blockPerm, heq⟩ := exists_prune_eq cfg (m.message data) t
    rw [heq]
    rfl
  rw [arrived, hprune, Sending.words]
  change State.word (if isCBurst m.header.opcode then _ else s) = _
  split
  · rw [word_write, hbeats]
    rfl
  · rfl

theorem perm_arrived (cfg : Config) (c : CMessage) (taken : ℕ) (s : State) (blockAddr : ℕ) :
    (arrived cfg c taken s).perm blockAddr =
      if c.param ∈ [TtoB, TtoN] ∧ blockAddr = cfg.blockAddr c.address then .tip
      else s.perm blockAddr := by
  have hwrite (b : Bool) (addr : ℕ) :
      (if b then s.write addr c.data else s).perm blockAddr = s.perm blockAddr := by
    cases b <;> rfl
  rw [arrived, perm_prune, hwrite]

theorem mem_keys_arrived {c : CMessage} {taken blockAddr : ℕ}
    (h : blockAddr ∈ s.blockPerm.keys) : blockAddr ∈ (arrived cfg c taken s).blockPerm.keys := by
  have hwrite (b : Bool) (addr : ℕ) :
      (if b then s.write addr c.data else s).blockPerm = s.blockPerm := by
    cases b <;> rfl
  refine mem_keys_prune ?_
  rwa [hwrite]

/-- The answer on the C channel is for the first probe in line, and no other probe is out. -/
theorem Agree.exists_head (h : Agree cfg s o line) (hsent : o.sent = m :: rest) {probe : BMessage}
    (hprobe : m.probe = some probe) :
    ∃ p line', line = p :: line' ∧ probe = p.message 0 ∧ s.probes.bQueue = [] ∧ s.bPort = none ∧
      o.probed = [] ∧ rest.filterMap Sending.probe = [] := by
  have hout := h.out
  have hfilter : o.sent.filterMap Sending.probe = probe :: rest.filterMap Sending.probe := by
    rw [hsent, List.filterMap_cons, hprobe]
  rw [hfilter] at hout
  cases hline : line with
  | nil => simp [hline] at hout
  | cons p line' =>
    rw [hline] at hout
    have hle := h.length_out_le
    rw [hfilter, List.length_cons] at hle
    have hqueue := List.eq_nil_of_length_eq_zero (l := s.probes.bQueue) (by omega)
    have hport := List.eq_nil_of_length_eq_zero (l := s.bPort.toList) (by omega)
    have hprobed := List.eq_nil_of_length_eq_zero (l := o.probed) (by omega)
    have hrest := List.eq_nil_of_length_eq_zero (l := rest.filterMap Sending.probe) (by omega)
    rw [hqueue, hport, hprobed, hrest] at hout
    exact ⟨p, line', rfl, List.singleton_inj.mp hout, hqueue, Option.toList_eq_nil_iff.mp hport,
      hprobed, hrest⟩

/-- A transfer is complete: its permission has arrived, and its probe is no longer out. -/
theorem Agree.complete (h : Agree cfg s o line) (hsent : o.sent = m :: rest)
    {line' : List (Probe Callback)}
    (hperm : s'.blockPerm = (arrived cfg (m.message data) o.taken s).blockPerm)
    (hongoings : s'.cOngoings = Dict.empty) (htlc : s'.ongoingTlc = s.ongoingTlc)
    (hprobe : s'.probe = s.probe) (haddr : s'.probeAddr = s.probeAddr)
    (hline : ProbeLine s'.probes line')
    (hout : s'.probes.bQueue ++ s'.bPort.toList ++ o.probed ++ rest.filterMap Sending.probe =
      (line'.head?.map (·.message 0)).toList)
    (honce : line'.countP isHost + (if s'.probeEn then 1 else 0) ≤ 1) :
    Agree cfg s' { o with sent := rest, taken := 0, answered := o.answered ++ m.probe.toList }
      line' where
  probeLine := hline
  out := hout
  received := by
    change o.received = o.answered ++ m.probe.toList ++ o.probed ++ rest.filterMap Sending.probe
    have hreceived := h.received
    rw [hsent] at hreceived
    cases hprobe' : m.probe with
    | none => simpa [List.filterMap_cons, hprobe'] using hreceived
    | some probe =>
      obtain ⟨_, _, _, _, _, _, hprobed, _⟩ := h.exists_head hsent hprobe'
      simpa [List.filterMap_cons, hprobe', hprobed] using hreceived
  wellMade m' hm' := h.wellMade m' (hsent ▸ List.mem_cons_of_mem m hm')
  inOrder := by
    have hinOrder := h.inOrder
    rw [hsent] at hinOrder
    exact hinOrder.2.2.2
  whole m' hm' := h.whole m' (by
    rw [hsent]
    exact List.mem_of_mem_tail hm')
  partly m' hm' := by
    have hwhole := h.whole m' (by
      rw [hsent]
      exact List.mem_of_mem_head? hm')
    exact ⟨m'.length_pos cfg, hwhole⟩
  ongoings m' hm' := hongoings.trans (if_pos rfl).symm
  idle _ := ⟨rfl, hongoings⟩
  perm_iff blockAddr := by
    have hsame : s'.perm blockAddr =
        (arrived cfg (m.message data) o.taken s).perm blockAddr := by
      rw [State.perm, hperm]
      rfl
    have hiff := h.perm_iff blockAddr
    have hinOrder := h.inOrder
    rw [hsent] at hiff hinOrder
    rw [givenUp_cons] at hiff
    rw [hsame, perm_arrived]
    change (if m.GivesUp ∧ blockAddr = m.block cfg then _ else _) ≠ _ ↔ _
    by_cases hgives : m.GivesUp
    · by_cases heq : blockAddr = m.block cfg
      · obtain ⟨hheld, hrest⟩ := hinOrder.1 hgives
        subst heq
        simp [hgives, hheld, hrest]
      · simpa [hgives, heq] using hiff
    · simpa [hgives] using hiff
  host hasked := by
    rw [hprobe] at hasked
    rw [haddr, hperm]
    exact mem_keys_arrived (h.host hasked)
  hostOnce := honce
  acknowledged := htlc ▸ h.acknowledged

/-- The adapter has taken a message: whether or not it was an answer, no word is lost, and blocks
that were `TIP` stay so. -/
structure Took (cfg : Config) (s : State) (o : Owner) (line : List (Probe Callback)) (s' : State)
    (line' : List (Probe Callback)) : Prop where
  agree : Agree cfg s' o.take line'
  word : overlay (wordsOnWay cfg o.take.taken o.take.sent) s'.word =
    overlay (wordsOnWay cfg o.taken o.sent) s.word
  dQueue : ∃ ms : List DMessage, s'.dQueue = s.dQueue ++ ms.map plain
  retrieved : s'.retrieved = s.retrieved
  perm : ∀ blockAddr, s.perm blockAddr = .tip → s'.perm blockAddr = .tip
  answered : line' = line ∧ o.take.answered = o.answered ∧ s'.drive = s.drive ∨
    ∃ p rest, line = p :: rest ∧ line' = rest ++ p.callback.requests cfg ∧
      o.take.answered = o.answered ++ [p.message 0] ∧
      s'.drive = (if p.callback = .probeBlocksRec [] then false else s.drive) ∧
      (p.param ≠ toT → s'.perm (cfg.blockAddr p.addr) = .tip)

theorem Owner.take_of_ne_nil (hsent : o.sent = m :: rest) (hbeats : m.beats = data :: beats)
    (hne : beats ≠ []) :
    o.take = { o with sent := { m with beats := beats } :: rest, taken := o.taken + 1 } := by
  unfold Owner.take
  rw [hsent]
  dsimp only
  rw [hbeats]
  exact if_neg hne

theorem Owner.take_of_last (hsent : o.sent = m :: rest) (hbeats : m.beats = [data]) :
    o.take = { o with
      sent := rest
      taken := 0
      answered := o.answered ++ m.probe.toList } := by
  unfold Owner.take
  rw [hsent]
  dsimp only
  rw [hbeats]
  exact if_pos rfl

/-- A beat that is not the last one. -/
theorem Agree.exists_take_of_ne_nil (h : Agree cfg s o line) (hdrive : s.drive = true)
    (hsent : o.sent = m :: rest) (hbeats : m.beats = data :: beats) (hne : beats ≠ []) :
    ∃ s', step cfg s (.c (m.message data)) = .ok s' ∧ Took cfg s o line s' line := by
  obtain ⟨hburst, hstep⟩ := h.step_c_of_ne_nil hdrive hsent hbeats hne
  have htake := Owner.take_of_ne_nil hsent hbeats hne
  have hlength := h.beat_lt hsent hbeats
  have hpos := List.length_pos_iff.mpr hne
  refine ⟨_, hstep, ⟨?_, ?_, ⟨[], (List.append_nil _).symm⟩, rfl, fun _ htip ↦ htip,
    .inl ⟨rfl, by rw [htake], rfl⟩⟩⟩
  · rw [htake]
    refine ⟨h.probeLine, ?_, ?_, ?_, ?_, ?_, ?_, ?_, nofun, ?_, h.host, h.hostOnce, h.acknowledged⟩
    · have hout := h.out
      rw [hsent] at hout
      exact hout
    · have hreceived := h.received
      rw [hsent] at hreceived
      exact hreceived
    · intro m' hm'
      rcases List.mem_cons.mp hm' with rfl | hm'
      · obtain ⟨hchecked, hopcode, hprobe⟩ := h.wellMade m (hsent ▸ List.mem_cons_self)
        exact ⟨hchecked, hopcode, hprobe⟩
      · exact h.wellMade m' (hsent ▸ List.mem_cons_of_mem m hm')
    · have hinOrder := h.inOrder
      rw [hsent] at hinOrder
      obtain ⟨honce, hlast, hdata, hrest⟩ := hinOrder
      rw [← givenUp_with_beats cfg m beats] at hdata
      exact ⟨honce, hlast, hdata, hrest⟩
    · intro m' hm'
      exact h.whole m' (by
        rw [hsent]
        exact hm')
    · intro m' hm'
      obtain rfl := Option.some.inj hm'
      change o.taken + 1 < m.length cfg ∧ beats.length + (o.taken + 1) = m.length cfg
      omega
    · intro m' hm'
      obtain rfl := Option.some.inj hm'
      change s.cOngoings.set m.header.source (o.taken + 1) =
        Dict.empty.set m.header.source (o.taken + 1)
      rw [h.ongoings m (by rw [hsent]; rfl)]
      split
      · rfl
      · exact Dict.set_set _ _ _ _
    · have hiff := h.perm_iff
      rw [hsent, ← givenUp_with_beats cfg m beats] at hiff
      exact hiff
  · rw [htake, hsent]
    have hword := word_write s (cfg.addrAligned m.header.address + o.taken * cfg.dataLen) data
    change overlay (Sending.words cfg { m with beats := beats } (o.taken + 1) ++ _)
      (s.write (cfg.addrAligned m.header.address + o.taken * cfg.dataLen) data).word = _
    rw [wordsOnWay, overlay_append, overlay_append, hword, Sending.words, Sending.words,
      if_pos hburst, if_pos hburst, hbeats]
    rfl

/-- A Release is complete. -/
theorem Agree.exists_take_release (h : Agree cfg s o line) (hdrive : s.drive = true)
    (hsent : o.sent = m :: rest) (hbeats : m.beats = [data]) (hprobe : m.probe = none) :
    ∃ s', step cfg s (.c (m.message data)) = .ok s' ∧ Took cfg s o line s' line := by
  have hstep := h.step_release hdrive hsent hbeats hprobe
  have htake := Owner.take_of_last hsent hbeats
  have hword := @word_arrived cfg m data hbeats o.taken s
  have hperm := perm_arrived cfg (m.message data) o.taken s
  obtain ⟨memory, blockPerm, harrived⟩ := exists_arrived_eq cfg (m.message data) o.taken s
  refine ⟨_, hstep, ⟨?_, ?_,
    ⟨[{ opcode := .releaseAck, size := m.header.size, source := m.header.source }], ?_⟩, ?_, ?_,
    .inl ⟨rfl, ?_, ?_⟩⟩⟩
  · rw [htake]
    refine h.complete hsent rfl rfl ?_ ?_ ?_ ?_ ?_ ?_
    all_goals rw [harrived]
    · rfl
    · rfl
    · rfl
    · exact h.probeLine
    · have hout := h.out
      rw [hsent, List.filterMap_cons, hprobe] at hout
      exact hout
    · exact h.hostOnce
  · rw [htake, hsent, wordsOnWay, overlay_append, ← hword, wordsOnWay_zero]
    rfl
  · rw [harrived]
    rfl
  · rw [harrived]
    rfl
  · intro blockAddr htip
    refine (hperm blockAddr).trans ?_
    rw [htip, ite_self]
  · rw [htake, hprobe]
    exact List.append_nil _
  · rw [harrived]
    rfl

/-- Only a flush requests probes, and only its own. -/
theorem Harmless.requests {callback : Callback} (h : Harmless callback) :
    ∀ p ∈ callback.requests cfg, isFlush p = true ∧ Harmless p.callback := by
  cases h with
  | read => exact nofun
  | flush probeAddrs =>
    cases probeAddrs with
    | nil => exact nofun
    | cons addr rest => exact List.forall_mem_singleton.mpr ⟨rfl, .flush rest⟩
  | host => exact nofun

theorem isHost_of_isFlush {p : Probe Callback} (h : isFlush p = true) : isHost p = false := by
  unfold isFlush at h
  unfold isHost
  cases hcallback : p.callback with
  | probeBlocksRec probeAddrs => exact decide_eq_false nofun
  | _ => simp [hcallback] at h

/-- The host may ask again once its probe has been answered. -/
theorem countP_isHost_answered {p : Probe Callback} {behind : List (Probe Callback)}
    (hharmless : Harmless p.callback) {probeEn probeEn' : Bool}
    (hprobeEn : probeEn' = if p.callback = .enableProbe then true else probeEn)
    (honce : (p :: behind).countP isHost + (if probeEn then 1 else 0) ≤ 1) :
    (behind ++ p.callback.requests cfg).countP isHost + (if probeEn' then 1 else 0) ≤ 1 := by
  have hnone : (p.callback.requests cfg).countP isHost = 0 :=
    List.countP_eq_zero.mpr fun q hq ↦ by
      rw [isHost_of_isFlush (hharmless.requests q hq).1]
      exact Bool.false_ne_true
  rw [List.countP_append, hnone, hprobeEn]
  rw [List.countP_cons] at honce
  by_cases hhost : p.callback = .enableProbe
  · have hisHost : isHost p = true := decide_eq_true hhost
    rw [if_pos hhost]
    rw [if_pos hisHost] at honce
    simp only [if_true]
    omega
  · rw [if_neg hhost]
    omega

/-- An answer is complete. -/
theorem Agree.exists_take_answer (h : Agree cfg s o line) (hdrive : s.drive = true)
    (hharmless : ∀ p ∈ line, Harmless p.callback) (hsent : o.sent = m :: rest)
    (hbeats : m.beats = [data]) {probe : BMessage} (hprobe : m.probe = some probe) :
    ∃ s' line', step cfg s (.c (m.message data)) = .ok s' ∧ Took cfg s o line s' line' := by
  obtain ⟨p, behind, rfl, rfl, hqueue, hport, hprobed, hrest⟩ := h.exists_head hsent hprobe
  have htake := Owner.take_of_last hsent hbeats
  have hword := @word_arrived cfg m data hbeats o.taken s
  have hperm := perm_arrived cfg (m.message data) o.taken s
  obtain ⟨memory, blockPerm, harrived⟩ := exists_arrived_eq cfg (m.message data) o.taken s
  have hmade := h.wellMade m (hsent ▸ List.mem_cons_self)
  obtain ⟨hsource, hblock⟩ := hmade.probe _ hprobe
  have hcallback := hharmless p List.mem_cons_self
  obtain ⟨t, hack, hline, hbQueue, hcontinued⟩ :=
    @ProbeLine.exists_acknowledge cfg (arrived cfg (m.message data) o.taken s) p behind
      (by rw [harrived]; exact h.probeLine) hcallback
  obtain ⟨hpermEq, hmemory, ⟨ms, hdQueue⟩, hdriveEq, hprobeEn, hsame⟩ := hcontinued
  obtain ⟨memory', dQueue', drive', probeEn', probes', ht⟩ := hsame
  rw [harrived] at ht
  have hsource' : m.header.source = 0 := hsource
  rw [← hsource'] at hack
  have hstep := h.step_answer hdrive hsent hbeats hprobe hack (by rw [ht])
  have hagree : Agree cfg { t with cOngoings := Dict.empty } o.take
      (behind ++ p.callback.requests cfg) := by
    rw [htake]
    refine h.complete hsent hpermEq rfl ?_ ?_ ?_ hline ?_ ?_
    · rw [ht]
    · rw [ht]
    · rw [ht]
    · change t.probes.bQueue ++ t.bPort.toList ++ o.probed ++ _ = _
      have hbPort : t.bPort = none := by
        rw [ht]
        exact hport
      rw [hbQueue, harrived, hqueue, hbPort, hprobed, hrest, List.append_nil, List.append_nil]
      exact List.append_nil _
    · exact countP_isHost_answered hcallback (hprobeEn.trans (by rw [harrived])) h.hostOnce
  refine ⟨_, _, hstep, hagree, ?_, ⟨ms, ?_⟩, ?_, ?_, .inr ⟨p, behind, rfl, rfl, ?_, ?_, ?_⟩⟩
  · have hwordEq : State.word { t with cOngoings := Dict.empty } =
        (arrived cfg (m.message data) o.taken s).word := funext hmemory
    rw [htake, hsent, wordsOnWay, overlay_append, ← hword, wordsOnWay_zero, hwordEq]
  · change t.dQueue = _
    rw [hdQueue, harrived]
  · change t.retrieved = _
    rw [ht]
  · intro blockAddr htip
    have hsamePerm : State.perm { t with cOngoings := Dict.empty } blockAddr =
        (arrived cfg (m.message data) o.taken s).perm blockAddr := by
      unfold State.perm
      rw [← hpermEq]
    rw [hsamePerm, hperm, htip, ite_self]
  · rw [htake, hprobe]
    rfl
  · change t.drive = _
    rw [hdriveEq, harrived]
  · intro hparam
    by_contra htip
    have hopen := (hagree.perm_iff _).mp htip
    rw [htake] at hopen
    have hinOrder := h.inOrder
    rw [hsent] at hinOrder
    obtain ⟨hheld, hgiven⟩ := hinOrder.2.1 _ hprobe hparam
    have hblock' : m.block cfg = cfg.blockAddr p.addr := hblock
    rw [← hblock'] at hopen
    exact hopen.elim hheld hgiven

/-- The adapter takes the next message of its client. -/
theorem Agree.exists_take (h : Agree cfg s o line) (hdrive : s.drive = true)
    (hharmless : ∀ p ∈ line, Harmless p.callback) {c : CMessage} (hnext : o.next = some c) :
    ∃ s' line', step cfg s (.c c) = .ok s' ∧ Took cfg s o line s' line' := by
  obtain ⟨m, hhead, hbeat⟩ := Option.bind_eq_some_iff.mp hnext
  obtain ⟨data, hdata, rfl⟩ := Option.map_eq_some_iff.mp hbeat
  obtain ⟨rest, hsent⟩ := List.head?_eq_some_iff.mp hhead
  obtain ⟨beats, hbeats⟩ := List.head?_eq_some_iff.mp hdata
  by_cases hne : beats = []
  · rw [hne] at hbeats
    cases hprobe : m.probe with
    | none =>
      obtain ⟨s', hstep, htook⟩ := h.exists_take_release hdrive hsent hbeats hprobe
      exact ⟨s', line, hstep, htook⟩
    | some probe => exact h.exists_take_answer hdrive hharmless hsent hbeats hprobe
  · obtain ⟨s', hstep, htook⟩ := h.exists_take_of_ne_nil hdrive hsent hbeats hne
    exact ⟨s', line, hstep, htook⟩

end Take

section Alone

/-- A step of the adapter that takes no message: at most its D queue gets shorter. -/
structure Silent (s s' : State) : Prop where
  drive : s'.drive = s.drive
  retrieved : s'.retrieved = s.retrieved
  memory : s'.memory = s.memory
  blockPerm : s'.blockPerm = s.blockPerm
  dQueue : s'.dQueue <:+ s.dQueue

theorem Silent.refl (s : State) : Silent s s := ⟨rfl, rfl, rfl, rfl, List.suffix_rfl⟩

theorem Silent.word (h : Silent s s') : s'.word = s.word := by
  funext addr
  rw [State.word, h.memory]
  rfl

theorem Silent.perm (h : Silent s s') (blockAddr : ℕ) : s'.perm blockAddr = s.perm blockAddr := by
  rw [State.perm, h.blockPerm]
  rfl

/-- A probe goes from the queue to the port. -/
theorem Agree.bPortDriver (h : Agree cfg s o line) :
    Agree cfg (bPortDriver s) o line ∧ Silent s (bPortDriver s) := by
  unfold Adapter.bPortDriver
  split
  · exact ⟨h, .refl s⟩
  · exact ⟨h, .refl s⟩
  · next msg rest hport hqueue =>
    refine ⟨⟨h.probeLine.frame rfl rfl, ?_, h.received, h.wellMade, h.inOrder, h.whole, h.partly,
      h.ongoings, h.idle, h.perm_iff, h.host, h.hostOnce, h.acknowledged⟩,
      ⟨rfl, rfl, rfl, rfl, List.suffix_rfl⟩⟩
    refine eq_toList_of_perm h.out ?_
    rw [hqueue, hport]
    simp only [Option.toList_some, Option.toList_none, List.append_nil, List.append_assoc,
      List.cons_append, List.nil_append]
    exact List.perm_middle

/-- The client receives the probe that the port presents. -/
theorem Agree.bFire (h : Agree cfg s o line) :
    Agree cfg { s with bPort := none } (o.receive s.bPort) line where
  probeLine := h.probeLine
  out := by
    refine eq_toList_of_perm h.out ?_
    change (s.probes.bQueue ++ [] ++ (o.probed ++ s.bPort.toList) ++
      o.sent.filterMap Sending.probe).Perm _
    rw [List.append_nil, List.append_assoc s.probes.bQueue s.bPort.toList]
    refine .append_right _ ?_
    exact .append_left _ List.perm_append_comm
  received := by
    change o.received ++ s.bPort.toList =
      o.answered ++ (o.probed ++ s.bPort.toList) ++ o.sent.filterMap Sending.probe
    rw [h.received]
    cases hport : s.bPort with
    | none => simp
    | some msg =>
      have hle := h.length_out_le
      rw [hport, Option.toList_some, List.length_singleton] at hle
      have hsent := List.eq_nil_of_length_eq_zero (l := o.sent.filterMap Sending.probe) (by omega)
      simp [hsent]
  wellMade := h.wellMade
  inOrder := h.inOrder
  whole := h.whole
  partly := h.partly
  ongoings := h.ongoings
  idle := h.idle
  perm_iff := h.perm_iff
  host := h.host
  hostOnce := h.hostOnce
  acknowledged := h.acknowledged

/-- A request joins the line of probes. -/
theorem Agree.exists_request (h : Agree cfg s o line) (p : Probe Callback) :
    ∃ probes, s.probes.retrieveBlock p = .ok probes ∧
      ∀ (probe probeEn : Bool) (probeAddr : ℕ),
        (probe → cfg.blockAddr probeAddr ∈ s.blockPerm.keys) →
        (line ++ [p]).countP isHost + (if probeEn then 1 else 0) ≤ 1 →
        Agree cfg { s with
          probes := probes
          probe := probe
          probeEn := probeEn
          probeAddr := probeAddr } o (line ++ [p]) := by
  obtain ⟨probes, hretrieve, hline, hqueue⟩ := h.probeLine.retrieveBlock p
  refine ⟨probes, hretrieve, fun probe probeEn probeAddr hhost honce ↦
    ⟨hline, ?_, h.received, h.wellMade, h.inOrder, h.whole, h.partly, h.ongoings, h.idle,
      h.perm_iff, hhost, honce, h.acknowledged⟩⟩
  change probes.bQueue ++ s.bPort.toList ++ o.probed ++ o.sent.filterMap Sending.probe = _
  rw [hqueue]
  have hout := h.out
  cases line with
  | nil =>
    simp only [List.head?_nil, Option.map_none, Option.toList_none, List.append_eq_nil_iff] at hout
    obtain ⟨⟨⟨hbQueue, hport⟩, hprobed⟩, hsent⟩ := hout
    rw [hbQueue, hport, hprobed, hsent]
    rfl
  | cons q line =>
    rw [if_neg (List.cons_ne_nil q line), List.append_nil, hout]
    rfl

/-- The host polls. It may request a probe. -/
theorem Agree.exists_hostInterface (h : Agree cfg s o line) :
    ∃ s' line', hostInterface cfg s = .ok s' ∧ Agree cfg s' o line' ∧ Silent s s' ∧
      (line' = line ∨ ∃ p, line' = line ++ [p] ∧ p.callback = .enableProbe) := by
  unfold hostInterface
  by_cases hasks : ((s.probe && s.probeEn) && decide (s.probeAddr ∉ s.ongoingTlc.values)) = true
  · rw [if_pos hasks]
    simp only [Bool.and_eq_true, decide_eq_true_eq] at hasks
    obtain ⟨⟨hprobe, hprobeEn⟩, -⟩ := hasks
    dsimp only
    rw [assert_eq_ok.mpr (decide_eq_true (h.host hprobe)), ok_bind]
    by_cases htip : s.perm (cfg.blockAddr s.probeAddr) ≠ .tip
    · let p : Probe Callback :=
        { callback := .enableProbe, param := toN, size := cfg.probeSize, addr := s.probeAddr
          mask := cfg.probeMask }
      obtain ⟨probes, hretrieve, hagree⟩ := h.exists_request p
      have honce := h.hostOnce
      rw [if_pos hprobeEn] at honce
      rw [if_pos htip, State.retrieveBlock_eq_ok.mpr ⟨probes, hretrieve, rfl⟩]
      refine ⟨_, _, rfl, hagree false false 0 nofun ?_, ⟨rfl, rfl, rfl, rfl, List.suffix_rfl⟩,
        .inr ⟨p, rfl, rfl⟩⟩
      rw [List.countP_append]
      change _ + 1 + 0 ≤ 1
      omega
    · rw [if_neg htip]
      exact ⟨s, line, rfl, h, .refl s, .inl rfl⟩
  · rw [if_neg hasks]
    exact ⟨s, line, rfl, h, .refl s, .inl rfl⟩

/-- The D port takes an entry without a callback. -/
theorem Agree.exists_dPortDriver (h : Agree cfg s o line)
    (hplain : ∀ m callback, some (m, some callback) ∉ s.dQueue) :
    ∃ s', dPortDriver s = .ok s' ∧ Agree cfg s' o line ∧ Silent s s' := by
  unfold dPortDriver
  split
  · exact ⟨s, rfl, h, .refl s⟩
  · exact ⟨s, rfl, h, .refl s⟩
  · next rest _ hqueue =>
    exact ⟨_, rfl, h.congr rfl rfl rfl rfl rfl rfl rfl rfl,
      ⟨rfl, rfl, rfl, rfl, hqueue ▸ List.suffix_cons _ rest⟩⟩
  · next rest _ hqueue =>
    exact ⟨_, rfl, h.congr rfl rfl rfl rfl rfl rfl rfl rfl,
      ⟨rfl, rfl, rfl, rfl, hqueue ▸ List.suffix_cons _ rest⟩⟩
  · next msg callback rest _ hqueue =>
    exact absurd (hqueue ▸ List.mem_cons_self) (hplain msg callback)

end Alone

end ProcessorFuzz.TileLink.Adapter
