import ProcessorFuzz.TileLink.Client

/-!
# The probed path and the direct path

A request on a block that is not `TIP` is executed by a continuation, once the client has answered
a probe; on a `TIP` block the handler executes it at once. The two implementations are compared on
puts, atomic operations and `AcquirePerm`: the direct path serves every legal request and the probed
path raises on every one.
-/

namespace ProcessorFuzz.TileLink.Adapter

open Library Client

variable {cfg : Config} {s s' : State}

/-- A client's answer to a probe: `ProbeAck`, or `ProbeAckData` with the contents of the block. -/
structure ProbeAnswer where
  param : ℕ
  contents : Option (List ℕ)

namespace ProbeAnswer

def messages (answer : ProbeAnswer) (probe : BMessage) : List CMessage :=
  match answer.contents with
  | none =>
    [{ opcode := .probeAck, param := answer.param, size := probe.size, source := probe.source
       address := probe.address, data := 0, corrupt := 0 }]
  | some words => words.map fun word ↦
    { opcode := .probeAckData, param := answer.param, size := probe.size
      source := probe.source, address := probe.address, data := word, corrupt := 0 }

/-- The memory with the contents of the answer written to it. -/
def absorb (cfg : Config) (answer : ProbeAnswer) (addr : ℕ) (memory : Dict ℕ ℕ) : Dict ℕ ℕ :=
  match answer.contents with
  | none => memory
  | some words => words.zipIdx.foldl
    (fun memory entry ↦ memory.set (cfg.addrAligned addr + entry.2 * cfg.dataLen) entry.1) memory

/-- The parameter is one of the prunes and reports, and the contents fill the block. -/
structure Legal (cfg : Config) (answer : ProbeAnswer) (size : ℕ) : Prop where
  param_mem : answer.param ∈ [TtoB, TtoN, BtoN, TtoT, BtoB, NtoN]
  length_eq : ∀ words, answer.contents = some words → words.length = cfg.burstLen size

end ProbeAnswer

/-- One pop of `d_queue` and the transfer that follows. -/
def deliver (cfg : Config) (out : List DMessage × State) :
    Except PyError (List DMessage × State) := do
  let s ← step cfg out.2 .dPop
  let s' ← step cfg s .dFire
  return (out.1 ++ s.dPort.toList, s')

/-- All messages of `d_queue` are delivered. -/
def drain (cfg : Config) (s : State) : Except PyError (List DMessage × State) :=
  s.dQueue.foldlM (fun out _ ↦ deliver cfg out) ([], s)

/-- The answer of the client to the probe that the B port presents. -/
def ProbeAnswer.toPort (answer : ProbeAnswer) (s : State) : List CMessage :=
  match s.bPort with
  | none => []
  | some probe => answer.messages probe

/-- The probe is received and answered, and `d_queue` is drained. -/
def answerProbe (cfg : Config) (answer : ProbeAnswer) (s : State) :
    Except PyError (List DMessage × State) := do
  let s ← step cfg s .bPop
  let s ← run cfg s (.bFire :: (answer.toPort s).map .c)
  drain cfg s

/-- The request is sent, and its probe is answered. -/
def probedPath (cfg : Config) (request : List AMessage) (answer : ProbeAnswer) (s : State) :
    Except PyError (List DMessage × State) := do
  let s ← run cfg s (request.map .a)
  answerProbe cfg answer s

/-- The contents are written to the memory first, and the request finds the block `TIP`. -/
def directPath (cfg : Config) (request : List AMessage) (answer : ProbeAnswer) (addr : ℕ)
    (s : State) : Except PyError (List DMessage × State) := do
  let s := { s with memory := answer.absorb cfg addr s.memory }.setPerm (cfg.blockAddr addr) .tip
  let s ← run cfg s (request.map .a)
  drain cfg s

/-- Both paths end, with the same memory and the same responses, and every sink of a response is
in use. -/
def Agrees (cfg : Config) (request : List AMessage) (answer : ProbeAnswer) (addr : ℕ) (s : State) :
    Prop :=
  ∃ probed direct, probedPath cfg request answer s = .ok probed ∧
    directPath cfg request answer addr s = .ok direct ∧
    (∀ addr, probed.2.memory.get? addr = direct.2.memory.get? addr) ∧
    probed.1.map (fun m ↦ { m with sink := 0 }) = direct.1.map (fun m ↦ { m with sink := 0 }) ∧
    ∀ m ∈ probed.1, m.opcode = .grant → m.sink ∉ probed.2.dSinks.freeList

/-- A request that the two paths serve: the messages of a put burst, or one message. -/
structure LegalRequest (cfg : Config) (first : AMessage) (beats : List AMessage) : Prop where
  opcode : needsTip first.opcode
  length_eq : beats.length + 1 = if hasBurst first.opcode then cfg.burstLen first.size else 1
  wellFormed : ∀ m ∈ first :: beats, WellFormedA cfg m
  continues : ∀ m ∈ beats, ContinuesA first m

/-- No request is under way, and a probe source and a sink are free. -/
structure Quiet (s : State) : Prop where
  drive : s.drive = true
  dQueue : s.dQueue = []
  dPort : s.dPort = none
  bPort : s.bPort = none
  bQueue : s.probes.bQueue = []
  aOngoings : s.aOngoings = Dict.empty
  cOngoings : s.cOngoings = Dict.empty
  consistent : s.probes.Consistent none
  source_free : s.probes.bSrcs.freeList ≠ []
  sink_free : s.dSinks.freeList ≠ []

theorem run_cons (event : Event) (events : List Event) :
    run cfg s (event :: events) = (do
      let s ← step cfg s event
      run cfg s events) := by
  unfold run
  rw [List.foldlM_cons]

theorem run_singleton {event : Event} (h : step cfg s event = .ok s') :
    run cfg s [event] = .ok s' := by
  rw [run_cons, h]
  rfl

theorem continuesA_self (m : AMessage) : ContinuesA m m := rfl

section Direct

variable {first m : AMessage} {beats : List AMessage} {count : ℕ}

/-- The counts of a burst of which `count` messages have been received. -/
def counted (source count : ℕ) : Dict ℕ ℕ :=
  if count = 0 then Dict.empty else Dict.empty.set source count

theorem getD_counted (source count : ℕ) : (counted source count).getD source 0 = count := by
  unfold counted
  split
  · next hzero => exact hzero.symm
  · rw [Dict.getD_set, if_pos rfl]

theorem counted_not_interleaved (source count : ℕ) :
    ((counted source count).keys.isEmpty ||
      decide (source ∈ (counted source count).keys)) = true := by
  unfold counted
  split
  · rfl
  · rw [Bool.or_eq_true, decide_eq_true_eq, Dict.mem_keys_set]
    exact Or.inr (Or.inl rfl)

theorem set_counted (source count : ℕ) :
    (counted source count).set source (count + 1) = counted source (count + 1) := by
  unfold counted
  split
  · next hzero => rw [hzero]; rfl
  · apply Dict.ext
    simp [Dict.set, Dict.empty, Dict.put]

/-- One reply waits in `d_queue`, with a permission update if it is a Grant. -/
structure Answered (s : State) : Prop where
  drive : s.drive = true
  dPort : s.dPort = none
  dQueue : ∃ m, ∃ grant : Option (ℕ × ℕ),
    s.dQueue = [some (m, grant.map fun g ↦ .updatePerm g.1 g.2)]

theorem Answered.drain (h : Answered s) : ∃ out, drain cfg s = .ok out := by
  obtain ⟨m, grant, hqueue⟩ := h.dQueue
  have hpop : ∃ blockPerm, step cfg s .dPop =
      .ok { s with dQueue := [], dPort := some m, blockPerm := blockPerm } :=
    step_dPop_eq_ok h.drive h.dPort grant hqueue
  obtain ⟨blockPerm, hpop⟩ := hpop
  refine ⟨([m], { s with dQueue := [], dPort := none, blockPerm := blockPerm }), ?_⟩
  unfold Adapter.drain
  rw [hqueue, List.foldlM_cons]
  unfold deliver
  dsimp only
  rw [hpop]
  rfl

/-- A put of which `count` messages have been received on a `TIP` block. -/
structure Putting (cfg : Config) (first : AMessage) (count : ℕ) (s : State) : Prop where
  drive : s.drive = true
  dQueue : s.dQueue = []
  dPort : s.dPort = none
  tip : s.perm (cfg.blockAddr first.address) = .tip
  aOngoings : s.aOngoings = counted first.source count

theorem Putting.step (h : Putting cfg first count s)
    (hop : first.opcode = .putFullData ∨ first.opcode = .putPartialData)
    (hm : ContinuesA first m) (hwf : WellFormedA cfg m) :
    ∃ s', step cfg s (.a m) = .ok s' ∧
      if count + 1 = cfg.burstLen first.size then Answered s'
      else Putting cfg first (count + 1) s' := by
  have hopcode : m.opcode = first.opcode := by rw [hm]
  have hsource : m.source = first.source := by rw [hm]
  have hsize : m.size = first.size := by rw [hm]
  have haddress : m.address = first.address := by rw [hm]
  have hcount : s.aOngoings.getD m.source 0 = count := by
    rw [h.aOngoings, hsource, getD_counted]
  have htip : (received cfg m s).perm (cfg.blockAddr m.address) = .tip := by
    rw [perm_received, haddress, h.tip]
  have hstep : Adapter.step cfg s (.a m) = .ok (putDirect cfg m (received cfg m s)) := by
    rw [step_a_eq_dispatch h.drive hwf.checked, aDispatch_put (hopcode ▸ hop) htip]
    rw [h.aOngoings, hsource]
    exact counted_not_interleaved first.source count
  refine ⟨_, hstep, ?_⟩
  rw [← hsize]
  split
  · next hlast =>
    rw [putDirect_of_last (s := received cfg m s) (hcount ▸ hlast)]
    refine ⟨h.drive, h.dPort,
      { opcode := .accessAck, size := m.size, source := m.source }, none, ?_⟩
    change s.dQueue ++ _ = _
    rw [h.dQueue]
    rfl
  · next hlast =>
    rw [putDirect_of_not_last (s := received cfg m s) (hcount ▸ hlast)]
    refine ⟨h.drive, h.dQueue, h.dPort, ?_, ?_⟩
    · rw [← haddress]
      exact htip
    · change s.aOngoings.set m.source (s.aOngoings.getD m.source 0 + 1) = _
      rw [hcount, h.aOngoings, hsource, set_counted]

/-- The messages of a put on a `TIP` block are all accepted, and the last one is answered. -/
theorem Putting.run (h : Putting cfg first count s)
    (hop : first.opcode = .putFullData ∨ first.opcode = .putPartialData)
    (hbeats : ∀ m ∈ beats, ContinuesA first m ∧ WellFormedA cfg m)
    (hlen : count + beats.length = cfg.burstLen first.size) (hlt : count < cfg.burstLen first.size) :
    ∃ s', run cfg s (beats.map .a) = .ok s' ∧ Answered s' := by
  induction beats generalizing s count with
  | nil => exact absurd hlen (ne_of_lt hlt)
  | cons m beats ih =>
    obtain ⟨hm, hwf⟩ := hbeats m List.mem_cons_self
    obtain ⟨s₁, hstep, hnext⟩ := h.step hop hm hwf
    rw [List.map_cons, run_cons, hstep, ok_bind]
    rw [List.length_cons] at hlen
    split at hnext
    · next hlast =>
      have hnil : beats = [] := List.eq_nil_of_length_eq_zero (by omega)
      rw [hnil]
      exact ⟨s₁, rfl, hnext⟩
    · next hlast =>
      exact ih hnext (fun m hmem ↦ hbeats m (List.mem_cons_of_mem _ hmem)) (by omega) (by omega)

/-- A quiet state in which the block of the request is `TIP`. -/
theorem Quiet.answered (h : Quiet s) (hrequest : LegalRequest cfg first beats)
    (htip : s.perm (cfg.blockAddr first.address) = .tip) :
    ∃ s', run cfg s ((first :: beats).map .a) = .ok s' ∧ Answered s' := by
  have hwf : WellFormedA cfg first := hrequest.wellFormed first List.mem_cons_self
  have hstep : step cfg s (.a first) = aDispatch cfg first (received cfg first s) :=
    step_a_eq_dispatch h.drive hwf.checked (by rw [h.aOngoings]; rfl)
  have hreceived : (received cfg first s).perm (cfg.blockAddr first.address) = .tip := by
    rw [perm_received, htip]
  have hsingle (hburst : hasBurst first.opcode = false) : beats = [] := by
    have hlen := hrequest.length_eq
    rw [hburst] at hlen
    exact List.eq_nil_of_length_eq_zero (Nat.succ.inj hlen)
  cases hop : first.opcode with
  | get | intent | acquireBlock =>
    have hopcode := hrequest.opcode
    rw [hop] at hopcode
    exact absurd hopcode (by decide)
  | putFullData | putPartialData =>
    have hputting : Putting cfg first 0 s := ⟨h.drive, h.dQueue, h.dPort, htip, h.aOngoings⟩
    have hlen := hrequest.length_eq
    rw [hop] at hlen
    refine hputting.run (by simp [hop]) (fun m hmem ↦ ⟨?_, hrequest.wellFormed m hmem⟩) ?_
      (cfg.burstLen_pos _)
    · obtain rfl | hmem := List.mem_cons.mp hmem
      · exact continuesA_self m
      · exact hrequest.continues m hmem
    · rw [Nat.zero_add, List.length_cons, hlen]
      rfl
  | arithmeticData | logicalData =>
    rw [hsingle (by rw [hop]; rfl)]
    obtain ⟨hmask, hlen⟩ := hwf.atomic (by rw [hop]; rfl)
    obtain ⟨memory, value, data, hatomic⟩ := aDispatch_atomic (by simp [hop])
      (hwf.protocol_ge (by rw [hop]; rfl)) hwf.checked hlen hmask hreceived
    refine ⟨_, run_singleton (hstep.trans hatomic), h.drive, h.dPort,
      { opcode := .accessAckData, size := first.size, source := first.source, data := data },
      none, ?_⟩
    change s.dQueue ++ _ = _
    rw [h.dQueue]
    rfl
  | acquirePerm =>
    rw [hsingle (by rw [hop]; rfl)]
    have hfree : (received cfg first s).dSinks.freeList ≠ [] := h.sink_free
    obtain ⟨sink, -, hget⟩ := exists_getSink_eq_ok hfree
    rw [aDispatch_acquirePerm hop (hwf.protocol_eq (by rw [hop]; rfl)),
      aAcquirePerm_of_tip hget hreceived] at hstep
    refine ⟨_, run_singleton hstep, h.drive, h.dPort,
      { opcode := .grant, param := grantParam first.param, size := first.size
        source := first.source, sink := sink },
      some (cfg.blockAddr first.address, grantParam first.param), ?_⟩
    change s.dQueue ++ _ = _
    rw [h.dQueue]
    rfl

/-- The direct path serves every legal request. -/
theorem Quiet.directPath_eq_ok (h : Quiet s) (hrequest : LegalRequest cfg first beats)
    (answer : ProbeAnswer) :
    ∃ direct, directPath cfg (first :: beats) answer first.address s = .ok direct := by
  let t := { s with memory := answer.absorb cfg first.address s.memory }.setPerm
    (cfg.blockAddr first.address) .tip
  have hquiet : Quiet t := ⟨h.drive, h.dQueue, h.dPort, h.bPort, h.bQueue, h.aOngoings,
    h.cOngoings, h.consistent, h.source_free, h.sink_free⟩
  have htip : t.perm (cfg.blockAddr first.address) = .tip := by
    change (s.blockPerm.set _ _).getD _ _ = _
    rw [Dict.getD_set, if_pos rfl]
  obtain ⟨s', hrun, hanswered⟩ := hquiet.answered hrequest htip
  obtain ⟨out, hdrain⟩ := hanswered.drain
  refine ⟨out, ?_⟩
  unfold directPath
  dsimp only
  rw [hrun, ok_bind, hdrain]

end Direct

section Probed

variable {first m : AMessage} {beats : List AMessage} {probe : BMessage} {callback : Callback}
  {answer : ProbeAnswer}

/-- A request whose probe waits in `b_queue`. -/
structure Probed (first : AMessage) (probe : BMessage) (callback : Callback) (s : State) :
    Prop where
  drive : s.drive = true
  dQueue : s.dQueue = []
  dPort : s.dPort = none
  bPort : s.bPort = none
  aOngoings : s.aOngoings = Dict.empty
  cOngoings : s.cOngoings = Dict.empty
  consistent : s.probes.Consistent none
  bQueue : s.probes.bQueue.head? = some probe
  size_eq : probe.size = first.size
  address_eq : probe.address = first.address
  registered : s.probes.registered probe.source = some callback

/-- In a quiet state a probe is issued at once. -/
theorem Quiet.retrieveBlock (h : Quiet s) (p : Probe Callback) (hsize : p.size = first.size)
    (haddr : p.addr = first.address) :
    ∃ probe probes, s.probes.retrieveBlock p = .ok probes ∧
      Probed first probe p.callback { s with probes := probes } := by
  obtain ⟨src, hsrc, hretrieve⟩ := h.consistent.toMatched.retrieveBlock_eq_ok h.source_free p
  refine ⟨p.message src, s.probes.issue src p, hretrieve, h.drive, h.dQueue, h.dPort, h.bPort,
    h.aOngoings, h.cOngoings, h.consistent.issue hsrc, ?_, hsize, haddr, ?_⟩
  · change (s.probes.bQueue ++ [p.message src]).head? = _
    rw [h.bQueue]
    rfl
  · rw [Probes.registered_issue]
    exact if_pos rfl

/-- A further request leaves the first probe and its continuation in place. -/
theorem Probed.retrieveBlock (h : Probed first probe callback s) (p : Probe Callback) :
    ∃ probes, s.probes.retrieveBlock p = .ok probes ∧
      Probed first probe callback { s with probes := probes } := by
  obtain ⟨probes, hretrieve, hconsistent⟩ := h.consistent.retrieveBlock p
  refine ⟨probes, hretrieve, h.drive, h.dQueue, h.dPort, h.bPort, h.aOngoings, h.cOngoings,
    hconsistent, ?_, h.size_eq, h.address_eq, ?_⟩
  · obtain ⟨-, src, -, rfl⟩ | ⟨-, rfl⟩ := h.consistent.retrieveBlock_cases hretrieve
    · change (s.probes.bQueue ++ [p.message src]).head? = _
      rw [List.head?_append, h.bQueue]
      rfl
    · exact h.bQueue
  · obtain ⟨-, src, hsrc, rfl⟩ | ⟨-, rfl⟩ := h.consistent.retrieveBlock_cases hretrieve
    · have hne : probe.source ≠ src := by
        rintro rfl
        exact nomatch (h.consistent.toMatched.registered_eq_none hsrc).symm.trans h.registered
      change (s.probes.issue src p).registered probe.source = _
      rw [Probes.registered_issue, if_neg hne]
      exact h.registered
    · exact h.registered

/-- The probe that a put makes for the burst dictionary `burst`. -/
def putRequest (cfg : Config) (m : AMessage) (burst : ℕ) : Probe Callback where
  callback := .accessAck (cfg.burstLen m.size) burst m.size m.source
  param := toN
  size := m.size
  addr := m.address
  mask := m.mask

theorem modify_concat {α : Type} (l : List α) (a : α) (f : α → α) :
    (l ++ [a]).modify l.length f = l ++ [f a] := by
  induction l with
  | nil => rfl
  | cons b l ih => simpa using ih

/-- Every message of a put on a block that is not `TIP` makes a probe of its own and stores its
data in a new dictionary, since the count stays zero. -/
theorem step_put_of_not_tip (hdrive : s.drive = true) (hongoings : s.aOngoings = Dict.empty)
    (hop : m.opcode = .putFullData ∨ m.opcode = .putPartialData) (hwf : WellFormedA cfg m)
    (hperm : s.perm (cfg.blockAddr m.address) ≠ .tip) {probes : Probes Callback}
    (hretrieve : s.probes.retrieveBlock (putRequest cfg m s.bursts.length) = .ok probes) :
    ∃ addr, step cfg s (.a m) = .ok { received cfg m s with
      probes := probes
      bursts := s.bursts ++ [Dict.empty.set addr (bitMask m.mask, m.data)]
      burstData := some s.bursts.length } := by
  have hcount : s.aOngoings.getD m.source 0 = 0 := by
    rw [hongoings]
    rfl
  have hprobe : putProbe cfg m (received cfg m s) =
      .ok { openBurst (received cfg m s) with probes := probes } := by
    unfold putProbe
    refine (if_pos hcount).trans (State.retrieveBlock_eq_ok.mpr ⟨probes, hretrieve, rfl⟩)
  have hput : aPut cfg m (received cfg m s) = putDeferred cfg m (received cfg m s) := by
    unfold aPut
    rw [perm_received]
    exact if_pos hperm
  refine ⟨cfg.addrAligned m.address + s.aOngoings.getD m.source 0 * cfg.dataLen, ?_⟩
  rw [step_a_eq_dispatch hdrive hwf.checked (by rw [hongoings]; rfl)]
  have hdispatch : aDispatch cfg m (received cfg m s) = putDeferred cfg m (received cfg m s) := by
    unfold aDispatch
    rcases hop with hop | hop <;> rw [hop] <;> exact hput
  rw [hdispatch]
  unfold putDeferred
  dsimp only
  rw [hprobe, ok_bind]
  unfold storeBeat
  have hmodify := modify_concat s.bursts Dict.empty (·.set
    (cfg.addrAligned m.address + s.aOngoings.getD m.source 0 * cfg.dataLen)
    (bitMask m.mask, m.data))
  exact congrArg (fun bursts ↦ Except.ok { received cfg m s with
    probes := probes
    bursts := bursts
    burstData := some s.bursts.length }) hmodify

/-- A put whose probe waits and whose first message is stored. -/
structure PutProbed (cfg : Config) (first : AMessage) (burst : ℕ) (probe : BMessage) (s : State) :
    Prop where
  probed : Probed first probe
    (.accessAck (cfg.burstLen first.size) burst first.size first.source) s
  stored : ∃ burstData, s.bursts[burst]? = some burstData ∧ burstData.keys.isEmpty = false
  perm : s.perm (cfg.blockAddr first.address) ≠ .tip

/-- The first message of a put. -/
theorem Quiet.step_put (h : Quiet s)
    (hop : first.opcode = .putFullData ∨ first.opcode = .putPartialData)
    (hwf : WellFormedA cfg first) (hperm : s.perm (cfg.blockAddr first.address) ≠ .tip) :
    ∃ probe s', step cfg s (.a first) = .ok s' ∧
      PutProbed cfg first s.bursts.length probe s' := by
  have hsize : (putRequest cfg first s.bursts.length).size = first.size := rfl
  have haddr : (putRequest cfg first s.bursts.length).addr = first.address := rfl
  obtain ⟨probe, probes, hretrieve, hprobed⟩ := h.retrieveBlock _ hsize haddr
  obtain ⟨addr, hstep⟩ :=
    step_put_of_not_tip h.drive h.aOngoings hop hwf hperm hretrieve
  refine ⟨probe, _, hstep, ⟨hprobed.drive, hprobed.dQueue, hprobed.dPort, hprobed.bPort,
    hprobed.aOngoings, hprobed.cOngoings, hprobed.consistent, hprobed.bQueue, hprobed.size_eq,
    hprobed.address_eq, hprobed.registered⟩, ⟨_, List.getElem?_concat_length, rfl⟩, ?_⟩
  change (received cfg first s).perm _ ≠ _
  rw [perm_received]
  exact hperm

/-- A further message of the put. -/
theorem PutProbed.step {burst : ℕ} (h : PutProbed cfg first burst probe s)
    (hop : first.opcode = .putFullData ∨ first.opcode = .putPartialData)
    (hm : ContinuesA first m) (hwf : WellFormedA cfg m) :
    ∃ s', step cfg s (.a m) = .ok s' ∧ PutProbed cfg first burst probe s' := by
  have hopcode : m.opcode = first.opcode := by rw [hm]
  have haddress : m.address = first.address := by rw [hm]
  obtain ⟨probes, hretrieve, hprobed⟩ :=
    h.probed.retrieveBlock (putRequest cfg m s.bursts.length)
  obtain ⟨addr, hstep⟩ := step_put_of_not_tip h.probed.drive h.probed.aOngoings (hopcode ▸ hop)
    hwf (haddress ▸ h.perm) hretrieve
  obtain ⟨burstData, hget, hkeys⟩ := h.stored
  refine ⟨_, hstep, ⟨hprobed.drive, hprobed.dQueue, hprobed.dPort, hprobed.bPort,
    hprobed.aOngoings, hprobed.cOngoings, hprobed.consistent, hprobed.bQueue, hprobed.size_eq,
    hprobed.address_eq, hprobed.registered⟩, ⟨burstData, ?_, hkeys⟩, ?_⟩
  · exact (List.getElem?_append_left (List.getElem?_eq_some_iff.mp hget).1).trans hget
  · change (received cfg m s).perm _ ≠ _
    rw [perm_received]
    exact h.perm

theorem PutProbed.run {burst : ℕ} (h : PutProbed cfg first burst probe s)
    (hop : first.opcode = .putFullData ∨ first.opcode = .putPartialData)
    (hbeats : ∀ m ∈ beats, ContinuesA first m ∧ WellFormedA cfg m) :
    ∃ s', run cfg s (beats.map .a) = .ok s' ∧ PutProbed cfg first burst probe s' := by
  induction beats generalizing s with
  | nil => exact ⟨s, rfl, h⟩
  | cons m beats ih =>
    obtain ⟨hm, hwf⟩ := hbeats m List.mem_cons_self
    obtain ⟨s₁, hstep, hnext⟩ := h.step hop hm hwf
    rw [List.map_cons, run_cons, hstep, ok_bind]
    exact ih hnext fun m hmem ↦ hbeats m (List.mem_cons_of_mem _ hmem)

/-- A state that differs in what an answer to a probe may change before it is complete. -/
structure Absorbed (s t : State) : Prop where
  probes : t.probes = s.probes
  dQueue : t.dQueue = s.dQueue
  dPort : t.dPort = s.dPort
  drive : t.drive = s.drive
  aOngoings : t.aOngoings = s.aOngoings
  bursts : t.bursts = s.bursts

/-- The messages of an answer end in one acknowledgement of the source. -/
def EndsInAcknowledge (cfg : Config) (source : ℕ) (s : State) (acks : List CMessage) : Prop :=
  ∃ (t : State) (cOngoings : State → Dict ℕ ℕ), Absorbed s t ∧
    run cfg s (acks.map .c) =
      (acknowledge cfg source t).map fun t ↦ { t with cOngoings := cOngoings t }

/-- The messages of a `ProbeAckData` after `count` of them. -/
theorem endsInAcknowledge_words {words : List ℕ} (hne : words ≠ []) {count : ℕ}
    (hdrive : s.drive = true) (hcount : s.cOngoings = counted probe.source count)
    (hlen : count + words.length = cfg.burstLen probe.size)
    (hparam : answer.param ∈ [TtoB, TtoN, BtoN, TtoT, BtoB, NtoN])
    (haligned : probe.address % 2 ^ probe.size = 0) :
    EndsInAcknowledge cfg probe.source s (words.map fun word ↦
      { opcode := .probeAckData, param := answer.param, size := probe.size
        source := probe.source, address := probe.address, data := word, corrupt := 0 }) := by
  induction words generalizing s count with
  | nil => exact absurd rfl hne
  | cons word words ih =>
    let m : CMessage :=
      { opcode := .probeAckData, param := answer.param, size := probe.size
        source := probe.source, address := probe.address, data := word, corrupt := 0 }
    have hchecked : cAssertions m true = .ok () := by
      simp [cAssertions, assertAligned, m, hparam, haligned]
    have hgetD : s.cOngoings.getD m.source 0 = count := by
      rw [hcount]
      exact getD_counted probe.source count
    have hstep : step cfg s (.c m) = cBeat cfg (acknowledge cfg probe.source) m s := by
      rw [step_c_eq_dispatch hdrive hchecked]
      · rfl
      · rw [hcount]
        exact counted_not_interleaved probe.source count
    have hrun (acks : List CMessage) : run cfg s ((m :: acks).map .c) = (do
        let s ← cBeat cfg (acknowledge cfg probe.source) m s
        run cfg s (acks.map .c)) := by
      rw [List.map_cons, run_cons, hstep]
    unfold EndsInAcknowledge
    rw [List.map_cons]
    change ∃ t cOngoings, _ ∧ run cfg s ((m :: _).map .c) = _
    rw [hrun]
    rw [List.length_cons] at hlen
    by_cases hlast : s.cOngoings.getD m.source 0 + 1 = cfg.burstLen m.size
    · have hnil : words = [] := by
        refine List.eq_nil_of_length_eq_zero ?_
        have hsize : m.size = probe.size := rfl
        rw [hgetD, hsize] at hlast
        omega
      obtain ⟨blockPerm, hbeat⟩ := cBeat_of_last (acknowledge cfg probe.source) hlast
      let absorbed : State := { s with
        memory := s.memory.set
          (cfg.addrAligned m.address + s.cOngoings.getD m.source 0 * cfg.dataLen) m.data
        blockPerm := blockPerm }
      refine ⟨absorbed, fun t ↦ if s.cOngoings.getD m.source 0 ≠ 0 then
        t.cOngoings.erase m.source else t.cOngoings, ⟨rfl, rfl, rfl, rfl, rfl, rfl⟩, ?_⟩
      rw [hbeat, hnil]
      cases acknowledge cfg probe.source absorbed with
      | error e => rfl
      | ok t =>
        rw [ok_bind]
        split <;> rfl
    · rw [cBeat_of_not_last _ hlast, ok_bind]
      have hcounted : s.cOngoings.set m.source (s.cOngoings.getD m.source 0 + 1) =
          counted probe.source (count + 1) := by
        rw [hgetD, hcount]
        exact set_counted probe.source count
      have hwords : words ≠ [] := by
        rintro rfl
        have hsize : m.size = probe.size := rfl
        rw [hgetD, hsize] at hlast
        exact hlast (by simpa using hlen)
      obtain ⟨t, cOngoings, habsorbed, hwords⟩ := ih hwords
        (s := { s with
          memory := s.memory.set
            (cfg.addrAligned m.address + s.cOngoings.getD m.source 0 * cfg.dataLen) m.data
          cOngoings := s.cOngoings.set m.source (s.cOngoings.getD m.source 0 + 1) })
        hdrive hcounted (by omega)
      exact ⟨t, cOngoings, ⟨habsorbed.probes, habsorbed.dQueue, habsorbed.dPort, habsorbed.drive,
        habsorbed.aOngoings, habsorbed.bursts⟩, hwords⟩

theorem ProbeAnswer.Legal.endsInAcknowledge (h : answer.Legal cfg probe.size)
    (hdrive : s.drive = true) (hongoings : s.cOngoings = Dict.empty)
    (haligned : probe.address % 2 ^ probe.size = 0) :
    EndsInAcknowledge cfg probe.source s (answer.messages probe) := by
  unfold messages
  cases hcontents : answer.contents with
  | none =>
    let m : CMessage :=
      { opcode := .probeAck, param := answer.param, size := probe.size, source := probe.source
        address := probe.address, data := 0, corrupt := 0 }
    have hchecked : cAssertions m true = .ok () := by
      simp [cAssertions, assertAligned, m, h.param_mem, haligned]
    obtain ⟨blockPerm, hprune⟩ := exists_prune_eq cfg m s
    have hstep : step cfg s (.c m) =
        acknowledge cfg probe.source { s with blockPerm := blockPerm } := by
      rw [step_c_eq_dispatch hdrive hchecked (by rw [hongoings]; rfl), ← hprune]
      rfl
    refine ⟨{ s with blockPerm := blockPerm }, State.cOngoings, ⟨rfl, rfl, rfl, rfl, rfl, rfl⟩, ?_⟩
    have hrun : run cfg s ([m].map .c) = (do
        let s ← acknowledge cfg probe.source { s with blockPerm := blockPerm }
        run cfg s []) := by
      rw [List.map_singleton, run_cons, hstep]
    refine hrun.trans ?_
    cases acknowledge cfg probe.source { s with blockPerm := blockPerm } <;> rfl
  | some words =>
    have hlen := h.length_eq words hcontents
    have hne : words ≠ [] := by
      rintro rfl
      exact absurd hlen (cfg.burstLen_pos _).ne
    have hcounted : s.cOngoings = counted probe.source 0 := hongoings
    exact endsInAcknowledge_words hne hdrive hcounted ((Nat.zero_add _).trans hlen) h.param_mem
      haligned

/-- What follows a request whose probe waits: the answer ends in one acknowledgement, which runs
the continuation of the request. -/
theorem Probed.answered (h : Probed first probe callback s) (hlegal : answer.Legal cfg first.size)
    (haligned : first.address % 2 ^ first.size = 0) :
    ∃ (t : State) (cOngoings : State → Dict ℕ ℕ), t.drive = true ∧ t.dQueue = [] ∧
      t.dPort = none ∧ t.aOngoings = Dict.empty ∧ t.bursts = s.bursts ∧
      t.probes.Consistent none ∧ t.probes.registered probe.source = some callback ∧
      answerProbe cfg answer s = (do
        let t ← acknowledge cfg probe.source t
        drain cfg { t with cOngoings := cOngoings t }) := by
  obtain ⟨rest, hqueue⟩ : ∃ rest, s.probes.bQueue = probe :: rest :=
    List.head?_eq_some_iff.mp h.bQueue
  let sent : State := { s with
    probes := { s.probes with bQueue := rest }
    bPort := some probe }
  let fired : State := { sent with bPort := none }
  have hpop : step cfg s .bPop = .ok sent := by
    unfold step
    dsimp only
    rw [if_pos h.drive]
    unfold bPortDriver
    rw [h.bPort, hqueue]
  have hlegal' : answer.Legal cfg probe.size := h.size_eq ▸ hlegal
  have haligned' : probe.address % 2 ^ probe.size = 0 := by
    rw [h.address_eq, h.size_eq, haligned]
  have hdrive : fired.drive = true := h.drive
  obtain ⟨t, cOngoings, habsorbed, hrun⟩ :=
    hlegal'.endsInAcknowledge hdrive h.cOngoings haligned'
  refine ⟨t, cOngoings, habsorbed.drive.trans h.drive, habsorbed.dQueue.trans h.dQueue,
    habsorbed.dPort.trans h.dPort, habsorbed.aOngoings.trans h.aOngoings, habsorbed.bursts, ?_, ?_,
    ?_⟩
  · rw [habsorbed.probes]
    exact h.consistent.frame rfl rfl
  · rw [habsorbed.probes]
    exact h.registered
  · have hfire : step cfg sent .bFire = .ok fired := rfl
    unfold answerProbe
    rw [hpop, ok_bind, run_cons, hfire, ok_bind]
    change (run cfg fired ((answer.messages probe).map .c) >>= drain cfg) = _
    rw [hrun]
    cases acknowledge cfg probe.source t <;> rfl

/-- A continuation that always raises makes the probed path raise. -/
theorem Probed.error_of_continuation (h : Probed first probe callback s)
    (hlegal : answer.Legal cfg first.size) (haligned : first.address % 2 ^ first.size = 0)
    (hraises : ∀ t, ∃ e, runCallback cfg callback t = .error e) :
    ∃ e, answerProbe cfg answer s = .error e := by
  obtain ⟨t, cOngoings, -, -, -, -, -, -, hregistered, heq⟩ := h.answered hlegal haligned
  obtain ⟨e, he⟩ := hraises { t with probes := t.probes.unregister probe.source }
  refine ⟨e, ?_⟩
  rw [heq, acknowledge_of_registered hregistered, he]
  rfl

/-- The continuation of a put queues `AccessAck` with the memory update, which raises when the
message is popped. -/
theorem PutProbed.error {burst : ℕ} (h : PutProbed cfg first burst probe s)
    (hlegal : answer.Legal cfg first.size) (haligned : first.address % 2 ^ first.size = 0) :
    answerProbe cfg answer s = .error .typeError := by
  obtain ⟨t, cOngoings, hdrive, hqueue, hport, hongoings, hbursts, hconsistent, hregistered, heq⟩ :=
    h.probed.answered hlegal haligned
  obtain ⟨burstData, hget, hkeys⟩ := h.stored
  let ack : DMessage := { opcode := .accessAck, size := first.size, source := first.source }
  let unregistered : State := { t with probes := t.probes.unregister probe.source }
  have hremain : cfg.burstLen first.size -
      t.aOngoings.getD first.source (cfg.burstLen first.size) = 0 := by
    rw [hongoings]
    exact Nat.sub_self _
  have hcallback : accessAckCb (cfg.burstLen first.size) burst first.size first.source
      unregistered = { unregistered with dQueue := [some (ack, some (.updateMem burst))] } := by
    unfold accessAckCb
    dsimp only
    change unregistered.push (List.replicate (cfg.burstLen first.size -
      t.aOngoings.getD first.source (cfg.burstLen first.size)) none ++ _) = _
    rw [hremain]
    unfold State.push
    change { unregistered with dQueue := t.dQueue ++ _ } = _
    rw [hqueue]
    rfl
  obtain ⟨hinit, hbusy, -⟩ := (hconsistent.registered_iff probe.source).mp
    (by rw [hregistered]; rfl)
  obtain ⟨probes, hrelease, -⟩ := (hconsistent.unregister hinit hbusy).releaseSource
  have hpop : Adapter.step cfg { t with
      probes := probes
      dQueue := [some (ack, some (.updateMem burst))]
      cOngoings := cOngoings { t with
        probes := probes
        dQueue := [some (ack, some (.updateMem burst))] } } .dPop = .error .typeError := by
    unfold Adapter.step
    dsimp only
    rw [if_pos hdrive]
    unfold dPortDriver
    dsimp only
    rw [hport]
    unfold runDCallback updateMem
    dsimp only
    rw [hbursts, hget]
    dsimp only
    rw [hkeys]
    rfl
  rw [heq, acknowledge_of_registered hregistered]
  unfold runCallback
  dsimp only
  rw [hcallback, ok_bind]
  change (do let t ← (do let probes ← (t.probes.unregister probe.source).releaseSource probe.source
                         _); _) = _
  rw [hrelease]
  unfold drain deliver
  change (do let s ← Adapter.step cfg _ .dPop; _) >>= _ = _
  rw [hpop]
  rfl

theorem aligned_of_checked (h : aAssertions m true = .ok ()) : m.address % 2 ^ m.size = 0 := by
  unfold aAssertions at h
  rw [if_pos rfl] at h
  cases hop : m.opcode with
  | get | putFullData | arithmeticData | logicalData | acquireBlock | acquirePerm =>
    rw [hop] at h
    obtain ⟨_, -, h⟩ := bind_eq_ok.mp h
    obtain ⟨_, haligned, -⟩ := bind_eq_ok.mp h
    exact beq_iff_eq.mp (assert_eq_ok.mp haligned)
  | putPartialData | intent =>
    rw [hop] at h
    obtain ⟨_, -, haligned⟩ := bind_eq_ok.mp h
    exact beq_iff_eq.mp (assert_eq_ok.mp haligned)

/-- The continuation of an atomic operation reads names that nothing binds. -/
theorem exists_atomicAckCb_eq_error (addr : ℕ) (s : State) :
    ∃ e, atomicAckCb addr s = .error e := by
  unfold atomicAckCb
  split
  · exact ⟨_, rfl⟩
  · exact ⟨_, rfl⟩

/-- An atomic operation on a block that is not `TIP` makes a probe. -/
theorem aAtomic_of_not_tip {label : String} {op : ℕ → ℕ → Option ℤ}
    {continuation : ℕ → ℕ → Callback} (hlen : cfg.burstLen m.size = 1) (hmask : m.mask ≠ 0)
    (hperm : s.perm (cfg.blockAddr m.address) ≠ .tip) :
    ∃ operand1 offset, aAtomic cfg label op continuation m s = s.retrieveBlock
      { callback := continuation operand1 offset, param := toN, size := m.size, addr := m.address
        mask := m.mask } := by
  refine ⟨(m.data &&& bitMask m.mask) >>> (Nat.log2 (lowestSetBit m.mask) * 8),
    Nat.log2 (lowestSetBit m.mask) * 8, ?_⟩
  unfold aAtomic maskOffset
  dsimp only
  rw [hlen, if_neg hmask]
  exact if_pos hperm

theorem Quiet.step_atomic (h : Quiet s)
    (hop : first.opcode = .arithmeticData ∨ first.opcode = .logicalData)
    (hwf : WellFormedA cfg first) (hperm : s.perm (cfg.blockAddr first.address) ≠ .tip) :
    ∃ callback probe s', step cfg s (.a first) = .ok s' ∧ Probed first probe callback s' ∧
      ∀ t, ∃ e, runCallback cfg callback t = .error e := by
  obtain ⟨hmask, hlen⟩ := hwf.atomic (by rcases hop with hop | hop <;> rw [hop] <;> rfl)
  have hprotocol : tlUH ≤ cfg.protocol :=
    hwf.protocol_ge (by rcases hop with hop | hop <;> rw [hop] <;> rfl)
  have hperm' : (received cfg first s).perm (cfg.blockAddr first.address) ≠ .tip := by
    rw [perm_received]
    exact hperm
  have hdispatch : ∃ p : Probe Callback, p.size = first.size ∧ p.addr = first.address ∧
      aDispatch cfg first (received cfg first s) = (received cfg first s).retrieveBlock p ∧
      ∀ t, ∃ e, runCallback cfg p.callback t = .error e := by
    rcases hop with hop | hop
    · rw [aDispatch_arithmetic hop hprotocol]
      obtain ⟨operand1, offset, heq⟩ := aAtomic_of_not_tip hlen hmask hperm'
      exact ⟨_, rfl, rfl, heq, fun t ↦ exists_atomicAckCb_eq_error _ t⟩
    · rw [aDispatch_logical hop hprotocol]
      obtain ⟨operand1, offset, heq⟩ := aAtomic_of_not_tip hlen hmask hperm'
      exact ⟨_, rfl, rfl, heq, fun t ↦ exists_atomicAckCb_eq_error _ t⟩
  obtain ⟨p, hsize, haddr, hretrieve, hraises⟩ := hdispatch
  obtain ⟨probe, probes, hprobes, hprobed⟩ := h.retrieveBlock p hsize haddr
  refine ⟨p.callback, probe, { received cfg first s with probes := probes }, ?_,
    ⟨hprobed.drive, hprobed.dQueue, hprobed.dPort, hprobed.bPort, hprobed.aOngoings,
      hprobed.cOngoings, hprobed.consistent, hprobed.bQueue, hprobed.size_eq, hprobed.address_eq,
      hprobed.registered⟩, hraises⟩
  rw [step_a_eq_dispatch h.drive hwf.checked (by rw [h.aOngoings]; rfl), hretrieve]
  exact State.retrieveBlock_eq_ok.mpr ⟨probes, hprobes, rfl⟩

/-- `AcquirePerm` on a block that is not `TIP` calls a method that does not exist. -/
theorem Quiet.step_acquirePerm (h : Quiet s) (hop : first.opcode = .acquirePerm)
    (hwf : WellFormedA cfg first) (hperm : s.perm (cfg.blockAddr first.address) ≠ .tip) :
    step cfg s (.a first) = .error (.attributeError "retrievePerm") := by
  have hfree : (received cfg first s).dSinks.freeList ≠ [] := h.sink_free
  obtain ⟨sink, -, hget⟩ := exists_getSink_eq_ok hfree
  have hperm' : (withoutSink sink (received cfg first s)).perm (cfg.blockAddr first.address) ≠
      .tip := by
    change (received cfg first s).perm _ ≠ _
    rw [perm_received]
    exact hperm
  rw [step_a_eq_dispatch h.drive hwf.checked (by rw [h.aOngoings]; rfl),
    aDispatch_acquirePerm hop (hwf.protocol_eq (by rw [hop]; rfl))]
  unfold aAcquirePerm
  dsimp only
  rw [hget, ok_bind]
  exact if_pos hperm'

/-- The probed path raises on every legal request. -/
theorem Quiet.probedPath_eq_error (h : Quiet s) (hrequest : LegalRequest cfg first beats)
    (hlegal : answer.Legal cfg first.size)
    (hperm : s.perm (cfg.blockAddr first.address) ≠ .tip) :
    ∃ e, probedPath cfg (first :: beats) answer s = .error e := by
  have hwf : WellFormedA cfg first := hrequest.wellFormed first List.mem_cons_self
  have haligned := aligned_of_checked hwf.checked
  have hsingle (hburst : hasBurst first.opcode = false) : beats = [] := by
    have hlen := hrequest.length_eq
    rw [hburst] at hlen
    exact List.eq_nil_of_length_eq_zero (Nat.succ.inj hlen)
  unfold probedPath
  cases hop : first.opcode with
  | get | intent | acquireBlock =>
    have hopcode := hrequest.opcode
    rw [hop] at hopcode
    exact absurd hopcode (by decide)
  | putFullData | putPartialData =>
    obtain ⟨probe, s₁, hstep, hput⟩ := h.step_put (by simp [hop]) hwf hperm
    obtain ⟨s₂, hrun, hput'⟩ := hput.run (by simp [hop]) fun m hmem ↦
      ⟨hrequest.continues m hmem, hrequest.wellFormed m (List.mem_cons_of_mem _ hmem)⟩
    rw [List.map_cons, run_cons, hstep, ok_bind, hrun, ok_bind]
    exact ⟨_, hput'.error hlegal haligned⟩
  | arithmeticData | logicalData =>
    obtain ⟨callback, probe, s₁, hstep, hprobed, hraises⟩ :=
      h.step_atomic (by simp [hop]) hwf hperm
    rw [hsingle (by rw [hop]; rfl), List.map_singleton, run_singleton hstep, ok_bind]
    exact hprobed.error_of_continuation hlegal haligned hraises
  | acquirePerm =>
    rw [hsingle (by rw [hop]; rfl), List.map_singleton, run_cons,
      h.step_acquirePerm hop hwf hperm]
    exact ⟨_, rfl⟩

theorem not_agrees_of_error {request : List AMessage} {addr : ℕ} {e : PyError}
    (h : probedPath cfg request answer s = .error e) : ¬Agrees cfg request answer addr s := by
  rintro ⟨probed, direct, hprobed, -⟩
  rw [h] at hprobed
  exact nomatch hprobed

/-- The two paths never agree: on a block that is not `TIP`, the direct path serves the request
and the probed path raises. -/
theorem probedPath_never_agrees (first : AMessage) (beats : List AMessage) (hquiet : Quiet s)
    (hrequest : LegalRequest cfg first beats)
    (hanswer : answer.Legal cfg first.size)
    (hperm : s.perm (cfg.blockAddr first.address) ≠ .tip) :
    (∃ direct, directPath cfg (first :: beats) answer first.address s = .ok direct) ∧
      ¬Agrees cfg (first :: beats) answer first.address s := by
  obtain ⟨e, herror⟩ := hquiet.probedPath_eq_error hrequest hanswer hperm
  exact ⟨hquiet.directPath_eq_ok hrequest answer, not_agrees_of_error herror⟩

end Probed

def owned : State := (start (Dict.ofList [(0, 1), (8, 2)]) [0] fun _ ↦ 0).setPerm 0 .trunk

theorem quiet_owned : Quiet owned where
  drive := rfl
  dQueue := rfl
  dPort := rfl
  bPort := rfl
  bQueue := rfl
  aOngoings := rfl
  cOngoings := rfl
  consistent := (simulated_start (Dict.ofList [(0, 1), (8, 2)]) [0] fun _ ↦ 0).consistent
  source_free := by decide
  sink_free := by decide

/-- An atomic addition on the block, which the client gives up with the words 3 and 4. -/
theorem probedPath_never_agrees_arithmetic :
    (∃ direct, directPath {} [⟨.arithmeticData, ADD, 3, 1, 8, 0xff, 5⟩] ⟨TtoN, some [4]⟩ 8 owned =
      .ok direct) ∧
      ¬Agrees {} [⟨.arithmeticData, ADD, 3, 1, 8, 0xff, 5⟩] ⟨TtoN, some [4]⟩ 8 owned :=
  probedPath_never_agrees ⟨.arithmeticData, ADD, 3, 1, 8, 0xff, 5⟩ [] quiet_owned
    ⟨by decide, by decide, by decide, by decide⟩ ⟨by decide, by decide⟩ (by decide)

/-- A put of two words on the block: the memory update raises when `AccessAck` is popped. -/
theorem probedPath_not_agrees_put :
    Quiet owned ∧ owned.perm 0 ≠ .tip ∧
      LegalRequest {} ⟨.putFullData, 0, 4, 1, 0, 0xff, 5⟩ [⟨.putFullData, 0, 4, 1, 0, 0xff, 6⟩] ∧
      ProbeAnswer.Legal {} ⟨TtoN, some [3, 4]⟩ 4 ∧
      ¬Agrees {} [⟨.putFullData, 0, 4, 1, 0, 0xff, 5⟩, ⟨.putFullData, 0, 4, 1, 0, 0xff, 6⟩]
        ⟨TtoN, some [3, 4]⟩ 0 owned := by
  have herror : probedPath {}
      [⟨.putFullData, 0, 4, 1, 0, 0xff, 5⟩, ⟨.putFullData, 0, 4, 1, 0, 0xff, 6⟩]
      ⟨TtoN, some [3, 4]⟩ owned = .error .typeError := by
    rfl
  exact ⟨quiet_owned, by decide, ⟨by decide, by decide, by decide, by decide⟩,
    ⟨by decide, by decide⟩, not_agrees_of_error herror⟩

end ProcessorFuzz.TileLink.Adapter
