import ProcessorFuzz.TileLink.Client

/-!
# Conservation of responses

Every completed message of the client is owed one reply. A reply is either waiting for the
acknowledgement of a probe, or in `d_queue`, or has been received; the books below keep these three
places apart and show that no event duplicates, splits or loses a reply. The adapter has one source
for probes, so the probes are acknowledged in the order of the requests.
-/

namespace ProcessorFuzz.TileLink.Adapter

open Library

variable {cfg : Config} {s s' : State} {client : Client}

namespace Callback

/-- The reply that a continuation will queue. -/
def owed : Callback → Option Reply
  | .accessAckData _ addr size source => some (.accessAckData addr size source)
  | .grantData _ addr param _ size source _ => some (.grantData param addr size source)
  | _ => none

/-- The sink that a continuation occupies. -/
def sink? : Callback → Option ℕ
  | .grantData _ _ _ sink _ _ _ => some sink
  | _ => none

/-- The continuations of the requests under study, with the number of beats that their size
prescribes. -/
def Deferred (cfg : Config) : Callback → Prop
  | .accessAckData burstLen _ size _ => burstLen = cfg.burstLen size
  | .grantData burstLen _ _ _ size _ _ => burstLen = cfg.burstLen size
  | _ => False

theorem Deferred.owed_ne_none {callback : Callback} (h : callback.Deferred cfg) :
    callback.owed ≠ none := by
  cases callback with
  | accessAckData | grantData => exact Option.some_ne_none _
  | accessAck | arithmeticAck | logicalAck | grant | probeBlocksRec | enableProbe =>
    exact absurd h not_false

end Callback

namespace Answer

/-- An answer to an atomic operation is one message. -/
def WellFormed (cfg : Config) (a : Answer) : Prop :=
  match a.reply with
  | .atomicData size _ => cfg.burstLen size = 1
  | _ => True

theorem exists_burst_eq_cons (cfg : Config) (header : DMessage) {burstLen : ℕ} (h : 0 < burstLen)
    (addr : ℕ) (memory : Dict ℕ ℕ) :
    ∃ data ms, burst cfg header burstLen addr memory = { header with data := data } :: ms ∧
      ms.length + 1 = burstLen := by
  obtain ⟨n, rfl⟩ := Nat.exists_eq_succ_of_ne_zero h.ne'
  refine ⟨memory.getD (addr + 0 * cfg.dataLen) nopData,
    (List.range n).map fun i ↦
      { header with data := memory.getD (addr + (i + 1) * cfg.dataLen) nopData }, ?_, by simp⟩
  unfold burst
  rw [List.range_succ_eq_map, List.map_cons, List.map_map]
  rfl

/-- An answer has a first message, which tells the number of messages and, for a Grant, the
sink. -/
theorem messages_eq_cons (a : Answer) (h : a.WellFormed cfg) :
    ∃ m ms, a.messages cfg = m :: ms ∧ dBurstLen cfg m = ms.length + 1 ∧
      (a.sink? = if m.opcode = .grant ∨ m.opcode = .grantData then some m.sink else none) := by
  unfold messages sink? grantOf
  unfold WellFormed at h
  cases hreply : a.reply with
  | accessAckData addr size source =>
    obtain ⟨data, ms, hburst, hlength⟩ := exists_burst_eq_cons cfg
      { opcode := .accessAckData, size := size, source := source } (cfg.burstLen_pos size) addr
      a.memory
    exact ⟨_, ms, hburst, hlength.symm, by simp⟩
  | grantData param addr size source =>
    obtain ⟨data, ms, hburst, hlength⟩ := exists_burst_eq_cons cfg
      { opcode := .grantData, param := param, size := size, source := source, sink := a.sink }
      (cfg.burstLen_pos size) addr a.memory
    exact ⟨_, ms, hburst, hlength.symm, by simp⟩
  | atomicData size source =>
    rw [hreply] at h
    exact ⟨_, [], rfl, h, by simp⟩
  | accessAck | hintAck | grant | releaseAck => exact ⟨_, [], rfl, rfl, by simp⟩

/-- The first entry carries the permission update of a Grant, the others carry nothing. -/
theorem entries_eq_cons (a : Answer) {m : DMessage} {ms : List DMessage}
    (h : a.messages cfg = m :: ms) :
    a.entries cfg =
      some (m, a.grantOf.map fun grant ↦ .updatePerm a.blockAddr grant.1) :: ms.map plain := by
  unfold entries
  rw [h]
  cases a.grantOf with
  | none => rfl
  | some grant => rfl

theorem filterMap_entries (a : Answer) (h : a.WellFormed cfg) :
    (a.entries cfg).filterMap (Option.map Prod.fst) = a.messages cfg := by
  obtain ⟨m, ms, hmessages, -, -⟩ := a.messages_eq_cons h
  rw [a.entries_eq_cons hmessages, hmessages, List.filterMap_cons, List.filterMap_map]
  change m :: ms.filterMap (fun m ↦ some m) = m :: ms
  rw [List.filterMap_some]

end Answer

/-- The queue and what has left it. `done` are the answers of which some message was received,
`rest` the messages still to come of the last of them, and `queued` the answers behind it. -/
structure QueueBooks (cfg : Config) (dQueue : List DEntry) (client : Client)
    (done queued : List Answer) (rest : List DMessage) : Prop where
  recorded : ∀ a ∈ done ++ queued,
    client.memories[a.step]? = some a.memory ∧ a.WellFormed cfg
  ordered : (done ++ queued).Pairwise (·.step < ·.step)
  received : client.popped ++ rest = done.flatMap (·.messages cfg)
  queue_eq : dQueue = rest.map plain ++ queued.flatMap (·.entries cfg)
  dBeats_eq : client.dBeats = rest.length

/-- Every completed message has its reply among the answers or owed by a pending continuation. -/
def Balanced (completed : List Reply) (answers : List Answer) (pending : List Callback) : Prop :=
  completed.Perm (answers.map (·.reply) ++ pending.filterMap Callback.owed)

/-- The pending continuations owe the replies whose probes the client has not acknowledged, in the
order of the requests. -/
structure ProbeBooks (pending : List Callback) (client : Client) : Prop where
  owed : pending.filterMap Callback.owed = client.probed.drop client.acknowledged
  acknowledged_le : client.acknowledged ≤ client.probed.length

/-- Each sink is free, held by a pending continuation, named by a queued Grant, or held by the
client. -/
structure SinkBooks (dSinks : FreeList Empty) (ongoingTlc : Dict ℕ ℕ) (client : Client)
    (queued : List Answer) (pending : List Callback) : Prop where
  initList_eq : dSinks.initList = dSinkList
  perm : (client.granted ++ queued.filterMap Answer.sink? ++
    (pending.filterMap Callback.sink? ++ dSinks.freeList)).Perm dSinkList
  ongoing : ∀ sink ∈ client.granted ++ queued.filterMap Answer.sink?, sink ∈ ongoingTlc.keys
  acquires_eq : client.acquires + dSinks.freeList.length = dSinkList.length

/-- The invariant of a legal run. -/
structure Books (cfg : Config) (s : State) (client : Client) (done queued : List Answer)
    (rest : List DMessage) : Prop where
  drive : s.drive = true
  simulated : Simulated s
  aBurst : BurstMatches (fun m : AMessage ↦ Client.hasBurst m.opcode) (cfg.burstLen ·.size)
    (·.source) s.aOngoings client.aBurst
  cBurst : BurstMatches (fun m : CMessage ↦ isCBurst m.opcode) (cfg.burstLen ·.size)
    (·.source) s.cOngoings client.cBurst
  deferred : ∀ callback ∈ s.probes.pending, callback.Deferred cfg
  queue : QueueBooks cfg s.dQueue client done queued rest
  balanced : Balanced client.completed (done ++ queued) s.probes.pending
  probed : ProbeBooks s.probes.pending client
  sinks : SinkBooks s.dSinks s.ongoingTlc client queued s.probes.pending

section Queue

variable {dQueue : List DEntry} {client' : Client} {done queued : List Answer}
  {rest : List DMessage} {memory : Dict ℕ ℕ}

theorem QueueBooks.step_lt (h : QueueBooks cfg dQueue client done queued rest) {a : Answer}
    (ha : a ∈ done ++ queued) : a.step < client.memories.length :=
  (List.getElem?_eq_some_iff.mp (h.recorded a ha).1).1

/-- A step that leaves the queue alone adds a memory to the record. -/
theorem QueueBooks.record (h : QueueBooks cfg dQueue client done queued rest)
    (hpopped : client'.popped = client.popped) (hbeats : client'.dBeats = client.dBeats)
    (hmemories : client'.memories = client.memories ++ [memory]) :
    QueueBooks cfg dQueue client' done queued rest where
  recorded a ha := by
    rw [hmemories, List.getElem?_append_left (h.step_lt ha)]
    exact h.recorded a ha
  ordered := h.ordered
  received := hpopped ▸ h.received
  queue_eq := h.queue_eq
  dBeats_eq := hbeats ▸ h.dBeats_eq

/-- A step that queues an answer. -/
theorem QueueBooks.push (h : QueueBooks cfg dQueue client done queued rest)
    (hpopped : client'.popped = client.popped) (hbeats : client'.dBeats = client.dBeats)
    (hmemories : client'.memories = client.memories ++ [memory]) {a : Answer}
    (hstep : a.step = client.memories.length) (hmemory : a.memory = memory)
    (hwf : a.WellFormed cfg) :
    QueueBooks cfg (dQueue ++ a.entries cfg) client' done (queued ++ [a]) rest where
  recorded b hb := by
    rw [← List.append_assoc, List.mem_append, List.mem_singleton] at hb
    obtain hb | rfl := hb
    · exact (h.record hpopped hbeats hmemories).recorded b hb
    · rw [hmemories, hstep, hmemory, List.getElem?_concat_length]
      exact ⟨rfl, hwf⟩
  ordered := by
    rw [← List.append_assoc, List.pairwise_append]
    refine ⟨h.ordered, List.pairwise_singleton _ _, fun b hb c hc ↦ ?_⟩
    rw [List.mem_singleton] at hc
    rw [hc, hstep]
    exact h.step_lt hb
  received := hpopped ▸ h.received
  queue_eq := by
    rw [h.queue_eq, List.flatMap_append, List.append_assoc]
    simp
  dBeats_eq := hbeats ▸ h.dBeats_eq

/-- A pop inside a burst. -/
theorem QueueBooks.pop_rest {m : DMessage}
    (h : QueueBooks cfg dQueue client done queued (m :: rest))
    (hpopped : client'.popped = client.popped ++ [m]) (hbeats : client'.dBeats = client.dBeats - 1)
    (hmemories : client'.memories = client.memories ++ [memory]) :
    QueueBooks cfg dQueue.tail client' done queued rest where
  recorded a ha := by
    rw [hmemories, List.getElem?_append_left (h.step_lt ha)]
    exact h.recorded a ha
  ordered := h.ordered
  received := by
    rw [hpopped, List.append_assoc]
    exact h.received
  queue_eq := by
    rw [h.queue_eq]
    rfl
  dBeats_eq := by
    rw [hbeats, h.dBeats_eq]
    rfl

/-- A pop of the first message of an answer. -/
theorem QueueBooks.pop_first {a : Answer} {m : DMessage} {ms : List DMessage}
    (h : QueueBooks cfg dQueue client done (a :: queued) [])
    (hmessages : a.messages cfg = m :: ms)
    (hpopped : client'.popped = client.popped ++ [m]) (hbeats : client'.dBeats = ms.length)
    (hmemories : client'.memories = client.memories ++ [memory]) :
    QueueBooks cfg dQueue.tail client' (done ++ [a]) queued ms where
  recorded b hb := by
    have hb' : b ∈ done ++ a :: queued := by simpa using hb
    rw [hmemories, List.getElem?_append_left (h.step_lt hb')]
    exact h.recorded b hb'
  ordered := by simpa using h.ordered
  received := by
    have hreceived := h.received
    rw [List.append_nil] at hreceived
    simp [hpopped, hreceived, hmessages]
  queue_eq := by
    rw [h.queue_eq, List.flatMap_cons, a.entries_eq_cons hmessages]
    rfl
  dBeats_eq := hbeats

end Queue

section Balance

variable {completed : List Reply} {answers : List Answer} {pending pending' : List Callback}

theorem Balanced.push (h : Balanced completed answers pending) (a : Answer) :
    Balanced (completed ++ [a.reply]) (answers ++ [a]) pending := by
  unfold Balanced at h ⊢
  refine (h.append_right [a.reply]).trans ?_
  rw [List.map_append, List.append_assoc, List.append_assoc]
  exact List.Perm.append_left _ List.perm_append_comm

theorem Balanced.defer (h : Balanced completed answers pending) {callback : Callback}
    (hpending : pending'.Perm (callback :: pending)) {reply : Reply}
    (howed : callback.owed = some reply) :
    Balanced (completed ++ [reply]) answers pending' := by
  have hperm : (pending'.filterMap Callback.owed).Perm
      (reply :: pending.filterMap Callback.owed) := by
    have hfilter := hpending.filterMap Callback.owed
    rwa [List.filterMap_cons_some howed] at hfilter
  unfold Balanced at h ⊢
  calc (completed ++ [reply]).Perm (reply :: completed) := List.perm_append_singleton _ _
    _ |>.Perm (reply :: (answers.map (·.reply) ++ pending.filterMap Callback.owed)) := h.cons _
    _ |>.Perm (answers.map (·.reply) ++ reply :: pending.filterMap Callback.owed) :=
      List.perm_middle.symm
    _ |>.Perm (answers.map (·.reply) ++ pending'.filterMap Callback.owed) :=
      hperm.symm.append_left _

/-- A continuation that runs turns its debt into an answer. -/
theorem Balanced.settle (h : Balanced completed answers pending) {callback : Callback}
    (hpending : pending.Perm (callback :: pending')) {a : Answer}
    (howed : callback.owed = some a.reply) : Balanced completed (answers ++ [a]) pending' := by
  have hperm : (pending.filterMap Callback.owed).Perm
      (a.reply :: pending'.filterMap Callback.owed) := by
    have hfilter := hpending.filterMap Callback.owed
    rwa [List.filterMap_cons_some howed] at hfilter
  unfold Balanced at h ⊢
  refine h.trans ((hperm.append_left _).trans ?_)
  simp

end Balance

section Probed

variable {pending pending' : List Callback} {client' : Client}

theorem ProbeBooks.record (h : ProbeBooks pending client) (hprobed : client'.probed = client.probed)
    (hacknowledged : client'.acknowledged = client.acknowledged) : ProbeBooks pending client' where
  owed := by rw [h.owed, hprobed, hacknowledged]
  acknowledged_le := by
    rw [hprobed, hacknowledged]
    exact h.acknowledged_le

/-- A request waits for a probe. -/
theorem ProbeBooks.hold (h : ProbeBooks pending client) {callback : Callback} {reply : Reply}
    (howed : callback.owed = some reply) (hprobed : client'.probed = client.probed ++ [reply])
    (hacknowledged : client'.acknowledged = client.acknowledged) :
    ProbeBooks (pending ++ [callback]) client' where
  owed := by
    rw [List.filterMap_append, h.owed, hprobed, hacknowledged,
      List.drop_append_of_le_length h.acknowledged_le, List.filterMap_cons_some howed,
      List.filterMap_nil]
  acknowledged_le := by
    rw [hprobed, hacknowledged, List.length_append]
    exact h.acknowledged_le.trans (Nat.le_add_right _ _)

/-- The next probe is acknowledged and its continuation runs. -/
theorem ProbeBooks.acknowledge {callback : Callback} (h : ProbeBooks (callback :: pending) client)
    {reply : Reply} (howed : callback.owed = some reply) (hprobed : client'.probed = client.probed)
    (hacknowledged : client'.acknowledged = client.acknowledged + 1) :
    ProbeBooks pending client' := by
  have hcons : reply :: pending.filterMap Callback.owed =
      client.probed.drop client.acknowledged := by
    rw [← h.owed, List.filterMap_cons_some howed]
  refine ⟨?_, ?_⟩
  · rw [hprobed, hacknowledged, ← List.tail_drop, ← hcons]
    rfl
  · have hlength := congrArg List.length hcons
    rw [List.length_cons, List.length_drop] at hlength
    rw [hprobed, hacknowledged]
    omega

end Probed

section Sinks

variable {dSinks : FreeList Empty} {ongoingTlc : Dict ℕ ℕ} {client' : Client}
  {queued : List Answer} {pending pending' : List Callback}

theorem SinkBooks.record (h : SinkBooks dSinks ongoingTlc client queued pending)
    (hacquires : client'.acquires = client.acquires) (hgranted : client'.granted = client.granted)
    (hpending : pending'.Perm pending) :
    SinkBooks dSinks ongoingTlc client' queued pending' where
  initList_eq := h.initList_eq
  perm := by
    rw [hgranted]
    exact (((hpending.filterMap Callback.sink?).append_right _).append_left _).trans h.perm
  ongoing := hgranted ▸ h.ongoing
  acquires_eq := hacquires ▸ h.acquires_eq

/-- An answer without a sink is queued. -/
theorem SinkBooks.push (h : SinkBooks dSinks ongoingTlc client queued pending)
    (hacquires : client'.acquires = client.acquires) (hgranted : client'.granted = client.granted)
    {a : Answer} (hsink : a.sink? = none) :
    SinkBooks dSinks ongoingTlc client' (queued ++ [a]) pending := by
  have hfilter : (queued ++ [a]).filterMap Answer.sink? = queued.filterMap Answer.sink? := by
    simp [hsink]
  have hrecord : SinkBooks dSinks ongoingTlc client' queued pending :=
    h.record hacquires hgranted (List.Perm.refl _)
  exact ⟨h.initList_eq, hfilter ▸ hrecord.perm, hfilter ▸ hrecord.ongoing, hrecord.acquires_eq⟩

/-- A free sink that is taken leaves one free sink less and is held elsewhere. -/
theorem SinkBooks.perm_take (h : SinkBooks dSinks ongoingTlc client queued pending) {sink : ℕ}
    (hsink : sink ∈ dSinks.freeList) :
    (client.granted ++ queued.filterMap Answer.sink? ++
      (pending.filterMap Callback.sink? ++ sink :: (dSinks.remove sink).freeList)).Perm
      dSinkList :=
  (((List.perm_cons_erase hsink).symm.append_left _).append_left _).trans h.perm

theorem SinkBooks.acquires_take (h : SinkBooks dSinks ongoingTlc client queued pending) {sink : ℕ}
    (hsink : sink ∈ dSinks.freeList) :
    client.acquires + 1 + (dSinks.remove sink).freeList.length = dSinkList.length := by
  have hlength : (dSinks.remove sink).freeList.length = dSinks.freeList.length - 1 :=
    List.length_erase_of_mem hsink
  have hpos : 0 < dSinks.freeList.length := List.length_pos_of_mem hsink
  have heq := h.acquires_eq
  omega

/-- An Acquire is answered at once. -/
theorem SinkBooks.acquire (h : SinkBooks dSinks ongoingTlc client queued pending)
    (hacquires : client'.acquires = client.acquires + 1)
    (hgranted : client'.granted = client.granted) {a : Answer} {sink : ℕ}
    (hsink : a.sink? = some sink) (hfree : sink ∈ dSinks.freeList) (blockAddr : ℕ) :
    SinkBooks (dSinks.remove sink) (ongoingTlc.set sink blockAddr) client' (queued ++ [a])
      pending where
  initList_eq := h.initList_eq
  perm := by
    refine List.Perm.trans ?_ (h.perm_take hfree)
    rw [hgranted, List.filterMap_append, List.filterMap_cons_some hsink, List.filterMap_nil]
    simp only [List.append_assoc]
    refine List.Perm.append_left _ (List.Perm.append_left _ ?_)
    rw [List.singleton_append]
    exact List.perm_middle.symm
  ongoing sink' hsink' := by
    rw [hgranted, List.filterMap_append, List.filterMap_cons_some hsink, List.filterMap_nil,
      ← List.append_assoc, List.mem_append, List.mem_singleton] at hsink'
    rw [Dict.mem_keys_set]
    exact hsink'.elim (fun hold ↦ Or.inr (h.ongoing sink' hold)) Or.inl
  acquires_eq := hacquires ▸ h.acquires_take hfree

/-- An Acquire waits for a probe. -/
theorem SinkBooks.defer (h : SinkBooks dSinks ongoingTlc client queued pending)
    (hacquires : client'.acquires = client.acquires + 1)
    (hgranted : client'.granted = client.granted) {callback : Callback} {sink : ℕ}
    (hsink : callback.sink? = some sink) (hfree : sink ∈ dSinks.freeList)
    (hpending : pending'.Perm (callback :: pending)) :
    SinkBooks (dSinks.remove sink) ongoingTlc client' queued pending' where
  initList_eq := h.initList_eq
  perm := by
    have hfilter := hpending.filterMap Callback.sink?
    rw [List.filterMap_cons_some hsink] at hfilter
    refine List.Perm.trans ?_ (h.perm_take hfree)
    rw [hgranted]
    refine List.Perm.append_left _ ((hfilter.append_right _).trans ?_)
    exact List.perm_middle.symm
  ongoing := hgranted ▸ h.ongoing
  acquires_eq := hacquires ▸ h.acquires_take hfree

/-- A request other than an Acquire waits for a probe. -/
theorem SinkBooks.wait (h : SinkBooks dSinks ongoingTlc client queued pending)
    (hacquires : client'.acquires = client.acquires) (hgranted : client'.granted = client.granted)
    {callback : Callback} (hsink : callback.sink? = none)
    (hpending : pending'.Perm (callback :: pending)) :
    SinkBooks dSinks ongoingTlc client' queued pending' where
  initList_eq := h.initList_eq
  perm := by
    have hfilter := hpending.filterMap Callback.sink?
    rw [List.filterMap_cons_none hsink] at hfilter
    rw [hgranted]
    exact ((hfilter.append_right _).append_left _).trans h.perm
  ongoing := hgranted ▸ h.ongoing
  acquires_eq := hacquires ▸ h.acquires_eq

/-- A continuation answers; its sink moves into the queue. -/
theorem SinkBooks.settle (h : SinkBooks dSinks ongoingTlc client queued pending)
    (hacquires : client'.acquires = client.acquires) (hgranted : client'.granted = client.granted)
    {callback : Callback} {a : Answer} (hsink : a.sink? = callback.sink?)
    (hpending : pending.Perm (callback :: pending')) :
    SinkBooks dSinks (callback.grants ongoingTlc) client' (queued ++ [a]) pending' := by
  have hfilter := hpending.filterMap Callback.sink?
  have hperm : (client'.granted ++ (queued ++ [a]).filterMap Answer.sink? ++
      (pending'.filterMap Callback.sink? ++ dSinks.freeList)).Perm dSinkList := by
    refine List.Perm.trans ?_ h.perm
    rw [hgranted, List.filterMap_append]
    simp only [List.append_assoc]
    refine List.Perm.append_left _ (List.Perm.append_left _ ?_)
    rw [← List.append_assoc]
    refine List.Perm.append_right _ (List.Perm.trans ?_ hfilter.symm)
    rw [List.filterMap_cons, List.filterMap_cons, hsink]
    cases callback.sink? <;> simp
  have hongoing : ∀ sink ∈ client'.granted ++ (queued ++ [a]).filterMap Answer.sink?,
      sink ∈ (callback.grants ongoingTlc).keys := by
    intro sink hmem
    rw [hgranted, List.filterMap_append, ← List.append_assoc, List.mem_append] at hmem
    cases callback with
    | grantData burstLen addr param sink' size source blockAddr =>
      have hsink' : a.sink? = some sink' := hsink
      rw [List.filterMap_cons_some hsink', List.filterMap_nil, List.mem_singleton] at hmem
      change sink ∈ (ongoingTlc.set sink' blockAddr).keys
      rw [Dict.mem_keys_set]
      exact hmem.elim (fun hold ↦ Or.inr (h.ongoing sink hold)) Or.inl
    | accessAck | accessAckData | arithmeticAck | logicalAck | grant | probeBlocksRec
      | enableProbe =>
      have hsink' : a.sink? = none := hsink
      rw [List.filterMap_cons_none hsink', List.filterMap_nil] at hmem
      exact h.ongoing sink (hmem.resolve_right nofun)
  exact ⟨h.initList_eq, hperm, hongoing, hacquires ▸ h.acquires_eq⟩

/-- The first message of an answer reaches the client, and its sink with it. -/
theorem SinkBooks.pop {a : Answer} (h : SinkBooks dSinks ongoingTlc client (a :: queued) pending)
    (hgranted : client'.granted = client.granted ++ a.sink?.toList)
    (hacquires : client'.acquires = client.acquires) :
    SinkBooks dSinks ongoingTlc client' queued pending := by
  have heq : client'.granted ++ queued.filterMap Answer.sink? =
      client.granted ++ (a :: queued).filterMap Answer.sink? := by
    rw [hgranted, List.filterMap_cons]
    cases a.sink? <;> simp
  exact ⟨h.initList_eq, heq ▸ h.perm, heq ▸ h.ongoing, hacquires ▸ h.acquires_eq⟩

/-- The client acknowledges a Grant. -/
theorem SinkBooks.release (h : SinkBooks dSinks ongoingTlc client queued pending) {sink : ℕ}
    (hsink : sink ∈ client.granted) :
    ∃ (hinit : sink ∈ dSinks.initList) (hfree : sink ∉ dSinks.freeList),
      sink ∈ ongoingTlc.keys ∧
        SinkBooks (dSinks.restore sink hinit hfree) (ongoingTlc.erase sink)
          (Client.sendE sink client) queued pending := by
  have hnodup : (client.granted ++ queued.filterMap Answer.sink? ++
      (pending.filterMap Callback.sink? ++ dSinks.freeList)).Nodup :=
    h.perm.nodup_iff.mpr List.nodup_range
  have hmem : sink ∈ client.granted ++ queued.filterMap Answer.sink? :=
    List.mem_append_left _ hsink
  have hinit : sink ∈ dSinks.initList := by
    rw [h.initList_eq]
    exact h.perm.subset (List.mem_append_left _ hmem)
  have hfree : sink ∉ dSinks.freeList := fun hfree ↦
    List.disjoint_of_nodup_append hnodup hmem (List.mem_append_right _ hfree)
  have hheld : (client.granted ++ queued.filterMap Answer.sink?).Nodup :=
    (List.nodup_append.mp hnodup).1
  have herase : sink ∉ client.granted.erase sink ++ queued.filterMap Answer.sink? := by
    rw [List.mem_append, not_or]
    refine ⟨((List.nodup_append.mp hheld).1).not_mem_erase, fun hqueued ↦ ?_⟩
    exact List.disjoint_of_nodup_append hheld hsink hqueued
  refine ⟨hinit, hfree, h.ongoing sink hmem, h.initList_eq, ?_, fun sink' hsink' ↦ ?_, ?_⟩
  · refine List.Perm.trans ?_ h.perm
    have hgranted : client.granted.Perm (sink :: client.granted.erase sink) :=
      List.perm_cons_erase hsink
    change (client.granted.erase sink ++ queued.filterMap Answer.sink? ++
      (pending.filterMap Callback.sink? ++ (dSinks.freeList ++ [sink]))).Perm _
    refine List.perm_iff_count.mpr fun x ↦ ?_
    have hcount := hgranted.count_eq x
    simp only [List.count_append, List.count_cons, List.count_nil] at hcount ⊢
    omega
  · rw [Dict.mem_keys_erase]
    have hold : sink' ∈ client.granted ++ queued.filterMap Answer.sink? := by
      refine (List.mem_append.mp hsink').elim (fun hmem ↦ ?_) (List.mem_append_right _)
      exact List.mem_append_left _ (List.mem_of_mem_erase hmem)
    exact ⟨h.ongoing sink' hold, fun heq ↦ herase (heq ▸ hsink')⟩
  · have hlength := h.perm.length_eq
    have hacquires := h.acquires_eq
    have hpos : 0 < client.granted.length := List.length_pos_of_mem hsink
    simp only [List.length_append] at hlength
    change client.acquires - 1 + (dSinks.freeList ++ [sink]).length = _
    rw [List.length_append, List.length_singleton]
    omega

end Sinks

section AChannel

variable {done queued : List Answer} {rest : List DMessage} {m : AMessage}

open Client

theorem Simulated.initList_eq_singleton (h : Simulated s) : s.probes.bSrcs.initList = [0] :=
  h.initList_eq

/-- The checks in front of the handlers pass. -/
theorem Books.step_a (h : Books cfg s client done queued rest) (hlegal : LegalA cfg m s client) :
    Adapter.step cfg s (.a m) = aDispatch cfg m (received cfg m s) :=
  step_a_eq_dispatch h.drive hlegal.wellFormed.checked
    (h.aBurst.count_eq m fun first count heq ↦ by rw [hlegal.continues first count heq]).2

/-- An Acquire adds one to the Acquires without a GrantAck. -/
theorem acquires_after_of_acquire (cfg : Config) (s : State) (client : Client)
    (hacquire : isAcquire m.opcode = true) (s' : State) :
    (after cfg s s' client (.a m)).acquires = client.acquires + 1 :=
  if_pos hacquire

theorem acquires_after_of_not_acquire (cfg : Config) (s : State) (client : Client)
    (hacquire : isAcquire m.opcode = false) (s' : State) :
    (after cfg s s' client (.a m)).acquires = client.acquires :=
  if_neg (by rw [hacquire]; exact Bool.false_ne_true)

theorem probed_after_of_probed (client : Client) (hprobed : isProbed cfg m s = true)
    (s' : State) :
    (after cfg s s' client (.a m)).probed = client.probed ++ [.ofA cfg m] :=
  if_pos hprobed

theorem probed_after_of_not_probed (client : Client) (hprobed : isProbed cfg m s = false)
    (s' : State) : (after cfg s s' client (.a m)).probed = client.probed :=
  if_neg (by rw [hprobed]; exact Bool.false_ne_true)

/-- A message that is answered at once. -/
theorem Books.answered (h : Books cfg s client done queued rest)
    (hstep : Adapter.step cfg s (.a m) = .ok s') {a : Answer} (hreply : a.reply = .ofA cfg m)
    (ha : a.step = client.memories.length ∧ a.memory = s'.memory) (hwf : a.WellFormed cfg)
    (hcomplete : (sendA cfg m client).aBurst = none) (hongoings : s'.aOngoings = Dict.empty)
    (hdrive : s'.drive = s.drive) (hc : s'.cOngoings = s.cOngoings)
    (hqueue : s'.dQueue = s.dQueue ++ a.entries cfg)
    (hpending : s'.probes.pending = s.probes.pending) (hprobed : isProbed cfg m s = false)
    (hsinks : SinkBooks s'.dSinks s'.ongoingTlc (after cfg s s' client (.a m)) (queued ++ [a])
      s.probes.pending) :
    Books cfg s' (after cfg s s' client (.a m)) done (queued ++ [a]) rest where
  drive := hdrive.trans h.drive
  simulated := h.simulated.step hstep
  aBurst := by
    change BurstMatches _ _ _ _ (sendA cfg m client).aBurst
    rw [hcomplete]
    exact hongoings
  cBurst := by
    rw [hc]
    exact h.cBurst
  deferred := hpending ▸ h.deferred
  queue := by
    rw [hqueue]
    refine h.queue.push ?_ ?_ ?_ ha.1 ha.2 hwf <;> rfl
  balanced := by
    have hcompleted : (after cfg s s' client (.a m)).completed =
        client.completed ++ [a.reply] := by
      have hnone := hcomplete
      change (if (sendA cfg m client).aBurst.isNone then _ else _) = _
      rw [hnone, hreply]
      rfl
    rw [hcompleted, hpending, ← List.append_assoc]
    exact h.balanced.push a
  probed := hpending ▸ h.probed.record (probed_after_of_not_probed client hprobed s') rfl
  sinks := hpending ▸ hsinks

/-- A message that leaves a burst unfinished. -/
theorem Books.unfinished (h : Books cfg s client done queued rest)
    (hstep : Adapter.step cfg s (.a m) = .ok s')
    (hburst : BurstMatches (fun m : AMessage ↦ hasBurst m.opcode) (cfg.burstLen ·.size)
      (·.source) s'.aOngoings (sendA cfg m client).aBurst)
    (hsome : (sendA cfg m client).aBurst.isNone = false) (hacquire : isAcquire m.opcode = false)
    (hprobed : isProbed cfg m s = false)
    (hdrive : s'.drive = s.drive) (hc : s'.cOngoings = s.cOngoings)
    (hqueue : s'.dQueue = s.dQueue) (hpending : s'.probes.pending = s.probes.pending)
    (hsinks : s'.dSinks = s.dSinks) (htlc : s'.ongoingTlc = s.ongoingTlc) :
    Books cfg s' (after cfg s s' client (.a m)) done queued rest where
  drive := hdrive.trans h.drive
  simulated := h.simulated.step hstep
  aBurst := hburst
  cBurst := by
    rw [hc]
    exact h.cBurst
  deferred := hpending ▸ h.deferred
  queue := by
    rw [hqueue]
    exact h.queue.record rfl rfl rfl
  balanced := by
    have hcompleted : (after cfg s s' client (.a m)).completed = client.completed := by
      change (if (sendA cfg m client).aBurst.isNone then _ else _) = _
      rw [hsome]
      rfl
    rw [hcompleted, hpending]
    exact h.balanced
  probed := hpending ▸ h.probed.record (probed_after_of_not_probed client hprobed s') rfl
  sinks := by
    rw [hsinks, htlc, hpending]
    exact h.sinks.record (acquires_after_of_not_acquire cfg s client hacquire s') rfl (List.Perm.refl _)

/-- A message whose reply waits for a probe. -/
theorem Books.deferred_a (h : Books cfg s client done queued rest)
    (hstep : Adapter.step cfg s (.a m) = .ok s') {callback : Callback}
    (howed : callback.owed = some (.ofA cfg m)) (hdeferred : callback.Deferred cfg)
    (hcomplete : (sendA cfg m client).aBurst = none) (hongoings : s'.aOngoings = Dict.empty)
    (hdrive : s'.drive = s.drive) (hc : s'.cOngoings = s.cOngoings)
    (hqueue : s'.dQueue = s.dQueue)
    (hpending : s'.probes.pending = s.probes.pending ++ [callback])
    (hprobed : isProbed cfg m s = true)
    (hsinks : SinkBooks s'.dSinks s'.ongoingTlc (after cfg s s' client (.a m)) queued
      s'.probes.pending) :
    Books cfg s' (after cfg s s' client (.a m)) done queued rest where
  drive := hdrive.trans h.drive
  simulated := h.simulated.step hstep
  aBurst := by
    change BurstMatches _ _ _ _ (sendA cfg m client).aBurst
    rw [hcomplete]
    exact hongoings
  cBurst := by
    rw [hc]
    exact h.cBurst
  deferred callback' hmem := by
    rw [hpending, List.mem_append, List.mem_singleton] at hmem
    obtain hold | rfl := hmem
    · exact h.deferred callback' hold
    · exact hdeferred
  queue := by
    rw [hqueue]
    exact h.queue.record rfl rfl rfl
  balanced := by
    have hcompleted : (after cfg s s' client (.a m)).completed =
        client.completed ++ [.ofA cfg m] := by
      have hnone := hcomplete
      change (if (sendA cfg m client).aBurst.isNone then _ else _) = _
      rw [hnone]
      rfl
    have hperm : s'.probes.pending.Perm (callback :: s.probes.pending) :=
      hpending ▸ List.perm_append_singleton _ _
    rw [hcompleted]
    exact h.balanced.defer hperm howed
  probed := by
    rw [hpending]
    exact h.probed.hold howed (probed_after_of_probed client hprobed s') rfl
  sinks := hsinks

theorem isProbed_eq_false (hop : m.opcode ≠ .get ∧ m.opcode ≠ .acquireBlock) :
    isProbed cfg m s = false := by
  unfold isProbed
  cases hcase : m.opcode with
  | get => exact absurd hcase hop.1
  | acquireBlock => exact absurd hcase hop.2
  | putFullData | putPartialData | arithmeticData | logicalData | intent | acquirePerm => rfl

/-- Outside a burst the client has none under way after the message. -/
theorem sendA_aBurst_of_not_burst (hburst : hasBurst m.opcode = false) :
    (sendA cfg m client).aBurst = none := by
  unfold sendA
  dsimp only
  rw [hburst]
  rfl

/-- A message that has no burst of its own arrives outside a burst. -/
theorem Books.aOngoings_of_not_burst (h : Books cfg s client done queued rest)
    (hlegal : LegalA cfg m s client) (hburst : hasBurst m.opcode = false) :
    s.aOngoings = Dict.empty := by
  have haBurst := h.aBurst
  cases hcurrent : client.aBurst with
  | none =>
    rw [hcurrent] at haBurst
    exact haBurst
  | some entry =>
    obtain ⟨first, count⟩ := entry
    rw [hcurrent] at haBurst
    have hop : m.opcode = first.opcode := by rw [hlegal.continues first count hcurrent]
    have hfirst : hasBurst m.opcode = true := hop ▸ haBurst.1
    rw [hburst] at hfirst
    exact nomatch hfirst

theorem Books.a_get (h : Books cfg s client done queued rest) (hlegal : LegalA cfg m s client)
    (hop : m.opcode = .get) :
    ∃ s' queued', Adapter.step cfg s (.a m) = .ok s' ∧
      Books cfg s' (after cfg s s' client (.a m)) done queued' rest := by
  have hburst : hasBurst m.opcode = false := by rw [hop]; rfl
  have hacquire : isAcquire m.opcode = false := by rw [hop]; rfl
  have hreply : Reply.ofA cfg m =
      .accessAckData (cfg.addrAligned m.address) m.size m.source := by
    unfold Reply.ofA
    rw [hop]
  have hdispatch : Adapter.step cfg s (.a m) = aGet cfg m (received cfg m s) := by
    rw [h.step_a hlegal]
    unfold aDispatch
    rw [hop]
  unfold aGet at hdispatch
  rw [perm_received] at hdispatch
  have hacquires := acquires_after_of_not_acquire cfg s client hacquire
  have hprobed : isProbed cfg m s = decide (s.perm (cfg.blockAddr m.address) ≠ .tip) := by
    unfold isProbed
    rw [hop]
  split at hdispatch
  · next hperm =>
    have hconsistent : (received cfg m s).probes.Consistent none := h.simulated.consistent
    obtain ⟨probes, hprobes, -⟩ := hconsistent.retrieveBlock
      { callback := .accessAckData (cfg.burstLen m.size) (cfg.addrAligned m.address) m.size m.source
        param := toT, size := m.size, addr := m.address, mask := m.mask }
    have hstep := hdispatch.trans (State.retrieveBlock_eq_ok.mpr ⟨probes, hprobes, rfl⟩)
    have hpending := hconsistent.pending_retrieveBlock h.simulated.initList_eq_singleton hprobes
    have hwait := hconsistent.perm_pending_retrieveBlock hprobes
    have hdeferred : Callback.Deferred cfg (.accessAckData (cfg.burstLen m.size)
      (cfg.addrAligned m.address) m.size m.source) := rfl
    refine ⟨_, queued, hstep, h.deferred_a hstep (by rw [hreply]; rfl) hdeferred
      (sendA_aBurst_of_not_burst hburst) (h.aOngoings_of_not_burst hlegal hburst) rfl rfl rfl
      hpending (hprobed.trans (decide_eq_true hperm)) (h.sinks.wait (hacquires _) rfl rfl hwait)⟩
  · next hperm =>
    dsimp only at hdispatch
    rw [accessAckDataCb_eq] at hdispatch
    refine ⟨_, _, hdispatch, h.answered hdispatch (a := {
      reply := .accessAckData (cfg.addrAligned m.address) m.size m.source
      step := client.memories.length
      memory := filled cfg (cfg.burstLen m.size) (cfg.addrAligned m.address) s.memory })
      hreply.symm ⟨rfl, rfl⟩ trivial (sendA_aBurst_of_not_burst hburst)
      (h.aOngoings_of_not_burst hlegal hburst) rfl rfl ?_ rfl
      (hprobed.trans (decide_eq_false hperm)) (h.sinks.push (hacquires _) rfl rfl)⟩
    change s.dQueue ++ _ = s.dQueue ++ (burst cfg _ _ _ (filled cfg _ _ s.memory)).map plain
    rw [burst_congr (fun addr ↦ getD_filled _ _ addr s.memory)]
    rfl

/-- With fewer than four Acquires outstanding there is a free sink. -/
theorem Books.exists_getSink (h : Books cfg s client done queued rest)
    (hlegal : LegalA cfg m s client) (hacquire : isAcquire m.opcode = true) :
    ∃ sink ∈ s.dSinks.freeList,
      getSink (received cfg m s) = .ok (sink, withoutSink sink (received cfg m s)) := by
  have hlt := hlegal.acquires hacquire
  have heq := h.sinks.acquires_eq
  have hpos : 0 < s.dSinks.freeList.length := by omega
  have hfree : (received cfg m s).dSinks.freeList ≠ [] := List.ne_nil_of_length_pos hpos
  exact exists_getSink_eq_ok hfree

theorem Books.a_acquireBlock (h : Books cfg s client done queued rest)
    (hlegal : LegalA cfg m s client) (hop : m.opcode = .acquireBlock) :
    ∃ s' queued', Adapter.step cfg s (.a m) = .ok s' ∧
      Books cfg s' (after cfg s s' client (.a m)) done queued' rest := by
  have hburst : hasBurst m.opcode = false := by rw [hop]; rfl
  have hacquire : isAcquire m.opcode = true := by rw [hop]; rfl
  have hprotocol : cfg.protocol = tlC := hlegal.wellFormed.protocol_eq (by rw [hop]; rfl)
  have hreply : Reply.ofA cfg m =
      .grantData (grantParam m.param) (cfg.addrAligned m.address) m.size m.source := by
    unfold Reply.ofA
    rw [hop]
  obtain ⟨sink, hfree, hget⟩ := h.exists_getSink hlegal hacquire
  have hdispatch : Adapter.step cfg s (.a m) = aAcquireBlock cfg m (received cfg m s) := by
    rw [h.step_a hlegal, aDispatch_acquireBlock hop hprotocol]
  unfold aAcquireBlock at hdispatch
  dsimp only at hdispatch
  rw [hget, ok_bind] at hdispatch
  dsimp only at hdispatch
  have hacquires := acquires_after_of_acquire cfg s client hacquire
  have hprobed : isProbed cfg m s =
      decide ((received cfg m s).perm (cfg.blockAddr m.address) ≠ .tip) := by
    unfold isProbed
    rw [hop, perm_received]
  split at hdispatch
  · next hperm =>
    have hconsistent : (withoutSink sink (received cfg m s)).probes.Consistent none :=
      h.simulated.consistent.frame rfl rfl
    obtain ⟨probes, hprobes, -⟩ := hconsistent.retrieveBlock
      { callback := .grantData (cfg.burstLen m.size) (cfg.addrAligned m.address)
          (grantParam m.param) sink m.size m.source (cfg.blockAddr m.address)
        param := probeParam m.param, size := m.size, addr := m.address, mask := m.mask }
    have hstep := hdispatch.trans (State.retrieveBlock_eq_ok.mpr ⟨probes, hprobes, rfl⟩)
    have hpending := hconsistent.pending_retrieveBlock h.simulated.initList_eq_singleton hprobes
    have hwait := hconsistent.perm_pending_retrieveBlock hprobes
    have hdeferred : Callback.Deferred cfg (.grantData (cfg.burstLen m.size)
      (cfg.addrAligned m.address) (grantParam m.param) sink m.size m.source
      (cfg.blockAddr m.address)) := rfl
    refine ⟨_, queued, hstep, h.deferred_a hstep (by rw [hreply]; rfl) hdeferred
      (sendA_aBurst_of_not_burst hburst) (h.aOngoings_of_not_burst hlegal hburst) rfl rfl rfl
      hpending (hprobed.trans (decide_eq_true hperm))
      (h.sinks.defer (hacquires _) rfl rfl hfree hwait)⟩
  · next hperm =>
    rw [grantDataCb_eq] at hdispatch
    refine ⟨_, _, hdispatch, h.answered hdispatch (a := {
      reply := .grantData (grantParam m.param) (cfg.addrAligned m.address) m.size m.source
      step := client.memories.length
      memory := filled cfg (cfg.burstLen m.size) (cfg.addrAligned m.address) s.memory
      sink := sink
      blockAddr := cfg.blockAddr m.address })
      hreply.symm ⟨rfl, rfl⟩ trivial (sendA_aBurst_of_not_burst hburst)
      (h.aOngoings_of_not_burst hlegal hburst) rfl rfl ?_ (Probes.pending_frame rfl rfl)
      (hprobed.trans (decide_eq_false hperm))
      (h.sinks.acquire (hacquires _) rfl rfl hfree _)⟩
    change s.dQueue ++ _ = s.dQueue ++
      withCallback _ (burst cfg _ _ _ (filled cfg _ _ s.memory))
    rw [burst_congr (fun addr ↦ getD_filled _ _ addr s.memory)]
    rfl

theorem Books.a_acquirePerm (h : Books cfg s client done queued rest)
    (hlegal : LegalA cfg m s client) (hop : m.opcode = .acquirePerm) :
    ∃ s' queued', Adapter.step cfg s (.a m) = .ok s' ∧
      Books cfg s' (after cfg s s' client (.a m)) done queued' rest := by
  have hburst : hasBurst m.opcode = false := by rw [hop]; rfl
  have hacquire : isAcquire m.opcode = true := by rw [hop]; rfl
  have hprotocol : cfg.protocol = tlC := hlegal.wellFormed.protocol_eq (by rw [hop]; rfl)
  have hreply : Reply.ofA cfg m = .grant (grantParam m.param) m.size m.source := by
    unfold Reply.ofA
    rw [hop]
  have htip : (received cfg m s).perm (cfg.blockAddr m.address) = .tip := by
    rw [perm_received, hlegal.tip (by rw [hop]; rfl)]
  obtain ⟨sink, hfree, hget⟩ := h.exists_getSink hlegal hacquire
  have hstep := (h.step_a hlegal).trans
    ((aDispatch_acquirePerm hop hprotocol).trans (aAcquirePerm_of_tip hget htip))
  have hacquires := acquires_after_of_acquire cfg s client hacquire
  exact ⟨_, _, hstep, h.answered hstep (a := {
    reply := .grant (grantParam m.param) m.size m.source
    step := client.memories.length
    memory := s.memory
    sink := sink
    blockAddr := cfg.blockAddr m.address })
    hreply.symm ⟨rfl, rfl⟩ trivial (sendA_aBurst_of_not_burst hburst)
    (h.aOngoings_of_not_burst hlegal hburst) rfl rfl rfl (Probes.pending_frame rfl rfl)
    (isProbed_eq_false (by rw [hop]; decide)) (h.sinks.acquire (hacquires _) rfl rfl hfree _)⟩

theorem Books.a_intent (h : Books cfg s client done queued rest)
    (hlegal : LegalA cfg m s client) (hop : m.opcode = .intent) :
    ∃ s' queued', Adapter.step cfg s (.a m) = .ok s' ∧
      Books cfg s' (after cfg s s' client (.a m)) done queued' rest := by
  have hburst : hasBurst m.opcode = false := by rw [hop]; rfl
  have hacquire : isAcquire m.opcode = false := by rw [hop]; rfl
  have hprotocol : tlUH ≤ cfg.protocol := hlegal.wellFormed.protocol_ge (by rw [hop]; rfl)
  have hreply : Reply.ofA cfg m = .hintAck m.size m.source := by
    unfold Reply.ofA
    rw [hop]
  have hdispatch : Adapter.step cfg s (.a m) = .ok ((received cfg m s).push
      [plain { opcode := .hintAck, size := m.size, source := m.source }]) := by
    rw [h.step_a hlegal]
    unfold aDispatch
    rw [hop]
    dsimp only
    rw [if_pos hprotocol]
  have hacquires := acquires_after_of_not_acquire cfg s client hacquire
  exact ⟨_, _, hdispatch, h.answered hdispatch (a := {
    reply := .hintAck m.size m.source
    step := client.memories.length
    memory := s.memory })
    hreply.symm ⟨rfl, rfl⟩ trivial (sendA_aBurst_of_not_burst hburst)
    (h.aOngoings_of_not_burst hlegal hburst) rfl rfl rfl rfl
    (isProbed_eq_false (by rw [hop]; decide)) (h.sinks.push (hacquires _) rfl rfl)⟩

theorem Books.a_put (h : Books cfg s client done queued rest) (hlegal : LegalA cfg m s client)
    (hop : m.opcode = .putFullData ∨ m.opcode = .putPartialData) :
    ∃ s' queued', Adapter.step cfg s (.a m) = .ok s' ∧
      Books cfg s' (after cfg s s' client (.a m)) done queued' rest := by
  have hburst : hasBurst m.opcode = true := by rcases hop with hop | hop <;> rw [hop] <;> rfl
  have hacquire : isAcquire m.opcode = false := by
    rcases hop with hop | hop <;> rw [hop] <;> rfl
  have htip : s.perm (cfg.blockAddr m.address) = .tip :=
    hlegal.tip (by rcases hop with hop | hop <;> rw [hop] <;> rfl)
  have hreply : Reply.ofA cfg m = .accessAck m.size m.source := by
    unfold Reply.ofA
    rcases hop with hop | hop <;> rw [hop]
  have hdispatch : Adapter.step cfg s (.a m) = .ok (putDirect cfg m (received cfg m s)) := by
    rw [h.step_a hlegal, aDispatch_put hop (by rw [perm_received, htip])]
  have hacquires := acquires_after_of_not_acquire cfg s client hacquire
  have hprobed : isProbed cfg m s = false :=
    isProbed_eq_false (by rcases hop with hop | hop <;> rw [hop] <;> decide)
  have hcount := (h.aBurst.count_eq m fun first count heq ↦ by
    rw [hlegal.continues first count heq]).1
  have hadvance := h.aBurst.advance (m := m)
    (fun first count heq ↦ by rw [hlegal.continues first count heq]; exact ⟨rfl, rfl⟩)
    (cfg.burstLen_pos m.size) hburst
  have haBurst : (sendA cfg m client).aBurst =
      advance m (cfg.burstLen m.size) client.aBurst := by
    unfold sendA
    dsimp only
    rw [hburst]
    rfl
  by_cases hlast : s.aOngoings.getD m.source 0 + 1 = cfg.burstLen m.size
  · have hnone : advance m (cfg.burstLen m.size) client.aBurst = none := by
      unfold advance
      rw [← hcount]
      exact if_pos hlast
    rw [if_pos hlast, hnone] at hadvance
    rw [putDirect_of_last (s := received cfg m s) hlast] at hdispatch
    exact ⟨_, _, hdispatch, h.answered hdispatch (a := {
      reply := .accessAck m.size m.source
      step := client.memories.length
      memory := (writeMasked cfg m (s.aOngoings.getD m.source 0) (received cfg m s)).memory })
      hreply.symm ⟨rfl, rfl⟩ trivial (haBurst.trans hnone) hadvance rfl rfl rfl rfl hprobed
      (h.sinks.push (hacquires _) rfl rfl)⟩
  · have hsome : (advance m (cfg.burstLen m.size) client.aBurst).isNone = false := by
      unfold advance
      rw [← hcount]
      exact (congrArg Option.isNone (if_neg hlast)).trans rfl
    rw [if_neg hlast] at hadvance
    rw [putDirect_of_not_last (s := received cfg m s) hlast] at hdispatch
    refine ⟨_, queued, hdispatch, h.unfinished hdispatch ?_ (by rw [haBurst]; exact hsome)
      hacquire hprobed rfl rfl rfl rfl rfl rfl⟩
    rw [haBurst]
    exact hadvance

theorem Books.a_atomic (h : Books cfg s client done queued rest) (hlegal : LegalA cfg m s client)
    (hop : m.opcode = .arithmeticData ∨ m.opcode = .logicalData) :
    ∃ s' queued', Adapter.step cfg s (.a m) = .ok s' ∧
      Books cfg s' (after cfg s s' client (.a m)) done queued' rest := by
  have hburst : hasBurst m.opcode = false := by rcases hop with hop | hop <;> rw [hop] <;> rfl
  have hacquire : isAcquire m.opcode = false := by
    rcases hop with hop | hop <;> rw [hop] <;> rfl
  have hatomic : isAtomic m.opcode = true := by rcases hop with hop | hop <;> rw [hop] <;> rfl
  have htip : s.perm (cfg.blockAddr m.address) = .tip :=
    hlegal.tip (by rcases hop with hop | hop <;> rw [hop] <;> rfl)
  have hprotocol : tlUH ≤ cfg.protocol :=
    hlegal.wellFormed.protocol_ge (by rcases hop with hop | hop <;> rw [hop] <;> rfl)
  have hreply : Reply.ofA cfg m = .atomicData m.size m.source := by
    unfold Reply.ofA
    rcases hop with hop | hop <;> rw [hop]
  obtain ⟨hmask, hlen⟩ := hlegal.wellFormed.atomic hatomic
  have htip' : (received cfg m s).perm (cfg.blockAddr m.address) = .tip := by
    rw [perm_received, htip]
  obtain ⟨memory, value, data, hatomic⟩ :=
    aDispatch_atomic hop hprotocol hlegal.wellFormed.checked hlen hmask htip'
  have hdispatch := (h.step_a hlegal).trans hatomic
  have hacquires := acquires_after_of_not_acquire cfg s client hacquire
  have hprobed : isProbed cfg m s = false :=
    isProbed_eq_false (by rcases hop with hop | hop <;> rw [hop] <;> decide)
  exact ⟨_, _, hdispatch, h.answered hdispatch (a := {
    reply := .atomicData m.size m.source
    step := client.memories.length
    memory := _
    data := data })
    hreply.symm ⟨rfl, rfl⟩ hlen (sendA_aBurst_of_not_burst hburst)
    (h.aOngoings_of_not_burst hlegal hburst) rfl rfl rfl rfl hprobed
    (h.sinks.push (hacquires _) rfl rfl)⟩

/-- Every A message that the client may send is answered, deferred or counted. -/
theorem Books.a (h : Books cfg s client done queued rest) (hlegal : LegalA cfg m s client) :
    ∃ s' queued', Adapter.step cfg s (.a m) = .ok s' ∧
      Books cfg s' (after cfg s s' client (.a m)) done queued' rest := by
  cases hop : m.opcode with
  | get => exact h.a_get hlegal hop
  | putFullData => exact h.a_put hlegal (Or.inl hop)
  | putPartialData => exact h.a_put hlegal (Or.inr hop)
  | arithmeticData => exact h.a_atomic hlegal (Or.inl hop)
  | logicalData => exact h.a_atomic hlegal (Or.inr hop)
  | intent => exact h.a_intent hlegal hop
  | acquireBlock => exact h.a_acquireBlock hlegal hop
  | acquirePerm => exact h.a_acquirePerm hlegal hop

end AChannel

/-- The acknowledgement of a probe whose continuation queues the answer `a`. -/
structure Settled (cfg : Config) (callback : Callback) (a : Answer) (t t' : State) : Prop where
  owed : callback.owed = some a.reply
  sink : a.sink? = callback.sink?
  memory : a.memory = t'.memory
  wellFormed : a.WellFormed cfg
  pending : t.probes.pending = callback :: t'.probes.pending
  dQueue : t'.dQueue = t.dQueue ++ a.entries cfg
  ongoingTlc : t'.ongoingTlc = callback.grants t.ongoingTlc
  drive : t'.drive = t.drive
  dSinks : t'.dSinks = t.dSinks
  aOngoings : t'.aOngoings = t.aOngoings

/-- A deferred continuation queues its answer and leaves the probes alone. -/
theorem exists_runCallback {callback : Callback} (h : callback.Deferred cfg) (n : ℕ) (t : State)
    (unregistered : Probes Callback) :
    ∃ a t', a.step = n ∧
      runCallback cfg callback { t with probes := unregistered } = .ok t' ∧
      t'.probes = unregistered ∧ t'.cOngoings = t.cOngoings ∧
      ∀ probes, t.probes.pending = callback :: probes.pending →
        Settled cfg callback a t { t' with probes := probes } := by
  cases callback with
  | accessAckData burstLen addr size source =>
    obtain rfl : burstLen = cfg.burstLen size := h
    refine ⟨{ reply := .accessAckData addr size source, step := n
              memory := filled cfg (cfg.burstLen size) addr t.memory }, _, rfl, rfl, ?_, ?_,
      fun probes hpending ↦ ?_⟩
    · rw [accessAckDataCb_eq]
      rfl
    · rw [accessAckDataCb_eq]
      rfl
    · rw [accessAckDataCb_eq]
      refine ⟨rfl, rfl, rfl, trivial, hpending, ?_, rfl, rfl, rfl, rfl⟩
      change t.dQueue ++ _ = t.dQueue ++ (burst cfg _ _ _ (filled cfg _ _ t.memory)).map plain
      rw [burst_congr (fun addr ↦ getD_filled _ _ addr t.memory)]
  | grantData burstLen addr param sink size source blockAddr =>
    obtain rfl : burstLen = cfg.burstLen size := h
    refine ⟨{ reply := .grantData param addr size source, step := n
              memory := filled cfg (cfg.burstLen size) addr t.memory
              sink := sink, blockAddr := blockAddr }, _, rfl, rfl, ?_, ?_,
      fun probes hpending ↦ ?_⟩
    · rw [grantDataCb_eq]
      rfl
    · rw [grantDataCb_eq]
      rfl
    · rw [grantDataCb_eq]
      refine ⟨rfl, rfl, rfl, trivial, hpending, ?_, rfl, rfl, rfl, rfl⟩
      change t.dQueue ++ _ =
        t.dQueue ++ withCallback _ (burst cfg _ _ _ (filled cfg _ _ t.memory))
      rw [burst_congr (fun addr ↦ getD_filled _ _ addr t.memory)]
  | accessAck | arithmeticAck | logicalAck | grant | probeBlocksRec | enableProbe =>
    exact absurd h not_false

theorem exists_acknowledge (cfg : Config) {t : State} {source : ℕ}
    (hconsistent : t.probes.Consistent none) (hsingle : t.probes.bSrcs.initList = [0])
    (hdeferred : ∀ callback ∈ t.probes.pending, callback.Deferred cfg)
    (hinit : source ∈ t.probes.bSrcs.initList) (hbusy : source ∉ t.probes.bSrcs.freeList) (n : ℕ) :
    ∃ callback a t', a.step = n ∧ acknowledge cfg source t = .ok t' ∧
      Settled cfg callback a t t' ∧ t'.cOngoings = t.cOngoings := by
  obtain ⟨callback, hregistered, hcall⟩ := hconsistent.callSource_eq_ok hinit hbusy
  have hsource : t.probes.bSrcs.initList = [source] := by
    rw [hsingle, List.mem_singleton] at hinit
    rw [hsingle, hinit]
  have hunregister := Probes.pending_unregister hsource hregistered
  have hmem : callback ∈ t.probes.pending := by
    rw [hunregister]
    exact List.mem_cons_self
  obtain ⟨a, t₁, hstep, hrun, hprobes, hc, hsettled⟩ :=
    exists_runCallback (hdeferred callback hmem) n t (t.probes.unregister source)
  have hlimbo := hconsistent.unregister hinit hbusy
  obtain ⟨probes, hrelease, -⟩ := hlimbo.releaseSource
  have hpending : t.probes.pending = callback :: probes.pending := by
    rw [hunregister, hlimbo.pending_releaseSource hsource hrelease]
  refine ⟨callback, a, { t₁ with probes := probes }, hstep, ?_, ?_, hc⟩
  · unfold acknowledge
    rw [hcall, ok_bind]
    dsimp only [runCalled]
    rw [hrun, ok_bind, hprobes, hrelease]
    rfl
  · exact hsettled probes hpending

section CChannel

variable {done queued : List Answer} {rest : List DMessage} {m : CMessage}

open Client

theorem Books.step_c (h : Books cfg s client done queued rest) (hlegal : LegalC cfg m s client) :
    Adapter.step cfg s (.c m) = cDispatch cfg m s :=
  step_c_eq_dispatch h.drive hlegal.checked
    (h.cBurst.count_eq m fun first count heq ↦ by rw [hlegal.continues first count heq]).2

/-- The client after a C message. -/
def afterC (client : Client) (cBurst : Option (CMessage × ℕ)) (completed : List Reply)
    (acknowledged : ℕ) (memory : Dict ℕ ℕ) : Client :=
  { client with
    cBurst := cBurst
    completed := completed
    acknowledged := acknowledged
    memories := client.memories ++ [memory] }

/-- The counts of the two sides for a burst of the C channel. -/
abbrev CBurstMatches (cfg : Config) (ongoings : Dict ℕ ℕ) (current : Option (CMessage × ℕ)) :
    Prop :=
  BurstMatches (fun m : CMessage ↦ isCBurst m.opcode) (cfg.burstLen ·.size) (·.source) ongoings
    current

variable {cBurst : Option (CMessage × ℕ)}

/-- A Release that is complete is answered at once. -/
theorem Books.released (h : Books cfg s client done queued rest)
    (hstep : Adapter.step cfg s (.c m) = .ok s') (hcBurst : CBurstMatches cfg s'.cOngoings cBurst)
    (hdrive : s'.drive = s.drive) (ha : s'.aOngoings = s.aOngoings)
    (hqueue : s'.dQueue = s.dQueue ++
      [plain { opcode := .releaseAck, size := m.size, source := m.source }])
    (hprobes : s'.probes = s.probes) (hsinks : s'.dSinks = s.dSinks)
    (htlc : s'.ongoingTlc = s.ongoingTlc) :
    ∃ queued', Books cfg s' (afterC client cBurst
      (client.completed ++ [.releaseAck m.size m.source]) client.acknowledged s'.memory) done
      queued' rest := by
  let a : Answer := { reply := .releaseAck m.size m.source, step := client.memories.length
                      memory := s'.memory }
  refine ⟨queued ++ [a], hdrive.trans h.drive, h.simulated.step hstep, ?_, hcBurst,
    hprobes ▸ h.deferred, ?_, ?_, hprobes ▸ h.probed.record rfl rfl, ?_⟩
  · rw [ha]
    exact h.aBurst
  · rw [hqueue]
    refine h.queue.push (a := a) ?_ ?_ ?_ rfl rfl trivial <;> rfl
  · rw [hprobes, ← List.append_assoc]
    exact h.balanced.push a
  · rw [hsinks, htlc, hprobes]
    refine h.sinks.push ?_ ?_ rfl <;> rfl

/-- An acknowledgement that is complete moves a reply from the pending ones to the queue. -/
theorem Books.settled (h : Books cfg s client done queued rest)
    (hstep : Adapter.step cfg s (.c m) = .ok s') {callback : Callback} {a : Answer}
    (hsettled : Settled cfg callback a s s') (hcBurst : CBurstMatches cfg s'.cOngoings cBurst)
    (hastep : a.step = client.memories.length) :
    Books cfg s' (afterC client cBurst client.completed (client.acknowledged + 1) s'.memory) done
      (queued ++ [a]) rest := by
  have hperm : s.probes.pending.Perm (callback :: s'.probes.pending) :=
    hsettled.pending ▸ List.Perm.refl _
  have hprobed : ProbeBooks (callback :: s'.probes.pending) client := hsettled.pending ▸ h.probed
  refine ⟨hsettled.drive.trans h.drive, h.simulated.step hstep, ?_, hcBurst,
    fun callback' hmem ↦ ?_, ?_, ?_, hprobed.acknowledge hsettled.owed rfl rfl, ?_⟩
  · rw [hsettled.aOngoings]
    exact h.aBurst
  · exact h.deferred callback' (hperm.symm.subset (List.mem_cons_of_mem callback hmem))
  · rw [hsettled.dQueue]
    refine h.queue.push ?_ ?_ ?_ hastep hsettled.memory hsettled.wellFormed <;> rfl
  · rw [← List.append_assoc]
    exact h.balanced.settle hperm hsettled.owed
  · rw [hsettled.dSinks, hsettled.ongoingTlc]
    refine h.sinks.settle ?_ ?_ hsettled.sink hperm <;> rfl

/-- A message that leaves a burst unfinished. -/
theorem Books.unfinished_c (h : Books cfg s client done queued rest)
    (hstep : Adapter.step cfg s (.c m) = .ok s') (hcBurst : CBurstMatches cfg s'.cOngoings cBurst)
    (hdrive : s'.drive = s.drive) (ha : s'.aOngoings = s.aOngoings)
    (hqueue : s'.dQueue = s.dQueue) (hprobes : s'.probes = s.probes)
    (hsinks : s'.dSinks = s.dSinks) (htlc : s'.ongoingTlc = s.ongoingTlc) :
    Books cfg s' (afterC client cBurst client.completed client.acknowledged s'.memory) done queued
      rest := by
  refine ⟨hdrive.trans h.drive, h.simulated.step hstep, ?_, hcBurst, hprobes ▸ h.deferred,
    ?_, ?_, hprobes ▸ h.probed.record rfl rfl, ?_⟩
  · rw [ha]
    exact h.aBurst
  · rw [hqueue]
    exact h.queue.record rfl rfl rfl
  · rw [hprobes]
    exact h.balanced
  · rw [hsinks, htlc, hprobes]
    refine h.sinks.record ?_ ?_ (List.Perm.refl _) <;> rfl

/-- What an acknowledgement sees does not include the permissions, the memory or the counts of the
C channel. -/
theorem Settled.frame {callback : Callback} {a : Answer} {memory : Dict ℕ ℕ}
    {blockPerm : Dict ℕ Permission} {t' : State}
    (h : Settled cfg callback a { s with memory := memory, blockPerm := blockPerm } t')
    (cOngoings : Dict ℕ ℕ) : Settled cfg callback a s { t' with cOngoings := cOngoings } :=
  ⟨h.owed, h.sink, h.memory, h.wellFormed, h.pending, h.dQueue, h.ongoingTlc, h.drive, h.dSinks,
    h.aOngoings⟩

theorem Books.c_probeAck (h : Books cfg s client done queued rest)
    (hlegal : LegalC cfg m s client) (hop : m.opcode = .probeAck) :
    ∃ s' queued', Adapter.step cfg s (.c m) = .ok s' ∧
      Books cfg s' (after cfg s s' client (.c m)) done queued' rest := by
  obtain ⟨blockPerm, hprune⟩ := exists_prune_eq cfg m s
  obtain ⟨hinit, hbusy⟩ := hlegal.outstanding (by rw [hop]; decide)
  have hdispatch : Adapter.step cfg s (.c m) =
      acknowledge cfg m.source { s with memory := s.memory, blockPerm := blockPerm } := by
    rw [h.step_c hlegal, ← hprune]
    unfold cDispatch
    rw [hop]
  obtain ⟨callback, a, s', hastep, hack, hsettled, hc⟩ := exists_acknowledge cfg
    (t := { s with memory := s.memory, blockPerm := blockPerm }) h.simulated.consistent
    h.simulated.initList_eq_singleton h.deferred hinit hbusy client.memories.length
  have hclient : after cfg s s' client (.c m) =
      afterC client client.cBurst client.completed (client.acknowledged + 1) s'.memory := by
    unfold after react sendC
    dsimp only
    rw [hop]
    rfl
  have hcBurst : CBurstMatches cfg s'.cOngoings client.cBurst := by
    rw [hc]
    exact h.cBurst
  have hstep := hdispatch.trans hack
  refine ⟨s', queued ++ [a], hstep, ?_⟩
  rw [hclient]
  exact h.settled hstep (hsettled.frame s'.cOngoings) hcBurst hastep

/-- One beat of a C burst: the last one lets `finish` run and closes the burst on both sides, the
others are counted on both sides. -/
theorem Books.cBeat_cases (h : Books cfg s client done queued rest)
    (hlegal : LegalC cfg m s client) (hburst : isCBurst m.opcode = true)
    (finish : State → Except PyError State) :
    (∃ memory blockPerm, advance m (cfg.burstLen m.size) client.cBurst = none ∧
      ∀ t, finish { s with memory := memory, blockPerm := blockPerm } = .ok t →
        t.cOngoings = s.cOngoings →
        cBeat cfg finish m s = .ok { t with cOngoings := Dict.empty }) ∨
    ∃ memory cOngoings, (advance m (cfg.burstLen m.size) client.cBurst).isNone = false ∧
      CBurstMatches cfg cOngoings (advance m (cfg.burstLen m.size) client.cBurst) ∧
      cBeat cfg finish m s = .ok { s with memory := memory, cOngoings := cOngoings } := by
  have hcount := (h.cBurst.count_eq m fun first count heq ↦ by
    rw [hlegal.continues first count heq]).1
  have hadvance := h.cBurst.advance (m := m)
    (fun first count heq ↦ by rw [hlegal.continues first count heq]; exact ⟨rfl, rfl⟩)
    (cfg.burstLen_pos m.size) hburst
  by_cases hlast : s.cOngoings.getD m.source 0 + 1 = cfg.burstLen m.size
  · left
    obtain ⟨blockPerm, hbeat⟩ := cBeat_of_last finish hlast
    let memory := s.memory.set
      (cfg.addrAligned m.address + s.cOngoings.getD m.source 0 * cfg.dataLen) m.data
    have hnone : advance m (cfg.burstLen m.size) client.cBurst = none := by
      unfold advance
      rw [← hcount]
      exact if_pos hlast
    rw [if_pos hlast, hnone] at hadvance
    refine ⟨memory, blockPerm, hnone, fun t hfinish hc ↦ ?_⟩
    rw [hbeat, hfinish, ok_bind]
    have hempty : (if s.cOngoings.getD m.source 0 ≠ 0 then s.cOngoings.erase m.source
      else s.cOngoings) = Dict.empty := hadvance
    split at hempty
    · next hne => rw [if_pos hne, hc, hempty]; rfl
    · next hne => rw [if_neg hne, ← hempty, ← hc]; rfl
  · right
    rw [if_neg hlast] at hadvance
    refine ⟨_, _, ?_, hadvance, cBeat_of_not_last finish hlast⟩
    unfold advance
    rw [← hcount]
    exact (congrArg Option.isNone (if_neg hlast)).trans rfl

theorem Books.c_probeAckData (h : Books cfg s client done queued rest)
    (hlegal : LegalC cfg m s client) (hop : m.opcode = .probeAckData) :
    ∃ s' queued', Adapter.step cfg s (.c m) = .ok s' ∧
      Books cfg s' (after cfg s s' client (.c m)) done queued' rest := by
  obtain ⟨hinit, hbusy⟩ := hlegal.outstanding (by rw [hop]; decide)
  have hdispatch : Adapter.step cfg s (.c m) = cBeat cfg (acknowledge cfg m.source) m s := by
    rw [h.step_c hlegal]
    unfold cDispatch
    rw [hop]
  have hclient (s' : State) : after cfg s s' client (.c m) =
      afterC client (advance m (cfg.burstLen m.size) client.cBurst) client.completed
        (if (advance m (cfg.burstLen m.size) client.cBurst).isNone then client.acknowledged + 1
          else client.acknowledged) s'.memory := by
    unfold after react sendC
    dsimp only
    rw [hop]
    rfl
  obtain ⟨memory, blockPerm, hnone, hbeat⟩ | ⟨memory, cOngoings, hsome, hcBurst, hbeat⟩ :=
    h.cBeat_cases hlegal (by rw [hop]; rfl) (acknowledge cfg m.source)
  · obtain ⟨callback, a, t, hastep, hack, hsettled, hc⟩ := exists_acknowledge cfg
      (t := { s with memory := memory, blockPerm := blockPerm }) h.simulated.consistent
      h.simulated.initList_eq_singleton h.deferred hinit hbusy client.memories.length
    have hstep := hdispatch.trans (hbeat t hack hc)
    refine ⟨_, queued ++ [a], hstep, ?_⟩
    rw [hclient, hnone]
    exact h.settled hstep (hsettled.frame Dict.empty) rfl hastep
  · have hstep := hdispatch.trans hbeat
    refine ⟨_, queued, hstep, ?_⟩
    rw [hclient, hsome]
    exact h.unfinished_c hstep hcBurst rfl rfl rfl rfl rfl rfl

theorem Books.c_release (h : Books cfg s client done queued rest)
    (hlegal : LegalC cfg m s client) (hop : m.opcode = .release) :
    ∃ s' queued', Adapter.step cfg s (.c m) = .ok s' ∧
      Books cfg s' (after cfg s s' client (.c m)) done queued' rest := by
  obtain ⟨blockPerm, hprune⟩ := exists_prune_eq cfg m s
  have hstep : Adapter.step cfg s (.c m) = .ok (releaseAck m { s with blockPerm := blockPerm }) := by
    rw [h.step_c hlegal, ← hprune]
    unfold cDispatch
    rw [hop]
  have hclient (s' : State) : after cfg s s' client (.c m) =
      afterC client client.cBurst (client.completed ++ [.releaseAck m.size m.source])
        client.acknowledged s'.memory := by
    unfold after react sendC
    dsimp only
    rw [hop]
    rfl
  obtain ⟨queued', hbooks⟩ := h.released hstep h.cBurst rfl rfl rfl rfl rfl rfl
  refine ⟨_, queued', hstep, ?_⟩
  rw [hclient]
  exact hbooks

theorem Books.c_releaseData (h : Books cfg s client done queued rest)
    (hlegal : LegalC cfg m s client) (hop : m.opcode = .releaseData) :
    ∃ s' queued', Adapter.step cfg s (.c m) = .ok s' ∧
      Books cfg s' (after cfg s s' client (.c m)) done queued' rest := by
  have hdispatch : Adapter.step cfg s (.c m) =
      cBeat cfg (fun s ↦ .ok (releaseAck m s)) m s := by
    rw [h.step_c hlegal]
    unfold cDispatch
    rw [hop]
  have hclient (s' : State) : after cfg s s' client (.c m) =
      afterC client (advance m (cfg.burstLen m.size) client.cBurst)
        (if (advance m (cfg.burstLen m.size) client.cBurst).isNone then
          client.completed ++ [.releaseAck m.size m.source] else client.completed)
        client.acknowledged s'.memory := by
    unfold after react sendC
    dsimp only
    rw [hop]
    rfl
  obtain ⟨memory, blockPerm, hnone, hbeat⟩ | ⟨memory, cOngoings, hsome, hcBurst, hbeat⟩ :=
    h.cBeat_cases hlegal (by rw [hop]; rfl) (fun s ↦ .ok (releaseAck m s))
  · have hstep := hdispatch.trans (hbeat _ rfl rfl)
    have hcBurst : CBurstMatches cfg Dict.empty none := rfl
    obtain ⟨queued', hbooks⟩ := h.released hstep hcBurst rfl rfl rfl rfl rfl rfl
    refine ⟨_, queued', hstep, ?_⟩
    rw [hclient, hnone]
    exact hbooks
  · have hstep := hdispatch.trans hbeat
    refine ⟨_, queued, hstep, ?_⟩
    rw [hclient, hsome]
    exact h.unfinished_c hstep hcBurst rfl rfl rfl rfl rfl rfl

/-- Every C message that the client may send is accepted and accounted for. -/
theorem Books.c (h : Books cfg s client done queued rest) (hlegal : LegalC cfg m s client) :
    ∃ s' queued', Adapter.step cfg s (.c m) = .ok s' ∧
      Books cfg s' (after cfg s s' client (.c m)) done queued' rest := by
  cases hop : m.opcode with
  | accessAck | accessAckData | hintAck | reserved =>
    have hopcode := hlegal.opcode
    rw [hop] at hopcode
    exact absurd hopcode (by decide)
  | probeAck => exact h.c_probeAck hlegal hop
  | probeAckData => exact h.c_probeAckData hlegal hop
  | release => exact h.c_release hlegal hop
  | releaseData => exact h.c_releaseData hlegal hop

end CChannel

section OtherEvents

variable {done queued : List Answer} {rest : List DMessage}

open Client

theorem Books.e (h : Books cfg s client done queued rest) {sink : ℕ}
    (hsink : sink ∈ client.granted) :
    ∃ s', Adapter.step cfg s (.e sink) = .ok s' ∧
      Books cfg s' (after cfg s s' client (.e sink)) done queued rest := by
  obtain ⟨hinit, hfree, hkey, hsinks⟩ := h.sinks.release hsink
  have hrelease : s.dSinks.release sink =
      .ok (s.dSinks.eventQueue.head?, s.dSinks.restore sink hinit hfree) :=
    FreeList.release_eq_ok_iff.mpr ⟨hinit, hfree, rfl⟩
  have hstep : Adapter.step cfg s (.e sink) = .ok { s with
      dSinks := s.dSinks.restore sink hinit hfree
      ongoingTlc := s.ongoingTlc.erase sink } := by
    unfold Adapter.step
    dsimp only
    rw [if_pos h.drive]
    unfold ePortMonitor
    rw [hrelease, ok_bind]
    exact if_pos hkey
  exact ⟨_, hstep, h.drive, h.simulated.step hstep, h.aBurst, h.cBurst, h.deferred,
    h.queue.record rfl rfl rfl, h.balanced, h.probed.record rfl rfl,
    ⟨hsinks.initList_eq, hsinks.perm, hsinks.ongoing, hsinks.acquires_eq⟩⟩

/-- An event that touches neither the bursts nor the replies. -/
theorem Books.quiet (h : Books cfg s client done queued rest) {event : Event}
    (hstep : Adapter.step cfg s event = .ok s') (hreact : react cfg s client event = client)
    (hdrive : s'.drive = s.drive) (ha : s'.aOngoings = s.aOngoings)
    (hc : s'.cOngoings = s.cOngoings) (hqueue : s'.dQueue = s.dQueue)
    (hpending : s'.probes.pending = s.probes.pending) (hsinks : s'.dSinks = s.dSinks)
    (htlc : s'.ongoingTlc = s.ongoingTlc) :
    Books cfg s' (after cfg s s' client event) done queued rest := by
  unfold after
  rw [hreact]
  refine ⟨hdrive.trans h.drive, h.simulated.step hstep, ?_, ?_, hpending ▸ h.deferred, ?_, ?_,
    hpending ▸ h.probed.record rfl rfl, ?_⟩
  · rw [ha]
    exact h.aBurst
  · rw [hc]
    exact h.cBurst
  · rw [hqueue]
    exact h.queue.record rfl rfl rfl
  · rw [hpending]
    exact h.balanced
  · rw [hsinks, htlc, hpending]
    refine h.sinks.record ?_ ?_ (List.Perm.refl _) <;> rfl

/-- The client's part of a pop that takes a message. -/
theorem after_dPop (hport : s.dPort = none) {m : DMessage} {callback : Option DCallback}
    {tail : List DEntry} (hqueue : s.dQueue = some (m, callback) :: tail) :
    after cfg s s' client .dPop =
      { receive cfg m client with memories := client.memories ++ [s'.memory] } := by
  have htaken : taken s = some m := by
    unfold taken
    rw [hport, hqueue]
  have hreact : react cfg s client .dPop = receive cfg m client := by
    unfold react
    dsimp only
    rw [htaken]
  unfold after
  rw [hreact]

/-- A pop inside a burst. -/
theorem Books.dPop_rest {m : DMessage} (h : Books cfg s client done queued (m :: rest))
    (hport : s.dPort = none) :
    ∃ s', Adapter.step cfg s .dPop = .ok s' ∧
      Books cfg s' (after cfg s s' client .dPop) done queued rest := by
  have hqueue : s.dQueue =
      plain m :: (rest.map plain ++ queued.flatMap (·.entries cfg)) := h.queue.queue_eq
  obtain ⟨blockPerm, hstep⟩ := step_dPop_eq_ok h.drive hport none hqueue
  have hbeats : client.dBeats ≠ 0 := by
    rw [h.queue.dBeats_eq]
    exact Nat.succ_ne_zero _
  refine ⟨_, hstep, ?_⟩
  rw [after_dPop hport hqueue]
  unfold receive
  dsimp only
  rw [if_neg hbeats, if_neg (fun hfirst ↦ hbeats hfirst.1)]
  refine ⟨h.drive, h.simulated.step hstep, h.aBurst, h.cBurst, h.deferred, ?_, h.balanced,
    h.probed.record rfl rfl, h.sinks.record rfl rfl (List.Perm.refl _)⟩
  have hpop : QueueBooks cfg s.dQueue.tail { client with
      dBeats := client.dBeats - 1
      popped := client.popped ++ [m]
      memories := client.memories ++ [s.memory] } done queued rest :=
    h.queue.pop_rest rfl rfl rfl
  rw [hqueue] at hpop
  exact hpop

/-- A pop of the first message of an answer. -/
theorem Books.dPop_first {a : Answer} (h : Books cfg s client done (a :: queued) [])
    (hport : s.dPort = none) :
    ∃ s' rest', Adapter.step cfg s .dPop = .ok s' ∧
      Books cfg s' (after cfg s s' client .dPop) (done ++ [a]) queued rest' := by
  have hwf : a.WellFormed cfg := (h.queue.recorded a (by simp)).2
  obtain ⟨m, ms, hmessages, hlen, hsink⟩ := a.messages_eq_cons hwf
  have hqueue : s.dQueue = some (m, a.grantOf.map fun g ↦ .updatePerm a.blockAddr g.1) ::
      (ms.map plain ++ queued.flatMap (·.entries cfg)) := by
    rw [h.queue.queue_eq, List.flatMap_cons, a.entries_eq_cons hmessages]
    rfl
  have hqueue' : s.dQueue = some (m, (a.grantOf.map fun g ↦ (a.blockAddr, g.1)).map fun g ↦
      .updatePerm g.1 g.2) :: (ms.map plain ++ queued.flatMap (·.entries cfg)) := by
    rw [hqueue, Option.map_map]
    rfl
  obtain ⟨blockPerm, hstep⟩ := step_dPop_eq_ok h.drive hport _ hqueue'
  have hbeats : client.dBeats = 0 := h.queue.dBeats_eq
  have hgranted : (if client.dBeats = 0 ∧ (m.opcode = .grant ∨ m.opcode = .grantData) then
      client.granted ++ [m.sink] else client.granted) = client.granted ++ a.sink?.toList := by
    rw [hsink]
    by_cases hgrant : m.opcode = .grant ∨ m.opcode = .grantData
    · rw [if_pos ⟨hbeats, hgrant⟩, if_pos hgrant]
      rfl
    · rw [if_neg (fun hfirst ↦ hgrant hfirst.2), if_neg hgrant]
      exact (List.append_nil _).symm
  refine ⟨_, ms, hstep, ?_⟩
  rw [after_dPop hport hqueue]
  unfold receive
  dsimp only
  rw [if_pos hbeats, hgranted, hlen]
  refine ⟨h.drive, h.simulated.step hstep, h.aBurst, h.cBurst, h.deferred, ?_, ?_,
    h.probed.record rfl rfl, h.sinks.pop rfl rfl⟩
  · have hpop : QueueBooks cfg s.dQueue.tail { client with
        dBeats := ms.length
        granted := client.granted ++ a.sink?.toList
        popped := client.popped ++ [m]
        memories := client.memories ++ [s.memory] } (done ++ [a]) queued ms :=
      h.queue.pop_first hmessages rfl rfl rfl
    rw [hqueue] at hpop
    exact hpop
  · have hanswers : done ++ [a] ++ queued = done ++ a :: queued := by simp
    rw [hanswers]
    exact h.balanced

/-- A pop while the port is busy or the queue is empty changes nothing. -/
theorem Books.dPop_idle (h : Books cfg s client done queued rest)
    (hidle : s.dPort.isSome ∨ s.dQueue = []) :
    ∃ s', Adapter.step cfg s .dPop = .ok s' ∧
      Books cfg s' (after cfg s s' client .dPop) done queued rest := by
  have hstep : Adapter.step cfg s .dPop = .ok s := by
    unfold Adapter.step
    dsimp only
    rw [if_pos h.drive]
    unfold dPortDriver
    cases hport : s.dPort with
    | some m => rfl
    | none =>
      rw [hport] at hidle
      rw [hidle.resolve_left nofun]
  have htaken : taken s = none := by
    unfold taken
    cases hport : s.dPort with
    | some m => rfl
    | none =>
      rw [hport] at hidle
      rw [hidle.resolve_left nofun]
  have hreact : react cfg s client .dPop = client := by
    unfold react
    dsimp only
    rw [htaken]
  exact ⟨s, hstep, h.quiet hstep hreact rfl rfl rfl rfl rfl rfl rfl⟩

theorem Books.dPop (h : Books cfg s client done queued rest) :
    ∃ s' done' queued' rest', Adapter.step cfg s .dPop = .ok s' ∧
      Books cfg s' (after cfg s s' client .dPop) done' queued' rest' ∧
      done' ++ queued' = done ++ queued := by
  cases hport : s.dPort with
  | some m =>
    obtain ⟨s', hstep, hbooks⟩ := h.dPop_idle (Or.inl (by rw [hport]; rfl))
    exact ⟨s', done, queued, rest, hstep, hbooks, rfl⟩
  | none =>
    cases rest with
    | cons m rest =>
      obtain ⟨s', hstep, hbooks⟩ := h.dPop_rest hport
      exact ⟨s', done, queued, rest, hstep, hbooks, rfl⟩
    | nil =>
      cases queued with
      | nil =>
        obtain ⟨s', hstep, hbooks⟩ := h.dPop_idle (Or.inr h.queue.queue_eq)
        exact ⟨s', done, [], [], hstep, hbooks, rfl⟩
      | cons a queued =>
        obtain ⟨s', rest', hstep, hbooks⟩ := h.dPop_first hport
        exact ⟨s', done ++ [a], queued, rest', hstep, hbooks, by simp⟩

/-- The remaining events concern the ports only. -/
theorem Books.ports (h : Books cfg s client done queued rest) (event : Event)
    (hevent : event ∈ [Event.dFire, .bPop, .bFire]) :
    ∃ s', Adapter.step cfg s event = .ok s' ∧
      Books cfg s' (after cfg s s' client event) done queued rest := by
  simp only [List.mem_cons, List.not_mem_nil, or_false] at hevent
  obtain rfl | rfl | rfl := hevent
  · have hstep : Adapter.step cfg s .dFire = .ok { s with dPort := none } := rfl
    exact ⟨_, hstep, h.quiet hstep rfl rfl rfl rfl rfl rfl rfl rfl⟩
  · refine ⟨_, rfl, ?_⟩
    rw [if_pos h.drive]
    have hstep : Adapter.step cfg s .bPop = .ok (bPortDriver s) := by
      unfold Adapter.step
      dsimp only
      rw [if_pos h.drive]
    unfold bPortDriver at hstep ⊢
    split at hstep
    · exact h.quiet hstep rfl rfl rfl rfl rfl rfl rfl rfl
    · exact h.quiet hstep rfl rfl rfl rfl rfl rfl rfl rfl
    · exact h.quiet hstep rfl rfl rfl rfl rfl rfl rfl rfl
  · have hstep : Adapter.step cfg s .bFire = .ok { s with bPort := none } := rfl
    exact ⟨_, hstep, h.quiet hstep rfl rfl rfl rfl rfl rfl rfl rfl⟩

end OtherEvents

section Runs

variable {done queued : List Answer} {rest : List DMessage}

open Client

theorem books_start (cfg : Config) (memory : Dict ℕ ℕ) (blocks : List ℕ) (draws : Draws) :
    Books cfg (start memory blocks draws) {} [] [] [] where
  drive := rfl
  simulated := simulated_start memory blocks draws
  aBurst := rfl
  cBurst := rfl
  deferred := nofun
  queue := ⟨nofun, List.Pairwise.nil, rfl, rfl, rfl⟩
  balanced := List.Perm.refl _
  probed := ⟨rfl, le_refl _⟩
  sinks := ⟨rfl, List.Perm.refl _, nofun, rfl⟩

/-- The step lemma: an event that the client may cause does not raise, and the books are kept. -/
theorem Books.step (h : Books cfg s client done queued rest) {event : Event}
    (hlegal : Legal cfg s client event) :
    ∃ s' done' queued' rest', Adapter.step cfg s event = .ok s' ∧
      Books cfg s' (after cfg s s' client event) done' queued' rest' := by
  cases event with
  | a m =>
    obtain ⟨s', queued', hstep, hbooks⟩ := h.a hlegal
    exact ⟨s', done, queued', rest, hstep, hbooks⟩
  | c m =>
    obtain ⟨s', queued', hstep, hbooks⟩ := h.c hlegal
    exact ⟨s', done, queued', rest, hstep, hbooks⟩
  | e sink =>
    obtain ⟨s', hstep, hbooks⟩ := h.e hlegal
    exact ⟨s', done, queued, rest, hstep, hbooks⟩
  | dPop =>
    obtain ⟨s', done', queued', rest', hstep, hbooks, -⟩ := h.dPop
    exact ⟨s', done', queued', rest', hstep, hbooks⟩
  | dFire =>
    obtain ⟨s', hstep, hbooks⟩ := h.ports .dFire (by decide)
    exact ⟨s', done, queued, rest, hstep, hbooks⟩
  | bPop =>
    obtain ⟨s', hstep, hbooks⟩ := h.ports .bPop (by decide)
    exact ⟨s', done, queued, rest, hstep, hbooks⟩
  | bFire =>
    obtain ⟨s', hstep, hbooks⟩ := h.ports .bFire (by decide)
    exact ⟨s', done, queued, rest, hstep, hbooks⟩
  | hostPoll | retriever | probeBlock | stop => exact hlegal.elim

/-- The run lemma. -/
theorem Books.run (h : Books cfg s client done queued rest) {events : List Event}
    (hlegal : LegalRun cfg (s, client) events) :
    ∃ s' client' done' queued' rest', Client.run cfg (s, client) events = .ok (s', client') ∧
      Books cfg s' client' done' queued' rest' := by
  induction events generalizing s client done queued rest with
  | nil => exact ⟨s, client, done, queued, rest, rfl, h⟩
  | cons event events ih =>
    obtain ⟨hevent, hevents⟩ := hlegal
    obtain ⟨s₁, done₁, queued₁, rest₁, hstep, hbooks⟩ := h.step hevent
    have hclient : Client.step cfg (s, client) event =
        .ok (s₁, after cfg s s₁ client event) := by
      unfold Client.step
      rw [hstep]
      rfl
    rw [hclient] at hevents
    obtain ⟨s', client', done', queued', rest', hrun, hbooks'⟩ := ih hbooks hevents
    refine ⟨s', client', done', queued', rest', ?_, hbooks'⟩
    unfold Client.run
    rw [List.foldlM_cons, hclient]
    exact hrun

/-- What the client observes: `answers` are the replies that have entered `d_queue`, in that
order. They and the replies whose probes the client has not acknowledged are the replies to the
completed messages, one for each; such replies are left exactly while a probe is outstanding. What
has left the queue and what is in it are the messages of the answers, in order
and each burst in one piece. -/
structure Conserved (cfg : Config) (s : State) (client : Client) (answers : List Answer) :
    Prop where
  recorded : ∀ a ∈ answers, client.memories[a.step]? = some a.memory
  ordered : answers.Pairwise (·.step < ·.step)
  replies : client.completed.Perm
    (answers.map (·.reply) ++ client.probed.drop client.acknowledged)
  acknowledged_le : client.acknowledged ≤ client.probed.length
  outstanding : s.probes.bSrcs.freeList = [] ↔ client.acknowledged < client.probed.length
  messages : client.popped ++ s.dQueue.filterMap (Option.map Prod.fst) =
    answers.flatMap (·.messages cfg)

/-- A probe is outstanding while a reply waits for its acknowledgement. -/
theorem Books.outstanding (h : Books cfg s client done queued rest) :
    s.probes.bSrcs.freeList = [] ↔ client.acknowledged < client.probed.length := by
  have howed : s.probes.pending = [] ↔ client.probed.drop client.acknowledged = [] := by
    rw [← h.probed.owed, List.filterMap_eq_nil_iff]
    refine ⟨fun hnil ↦ by simp [hnil], fun hnone ↦ ?_⟩
    refine List.eq_nil_iff_forall_not_mem.mpr fun callback hmem ↦ ?_
    exact (h.deferred callback hmem).owed_ne_none (hnone callback hmem)
  rw [← h.simulated.consistent.pending_ne_nil_iff h.simulated.initList_eq_singleton, Ne, howed,
    List.drop_eq_nil_iff, not_le]

theorem Books.conserved (h : Books cfg s client done queued rest) :
    Conserved cfg s client (done ++ queued) where
  recorded a ha := (h.queue.recorded a ha).1
  ordered := h.queue.ordered
  replies := h.probed.owed ▸ h.balanced
  acknowledged_le := h.probed.acknowledged_le
  outstanding := h.outstanding
  messages := by
    have hrest : (rest.map plain).filterMap (Option.map Prod.fst) = rest := by
      rw [List.filterMap_map]
      exact List.filterMap_some
    have hqueued : (queued.flatMap (·.entries cfg)).filterMap (Option.map Prod.fst) =
        queued.flatMap (·.messages cfg) := by
      rw [List.filterMap_flatMap]
      refine List.flatMap_congr fun a ha ↦ ?_
      exact a.filterMap_entries (h.queue.recorded a (List.mem_append_right _ ha)).2
    rw [h.queue.queue_eq, List.filterMap_append, hrest, hqueued, ← List.append_assoc,
      h.queue.received, List.flatMap_append]

/-- No reply is lost, split or duplicated: a legal run does not raise, and its replies are
conserved. -/
theorem run_conserved (cfg : Config) (memory : Dict ℕ ℕ) (blocks : List ℕ) (draws : Draws)
    (events : List Event) (hlegal : LegalRun cfg (start memory blocks draws, {}) events) :
    ∃ s client answers, Client.run cfg (start memory blocks draws, {}) events = .ok (s, client) ∧
      Conserved cfg s client answers := by
  obtain ⟨s, client, done, queued, rest, hrun, hbooks⟩ :=
    (books_start cfg memory blocks draws).run hlegal
  exact ⟨s, client, done ++ queued, hrun, hbooks.conserved⟩

/-- A burst is acquired. A `Get` waits for its probe, which crosses the client's release, and a
hint and the first pop come in between. -/
theorem run_conserved_get_after_acquire : ∃ s client answers,
    Client.run {} (start (Dict.ofList [(0, 7), (8, 9)]) [0] fun _ ↦ 0, {})
        [.a ⟨.acquireBlock, NtoT, 4, 0, 0, 0xff, 0⟩, .a ⟨.intent, 0, 3, 2, 0, 0xff, 0⟩, .dPop,
          .dFire, .a ⟨.get, 0, 3, 1, 8, 0xff, 0⟩, .e 0, .c ⟨.releaseData, TtoN, 4, 0, 0, 5, 0⟩,
          .dPop, .dFire, .c ⟨.releaseData, TtoN, 4, 0, 0, 6, 0⟩, .bPop, .bFire, .dPop,
          .c ⟨.probeAck, NtoN, 3, 0, 8, 0, 0⟩, .dFire, .dPop, .dFire] =
      .ok (s, client) ∧ Conserved {} s client answers :=
  run_conserved {} (Dict.ofList [(0, 7), (8, 9)]) [0] (fun _ ↦ 0) _ (by decide)

end Runs

end ProcessorFuzz.TileLink.Adapter
