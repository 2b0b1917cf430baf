import ProcessorFuzz.TileLink.AdapterSteps

/-!
# The client behind the port

A TileLink client as the adapter's environment: which messages it may send, what it has received,
which replies it is owed, and which of them a probe holds back. The client counts the beats of its
own bursts and of the bursts that it receives, and the probes that it has acknowledged, as the
protocol prescribes.
-/

namespace ProcessorFuzz.TileLink.Adapter

open Library

/-- A reply that a completed message calls for. -/
inductive Reply
  | accessAckData (addr size source : ℕ)
  | accessAck (size source : ℕ)
  | atomicData (size source : ℕ)
  | hintAck (size source : ℕ)
  | grantData (param addr size source : ℕ)
  | grant (param size source : ℕ)
  | releaseAck (size source : ℕ)
  deriving DecidableEq, Repr

namespace Reply

/-- The reply to an A message. -/
def ofA (cfg : Config) (m : AMessage) : Reply :=
  match m.opcode with
  | .get => .accessAckData (cfg.addrAligned m.address) m.size m.source
  | .putFullData | .putPartialData => .accessAck m.size m.source
  | .arithmeticData | .logicalData => .atomicData m.size m.source
  | .intent => .hintAck m.size m.source
  | .acquireBlock =>
    .grantData (grantParam m.param) (cfg.addrAligned m.address) m.size m.source
  | .acquirePerm => .grant (grantParam m.param) m.size m.source

end Reply

/-- A reply as it was queued. `sink` and `blockAddr` matter for Grants, `data` for the answer to an
atomic operation; `memory` is the memory after step number `step`, which queued the reply. -/
structure Answer where
  reply : Reply
  step : ℕ
  memory : Dict ℕ ℕ
  sink : ℕ := 0
  blockAddr : ℕ := 0
  data : ℕ := 0

namespace Answer

/-- The messages of the reply: for data, as many as the burst has beats, in increasing address
order. -/
def messages (cfg : Config) (a : Answer) : List DMessage :=
  match a.reply with
  | .accessAckData addr size source =>
    burst cfg { opcode := .accessAckData, size := size, source := source } (cfg.burstLen size) addr
      a.memory
  | .accessAck size source => [{ opcode := .accessAck, size := size, source := source }]
  | .atomicData size source =>
    [{ opcode := .accessAckData, size := size, source := source, data := a.data }]
  | .hintAck size source => [{ opcode := .hintAck, size := size, source := source }]
  | .grantData param addr size source =>
    burst cfg { opcode := .grantData, param := param, size := size, source := source
                sink := a.sink } (cfg.burstLen size) addr a.memory
  | .grant param size source =>
    [{ opcode := .grant, param := param, size := size, source := source, sink := a.sink }]
  | .releaseAck size source => [{ opcode := .releaseAck, size := size, source := source }]

/-- The permission and the sink of a Grant. -/
def grantOf (a : Answer) : Option (ℕ × ℕ) :=
  match a.reply with
  | .grantData param _ _ _ | .grant param _ _ => some (param, a.sink)
  | _ => none

/-- The sink that the reply occupies. -/
def sink? (a : Answer) : Option ℕ := a.grantOf.map Prod.snd

/-- The queue entries of the reply: the first message of a Grant updates the permission. -/
def entries (cfg : Config) (a : Answer) : List DEntry :=
  match a.grantOf with
  | some (param, _) => withCallback (.updatePerm a.blockAddr param) (a.messages cfg)
  | none => (a.messages cfg).map plain

end Answer

/-- The number of messages of the burst to which a D message belongs. -/
def dBurstLen (cfg : Config) (m : DMessage) : ℕ :=
  match m.opcode with
  | .accessAckData | .grantData => cfg.burstLen m.size
  | .accessAck | .hintAck | .grant | .releaseAck => 1

/-- What the client knows. -/
structure Client where
  /-- The first message of an unfinished burst on A and the number of messages sent. -/
  aBurst : Option (AMessage × ℕ) := none
  cBurst : Option (CMessage × ℕ) := none
  /-- The messages still to come of a burst that it is receiving. -/
  dBeats : ℕ := 0
  /-- Acquires without a GrantAck. -/
  acquires : ℕ := 0
  /-- The sinks of the Grants that it has received and not acknowledged. -/
  granted : List ℕ := []
  /-- The replies to all completed messages, in the order of their completion. -/
  completed : List Reply := []
  /-- The replies that a probe holds back or has held back, in the order of the requests. -/
  probed : List Reply := []
  /-- The probes acknowledged, each by a complete message. -/
  acknowledged : ℕ := 0
  popped : List DMessage := []
  /-- The memory after each step. -/
  memories : List (Dict ℕ ℕ) := []

namespace Client

variable (cfg : Config)

def hasBurst : AOpcode → Bool
  | .putFullData | .putPartialData => true
  | _ => false

def isAcquire : AOpcode → Bool
  | .acquireBlock | .acquirePerm => true
  | _ => false

/-- The opcodes whose requests the adapter serves on `TIP` blocks only. -/
def needsTip : AOpcode → Bool
  | .putFullData | .putPartialData | .arithmeticData | .logicalData | .acquirePerm => true
  | .get | .intent | .acquireBlock => false

def isAtomic : AOpcode → Bool
  | .arithmeticData | .logicalData => true
  | _ => false

/-- The protocol level that an A message needs. -/
def level : AOpcode → Protocol
  | .get | .putFullData | .putPartialData => tlUL
  | .arithmeticData | .logicalData | .intent => tlUH
  | .acquireBlock | .acquirePerm => tlC

/-- The messages of a burst repeat the first one, apart from the mask and the data. -/
def ContinuesA (first m : AMessage) : Prop :=
  m = { first with mask := m.mask, data := m.data }

def ContinuesC (first m : CMessage) : Prop := m = { first with data := m.data }

instance (first m : AMessage) : Decidable (ContinuesA first m) :=
  inferInstanceAs (Decidable (m = { first with mask := m.mask, data := m.data }))

instance (first m : CMessage) : Decidable (ContinuesC first m) :=
  inferInstanceAs (Decidable (m = { first with data := m.data }))

theorem ContinuesA.same {first m : AMessage} (h : ContinuesA first m) :
    m.opcode = first.opcode ∧ m.source = first.source ∧ m.size = first.size := by
  have heq : m = { first with mask := m.mask, data := m.data } := h
  rw [heq]
  exact ⟨rfl, rfl, rfl⟩

theorem ContinuesC.same {first m : CMessage} (h : ContinuesC first m) :
    m.opcode = first.opcode ∧ m.source = first.source ∧ m.size = first.size := by
  have heq : m = { first with data := m.data } := h
  rw [heq]
  exact ⟨rfl, rfl, rfl⟩

/-- A well-formed A message: it passes the checks, and an atomic operation selects some bytes of
one message. -/
structure WellFormedA (m : AMessage) : Prop where
  level_le : level m.opcode ≤ cfg.protocol ∧ cfg.protocol ≤ tlC
  checked : aAssertions m true = .ok ()
  atomic : isAtomic m.opcode → m.mask ≠ 0 ∧ cfg.burstLen m.size = 1

section WellFormed

variable {cfg : Config} {m : AMessage}

theorem WellFormedA.protocol_eq (h : WellFormedA cfg m) (hlevel : level m.opcode = tlC) :
    cfg.protocol = tlC :=
  le_antisymm h.level_le.2 (hlevel ▸ h.level_le.1)

theorem WellFormedA.protocol_ge (h : WellFormedA cfg m) (hlevel : level m.opcode = tlUH) :
    tlUH ≤ cfg.protocol :=
  hlevel ▸ h.level_le.1

end WellFormed

/-- The A messages that the client may send now. -/
structure LegalA (m : AMessage) (s : State) (client : Client) : Prop where
  wellFormed : WellFormedA cfg m
  continues : ∀ first count, client.aBurst = some (first, count) → ContinuesA first m
  tip : needsTip m.opcode → s.perm (cfg.blockAddr m.address) = .tip
  acquires : isAcquire m.opcode → client.acquires < dSinkList.length

/-- The C messages that the client may send now. A probe is acknowledged while it is
outstanding. -/
structure LegalC (m : CMessage) (s : State) (client : Client) : Prop where
  protocol_eq : cfg.protocol = tlC
  checked : cAssertions m true = .ok ()
  opcode : m.opcode ∈ [COpcode.probeAck, .probeAckData, .release, .releaseData]
  continues : ∀ first count, client.cBurst = some (first, count) → ContinuesC first m
  outstanding : m.opcode ∈ [COpcode.probeAck, .probeAckData] →
    m.source ∈ s.probes.bSrcs.initList ∧ m.source ∉ s.probes.bSrcs.freeList

instance (m : AMessage) : Decidable (WellFormedA cfg m) :=
  decidable_of_iff ((level m.opcode ≤ cfg.protocol ∧ cfg.protocol ≤ tlC) ∧
      aAssertions m true = .ok () ∧ (isAtomic m.opcode → m.mask ≠ 0 ∧ cfg.burstLen m.size = 1))
    ⟨fun h ↦ ⟨h.1, h.2.1, h.2.2⟩, fun h ↦ ⟨h.level_le, h.checked, h.atomic⟩⟩

instance decidableContinues {μ : Type} (current : Option (μ × ℕ)) (p : μ → Prop)
    [DecidablePred p] : Decidable (∀ first count, current = some (first, count) → p first) :=
  decidable_of_iff (∀ entry ∈ current, p entry.1)
    ⟨fun h first count heq ↦ h (first, count) heq, fun h entry heq ↦ h entry.1 entry.2 heq⟩

instance (m : AMessage) (s : State) (client : Client) : Decidable (LegalA cfg m s client) :=
  decidable_of_iff (WellFormedA cfg m ∧
      (∀ first count, client.aBurst = some (first, count) → ContinuesA first m) ∧
      (needsTip m.opcode → s.perm (cfg.blockAddr m.address) = .tip) ∧
      (isAcquire m.opcode → client.acquires < dSinkList.length))
    ⟨fun h ↦ ⟨h.1, h.2.1, h.2.2.1, h.2.2.2⟩,
      fun h ↦ ⟨h.wellFormed, h.continues, h.tip, h.acquires⟩⟩

instance (m : CMessage) (s : State) (client : Client) : Decidable (LegalC cfg m s client) :=
  decidable_of_iff (cfg.protocol = tlC ∧ cAssertions m true = .ok () ∧
      m.opcode ∈ [COpcode.probeAck, .probeAckData, .release, .releaseData] ∧
      (∀ first count, client.cBurst = some (first, count) → ContinuesC first m) ∧
      (m.opcode ∈ [COpcode.probeAck, .probeAckData] →
        m.source ∈ s.probes.bSrcs.initList ∧ m.source ∉ s.probes.bSrcs.freeList))
    ⟨fun h ↦ ⟨h.1, h.2.1, h.2.2.1, h.2.2.2.1, h.2.2.2.2⟩,
      fun h ↦ ⟨h.protocol_eq, h.checked, h.opcode, h.continues, h.outstanding⟩⟩

/-- The events of the channels A to E. -/
def Legal (s : State) (client : Client) : Event → Prop
  | .a m => LegalA cfg m s client
  | .c m => LegalC cfg m s client
  | .e sink => sink ∈ client.granted
  | .dPop | .dFire | .bPop | .bFire => True
  | .hostPoll | .retriever | .probeBlock _ | .stop => False

instance (s : State) (client : Client) : DecidablePred (Legal cfg s client)
  | .a m => inferInstanceAs (Decidable (LegalA cfg m s client))
  | .c m => inferInstanceAs (Decidable (LegalC cfg m s client))
  | .e sink => inferInstanceAs (Decidable (sink ∈ client.granted))
  | .dPop | .dFire | .bPop | .bFire => isTrue trivial
  | .hostPoll | .retriever | .probeBlock _ | .stop => isFalse id

/-- The count of an unfinished burst after one more message. -/
def advance {μ : Type} (m : μ) (burstLen : ℕ) (current : Option (μ × ℕ)) : Option (μ × ℕ) :=
  let count := (current.map Prod.snd).getD 0
  if count + 1 = burstLen then none else some (m, count + 1)

def sendA (m : AMessage) (client : Client) : Client :=
  let aBurst := if hasBurst m.opcode then advance m (cfg.burstLen m.size) client.aBurst else none
  { client with
    aBurst := aBurst
    acquires := if isAcquire m.opcode then client.acquires + 1 else client.acquires
    completed := if aBurst.isNone then client.completed ++ [.ofA cfg m] else client.completed }

/-- The request is a read of a block that is not `TIP`, which the adapter probes first. -/
def isProbed (m : AMessage) (s : State) : Bool :=
  match m.opcode with
  | .get | .acquireBlock => s.perm (cfg.blockAddr m.address) ≠ .tip
  | _ => false

/-- The reply to a probed request waits for the acknowledgement. -/
def hold (m : AMessage) (s : State) (client : Client) : Client :=
  { client with
    probed := if isProbed cfg m s then client.probed ++ [.ofA cfg m] else client.probed }

def sendC (m : CMessage) (client : Client) : Client :=
  match m.opcode with
  | .release => { client with completed := client.completed ++ [.releaseAck m.size m.source] }
  | .probeAck => { client with acknowledged := client.acknowledged + 1 }
  | .probeAckData =>
    let cBurst := advance m (cfg.burstLen m.size) client.cBurst
    { client with
      cBurst := cBurst
      acknowledged := if cBurst.isNone then client.acknowledged + 1 else client.acknowledged }
  | .releaseData =>
    let cBurst := advance m (cfg.burstLen m.size) client.cBurst
    { client with
      cBurst := cBurst
      completed :=
        if cBurst.isNone then client.completed ++ [.releaseAck m.size m.source]
        else client.completed }
  | _ => client

def sendE (sink : ℕ) (client : Client) : Client :=
  { client with granted := client.granted.erase sink, acquires := client.acquires - 1 }

/-- A D message arrives; the first message of a Grant tells its sink. -/
def receive (m : DMessage) (client : Client) : Client :=
  let first := client.dBeats = 0
  { client with
    dBeats := if first then dBurstLen cfg m - 1 else client.dBeats - 1
    granted :=
      if first ∧ (m.opcode = .grant ∨ m.opcode = .grantData) then client.granted ++ [m.sink]
      else client.granted
    popped := client.popped ++ [m] }

/-- The message that the next pop takes from `d_queue`. -/
def taken (s : State) : Option DMessage :=
  match s.dPort, s.dQueue with
  | none, some (m, _) :: _ => some m
  | _, _ => none

/-- The client's part of a step. -/
def react (s : State) (client : Client) : Event → Client
  | .a m => hold cfg m s (sendA cfg m client)
  | .c m => sendC cfg m client
  | .e sink => sendE sink client
  | .dPop =>
    match taken s with
    | some m => receive cfg m client
    | none => client
  | _ => client

/-- The client after a step that took the adapter from `s` to `s'`. -/
def after (s s' : State) (client : Client) (event : Event) : Client :=
  { react cfg s client event with memories := client.memories ++ [s'.memory] }

/-- One step of the adapter and its client. -/
def step (s : State × Client) (event : Event) : Except PyError (State × Client) := do
  let s' ← Adapter.step cfg s.1 event
  return (s', after cfg s.1 s' s.2 event)

/-- Every event of the run is one that the client may cause when it happens. -/
def LegalRun (s : State × Client) : List Event → Prop
  | [] => True
  | event :: events => Legal cfg s.1 s.2 event ∧
    match step cfg s event with
    | .ok s' => LegalRun s' events
    | .error _ => True

instance decidableLegalRun (s : State × Client) :
    (events : List Event) → Decidable (LegalRun cfg s events)
  | [] => isTrue trivial
  | event :: events =>
    match h : step cfg s event with
    | .error _ => decidable_of_iff (Legal cfg s.1 s.2 event) (by
        conv_rhs => unfold LegalRun
        rw [h]
        exact (and_iff_left trivial).symm)
    | .ok s' =>
      have := decidableLegalRun s' events
      decidable_of_iff (Legal cfg s.1 s.2 event ∧ LegalRun cfg s' events) (by
        conv_rhs => unfold LegalRun
        rw [h])

def run (s : State × Client) (events : List Event) : Except PyError (State × Client) :=
  events.foldlM (step cfg) s

end Client

/-- The adapter's count of an unfinished burst is the client's. -/
def BurstMatches {μ : Type} (isBurst : μ → Bool) (burstLen source : μ → ℕ) (ongoings : Dict ℕ ℕ) :
    Option (μ × ℕ) → Prop
  | none => ongoings = Dict.empty
  | some (first, count) => isBurst first ∧ 0 < count ∧ count < burstLen first ∧
    ongoings = Dict.empty.set (source first) count

def isCBurst : COpcode → Bool
  | .probeAckData | .releaseData => true
  | _ => false

section Bursts

variable {μ : Type} {isBurst : μ → Bool} {burstLen source : μ → ℕ} {ongoings : Dict ℕ ℕ}
  {current : Option (μ × ℕ)}

/-- A message that continues the current burst is counted as the client counts it, and it passes
the check against interleaving. -/
theorem BurstMatches.count_eq (h : BurstMatches isBurst burstLen source ongoings current) (m : μ)
    (hsource : ∀ first count, current = some (first, count) → source m = source first) :
    ongoings.getD (source m) 0 = (current.map Prod.snd).getD 0 ∧
      (ongoings.keys.isEmpty || decide (source m ∈ ongoings.keys)) = true := by
  cases current with
  | none =>
    have hempty : ongoings = Dict.empty := h
    subst hempty
    exact ⟨rfl, rfl⟩
  | some entry =>
    obtain ⟨first, count⟩ := entry
    obtain ⟨-, -, -, rfl⟩ := h
    rw [hsource first count rfl]
    refine ⟨by simp [Dict.getD], ?_⟩
    rw [Bool.or_eq_true, decide_eq_true_eq, Dict.mem_keys_set]
    exact Or.inr (Or.inl rfl)

/-- Counting one more message keeps the two counts equal. -/
theorem BurstMatches.advance (h : BurstMatches isBurst burstLen source ongoings current) {m : μ}
    (hsource : ∀ first count, current = some (first, count) →
      source m = source first ∧ burstLen m = burstLen first)
    (hpos : 0 < burstLen m) (hburst : isBurst m) :
    BurstMatches isBurst burstLen source
      (if ongoings.getD (source m) 0 + 1 = burstLen m then
        if ongoings.getD (source m) 0 ≠ 0 then ongoings.erase (source m) else ongoings
      else ongoings.set (source m) (ongoings.getD (source m) 0 + 1))
      (Client.advance m (burstLen m) current) := by
  rw [(h.count_eq m fun first count heq ↦ (hsource first count heq).1).1]
  unfold Client.advance
  cases current with
  | none =>
    have hempty : ongoings = Dict.empty := h
    subst hempty
    by_cases hlast : 0 + 1 = burstLen m
    · simp [hlast, BurstMatches]
    · have hlt : 1 < burstLen m := by omega
      simpa [hlast, BurstMatches, hburst] using hlt
  | some entry =>
    obtain ⟨first, count⟩ := entry
    obtain ⟨-, hcount, hlt, rfl⟩ := h
    obtain ⟨hsame, hlen⟩ := hsource first count rfl
    rw [← hsame]
    by_cases hlast : count + 1 = burstLen m
    · have hne : count ≠ 0 := hcount.ne'
      have herase : (Dict.empty.set (source m) count).erase (source m) = Dict.empty := by
        apply Dict.ext
        simp [Dict.erase, Dict.set, Dict.empty, Dict.put]
      simp [hlast, hne, BurstMatches, herase]
    · have hlt' : count + 1 < burstLen m := by omega
      have hset : (Dict.empty.set (source m) count).set (source m) (count + 1) =
          Dict.empty.set (source m) (count + 1) := by
        apply Dict.ext
        simp [Dict.set, Dict.empty, Dict.put]
      simp [hlast, BurstMatches, hburst, hlt', hset]

end Bursts

end ProcessorFuzz.TileLink.Adapter
