import ProcessorFuzz.TileLink.Client
import ProcessorFuzz.TileLink.ProbeLine

/-!
# The flush at the end of a test

When the test is over, the adapter probes every block that is not `TIP`, one after the other, until
all data are back in its memory. The client holds the blocks that it may write, and sends what it
gives up on the C channel: a Release of its own accord, or the answer to a probe. The messages of
this channel arrive in the order in which they were sent.
-/

namespace ProcessorFuzz.TileLink.Adapter

open Library

/-- A transfer on the C channel: the beats that the adapter has not taken yet, and the probe that it
answers. -/
structure Sending where
  header : CMessage
  beats : List ℕ
  probe : Option BMessage

namespace Sending

variable (cfg : Config)

/-- The client gives up its write permission. -/
def GivesUp (m : Sending) : Prop := m.header.param ∈ [TtoB, TtoN]

instance (m : Sending) : Decidable m.GivesUp :=
  inferInstanceAs (Decidable (m.header.param ∈ [TtoB, TtoN]))

def block (m : Sending) : ℕ := cfg.blockAddr m.header.address

/-- The message of a beat. -/
def message (m : Sending) (data : ℕ) : CMessage := { m.header with data := data }

/-- The number of beats of the whole transfer. -/
def length (m : Sending) : ℕ :=
  if isCBurst m.header.opcode then cfg.burstLen m.header.size else 1

/-- The words of the beats from number `start` on. -/
def beatWords (address : ℕ) : ℕ → List ℕ → List (ℕ × ℕ)
  | _, [] => []
  | start, data :: beats =>
    (cfg.addrAligned address + start * cfg.dataLen, data) :: beatWords address (start + 1) beats

/-- The words that the transfer still brings, from beat number `start` on. -/
def words (m : Sending) (start : ℕ) : List (ℕ × ℕ) :=
  if isCBurst m.header.opcode then beatWords cfg m.header.address start m.beats else []

end Sending

/-- The client during the flush. -/
structure Owner where
  /-- The blocks that it may write. -/
  held : List ℕ
  /-- The probes that it has not answered. -/
  probed : List BMessage
  /-- The transfers on their way to the adapter. -/
  sent : List Sending
  /-- The beats of the first of them that the adapter has taken. -/
  taken : ℕ
  /-- All probes that have reached it. -/
  received : List BMessage
  /-- All probes whose answer the adapter has taken. -/
  answered : List BMessage
  /-- All words that it has returned. -/
  returned : List (ℕ × ℕ)

/-- The blocks whose write permission is given up by a transfer. -/
def givenUp (cfg : Config) (sent : List Sending) : List ℕ :=
  (sent.filter fun m ↦ m.GivesUp).map (·.block cfg)

/-- The words of transfers on their way, when `taken` beats of the first one have been taken. -/
def wordsOnWay (cfg : Config) (taken : ℕ) : List Sending → List (ℕ × ℕ)
  | [] => []
  | m :: rest => m.words cfg taken ++ rest.flatMap (·.words cfg 0)

namespace Owner

variable (cfg : Config)

def send (m : Sending) (o : Owner) : Owner :=
  { o with
    held := if m.GivesUp then o.held.filter (· ≠ m.block cfg) else o.held
    sent := o.sent ++ [m]
    returned := o.returned ++ m.words cfg 0 }

/-- The next message of the C channel. -/
def next (o : Owner) : Option CMessage :=
  o.sent.head?.bind fun m ↦ m.beats.head?.map m.message

/-- The adapter has taken the next message. -/
def take (o : Owner) : Owner :=
  match o.sent with
  | [] => o
  | m :: rest =>
    if m.beats.tail = [] then
      { o with sent := rest, taken := 0, answered := o.answered ++ m.probe.toList }
    else { o with sent := { m with beats := m.beats.tail } :: rest, taken := o.taken + 1 }

/-- A probe reaches the client. -/
def receive (probe : Option BMessage) (o : Owner) : Owner :=
  { o with probed := o.probed ++ probe.toList, received := o.received ++ probe.toList }

end Owner

inductive FlushEvent
  | adapter (event : Event)
  | bFire
  | release (header : CMessage) (beats : List ℕ)
  | answer (header : CMessage) (beats : List ℕ)
  | take

namespace FlushEvent

/-- One step of the adapter and its client. An adapter that has stopped takes no messages. -/
def step (cfg : Config) (f : State × Owner) : FlushEvent → Except PyError (State × Owner)
  | .adapter event => do
    let s ← Adapter.step cfg f.1 event
    return (s, f.2)
  | .bFire => do
    let s ← Adapter.step cfg f.1 .bFire
    return (s, f.2.receive f.1.bPort)
  | .release header beats => .ok (f.1, f.2.send cfg ⟨header, beats, none⟩)
  | .answer header beats =>
    .ok (f.1, { f.2.send cfg ⟨header, beats, f.2.probed.head?⟩ with probed := f.2.probed.tail })
  | .take =>
    if f.1.drive then
      match f.2.next with
      | none => .ok f
      | some m => do
        let s ← Adapter.step cfg f.1 (.c m)
        return (s, f.2.take)
    else .ok f

def run (cfg : Config) (f : State × Owner) (events : List FlushEvent) :
    Except PyError (State × Owner) :=
  events.foldlM (step cfg) f

/-- A transfer that the client may send. Data and write permission are those of blocks that it
holds. -/
structure Sendable (cfg : Config) (m : Sending) (held : List ℕ) : Prop where
  checked : cAssertions m.header true = .ok ()
  length_eq : m.beats.length = m.length cfg
  holds : m.GivesUp ∨ isCBurst m.header.opcode → m.block cfg ∈ held

instance (m : Sending) (held : List ℕ) : Decidable (Sendable cfg m held) :=
  decidable_of_iff (cAssertions m.header true = .ok () ∧ m.beats.length = m.length cfg ∧
      (m.GivesUp ∨ isCBurst m.header.opcode → m.block cfg ∈ held))
    ⟨fun h ↦ ⟨h.1, h.2.1, h.2.2⟩, fun h ↦ ⟨h.checked, h.length_eq, h.holds⟩⟩

/-- The answer to a probe is for its block, and gives up the write permission unless the probe
leaves it with the client. -/
structure Answers (cfg : Config) (m : Sending) (probe : BMessage) (held : List ℕ) : Prop where
  sendable : Sendable cfg m held
  opcode : m.header.opcode ∈ [COpcode.probeAck, .probeAckData]
  source : m.header.source = probe.source
  block : m.block cfg = cfg.blockAddr probe.address
  givesUp : probe.param ≠ toT → m.block cfg ∈ held → m.GivesUp

instance (m : Sending) (probe : BMessage) (held : List ℕ) :
    Decidable (Answers cfg m probe held) :=
  decidable_of_iff (Sendable cfg m held ∧
      m.header.opcode ∈ [COpcode.probeAck, .probeAckData] ∧ m.header.source = probe.source ∧
      m.block cfg = cfg.blockAddr probe.address ∧
      (probe.param ≠ toT → m.block cfg ∈ held → m.GivesUp))
    ⟨fun h ↦ ⟨h.1, h.2.1, h.2.2.1, h.2.2.2.1, h.2.2.2.2⟩,
      fun h ↦ ⟨h.sendable, h.opcode, h.source, h.block, h.givesUp⟩⟩

/-- What may happen while no request is made: the host asks for blocks that the adapter knows, and
the client sends no A or E messages. -/
def Legal (cfg : Config) (f : State × Owner) : FlushEvent → Prop
  | .adapter (.a _) | .adapter (.c _) | .adapter (.e _) | .adapter .bFire => False
  | .adapter (.probeBlock probeAddr) => cfg.blockAddr probeAddr ∈ f.1.blockPerm.keys
  | .adapter .dPop | .adapter .dFire | .adapter .bPop | .adapter .hostPoll | .adapter .retriever
  | .adapter .stop | .bFire | .take => True
  | .release header beats => header.opcode ∈ [COpcode.release, .releaseData] ∧
    Sendable cfg ⟨header, beats, none⟩ f.2.held
  | .answer header beats => ∃ probe ∈ f.2.probed.head?,
    Answers cfg ⟨header, beats, f.2.probed.head?⟩ probe f.2.held

instance (f : State × Owner) : DecidablePred (Legal cfg f)
  | .adapter (.a _) | .adapter (.c _) | .adapter (.e _) | .adapter .bFire => isFalse id
  | .adapter (.probeBlock probeAddr) =>
    inferInstanceAs (Decidable (cfg.blockAddr probeAddr ∈ f.1.blockPerm.keys))
  | .adapter .dPop | .adapter .dFire | .adapter .bPop | .adapter .hostPoll | .adapter .retriever
  | .adapter .stop | .bFire | .take => isTrue trivial
  | .release _ _ => inferInstanceAs (Decidable (_ ∧ Sendable cfg _ _))
  | .answer _ _ =>
    inferInstanceAs (Decidable (∃ probe ∈ f.2.probed.head?, Answers cfg _ probe _))

/-- Every event of the run is legal when it happens. -/
def LegalRun (cfg : Config) (f : State × Owner) : List FlushEvent → Prop
  | [] => True
  | event :: events => Legal cfg f event ∧
    match step cfg f event with
    | .ok f' => LegalRun cfg f' events
    | .error _ => True

instance decidableLegalRun (cfg : Config) (f : State × Owner) :
    (events : List FlushEvent) → Decidable (LegalRun cfg f events)
  | [] => isTrue trivial
  | event :: events =>
    match h : step cfg f event with
    | .error _ => decidable_of_iff (Legal cfg f event) (by
        conv_rhs => unfold LegalRun
        rw [h]
        exact (and_iff_left trivial).symm)
    | .ok f' =>
      have := decidableLegalRun cfg f' events
      decidable_of_iff (Legal cfg f event ∧ LegalRun cfg f' events) (by
        conv_rhs => unfold LegalRun
        rw [h])

end FlushEvent

/-- The blocks that are not `TIP`, in the order of the dictionary. -/
def openBlocks (s : State) : List ℕ := s.blockPerm.keys.filter fun addr ↦ s.perm addr ≠ .tip

/-- The probes of the flush. -/
def flushProbes (cfg : Config) : List ℕ → List (Probe Callback)
  | [] => []
  | addr :: rest => flushProbe cfg addr rest :: flushProbes cfg rest

def isFlush (p : Probe Callback) : Bool :=
  match p.callback with
  | .probeBlocksRec _ => true
  | _ => false

/-- The probe was requested by the host. -/
def isHost (p : Probe Callback) : Bool := p.callback = .enableProbe

/-- The memory with the words written over it, the last one of each address last. -/
def overlay (words : List (ℕ × ℕ)) (memory : ℕ → ℕ) : ℕ → ℕ :=
  words.foldl (fun memory word ↦ Function.update memory word.1 word.2) memory

/-- The word of an address, `nop_data` if it is missing. -/
def State.word (s : State) (addr : ℕ) : ℕ := s.memory.getD addr nopData

/-- The transfers on the way fit together: each permission is given up once, an answer to a probe is
the last that is heard of its block's permission unless the probe leaves it, and data belong to a
block that is held, or given up by this transfer or a later one. -/
def InOrder (cfg : Config) (held : List ℕ) : List Sending → Prop
  | [] => True
  | m :: rest =>
    (m.GivesUp → m.block cfg ∉ held ∧ m.block cfg ∉ givenUp cfg rest) ∧
    (∀ probe ∈ m.probe, probe.param ≠ toT → m.block cfg ∉ held ∧ m.block cfg ∉ givenUp cfg rest) ∧
    (isCBurst m.header.opcode → m.block cfg ∈ held ∨ m.block cfg ∈ givenUp cfg (m :: rest)) ∧
    InOrder cfg held rest

/-- A transfer of one of the four kinds that passes the checks; the answer to a probe is for its
source and its block. -/
structure WellMade (cfg : Config) (m : Sending) : Prop where
  checked : cAssertions m.header true = .ok ()
  opcode : m.header.opcode ∈
    if m.probe.isSome then [COpcode.probeAck, .probeAckData] else [COpcode.release, .releaseData]
  probe : ∀ probe ∈ m.probe, m.header.source = probe.source ∧
    m.block cfg = cfg.blockAddr probe.address

/-- The state of the adapter and that of its client agree: the probe that is out is somewhere
between them, and the blocks that are not `TIP` are those that the client holds or gives up in
transfers on their way. -/
structure Agree (cfg : Config) (s : State) (o : Owner) (line : List (Probe Callback)) : Prop where
  probeLine : ProbeLine s.probes line
  out : s.probes.bQueue ++ s.bPort.toList ++ o.probed ++ o.sent.filterMap Sending.probe =
    (line.head?.map (·.message 0)).toList
  received : o.received = o.answered ++ o.probed ++ o.sent.filterMap Sending.probe
  wellMade : ∀ m ∈ o.sent, WellMade cfg m
  inOrder : InOrder cfg o.held o.sent
  whole : ∀ m ∈ o.sent.tail, m.beats.length = m.length cfg
  partly : ∀ m ∈ o.sent.head?, o.taken < m.length cfg ∧ m.beats.length + o.taken = m.length cfg
  ongoings : ∀ m ∈ o.sent.head?,
    s.cOngoings = if o.taken = 0 then Dict.empty else Dict.empty.set m.header.source o.taken
  idle : o.sent = [] → o.taken = 0 ∧ s.cOngoings = Dict.empty
  perm_iff : ∀ blockAddr, s.perm blockAddr ≠ .tip ↔
    blockAddr ∈ o.held ∨ blockAddr ∈ givenUp cfg o.sent
  /-- The host's probes come one at a time, and for blocks that the adapter knows. -/
  host : s.probe → cfg.blockAddr s.probeAddr ∈ s.blockPerm.keys
  hostOnce : line.countP isHost + (if s.probeEn then 1 else 0) ≤ 1
  acknowledged : ∀ addr, addr ∉ s.ongoingTlc.values

/-- The continuation of an Acquire. -/
def Callback.isGrant : Callback → Bool
  | .grant _ _ _ _ _ | .grantData _ _ _ _ _ _ _ => true
  | _ => false

/-- The continuation of a put or of an atomic operation. -/
def Callback.isWrite : Callback → Bool
  | .accessAck _ _ _ _ | .arithmeticAck _ _ _ _ _ _ _ | .logicalAck _ _ _ _ _ _ _ => true
  | _ => false

/-- The state when `data_retriever` sees `retrieve`: whatever the memory, the permissions and the
line of probes are, no Acquire waits or is unacknowledged. The client has not been watched yet. -/
structure FlushStart (cfg : Config) (s : State) (o : Owner) (line : List (Probe Callback)) :
    Prop extends Agree cfg s o line where
  drive : s.drive = true
  retrieve : s.retrieve = true
  retrieved : s.retrieved = false
  blocks : ∀ blockAddr ∈ s.blockPerm.keys, cfg.blockAddr blockAddr = blockAddr
  noFlush : ∀ p ∈ line, isFlush p = false
  noGrant : ∀ p ∈ line, p.callback.isGrant = false
  noGrantQueued : ∀ m blockAddr param, some (m, some (.updatePerm blockAddr param)) ∉ s.dQueue
  answered : o.answered = []
  returned : o.returned = wordsOnWay cfg o.taken o.sent

/-- No put and no atomic operation waits for a probe or for its turn in `d_queue`. -/
def Unwritten (s : State) : Prop :=
  (∀ callback ∈ s.probes.pending, callback.isWrite = false) ∧
    ∀ m burst, some (m, some (.updateMem burst)) ∉ s.dQueue

/-- What a flush that began in `s` with the probes `line` has done: the probes that have been
answered and those still in line are those of `line`, of the host, and one for each block that was
not `TIP`, in the order of the dictionary. `drive` is `False` once all of these have been answered.
Then all blocks are `TIP` and the memory is that of `s` with the returned words. -/
structure Flushed (cfg : Config) (s : State) (line : List (Probe Callback)) (s' : State)
    (o' : Owner) (served line' : List (Probe Callback)) : Prop where
  probeLine : ProbeLine s'.probes line'
  /-- The first probe in line is on its way to the client, waits there or is being answered. -/
  out : s'.probes.bQueue ++ s'.bPort.toList ++ o'.probed ++ o'.sent.filterMap Sending.probe =
    (line'.head?.map (·.message 0)).toList
  answered : o'.answered = served.map (·.message 0)
  received : ∃ out, out <+: line'.take 1 ∧ o'.received = (served ++ out).map (·.message 0)
  origin : ∀ p ∈ served ++ line', p ∈ line ∨ isFlush p = true ∨ isHost p = true
  nodup : (openBlocks s).Nodup
  probes : (served ++ line').filter isFlush <+: flushProbes cfg (openBlocks s)
  drive : s'.drive = false ↔ served.filter isFlush = flushProbes cfg (openBlocks s)
  busy : s'.drive = true → line' ≠ []
  ends : line.length + 2 * (openBlocks s).length ≤ served.length → s'.drive = false
  perm : s'.drive = false → ∀ blockAddr, s'.perm blockAddr = .tip
  memory : s'.drive = false → s'.word = overlay o'.returned s.word

end ProcessorFuzz.TileLink.Adapter
