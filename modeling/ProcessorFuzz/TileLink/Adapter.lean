import Mathlib.Data.Nat.Digits.Defs
import ProcessorFuzz.Library.Text
import ProcessorFuzz.TileLink.ProbeSources

/-!
# The TileLink slave adapter

`tlAdapter` answers the TileLink client of the design under test. Its coroutines share one state
and each handles at most one message between two clock edges, so a run is a sequence of steps, each
of which is one iteration of one coroutine. A step that raises ends the run.
-/

namespace ProcessorFuzz.TileLink.Adapter

open Library

/-- The constructor's arguments and the port widths in bytes. The constructor raises unless the
data widths of the A, C and D channels agree, so one number stands for the three. -/
structure Config where
  protocol : Protocol := tlC
  blockSize : ℕ := 64
  debug : Bool := false
  dataLen : ℕ := 8
  bDataLen : ℕ := 8

namespace Config

variable (cfg : Config)

/-- `addr & self.block_mask`. -/
def blockAddr (addr : ℕ) : ℕ := andNot addr (cfg.blockSize - 1)

/-- `addr & self.addr_mask_d`; the mask of the C channel is the same. -/
def addrAligned (addr : ℕ) : ℕ := andNot addr (2 ^ Nat.log2 cfg.dataLen - 1)

/-- `int(max(pow(2, size) / self.d_datalen, 1))`. -/
def burstLen (size : ℕ) : ℕ := max (2 ^ size / cfg.dataLen) 1

/-- The size and the mask of the probes that the adapter makes on its own. -/
def probeSize : ℕ := Nat.log2 cfg.blockSize

def probeMask : ℕ := 2 ^ cfg.bDataLen - 1

theorem burstLen_pos (size : ℕ) : 0 < cfg.burstLen size := lt_max_of_lt_right Nat.one_pos

end Config

/-- The mask of bits for a mask of bytes: every binary digit becomes two hexadecimal digits. -/
def bitMask (mask : ℕ) : ℕ := Nat.ofDigits 256 ((Nat.digits 2 mask).map (0xff * ·))

def nopData : ℕ := 0

/-- Callbacks that wait in `d_queue`. A `burst_data` dictionary is referred to by its index. -/
inductive DCallback
  | updatePerm (blockAddr param : ℕ)
  | updateMem (burst : ℕ)
  deriving DecidableEq, Repr

/-- Callbacks that wait for the acknowledgement of a probe, with their arguments. -/
inductive Callback
  | accessAck (burstLen burst size source : ℕ)
  | accessAckData (burstLen addrAligned size source : ℕ)
  | arithmeticAck (operand1 burstLen addrAligned bitMask offset size source : ℕ)
  | logicalAck (operand1 burstLen addrAligned bitMask offset size source : ℕ)
  | grant (param sink size source blockAddr : ℕ)
  | grantData (burstLen addrAligned param sink size source blockAddr : ℕ)
  | probeBlocksRec (probeAddrs : List ℕ)
  | enableProbe
  deriving DecidableEq, Repr

/-- An entry of `d_queue`; `none` is a bubble. -/
abbrev DEntry := Option (DMessage × Option DCallback)

/-- The adapter's attributes, the objects that `drive_input` shares between the coroutines and the
local variables that live longer than one iteration. -/
structure State where
  drive : Bool
  retrieve : Bool
  /-- `data_retriever` has returned. -/
  retrieved : Bool
  memory : Dict ℕ ℕ
  blockPerm : Dict ℕ Permission
  dSinks : FreeList Empty
  probes : Probes Callback
  dQueue : List DEntry
  ongoingTlc : Dict ℕ ℕ
  /-- `ongoings` of `a_port_monitor`. -/
  aOngoings : Dict ℕ ℕ
  /-- `burst_data` of `a_port_monitor`, unbound at first. -/
  burstData : Option ℕ
  /-- The objects that `burst_data` has referred to. -/
  bursts : List (Dict ℕ (ℕ × ℕ))
  /-- `ongoings` of `c_port_monitor`. -/
  cOngoings : Dict ℕ ℕ
  probe : Bool
  probeEn : Bool
  probeAddr : ℕ
  /-- The message that the D port presents. -/
  dPort : Option DMessage
  /-- The message that the B port presents. -/
  bPort : Option BMessage

namespace State

def perm (s : State) (blockAddr : ℕ) : Permission := s.blockPerm.getD blockAddr .tip

def setPerm (s : State) (blockAddr : ℕ) (perm : Permission) : State :=
  { s with blockPerm := s.blockPerm.set blockAddr perm }

def write (s : State) (addr data : ℕ) : State := { s with memory := s.memory.set addr data }

/-- `d_queue.push` and `d_queue.push_msgs`. -/
def push (s : State) (entries : List DEntry) : State := { s with dQueue := s.dQueue ++ entries }

def retrieveBlock (p : Probe Callback) (s : State) : Except PyError State := do
  let probes ← s.probes.retrieveBlock p
  return { s with probes := probes }

end State

/-- A message without a callback. -/
def plain (m : DMessage) : DEntry := some (m, none)

/-- The entries of a burst whose first message carries a callback. -/
def withCallback (callback : DCallback) : List DMessage → List DEntry
  | [] => []
  | m :: ms => some (m, some callback) :: ms.map plain

/-- The iteration `i` of `get_d_messages`: a missing word is created. -/
def fillWord (memory : Dict ℕ ℕ) (addr : ℕ) : Dict ℕ ℕ :=
  if addr ∈ memory.keys then memory else memory.set addr nopData

/-- `get_d_messages`, with the memory that it leaves. -/
def getDMessages (cfg : Config) (header : DMessage) (burstLen addrAligned : ℕ)
    (memory : Dict ℕ ℕ) : List DMessage × Dict ℕ ℕ :=
  (List.range burstLen).foldl
    (fun acc i ↦
      let getAddr := addrAligned + i * cfg.dataLen
      let memory := fillWord acc.2 getAddr
      (acc.1 ++ [{ header with data := memory.getD getAddr nopData }], memory))
    ([], memory)

def updatePerm (blockAddr param : ℕ) (s : State) : State :=
  if param = toT then s.setPerm blockAddr .trunk else s

/-- `updateMem` unpacks the keys of a dictionary, which are numbers. -/
def updateMem (burst : ℕ) (s : State) : Except PyError State :=
  match s.bursts[burst]? with
  | none => .error .keyError
  | some burstData => if burstData.keys.isEmpty then .ok s else .error .typeError

def runDCallback : DCallback → State → Except PyError State
  | .updatePerm blockAddr param, s => .ok (updatePerm blockAddr param s)
  | .updateMem burst, s => updateMem burst s

def accessAckCb (burstLen burst size source : ℕ) (s : State) : State :=
  let remainClks := burstLen - s.aOngoings.getD source burstLen
  s.push (List.replicate remainClks none ++
    [some ({ opcode := .accessAck, size := size, source := source }, some (.updateMem burst))])

def accessAckDataCb (cfg : Config) (burstLen addrAligned size source : ℕ) (s : State) : State :=
  let header : DMessage := { opcode := .accessAckData, size := size, source := source }
  let (dMsgs, memory) := getDMessages cfg header burstLen addrAligned s.memory
  { s with memory := memory }.push (dMsgs.map plain)

/-- `ArithmeticAck_cb` and `LogicalAck_cb`, which read the names `param` and `mask` that nothing
binds, after the word of the memory. -/
def atomicAckCb (addrAligned : ℕ) (s : State) : Except PyError State :=
  if addrAligned ∈ s.memory.keys then .error (.nameError "param") else .error .keyError

/-- `Grant_cb`, which raises on its last line: the `Grant` message lacks the key `sink`. -/
def grantCb : Except PyError State := .error .keyError

def grantDataCb (cfg : Config) (burstLen addrAligned param sink size source blockAddr : ℕ)
    (s : State) : State :=
  let header : DMessage :=
    { opcode := .grantData, param := param, size := size, source := source, sink := sink }
  let (dMsgs, memory) := getDMessages cfg header burstLen addrAligned s.memory
  { s with memory := memory, ongoingTlc := s.ongoingTlc.set sink blockAddr }.push
    (withCallback (.updatePerm blockAddr param) dMsgs)

def probeBlocksRec (cfg : Config) (probeAddrs : List ℕ) (s : State) : Except PyError State :=
  match probeAddrs with
  | [] => .ok { s with drive := false }
  | addr :: probeAddrs =>
    s.retrieveBlock
      { callback := .probeBlocksRec probeAddrs, param := toN, size := cfg.probeSize, addr := addr
        mask := cfg.probeMask }

def probeBlocks (cfg : Config) (s : State) : Except PyError State :=
  probeBlocksRec cfg (s.blockPerm.keys.filter fun addr ↦ s.perm addr ≠ .tip) s

def runCallback (cfg : Config) : Callback → State → Except PyError State
  | .accessAck burstLen burst size source, s => .ok (accessAckCb burstLen burst size source s)
  | .accessAckData burstLen addrAligned size source, s =>
    .ok (accessAckDataCb cfg burstLen addrAligned size source s)
  | .arithmeticAck _ _ addrAligned _ _ _ _, s => atomicAckCb addrAligned s
  | .logicalAck _ _ addrAligned _ _ _ _, s => atomicAckCb addrAligned s
  | .grant _ _ _ _ _, _ => grantCb
  | .grantData burstLen addrAligned param sink size source blockAddr, s =>
    .ok (grantDataCb cfg burstLen addrAligned param sink size source blockAddr s)
  | .probeBlocksRec probeAddrs, s => probeBlocksRec cfg probeAddrs s
  | .enableProbe, s => .ok { s with probeEn := true }

/-- The number of bits that the set bits of a byte mask select. -/
def maskBits (mask : ℕ) : ℕ := 8 * (Nat.digits 2 mask).sum

/-- An operand read as a two's complement number of `sizeOp` bits. -/
def signedOperand (sizeOp operand : ℕ) : ℤ :=
  if operand.testBit (sizeOp - 1) then -((-(operand : ℤ)) % 2 ^ sizeOp) else operand

/-- `_arithmetic_op`; an unknown parameter gives no result. -/
def arithmeticOp (param operand1 operand2 mask : ℕ) : Option ℤ :=
  let sizeOp := maskBits mask
  let signedOp1 := signedOperand sizeOp operand1
  let signedOp2 := signedOperand sizeOp operand2
  let uoperand1 := operand1 &&& (0xffffffff <<< 32 ||| 0xffffffff)
  let uoperand2 := operand2 &&& (0xffffffff <<< 32 ||| 0xffffffff)
  if param = MIN then some (min signedOp1 signedOp2)
  else if param = MAX then some (max signedOp1 signedOp2)
  else if param = MINU then some (min uoperand1 uoperand2 : ℕ)
  else if param = MAXU then some (max uoperand1 uoperand2 : ℕ)
  else if param = ADD then some (signedOp1 + signedOp2)
  else none

/-- `_logical_op`. -/
def logicalOp (param operand1 operand2 : ℕ) : Option ℤ :=
  if param = XOR then some (operand1 ^^^ operand2 : ℕ)
  else if param = OR then some (operand1 ||| operand2 : ℕ)
  else if param = AND then some (operand1 &&& operand2 : ℕ)
  else if param = SWAP then some operand1
  else none

/-- `(result << offset) & self.a_ports.data_mask`. -/
def placeResult (cfg : Config) (result : ℤ) (offset : ℕ) : ℕ :=
  (result * 2 ^ offset % 2 ^ (8 * cfg.dataLen)).toNat

/-- `int(math.log((mask & -mask), 2) * 8)`, which raises for an empty mask. -/
def maskOffset (mask : ℕ) : Except PyError ℕ :=
  if mask = 0 then .error .valueError else .ok (Nat.log2 (lowestSetBit mask) * 8)

variable (cfg : Config)

def aGet (m : AMessage) (s : State) : Except PyError State :=
  let addrAligned := cfg.addrAligned m.address
  let burstLen := cfg.burstLen m.size
  if s.perm (cfg.blockAddr m.address) ≠ .tip then
    s.retrieveBlock
      { callback := .accessAckData burstLen addrAligned m.size m.source, param := toT
        size := m.size, addr := m.address, mask := m.mask }
  else .ok (accessAckDataCb cfg burstLen addrAligned m.size m.source s)

/-- The assignment of one beat, `count` beats after the first. -/
def writeMasked (m : AMessage) (count : ℕ) (s : State) : State :=
  let getAddr := cfg.addrAligned m.address + count * cfg.dataLen
  let maskedData := andNot (s.memory.getD getAddr 0) (bitMask m.mask)
  s.write getAddr (maskedData ||| (m.data &&& bitMask m.mask))

/-- `burst_data = {}`. -/
def openBurst (s : State) : State :=
  { s with bursts := s.bursts ++ [Dict.empty], burstData := some s.bursts.length }

/-- The probe of a put; only a message whose `count` is zero makes it. -/
def putProbe (m : AMessage) (s : State) : Except PyError State :=
  if s.aOngoings.getD m.source 0 = 0 then
    (openBurst s).retrieveBlock
      { callback := .accessAck (cfg.burstLen m.size) s.bursts.length m.size m.source
        param := toN, size := m.size, addr := m.address, mask := m.mask }
  else .ok s

/-- `burst_data[get_addr] = (bit_mask, data)`. -/
def storeBeat (getAddr : ℕ) (m : AMessage) (s : State) : Except PyError State :=
  match s.burstData with
  | none => .error (.unboundLocalError "burst_data")
  | some burst =>
    .ok { s with bursts := s.bursts.modify burst (·.set getAddr (bitMask m.mask, m.data)) }

/-- The branch of `PUT_FULL_DATA` and `PUT_PARTIAL_DATA` on a block that is not `TIP`. -/
def putDeferred (m : AMessage) (s : State) : Except PyError State := do
  let count := s.aOngoings.getD m.source 0
  let s ← putProbe cfg m s
  storeBeat (cfg.addrAligned m.address + count * cfg.dataLen) m s

/-- The branch of `PUT_FULL_DATA` and `PUT_PARTIAL_DATA` on a `TIP` block. -/
def putDirect (m : AMessage) (s : State) : State :=
  let count := s.aOngoings.getD m.source 0
  let s := writeMasked cfg m count s
  if count + 1 = cfg.burstLen m.size then
    let s := s.push [plain { opcode := .accessAck, size := m.size, source := m.source }]
    if count ≠ 0 then { s with aOngoings := s.aOngoings.erase m.source } else s
  else { s with aOngoings := s.aOngoings.set m.source (count + 1) }

def aPut (m : AMessage) (s : State) : Except PyError State :=
  if s.perm (cfg.blockAddr m.address) ≠ .tip then putDeferred cfg m s
  else .ok (putDirect cfg m s)

/-- The part that `ARITHMETIC_DATA` and `LOGICAL_DATA` share. `op` is the operation on the two
operands and `callback` the continuation on a block that is not `TIP`. -/
def aAtomic (label : String) (op : ℕ → ℕ → Option ℤ) (callback : ℕ → ℕ → Callback)
    (m : AMessage) (s : State) : Except PyError State := do
  let addrAligned := cfg.addrAligned m.address
  let count := s.aOngoings.getD m.source 0
  assert (cfg.burstLen m.size == 1) (label ++ " can not span over multiple block")
  let offset ← maskOffset m.mask
  let getAddr := addrAligned + count * cfg.dataLen
  let operand1 := (m.data &&& bitMask m.mask) >>> offset
  if s.perm (cfg.blockAddr m.address) ≠ .tip then
    s.retrieveBlock
      { callback := callback operand1 offset, param := toN, size := m.size, addr := m.address
        mask := m.mask }
  else
    let memory := fillWord s.memory getAddr
    let word := memory.getD getAddr nopData
    let operand2 := (word &&& bitMask m.mask) >>> offset
    match op operand1 operand2 with
    | none => .error .typeError
    | some result =>
      let result := placeResult cfg result offset
      let s := { s with memory := memory }.write getAddr
        (andNot word (bitMask m.mask) ||| (result &&& bitMask m.mask))
      return s.push [plain { opcode := .accessAckData, size := m.size, source := m.source
                             data := operand2 }]

def aArithmetic (m : AMessage) : State → Except PyError State :=
  aAtomic cfg "ARITHMETIC_DATA"
    (fun operand1 operand2 ↦ arithmeticOp m.param operand1 operand2 m.mask)
    (fun operand1 offset ↦ .arithmeticAck operand1 (cfg.burstLen m.size)
      (cfg.addrAligned m.address) (bitMask m.mask) offset m.size m.source) m

def aLogical (m : AMessage) : State → Except PyError State :=
  aAtomic cfg "LOGICAL_DATA" (fun operand1 operand2 ↦ logicalOp m.param operand1 operand2)
    (fun operand1 offset ↦ .logicalAck operand1 (cfg.burstLen m.size)
      (cfg.addrAligned m.address) (bitMask m.mask) offset m.size m.source) m

/-- `d_sinks.get()`. -/
def getSink (s : State) : Except PyError (ℕ × State) := do
  let (sink, dSinks, draws) ← s.dSinks.get s.probes.draws
  return (sink, { s with dSinks := dSinks, probes := { s.probes with draws := draws } })

/-- The permission that an Acquire is granted. -/
def grantParam (param : ℕ) : ℕ := if param = NtoB then toB else toT

/-- The permission to which an Acquire probes the block. -/
def probeParam (param : ℕ) : ℕ := if param = NtoB then toB else toN

def aAcquireBlock (m : AMessage) (s : State) : Except PyError State := do
  let addrAligned := cfg.addrAligned m.address
  let blockAddr := cfg.blockAddr m.address
  let burstLen := cfg.burstLen m.size
  let (dSink, s) ← getSink s
  let dParam := grantParam m.param
  if s.perm blockAddr ≠ .tip then
    s.retrieveBlock
      { callback := .grantData burstLen addrAligned dParam dSink m.size m.source blockAddr
        param := probeParam m.param, size := m.size, addr := m.address, mask := m.mask }
  else return grantDataCb cfg burstLen addrAligned dParam dSink m.size m.source blockAddr s

/-- On a block that is not `TIP` the handler calls `retrievePerm`, which the class lacks. -/
def aAcquirePerm (m : AMessage) (s : State) : Except PyError State := do
  let blockAddr := cfg.blockAddr m.address
  let (dSink, s) ← getSink s
  let dParam := grantParam m.param
  if s.perm blockAddr ≠ .tip then .error (.attributeError "retrievePerm")
  else
    let s := { s with ongoingTlc := s.ongoingTlc.set dSink blockAddr }
    return s.push [some ({ opcode := .grant, param := dParam, size := m.size, source := m.source
                           sink := dSink }, some (.updatePerm blockAddr dParam))]

/-- The message handler of each opcode. -/
def aDispatch (m : AMessage) (s : State) : Except PyError State :=
  match m.opcode with
  | .get => aGet cfg m s
  | .putFullData | .putPartialData => aPut cfg m s
  | .arithmeticData => if tlUH ≤ cfg.protocol then aArithmetic cfg m s else .ok s
  | .logicalData => if tlUH ≤ cfg.protocol then aLogical cfg m s else .ok s
  | .intent =>
    .ok (if tlUH ≤ cfg.protocol then
      s.push [plain { opcode := .hintAck, size := m.size, source := m.source }] else s)
  | .acquireBlock => if cfg.protocol = tlC then aAcquireBlock cfg m s else .ok s
  | .acquirePerm => if cfg.protocol = tlC then aAcquirePerm cfg m s else .ok s

/-- One message of `a_port_monitor`. -/
def aPortMonitor (m : AMessage) (s : State) : Except PyError State := do
  aAssertions m cfg.debug
  assert (s.aOngoings.keys.isEmpty || decide (m.source ∈ s.aOngoings.keys))
    "Messages in A channel can not be interleaved"
  let blockAddr := cfg.blockAddr m.address
  aDispatch cfg m (s.setPerm blockAddr (s.perm blockAddr))

/-- The call that `b_callback.call` makes when a callback is registered. -/
def runCalled : Option Callback → State → Except PyError State
  | none, s => .ok s
  | some callback, s => runCallback cfg callback s

/-- `b_callback.call(source)` and `b_srcs.release(source)`. -/
def acknowledge (source : ℕ) (s : State) : Except PyError State := do
  let (callback, probes) ← s.probes.callSource source
  let s ← runCalled cfg callback { s with probes := probes }
  let probes ← s.probes.releaseSource source
  return { s with probes := probes }

/-- The client gives up its write permission. -/
def prune (m : CMessage) (s : State) : State :=
  if m.param ∈ [TtoB, TtoN] then s.setPerm (cfg.blockAddr m.address) .tip else s

def releaseAck (m : CMessage) (s : State) : State :=
  s.push [plain { opcode := .releaseAck, size := m.size, source := m.source }]

/-- One beat of `PROBE_ACK_DATA` or `RELEASE_DATA`; `finish` runs with the last one. -/
def cBeat (finish : State → Except PyError State) (m : CMessage) (s : State) :
    Except PyError State := do
  let count := s.cOngoings.getD m.source 0
  let s := s.write (cfg.addrAligned m.address + count * cfg.dataLen) m.data
  if count + 1 = cfg.burstLen m.size then
    let s ← finish (prune cfg m s)
    return if count ≠ 0 then { s with cOngoings := s.cOngoings.erase m.source } else s
  else return { s with cOngoings := s.cOngoings.set m.source (count + 1) }

/-- The message handler of each opcode. -/
def cDispatch (m : CMessage) (s : State) : Except PyError State :=
  match m.opcode with
  | .accessAck | .accessAckData | .hintAck => .error .notImplementedError
  | .reserved => .ok s
  | .probeAck => acknowledge cfg m.source (prune cfg m s)
  | .probeAckData => cBeat cfg (acknowledge cfg m.source) m s
  | .release => .ok (releaseAck m (prune cfg m s))
  | .releaseData => cBeat cfg (fun s ↦ .ok (releaseAck m s)) m s

/-- One message of `c_port_monitor`. -/
def cPortMonitor (m : CMessage) (s : State) : Except PyError State := do
  cAssertions m cfg.debug
  assert (s.cOngoings.keys.isEmpty || decide (m.source ∈ s.cOngoings.keys))
    "Messages in C channel can not be interleaved"
  cDispatch cfg m s

/-- One message of `e_port_monitor`. -/
def ePortMonitor (sink : ℕ) (s : State) : Except PyError State := do
  let (_, dSinks) ← s.dSinks.release sink
  if sink ∈ s.ongoingTlc.keys then
    return { s with dSinks := dSinks, ongoingTlc := s.ongoingTlc.erase sink }
  else .error .keyError

/-- `d_port_driver` takes the next entry of `d_queue` once the port is idle. -/
def dPortDriver (s : State) : Except PyError State :=
  match s.dPort, s.dQueue with
  | some _, _ | none, [] => .ok s
  | none, none :: rest => .ok { s with dQueue := rest }
  | none, some (msg, none) :: rest => .ok { s with dQueue := rest, dPort := some msg }
  | none, some (msg, some callback) :: rest => do
    let s ← runDCallback callback { s with dQueue := rest }
    return { s with dPort := some msg }

/-- `b_port_driver` takes the next message of `b_queue` once the port is idle. -/
def bPortDriver (s : State) : State :=
  match s.bPort, s.probes.bQueue with
  | some _, _ | none, [] => s
  | none, msg :: rest => { s with probes := { s.probes with bQueue := rest }, bPort := some msg }

/-- `data_retriever` flushes once, when `retrieve` is set. -/
def dataRetriever (s : State) : Except PyError State :=
  if s.retrieve && !s.retrieved then probeBlocks cfg { s with retrieved := true } else .ok s

/-- One poll of `host_interface`. -/
def hostInterface (s : State) : Except PyError State :=
  if (s.probe && s.probeEn) && decide (s.probeAddr ∉ s.ongoingTlc.values) then do
    let blockAddr := cfg.blockAddr s.probeAddr
    assert (decide (blockAddr ∈ s.blockPerm.keys))
      (String.ofList (Text.hexPad 16 blockAddr) ++ " not in block_perm.keys()")
    if s.perm blockAddr ≠ .tip then
      let s ← s.retrieveBlock
        { callback := .enableProbe, param := toN, size := cfg.probeSize, addr := s.probeAddr
          mask := cfg.probeMask }
      return { s with probe := false, probeEn := false, probeAddr := 0 }
    else return s
  else .ok s

inductive Event
  | a (m : AMessage)
  | c (m : CMessage)
  | e (sink : ℕ)
  | dPop
  | dFire
  | bPop
  | bFire
  | hostPoll
  | retriever
  | probeBlock (probeAddr : ℕ)
  | stop
  deriving DecidableEq, Repr

/-- One iteration of one coroutine, or one call from outside. The loops of the coroutines test
`drive` first; a message that waits on a port is still taken. -/
def step (s : State) : Event → Except PyError State
  | .a m => if s.drive then aPortMonitor cfg m s else .ok s
  | .c m => if s.drive then cPortMonitor cfg m s else .ok s
  | .e sink => if s.drive then ePortMonitor sink s else .ok s
  | .dPop => if s.drive then dPortDriver s else .ok s
  | .dFire => .ok { s with dPort := none }
  | .bPop => .ok (if s.drive then bPortDriver s else s)
  | .bFire => .ok { s with bPort := none }
  | .hostPoll => if s.drive then hostInterface cfg s else .ok s
  | .retriever => dataRetriever cfg s
  | .probeBlock probeAddr => .ok { s with probe := true, probeAddr := probeAddr }
  | .stop => .ok { s with retrieve := true }

def run (s : State) (events : List Event) : Except PyError State :=
  events.foldlM (fun s event ↦ step cfg s event) s

/-- The identifiers of `drive_input`. -/
def dSinkList : List ℕ := List.range 4

def bSrcList : List ℕ := List.range 1

theorem nodup_dSinkList : dSinkList.Nodup := List.nodup_range

theorem nodup_bSrcList : bSrcList.Nodup := List.nodup_range

/-- `start` on a fresh adapter. `blocks` are the blocks of the memory in the iteration order of
the set that `drive_input` builds. -/
def start (memory : Dict ℕ ℕ) (blocks : List ℕ) (draws : Draws) : State where
  drive := true
  retrieve := false
  retrieved := false
  memory := memory
  blockPerm := Dict.ofList (blocks.map fun addr ↦ (addr, .tip))
  dSinks := FreeList.new "d_sinks" dSinkList nodup_dSinkList
  probes := Probes.new bSrcList nodup_bSrcList draws
  dQueue := []
  ongoingTlc := Dict.empty
  aOngoings := Dict.empty
  burstData := none
  bursts := []
  cOngoings := Dict.empty
  probe := false
  probeEn := true
  probeAddr := 0
  dPort := none
  bPort := none

end ProcessorFuzz.TileLink.Adapter
