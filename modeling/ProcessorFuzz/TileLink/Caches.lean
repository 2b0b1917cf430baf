import ProcessorFuzz.TileLink.Blocks
import ProcessorFuzz.TileLink.Client

/-!
# Clients that cache blocks

The clients behind the port may keep copies of blocks. A client is known by its source; it obtains a
copy when the first message of a Grant reaches it, and gives it up, or keeps a part of it, with a
Release or the answer to a probe. Sources without copies are uncached clients.

A run is coherent if no write is executed at once on a block of which a copy exists or for which a
Grant waits, and if every `GrantData` that is delivered carries the memory of that moment.
-/

namespace ProcessorFuzz.TileLink.Adapter

open Library Client

/-- What a client holds of a block. -/
inductive Copy
  | nothing
  | branch
  | trunk
  deriving DecidableEq, Repr

namespace Copy

/-- The copy that the parameter of a Release or probe answer says the client had. -/
def reported (param : ℕ) : Copy :=
  if param ∈ [TtoB, TtoN, TtoT] then .trunk
  else if param ∈ [BtoN, BtoB] then .branch
  else .nothing

/-- The copy that it says the client keeps. -/
def kept (param : ℕ) : Copy :=
  if param = TtoT then .trunk
  else if param ∈ [TtoB, BtoB] then .branch
  else .nothing

/-- The copy that a Grant gives. -/
def granted (param : ℕ) : Copy := if param = toT then .trunk else .branch

end Copy

/-- The clients: their copies by source and block, the Acquires whose Grant has not reached them,
and their unfinished bursts. -/
structure Caches where
  copies : Dict (ℕ × ℕ) Copy := Dict.empty
  acquiring : List AMessage := []
  aBurst : Option (AMessage × ℕ) := none
  /-- Whether the block of the put under way was `TIP` at its first message. -/
  direct : Bool := true
  cBurst : Option (CMessage × ℕ) := none

/-- The Grant whose first message the next pop takes: the message, the block and the parameter. -/
def delivered (s : State) : Option (DMessage × ℕ × ℕ) :=
  match s.dPort, s.dQueue with
  | none, some (m, some (.updatePerm blockAddr param)) :: _ => some (m, blockAddr, param)
  | _, _ => none

/-- Some Grant for the block waits in `d_queue`. -/
def grantQueued (s : State) (blockAddr : ℕ) : Bool :=
  s.dQueue.any fun entry ↦
    match entry with
    | some (_, some (.updatePerm blockAddr' _)) => blockAddr' = blockAddr
    | _ => false

/-- The block that is granted once the probe of the source is answered. -/
def waitingGrant (s : State) (source : ℕ) : Option ℕ :=
  match s.probes.registered source with
  | some (.grantData _ _ _ _ _ _ blockAddr) => some blockAddr
  | _ => none

def isWrite : AOpcode → Bool
  | .putFullData | .putPartialData | .arithmeticData | .logicalData => true
  | _ => false

namespace Caches

variable (cfg : Config)

def copy (k : Caches) (source blockAddr : ℕ) : Copy := k.copies.getD (source, blockAddr) .nothing

def setCopy (k : Caches) (source blockAddr : ℕ) (c : Copy) : Caches :=
  { k with copies := k.copies.set (source, blockAddr) c }

theorem copy_setCopy (k : Caches) (source source' blockAddr blockAddr' : ℕ) (c : Copy) :
    (k.setCopy source blockAddr c).copy source' blockAddr' =
      if source' = source ∧ blockAddr' = blockAddr then c else k.copy source' blockAddr' := by
  unfold copy setCopy
  rw [Dict.getD_set]
  simp only [Prod.mk.injEq]

/-- The A messages that a client may send. -/
structure LegalA (m : AMessage) (k : Caches) : Prop where
  checked : aAssertions m true = .ok ()
  fits : Fits cfg m.address m.size
  continues : ∀ first count, k.aBurst = some (first, count) → ContinuesA first m
  /-- An Acquire tells the client's copy, and no other one of the client is under way for the
  block. -/
  acquire : isAcquire m.opcode →
    k.copy m.source (cfg.blockAddr m.address) = (if m.param = BtoT then .branch else .nothing) ∧
    ∀ a ∈ k.acquiring, a.source = m.source → cfg.blockAddr a.address ≠ cfg.blockAddr m.address

/-- The C messages that a client may send. -/
structure LegalC (m : CMessage) (s : State) (k : Caches) : Prop where
  checked : cAssertions m true = .ok ()
  fits : Fits cfg m.address m.size
  opcode : m.opcode ∈ [COpcode.probeAck, .probeAckData, .release, .releaseData]
  continues : ∀ first count, k.cBurst = some (first, count) → ContinuesC first m
  outstanding : m.opcode ∈ [COpcode.probeAck, .probeAckData] →
    m.source ∈ s.probes.bSrcs.initList ∧ m.source ∉ s.probes.bSrcs.freeList
  reported : Copy.reported m.param = k.copy m.source (cfg.blockAddr m.address)
  /-- Only the contents of a writable copy are sent back. -/
  data : isCBurst m.opcode → k.copy m.source (cfg.blockAddr m.address) = .trunk

/-- The events that follow the protocol. It binds the clients, and not the host. -/
def Legal (s : State) (k : Caches) : Event → Prop
  | .a m => LegalA cfg m k
  | .c m => LegalC cfg m s k
  | _ => True

def sendA (m : AMessage) (s : State) (k : Caches) : Caches :=
  { k with
    aBurst := if hasBurst m.opcode then advance m (cfg.burstLen m.size) k.aBurst else none
    direct := if k.aBurst.isNone then s.perm (cfg.blockAddr m.address) = .tip else k.direct
    acquiring := if isAcquire m.opcode then k.acquiring ++ [m] else k.acquiring }

/-- The last message of a Release or of a probe answer changes the copy. -/
def sendC (m : CMessage) (k : Caches) : Caches :=
  let cBurst := if isCBurst m.opcode then advance m (cfg.burstLen m.size) k.cBurst else none
  let k : Caches := { k with cBurst := cBurst }
  if cBurst.isNone then k.setCopy m.source (cfg.blockAddr m.address) (Copy.kept m.param) else k

def receive (m : DMessage) (blockAddr param : ℕ) (k : Caches) : Caches :=
  let acquiring := k.acquiring.eraseP fun a ↦
    a.source = m.source ∧ cfg.blockAddr a.address = blockAddr
  { k with acquiring := acquiring }.setCopy m.source blockAddr (Copy.granted param)

/-- An adapter that has stopped takes and delivers no messages. -/
def react (s : State) (k : Caches) (event : Event) : Caches :=
  if s.drive then
    match event with
    | .a m => sendA cfg m s k
    | .c m => sendC cfg m k
    | .dPop =>
      match delivered s with
      | some (m, blockAddr, param) => receive cfg m blockAddr param k
      | none => k
    | _ => k
  else k

/-- Every step of the run satisfies `P`, which sees the state before the step. A step that raises
ends the run. -/
def Along (P : State → Caches → Event → Prop) (s : State) (k : Caches) : List Event → Prop
  | [] => True
  | event :: events => P s k event ∧
    match step cfg s event with
    | .error _ => True
    | .ok s' => Along P s' (react cfg s k event) events

/-- A write that is executed at once finds no copy of the block and no waiting Grant for it, and a
`GrantData` carries, for the Acquire that it answers, the memory of the moment of its first pop. -/
def Coherent (s : State) (k : Caches) : Event → Prop
  | .a m => s.drive → isWrite m.opcode → s.perm (cfg.blockAddr m.address) = .tip →
    (∀ source, k.copy source (cfg.blockAddr m.address) = .nothing) ∧
      grantQueued s (cfg.blockAddr m.address) = false
  | .dPop => s.drive → ∀ entry ∈ delivered s, entry.1.opcode = .grantData →
    ∃ a ∈ k.acquiring, a.source = entry.1.source ∧ cfg.blockAddr a.address = entry.2.1 ∧
      (s.dQueue.take (cfg.burstLen a.size)).map (Option.map Prod.fst) =
        (burst cfg entry.1 (cfg.burstLen a.size) (cfg.addrAligned a.address) s.memory).map some
  | _ => True

/-- Nobody has an Acquire for the block under way. -/
def Unacquired (k : Caches) (blockAddr : ℕ) : Prop :=
  ∀ a ∈ k.acquiring, cfg.blockAddr a.address ≠ blockAddr

/-- Once the answer is complete, nobody can write the block that is granted then. -/
def Releases (m : CMessage) (granted : Option ℕ) (k : Caches) : Prop :=
  (sendC cfg m k).cBurst.isNone → ∀ blockAddr ∈ granted, ∀ source,
    (sendC cfg m k).copy source blockAddr ≠ .trunk

/-- The condition on one step. An Acquire or a write that is executed at once is for a block that
nobody acquires, and such a write is for a block without read-only copies. All messages of a put
find the block `TIP` or none does. A probe answer that lets a Grant go leaves no writable copy of
the granted block. -/
def Careful (s : State) (k : Caches) : Event → Prop
  | .a m =>
    (isAcquire m.opcode → Unacquired cfg k (cfg.blockAddr m.address)) ∧
    (isWrite m.opcode → s.perm (cfg.blockAddr m.address) = .tip →
      Unacquired cfg k (cfg.blockAddr m.address) ∧
      ∀ source, k.copy source (cfg.blockAddr m.address) ≠ .branch) ∧
    (k.aBurst.isSome → (s.perm (cfg.blockAddr m.address) = .tip ↔ k.direct = true))
  | .c m => m.opcode ∈ [COpcode.probeAck, .probeAckData] →
    Releases cfg m (waitingGrant s m.source) k
  | _ => True

instance (m : AMessage) (k : Caches) : Decidable (LegalA cfg m k) :=
  decidable_of_iff (aAssertions m true = .ok () ∧ Fits cfg m.address m.size ∧
      (∀ first count, k.aBurst = some (first, count) → ContinuesA first m) ∧
      (isAcquire m.opcode →
        k.copy m.source (cfg.blockAddr m.address) =
          (if m.param = BtoT then .branch else .nothing) ∧
        ∀ a ∈ k.acquiring, a.source = m.source →
          cfg.blockAddr a.address ≠ cfg.blockAddr m.address))
    ⟨fun h ↦ ⟨h.1, h.2.1, h.2.2.1, h.2.2.2⟩,
      fun h ↦ ⟨h.checked, h.fits, h.continues, h.acquire⟩⟩

instance (m : CMessage) (s : State) (k : Caches) : Decidable (LegalC cfg m s k) :=
  decidable_of_iff (cAssertions m true = .ok () ∧ Fits cfg m.address m.size ∧
      m.opcode ∈ [COpcode.probeAck, .probeAckData, .release, .releaseData] ∧
      (∀ first count, k.cBurst = some (first, count) → ContinuesC first m) ∧
      (m.opcode ∈ [COpcode.probeAck, .probeAckData] →
        m.source ∈ s.probes.bSrcs.initList ∧ m.source ∉ s.probes.bSrcs.freeList) ∧
      Copy.reported m.param = k.copy m.source (cfg.blockAddr m.address) ∧
      (isCBurst m.opcode → k.copy m.source (cfg.blockAddr m.address) = .trunk))
    ⟨fun h ↦ ⟨h.1, h.2.1, h.2.2.1, h.2.2.2.1, h.2.2.2.2.1, h.2.2.2.2.2.1, h.2.2.2.2.2.2⟩,
      fun h ↦ ⟨h.checked, h.fits, h.opcode, h.continues, h.outstanding, h.reported, h.data⟩⟩

instance (s : State) (k : Caches) : DecidablePred (Legal cfg s k)
  | .a m => inferInstanceAs (Decidable (LegalA cfg m k))
  | .c m => inferInstanceAs (Decidable (LegalC cfg m s k))
  | .e _ | .dPop | .dFire | .bPop | .bFire | .hostPoll | .retriever | .probeBlock _ | .stop =>
    isTrue trivial

/-- Only the recorded sources have copies. -/
theorem forall_copy_iff (k : Caches) {P : Copy → Prop} (hP : P .nothing) (blockAddr : ℕ) :
    (∀ source, P (k.copy source blockAddr)) ↔
      ∀ entry ∈ k.copies.entries, entry.1.2 = blockAddr → P entry.2 := by
  constructor
  · rintro h ⟨⟨source, block⟩, c⟩ hentry rfl
    have hcopy := h source
    unfold copy Dict.getD at hcopy
    rwa [Dict.get?_eq_some_iff.mpr hentry] at hcopy
  · intro h source
    unfold copy Dict.getD
    cases hget : k.copies.get? (source, blockAddr) with
    | none => exact hP
    | some c => exact h _ (Dict.get?_eq_some_iff.mp hget) rfl

instance (k : Caches) (blockAddr : ℕ) : Decidable (∀ source, k.copy source blockAddr = .nothing) :=
  decidable_of_iff _ (forall_copy_iff k (P := (· = Copy.nothing)) rfl blockAddr).symm

instance (k : Caches) (blockAddr : ℕ) : Decidable (∀ source, k.copy source blockAddr ≠ .branch) :=
  decidable_of_iff _ (forall_copy_iff k (P := (· ≠ .branch)) (by decide) blockAddr).symm

instance (k : Caches) (blockAddr : ℕ) : Decidable (∀ source, k.copy source blockAddr ≠ .trunk) :=
  decidable_of_iff _ (forall_copy_iff k (P := (· ≠ .trunk)) (by decide) blockAddr).symm

instance (k : Caches) (blockAddr : ℕ) : Decidable (Unacquired cfg k blockAddr) :=
  inferInstanceAs (Decidable (∀ a ∈ k.acquiring, cfg.blockAddr a.address ≠ blockAddr))

instance (m : CMessage) (granted : Option ℕ) (k : Caches) : Decidable (Releases cfg m granted k) :=
  inferInstanceAs (Decidable ((sendC cfg m k).cBurst.isNone → ∀ blockAddr ∈ granted, ∀ source,
    (sendC cfg m k).copy source blockAddr ≠ .trunk))

instance (s : State) (k : Caches) : DecidablePred (Careful cfg s k)
  | .a m => inferInstanceAs (Decidable
      ((isAcquire m.opcode → Unacquired cfg k (cfg.blockAddr m.address)) ∧
      (isWrite m.opcode → s.perm (cfg.blockAddr m.address) = .tip →
        Unacquired cfg k (cfg.blockAddr m.address) ∧
        ∀ source, k.copy source (cfg.blockAddr m.address) ≠ .branch) ∧
      (k.aBurst.isSome → (s.perm (cfg.blockAddr m.address) = .tip ↔ k.direct = true))))
  | .c m => inferInstanceAs (Decidable
      (m.opcode ∈ [COpcode.probeAck, .probeAckData] →
        Releases cfg m (waitingGrant s m.source) k))
  | .e _ | .dPop | .dFire | .bPop | .bFire | .hostPoll | .retriever | .probeBlock _ | .stop =>
    isTrue trivial

instance (s : State) (k : Caches) : DecidablePred (Coherent cfg s k)
  | .a m => inferInstanceAs (Decidable (s.drive → isWrite m.opcode →
      s.perm (cfg.blockAddr m.address) = .tip →
      (∀ source, k.copy source (cfg.blockAddr m.address) = .nothing) ∧
        grantQueued s (cfg.blockAddr m.address) = false))
  | .dPop => inferInstanceAs (Decidable (s.drive → ∀ entry ∈ delivered s,
      entry.1.opcode = .grantData →
      ∃ a ∈ k.acquiring, a.source = entry.1.source ∧ cfg.blockAddr a.address = entry.2.1 ∧
        (s.dQueue.take (cfg.burstLen a.size)).map (Option.map Prod.fst) =
          (burst cfg entry.1 (cfg.burstLen a.size) (cfg.addrAligned a.address) s.memory).map
            some))
  | .c _ | .e _ | .dFire | .bPop | .bFire | .hostPoll | .retriever | .probeBlock _ | .stop =>
    isTrue trivial

instance decidableAlong (P : State → Caches → Event → Prop) [∀ s k, DecidablePred (P s k)]
    (s : State) (k : Caches) : (events : List Event) → Decidable (Along cfg P s k events)
  | [] => isTrue trivial
  | event :: events =>
    match h : step cfg s event with
    | .error _ => decidable_of_iff (P s k event) (by
        conv_rhs => unfold Along
        rw [h]
        exact (and_iff_left trivial).symm)
    | .ok s' =>
      have := decidableAlong P s' (react cfg s k event) events
      decidable_of_iff (P s k event ∧ Along cfg P s' (react cfg s k event) events) (by
        conv_rhs => unfold Along
        rw [h])

end Caches

end ProcessorFuzz.TileLink.Adapter
