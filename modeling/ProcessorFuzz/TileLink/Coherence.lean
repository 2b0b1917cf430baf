import ProcessorFuzz.TileLink.Caches

/-!
# Coherence

Under the condition of `Careful` every run of protocol-abiding clients is coherent. The invariant
says that a writable copy exists only while its block is `TRUNK`, that each Acquire has exactly one
Grant, in `d_queue` or in a continuation, and that nobody can write the block of a queued Grant, so
that its words are those of the memory.
-/

namespace ProcessorFuzz.TileLink.Adapter

open Library Client

variable {cfg : Config} {s s' : State} {k : Caches}

/-- The source and the block of the Grant that an entry begins. -/
def grantKey : DEntry → Option (ℕ × ℕ)
  | some (m, some (.updatePerm blockAddr _)) => some (m.source, blockAddr)
  | _ => none

def acquireKey (cfg : Config) (a : AMessage) : ℕ × ℕ := (a.source, cfg.blockAddr a.address)

/-- The `GrantData` that answers an Acquire. -/
def grantDataEntries (cfg : Config) (a : AMessage) (sink : ℕ) (memory : Dict ℕ ℕ) : List DEntry :=
  withCallback (.updatePerm (cfg.blockAddr a.address) (grantParam a.param))
    (burst cfg { opcode := .grantData, param := grantParam a.param, size := a.size
                 source := a.source, sink := sink }
      (cfg.burstLen a.size) (cfg.addrAligned a.address) memory)

/-- The `Grant` that answers an Acquire. -/
def grantEntry (cfg : Config) (a : AMessage) (sink : ℕ) : DEntry :=
  some ({ opcode := .grant, param := grantParam a.param, size := a.size, source := a.source
          sink := sink }, some (.updatePerm (cfg.blockAddr a.address) (grantParam a.param)))

/-- A queue in which every Grant answers one of `acquiring`, with the words of `memory`. -/
inductive GrantQueue (cfg : Config) (memory : Dict ℕ ℕ) (acquiring : List AMessage) :
    List DEntry → Prop
  | nil : GrantQueue cfg memory acquiring []
  | other {entry : DEntry} {rest : List DEntry} (hentry : grantKey entry = none)
      (hrest : GrantQueue cfg memory acquiring rest) :
      GrantQueue cfg memory acquiring (entry :: rest)
  | grantData {a : AMessage} {rest : List DEntry} (ha : a ∈ acquiring) (sink : ℕ)
      (hrest : GrantQueue cfg memory acquiring rest) :
      GrantQueue cfg memory acquiring (grantDataEntries cfg a sink memory ++ rest)
  | grant {a : AMessage} {rest : List DEntry} (ha : a ∈ acquiring) (sink : ℕ)
      (hrest : GrantQueue cfg memory acquiring rest) :
      GrantQueue cfg memory acquiring (grantEntry cfg a sink :: rest)

section Queue

variable {memory memory' : Dict ℕ ℕ} {acquiring acquiring' : List AMessage}
  {queue queue' : List DEntry} {a : AMessage}

theorem grantKey_plain (m : DMessage) : grantKey (plain m) = none := rfl

theorem grantDataEntries_eq_cons (cfg : Config) (a : AMessage) (sink : ℕ) (memory : Dict ℕ ℕ) :
    ∃ (data : ℕ) (ms : List DMessage), grantDataEntries cfg a sink memory =
      some ({ opcode := .grantData, param := grantParam a.param, size := a.size
              source := a.source, sink := sink, data := data },
        some (.updatePerm (cfg.blockAddr a.address) (grantParam a.param))) ::
        ms.map plain := by
  obtain ⟨n, hn⟩ := Nat.exists_eq_succ_of_ne_zero (cfg.burstLen_pos a.size).ne'
  unfold grantDataEntries burst
  rw [hn, List.range_succ_eq_map, List.map_cons]
  exact ⟨_, _, rfl⟩

theorem map_fst_withCallback (callback : DCallback) (ms : List DMessage) :
    (withCallback callback ms).map (Option.map Prod.fst) = ms.map some := by
  cases ms with
  | nil => rfl
  | cons m ms =>
    unfold withCallback
    rw [List.map_cons, List.map_map, List.map_cons]
    rfl

theorem filterMap_grantKey_plain (ms : List DMessage) :
    (ms.map plain).filterMap grantKey = [] := by
  rw [List.filterMap_map]
  exact List.filterMap_eq_nil_iff.mpr fun m _ ↦ grantKey_plain m

theorem filterMap_grantKey_grantData (a : AMessage) (sink : ℕ) (memory : Dict ℕ ℕ) :
    (grantDataEntries cfg a sink memory).filterMap grantKey = [acquireKey cfg a] := by
  obtain ⟨data, ms, heq⟩ := grantDataEntries_eq_cons cfg a sink memory
  rw [heq]
  exact congrArg (_ :: ·) (filterMap_grantKey_plain ms)

theorem GrantQueue.append (h : GrantQueue cfg memory acquiring queue)
    (h' : GrantQueue cfg memory acquiring queue') :
    GrantQueue cfg memory acquiring (queue ++ queue') := by
  induction h with
  | nil => exact h'
  | other hentry hrest ih => exact .other hentry ih
  | grantData ha sink hrest ih =>
    rw [List.append_assoc]
    exact .grantData ha sink ih
  | grant ha sink hrest ih => exact .grant ha sink ih

theorem GrantQueue.of_others (h : ∀ entry ∈ queue, grantKey entry = none) :
    GrantQueue cfg memory acquiring queue := by
  induction queue with
  | nil => exact .nil
  | cons entry rest ih =>
    rw [List.forall_mem_cons] at h
    exact .other h.1 (ih h.2)

/-- The words of the Acquires with a queued Grant decide the queued bursts. -/
theorem GrantQueue.of_memory (h : GrantQueue cfg memory acquiring queue)
    (hmemory : ∀ a ∈ acquiring, acquireKey cfg a ∈ queue.filterMap grantKey →
      ∀ i < cfg.burstLen a.size,
        memory'.getD (cfg.addrAligned a.address + i * cfg.dataLen) nopData =
          memory.getD (cfg.addrAligned a.address + i * cfg.dataLen) nopData) :
    GrantQueue cfg memory' acquiring queue := by
  induction h with
  | nil => exact .nil
  | other hentry hrest ih =>
    rw [List.filterMap_cons_none hentry] at hmemory
    exact .other hentry (ih hmemory)
  | @grantData a rest ha sink hrest ih =>
    rw [List.filterMap_append, filterMap_grantKey_grantData] at hmemory
    have hentries : grantDataEntries cfg a sink memory = grantDataEntries cfg a sink memory' := by
      unfold grantDataEntries burst
      refine congrArg _ (List.map_congr_left fun i hi ↦ ?_)
      rw [hmemory a ha (by simp) i (List.mem_range.mp hi)]
    rw [hentries]
    exact .grantData ha sink (ih fun a' ha' hkey ↦ hmemory a' ha' (List.mem_append_right _ hkey))
  | @grant a rest ha sink hrest ih =>
    have hkey : grantKey (grantEntry cfg a sink) = some (acquireKey cfg a) := rfl
    rw [List.filterMap_cons_some hkey] at hmemory
    exact .grant ha sink (ih fun a' ha' hkey' ↦ hmemory a' ha' (List.mem_cons_of_mem _ hkey'))

theorem GrantQueue.mono (h : GrantQueue cfg memory acquiring queue)
    (hsubset : ∀ a ∈ acquiring, acquireKey cfg a ∈ queue.filterMap grantKey → a ∈ acquiring') :
    GrantQueue cfg memory acquiring' queue := by
  induction h with
  | nil => exact .nil
  | other hentry hrest ih =>
    rw [List.filterMap_cons_none hentry] at hsubset
    exact .other hentry (ih hsubset)
  | @grantData a rest ha sink hrest ih =>
    rw [List.filterMap_append, filterMap_grantKey_grantData] at hsubset
    exact .grantData (hsubset a ha (by simp)) sink
      (ih fun a' ha' hkey ↦ hsubset a' ha' (List.mem_append_right _ hkey))
  | @grant a rest ha sink hrest ih =>
    have hkey : grantKey (grantEntry cfg a sink) = some (acquireKey cfg a) := rfl
    rw [List.filterMap_cons_some hkey] at hsubset
    exact .grant (hsubset a ha List.mem_cons_self) sink
      (ih fun a' ha' hkey' ↦ hsubset a' ha' (List.mem_cons_of_mem _ hkey'))

/-- The first entry of the queue either begins no Grant or begins the Grant of an Acquire; a
`GrantData` comes with all its messages. -/
theorem GrantQueue.of_cons {entry : DEntry}
    (h : GrantQueue cfg memory acquiring (entry :: queue)) :
    GrantQueue cfg memory acquiring queue ∧
      (grantKey entry = none ∨ ∃ a ∈ acquiring, ∃ m : DMessage,
        entry = some (m, some (.updatePerm (cfg.blockAddr a.address) (grantParam a.param))) ∧
        m.source = a.source ∧ (m.opcode = .grantData →
          ((entry :: queue).take (cfg.burstLen a.size)).map (Option.map Prod.fst) =
            (burst cfg m (cfg.burstLen a.size) (cfg.addrAligned a.address) memory).map some)) := by
  generalize hwhole : entry :: queue = whole at h
  cases h with
  | nil => exact nomatch hwhole
  | other hentry hrest =>
    obtain ⟨rfl, rfl⟩ := List.cons.inj hwhole
    exact ⟨hrest, Or.inl hentry⟩
  | @grantData a rest ha sink hrest =>
    obtain ⟨data, ms, heq⟩ := grantDataEntries_eq_cons cfg a sink memory
    have hmessages : (grantDataEntries cfg a sink memory).map (Option.map Prod.fst) =
        (burst cfg { opcode := .grantData, param := grantParam a.param, size := a.size
                     source := a.source, sink := sink }
          (cfg.burstLen a.size) (cfg.addrAligned a.address) memory).map some :=
      map_fst_withCallback _ _
    have hlength : (grantDataEntries cfg a sink memory).length = cfg.burstLen a.size := by
      have hlength := congrArg List.length hmessages
      rwa [List.length_map, List.length_map, length_burst] at hlength
    rw [heq, List.cons_append] at hwhole
    obtain ⟨rfl, rfl⟩ := List.cons.inj hwhole
    refine ⟨(GrantQueue.of_others fun entry hentry ↦ ?_).append hrest, Or.inr ⟨a, ha, _, rfl, rfl,
      fun _ ↦ ?_⟩⟩
    · obtain ⟨m, -, rfl⟩ := List.mem_map.mp hentry
      rfl
    · rw [← hlength, List.take_left, hmessages, hlength]
      rfl
  | @grant a rest ha sink hrest =>
    obtain ⟨rfl, rfl⟩ := List.cons.inj hwhole
    exact ⟨hrest, Or.inr ⟨a, ha, _, rfl, rfl, nofun⟩⟩

end Queue

/-- The source and the block of the Grant that a continuation will queue. -/
def pendingKey : Callback → Option (ℕ × ℕ)
  | .grantData _ _ _ _ _ source blockAddr => some (source, blockAddr)
  | _ => none

def grantCallback (cfg : Config) (a : AMessage) (sink : ℕ) : Callback :=
  .grantData (cfg.burstLen a.size) (cfg.addrAligned a.address) (grantParam a.param) sink a.size
    a.source (cfg.blockAddr a.address)

def pendingGrants (probes : Probes Callback) : List Callback :=
  probes.pending.filter fun callback ↦ (pendingKey callback).isSome

section Pending

variable {probes probes' : Probes Callback} {callback : Callback}

theorem pendingGrants_of_cons_other (h : probes'.pending.Perm (callback :: probes.pending))
    (hkey : pendingKey callback = none) :
    (pendingGrants probes').Perm (pendingGrants probes) := by
  have hfilter := h.filter fun callback ↦ (pendingKey callback).isSome
  rwa [List.filter_cons_of_neg (by simp [hkey])] at hfilter

theorem pendingGrants_of_cons_grant (h : probes'.pending.Perm (callback :: probes.pending))
    {key : ℕ × ℕ} (hkey : pendingKey callback = some key) :
    (pendingGrants probes').Perm (callback :: pendingGrants probes) := by
  have hfilter := h.filter fun callback ↦ (pendingKey callback).isSome
  rwa [List.filter_cons_of_pos (by simp [hkey])] at hfilter

theorem pendingGrants_congr (h : probes'.pending = probes.pending) :
    pendingGrants probes' = pendingGrants probes := by
  unfold pendingGrants
  rw [h]

end Pending

theorem updatePerm_frame (blockAddr param : ℕ) (s : State) :
    (updatePerm blockAddr param s).dQueue = s.dQueue ∧
      (updatePerm blockAddr param s).memory = s.memory ∧
      (updatePerm blockAddr param s).probes = s.probes ∧
      (updatePerm blockAddr param s).aOngoings = s.aOngoings ∧
      (updatePerm blockAddr param s).cOngoings = s.cOngoings := by
  unfold updatePerm
  split <;> exact ⟨rfl, rfl, rfl, rfl, rfl⟩

/-- The part of the invariant that does not concern bursts. -/
structure Core (cfg : Config) (s : State) (k : Caches) : Prop where
  queue : GrantQueue cfg s.memory k.acquiring s.dQueue
  pending : ∀ callback ∈ pendingGrants s.probes,
    ∃ a ∈ k.acquiring, ∃ sink, callback = grantCallback cfg a sink
  /-- Every Acquire under way has one Grant. -/
  outstanding : (s.dQueue.filterMap grantKey ++
    (pendingGrants s.probes).filterMap pendingKey).Perm (k.acquiring.map (acquireKey cfg))
  nodup : (k.acquiring.map fun a ↦ cfg.blockAddr a.address).Nodup
  fits : ∀ a ∈ k.acquiring, Fits cfg a.address a.size
  trunk : ∀ source blockAddr, k.copy source blockAddr = .trunk → s.perm blockAddr = .trunk
  single : ∀ source source' blockAddr, k.copy source blockAddr = .trunk →
    k.copy source' blockAddr = .trunk → source = source'
  /-- Nobody can write the block of a queued Grant. -/
  apart : ∀ key ∈ s.dQueue.filterMap grantKey, ∀ source, k.copy source key.2 ≠ .trunk

namespace Core

variable {k' : Caches} {entries : List DEntry}

/-- A step that pushes no Grant, writes no word of a queued Grant and changes no permission. -/
theorem frame (h : Core cfg s k) (hqueue : s'.dQueue = s.dQueue ++ entries)
    (hentries : ∀ entry ∈ entries, grantKey entry = none)
    (hmemory : ∀ a ∈ k.acquiring, acquireKey cfg a ∈ s.dQueue.filterMap grantKey →
      ∀ i < cfg.burstLen a.size,
        s'.memory.getD (cfg.addrAligned a.address + i * cfg.dataLen) nopData =
          s.memory.getD (cfg.addrAligned a.address + i * cfg.dataLen) nopData)
    (hpending : (pendingGrants s'.probes).Perm (pendingGrants s.probes))
    (hperm : ∀ blockAddr, s'.perm blockAddr = s.perm blockAddr)
    (hcopies : k'.copies = k.copies) (hacquiring : k'.acquiring = k.acquiring) :
    Core cfg s' k' := by
  obtain ⟨copies, acquiring, aBurst, direct, cBurst⟩ := k'
  obtain rfl : copies = k.copies := hcopies
  obtain rfl : acquiring = k.acquiring := hacquiring
  have hkeys : s'.dQueue.filterMap grantKey = s.dQueue.filterMap grantKey := by
    rw [hqueue, List.filterMap_append, List.filterMap_eq_nil_iff.mpr hentries, List.append_nil]
  refine ⟨?_, fun callback hmem ↦ h.pending callback (hpending.subset hmem), ?_, h.nodup, h.fits,
    fun source blockAddr hcopy ↦ ?_, h.single, ?_⟩
  · rw [hqueue]
    exact (h.queue.of_memory hmemory).append (GrantQueue.of_others hentries)
  · rw [hkeys]
    exact ((hpending.filterMap pendingKey).append_left _).trans h.outstanding
  · rw [hperm]
    exact h.trunk source blockAddr hcopy
  · rw [hkeys]
    exact h.apart

/-- What is known depends on the queue, the memory, the probes, the permissions and the copies. -/
theorem same (h : Core cfg s k) (hqueue : s'.dQueue = s.dQueue) (hmemory : s'.memory = s.memory)
    (hprobes : s'.probes = s.probes) (hperm : s'.blockPerm = s.blockPerm)
    (hcopies : k'.copies = k.copies) (hacquiring : k'.acquiring = k.acquiring) :
    Core cfg s' k' := by
  refine h.frame (List.append_nil _ ▸ hqueue) (List.forall_mem_nil _) (fun a _ _ i _ ↦ ?_) ?_
    (fun blockAddr ↦ ?_) hcopies hacquiring
  · rw [hmemory]
  · rw [hprobes]
  · unfold State.perm
    rw [hperm]

/-- Nobody can write a block that is `TIP`. -/
theorem copy_ne_trunk (h : Core cfg s k) {blockAddr : ℕ} (htip : s.perm blockAddr = .tip)
    (source : ℕ) : k.copy source blockAddr ≠ .trunk := by
  intro hcopy
  have htrunk := h.trunk source blockAddr hcopy
  rw [htip] at htrunk
  exact absurd htrunk (by decide)

/-- No Grant is queued for a block that nobody acquires. -/
theorem not_grantQueued (h : Core cfg s k) {blockAddr : ℕ}
    (hacquiring : Caches.Unacquired cfg k blockAddr) : grantQueued s blockAddr = false := by
  unfold grantQueued
  rw [List.any_eq_false]
  rintro entry hentry hgrant
  split at hgrant
  · next m block param =>
    obtain rfl := of_decide_eq_true hgrant
    have hkey : (m.source, block) ∈ s.dQueue.filterMap grantKey :=
      List.mem_filterMap.mpr ⟨_, hentry, rfl⟩
    have hmem := h.outstanding.subset (List.mem_append_left _ hkey)
    obtain ⟨a, ha, hkey⟩ := List.mem_map.mp hmem
    exact hacquiring a ha (congrArg Prod.snd hkey)
  · cases hgrant

/-- An Acquire joins those under way, with its Grant in the queue or in a continuation. -/
theorem acquire (h : Core cfg s k) {m : AMessage} (hqueue : s'.dQueue = s.dQueue ++ entries)
    (hentries : GrantQueue cfg s'.memory (k.acquiring ++ [m]) entries)
    (hmemory : ∀ addr, s'.memory.getD addr nopData = s.memory.getD addr nopData)
    (hpending : ∀ callback ∈ pendingGrants s'.probes,
      callback ∈ pendingGrants s.probes ∨ ∃ sink, callback = grantCallback cfg m sink)
    (hkeys : (entries.filterMap grantKey ++ (pendingGrants s'.probes).filterMap pendingKey).Perm
      (acquireKey cfg m :: (pendingGrants s.probes).filterMap pendingKey))
    (hperm : ∀ blockAddr, s'.perm blockAddr = s.perm blockAddr)
    (hcopies : k'.copies = k.copies) (hacquiring : k'.acquiring = k.acquiring ++ [m])
    (hfits : Fits cfg m.address m.size)
    (hnew : Caches.Unacquired cfg k (cfg.blockAddr m.address))
    (hcopy : ∀ key ∈ entries.filterMap grantKey, ∀ source, k.copy source key.2 ≠ .trunk) :
    Core cfg s' k' := by
  obtain ⟨copies, acquiring, aBurst, direct, cBurst⟩ := k'
  obtain rfl : copies = k.copies := hcopies
  obtain rfl : acquiring = k.acquiring ++ [m] := hacquiring
  refine ⟨?_, fun callback hmem ↦ ?_, ?_, ?_, fun a ha ↦ ?_, fun source blockAddr hheld ↦ ?_,
    h.single, fun key hkey ↦ ?_⟩
  · rw [hqueue]
    have hold := h.queue.mono fun a ha _ ↦ List.mem_append_left [m] ha
    have hfilled := hold.of_memory fun a _ _ i _ ↦
      hmemory (cfg.addrAligned a.address + i * cfg.dataLen)
    exact hfilled.append hentries
  · obtain hold | ⟨sink, rfl⟩ := hpending callback hmem
    · obtain ⟨a, ha, sink, rfl⟩ := h.pending callback hold
      exact ⟨a, List.mem_append_left _ ha, sink, rfl⟩
    · exact ⟨m, List.mem_append_right _ List.mem_cons_self, sink, rfl⟩
  · rw [hqueue, List.filterMap_append, List.append_assoc, List.map_append]
    refine (hkeys.append_left _).trans ?_
    refine List.perm_middle.trans ?_
    exact (h.outstanding.cons _).trans (List.perm_append_singleton _ _).symm
  · rw [List.map_append, List.map_singleton]
    refine List.nodup_append.mpr ⟨h.nodup, List.nodup_singleton _, fun x hx y hy ↦ ?_⟩
    obtain ⟨a, ha, rfl⟩ := List.mem_map.mp hx
    rw [List.mem_singleton.mp hy]
    exact hnew a ha
  · obtain hold | hnew' := List.mem_append.mp ha
    · exact h.fits a hold
    · rw [List.mem_singleton.mp hnew']
      exact hfits
  · rw [hperm]
    exact h.trunk source blockAddr hheld
  · rw [hqueue, List.filterMap_append] at hkey
    obtain hold | hnew' := List.mem_append.mp hkey
    · exact h.apart key hold
    · exact hcopy key hnew'

/-- A continuation queues the Grant of its Acquire, whose block nobody can write. -/
theorem settle (h : Core cfg s k) {a : AMessage} {sink : ℕ} (ha : a ∈ k.acquiring)
    (hcopy : ∀ source, k.copy source (cfg.blockAddr a.address) ≠ .trunk)
    (hqueue : s'.dQueue = s.dQueue ++ grantDataEntries cfg a sink s'.memory)
    (hmemory : ∀ addr, s'.memory.getD addr nopData = s.memory.getD addr nopData)
    (hpending : (pendingGrants s.probes).Perm
      (grantCallback cfg a sink :: pendingGrants s'.probes))
    (hperm : ∀ blockAddr, s'.perm blockAddr = s.perm blockAddr) : Core cfg s' k := by
  refine ⟨?_, fun callback hmem ↦ h.pending callback
    (hpending.symm.subset (List.mem_cons_of_mem _ hmem)), ?_, h.nodup, h.fits,
    fun source blockAddr hheld ↦ ?_, h.single, fun key hkey ↦ ?_⟩
  · rw [hqueue]
    have hfilled := h.queue.of_memory fun a _ _ i _ ↦
      hmemory (cfg.addrAligned a.address + i * cfg.dataLen)
    have hgrant : GrantQueue cfg s'.memory k.acquiring
        (grantDataEntries cfg a sink s'.memory ++ []) := .grantData ha sink .nil
    rw [List.append_nil] at hgrant
    exact hfilled.append hgrant
  · rw [hqueue, List.filterMap_append, filterMap_grantKey_grantData, List.append_assoc]
    refine List.Perm.trans (List.Perm.append_left _ ?_) h.outstanding
    have hkeys := hpending.filterMap pendingKey
    have hkey : pendingKey (grantCallback cfg a sink) = some (acquireKey cfg a) := rfl
    rw [List.filterMap_cons_some hkey] at hkeys
    exact hkeys.symm
  · rw [hperm]
    exact h.trunk source blockAddr hheld
  · rw [hqueue, List.filterMap_append, filterMap_grantKey_grantData] at hkey
    obtain hold | hnew := List.mem_append.mp hkey
    · exact h.apart key hold
    · rw [List.mem_singleton.mp hnew]
      exact hcopy

/-- A client that keeps the writable copy had it and does not give it up. -/
theorem kept_eq_trunk {param : ℕ} (hkept : Copy.kept param = .trunk) :
    Copy.reported param = .trunk ∧ param ∉ [TtoB, TtoN] := by
  unfold Copy.kept Copy.reported at *
  simp only [TtoB, TtoN, BtoN, TtoT, BtoB, List.mem_cons, List.not_mem_nil, or_false] at *
  grind

theorem reported_of_pruned {param : ℕ} (hparam : param ∈ [TtoB, TtoN]) :
    Copy.reported param = .trunk := by
  unfold Copy.reported
  rw [if_pos]
  simp only [List.mem_cons, List.not_mem_nil, or_false] at hparam ⊢
  exact hparam.imp_right Or.inl

/-- A client reports its copy and gives up a part of it. -/
theorem prune (h : Core cfg s k) {m : CMessage}
    (hreported : Copy.reported m.param = k.copy m.source (cfg.blockAddr m.address)) :
    Core cfg (Adapter.prune cfg m s)
      (k.setCopy m.source (cfg.blockAddr m.address) (Copy.kept m.param)) := by
  -- a writable copy that exists afterwards existed before, and its block is not pruned
  have hheld (source blockAddr : ℕ) (hcopy : (k.setCopy m.source (cfg.blockAddr m.address)
      (Copy.kept m.param)).copy source blockAddr = .trunk) :
      k.copy source blockAddr = .trunk ∧
        (blockAddr = cfg.blockAddr m.address → m.param ∉ [TtoB, TtoN]) := by
    rw [Caches.copy_setCopy] at hcopy
    split at hcopy
    · next hkey =>
      obtain ⟨rfl, rfl⟩ := hkey
      obtain ⟨htrunk, hparam⟩ := kept_eq_trunk hcopy
      exact ⟨hreported ▸ htrunk, fun _ ↦ hparam⟩
    · next hkey =>
      refine ⟨hcopy, fun hblock hparam ↦ hkey ⟨?_, hblock⟩⟩
      subst hblock
      refine h.single source m.source (cfg.blockAddr m.address) hcopy ?_
      rw [← hreported, reported_of_pruned hparam]
  have hframe : (Adapter.prune cfg m s).dQueue = s.dQueue ∧
      (Adapter.prune cfg m s).memory = s.memory ∧ (Adapter.prune cfg m s).probes = s.probes := by
    unfold Adapter.prune
    split <;> exact ⟨rfl, rfl, rfl⟩
  obtain ⟨hqueue, hmemory, hprobes⟩ := hframe
  refine ⟨?_, ?_, ?_, h.nodup, h.fits, fun source blockAddr hcopy ↦ ?_,
    fun source source' blockAddr hcopy hcopy' ↦ ?_, fun key hkey source hcopy ↦ ?_⟩
  · rw [hqueue, hmemory]
    exact h.queue
  · rw [hprobes]
    exact h.pending
  · rw [hqueue, hprobes]
    exact h.outstanding
  · obtain ⟨hold, hparam⟩ := hheld source blockAddr hcopy
    have hperm := h.trunk source blockAddr hold
    unfold Adapter.prune
    split
    · next hpruned =>
      have hne : blockAddr ≠ cfg.blockAddr m.address := fun hblock ↦ hparam hblock hpruned
      change (s.blockPerm.set _ _).getD _ _ = _
      rw [Dict.getD_set, if_neg hne]
      exact hperm
    · exact hperm
  · exact h.single source source' blockAddr (hheld source blockAddr hcopy).1
      (hheld source' blockAddr hcopy').1
  · rw [hqueue] at hkey
    exact h.apart key hkey source (hheld source key.2 hcopy).1

/-- The first message of a Grant reaches the client. -/
theorem receive (h : Core cfg s k) {m : DMessage} {a : AMessage} {rest : List DEntry}
    (hqueue : s.dQueue =
      some (m, some (.updatePerm (cfg.blockAddr a.address) (grantParam a.param))) :: rest)
    (ha : a ∈ k.acquiring) (hsource : m.source = a.source)
    (hrest : GrantQueue cfg s.memory k.acquiring rest) :
    Core cfg (updatePerm (cfg.blockAddr a.address) (grantParam a.param) { s with dQueue := rest })
      (Caches.receive cfg m (cfg.blockAddr a.address) (grantParam a.param) k) := by
  obtain ⟨a', l₁, l₂, -, hmatch, hsplit, herase⟩ :=
    List.exists_of_eraseP (p := fun a' ↦ decide (a'.source = m.source ∧
      cfg.blockAddr a'.address = cfg.blockAddr a.address)) ha (by simp [hsource])
  have ha' : a' ∈ k.acquiring := by
    rw [hsplit]
    exact List.mem_append_right _ List.mem_cons_self
  have hsame : a' = a :=
    List.inj_on_of_nodup_map h.nodup ha' ha (of_decide_eq_true hmatch).2
  subst hsame
  have hperm : k.acquiring.Perm (a' :: (l₁ ++ l₂)) := by
    rw [hsplit]
    exact List.perm_middle
  have hnodup : ((a' :: (l₁ ++ l₂)).map fun a ↦ cfg.blockAddr a.address).Nodup :=
    (hperm.map _).nodup_iff.mp h.nodup
  rw [List.map_cons, List.nodup_cons] at hnodup
  have hkey : grantKey (some (m, some (.updatePerm (cfg.blockAddr a'.address)
      (grantParam a'.param)))) = some (acquireKey cfg a') := by
    unfold acquireKey
    rw [← hsource]
    rfl
  -- the keys of the other Grants are those of the other Acquires
  have houtstanding : (rest.filterMap grantKey ++
      (pendingGrants s.probes).filterMap pendingKey).Perm
      ((l₁ ++ l₂).map (acquireKey cfg)) := by
    have hkeys := h.outstanding.trans (hperm.map (acquireKey cfg))
    rw [hqueue, List.filterMap_cons_some hkey, List.map_cons, List.cons_append] at hkeys
    exact hkeys.cons_inv
  have hotherBlock {key : ℕ × ℕ} (hmem : key ∈ rest.filterMap grantKey ++
      (pendingGrants s.probes).filterMap pendingKey) : key.2 ≠ cfg.blockAddr a'.address := by
    intro hblock
    obtain ⟨b, hb, rfl⟩ := List.mem_map.mp (houtstanding.subset hmem)
    exact hnodup.1 (List.mem_map.mpr ⟨b, hb, hblock⟩)
  have hother (b : AMessage) (hb : b ∈ k.acquiring)
      (hmem : acquireKey cfg b ∈ rest.filterMap grantKey ++
        (pendingGrants s.probes).filterMap pendingKey) : b ∈ l₁ ++ l₂ := by
    obtain rfl | hb := List.mem_cons.mp (hperm.subset hb)
    · exact absurd rfl (hotherBlock hmem)
    · exact hb
  -- the Grant was queued, so nobody can write its block
  have hfree (source : ℕ) : k.copy source (cfg.blockAddr a'.address) ≠ .trunk := by
    refine h.apart (acquireKey cfg a') ?_ source
    rw [hqueue, List.filterMap_cons_some hkey]
    exact List.mem_cons_self
  have holdQueue : ∀ key ∈ rest.filterMap grantKey, key ∈ s.dQueue.filterMap grantKey := by
    rw [hqueue, List.filterMap_cons_some hkey]
    exact fun _ hmem ↦ List.mem_cons_of_mem _ hmem
  have hreceive : Caches.receive cfg m (cfg.blockAddr a'.address) (grantParam a'.param) k =
      ({ k with acquiring := l₁ ++ l₂ } : Caches).setCopy m.source (cfg.blockAddr a'.address)
        (Copy.granted (grantParam a'.param)) := by
    unfold Caches.receive
    rw [herase]
  -- a writable copy that exists afterwards is the new one or existed before, of another block
  have hheld (source blockAddr : ℕ) (hcopy : (({ k with acquiring := l₁ ++ l₂ } : Caches).setCopy
      m.source (cfg.blockAddr a'.address) (Copy.granted (grantParam a'.param))).copy source
        blockAddr = .trunk) :
      (source = m.source ∧ blockAddr = cfg.blockAddr a'.address ∧ grantParam a'.param = toT) ∨
        (k.copy source blockAddr = .trunk ∧ blockAddr ≠ cfg.blockAddr a'.address) := by
    rw [Caches.copy_setCopy] at hcopy
    split at hcopy
    · next hnew =>
      refine Or.inl ⟨hnew.1, hnew.2, ?_⟩
      by_contra hparam
      rw [Copy.granted, if_neg hparam] at hcopy
      cases hcopy
    · next hnew =>
      refine Or.inr ⟨hcopy, ?_⟩
      rintro rfl
      exact hfree source hcopy
  have hperm' (blockAddr : ℕ) (hne : blockAddr ≠ cfg.blockAddr a'.address) :
      (updatePerm (cfg.blockAddr a'.address) (grantParam a'.param) { s with dQueue := rest }).perm
        blockAddr = s.perm blockAddr := by
    unfold updatePerm
    split
    · exact (Dict.getD_set _ _ _ _ _).trans (if_neg hne)
    · rfl
  obtain ⟨hdQueue, hmemory, hprobes, -, -⟩ := updatePerm_frame (cfg.blockAddr a'.address)
    (grantParam a'.param) { s with dQueue := rest }
  rw [hreceive]
  refine ⟨?_, fun callback hmem ↦ ?_, ?_, hnodup.2,
    fun b hb ↦ h.fits b (hperm.symm.subset (List.mem_cons_of_mem _ hb)),
    fun source blockAddr hcopy ↦ ?_, fun source source' blockAddr hcopy hcopy' ↦ ?_,
    fun key hkey' source hcopy ↦ ?_⟩
  · rw [hdQueue, hmemory]
    exact hrest.mono fun b hb hkey ↦ hother b hb (List.mem_append_left _ hkey)
  · rw [hprobes] at hmem
    obtain ⟨b, hb, sink, rfl⟩ := h.pending callback hmem
    refine ⟨b, hother b hb (List.mem_append_right _ ?_), sink, rfl⟩
    exact List.mem_filterMap.mpr ⟨_, hmem, rfl⟩
  · rw [hdQueue, hprobes]
    exact houtstanding
  · obtain ⟨rfl, rfl, hparam⟩ | ⟨hold, hne⟩ := hheld source blockAddr hcopy
    · rw [updatePerm, if_pos hparam]
      exact (Dict.getD_set _ _ _ _ _).trans (if_pos rfl)
    · rw [hperm' blockAddr hne]
      exact h.trunk source blockAddr hold
  · obtain ⟨rfl, rfl, -⟩ | ⟨hold, hne⟩ := hheld source blockAddr hcopy
    · obtain ⟨rfl, -⟩ | ⟨-, hne⟩ := hheld source' _ hcopy'
      · rfl
      · exact absurd rfl hne
    · obtain ⟨-, heq, -⟩ | ⟨hold', -⟩ := hheld source' blockAddr hcopy'
      · exact absurd heq hne
      · exact h.single source source' blockAddr hold hold'
  · rw [hdQueue] at hkey'
    obtain ⟨-, heq, -⟩ | ⟨hold, -⟩ := hheld source key.2 hcopy
    · exact hotherBlock (List.mem_append_left _ hkey') heq
    · exact h.apart key (holdQueue key hkey') source hold

end Core

/-- A step that pushes no Grant, writes at most the words of `written` and changes no
permission. -/
structure Served (written : ℕ → Prop) (s s' : State) : Prop where
  dQueue : ∃ entries, s'.dQueue = s.dQueue ++ entries ∧ ∀ entry ∈ entries, grantKey entry = none
  memory : ∀ addr, ¬written addr → s'.memory.getD addr nopData = s.memory.getD addr nopData
  pending : (pendingGrants s'.probes).Perm (pendingGrants s.probes)
  blockPerm : s'.blockPerm = s.blockPerm
  cOngoings : s'.cOngoings = s.cOngoings

/-- A step that leaves the queue, the memory, the permissions and the pending Grants alone. -/
theorem served_of_eq {written : ℕ → Prop} (hqueue : s'.dQueue = s.dQueue)
    (hmemory : s'.memory = s.memory)
    (hpending : (pendingGrants s'.probes).Perm (pendingGrants s.probes))
    (hperm : s'.blockPerm = s.blockPerm) (hc : s'.cOngoings = s.cOngoings) :
    Served written s s' := by
  refine ⟨⟨[], ?_, List.forall_mem_nil _⟩, fun addr _ ↦ ?_, hpending, hperm, hc⟩
  · rw [hqueue, List.append_nil]
  · rw [hmemory]

theorem Core.served {written : ℕ → Prop} (h : Core cfg s k) (hserved : Served written s s')
    (hwritten : ∀ a ∈ k.acquiring, acquireKey cfg a ∈ s.dQueue.filterMap grantKey →
      ∀ i < cfg.burstLen a.size, ¬written (cfg.addrAligned a.address + i * cfg.dataLen))
    {k' : Caches}
    (hcopies : k'.copies = k.copies) (hacquiring : k'.acquiring = k.acquiring) :
    Core cfg s' k' := by
  obtain ⟨entries, hqueue, hentries⟩ := hserved.dQueue
  refine h.frame hqueue hentries
    (fun a ha hkey i hi ↦ hserved.memory _ (hwritten a ha hkey i hi))
    hserved.pending (fun blockAddr ↦ ?_) hcopies hacquiring
  unfold State.perm
  rw [hserved.blockPerm]

section Handlers

variable {m : AMessage} {written : ℕ → Prop}

theorem served_push {entries : List DEntry} (hentries : ∀ entry ∈ entries, grantKey entry = none) :
    Served written s (s.push entries) :=
  ⟨⟨entries, rfl, hentries⟩, fun _ _ ↦ rfl, List.Perm.refl _, rfl, rfl⟩

/-- A request whose continuation is no Grant. -/
theorem served_retrieveBlock {limbo : Option ℕ} (hconsistent : s.probes.Consistent limbo)
    {p : Probe Callback} (hkey : pendingKey p.callback = none) (h : s.retrieveBlock p = .ok s') :
    Served written s s' ∧ s'.aOngoings = s.aOngoings := by
  obtain ⟨probes, hprobes, rfl⟩ := State.retrieveBlock_eq_ok.mp h
  refine ⟨served_of_eq rfl rfl ?_ rfl rfl, rfl⟩
  exact pendingGrants_of_cons_other (hconsistent.perm_pending_retrieveBlock hprobes) hkey

theorem served_accessAckDataCb (burstLen addr size source : ℕ) :
    Served written s (accessAckDataCb cfg burstLen addr size source s) := by
  rw [accessAckDataCb_eq]
  refine ⟨⟨_, rfl, fun entry hentry ↦ ?_⟩, fun addr' _ ↦ getD_filled _ _ _ _, List.Perm.refl _,
    rfl, rfl⟩
  obtain ⟨m, -, rfl⟩ := List.mem_map.mp hentry
  rfl

theorem aGet_served (hconsistent : s.probes.Consistent none) (h : aGet cfg m s = .ok s') :
    Served written s s' ∧ s'.aOngoings = s.aOngoings := by
  unfold aGet at h
  dsimp only at h
  split at h
  · exact served_retrieveBlock hconsistent rfl h
  · obtain rfl := Except.ok.inj h
    refine ⟨served_accessAckDataCb _ _ _ _, ?_⟩
    rw [accessAckDataCb_eq]
    rfl

/-- A step that writes one word. -/
theorem served_write {addr data : ℕ} {entries : List DEntry}
    (hqueue : s'.dQueue = s.dQueue ++ entries) (hentries : ∀ entry ∈ entries, grantKey entry = none)
    (hmemory : s'.memory = s.memory.set addr data) (hprobes : s'.probes = s.probes)
    (hperm : s'.blockPerm = s.blockPerm)
    (hc : s'.cOngoings = s.cOngoings) : Served (· = addr) s s' := by
  refine ⟨⟨entries, hqueue, hentries⟩, fun addr' hne ↦ ?_, by rw [hprobes], hperm, hc⟩
  rw [hmemory, Dict.getD_set, if_neg hne]

theorem putDirect_served (m : AMessage) (s : State) :
    Served (· = cfg.addrAligned m.address + s.aOngoings.getD m.source 0 * cfg.dataLen) s
      (putDirect cfg m s) := by
  by_cases hlast : s.aOngoings.getD m.source 0 + 1 = cfg.burstLen m.size
  · rw [putDirect_of_last hlast]
    exact served_write rfl (fun entry hentry ↦ by rw [List.mem_singleton.mp hentry]; rfl) rfl rfl
      rfl rfl
  · rw [putDirect_of_not_last hlast]
    exact served_write (List.append_nil _).symm (List.forall_mem_nil _) rfl rfl rfl rfl

theorem putDeferred_served (hconsistent : s.probes.Consistent none)
    (h : putDeferred cfg m s = .ok s') : Served written s s' ∧ s'.aOngoings = s.aOngoings := by
  unfold putDeferred at h
  dsimp only at h
  obtain ⟨s₁, hprobe, hstore⟩ := bind_eq_ok.mp h
  have hstored : ∃ bursts, s' = { s₁ with bursts := bursts } := by
    unfold storeBeat at hstore
    split at hstore
    · cases hstore
    · exact ⟨_, (Except.ok.inj hstore).symm⟩
  obtain ⟨bursts, rfl⟩ := hstored
  unfold putProbe at hprobe
  split at hprobe
  · obtain ⟨probes, hprobes, rfl⟩ := State.retrieveBlock_eq_ok.mp hprobe
    refine ⟨served_of_eq rfl rfl ?_ rfl rfl, rfl⟩
    exact pendingGrants_of_cons_other (hconsistent.perm_pending_retrieveBlock hprobes) rfl
  · obtain rfl := Except.ok.inj hprobe
    exact ⟨served_of_eq rfl rfl (List.Perm.refl _) rfl rfl, rfl⟩

theorem aAtomic_served {label : String} {op : ℕ → ℕ → Option ℤ} {callback : ℕ → ℕ → Callback}
    (hconsistent : s.probes.Consistent none)
    (hkey : ∀ operand1 offset, pendingKey (callback operand1 offset) = none)
    (h : aAtomic cfg label op callback m s = .ok s') :
    Served (fun addr ↦ s.perm (cfg.blockAddr m.address) = .tip ∧
      addr = cfg.addrAligned m.address + s.aOngoings.getD m.source 0 * cfg.dataLen) s s' ∧
      s'.aOngoings = s.aOngoings := by
  unfold aAtomic at h
  dsimp only at h
  obtain ⟨-, -, h⟩ := bind_eq_ok.mp h
  obtain ⟨offset, -, h⟩ := bind_eq_ok.mp h
  split at h
  · exact served_retrieveBlock hconsistent (hkey _ _) h
  · next htip =>
    split at h
    · cases h
    · obtain rfl := Except.ok.inj h
      refine ⟨⟨⟨_, rfl, fun entry hentry ↦ by rw [List.mem_singleton.mp hentry]; rfl⟩,
        fun addr hne ↦ ?_, List.Perm.refl _, rfl, rfl⟩, rfl⟩
      change (Dict.set (fillWord s.memory _) _ _).getD addr nopData = _
      rw [Dict.getD_set, if_neg fun heq ↦ hne ⟨not_not.mp htip, heq⟩, getD_fillWord]

/-- The handlers of the messages other than Acquires. -/
theorem aDispatch_served (hacquire : isAcquire m.opcode = false)
    (hconsistent : s.probes.Consistent none) (h : aDispatch cfg m s = .ok s') :
    Served (fun addr ↦ isWrite m.opcode ∧ s.perm (cfg.blockAddr m.address) = .tip ∧
      addr = cfg.addrAligned m.address + s.aOngoings.getD m.source 0 * cfg.dataLen) s s' ∧
    (hasBurst m.opcode = true → s.perm (cfg.blockAddr m.address) = .tip →
      s' = putDirect cfg m s) ∧
    (hasBurst m.opcode = false ∨ s.perm (cfg.blockAddr m.address) ≠ .tip →
      s'.aOngoings = s.aOngoings) := by
  have hnone : Served (fun addr ↦ isWrite m.opcode ∧ s.perm (cfg.blockAddr m.address) = .tip ∧
      addr = cfg.addrAligned m.address + s.aOngoings.getD m.source 0 * cfg.dataLen) s s :=
    served_of_eq rfl rfl (List.Perm.refl _) rfl rfl
  have hnoBurst {opcode : AOpcode} (hopcode : hasBurst opcode = false) {P : Prop}
      (hburst : hasBurst opcode = true) : P := by
    rw [hopcode] at hburst
    exact absurd hburst Bool.false_ne_true
  unfold aDispatch at h
  cases hop : m.opcode with
  | get =>
    rw [hop] at h
    obtain ⟨hserved, hongoings⟩ := aGet_served hconsistent h
    exact ⟨hserved, hnoBurst rfl, fun _ ↦ hongoings⟩
  | putFullData | putPartialData =>
    rw [hop] at h
    dsimp only at h
    unfold aPut at h
    split at h
    · next hperm =>
      obtain ⟨hserved, hongoings⟩ := putDeferred_served hconsistent h
      exact ⟨hserved, fun _ htip ↦ absurd htip hperm, fun _ ↦ hongoings⟩
    · next hperm =>
      obtain rfl := Except.ok.inj h
      have htip := not_not.mp hperm
      refine ⟨?_, fun _ _ ↦ rfl, fun hcase ↦ ?_⟩
      · have hserved : Served _ s (putDirect cfg m s) := putDirect_served m s
        exact ⟨hserved.dQueue, fun addr hne ↦ hserved.memory addr fun heq ↦ hne ⟨rfl, htip, heq⟩,
          hserved.pending, hserved.blockPerm, hserved.cOngoings⟩
      · exact absurd htip (hcase.resolve_left (by decide))
  | arithmeticData | logicalData =>
    rw [hop] at h
    dsimp only at h
    split at h
    · obtain ⟨hserved, hongoings⟩ := aAtomic_served hconsistent (fun _ _ ↦ rfl) h
      refine ⟨⟨hserved.dQueue, fun addr hne ↦ hserved.memory addr fun heq ↦ hne ⟨rfl, heq⟩,
        hserved.pending, hserved.blockPerm, hserved.cOngoings⟩, hnoBurst rfl,
        fun _ ↦ hongoings⟩
    · obtain rfl := Except.ok.inj h
      rw [hop] at hnone
      exact ⟨hnone, hnoBurst rfl, fun _ ↦ rfl⟩
  | intent =>
    rw [hop] at h
    obtain rfl := Except.ok.inj h
    split
    · exact ⟨served_push fun entry hentry ↦ by rw [List.mem_singleton.mp hentry]; rfl,
        hnoBurst rfl, fun _ ↦ rfl⟩
    · rw [hop] at hnone
      exact ⟨hnone, hnoBurst rfl, fun _ ↦ rfl⟩
  | acquireBlock | acquirePerm =>
    rw [hop] at hacquire
    exact absurd hacquire (by decide)

end Handlers

end ProcessorFuzz.TileLink.Adapter
