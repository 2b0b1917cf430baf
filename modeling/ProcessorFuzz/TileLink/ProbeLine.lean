import ProcessorFuzz.TileLink.AdapterSteps

/-!
# The line of probes

The adapter has one source for its probes, so they are answered in the order in which they are
requested: one is out and the others wait in line. A continuation that requests a probe joins the
line at its end, before the next probe leaves.
-/

namespace ProcessorFuzz.TileLink.Adapter

open Library

variable {cfg : Config} {s s' : State}

/-- The probes in line: the first one is out, and the others wait for its source. -/
structure ProbeLine (probes : Probes Callback) (line : List (Probe Callback)) : Prop where
  initList : probes.bSrcs.initList = [0]
  consistent : probes.Consistent none
  registered : probes.registered 0 = line.head?.map Probe.callback
  waiting : probes.bSrcs.eventQueue = line.tail

namespace ProbeLine

variable {probes probes' : Probes Callback} {line : List (Probe Callback)} {p : Probe Callback}

theorem frame (h : ProbeLine probes line) (hsrcs : probes'.bSrcs = probes.bSrcs)
    (hcallback : probes'.bCallback = probes.bCallback) : ProbeLine probes' line where
  initList := hsrcs ▸ h.initList
  consistent := h.consistent.frame hsrcs hcallback
  registered := by
    rw [← h.registered, Probes.registered, hcallback]
    rfl
  waiting := hsrcs ▸ h.waiting

theorem mem_initList (h : ProbeLine probes line) : 0 ∈ probes.bSrcs.initList := by
  rw [h.initList]
  exact List.mem_singleton_self 0

/-- The source is in use while somebody is in line. -/
theorem freeList_eq_nil_iff (h : ProbeLine probes line) :
    probes.bSrcs.freeList = [] ↔ line ≠ [] := by
  have hbusy : 0 ∉ probes.bSrcs.freeList ↔ line ≠ [] := by
    have hiff := h.consistent.registered_iff 0
    rw [h.registered] at hiff
    cases line with
    | nil => simpa [h.mem_initList] using hiff
    | cons p line => simpa [h.mem_initList] using hiff
  rw [← hbusy, List.eq_nil_iff_forall_not_mem]
  refine ⟨fun hnil ↦ hnil 0, fun hzero src hsrc ↦ ?_⟩
  have hmem := probes.bSrcs.freeList_subset hsrc
  rw [h.initList, List.mem_singleton] at hmem
  exact hzero (hmem ▸ hsrc)

/-- A request joins the line, and goes out at once if nobody is in it. -/
theorem retrieveBlock (h : ProbeLine probes line) (p : Probe Callback) :
    ∃ probes', probes.retrieveBlock p = .ok probes' ∧ ProbeLine probes' (line ++ [p]) ∧
      probes'.bQueue = probes.bQueue ++ if line = [] then [p.message 0] else [] := by
  cases line with
  | nil =>
    have hfree : probes.bSrcs.freeList ≠ [] := fun hnil ↦ h.freeList_eq_nil_iff.mp hnil rfl
    obtain ⟨src, hsrc, hissue⟩ := h.consistent.retrieveBlock_eq_ok hfree p
    have hmem := probes.bSrcs.freeList_subset hsrc
    rw [h.initList, List.mem_singleton] at hmem
    subst hmem
    refine ⟨_, hissue, ⟨h.initList, h.consistent.issue hsrc, ?_, h.waiting⟩, rfl⟩
    rw [Probes.registered_issue, if_pos rfl]
    rfl
  | cons q line =>
    have hfree := h.freeList_eq_nil_iff.mpr (List.cons_ne_nil q line)
    refine ⟨_, Probes.retrieveBlock_eq_wait hfree p,
      ⟨h.initList, h.consistent.wait hfree p, h.registered, ?_⟩, (List.append_nil _).symm⟩
    exact congrArg (· ++ [p]) h.waiting

/-- A release lets the next probe out. -/
theorem of_releaseSource (hconsistent : probes.Consistent (some 0))
    (hinit : probes.bSrcs.initList = [0]) (hwaiting : probes.bSrcs.eventQueue = line) :
    ∃ probes', probes.releaseSource 0 = .ok probes' ∧ ProbeLine probes' line ∧
      probes'.bQueue = probes.bQueue ++ (line.head?.map (·.message 0)).toList := by
  obtain ⟨hmem, hbusy⟩ := hconsistent.limbo_mem 0 rfl
  have heq : probes.bSrcs.release 0 =
      .ok (probes.bSrcs.eventQueue.head?, probes.bSrcs.restore 0 hmem hbusy) :=
    FreeList.release_eq_ok_iff.mpr ⟨hmem, hbusy, rfl⟩
  unfold Probes.releaseSource
  rw [heq, ok_bind]
  cases line with
  | nil =>
    rw [hwaiting]
    have hrestore := hconsistent.restore hwaiting hmem hbusy
    refine ⟨_, rfl, ⟨hinit, hrestore, ?_, congrArg List.tail hwaiting⟩, (List.append_nil _).symm⟩
    have hnone : ¬ (probes.registered 0).isSome := fun hsome ↦
      ((hconsistent.registered_iff 0).mp hsome).2.2 rfl
    exact Option.not_isSome_iff_eq_none.mp hnone
  | cons p line =>
    rw [hwaiting]
    obtain ⟨hok, hreissue⟩ := hconsistent.reissue hwaiting hmem hbusy
    refine ⟨_, hok, ⟨hinit, hreissue, ?_, congrArg List.tail hwaiting⟩, rfl⟩
    rw [Probes.registered_issue, if_pos rfl]
    rfl

/-- While the first probe is acknowledged, its continuation joins the line behind the others. -/
theorem exists_requests (h : ProbeLine probes (p :: line)) (requests : List (Probe Callback)) :
    ∃ probes', requests.foldlM (fun probes p ↦ probes.retrieveBlock p) (probes.unregister 0) =
        .ok probes' ∧ probes'.Consistent (some 0) ∧ probes'.bSrcs.initList = [0] ∧
      probes'.bSrcs.eventQueue = line ++ requests ∧ probes'.bQueue = probes.bQueue := by
  have hfree := h.freeList_eq_nil_iff.mpr (List.cons_ne_nil p line)
  have hbusy : 0 ∉ probes.bSrcs.freeList := by
    rw [hfree]
    exact List.not_mem_nil
  have hwaits {probes₁ : Probes Callback} (hconsistent : probes₁.Consistent (some 0))
      (hinit : probes₁.bSrcs.initList = [0]) (hfree₁ : probes₁.bSrcs.freeList = []) :
      ∃ probes', requests.foldlM (fun probes p ↦ probes.retrieveBlock p) probes₁ = .ok probes' ∧
        probes'.Consistent (some 0) ∧ probes'.bSrcs.initList = [0] ∧
        probes'.bSrcs.eventQueue = probes₁.bSrcs.eventQueue ++ requests ∧
        probes'.bQueue = probes₁.bQueue := by
    induction requests generalizing probes₁ with
    | nil => exact ⟨probes₁, rfl, hconsistent, hinit, (List.append_nil _).symm, rfl⟩
    | cons q requests ih =>
      obtain ⟨probes', hfold, hconsistent', hinit', hqueue, hsent⟩ :=
        @ih (probes₁.wait q) (hconsistent.wait hfree₁ q) hinit hfree₁
      refine ⟨probes', ?_, hconsistent', hinit', ?_, hsent⟩
      · rw [List.foldlM_cons, Probes.retrieveBlock_eq_wait hfree₁, ok_bind, hfold]
      · rw [hqueue]
        exact List.append_assoc _ [q] requests
  obtain ⟨probes', hfold, hconsistent, hinit, hqueue, hsent⟩ :=
    hwaits (h.consistent.unregister h.mem_initList hbusy) h.initList hfree
  refine ⟨probes', hfold, hconsistent, hinit, ?_, hsent⟩
  rw [hqueue]
  exact congrArg (· ++ requests) h.waiting

end ProbeLine

/-- Continuations that a flush may find or makes: reads, its own and that of the host. -/
inductive Harmless : Callback → Prop
  | read (burstLen addrAligned size source : ℕ) :
    Harmless (.accessAckData burstLen addrAligned size source)
  | flush (probeAddrs : List ℕ) : Harmless (.probeBlocksRec probeAddrs)
  | host : Harmless .enableProbe

/-- What such a continuation changes besides the probes. -/
structure Continued (callback : Callback) (s s' : State) : Prop where
  blockPerm : s'.blockPerm = s.blockPerm
  memory : ∀ addr, s'.memory.getD addr nopData = s.memory.getD addr nopData
  dQueue : ∃ ms : List DMessage, s'.dQueue = s.dQueue ++ ms.map plain
  drive : s'.drive = if callback = .probeBlocksRec [] then false else s.drive
  probeEn : s'.probeEn = if callback = .enableProbe then true else s.probeEn
  rest : ∃ memory dQueue drive probeEn probes, s' = { s with
    memory := memory
    dQueue := dQueue
    drive := drive
    probeEn := probeEn
    probes := probes }

theorem exists_runCallback_harmless {callback : Callback} (h : Harmless callback)
    {probes : Probes Callback}
    (hrequests : (callback.requests cfg).foldlM (fun probes p ↦ probes.retrieveBlock p) s.probes =
      .ok probes) :
    ∃ s', runCallback cfg callback s = .ok s' ∧ s'.probes = probes ∧ Continued callback s s' := by
  cases h with
  | read burstLen addrAligned size source =>
    obtain rfl := Except.ok.inj hrequests
    refine ⟨_, rfl, ?_, ?_⟩
    · rw [accessAckDataCb_eq]
      rfl
    · rw [accessAckDataCb_eq]
      exact ⟨rfl, fun addr ↦ getD_filled _ _ addr s.memory, ⟨_, rfl⟩, rfl, rfl,
        ⟨_, _, _, _, _, rfl⟩⟩
  | flush probeAddrs =>
    cases probeAddrs with
    | nil =>
      obtain rfl := Except.ok.inj hrequests
      exact ⟨_, rfl, rfl, rfl, fun _ ↦ rfl, ⟨[], (List.append_nil _).symm⟩, rfl, rfl,
        ⟨_, _, _, _, _, rfl⟩⟩
    | cons addr rest =>
      have hrequest : s.probes.retrieveBlock (flushProbe cfg addr rest) = .ok probes := by
        have hfold : ([flushProbe cfg addr rest].foldlM (fun probes p ↦ probes.retrieveBlock p)
          s.probes) = .ok probes := hrequests
        rw [List.foldlM_cons] at hfold
        obtain ⟨probes₁, hretrieve, hrest⟩ := bind_eq_ok.mp hfold
        obtain rfl := Except.ok.inj hrest
        exact hretrieve
      have hrun : runCallback cfg (.probeBlocksRec (addr :: rest)) s =
          .ok { s with probes := probes } := State.retrieveBlock_eq_ok.mpr ⟨probes, hrequest, rfl⟩
      exact ⟨_, hrun, rfl, rfl, fun _ ↦ rfl, ⟨[], (List.append_nil _).symm⟩, rfl, rfl,
        ⟨_, _, _, _, _, rfl⟩⟩
  | host =>
    obtain rfl := Except.ok.inj hrequests
    exact ⟨_, rfl, rfl, rfl, fun _ ↦ rfl, ⟨[], (List.append_nil _).symm⟩, rfl, rfl,
      ⟨_, _, _, _, _, rfl⟩⟩

/-- The acknowledgement of the first probe lets the next one out. -/
theorem ProbeLine.exists_acknowledge {p : Probe Callback} {line : List (Probe Callback)}
    (h : ProbeLine s.probes (p :: line)) (hharmless : Harmless p.callback) :
    ∃ s', acknowledge cfg 0 s = .ok s' ∧
      ProbeLine s'.probes (line ++ p.callback.requests cfg) ∧
      s'.probes.bQueue = s.probes.bQueue ++
        ((line ++ p.callback.requests cfg).head?.map (·.message 0)).toList ∧
      Continued p.callback s s' := by
  obtain ⟨probes₁, hfold, hconsistent, hinit, hqueue, hsent⟩ :=
    h.exists_requests (p.callback.requests cfg)
  obtain ⟨s₁, hrun, hprobes, hcontinued⟩ :=
    @exists_runCallback_harmless cfg { s with probes := s.probes.unregister 0 } _ hharmless probes₁
      hfold
  obtain ⟨probes₂, hrelease, hline, hsent₂⟩ := ProbeLine.of_releaseSource hconsistent hinit hqueue
  refine ⟨{ s₁ with probes := probes₂ }, ?_, hline, ?_, ?_⟩
  · rw [acknowledge_of_registered h.registered, hrun, ok_bind, hprobes, hrelease]
    rfl
  · rw [hsent₂, hsent]
  · obtain ⟨hperm, hmemory, hdQueue, hdrive, hprobeEn, hrest⟩ := hcontinued
    refine ⟨hperm, hmemory, hdQueue, hdrive, hprobeEn, ?_⟩
    obtain ⟨memory, dQueue, drive, probeEn, probes, rfl⟩ := hrest
    exact ⟨_, _, _, _, _, rfl⟩

end ProcessorFuzz.TileLink.Adapter
