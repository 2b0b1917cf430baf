import ProcessorFuzz.TileLink.FlushSteps

/-!
# Runs of a flush

One probe of the flush is in line at a time. The answer to it puts the probe of the next block at
the end of the line, behind at most one probe of the host, so the flush ends after a bounded number
of answers.
-/

namespace ProcessorFuzz.TileLink.Adapter

open Library

variable {cfg : Config} {s₀ s s' : State} {o : Owner} {line₀ served line : List (Probe Callback)}

/-- The flush has come to the block `addr`, and `rest` remains. `before` and `behind` are the probes
in line before its probe and after it. -/
structure Waiting (cfg : Config) (s₀ : State) (line₀ : List (Probe Callback)) (s : State)
    (served before behind : List (Probe Callback)) (addr : ℕ) (rest : List ℕ) : Prop where
  drive : s.drive = true
  others : ∀ p ∈ before, isFlush p = false
  hosts : ∀ p ∈ behind, p.callback = .enableProbe
  done : served.filter isFlush ++ flushProbes cfg (addr :: rest) =
    flushProbes cfg (openBlocks s₀)
  perm : ∀ blockAddr, s.perm blockAddr ≠ .tip → blockAddr ∈ addr :: rest
  blocks : ∀ blockAddr ∈ addr :: rest, cfg.blockAddr blockAddr = blockAddr
  bound : served.length + before.length + 2 * rest.length + 2 ≤
    line₀.length + 2 * (openBlocks s₀).length

/-- All probes of the flush have been answered. -/
structure Finished (cfg : Config) (s₀ s : State) (served line : List (Probe Callback)) : Prop where
  drive : s.drive = false
  done : served.filter isFlush = flushProbes cfg (openBlocks s₀)
  others : ∀ p ∈ line, isFlush p = false
  perm : ∀ blockAddr, s.perm blockAddr = .tip

inductive Progress (cfg : Config) (s₀ : State) (line₀ : List (Probe Callback)) (s : State)
    (served : List (Probe Callback)) : List (Probe Callback) → Prop
  | waiting {before behind : List (Probe Callback)} {addr : ℕ} {rest : List ℕ}
    (h : Waiting cfg s₀ line₀ s served before behind addr rest) :
    Progress cfg s₀ line₀ s served (before ++ flushProbe cfg addr rest :: behind)
  | finished {line : List (Probe Callback)} (h : Finished cfg s₀ s served line) :
    Progress cfg s₀ line₀ s served line

theorem isFlush_of_host {p : Probe Callback} (h : p.callback = .enableProbe) :
    isFlush p = false := by
  unfold isFlush
  rw [h]

namespace Progress

theorem silent (h : Progress cfg s₀ line₀ s served line) (hdrive : s'.drive = s.drive)
    (hperm : ∀ blockAddr, s.perm blockAddr = .tip → s'.perm blockAddr = .tip) :
    Progress cfg s₀ line₀ s' served line := by
  cases h with
  | waiting h =>
    obtain ⟨hrun, hbefore, hbehind, hserved, hopen, hblocks, hbound⟩ := h
    exact .waiting ⟨hdrive.trans hrun, hbefore, hbehind, hserved,
      fun blockAddr hne ↦ hopen blockAddr (mt (hperm blockAddr) hne), hblocks, hbound⟩
  | finished h =>
    obtain ⟨hend, hserved, hline, htip⟩ := h
    exact .finished ⟨hdrive.trans hend, hserved, hline,
      fun blockAddr ↦ hperm blockAddr (htip blockAddr)⟩

/-- A probe of the host joins the line. -/
theorem host (h : Progress cfg s₀ line₀ s served line) {p : Probe Callback}
    (hhost : p.callback = .enableProbe) : Progress cfg s₀ line₀ s served (line ++ [p]) := by
  cases h with
  | @waiting before behind addr rest h =>
    obtain ⟨hrun, hbefore, hbehind, hserved, hopen, hblocks, hbound⟩ := h
    rw [List.append_assoc, List.cons_append]
    refine .waiting ⟨hrun, hbefore, ?_, hserved, hopen, hblocks, hbound⟩
    exact List.forall_mem_append.mpr ⟨hbehind, List.forall_mem_singleton.mpr hhost⟩
  | finished h =>
    obtain ⟨hend, hserved, hline, htip⟩ := h
    refine .finished ⟨hend, hserved, ?_, htip⟩
    exact List.forall_mem_append.mpr
      ⟨hline, List.forall_mem_singleton.mpr (isFlush_of_host hhost)⟩

/-- A probe that is not of the flush requests nothing when it is answered. -/
theorem requests_of_not_isFlush {p : Probe Callback} (h : isFlush p = false) :
    p.callback.requests cfg = [] ∧ p.callback ≠ .probeBlocksRec [] := by
  unfold isFlush at h
  cases hcallback : p.callback with
  | probeBlocksRec probeAddrs => simp [hcallback] at h
  | _ => exact ⟨rfl, nofun⟩

/-- The first probe in line is answered. -/
theorem answer {p : Probe Callback} {behind : List (Probe Callback)}
    (h : Progress cfg s₀ line₀ s served (p :: behind)) (hrun : s.drive = true)
    (honce : (p :: behind).countP isHost ≤ 1)
    (hdrive : s'.drive = if p.callback = .probeBlocksRec [] then false else s.drive)
    (hperm : ∀ blockAddr, s.perm blockAddr = .tip → s'.perm blockAddr = .tip)
    (htip : p.param ≠ toT → s'.perm (cfg.blockAddr p.addr) = .tip) :
    Progress cfg s₀ line₀ s' (served ++ [p]) (behind ++ p.callback.requests cfg) := by
  generalize hline : p :: behind = line at h
  cases h with
  | finished h => exact absurd hrun (by simp [h.drive])
  | @waiting before behind' addr rest h =>
    obtain ⟨-, hbefore, hbehind, hserved, hopen, hblocks, hbound⟩ := h
    cases before with
    | cons q before =>
      obtain ⟨rfl, rfl⟩ := List.cons.inj hline
      obtain ⟨hq, hbefore⟩ := List.forall_mem_cons.mp hbefore
      obtain ⟨hrequests, hne⟩ := @requests_of_not_isFlush cfg p hq
      rw [hrequests, List.append_nil]
      rw [if_neg hne] at hdrive
      refine .waiting ⟨hdrive.trans hrun, hbefore, hbehind, ?_,
        fun blockAddr hnot ↦ hopen blockAddr (mt (hperm blockAddr) hnot), hblocks, ?_⟩
      · rw [List.filter_append, List.filter_singleton, hq, List.append_assoc]
        exact hserved
      · rw [List.length_append, List.length_singleton]
        rw [List.length_cons] at hbound
        omega
    | nil =>
      obtain ⟨rfl, rfl⟩ := List.cons.inj hline
      have hclosed := htip (show toN ≠ toT by decide)
      have hopen' : ∀ blockAddr, s'.perm blockAddr ≠ .tip → blockAddr ∈ rest := by
        intro blockAddr hne
        rcases List.mem_cons.mp (hopen blockAddr (mt (hperm blockAddr) hne)) with rfl | hmem
        · refine absurd ?_ hne
          rw [← hblocks blockAddr List.mem_cons_self]
          exact hclosed
        · exact hmem
      have hfilter : (served ++ [flushProbe cfg addr rest]).filter isFlush =
          served.filter isFlush ++ [flushProbe cfg addr rest] := by
        rw [List.filter_append]
        rfl
      cases rest with
      | nil =>
        refine .finished ⟨hdrive, hfilter.trans hserved, ?_, fun blockAddr ↦ ?_⟩
        · intro p (hp : p ∈ behind ++ [])
          rw [List.append_nil] at hp
          exact isFlush_of_host (hbehind p hp)
        · by_contra hne
          exact List.not_mem_nil (hopen' blockAddr hne)
      | cons next rest =>
        change Progress cfg s₀ line₀ s' _ (behind ++ flushProbe cfg next rest :: [])
        refine .waiting ⟨hdrive.trans hrun, fun p hp ↦ isFlush_of_host (hbehind p hp), nofun, ?_,
          hopen', (List.forall_mem_cons.mp hblocks).2, ?_⟩
        · rw [hfilter, List.append_assoc]
          exact hserved
        · -- the host has at most one probe in line
          have hcount : behind.countP isHost = behind.length :=
            List.countP_eq_length.mpr fun p hp ↦ decide_eq_true (hbehind p hp)
          rw [List.countP_cons] at honce
          simp only [List.length_append, List.length_cons, List.length_nil] at hbound ⊢
          omega

end Progress

/-- What holds in every state of a flush that began in `s₀` with the probes `line₀`; `served` are
those that have been answered. -/
structure Flushing (cfg : Config) (s₀ : State) (line₀ : List (Probe Callback)) (s : State)
    (o : Owner) (served line : List (Probe Callback)) : Prop where
  agree : Agree cfg s o line
  harmless : ∀ p ∈ line, Harmless p.callback
  dQueue : ∀ m callback, some (m, some callback) ∉ s.dQueue
  retrieved : s.retrieved = true
  answered : o.answered = served.map (·.message 0)
  origin : ∀ p ∈ served ++ line, p ∈ line₀ ∨ isFlush p = true ∨ isHost p = true
  memory : overlay (wordsOnWay cfg o.taken o.sent) s.word = overlay o.returned s₀.word
  progress : Progress cfg s₀ line₀ s served line

namespace Flushing

/-- A step of the adapter on its own. -/
theorem silent (h : Flushing cfg s₀ line₀ s o served line) (hagree : Agree cfg s' o line)
    (hsilent : Silent s s') : Flushing cfg s₀ line₀ s' o served line where
  agree := hagree
  harmless := h.harmless
  dQueue m callback hmem := h.dQueue m callback (hsilent.dQueue.subset hmem)
  retrieved := hsilent.retrieved.trans h.retrieved
  answered := h.answered
  origin := h.origin
  memory := by
    rw [hsilent.word]
    exact h.memory
  progress := h.progress.silent hsilent.drive fun blockAddr htip ↦
    (hsilent.perm blockAddr).trans htip

theorem host (h : Flushing cfg s₀ line₀ s o served line) {p : Probe Callback}
    (hagree : Agree cfg s' o (line ++ [p])) (hsilent : Silent s s')
    (hhost : p.callback = .enableProbe) :
    Flushing cfg s₀ line₀ s' o served (line ++ [p]) where
  agree := hagree
  harmless := List.forall_mem_append.mpr
    ⟨h.harmless, List.forall_mem_singleton.mpr (hhost ▸ .host)⟩
  dQueue m callback hmem := h.dQueue m callback (hsilent.dQueue.subset hmem)
  retrieved := hsilent.retrieved.trans h.retrieved
  answered := h.answered
  origin := by
    rw [← List.append_assoc]
    exact List.forall_mem_append.mpr
      ⟨h.origin, List.forall_mem_singleton.mpr (.inr (.inr (decide_eq_true hhost)))⟩
  memory := by
    rw [hsilent.word]
    exact h.memory
  progress := (h.progress.silent hsilent.drive fun blockAddr htip ↦
    (hsilent.perm blockAddr).trans htip).host hhost

/-- The client sends a Release or an answer. -/
theorem send (h : Flushing cfg s₀ line₀ s o served line) {m : Sending} {probed : List BMessage}
    (hagree : Agree cfg s { o.send cfg m with probed := probed } line) :
    Flushing cfg s₀ line₀ s { o.send cfg m with probed := probed } served line where
  agree := hagree
  harmless := h.harmless
  dQueue := h.dQueue
  retrieved := h.retrieved
  answered := h.answered
  origin := h.origin
  memory := by
    change overlay (wordsOnWay cfg o.taken (o.sent ++ [m])) s.word =
      overlay (o.returned ++ m.words cfg 0) s₀.word
    rw [wordsOnWay_append fun hnil ↦ (h.agree.idle hnil).1, overlay_append, overlay_append,
      h.memory]
  progress := h.progress

/-- The adapter takes a message. -/
theorem take (h : Flushing cfg s₀ line₀ s o served line) (hdrive : s.drive = true)
    {line' : List (Probe Callback)} (htook : Took cfg s o line s' line') :
    ∃ served', Flushing cfg s₀ line₀ s' o.take served' line' := by
  obtain ⟨hagree, hword, ⟨ms, hdQueue⟩, hretrieved, hperm, hanswered⟩ := htook
  have hplain : ∀ m callback, some (m, some callback) ∉ s'.dQueue := by
    intro m callback hmem
    rw [hdQueue] at hmem
    rcases List.mem_append.mp hmem with hmem | hmem
    · exact h.dQueue m callback hmem
    · obtain ⟨m', -, heq⟩ := List.mem_map.mp hmem
      simp [plain] at heq
  have hmemory : overlay (wordsOnWay cfg o.take.taken o.take.sent) s'.word =
      overlay o.take.returned s₀.word := by
    have hreturned : o.take.returned = o.returned := by
      unfold Owner.take
      split
      · rfl
      · split <;> rfl
    rw [hword, hreturned, h.memory]
  rcases hanswered with ⟨rfl, hnone, hsame⟩ | ⟨p, behind, rfl, rfl, hone, hsame, htip⟩
  · exact ⟨served, hagree, h.harmless, hplain, hretrieved.trans h.retrieved,
      hnone.trans h.answered, h.origin, hmemory, h.progress.silent hsame hperm⟩
  · have hharmless := h.harmless p List.mem_cons_self
    have hrequests := @Harmless.requests cfg _ hharmless
    have honce := h.agree.hostOnce
    refine ⟨served ++ [p], hagree, ?_, hplain, hretrieved.trans h.retrieved, ?_, ?_, hmemory,
      h.progress.answer hdrive (by omega) hsame hperm htip⟩
    · exact List.forall_mem_append.mpr
        ⟨(List.forall_mem_cons.mp h.harmless).2, fun q hq ↦ (hrequests q hq).2⟩
    · rw [hone, h.answered, List.map_append]
      rfl
    · intro q hq
      rw [List.append_assoc, ← List.append_assoc [p], List.singleton_append,
        ← List.append_assoc] at hq
      rcases List.mem_append.mp hq with hq | hq
      · exact h.origin q hq
      · exact .inr (.inl (hrequests q hq).1)

/-- Every legal event leads from such a state to another one. -/
theorem step (h : Flushing cfg s₀ line₀ s o served line) {event : FlushEvent}
    (hlegal : FlushEvent.Legal cfg (s, o) event) :
    ∃ s' o' served' line', FlushEvent.step cfg (s, o) event = .ok (s', o') ∧
      Flushing cfg s₀ line₀ s' o' served' line' := by
  have hagree := h.agree
  cases event with
  | adapter event =>
    have hlift {s' : State} (hstep : Adapter.step cfg s event = .ok s') :
        FlushEvent.step cfg (s, o) (.adapter event) = .ok (s', o) := by
      unfold FlushEvent.step
      dsimp only
      rw [hstep]
      rfl
    cases event with
    | a m => exact hlegal.elim
    | c m => exact hlegal.elim
    | e sink => exact hlegal.elim
    | bFire => exact hlegal.elim
    | dPop =>
      by_cases hdrive : s.drive = true
      · obtain ⟨s', hpop, hagree', hsilent⟩ := hagree.exists_dPortDriver h.dQueue
        exact ⟨s', o, served, line, hlift ((if_pos hdrive).trans hpop), h.silent hagree' hsilent⟩
      · exact ⟨s, o, served, line, hlift (if_neg hdrive), h⟩
    | dFire =>
      exact ⟨_, o, served, line, hlift rfl, h.silent (hagree.congr rfl rfl rfl rfl rfl rfl rfl rfl)
        ⟨rfl, rfl, rfl, rfl, List.suffix_rfl⟩⟩
    | bPop =>
      by_cases hdrive : s.drive = true
      · obtain ⟨hagree', hsilent⟩ := hagree.bPortDriver
        exact ⟨_, o, served, line, hlift (congrArg Except.ok (if_pos hdrive)),
          h.silent hagree' hsilent⟩
      · exact ⟨s, o, served, line, hlift (congrArg Except.ok (if_neg hdrive)), h⟩
    | hostPoll =>
      by_cases hdrive : s.drive = true
      · obtain ⟨s', line', hpoll, hagree', hsilent, hline⟩ := hagree.exists_hostInterface
        have hstep := hlift ((if_pos hdrive).trans hpoll)
        rcases hline with rfl | ⟨p, rfl, hhost⟩
        · exact ⟨s', o, served, _, hstep, h.silent hagree' hsilent⟩
        · exact ⟨s', o, served, _, hstep, h.host hagree' hsilent hhost⟩
      · exact ⟨s, o, served, line, hlift (if_neg hdrive), h⟩
    | retriever =>
      refine ⟨s, o, served, line, hlift ?_, h⟩
      change dataRetriever cfg s = _
      unfold dataRetriever
      rw [h.retrieved, Bool.not_true, Bool.and_false]
      rfl
    | probeBlock probeAddr =>
      refine ⟨_, o, served, line, hlift rfl, h.silent ?_ ⟨rfl, rfl, rfl, rfl, List.suffix_rfl⟩⟩
      exact ⟨hagree.probeLine, hagree.out, hagree.received, hagree.wellMade, hagree.inOrder,
        hagree.whole, hagree.partly, hagree.ongoings, hagree.idle, hagree.perm_iff,
        fun _ ↦ hlegal, hagree.hostOnce, hagree.acknowledged⟩
    | stop =>
      exact ⟨_, o, served, line, hlift rfl, h.silent (hagree.congr rfl rfl rfl rfl rfl rfl rfl rfl)
        ⟨rfl, rfl, rfl, rfl, List.suffix_rfl⟩⟩
  | bFire =>
    refine ⟨_, _, served, line, rfl, ?_⟩
    have hagree' := hagree.bFire
    exact ⟨hagree', h.harmless, h.dQueue, h.retrieved, h.answered, h.origin, h.memory,
      h.progress.silent rfl fun _ htip ↦ htip⟩
  | release header beats =>
    obtain ⟨hopcode, hsend⟩ := hlegal
    refine ⟨_, _, served, line, rfl, h.send (hagree.send hsend ⟨hsend.checked, hopcode, nofun⟩
      nofun rfl)⟩
  | answer header beats =>
    obtain ⟨probe, hprobe, hanswers⟩ := hlegal
    have hhead : o.probed.head? = some probe := hprobe
    have hprobed : o.probed = (o.probed.head?).toList ++ o.probed.tail := by
      cases o.probed <;> rfl
    refine ⟨_, _, served, line, rfl, h.send (hagree.send hanswers.sendable ?_ ?_ hprobed)⟩
    · refine ⟨hanswers.sendable.checked, ?_, fun probe' hprobe' ↦ ?_⟩
      · rw [hhead]
        exact hanswers.opcode
      · obtain rfl := Option.some.inj (hhead.symm.trans hprobe')
        exact ⟨hanswers.source, hanswers.block⟩
    · intro probe' hprobe'
      obtain rfl := Option.some.inj (hhead.symm.trans hprobe')
      exact hanswers.givesUp
  | take =>
    by_cases hdrive : s.drive = true
    · cases hnext : o.next with
      | none =>
        refine ⟨s, o, served, line, ?_, h⟩
        unfold FlushEvent.step
        dsimp only
        rw [if_pos hdrive, hnext]
      | some c =>
        obtain ⟨s', line', hstep, htook⟩ := hagree.exists_take hdrive h.harmless hnext
        obtain ⟨served', hflushing⟩ := h.take hdrive htook
        refine ⟨s', _, served', line', ?_, hflushing⟩
        unfold FlushEvent.step
        dsimp only
        rw [if_pos hdrive, hnext]
        dsimp only
        rw [hstep]
        rfl
    · exact ⟨s, o, served, line, if_neg hdrive, h⟩

theorem run (h : Flushing cfg s₀ line₀ s o served line) {events : List FlushEvent}
    (hlegal : FlushEvent.LegalRun cfg (s, o) events) :
    ∃ s' o' served' line', FlushEvent.run cfg (s, o) events = .ok (s', o') ∧
      Flushing cfg s₀ line₀ s' o' served' line' := by
  induction events generalizing s o served line with
  | nil => exact ⟨s, o, served, line, rfl, h⟩
  | cons event events ih =>
    obtain ⟨hevent, hevents⟩ := hlegal
    obtain ⟨s₁, o₁, served₁, line₁, hstep, h₁⟩ := h.step hevent
    rw [hstep] at hevents
    obtain ⟨s', o', served', line', hrun, h'⟩ := ih h₁ hevents
    refine ⟨s', o', served', line', ?_, h'⟩
    rw [FlushEvent.run, List.foldlM_cons, hstep, ok_bind]
    exact hrun

/-- At most one probe in line has reached the client. -/
theorem exists_received (h : Flushing cfg s₀ line₀ s o served line) :
    ∃ out, out <+: line.take 1 ∧ o.received = (served ++ out).map (·.message 0) := by
  have hreceived := h.agree.received
  have hout := h.agree.out
  rw [h.answered, List.append_assoc] at hreceived
  rw [List.append_assoc] at hout
  rcases List.eq_nil_or_concat (o.probed ++ o.sent.filterMap Sending.probe) with
    hnone | ⟨_, _, hsome⟩
  · refine ⟨[], List.nil_prefix, ?_⟩
    rw [hreceived, hnone, List.append_nil, List.append_nil]
  · cases line with
    | nil =>
      rw [hsome] at hout
      simp at hout
    | cons p line =>
      refine ⟨[p], List.prefix_rfl, ?_⟩
      have hlength := congrArg List.length hout
      rw [hsome] at hlength
      simp only [List.length_append, List.concat_eq_append, List.length_singleton, List.head?_cons,
        Option.map_some, Option.toList_some] at hlength
      have hqueue := List.eq_nil_of_length_eq_zero
        (l := s.probes.bQueue ++ s.bPort.toList) (by rw [List.length_append]; omega)
      rw [hqueue] at hout
      have hone : o.probed ++ o.sent.filterMap Sending.probe = [p.message 0] := hout
      rw [hreceived, hone, List.map_append]
      rfl

theorem filter_isFlush_eq_nil {line : List (Probe Callback)} (h : ∀ p ∈ line, isFlush p = false) :
    line.filter isFlush = [] :=
  List.filter_eq_nil_iff.mpr fun p hp ↦ by
    rw [h p hp]
    exact Bool.false_ne_true

/-- A flush that has not ended is still to probe a block. -/
theorem waiting_or_finished (h : Flushing cfg s₀ line₀ s o served line) :
    Finished cfg s₀ s served line ∨
      s.drive = true ∧ line ≠ [] ∧
        (served ++ line).filter isFlush <+: flushProbes cfg (openBlocks s₀) ∧
        served.filter isFlush ≠ flushProbes cfg (openBlocks s₀) ∧
        served.length < line₀.length + 2 * (openBlocks s₀).length := by
  cases h.progress with
  | finished hfinished => exact .inl hfinished
  | @waiting before behind addr rest hwaiting =>
    obtain ⟨hdrive, hothers, hhosts, hdone, -, -, hbound⟩ := hwaiting
    have hfilter : (served ++ (before ++ flushProbe cfg addr rest :: behind)).filter isFlush =
        served.filter isFlush ++ [flushProbe cfg addr rest] := by
      rw [List.filter_append, List.filter_append, List.filter_cons_of_pos rfl,
        filter_isFlush_eq_nil hothers,
        filter_isFlush_eq_nil fun p hp ↦ isFlush_of_host (hhosts p hp)]
      rfl
    refine .inr ⟨hdrive, List.append_ne_nil_of_right_ne_nil _ (List.cons_ne_nil _ _), ?_, ?_,
      by omega⟩
    · rw [hfilter, ← hdone]
      exact ⟨flushProbes cfg rest, by rw [List.append_assoc]; rfl⟩
    · intro heq
      rw [heq] at hdone
      exact List.cons_ne_nil _ _ (List.append_right_eq_self.mp hdone)

/-- Nothing with data is on the way once all blocks are `TIP`. -/
theorem word_of_tip (h : Flushing cfg s₀ line₀ s o served line)
    (htip : ∀ blockAddr, s.perm blockAddr = .tip) : s.word = overlay o.returned s₀.word := by
  have hnone := h.agree.inOrder.words_eq_nil
    (fun blockAddr hmem ↦ (h.agree.perm_iff blockAddr).mpr hmem (htip blockAddr)) o.taken
  rw [← h.memory, hnone]
  rfl

theorem flushed (h : Flushing cfg s₀ line₀ s o served line) :
    Flushed cfg s₀ line₀ s o served line := by
  have hnodup : (openBlocks s₀).Nodup := s₀.blockPerm.nodup_keys.filter _
  rcases h.waiting_or_finished with ⟨hdrive, hdone, hothers, htip⟩ |
    ⟨hdrive, hbusy, hprobes, hdone, hbound⟩
  · refine ⟨h.agree.probeLine, h.agree.out, h.answered, h.exists_received, h.origin, hnodup, ?_,
      iff_of_true hdrive hdone, ?_, fun _ ↦ hdrive, fun _ ↦ htip, fun _ ↦ h.word_of_tip htip⟩
    · rw [List.filter_append, filter_isFlush_eq_nil hothers, List.append_nil, hdone]
    · intro hrun
      rw [hdrive] at hrun
      exact absurd hrun Bool.false_ne_true
  · have hrun : s.drive ≠ false := by
      rw [hdrive]
      exact Bool.noConfusion
    exact ⟨h.agree.probeLine, h.agree.out, h.answered, h.exists_received, h.origin, hnodup,
      hprobes, iff_of_false hrun hdone, fun _ ↦ hbusy, fun hle ↦ absurd hbound (by omega),
      fun hend ↦ absurd hend hrun, fun hend ↦ absurd hend hrun⟩

end Flushing

theorem mem_openBlocks {blockAddr : ℕ} : blockAddr ∈ openBlocks s ↔ s.perm blockAddr ≠ .tip := by
  unfold openBlocks
  rw [List.mem_filter, decide_eq_true_eq]
  refine and_iff_right_of_imp fun hne ↦ ?_
  by_contra hkey
  refine hne ?_
  rw [State.perm, Dict.getD, Dict.get?_eq_none_iff.mpr hkey]
  rfl

theorem ProbeLine.mem_pending {probes : Probes Callback} {line : List (Probe Callback)}
    (h : ProbeLine probes line) : ∀ p ∈ line, p.callback ∈ probes.pending := by
  intro p hp
  unfold Probes.pending
  rw [List.mem_append]
  cases line with
  | nil => exact absurd hp List.not_mem_nil
  | cons q line =>
    rcases List.mem_cons.mp hp with rfl | hp
    · left
      rw [List.mem_filterMap]
      exact ⟨0, h.mem_initList, h.registered⟩
    · right
      rw [h.waiting]
      exact List.mem_map_of_mem hp

namespace FlushStart

theorem harmless (h : FlushStart cfg s o line) (hunwritten : Unwritten s) :
    ∀ p ∈ line, Harmless p.callback := by
  intro p hp
  have hflush := h.noFlush p hp
  have hgrant := h.noGrant p hp
  have hwrite := hunwritten.1 _ (h.probeLine.mem_pending p hp)
  unfold isFlush at hflush
  cases hcallback : p.callback with
  | accessAckData burstLen addrAligned size source => exact .read burstLen addrAligned size source
  | enableProbe => exact .host
  | probeBlocksRec probeAddrs => simp [hcallback] at hflush
  | grant | grantData => simp [hcallback, Callback.isGrant] at hgrant
  | accessAck | arithmeticAck | logicalAck => simp [hcallback, Callback.isWrite] at hwrite

/-- `data_retriever` sends the first probe of the flush. -/
theorem exists_retriever (h : FlushStart cfg s o line) (hunwritten : Unwritten s) :
    ∃ s' line', FlushEvent.step cfg (s, o) (.adapter .retriever) = .ok (s', o) ∧
      Flushing cfg s line s' o [] line' := by
  have hagree : Agree cfg { s with retrieved := true } o line :=
    h.toAgree.congr rfl rfl rfl rfl rfl rfl rfl rfl
  have hcondition : (s.retrieve && !s.retrieved) = true := by
    rw [h.retrieve, h.retrieved]
    rfl
  have hretriever : Adapter.step cfg s .retriever =
      probeBlocksRec cfg (openBlocks s) { s with retrieved := true } := if_pos hcondition
  have hlift {s' : State}
      (hstep : probeBlocksRec cfg (openBlocks s) { s with retrieved := true } = .ok s') :
      FlushEvent.step cfg (s, o) (.adapter .retriever) = .ok (s', o) := by
    unfold FlushEvent.step
    dsimp only
    rw [hretriever, hstep]
    rfl
  have hplain : ∀ m callback, some (m, some callback) ∉ s.dQueue := by
    intro m callback
    cases callback with
    | updatePerm blockAddr param => exact h.noGrantQueued m blockAddr param
    | updateMem burst => exact hunwritten.2 m burst
  have hmemory : overlay (wordsOnWay cfg o.taken o.sent) s.word = overlay o.returned s.word := by
    rw [h.returned]
  have hharmless := h.harmless hunwritten
  cases hblocks : openBlocks s with
  | nil =>
    rw [hblocks] at hlift
    refine ⟨_, line, hlift rfl, ?_, hharmless, hplain, rfl, h.answered, fun p hp ↦ .inl hp, hmemory,
      .finished ⟨rfl, ?_, h.noFlush, fun blockAddr ↦ ?_⟩⟩
    · exact hagree.congr rfl rfl rfl rfl rfl rfl rfl rfl
    · rw [hblocks]
      rfl
    · by_contra hne
      have hmem := mem_openBlocks.mpr hne
      change blockAddr ∈ openBlocks s at hmem
      rw [hblocks] at hmem
      exact List.not_mem_nil hmem
  | cons addr rest =>
    obtain ⟨probes, hretrieve, hagree'⟩ := hagree.exists_request (flushProbe cfg addr rest)
    rw [hblocks] at hlift
    refine ⟨_, line ++ [flushProbe cfg addr rest],
      hlift (State.retrieveBlock_eq_ok.mpr ⟨probes, hretrieve, rfl⟩), ?_, ?_, hplain, rfl,
      h.answered, ?_, hmemory, .waiting ⟨h.drive, h.noFlush, nofun, ?_, ?_, ?_, ?_⟩⟩
    · refine hagree' s.probe s.probeEn s.probeAddr h.host ?_
      rw [List.countP_append]
      exact h.hostOnce
    · exact List.forall_mem_append.mpr
        ⟨hharmless, List.forall_mem_singleton.mpr (.flush rest)⟩
    · intro p (hp : p ∈ line ++ [flushProbe cfg addr rest])
      rcases List.mem_append.mp hp with hp | hp
      · exact .inl hp
      · obtain rfl := List.mem_singleton.mp hp
        exact .inr (.inl rfl)
    · rw [hblocks]
      rfl
    · intro blockAddr hne
      rw [← hblocks]
      exact mem_openBlocks.mpr hne
    · intro blockAddr hmem
      rw [← hblocks] at hmem
      exact h.blocks blockAddr (List.mem_of_mem_filter hmem)
    · rw [hblocks, List.length_nil, List.length_cons]
      omega

end FlushStart

/-- A flush that finds no put and no atomic operation waiting is correct, whatever the other
coroutines, the host and the client do meanwhile. -/
theorem run_flushed (cfg : Config) (s : State) (o : Owner) (line : List (Probe Callback))
    (hstart : FlushStart cfg s o line) (hunwritten : Unwritten s) (events : List FlushEvent)
    (hlegal : FlushEvent.LegalRun cfg (s, o) (.adapter .retriever :: events)) :
    ∃ s' o', FlushEvent.run cfg (s, o) (.adapter .retriever :: events) = .ok (s', o') ∧
      ∃ served line', Flushed cfg s line s' o' served line' := by
  obtain ⟨s₁, line₁, hstep, h₁⟩ := hstart.exists_retriever hunwritten
  have hevents := hlegal.2
  rw [hstep] at hevents
  obtain ⟨s', o', served, line', hrun, h'⟩ := h₁.run hevents
  refine ⟨s', o', ?_, served, line', h'.flushed⟩
  rw [FlushEvent.run, List.foldlM_cons, hstep, ok_bind]
  exact hrun

/-- The client holds two blocks. -/
def twoBlocks : State :=
  { start (Dict.ofList [(0, 7), (64, 9)]) [0, 64] fun _ ↦ 0 with
    retrieve := true
    blockPerm := Dict.ofList [(0, .trunk), (64, .trunk)] }

def owner (held : List ℕ) : Owner := ⟨held, [], [], 0, [], [], []⟩

/-- The client answers the probe of the first block with data, and has released the second one
before the probe arrives. -/
def twoAnswers : List FlushEvent :=
  [.adapter .bPop, .bFire, .release ⟨.releaseData, TtoN, 6, 1, 64, 0, 0⟩ [1, 2, 3, 4, 5, 6, 7, 8],
    .answer ⟨.probeAckData, TtoN, 6, 0, 0, 0, 0⟩ [11, 12, 13, 14, 15, 16, 17, 18]] ++
    List.replicate 16 .take ++
    [.adapter .bPop, .bFire, .answer ⟨.probeAck, NtoN, 6, 0, 64, 0, 0⟩ [0], .take]

theorem openBlocks_iff_held {held : List ℕ} (h : openBlocks s = held) (blockAddr : ℕ) :
    s.perm blockAddr ≠ .tip ↔ blockAddr ∈ held ∨ blockAddr ∈ givenUp cfg [] := by
  rw [← mem_openBlocks, h]
  exact (or_iff_left List.not_mem_nil).symm

theorem flushStart_twoBlocks : FlushStart {} twoBlocks (owner [0, 64]) [] where
  probeLine :=
    ⟨rfl, (simulated_start Dict.empty [] fun _ ↦ 0).consistent, rfl, rfl⟩
  out := rfl
  received := rfl
  wellMade := nofun
  inOrder := trivial
  whole := nofun
  partly := nofun
  ongoings := nofun
  idle _ := ⟨rfl, rfl⟩
  perm_iff := openBlocks_iff_held rfl
  host := nofun
  hostOnce := by decide
  acknowledged _ := List.not_mem_nil
  drive := rfl
  retrieve := rfl
  retrieved := rfl
  blocks := by decide
  noFlush := nofun
  noGrant := nofun
  noGrantQueued _ _ _ := List.not_mem_nil
  answered := rfl
  returned := rfl

theorem run_flushed_twoBlocks :
    (FlushEvent.run {} (twoBlocks, owner [0, 64]) (.adapter .retriever :: twoAnswers)).map
        (fun f ↦ (f.1.drive, f.1.memory.values, f.2.answered.map BMessage.address)) =
      .ok (false, [11, 1, 2, 3, 4, 5, 6, 7, 8, 12, 13, 14, 15, 16, 17, 18], [0, 64]) ∧
    ∃ s' o', FlushEvent.run {} (twoBlocks, owner [0, 64]) (.adapter .retriever :: twoAnswers) =
        .ok (s', o') ∧ ∃ served line', Flushed {} twoBlocks [] s' o' served line' :=
  ⟨by decide, run_flushed {} twoBlocks (owner [0, 64]) [] flushStart_twoBlocks
    ⟨by decide, fun _ _ ↦ List.not_mem_nil⟩ twoAnswers (by decide)⟩

/-- The client acquires the block 0. Before the test stops, an atomic operation of another source
asks for the block. -/
def acquireThenAtomic : List Event :=
  [.a ⟨.acquireBlock, NtoT, 6, 0, 0, 0xff, 0⟩] ++ (List.replicate 8 [.dPop, .dFire]).flatten ++
    [.e 0, .a ⟨.arithmeticData, ADD, 3, 5, 0, 0xff, 1⟩, .stop]

def atomicProbe : Probe Callback where
  callback := .arithmeticAck 1 1 0 (bitMask 0xff) 0 3 5
  param := toN
  size := 3
  addr := 0
  mask := 0xff

/-- The continuation of the atomic operation raises when its probe is answered. -/
theorem not_flushed_atomic : ∃ s,
    run {} (start (Dict.ofList [(0, 7)]) [0] fun _ ↦ 0) acquireThenAtomic = .ok s ∧
    FlushStart {} s (owner [0]) [atomicProbe] ∧
    ∃ events, FlushEvent.LegalRun {} (s, owner [0]) (.adapter .retriever :: events) ∧
      FlushEvent.run {} (s, owner [0]) (.adapter .retriever :: events) =
        .error (.nameError "param") := by
  obtain ⟨s, hrun⟩ : ∃ s, run {} (start (Dict.ofList [(0, 7)]) [0] fun _ ↦ 0) acquireThenAtomic =
    .ok s := ⟨_, rfl⟩
  have hsimulated := simulated_of_run hrun
  obtain rfl := Except.ok.inj hrun
  refine ⟨_, rfl, ?_, [.adapter .bPop, .bFire, .answer ⟨.probeAck, TtoN, 6, 0, 0, 0, 0⟩ [0], .take],
    by decide, rfl⟩
  exact {
    probeLine := ⟨rfl, hsimulated.consistent, rfl, rfl⟩
    out := rfl
    received := rfl
    wellMade := nofun
    inOrder := trivial
    whole := nofun
    partly := nofun
    ongoings := nofun
    idle := fun _ ↦ ⟨rfl, rfl⟩
    perm_iff := openBlocks_iff_held rfl
    host := nofun
    hostOnce := by decide
    acknowledged := fun _ ↦ List.not_mem_nil
    drive := rfl
    retrieve := rfl
    retrieved := rfl
    blocks := by decide
    noFlush := by decide
    noGrant := by decide
    noGrantQueued := fun _ _ _ ↦ List.not_mem_nil
    answered := rfl
    returned := rfl }

end ProcessorFuzz.TileLink.Adapter
