import ProcessorFuzz.TileLink.Sinks

/-!
# Sinks along a run

A ledger of the Acquires that have no GrantAck yet, with the sinks they took, is kept beside the
adapter. The client is constrained in two ways only: it has at most four such Acquires, and it
acknowledges Grants that it has received, each once.
-/

namespace ProcessorFuzz.TileLink.Adapter

open Library Client

variable {cfg : Config} {s s' : State}

structure Ledger where
  /-- The Acquires without a GrantAck, with their sinks. -/
  unfinished : List (ℕ × AMessage) := []
  /-- The sink of the Grant that is arriving, with the number of its beats still to come. -/
  receiving : Option (ℕ × ℕ) := none
  /-- The sinks of the received Grants without a GrantAck. -/
  granted : List ℕ := []

namespace Ledger

/-- A beat arrives with `n` more to come. -/
def arrive (sink n : ℕ) (l : Ledger) : Ledger :=
  if n = 0 then { l with receiving := none, granted := l.granted ++ [sink] }
  else { l with receiving := some (sink, n) }

def receive (cfg : Config) (m : DMessage) (l : Ledger) : Ledger :=
  if isGrant m.opcode then
    match l.receiving with
    | none => l.arrive m.sink (dBurstLen cfg m - 1)
    | some (sink, n) => l.arrive sink (n - 1)
  else l

theorem unfinished_arrive (sink n : ℕ) (l : Ledger) :
    (l.arrive sink n).unfinished = l.unfinished := by
  unfold arrive
  split <;> rfl

theorem unfinished_receive (cfg : Config) (m : DMessage) (l : Ledger) :
    (l.receive cfg m).unfinished = l.unfinished := by
  unfold receive
  split
  · split
    · exact unfinished_arrive _ _ l
    · exact unfinished_arrive _ _ l
  · rfl

def finish (sink : ℕ) (l : Ledger) : Ledger :=
  { l with
    unfinished := l.unfinished.filter (·.1 ≠ sink)
    granted := l.granted.erase sink }

/-- What the client may do. Messages other than Acquires and GrantAcks are not constrained. -/
def Legal (cfg : Config) (s : State) (l : Ledger) : Event → Prop
  | .a m => Acquires cfg m → l.unfinished.length < dSinkList.length ∧
    (m.opcode = .acquirePerm → s.perm (cfg.blockAddr m.address) = .tip)
  | .e sink => sink ∈ l.granted
  | _ => True

instance (s : State) (l : Ledger) : DecidablePred (Legal cfg s l)
  | .a m => inferInstanceAs (Decidable (Acquires cfg m → _ ∧ _))
  | .e sink => inferInstanceAs (Decidable (sink ∈ l.granted))
  | .c _ | .dPop | .dFire | .bPop | .bFire | .hostPoll | .retriever | .probeBlock _ | .stop =>
    isTrue trivial

/-- The ledger after an event in the state `s`. -/
def react (cfg : Config) (s : State) (l : Ledger) (event : Event) : Ledger :=
  if s.drive then
    match event with
    | .a m =>
      if Acquires cfg m then
        match nextSink s with
        | .ok sink => { l with unfinished := l.unfinished ++ [(sink, m)] }
        | .error _ => l
      else l
    | .e sink => l.finish sink
    | .dPop =>
      match taken s with
      | some m => l.receive cfg m
      | none => l
    | _ => l
  else l

def step (cfg : Config) (s : State × Ledger) (event : Event) :
    Except PyError (State × Ledger) := do
  let s' ← Adapter.step cfg s.1 event
  return (s', s.2.react cfg s.1 event)

def run (cfg : Config) (s : State × Ledger) (events : List Event) :
    Except PyError (State × Ledger) :=
  events.foldlM (step cfg) s

/-- Every event of the run is legal when it happens. -/
def LegalRun (cfg : Config) (s : State × Ledger) : List Event → Prop
  | [] => True
  | event :: events => Legal cfg s.1 s.2 event ∧
    match step cfg s event with
    | .ok s' => LegalRun cfg s' events
    | .error _ => True

instance decidableLegalRun (cfg : Config) (s : State × Ledger) :
    (events : List Event) → Decidable (LegalRun cfg s events)
  | [] => isTrue trivial
  | event :: events =>
    match h : step cfg s event with
    | .error _ => decidable_of_iff (Legal cfg s.1 s.2 event) (by
        conv_rhs => unfold LegalRun
        rw [h]
        exact (and_iff_left trivial).symm)
    | .ok s' =>
      have := decidableLegalRun cfg s' events
      decidable_of_iff (Legal cfg s.1 s.2 event ∧ LegalRun cfg s' events) (by
        conv_rhs => unfold LegalRun
        rw [h])

end Ledger

/-- The holds of the unfinished Acquires are those that `ongoing_tlc` registers and those that
pending continuations keep. Their sinks and the free ones are all sinks. -/
structure Holds (cfg : Config) (s : State) (unfinished : List (ℕ × AMessage))
    (registered : List Hold) : Prop where
  simulated : Simulated s
  initList_eq : s.dSinks.initList = dSinkList
  counted : ∀ callback ∈ s.probes.pending, callback.Counted cfg
  holds : (unfinished.map (Hold.of cfg)).Perm
    (registered ++ s.probes.pending.filterMap Callback.held)
  partition : (unfinished.map Prod.fst ++ s.dSinks.freeList).Perm dSinkList
  ongoing : ∀ sink blockAddr, s.ongoingTlc.get? sink = some blockAddr ↔
    ∃ hold ∈ registered, hold.sink = sink ∧ hold.blockAddr = blockAddr

namespace Holds

variable {unfinished : List (ℕ × AMessage)} {registered : List Hold}

theorem nodup_sinks (h : Holds cfg s unfinished registered) :
    (unfinished.map Prod.fst ++ s.dSinks.freeList).Nodup :=
  h.partition.nodup_iff.mpr List.nodup_range

theorem perm_sinks (h : Holds cfg s unfinished registered) :
    (unfinished.map Prod.fst).Perm
      ((registered ++ s.probes.pending.filterMap Callback.held).map Hold.sink) := by
  have hmap := h.holds.map Hold.sink
  rw [List.map_map] at hmap
  exact hmap

theorem nodup_registered (h : Holds cfg s unfinished registered) :
    (registered.map Hold.sink).Nodup := by
  have hnodup : ((registered ++ s.probes.pending.filterMap Callback.held).map Hold.sink).Nodup :=
    h.perm_sinks.nodup_iff.mp (List.nodup_append.mp h.nodup_sinks).1
  rw [List.map_append] at hnodup
  exact (List.nodup_append.mp hnodup).1

theorem mem_unfinished (h : Holds cfg s unfinished registered) {hold : Hold}
    (hmem : hold ∈ registered ++ s.probes.pending.filterMap Callback.held) :
    ∃ m, (hold.sink, m) ∈ unfinished ∧ hold = .of cfg (hold.sink, m) := by
  obtain ⟨⟨sink, m⟩, hm, rfl⟩ := List.mem_map.mp (h.holds.mem_iff.mpr hmem)
  exact ⟨m, hm, rfl⟩

/-- A free sink is not registered. -/
theorem not_mem_of_free (h : Holds cfg s unfinished registered) {sink : ℕ}
    (hsink : sink ∈ s.dSinks.freeList) : ∀ hold ∈ registered, hold.sink ≠ sink := by
  rintro hold hmem rfl
  obtain ⟨m, hm, -⟩ := h.mem_unfinished (List.mem_append_left _ hmem)
  have hheld : hold.sink ∈ unfinished.map Prod.fst := List.mem_map.mpr ⟨_, hm, rfl⟩
  exact List.disjoint_of_nodup_append h.nodup_sinks hheld hsink

/-- Registering a sink that is not registered yet. -/
theorem ongoing_set {ongoingTlc : Dict ℕ ℕ} {hold : Hold}
    (hongoing : ∀ sink blockAddr, ongoingTlc.get? sink = some blockAddr ↔
      ∃ hold ∈ registered, hold.sink = sink ∧ hold.blockAddr = blockAddr)
    (hnew : ∀ other ∈ registered, other.sink ≠ hold.sink) (sink blockAddr : ℕ) :
    (ongoingTlc.set hold.sink hold.blockAddr).get? sink = some blockAddr ↔
      ∃ other ∈ hold :: registered, other.sink = sink ∧ other.blockAddr = blockAddr := by
  rw [Dict.get?_set]
  by_cases hsink : sink = hold.sink
  · subst hsink
    have hnone : ¬∃ other ∈ registered,
        other.sink = hold.sink ∧ other.blockAddr = blockAddr := by
      rintro ⟨other, hother, heq, -⟩
      exact hnew other hother heq
    simp [hnone]
  · have hne : hold.sink ≠ sink := fun heq ↦ hsink heq.symm
    simp [hsink, hne, hongoing]

theorem keeps (h : Holds cfg s unfinished registered) (hsim : Simulated s')
    (hkeeps : KeepsSinks cfg s s') : Holds cfg s' unfinished registered where
  simulated := hsim
  initList_eq := hkeeps.dSinks ▸ h.initList_eq
  counted := hkeeps.counted h.counted
  holds := h.holds.trans (hkeeps.held.symm.append_left _)
  partition := hkeeps.dSinks ▸ h.partition
  ongoing := hkeeps.ongoingTlc ▸ h.ongoing

theorem partition_take (h : Holds cfg s unfinished registered) {sink : ℕ}
    (hsink : sink ∈ s.dSinks.freeList) (m : AMessage) :
    ((unfinished ++ [(sink, m)]).map Prod.fst ++ (s.dSinks.remove sink).freeList).Perm
      dSinkList := by
  refine List.Perm.trans ?_ h.partition
  rw [List.map_append, List.append_assoc]
  exact (List.perm_cons_erase hsink).symm.append_left _

/-- An Acquire takes a sink; its hold is registered at once or kept by a continuation. -/
theorem takes (h : Holds cfg s unfinished registered) (hsim : Simulated s') {sink : ℕ}
    (hsink : sink ∈ s.dSinks.freeList) {m : AMessage}
    (htakes : Takes cfg (.of cfg (sink, m)) s s') :
    (Queues cfg (.of cfg (sink, m)) s s' ∧
      Holds cfg s' (unfinished ++ [(sink, m)]) (.of cfg (sink, m) :: registered)) ∨
    (s'.dQueue = s.dQueue ∧ Holds cfg s' (unfinished ++ [(sink, m)]) registered) := by
  have hpartition : ((unfinished ++ [(sink, m)]).map Prod.fst ++ s'.dSinks.freeList).Perm
      dSinkList := by
    rw [htakes.dSinks]
    exact h.partition_take hsink m
  have hinit : s'.dSinks.initList = dSinkList := by
    rw [htakes.dSinks]
    exact h.initList_eq
  have hholds : ((unfinished ++ [(sink, m)]).map (Hold.of cfg)).Perm
      (.of cfg (sink, m) :: (registered ++ s.probes.pending.filterMap Callback.held)) := by
    rw [List.map_append]
    exact (List.perm_append_singleton _ _).trans (h.holds.cons _)
  rcases htakes.grant with ⟨-, hqueues, hpending⟩ | ⟨-, htlc, hqueue, hheld⟩
  · refine Or.inl ⟨hqueues, hsim, hinit, htakes.counted h.counted, ?_, hpartition, ?_⟩
    · rw [hpending]
      exact hholds
    · rw [hqueues.ongoingTlc]
      exact ongoing_set h.ongoing (h.not_mem_of_free hsink)
  · refine Or.inr ⟨hqueue, hsim, hinit, htakes.counted h.counted, ?_, hpartition, htlc ▸ h.ongoing⟩
    exact hholds.trans (List.perm_middle.symm.trans (hheld.symm.append_left _))

/-- A continuation registers the hold that it kept. -/
theorem settles (h : Holds cfg s unfinished registered) (hsim : Simulated s') {hold : Hold}
    (hsettles : Settles cfg hold s s') : Holds cfg s' unfinished (hold :: registered) where
  simulated := hsim
  initList_eq := hsettles.dSinks ▸ h.initList_eq
  counted := hsettles.counted h.counted
  holds := h.holds.trans ((hsettles.held.append_left _).trans List.perm_middle)
  partition := hsettles.dSinks ▸ h.partition
  ongoing := by
    have hnew : ∀ other ∈ registered, other.sink ≠ hold.sink := by
      intro other hother heq
      have hmem : hold ∈ s.probes.pending.filterMap Callback.held :=
        hsettles.held.symm.subset List.mem_cons_self
      have hnodup : ((registered ++ s.probes.pending.filterMap Callback.held).map
          Hold.sink).Nodup :=
        h.perm_sinks.nodup_iff.mp (List.nodup_append.mp h.nodup_sinks).1
      rw [List.map_append] at hnodup
      exact List.disjoint_of_nodup_append hnodup (List.mem_map.mpr ⟨other, hother, heq⟩)
        (List.mem_map.mpr ⟨hold, hmem, rfl⟩)
    rw [hsettles.ongoingTlc]
    exact ongoing_set h.ongoing hnew

/-- The holds without one of them. -/
theorem perm_without (h : Holds cfg s unfinished registered) {hold : Hold}
    (hmem : hold ∈ registered) :
    ((unfinished.filter (·.1 ≠ hold.sink)).map (Hold.of cfg)).Perm
      (registered.erase hold ++ s.probes.pending.filterMap Callback.held) := by
  have hperm : (unfinished.map (Hold.of cfg)).Perm
      (hold :: (registered.erase hold ++ s.probes.pending.filterMap Callback.held)) :=
    h.holds.trans ((List.perm_cons_erase hmem).append_right _)
  have hnodup : ((hold :: (registered.erase hold ++
      s.probes.pending.filterMap Callback.held)).map Hold.sink).Nodup := by
    have hmap := hperm.map Hold.sink
    rw [List.map_map] at hmap
    exact hmap.nodup_iff.mp (List.nodup_append.mp h.nodup_sinks).1
  rw [List.map_cons, List.nodup_cons] at hnodup
  have hkept : (registered.erase hold ++ s.probes.pending.filterMap Callback.held).filter
      (·.sink ≠ hold.sink) =
      registered.erase hold ++ s.probes.pending.filterMap Callback.held := by
    rw [List.filter_eq_self]
    intro other hother
    rw [decide_eq_true_eq]
    exact fun heq ↦ hnodup.1 (List.mem_map.mpr ⟨other, hother, heq⟩)
  have hfilter := hperm.filter (·.sink ≠ hold.sink)
  rw [List.filter_map, List.filter_cons_of_neg (by simp), hkept] at hfilter
  exact hfilter

/-- The GrantAck for a registered sink does not raise. -/
theorem release (h : Holds cfg s unfinished registered) {hold : Hold} (hmem : hold ∈ registered) :
    ∃ (hinit : hold.sink ∈ s.dSinks.initList) (hfree : hold.sink ∉ s.dSinks.freeList),
      ePortMonitor hold.sink s = .ok { s with
        dSinks := s.dSinks.restore hold.sink hinit hfree
        ongoingTlc := s.ongoingTlc.erase hold.sink } ∧
      Holds cfg { s with
        dSinks := s.dSinks.restore hold.sink hinit hfree
        ongoingTlc := s.ongoingTlc.erase hold.sink }
        (unfinished.filter (·.1 ≠ hold.sink)) (registered.erase hold) := by
  obtain ⟨m, hm, -⟩ := h.mem_unfinished (List.mem_append_left _ hmem)
  have hheld : hold.sink ∈ unfinished.map Prod.fst := List.mem_map.mpr ⟨_, hm, rfl⟩
  have hinit : hold.sink ∈ s.dSinks.initList := by
    rw [h.initList_eq]
    exact h.partition.subset (List.mem_append_left _ hheld)
  have hfree : hold.sink ∉ s.dSinks.freeList := fun hfree ↦
    List.disjoint_of_nodup_append h.nodup_sinks hheld hfree
  have hkey : hold.sink ∈ s.ongoingTlc.keys := by
    rw [← Dict.isSome_get?_iff, (h.ongoing hold.sink hold.blockAddr).mpr ⟨hold, hmem, rfl, rfl⟩]
    rfl
  refine ⟨hinit, hfree, ?_, h.simulated, h.initList_eq, h.counted, h.perm_without hmem, ?_, ?_⟩
  · have hrelease : s.dSinks.release hold.sink =
        .ok (s.dSinks.eventQueue.head?, s.dSinks.restore hold.sink hinit hfree) :=
      FreeList.release_eq_ok_iff.mpr ⟨hinit, hfree, rfl⟩
    unfold ePortMonitor
    rw [hrelease, ok_bind]
    exact if_pos hkey
  · have hsinks : (unfinished.map Prod.fst).Perm
        (hold.sink :: (unfinished.filter (·.1 ≠ hold.sink)).map Prod.fst) := by
      have hwithout := (h.perm_without hmem).map Hold.sink
      rw [List.map_map] at hwithout
      refine h.perm_sinks.trans (List.Perm.trans ?_ (hwithout.symm.cons hold.sink))
      exact ((List.perm_cons_erase hmem).append_right _).map Hold.sink
    calc
      ((unfinished.filter (·.1 ≠ hold.sink)).map Prod.fst ++
          (s.dSinks.freeList ++ [hold.sink])).Perm
          (hold.sink :: ((unfinished.filter (·.1 ≠ hold.sink)).map Prod.fst ++
            s.dSinks.freeList)) := by
        rw [← List.append_assoc]
        exact List.perm_append_singleton _ _
      _ |>.Perm (unfinished.map Prod.fst ++ s.dSinks.freeList) := hsinks.symm.append_right _
      _ |>.Perm dSinkList := h.partition
  · intro sink blockAddr
    rw [Dict.get?_erase]
    have hother : ∀ other ∈ registered, other.sink = hold.sink → other = hold := fun other ho heq ↦
      List.inj_on_of_nodup_map h.nodup_registered ho hmem heq
    have hnodup : registered.Nodup := h.nodup_registered.of_map
    by_cases hsink : sink = hold.sink
    · subst hsink
      have hnone : ¬∃ other ∈ registered.erase hold,
          other.sink = hold.sink ∧ other.blockAddr = blockAddr := by
        rintro ⟨other, ho, heq, -⟩
        obtain ⟨hne, ho⟩ := hnodup.mem_erase_iff.mp ho
        exact hne (hother other ho heq)
      simp [hnone]
    · rw [if_neg hsink, h.ongoing]
      constructor
      · rintro ⟨other, ho, rfl, hblock⟩
        refine ⟨other, hnodup.mem_erase_iff.mpr ⟨?_, ho⟩, rfl, hblock⟩
        rintro rfl
        exact hsink rfl
      · rintro ⟨other, ho, hrest⟩
        exact ⟨other, List.mem_of_mem_erase ho, hrest⟩

end Holds

/-- The beats that are still to come of a Grant that is arriving. -/
inductive Arriving : Option Hold → List DMessage → Option (ℕ × ℕ) → Prop
  | idle : Arriving none [] none
  | burst (hold : Hold) (rest : List DMessage) (hne : rest ≠ [])
    (h : ∀ m ∈ rest, m.sink = hold.sink ∧ m.size = hold.size ∧ m.source = hold.source) :
    Arriving (some hold) rest (some (hold.sink, rest.length))

/-- The Grants of the registered sinks have been received, are arriving or are queued. -/
structure Deliveries (cfg : Config) (msgs : List DMessage) (l : Ledger) (registered : List Hold)
    (granted : List Hold) (receiving : Option Hold) (queued : List Hold) (rest : List DMessage)
    (bursts : List (List DMessage)) : Prop where
  registered : registered.Perm (granted ++ receiving.toList ++ queued)
  msgs_eq : msgs = rest ++ bursts.flatten
  bursts : List.Forall₂ (Beats cfg) queued bursts
  granted : l.granted.Perm (granted.map Hold.sink)
  arriving : Arriving receiving rest l.receiving

/-- There are Grants as in `Deliveries`. -/
def Delivered (cfg : Config) (msgs : List DMessage) (l : Ledger) (registered : List Hold) : Prop :=
  ∃ granted receiving queued rest bursts,
    Deliveries cfg msgs l registered granted receiving queued rest bursts

namespace Delivered

variable {msgs : List DMessage} {l l' : Ledger} {registered : List Hold}

theorem frame (h : Delivered cfg msgs l registered) (hgranted : l'.granted = l.granted)
    (hreceiving : l'.receiving = l.receiving) : Delivered cfg msgs l' registered := by
  obtain ⟨granted, receiving, queued, rest, bursts, h⟩ := h
  exact ⟨granted, receiving, queued, rest, bursts, h.registered, h.msgs_eq, h.bursts,
    hgranted ▸ h.granted, hreceiving ▸ h.arriving⟩

/-- A Grant is queued for a new hold. -/
theorem queues (h : Delivered cfg msgs l registered) {hold : Hold} {ms : List DMessage}
    (hms : Beats cfg hold ms) : Delivered cfg (msgs ++ ms) l (hold :: registered) := by
  obtain ⟨granted, receiving, queued, rest, bursts, h⟩ := h
  refine ⟨granted, receiving, queued ++ [hold], rest, bursts ++ [ms], ?_, ?_, ?_, h.granted,
    h.arriving⟩
  · rw [← List.append_assoc]
    exact (h.registered.cons hold).trans (List.perm_append_singleton _ _).symm
  · rw [h.msgs_eq, List.flatten_append, List.append_assoc, List.flatten_singleton]
  · exact List.rel_append h.bursts (List.Forall₂.cons hms List.Forall₂.nil)

/-- The last beat of a Grant makes it received. -/
theorem arrive {granted queued : List Hold} {hold : Hold} {rest : List DMessage}
    {bursts : List (List DMessage)}
    (hregistered : registered.Perm (granted ++ hold :: queued))
    (hmsgs : msgs = rest ++ bursts.flatten) (hbursts : List.Forall₂ (Beats cfg) queued bursts)
    (hgranted : l.granted.Perm (granted.map Hold.sink))
    (hrest : ∀ m ∈ rest, m.sink = hold.sink ∧ m.size = hold.size ∧ m.source = hold.source) :
    Delivered cfg msgs (l.arrive hold.sink rest.length) registered := by
  unfold Ledger.arrive
  split
  · next hlength =>
    obtain rfl := List.eq_nil_of_length_eq_zero hlength
    refine ⟨granted ++ [hold], none, queued, [], bursts, ?_, hmsgs, hbursts, ?_, .idle⟩
    · rw [Option.toList_none, List.append_nil, List.append_assoc, List.singleton_append]
      exact hregistered
    · rw [List.map_append]
      exact hgranted.append_right _
  · next hlength =>
    refine ⟨granted, some hold, queued, rest, bursts, ?_, hmsgs, hbursts, hgranted, ?_⟩
    · rw [Option.toList_some, List.append_assoc, List.singleton_append]
      exact hregistered
    · exact .burst hold rest (fun hnil ↦ hlength (by rw [hnil]; rfl)) hrest

/-- A beat of a Grant is taken from the queue. -/
theorem receive {m : DMessage} (hm : isGrant m.opcode = true)
    (h : Delivered cfg (m :: msgs) l registered) :
    Delivered cfg msgs (l.receive cfg m) registered := by
  obtain ⟨granted, receiving, queued, rest, bursts, h⟩ := h
  obtain ⟨hregistered, hmsgs, hbursts, hgranted, harriving⟩ := h
  unfold Ledger.receive
  rw [if_pos hm]
  generalize hreceiving : l.receiving = current at harriving
  cases harriving with
  | idle =>
    rw [List.nil_append] at hmsgs
    cases hbursts with
    | nil => exact nomatch hmsgs
    | @cons hold ms queued bursts hbeats hbursts =>
      obtain ⟨first, ms, rfl⟩ := List.exists_cons_of_ne_nil hbeats.ne_nil
      rw [List.flatten_cons, List.cons_append] at hmsgs
      obtain ⟨rfl, htail⟩ := List.cons.inj hmsgs
      have hsink : m.sink = hold.sink := hbeats.sink m List.mem_cons_self
      have hlength : dBurstLen cfg m - 1 = ms.length := by
        rw [hbeats.length m List.mem_cons_self]
        rfl
      rw [Option.toList_none, List.append_nil] at hregistered
      rw [hsink, hlength]
      apply arrive hregistered htail hbursts hgranted
      intro m' hm'
      have hmem : m' ∈ m :: ms := List.mem_cons_of_mem m hm'
      exact ⟨hbeats.sink m' hmem, hbeats.request m' hmem⟩
  | burst hold rest hne hrest =>
    obtain ⟨first, rest, rfl⟩ := List.exists_cons_of_ne_nil hne
    rw [List.cons_append] at hmsgs
    obtain ⟨rfl, htail⟩ := List.cons.inj hmsgs
    rw [Option.toList_some, List.append_assoc, List.singleton_append] at hregistered
    apply arrive hregistered htail hbursts hgranted
    exact fun m' hm' ↦ hrest m' (List.mem_cons_of_mem m hm')

/-- A received Grant has a registered hold, and is acknowledged once. -/
theorem finish (h : Delivered cfg msgs l registered) {sink : ℕ} (hsink : sink ∈ l.granted) :
    ∃ hold ∈ registered, hold.sink = sink ∧
      Delivered cfg msgs (l.finish sink) (registered.erase hold) := by
  obtain ⟨granted, receiving, queued, rest, bursts, h⟩ := h
  obtain ⟨hold, hmem, rfl⟩ := List.mem_map.mp (h.granted.subset hsink)
  have hregistered : hold ∈ registered := by
    apply h.registered.symm.subset
    rw [List.append_assoc]
    exact List.mem_append_left _ hmem
  refine ⟨hold, hregistered, rfl, granted.erase hold, receiving, queued, rest, bursts, ?_,
    h.msgs_eq, h.bursts, ?_, h.arriving⟩
  · have herase := h.registered.erase hold
    rw [List.append_assoc, List.erase_append_left _ hmem, ← List.append_assoc] at herase
    exact herase
  · have herase : (l.granted.erase hold.sink).Perm ((granted.map Hold.sink).erase hold.sink) :=
      h.granted.erase hold.sink
    refine herase.trans ?_
    have hcons := (List.perm_cons_erase hmem).map Hold.sink
    exact List.Perm.cons_inv ((List.perm_cons_erase (List.mem_map.mpr ⟨hold, hmem, rfl⟩)).symm.trans
      hcons)

end Delivered

/-- The invariant: the holds, and the Grants of those that are registered. -/
def Tracked (cfg : Config) (s : State) (l : Ledger) : Prop :=
  ∃ registered, Holds cfg s l.unfinished registered ∧
    Delivered cfg (grantMsgs s.dQueue) l registered

theorem tracked_restart (memory : Dict ℕ ℕ) (blocks : List ℕ) (draws : Draws)
    (h : s.ongoingTlc = Dict.empty) : Tracked cfg (restart memory blocks draws s) {} := by
  refine ⟨[], ⟨simulated_restart memory blocks draws s, rfl, nofun, List.Perm.refl _,
    List.Perm.refl _, ?_⟩, [], none, [], [], [], List.Perm.refl _, rfl, List.Forall₂.nil,
    List.Perm.refl _, .idle⟩
  intro sink blockAddr
  change s.ongoingTlc.get? sink = some blockAddr ↔ _
  rw [h]
  simp

namespace Tracked

variable {l : Ledger}

theorem keeps (h : Tracked cfg s l) (hsim : Simulated s') (hkeeps : KeepsSinks cfg s s') :
    Tracked cfg s' l := by
  obtain ⟨registered, hholds, hdelivered⟩ := h
  exact ⟨registered, hholds.keeps hsim hkeeps, hkeeps.grants ▸ hdelivered⟩

theorem consistent (h : Tracked cfg s l) : s.probes.Consistent none := by
  obtain ⟨registered, hholds, -⟩ := h
  exact hholds.simulated.consistent

theorem a (h : Tracked cfg s l) (hdrive : s.drive = true) (hsim : Simulated s') {m : AMessage}
    (hstep : aPortMonitor cfg m s = .ok s') : Tracked cfg s' (l.react cfg s (.a m)) := by
  unfold Ledger.react
  rw [if_pos hdrive]
  dsimp only
  split
  · next hm =>
    obtain ⟨registered, hholds, hdelivered⟩ := h
    obtain ⟨sink, hsink, hnext, htakes⟩ :=
      aPortMonitor_takes hholds.simulated.consistent hm hstep
    rw [hnext]
    rcases hholds.takes hsim hsink htakes with ⟨hqueues, hholds'⟩ | ⟨hqueue, hholds'⟩
    · obtain ⟨ms, hbeats, hgrants⟩ := hqueues.grants
      refine ⟨_, hholds', ?_⟩
      rw [hgrants]
      exact (hdelivered.queues hbeats).frame rfl rfl
    · refine ⟨_, hholds', ?_⟩
      rw [hqueue]
      exact hdelivered.frame rfl rfl
  · next hm =>
    exact h.keeps hsim (aPortMonitor_keepsSinks h.consistent hm hstep)

theorem c (h : Tracked cfg s l) (hsim : Simulated s') {m : CMessage}
    (hstep : cPortMonitor cfg m s = .ok s') : Tracked cfg s' l := by
  obtain ⟨registered, hholds, hdelivered⟩ := h
  rcases cPortMonitor_sinks hholds.simulated.consistent hholds.counted hstep with
    hkeeps | ⟨hold, hsettles⟩
  · exact ⟨registered, hholds.keeps hsim hkeeps, hkeeps.grants ▸ hdelivered⟩
  · obtain ⟨ms, hbeats, hgrants⟩ := hsettles.grants
    refine ⟨hold :: registered, hholds.settles hsim hsettles, ?_⟩
    rw [hgrants]
    exact hdelivered.queues hbeats

/-- The GrantAck of a received Grant does not raise. -/
theorem e (h : Tracked cfg s l) {sink : ℕ} (hsink : sink ∈ l.granted) :
    ∃ s', ePortMonitor sink s = .ok s' ∧ Tracked cfg s' (l.finish sink) := by
  obtain ⟨registered, hholds, hdelivered⟩ := h
  obtain ⟨hold, hmem, rfl, hfinish⟩ := hdelivered.finish hsink
  obtain ⟨hinit, hfree, hstep, hholds'⟩ := hholds.release hmem
  exact ⟨_, hstep, _, hholds', hfinish⟩

theorem dPop (h : Tracked cfg s l) (hdrive : s.drive = true) (hsim : Simulated s')
    (hstep : dPortDriver s = .ok s') : Tracked cfg s' (l.react cfg s .dPop) := by
  unfold Ledger.react
  rw [if_pos hdrive]
  dsimp only
  obtain ⟨hprobes, htlc⟩ := dPortDriver_frame hstep
  obtain ⟨hsinks, hgrants⟩ := dPortDriver_sinks hstep
  have hother : (taken s).toList.filter (isGrant ·.opcode) = [] → Tracked cfg s' l := by
    intro hnil
    rw [hnil, List.nil_append] at hgrants
    exact h.keeps hsim (.of_eq hsinks htlc hgrants.symm (by rw [hprobes]))
  cases htaken : taken s with
  | none => exact hother (by rw [htaken]; rfl)
  | some m =>
    cases hm : isGrant m.opcode with
    | false =>
      have hsame : l.receive cfg m = l := if_neg (by rw [hm]; exact Bool.false_ne_true)
      dsimp only
      rw [hsame]
      apply hother
      rw [htaken]
      simp [hm]
    | true =>
      have hsingle : grantMsgs s.dQueue = m :: grantMsgs s'.dQueue := by
        rw [hgrants, htaken]
        simp [hm]
      obtain ⟨registered, hholds, hdelivered⟩ := h
      rw [hsingle] at hdelivered
      refine ⟨registered, ?_, hdelivered.receive hm⟩
      dsimp only
      rw [Ledger.unfinished_receive]
      refine ⟨hsim, ?_, ?_, ?_, ?_, ?_⟩
      · rw [hsinks]
        exact hholds.initList_eq
      · rw [hprobes]
        exact hholds.counted
      · rw [hprobes]
        exact hholds.holds
      · rw [hsinks]
        exact hholds.partition
      · rw [htlc]
        exact hholds.ongoing

theorem step {event : Event} (h : Tracked cfg s l) (hlegal : l.Legal cfg s event)
    (hstep : Adapter.step cfg s event = .ok s') : Tracked cfg s' (l.react cfg s event) := by
  have hsim : Simulated s' := by
    obtain ⟨registered, hholds, -⟩ := h
    exact hholds.simulated.step hstep
  by_cases hdrive : s.drive = true
  · have hquiet : l.react cfg s event = l → KeepsSinks cfg s s' →
        Tracked cfg s' (l.react cfg s event) := by
      intro hreact hkeeps
      rw [hreact]
      exact h.keeps hsim hkeeps
    unfold Adapter.step at hstep
    rw [hdrive] at hstep
    cases event with
    | a m => exact h.a hdrive hsim hstep
    | c m =>
      have hreact : l.react cfg s (.c m) = l := if_pos hdrive
      rw [hreact]
      exact h.c hsim hstep
    | e sink =>
      have hreact : l.react cfg s (.e sink) = l.finish sink := if_pos hdrive
      obtain ⟨t, ht, htracked⟩ := h.e hlegal
      have hsame : t = s' := Except.ok.inj (ht.symm.trans hstep)
      rw [hreact, ← hsame]
      exact htracked
    | dPop => exact h.dPop hdrive hsim hstep
    | hostPoll => exact hquiet (if_pos hdrive) (hostInterface_keepsSinks h.consistent hstep)
    | retriever => exact hquiet (if_pos hdrive) (dataRetriever_keepsSinks h.consistent hstep)
    | bPop =>
      apply hquiet (if_pos hdrive)
      obtain rfl := Except.ok.inj hstep
      rw [if_pos rfl]
      exact bPortDriver_keepsSinks s
    | dFire | bFire | probeBlock | stop =>
      apply hquiet (if_pos hdrive)
      obtain rfl := Except.ok.inj hstep
      exact .of_eq rfl rfl rfl rfl
  · have hreact : l.react cfg s event = l := if_neg hdrive
    rw [hreact]
    apply h.keeps hsim
    unfold Adapter.step at hstep
    rw [Bool.not_eq_true] at hdrive
    rw [hdrive] at hstep
    cases event with
    | retriever => exact dataRetriever_keepsSinks h.consistent hstep
    | a | c | e | dPop | bPop | hostPoll | dFire | bFire | probeBlock | stop =>
      obtain rfl := Except.ok.inj hstep
      exact .of_eq rfl rfl rfl rfl

theorem run {events : List Event} (h : Tracked cfg s l) (hlegal : Ledger.LegalRun cfg (s, l) events)
    {l' : Ledger} (hrun : Ledger.run cfg (s, l) events = .ok (s', l')) : Tracked cfg s' l' := by
  induction events generalizing s l with
  | nil =>
    obtain ⟨rfl, rfl⟩ := Prod.mk.inj (Except.ok.inj hrun)
    exact h
  | cons event events ih =>
    unfold Ledger.run at hrun
    rw [List.foldlM_cons] at hrun
    obtain ⟨⟨s₁, l₁⟩, hstep, hrest⟩ := bind_eq_ok.mp hrun
    obtain ⟨hevent, hevents⟩ := hlegal
    rw [hstep] at hevents
    obtain ⟨t, ht, heq⟩ := bind_eq_ok.mp hstep
    obtain ⟨rfl, rfl⟩ := Prod.mk.inj (Except.ok.inj heq)
    exact ih (h.step hevent ht) hevents hrest

end Tracked

/-- The sinks in a state of a legal run. -/
structure SinksKept (cfg : Config) (s : State) (l : Ledger) : Prop where
  /-- The held sinks and the free ones partition all sinks. -/
  partition : (l.unfinished.map Prod.fst ++ s.dSinks.freeList).Perm dSinkList
  /-- A queued Grant carries the sink of one unfinished Acquire, whose request it answers. -/
  queued : ∀ m callback, some (m, callback) ∈ s.dQueue → isGrant m.opcode = true →
    ∃ acquire, (m.sink, acquire) ∈ l.unfinished ∧
      m.size = acquire.size ∧ m.source = acquire.source ∧
      ∀ other ∈ l.unfinished, other ≠ (m.sink, acquire) → other.1 ≠ m.sink
  /-- `ongoing_tlc` maps held sinks to the blocks of their Acquires. -/
  ongoing : ∀ sink blockAddr, s.ongoingTlc.get? sink = some blockAddr →
    ∃ acquire, (sink, acquire) ∈ l.unfinished ∧ blockAddr = cfg.blockAddr acquire.address
  /-- A legal Acquire finds a sink. -/
  get : ∀ m, l.Legal cfg s (.a m) → Acquires cfg m → ∃ r, getSink s = .ok r
  /-- A legal GrantAck neither releases a free sink nor pops a missing key. -/
  release : ∀ sink, l.Legal cfg s (.e sink) → ∃ s', ePortMonitor sink s = .ok s'

namespace Tracked

variable {l : Ledger}

/-- Every queued Grant answers a registered hold. -/
theorem exists_hold_of_queued {registered : List Hold} {msgs : List DMessage} {m : DMessage}
    (h : Delivered cfg msgs l registered) (hm : m ∈ msgs) : ∃ hold ∈ registered,
      m.sink = hold.sink ∧ m.size = hold.size ∧ m.source = hold.source := by
  obtain ⟨granted, receiving, queued, rest, bursts, h⟩ := h
  obtain ⟨hregistered, hmsgs, hbursts, -, harriving⟩ := h
  rw [hmsgs, List.mem_append] at hm
  rcases hm with hm | hm
  · generalize l.receiving = current at harriving
    cases harriving with
    | idle => exact nomatch hm
    | burst hold rest hne hrest =>
      refine ⟨hold, hregistered.symm.subset ?_, hrest m hm⟩
      simp
  · obtain ⟨ms, hms, hm⟩ := List.mem_flatten.mp hm
    obtain ⟨i, hi, rfl⟩ := List.getElem_of_mem hms
    have hlength := hbursts.length_eq
    have hi' : i < queued.length := hlength ▸ hi
    have hbeats : Beats cfg queued[i] bursts[i] := hbursts.get hi' hi
    refine ⟨queued[i], hregistered.symm.subset ?_, hbeats.sink m hm, hbeats.request m hm⟩
    exact List.mem_append_right _ (List.getElem_mem hi')

theorem sinksKept (h : Tracked cfg s l) : SinksKept cfg s l := by
  obtain ⟨registered, hholds, hdelivered⟩ := id h
  have hnodup : (l.unfinished.map Prod.fst).Nodup := (List.nodup_append.mp hholds.nodup_sinks).1
  refine ⟨hholds.partition, ?_, ?_, ?_, fun sink hsink ↦ ?_⟩
  · intro m callback hentry hgrant
    have hm : m ∈ grantMsgs s.dQueue := mem_grantMsgs.mpr ⟨⟨callback, hentry⟩, hgrant⟩
    obtain ⟨hold, hmem, hsink, hsize, hsource⟩ := exists_hold_of_queued hdelivered hm
    obtain ⟨acquire, hacquire, hhold⟩ := hholds.mem_unfinished (List.mem_append_left _ hmem)
    rw [hsink, hsize, hsource, hhold]
    refine ⟨acquire, hacquire, rfl, rfl, fun other hother hne heq ↦ hne ?_⟩
    exact List.inj_on_of_nodup_map hnodup hother hacquire heq
  · intro sink blockAddr hget
    obtain ⟨hold, hmem, rfl, rfl⟩ := (hholds.ongoing sink blockAddr).mp hget
    obtain ⟨acquire, hacquire, hhold⟩ := hholds.mem_unfinished (List.mem_append_left _ hmem)
    exact ⟨acquire, hacquire, congrArg Hold.blockAddr hhold⟩
  · intro m hlegal hm
    have hlength := hholds.partition.length_eq
    rw [List.length_append, List.length_map] at hlength
    have hlt := (hlegal hm).1
    have hpos : 0 < s.dSinks.freeList.length := by omega
    obtain ⟨sink, -, hget⟩ := exists_getSink_eq_ok (List.ne_nil_of_length_pos hpos)
    exact ⟨_, hget⟩
  · obtain ⟨s', hstep, -⟩ := h.e hsink
    exact ⟨s', hstep⟩

end Tracked

/-- The sinks are kept in every run that begins with an empty `ongoing_tlc`. The client may send
anything but a fifth Acquire, an `AcquirePerm` on a block that is not `TIP` and a GrantAck without
a received Grant. -/
theorem run_sinksKept (cfg : Config) (memory : Dict ℕ ℕ) (blocks : List ℕ) (draws : Draws)
    (before : State) (hbefore : before.ongoingTlc = Dict.empty) (events : List Event)
    (hlegal : Ledger.LegalRun cfg (restart memory blocks draws before, {}) events)
    (s : State) (l : Ledger)
    (hrun : Ledger.run cfg (restart memory blocks draws before, {}) events = .ok (s, l)) :
    SinksKept cfg s l :=
  ((tracked_restart memory blocks draws hbefore).run hlegal hrun).sinksKept

/-- Two Acquires for one block: the first is acknowledged while the second waits for its probe. -/
def twoAcquires : List Event :=
  [.a ⟨.acquireBlock, NtoT, 4, 0, 0, 0xff, 0⟩, .dPop, .dFire, .dPop, .dFire,
    .a ⟨.acquireBlock, NtoT, 4, 1, 0, 0xff, 0⟩, .e 0, .bPop, .bFire,
    .c ⟨.probeAck, TtoN, 4, 0, 0, 0, 0⟩, .dPop]

theorem run_sinksKept_twoAcquires : ∃ s l,
    Ledger.run {} (restart (Dict.ofList [(0, 7), (8, 9)]) [0] (fun _ ↦ 0)
      (start Dict.empty [] fun _ ↦ 0), {}) twoAcquires = .ok (s, l) ∧ SinksKept {} s l :=
  ⟨_, _, rfl, run_sinksKept {} (Dict.ofList [(0, 7), (8, 9)]) [0] (fun _ ↦ 0)
    (start Dict.empty [] fun _ ↦ 0) rfl twoAcquires (by decide) _ _ rfl⟩

end ProcessorFuzz.TileLink.Adapter
