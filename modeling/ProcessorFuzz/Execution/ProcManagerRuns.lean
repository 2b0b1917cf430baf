import ProcessorFuzz.Execution.ProcManagerCounters

/-!
# The states, and the workers under every schedule

The array of states is guarded by a semaphore that `set_state` and `get_state` take and give back
themselves. Together with the invariants of the two counters this describes every state that the
workers can reach after the constructor.
-/

namespace ProcessorFuzz.Execution.ProcManager

open Library Library.Interleaving

variable {sysv : Sysv} [sysv.Documented]

section System

variable {ι : Type}

/-- The states after the `set_state` calls of a history. -/
def replay (numCores : ℕ) (log : List (ι × Event)) : List ℕ :=
  log.foldl (fun states entry ↦
    match entry.2 with
    | .setState procNum state => states.set procNum state
    | _ => states) (List.replicate numCores 0)

/-- The states in shared memory. -/
def Ipc.states (numCores : ℕ) (ipc : Ipc) : List ℕ :=
  ((ipc.shm .procStates).take numCores).map UInt8.toNat

theorem replay_append_eq {numCores : ℕ} {w : ι} (log : List (ι × Event)) {new : List Event}
    (h : ∀ e ∈ new, e.resource ≠ .states) :
    replay numCores (log ++ new.map (w, ·)) = replay numCores log := by
  induction new generalizing log with
  | nil => rw [List.map_nil, List.append_nil]
  | cons e new ih =>
    have hrest := ih (log ++ [(w, e)]) fun e' he' ↦ h e' (List.mem_cons_of_mem e he')
    have hone : replay numCores (log ++ [(w, e)]) = replay numCores log := by
      rw [replay, List.foldl_append]
      cases e with
      | setState p state => exact absurd rfl (h _ List.mem_cons_self)
      | _ => rfl
    rw [← hone, ← hrest, List.append_assoc]
    rfl

/-- What `set_state` writes back is the array with one entry replaced. -/
theorem newStates_eq_set {numCores procNum state : ℕ} {states bytes : List UInt8}
    (hlength : numCores ≤ states.length)
    (h : newStates numCores procNum state states = .ok bytes) :
    bytes.length = numCores ∧
      bytes.map UInt8.toNat = ((states.take numCores).map UInt8.toNat).set procNum state := by
  obtain ⟨hbytes, hcopy, hset⟩ := newStates_eq_ok h
  refine ⟨hbytes, List.ext_getElem? fun i ↦ ?_⟩
  by_cases hi : i < numCores
  · rw [List.getElem?_map]
    by_cases hip : i = procNum
    · subst hip
      obtain ⟨hstate, hentry⟩ := hset hi
      rw [hentry, List.getElem?_set_self (by simpa [hlength] using hi), Option.map_some,
        UInt8.toNat_ofNat', Nat.mod_eq_of_lt hstate]
    · rw [hcopy i hi hip, List.getElem?_set_ne (Ne.symm hip), List.getElem?_map,
        List.getElem?_take_of_lt hi]
  · rw [List.getElem?_eq_none (by simp; omega), List.getElem?_eq_none (by simp; omega)]

/-- `set_state` after it has read the states. -/
def setStateWrite (numCores procNum state : ℕ) (states : List UInt8) : Program Unit :=
  Code.ofExcept (newStates numCores procNum state states) >>= fun new_states ↦
    .call (.write .procStates new_states) fun _ ↦ ask (.v .stateSem)

def setStateRest (numCores procNum state : ℕ) : Program Unit :=
  .call (.read .procStates numCores) (setStateWrite numCores procNum state)

def getStateReturn (procNum : ℕ) (states : List UInt8) : Program ℕ :=
  match states[procNum]? with
  | none => .raise .indexError
  | some byte => .ret byte.toNat

def getStateRest (numCores procNum : ℕ) : Program ℕ :=
  .call (.read .procStates numCores) fun states ↦
    .call (.v .stateSem) fun _ ↦ getStateReturn procNum states

/-- A worker is not between `P` and `V` of the states. -/
def Frame.OutsideStates (numCores : ℕ) : Frame → Prop
  | setting p state code => code = setState numCores p state
  | getting p code => code = getState numCores p ∨ ∃ e, code = .raise e
  | _ => True

/-- Where a worker between `P` and `V` of the states is, when the completed calls have left
`states`: its frame and the states in memory. -/
inductive StateStage (numCores : ℕ) (states : List ℕ) : Frame → List ℕ → Prop
  | setRead (p state : ℕ) :
    StateStage numCores states (.setting p state (setStateRest numCores p state)) states
  | setWrite (p state : ℕ) (bytes : List UInt8) (hlength : numCores ≤ bytes.length)
      (hbytes : (bytes.take numCores).map UInt8.toNat = states) :
    StateStage numCores states (.setting p state (setStateWrite numCores p state bytes)) states
  | setPost (p state : ℕ) :
    StateStage numCores states (.setting p state (ask (.v .stateSem))) (states.set p state)
  | getRead (p : ℕ) :
    StateStage numCores states (.getting p (getStateRest numCores p)) states
  | getPost (p : ℕ) (bytes : List UInt8) :
    StateStage numCores states
      (.getting p (.call (.v .stateSem) fun _ ↦ getStateReturn p bytes)) states

def StatesFree (numCores : ℕ) (s : System ι) : Prop :=
  s.ipc.sem .stateSem = 1 ∧ numCores ≤ (s.ipc.shm .procStates).length ∧
    s.ipc.states numCores = replay numCores s.log

def StatesInside (numCores : ℕ) (w : ι) (s : System ι) : Prop :=
  s.ipc.sem .stateSem = 0 ∧ numCores ≤ (s.ipc.shm .procStates).length ∧
    StateStage numCores (replay numCores s.log) (s.frame w) (s.ipc.states numCores)

def StatesInvariant (numCores : ℕ) : System ι → Prop :=
  Guarded (StatesFree numCores) (fun w s ↦ (s.frame w).OutsideStates numCores)
    (StatesInside numCores)

theorem Frame.outsideStates_of_resource {numCores : ℕ} {frame : Frame}
    (h : frame.resource ≠ some .states) : frame.OutsideStates numCores := by
  cases frame with
  | setting p state code => exact absurd rfl h
  | getting p code => exact absurd rfl h
  | _ => trivial

theorem Job.outsideStates_start (numCores : ℕ) (job : Job) :
    (job.start numCores).OutsideStates numCores := by
  cases job with
  | setState p state => exact rfl
  | getState p => exact Or.inl rfl
  | number c => trivial

theorem StateStage.resource {numCores : ℕ} {states current : List ℕ} {frame : Frame}
    (h : StateStage numCores states frame current) : frame.resource = some .states := by
  cases h <;> rfl

section Steps

variable [DecidableEq ι] {numCores : ℕ} {w : ι} {s s' : System ι}

/-- The step of a method that numbers a file. -/
theorem StatesInvariant.of_other (h : StatesInvariant numCores s)
    (hlocal : (s.frame w).Local) (hstep : step sysv numCores w s = some s')
    (hother : (s.frame w).resource ≠ some .states) : StatesInvariant numCores s' := by
  have heffect := step_effect hlocal hstep
  have hagree := heffect.agree .states hother
  have hshm : s'.ipc.shm .procStates = s.ipc.shm .procStates := hagree.shm .procStates rfl
  have hsem : s'.ipc.sem .stateSem = s.ipc.sem .stateSem := hagree.sem .stateSem rfl
  have hstates : s'.ipc.states numCores = s.ipc.states numCores := by
    rw [Ipc.states, Ipc.states, hshm]
  obtain ⟨new, hlog, hnew⟩ := heffect.log
  have hreplay : replay numCores s'.log = replay numCores s.log := by
    rw [hlog]
    refine replay_append_eq s.log fun e he hc ↦ ?_
    rw [hnew e he, hc] at hother
    exact hother rfl
  have houtside : (s'.frame w).OutsideStates numCores := by
    by_cases hafter : (s'.frame w).resource = some .states
    · obtain ⟨job, hjob⟩ := step_resource hlocal hstep hother hafter
      rw [hjob]
      exact job.outsideStates_start numCores
    · exact Frame.outsideStates_of_resource hafter
  apply Guarded.step h
  · intro v hv hout
    rwa [heffect.others v hv]
  · rintro ⟨hone, hlength, hvalue⟩ -
    refine Or.inl ⟨⟨hsem.trans hone, ?_, ?_⟩, houtside⟩
    · rwa [hshm]
    · rw [hstates, hreplay, hvalue]
  · rintro ⟨-, -, hstage⟩
    exact absurd hstage.resource hother
  · rintro v hv ⟨hzero, hlength, hstage⟩ -
    refine ⟨⟨hsem.trans hzero, ?_, ?_⟩, houtside⟩
    · rwa [hshm]
    · rwa [hreplay, hstates, heffect.others v hv]

theorem advance_setState {p state : ℕ} {ipc : Ipc} {r : Frame × Ipc}
    (h : (Frame.setting p state (setState numCores p state)).advance sysv ipc = some r) :
    ipc.sem .stateSem ≠ 0 ∧ r = (.setting p state (setStateRest numCores p state),
      ipc.setSem .stateSem (ipc.sem .stateSem - 1)) := by
  obtain ⟨next, hnext, rfl⟩ := Option.map_eq_some_iff.mp h
  obtain ⟨hsem, rfl⟩ := advance_p hnext
  exact ⟨hsem, rfl⟩

theorem advance_getState {p : ℕ} {ipc : Ipc} {r : Frame × Ipc}
    (h : (Frame.getting p (getState numCores p)).advance sysv ipc = some r) :
    ipc.sem .stateSem ≠ 0 ∧ r = (.getting p (getStateRest numCores p),
      ipc.setSem .stateSem (ipc.sem .stateSem - 1)) := by
  obtain ⟨next, hnext, rfl⟩ := Option.map_eq_some_iff.mp h
  obtain ⟨hsem, rfl⟩ := advance_p hnext
  exact ⟨hsem, rfl⟩

theorem advance_setStateWrite {p state : ℕ} {bytes : List UInt8} {ipc : Ipc} {r : Frame × Ipc}
    (hsize : numCores ≤ (ipc.shm .procStates).length) (hlength : numCores ≤ bytes.length)
    (h : (Frame.setting p state (setStateWrite numCores p state bytes)).advance sysv ipc = some r) :
    ∃ new : List UInt8, new.length = numCores ∧
      new.map UInt8.toNat = ((bytes.take numCores).map UInt8.toNat).set p state ∧
      r = (.setting p state (ask (.v .stateSem)),
        ipc.setShm .procStates (new ++ (ipc.shm .procStates).drop numCores)) := by
  obtain ⟨next, hnext, rfl⟩ := Option.map_eq_some_iff.mp h
  unfold setStateWrite at hnext
  cases hnew : newStates numCores p state bytes with
  | error e =>
    rw [hnew] at hnext
    cases hnext
  | ok new =>
    obtain ⟨hnewLength, hset⟩ := newStates_eq_set hlength hnew
    rw [hnew] at hnext
    have hwrite := advance_write (by rwa [hnewLength]) hnext
    rw [hnewLength] at hwrite
    obtain rfl := hwrite
    exact ⟨new, hnewLength, hset, rfl⟩

omit [sysv.Documented] in
/-- A step after which the worker is in the same method. -/
theorem advance_setting {p state : ℕ} {code : Program Unit} {ipc : Ipc} {r : Frame × Ipc}
    (h : (Frame.setting p state code).advance sysv ipc = some r) :
    ∃ next, code.advance sysv ipc = some next ∧ r = (.setting p state next.1, next.2) := by
  obtain ⟨next, hnext, rfl⟩ := Option.map_eq_some_iff.mp h
  exact ⟨next, hnext, rfl⟩

omit [sysv.Documented] in
theorem advance_getting {p : ℕ} {code : Program ℕ} {ipc : Ipc} {r : Frame × Ipc}
    (h : (Frame.getting p code).advance sysv ipc = some r) :
    ∃ next, code.advance sysv ipc = some next ∧ r = (.getting p next.1, next.2) := by
  obtain ⟨next, hnext, rfl⟩ := Option.map_eq_some_iff.mp h
  exact ⟨next, hnext, rfl⟩

/-- A worker outside can only take the semaphore, and only while the states are free. -/
theorem OutsideStates.step (h : (s.frame w).OutsideStates numCores)
    (hresource : (s.frame w).resource = some .states) (hstep : step sysv numCores w s = some s') :
    s.ipc.sem .stateSem ≠ 0 ∧ s'.ipc.states numCores = s.ipc.states numCores ∧
      (StatesFree numCores s → StatesInside numCores w s') := by
  rcases step_cases hstep with ⟨job, jobs, hidle, -, -⟩ | ⟨-, frame, ipc, hadvance, rfl⟩
  · rw [hidle] at hresource
    exact nomatch hresource
  generalize s.frame w = current at h hresource hadvance
  cases current with
  | idle => exact nomatch hresource
  | reading c code => exact nomatch hresource
  | writing c num code => exact nomatch hresource
  | setting p state code =>
    obtain rfl : code = setState numCores p state := h
    obtain ⟨hsem, hr⟩ := advance_setState hadvance
    obtain ⟨rfl, rfl⟩ := Prod.mk.inj hr
    refine ⟨hsem, rfl, ?_⟩
    rintro ⟨hone, hlength, hvalue⟩
    refine ⟨?_, hlength, ?_⟩
    · rw [System.settle_ipc, Ipc.setSem_sem_self, hone]
    · show StateStage numCores (replay numCores s.log) ((System.enter _ w _).frame w)
        (s.ipc.states numCores)
      rw [System.enter_frame_self, hvalue]
      exact .setRead p state
  | getting p code =>
    rcases h with rfl | ⟨e, rfl⟩
    · obtain ⟨hsem, hr⟩ := advance_getState hadvance
      obtain ⟨rfl, rfl⟩ := Prod.mk.inj hr
      refine ⟨hsem, rfl, ?_⟩
      rintro ⟨hone, hlength, hvalue⟩
      refine ⟨?_, hlength, ?_⟩
      · rw [System.settle_ipc, Ipc.setSem_sem_self, hone]
      · show StateStage numCores (replay numCores s.log) ((System.enter _ w _).frame w)
          (s.ipc.states numCores)
        rw [System.enter_frame_self, hvalue]
        exact .getRead p
    · exact nomatch hadvance

/-- The bytes that `read` returns begin with the states. -/
theorem readStates_facts {ipc : Ipc} (hsize : numCores ≤ (ipc.shm .procStates).length) :
    let bytes := if numCores = 0 then ipc.shm .procStates else (ipc.shm .procStates).take numCores
    numCores ≤ bytes.length ∧ (bytes.take numCores).map UInt8.toNat = ipc.states numCores := by
  intro bytes
  by_cases hzero : numCores = 0
  · subst hzero
    exact ⟨Nat.zero_le _, rfl⟩
  · have hbytes : bytes = (ipc.shm .procStates).take numCores := if_neg hzero
    rw [hbytes]
    refine ⟨?_, ?_⟩
    · rw [List.length_take]
      omega
    · rw [List.take_take, Nat.min_self]
      rfl

/-- `set_state` does not return before it has given the semaphore back. -/
theorem System.settle_setStateWrite (s : System ι) (w : ι) (p state : ℕ) (bytes : List UInt8) :
    s.settle w (.setting p state (setStateWrite numCores p state bytes)) =
      s.enter w (.setting p state (setStateWrite numCores p state bytes)) := by
  unfold setStateWrite
  cases newStates numCores p state bytes <;> rfl

omit [DecidableEq ι] in
theorem replay_setState (log : List (ι × Event)) (p state : ℕ) :
    replay numCores (log ++ [(w, .setState p state)]) = (replay numCores log).set p state := by
  rw [replay, List.foldl_append]
  rfl

omit [DecidableEq ι] in
theorem replay_getState (log : List (ι × Event)) (p state : ℕ) :
    replay numCores (log ++ [(w, .getState p state)]) = replay numCores log := by
  rw [replay, List.foldl_append]
  rfl

/-- A worker that is inside goes on to its next stage, or leaves. -/
theorem StatesInside.step (h : StatesInside numCores w s)
    (hstep : step sysv numCores w s = some s') :
    StatesInside numCores w s' ∨
      (StatesFree numCores s' ∧ (s'.frame w).OutsideStates numCores) := by
  obtain ⟨hsem, hsize, hstage⟩ := h
  rcases step_cases hstep with ⟨job, jobs, hidle, -, -⟩ | ⟨-, frame, ipc, hadvance, rfl⟩
  · rw [hidle] at hstage
    exact nomatch hstage
  generalize hcurrent : s.ipc.states numCores = current at hstage
  generalize s.frame w = before at hstage hadvance
  cases hstage with
  | setRead p state =>
    obtain ⟨next, hnext, hr⟩ := advance_setting hadvance
    obtain rfl := advance_read hnext
    obtain ⟨rfl, rfl⟩ := Prod.mk.inj hr
    obtain ⟨hlength, hbytes⟩ := readStates_facts hsize
    left
    rw [System.settle_setStateWrite]
    refine ⟨hsem, hsize, ?_⟩
    rw [System.enter_frame_self]
    show StateStage numCores (replay numCores s.log) _ (s.ipc.states numCores)
    rw [hcurrent]
    exact .setWrite p state _ hlength (hbytes.trans hcurrent)
  | setWrite p state bytes hlength hbytes =>
    obtain ⟨new, hnewLength, hnew, hr⟩ := advance_setStateWrite hsize hlength hadvance
    obtain ⟨rfl, rfl⟩ := Prod.mk.inj hr
    refine Or.inl ⟨hsem, ?_, ?_⟩
    · rw [System.settle_ipc, Ipc.setShm_shm_self, List.length_append]
      omega
    · have hstates : (s.ipc.setShm .procStates
          (new ++ (s.ipc.shm .procStates).drop numCores)).states numCores =
            (replay numCores s.log).set p state := by
        rw [Ipc.states, Ipc.setShm_shm_self, List.take_left' hnewLength, hnew, hbytes]
      show StateStage numCores (replay numCores s.log) ((System.enter _ w _).frame w) _
      rw [System.enter_frame_self, System.settle_ipc, hstates]
      exact .setPost p state
  | setPost p state =>
    obtain ⟨next, hnext, hr⟩ := advance_setting hadvance
    obtain rfl := advance_v hnext
    obtain ⟨rfl, rfl⟩ := Prod.mk.inj hr
    refine Or.inr ⟨⟨?_, hsize, ?_⟩, ?_⟩
    · rw [System.settle_ipc, Ipc.setSem_sem_self, hsem]
    · show s.ipc.states numCores = replay numCores (s.log ++ [(w, .setState p state)])
      rw [hcurrent, replay_setState]
    · rw [System.settle, System.enter_frame_self]
      trivial
  | getRead p =>
    obtain ⟨next, hnext, hr⟩ := advance_getting hadvance
    obtain rfl := advance_read hnext
    obtain ⟨rfl, rfl⟩ := Prod.mk.inj hr
    refine Or.inl ⟨hsem, hsize, ?_⟩
    show StateStage numCores (replay numCores s.log) ((System.enter _ w _).frame w)
      (s.ipc.states numCores)
    rw [System.enter_frame_self, hcurrent]
    exact .getPost p _
  | getPost p bytes =>
    obtain ⟨next, hnext, hr⟩ := advance_getting hadvance
    obtain rfl := advance_v hnext
    obtain ⟨rfl, rfl⟩ := Prod.mk.inj hr
    right
    unfold getStateReturn
    cases bytes[p]? with
    | none =>
      refine ⟨⟨?_, hsize, hcurrent⟩, ?_⟩
      · rw [System.settle_ipc, Ipc.setSem_sem_self, hsem]
      · show ((System.enter _ w (.getting p (.raise .indexError))).frame w).OutsideStates numCores
        rw [System.enter_frame_self]
        exact Or.inr ⟨.indexError, rfl⟩
    | some byte =>
      refine ⟨⟨?_, hsize, ?_⟩, ?_⟩
      · rw [System.settle_ipc, Ipc.setSem_sem_self, hsem]
      · show s.ipc.states numCores = replay numCores (s.log ++ [(w, .getState p byte.toNat)])
        rw [hcurrent, replay_getState]
      · rw [System.settle, System.enter_frame_self]
        trivial

/-- A step of a worker that is inside replaces the state it sets, or none. -/
theorem StatesInside.replaces (h : StatesInside numCores w s)
    (hstep : ProcManager.step sysv numCores w s = some s') :
    s'.ipc.states numCores = s.ipc.states numCores ∨
      ∃ p state code, s.frame w = .setting p state code ∧
        s'.ipc.states numCores = (s.ipc.states numCores).set p state := by
  obtain ⟨hsem, hsize, hstage⟩ := h
  rcases step_cases hstep with ⟨job, jobs, hidle, -, -⟩ | ⟨-, frame, ipc, hadvance, rfl⟩
  · rw [hidle] at hstage
    exact nomatch hstage
  rw [System.settle_ipc]
  generalize hcurrent : s.ipc.states numCores = current at hstage
  generalize s.frame w = before at hstage hadvance
  cases hstage with
  | setWrite p state bytes hlength hbytes =>
    obtain ⟨new, hnewLength, hnew, hr⟩ := advance_setStateWrite hsize hlength hadvance
    obtain ⟨rfl, rfl⟩ := Prod.mk.inj hr
    refine Or.inr ⟨p, state, _, rfl, ?_⟩
    rw [Ipc.states, Ipc.setShm_shm_self, List.take_left' hnewLength, hnew, hbytes]
  | setRead p state =>
    obtain ⟨next, hnext, hr⟩ := advance_setting hadvance
    obtain rfl := advance_read hnext
    obtain ⟨rfl, rfl⟩ := Prod.mk.inj hr
    exact Or.inl hcurrent
  | setPost p state =>
    obtain ⟨next, hnext, hr⟩ := advance_setting hadvance
    obtain rfl := advance_v hnext
    obtain ⟨rfl, rfl⟩ := Prod.mk.inj hr
    exact Or.inl hcurrent
  | getRead p =>
    obtain ⟨next, hnext, hr⟩ := advance_getting hadvance
    obtain rfl := advance_read hnext
    obtain ⟨rfl, rfl⟩ := Prod.mk.inj hr
    exact Or.inl hcurrent
  | getPost p bytes =>
    obtain ⟨next, hnext, hr⟩ := advance_getting hadvance
    obtain rfl := advance_v hnext
    obtain ⟨rfl, rfl⟩ := Prod.mk.inj hr
    exact Or.inl hcurrent

theorem StatesInvariant.step (h : StatesInvariant numCores s) (hlocal : (s.frame w).Local)
    (hstep : step sysv numCores w s = some s') : StatesInvariant numCores s' := by
  by_cases hresource : (s.frame w).resource = some .states
  · have heffect := step_effect hlocal hstep
    apply Guarded.step h
    · intro v hv hout
      rwa [heffect.others v hv]
    · exact fun hfree hout ↦ Or.inr ((OutsideStates.step hout hresource hstep).2.2 hfree)
    · exact fun hinside ↦ hinside.step hstep
    · rintro v hv ⟨hsem, -⟩ hout
      exact absurd hsem (OutsideStates.step hout hresource hstep).1
  · exact h.of_other hlocal hstep hresource

end Steps

/-- The job that a worker is busy with. -/
def Frame.job? : Frame → Option Job
  | idle => none
  | reading c _ => some (.number c)
  | writing c _ _ => some (.number c)
  | setting p state _ => some (.setState p state)
  | getting p _ => some (.getState p)

/-- The job that ends with an event. -/
def Event.job? : Event → Option Job
  | readNum _ _ => none
  | wroteNum c => some (.number c)
  | setState p state => some (.setState p state)
  | getState p _ => some (.getState p)

/-- The jobs that a worker's part of the history completes. -/
def done (events : List Event) : List Job := events.filterMap Event.job?

/-- The states that the `set_state` calls of a history give to an entry. -/
def written (procNum : ℕ) (events : List Event) : List ℕ :=
  events.filterMap fun event ↦
    match event with
    | .setState p state => if p = procNum then some state else none
    | _ => none

/-- A worker has received a number from `read_num` and has not returned from `write_num`. -/
def System.Between (s : System ι) (c : Counter) (w : ι) : Prop :=
  ∃ num code, s.frame w = .writing c num code

/-- No pair of `read_num` and `write_num` of a counter is going on or still to come. -/
def System.PairsComplete (s : System ι) (c : Counter) : Prop :=
  ∀ w, (s.frame w).resource ≠ some (.counter c) ∧ .number c ∉ s.jobs w

/-- What holds after every step of every run. -/
structure Consistent (sysv : Sysv) [DecidableEq ι] [Fintype ι] (numCores : ℕ)
    (first : Counter → ℕ) (jobs : ι → List Job) (s : System ι) : Prop where
  /-- The history of a worker, its current job and the rest are its jobs in their order. -/
  order : ∀ w, done (share w s.log) ++ (s.frame w).job?.toList ++ s.jobs w = jobs w
  exclusive : ∀ c v w, s.Between c v → s.Between c w → v = w
  consecutive : ∀ c, ∃ k, readings c s.log = List.range' (first c) k
  distinct : ∀ c, (readings c s.log).Nodup
  total : ∀ c, s.PairsComplete c → s.ipc.stored c = first c + ∑ w, (jobs w).count (.number c) ∧
    first c + ∑ w, (jobs w).count (.number c) < 2 ^ 32 ∧ s.ipc.sem c.sem = 1
  /-- A step that changes entry `i` belongs to a `set_state` of entry `i`. -/
  changes : ∀ w s', step sysv numCores w s = some s' → ∀ i,
    (s'.ipc.states numCores)[i]? ≠ (s.ipc.states numCores)[i]? →
      ∃ state code, s.frame w = .setting i state code ∧
        (s'.ipc.states numCores)[i]? = some state
  /-- An entry that only worker `w` sets holds the last state that `w` wrote. -/
  last : ∀ w p, p < numCores → (∀ v, v ≠ w → ∀ state, .setState p state ∉ jobs v) →
    (∀ state code, s.frame w ≠ .setting p state code) →
      (s.ipc.states numCores)[p]? = some ((written p (share w s.log)).getLast?.getD 0)

section Runs

variable [DecidableEq ι] {numCores : ℕ} {first : Counter → ℕ} {jobs : ι → List Job} {w : ι}
  {s s' : System ι}

structure Invariant (numCores : ℕ) (first : Counter → ℕ) (jobs : ι → List Job)
    (s : System ι) : Prop where
  frame_local : ∀ w, (s.frame w).Local
  counters : ∀ c, CounterInvariant c (first c) s
  states : StatesInvariant numCores s
  order : ∀ w, done (share w s.log) ++ (s.frame w).job?.toList ++ s.jobs w = jobs w

omit [sysv.Documented] in
theorem Frame.advance_job? {frame : Frame} {ipc : Ipc} {r : Frame × Ipc}
    (h : frame.advance sysv ipc = some r) : r.1.job? = frame.job? := by
  cases frame with
  | idle => exact nomatch h
  | reading c code =>
    obtain ⟨next, -, rfl⟩ := Option.map_eq_some_iff.mp h
    rfl
  | writing c num code =>
    obtain ⟨next, -, rfl⟩ := Option.map_eq_some_iff.mp h
    rfl
  | setting p state code =>
    obtain ⟨next, -, rfl⟩ := Option.map_eq_some_iff.mp h
    rfl
  | getting p code =>
    obtain ⟨next, -, rfl⟩ := Option.map_eq_some_iff.mp h
    rfl

/-- A job is noted when its last method returns. -/
theorem System.settle_order (s : System ι) (w : ι) (frame : Frame) :
    done (share w (s.settle w frame).log) ++ ((s.settle w frame).frame w).job?.toList =
      done (share w s.log) ++ frame.job?.toList := by
  unfold settle
  split
  all_goals rw [enter_frame_self]
  all_goals simp [enter, note, done, Frame.job?, Event.job?]

@[simp]
theorem System.settle_jobs (s : System ι) (w : ι) (frame : Frame) :
    (s.settle w frame).jobs = s.jobs := by
  unfold settle
  split <;> rfl

theorem Job.job?_start (numCores : ℕ) (job : Job) : (job.start numCores).job? = some job := by
  cases job <;> rfl

theorem step_order (horder : ∀ v, done (share v s.log) ++ (s.frame v).job?.toList ++ s.jobs v =
      jobs v) (hlocal : (s.frame w).Local) (hstep : step sysv numCores w s = some s') (v : ι) :
    done (share v s'.log) ++ (s'.frame v).job?.toList ++ s'.jobs v = jobs v := by
  by_cases hv : v = w
  · subst hv
    rcases step_cases hstep with ⟨job, rest, hidle, hjobs, rfl⟩ | ⟨-, frame, ipc, hadvance, rfl⟩
    · rw [System.enter_frame_self, job.job?_start numCores, ← horder v, hidle, hjobs]
      show done (share v s.log) ++ [job] ++ Function.update s.jobs v rest v = _
      rw [Function.update_self]
      simp [Frame.job?]
    · rw [System.settle_order, System.settle_jobs, Frame.advance_job? hadvance]
      exact horder v
  · have heffect := step_effect hlocal hstep
    obtain ⟨new, hlog, -⟩ := heffect.log
    have hshare : share v s'.log = share v s.log := by
      have hnew : share v (new.map (w, ·)) = [] := by
        rw [share, List.filterMap_map, List.filterMap_eq_nil_iff]
        intro e _
        simp [Ne.symm hv]
      rw [hlog, share_append, hnew, List.append_nil]
    have hjobs : s'.jobs v = s.jobs v := by
      rcases step_cases hstep with ⟨job, rest, -, -, rfl⟩ | ⟨-, frame, ipc, -, rfl⟩
      · exact Function.update_of_ne hv ..
      · rw [System.settle_jobs]
    rw [hshare, heffect.others v hv, hjobs]
    exact horder v

theorem Invariant.step (h : Invariant numCores first jobs s)
    (hstep : step sysv numCores w s = some s') : Invariant numCores first jobs s' where
  frame_local v := by
    have heffect := step_effect (h.frame_local w) hstep
    by_cases hv : v = w
    · exact hv ▸ heffect.frame_local
    · rw [heffect.others v hv]
      exact h.frame_local v
  counters c := (h.counters c).step (h.frame_local w) hstep
  states := h.states.step (h.frame_local w) hstep
  order := step_order h.order (h.frame_local w) hstep

/-- The invariant holds when the constructor has returned. -/
theorem Constructed.invariant {ipc : Ipc} (h : Constructed numCores first ipc)
    (jobs : ι → List Job) : Invariant numCores first jobs (start ipc jobs) where
  frame_local _ := trivial
  counters c := by
    refine Or.inl ⟨⟨h.sem c.sem, 0, h.size c, rfl, rfl, h.stored c⟩, fun _ ↦ trivial⟩
  states := by
    refine Or.inl ⟨⟨h.sem .stateSem, h.states, ?_⟩, fun _ ↦ trivial⟩
    show ((ipc.shm .procStates).take numCores).map UInt8.toNat = List.replicate numCores 0
    rw [h.states_zero, List.map_replicate]
    rfl
  order _ := rfl

theorem run_invariant (h : Invariant numCores first jobs s) (schedule : List ι) :
    Invariant numCores first jobs (run sysv numCores schedule s) := by
  induction schedule generalizing s with
  | nil => exact h
  | cons w schedule ih =>
    apply ih
    show Invariant numCores first jobs ((step sysv numCores w s).getD s)
    cases hstep : step sysv numCores w s with
    | none => exact h
    | some s' => exact h.step hstep

theorem Invariant.exclusive (h : Invariant numCores first jobs s) {c : Counter} {v w : ι}
    (hv : s.Between c v) (hw : s.Between c w) : v = w := by
  have hinside : ∀ u, s.Between c u → ¬ (s.frame u).Outside c := by
    rintro u ⟨num, code, hframe⟩
    rw [hframe]
    exact fun hout ↦ hout rfl
  exact Guarded.eq_of_not_outside (h.counters c) (hinside v hv) (hinside w hw)

theorem Invariant.consecutive (h : Invariant numCores first jobs s) (c : Counter) :
    ∃ k, readings c s.log = List.range' (first c) k := by
  rcases h.counters c with ⟨⟨-, k, htally⟩, -⟩ | ⟨w, ⟨-, k, reads, value, -, htally⟩, -⟩
  · exact ⟨k, htally.readings⟩
  · exact ⟨reads, htally.readings⟩

/-- The complete pairs are the finished jobs of all workers. -/
theorem wrote_eq_sum [Fintype ι] (c : Counter) (log : List (ι × Event)) :
    wrote c log = ∑ w, (done (share w log)).count (.number c) := by
  calc
    wrote c log = ∑ w, (share w log).countP fun event ↦ decide (event = .wroteNum c) :=
      (sum_countP_share (fun event : Event ↦ decide (event = .wroteNum c)) log).symm
    _ = ∑ w, (done (share w log)).count (.number c) := by
      refine Finset.sum_congr rfl fun w _ ↦ ?_
      rw [done, List.count_filterMap]
      refine List.countP_congr fun event _ ↦ ?_
      cases event <;> simp [Event.job?]

theorem Frame.job?_ne_number {frame : Frame} {c : Counter}
    (h : frame.resource ≠ some (.counter c)) : .number c ∉ frame.job?.toList := by
  cases frame <;> simp_all [Frame.resource, Frame.job?, eq_comm]

theorem Invariant.total [Fintype ι] (h : Invariant numCores first jobs s) {c : Counter}
    (hcomplete : s.PairsComplete c) :
    s.ipc.stored c = first c + ∑ w, (jobs w).count (.number c) ∧
      first c + ∑ w, (jobs w).count (.number c) < 2 ^ 32 ∧ s.ipc.sem c.sem = 1 := by
  have hsum : wrote c s.log = ∑ w, (jobs w).count (.number c) := by
    rw [wrote_eq_sum]
    refine Finset.sum_congr rfl fun w _ ↦ ?_
    obtain ⟨hresource, hjobs⟩ := hcomplete w
    rw [← h.order w, List.count_append, List.count_append, List.count_eq_zero.mpr hjobs,
      List.count_eq_zero.mpr (Frame.job?_ne_number hresource)]
    rfl
  rcases h.counters c with ⟨⟨hsem, k, htally⟩, -⟩ | ⟨w, ⟨-, k, reads, value, hstage, -⟩, -⟩
  · have hstored : s.ipc.stored c = first c + ∑ w, (jobs w).count (.number c) := by
      rw [← hsum, htally.wrote, htally.stored]
    refine ⟨hstored, ?_, hsem⟩
    have hlt := fromBytes_lt ((s.ipc.shm c.shm).take 4)
    rw [List.length_take, Nat.min_eq_left htally.size] at hlt
    rwa [← hstored]
  · exact absurd hstage.resource (hcomplete w).1

theorem Invariant.changes (h : Invariant numCores first jobs s)
    (hstep : ProcManager.step sysv numCores w s = some s') {i : ℕ}
    (hi : (s'.ipc.states numCores)[i]? ≠ (s.ipc.states numCores)[i]?) :
    ∃ state code, s.frame w = .setting i state code ∧
      (s'.ipc.states numCores)[i]? = some state := by
  have hlocal := h.frame_local w
  by_cases hresource : (s.frame w).resource = some .states
  · have hreplaces : s'.ipc.states numCores = s.ipc.states numCores ∨
        ∃ p state code, s.frame w = .setting p state code ∧
          s'.ipc.states numCores = (s.ipc.states numCores).set p state := by
      rcases h.states with ⟨-, hout⟩ | ⟨v, hinside, hout⟩
      · exact Or.inl (OutsideStates.step (hout w) hresource hstep).2.1
      · by_cases hv : w = v
        · exact (hv ▸ hinside).replaces hstep
        · exact Or.inl (OutsideStates.step (hout w hv) hresource hstep).2.1
    rcases hreplaces with hsame | ⟨p, state, code, hframe, hset⟩
    · exact absurd (congrArg (·[i]?) hsame) hi
    · have hip : p = i := by
        by_contra hne
        exact hi (by rw [hset, List.getElem?_set_ne hne])
      subst hip
      have hlength : p < (s.ipc.states numCores).length := by
        by_contra hge
        exact hi (by rw [hset, List.set_eq_of_length_le (by omega)])
      exact ⟨state, code, hframe, by rw [hset, List.getElem?_set_self hlength]⟩
  · have hagree := (step_effect hlocal hstep).agree .states hresource
    exact absurd (by rw [Ipc.states, Ipc.states, hagree.shm .procStates rfl]) hi

omit [DecidableEq ι] in
theorem length_replay (log : List (ι × Event)) : (replay numCores log).length = numCores := by
  induction log using List.reverseRecOn with
  | nil => exact List.length_replicate
  | append_singleton log entry ih =>
    obtain ⟨w, event⟩ := entry
    cases event with
    | setState p state => rw [replay_setState, List.length_set, ih]
    | _ =>
      rw [replay, List.foldl_append]
      exact ih

theorem replay_getElem? {p : ℕ} (hp : p < numCores) (log : List (ι × Event))
    (hwriter : ∀ v state, (v, Event.setState p state) ∈ log → v = w) :
    (replay numCores log)[p]? = some ((written p (share w log)).getLast?.getD 0) := by
  induction log using List.reverseRecOn with
  | nil => exact List.getElem?_replicate_of_lt hp
  | append_singleton log entry ih =>
    obtain ⟨v, event⟩ := entry
    have hlog := ih fun u state hu ↦ hwriter u state (List.mem_append_left _ hu)
    cases event with
    | setState q state =>
      rw [replay_setState]
      by_cases hq : q = p
      · subst hq
        obtain rfl : v = w := hwriter v state (by simp)
        rw [List.getElem?_set_self (by rw [length_replay]; exact hp)]
        simp [written]
      · rw [List.getElem?_set_ne hq, hlog, share_append]
        by_cases hv : v = w
        · subst hv
          simp [written, hq]
        · rw [share_of_ne hv, List.append_nil]
    | _ =>
      rw [replay, List.foldl_append]
      show (replay numCores log)[p]? = _
      rw [hlog, share_append]
      by_cases hv : v = w
      · subst hv
        simp [written]
      · rw [share_of_ne hv, List.append_nil]

/-- An entry in a worker's part of the history or in its frame comes from its jobs. -/
theorem Invariant.mem_jobs_of_log (h : Invariant numCores first jobs s) {v : ι} {event : Event}
    {job : Job} (hmem : (v, event) ∈ s.log) (hjob : event.job? = some job) : job ∈ jobs v := by
  have hshare : event ∈ share v s.log := List.mem_filterMap.mpr ⟨(v, event), hmem, if_pos rfl⟩
  rw [← h.order v]
  apply List.mem_append_left
  apply List.mem_append_left
  exact List.mem_filterMap.mpr ⟨event, hshare, hjob⟩

theorem Invariant.mem_jobs_of_frame (h : Invariant numCores first jobs s) {v : ι} {job : Job}
    (hjob : (s.frame v).job? = some job) : job ∈ jobs v := by
  rw [← h.order v]
  apply List.mem_append_left
  apply List.mem_append_right
  rw [hjob]
  exact List.mem_singleton_self job

theorem Invariant.last (h : Invariant numCores first jobs s) {p : ℕ} (hp : p < numCores)
    (hwriter : ∀ v, v ≠ w → ∀ state, .setState p state ∉ jobs v)
    (hframe : ∀ state code, s.frame w ≠ .setting p state code) :
    (s.ipc.states numCores)[p]? = some ((written p (share w s.log)).getLast?.getD 0) := by
  have hreplay : (replay numCores s.log)[p]? =
      some ((written p (share w s.log)).getLast?.getD 0) := by
    refine replay_getElem? hp s.log fun v state hv ↦ ?_
    by_contra hne
    exact hwriter v hne state (h.mem_jobs_of_log hv rfl)
  rcases h.states with ⟨⟨-, -, hstates⟩, -⟩ | ⟨v, ⟨-, -, hstage⟩, -⟩
  · rw [hstates, hreplay]
  · generalize hv : s.frame v = frame at hstage
    generalize hcurrent : s.ipc.states numCores = current at hstage
    cases hstage with
    | setPost q state =>
      by_cases hq : q = p
      · subst hq
        by_cases hvw : v = w
        · exact absurd hv (hvw ▸ hframe state _)
        · refine absurd ?_ (hwriter v hvw state)
          exact h.mem_jobs_of_frame (by rw [hv]; rfl)
      · rw [List.getElem?_set_ne hq, hreplay]
    | _ => exact hreplay

/-- Whatever the schedule: the workers number their files without a gap or a repetition, and the
states are those that their own workers set. -/
theorem run_consistent [Fintype ι] {pageSize mNum cNum : ℕ} {ipc : Ipc}
    (hinit : procManager sysv pageSize numCores mNum cNum = some (.ok ((), ipc)))
    (jobs : ι → List Job) (schedule : List ι) :
    Consistent sysv numCores (initialNum mNum cNum) jobs
      (run sysv numCores schedule (start ipc jobs)) := by
  have h : Invariant numCores (initialNum mNum cNum) jobs
      (run sysv numCores schedule (start ipc jobs)) :=
    run_invariant ((constructed_of_procManager hinit).invariant jobs) schedule
  exact {
    order := h.order
    exclusive := fun c v w ↦ h.exclusive
    consecutive := h.consecutive
    distinct := fun c ↦ by
      obtain ⟨k, hk⟩ := h.consecutive c
      rw [hk]
      exact List.nodup_range'
    total := fun c ↦ h.total
    changes := fun w s' hstep i ↦ h.changes hstep
    last := fun w p ↦ h.last }

end Runs

end System

/-- The calls when only a `P` at 0 blocks. -/
def linux : Sysv
  | .p sem, ipc =>
    if ipc.sem sem = 0 then none else some (.ok ((), ipc.setSem sem (ipc.sem sem - 1)))
  | .v sem, ipc => some (.ok ((), ipc.setSem sem (ipc.sem sem + 1)))
  | .read shm byteCount, ipc =>
    some (.ok (if byteCount = 0 then ipc.shm shm else (ipc.shm shm).take byteCount, ipc))
  | .write shm bytes, ipc =>
    some (if bytes.length ≤ (ipc.shm shm).length then
      .ok ((), ipc.setShm shm (bytes ++ (ipc.shm shm).drop bytes.length)) else .error .valueError)

instance : linux.Documented where
  p {sem ipc r} h := by
    by_cases hsem : ipc.sem sem = 0
    · simp [linux, hsem] at h
    · exact ⟨hsem, by simpa [linux, hsem, eq_comm] using h⟩
  v h := (Option.some.inj h).symm
  read h := (Option.some.inj h).symm
  write h := (Option.some.inj h).symm

/-- Two workers number a mismatch each and set their states. -/
def twoJobs (w : Fin 2) : List Job := [.number .mNum, .setState w 4]

/-- Their calls come in turns, and the second worker has to wait for the first one. -/
def inTurns : List (Fin 2) := (List.replicate 16 [0, 1]).flatten

theorem run_consistent_two : ∃ ipc, procManager linux 8 2 3 0 = some (.ok ((), ipc)) ∧
    Consistent linux 2 (initialNum 3 0) twoJobs (run linux 2 inTurns (start ipc twoJobs)) ∧
    (run linux 2 inTurns (start ipc twoJobs)).log =
      [(0, .readNum .mNum 3), (0, .wroteNum .mNum), (1, .readNum .mNum 4), (1, .wroteNum .mNum),
        (0, .setState 0 4), (1, .setState 1 4)] := by
  obtain ⟨ipc, hinit, hlog⟩ : ∃ ipc, procManager linux 8 2 3 0 = some (.ok ((), ipc)) ∧
      (run linux 2 inTurns (start ipc twoJobs)).log =
        [(0, .readNum .mNum 3), (0, .wroteNum .mNum), (1, .readNum .mNum 4), (1, .wroteNum .mNum),
          (0, .setState 0 4), (1, .setState 1 4)] := ⟨_, rfl, by decide +kernel⟩
  exact ⟨ipc, hinit, run_consistent hinit twoJobs inTurns, hlog⟩

end ProcessorFuzz.Execution.ProcManager
