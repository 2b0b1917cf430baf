import ProcessorFuzz.Execution.ProcManager

/-!
# The counters under every schedule

Every method keeps to the segment and semaphore of one resource, so the invariant of a resource has
to be checked only for the steps of the methods that use it. A counter is guarded by a semaphore
that `read_num` takes and `write_num` gives back.
-/

namespace ProcessorFuzz.Execution.ProcManager

open Library Library.Interleaving

variable {sysv : Sysv} [sysv.Documented]

def Frame.resource : Frame → Option Resource
  | idle => none
  | reading c _ => some (.counter c)
  | writing c _ _ => some (.counter c)
  | setting _ _ _ => some .states
  | getting _ _ => some .states

def Event.resource : Event → Resource
  | readNum c _ => .counter c
  | wroteNum c => .counter c
  | setState _ _ => .states
  | getState _ _ => .states

/-- The rest of a method keeps to the resource of the method. -/
def Frame.Local : Frame → Prop
  | idle => True
  | reading c code => code.CallsIn fun call ↦ call.resource = .counter c
  | writing c _ code => code.CallsIn fun call ↦ call.resource = .counter c
  | setting _ _ code => code.CallsIn fun call ↦ call.resource = .states
  | getting _ code => code.CallsIn fun call ↦ call.resource = .states

theorem Job.local_start (numCores : ℕ) (job : Job) : (job.start numCores).Local := by
  cases job with
  | number c => exact callsIn_readNum c
  | setState procNum state => exact callsIn_setState numCores procNum state
  | getState procNum => exact callsIn_getState numCores procNum

/-- A step of a program that keeps to resource `r` changes nothing of another one. -/
theorem agree_of_advance {α : Type} {r q : Resource} {code : Program α} {ipc : Ipc}
    {next : Program α × Ipc} (hcode : code.CallsIn fun call ↦ call.resource = r) (hrq : r ≠ q)
    (h : code.advance sysv ipc = some next) : ipc.Agree q next.2 := by
  rcases (hcode.advance h).2 with hsame | ⟨c, a, hc, hcall⟩
  · rw [hsame]
    exact Ipc.Agree.refl q ipc
  · exact agree_of_call (hc ▸ hrq) hcall

theorem Frame.advance_facts {frame frame' : Frame} {ipc ipc' : Ipc} (hlocal : frame.Local)
    (h : frame.advance sysv ipc = some (frame', ipc')) :
    frame'.resource = frame.resource ∧ frame'.Local ∧
      ∀ q, frame.resource ≠ some q → ipc.Agree q ipc' := by
  cases frame with
  | idle => exact nomatch h
  | reading c code =>
    obtain ⟨next, hnext, hr⟩ := Option.map_eq_some_iff.mp h
    obtain ⟨rfl, rfl⟩ := Prod.mk.inj hr
    exact ⟨rfl, (Code.CallsIn.advance hlocal hnext).1, fun q hq ↦
      agree_of_advance hlocal (fun hc ↦ hq (congrArg some hc)) hnext⟩
  | writing c num code =>
    obtain ⟨next, hnext, hr⟩ := Option.map_eq_some_iff.mp h
    obtain ⟨rfl, rfl⟩ := Prod.mk.inj hr
    exact ⟨rfl, (Code.CallsIn.advance hlocal hnext).1, fun q hq ↦
      agree_of_advance hlocal (fun hc ↦ hq (congrArg some hc)) hnext⟩
  | setting p state code =>
    obtain ⟨next, hnext, hr⟩ := Option.map_eq_some_iff.mp h
    obtain ⟨rfl, rfl⟩ := Prod.mk.inj hr
    exact ⟨rfl, (Code.CallsIn.advance hlocal hnext).1, fun q hq ↦
      agree_of_advance hlocal (fun hc ↦ hq (congrArg some hc)) hnext⟩
  | getting p code =>
    obtain ⟨next, hnext, hr⟩ := Option.map_eq_some_iff.mp h
    obtain ⟨rfl, rfl⟩ := Prod.mk.inj hr
    exact ⟨rfl, (Code.CallsIn.advance hlocal hnext).1, fun q hq ↦
      agree_of_advance hlocal (fun hc ↦ hq (congrArg some hc)) hnext⟩

section System

variable {ι : Type} [DecidableEq ι]

@[simp]
theorem System.enter_frame_self (s : System ι) (w : ι) (frame : Frame) :
    (s.enter w frame).frame w = frame := Function.update_self ..

theorem System.enter_frame_of_ne (s : System ι) {v w : ι} (h : v ≠ w) (frame : Frame) :
    (s.enter w frame).frame v = s.frame v := Function.update_of_ne h ..

/-- What a step of worker `w` from `s` to `s'` can change, when its method has resource `r`. -/
structure Effect (r : Option Resource) (w : ι) (s s' : System ι) : Prop where
  others : ∀ v, v ≠ w → s'.frame v = s.frame v
  frame_local : (s'.frame w).Local
  agree : ∀ q, r ≠ some q → s.ipc.Agree q s'.ipc
  log : ∃ new : List Event, s'.log = s.log ++ new.map (w, ·) ∧ ∀ e ∈ new, r = some e.resource

/-- The return of a method is noted in the history, and the worker goes on with `frame`. -/
theorem System.note_effect (s : System ι) (w : ι) (event : Event) (frame : Frame)
    (hlocal : frame.Local) :
    Effect (some event.resource) w s ((s.note w event).enter w frame) where
  others _ hv := enter_frame_of_ne _ hv _
  frame_local := by
    rw [enter_frame_self]
    exact hlocal
  agree q _ := Ipc.Agree.refl q s.ipc
  log := by
    refine ⟨[event], rfl, fun e he ↦ ?_⟩
    rw [List.mem_singleton.mp he]

theorem System.enter_effect (s : System ι) (w : ι) (frame : Frame) (r : Option Resource)
    (hlocal : frame.Local) : Effect r w s (s.enter w frame) where
  others _ hv := enter_frame_of_ne _ hv _
  frame_local := by
    rw [enter_frame_self]
    exact hlocal
  agree q _ := Ipc.Agree.refl q s.ipc
  log := ⟨[], (List.append_nil s.log).symm, fun e he ↦ absurd he List.not_mem_nil⟩

theorem System.settle_effect (s : System ι) (w : ι) {frame : Frame} (hlocal : frame.Local) :
    Effect frame.resource w s (s.settle w frame) := by
  unfold settle
  split
  · next c num =>
    exact s.note_effect w (.readNum c num) (.writing c num _) (callsIn_writeNum c (num + 1))
  · next c _ => exact s.note_effect w (.wroteNum c) .idle trivial
  · next p state => exact s.note_effect w (.setState p state) .idle trivial
  · next p state => exact s.note_effect w (.getState p state) .idle trivial
  · exact s.enter_effect w _ _ hlocal

@[simp]
theorem System.settle_ipc (s : System ι) (w : ι) (frame : Frame) :
    (s.settle w frame).ipc = s.ipc := by
  unfold settle
  split <;> rfl

/-- A method that goes on has the resource that it had before. -/
theorem System.settle_resource (s : System ι) (w : ι) (frame : Frame) :
    ((s.settle w frame).frame w).resource = frame.resource ∨ (s.settle w frame).frame w = .idle := by
  unfold settle
  split
  · next c num =>
    refine Or.inl ?_
    rw [enter_frame_self]
    rfl
  · exact Or.inr (enter_frame_self ..)
  · exact Or.inr (enter_frame_self ..)
  · exact Or.inr (enter_frame_self ..)
  · exact Or.inl (congrArg Frame.resource (enter_frame_self ..))

omit [sysv.Documented] in
theorem step_cases {numCores : ℕ} {w : ι} {s s' : System ι} (h : step sysv numCores w s = some s') :
    (∃ job jobs, s.frame w = .idle ∧ s.jobs w = job :: jobs ∧
      s' = { s with jobs := Function.update s.jobs w jobs }.enter w (job.start numCores)) ∨
    (s.frame w ≠ .idle ∧ ∃ frame ipc, (s.frame w).advance sysv s.ipc = some (frame, ipc) ∧
      s' = { s with ipc }.settle w frame) := by
  unfold step at h
  split at h
  · next hidle =>
    split at h
    · exact nomatch h
    · next job jobs hjobs =>
      exact Or.inl ⟨job, jobs, hidle, hjobs, (Option.some.inj h).symm⟩
  · next hidle =>
    obtain ⟨r, hr, rfl⟩ := Option.map_eq_some_iff.mp h
    exact Or.inr ⟨hidle, r.1, r.2, hr, rfl⟩

theorem step_effect {numCores : ℕ} {w : ι} {s s' : System ι} (hlocal : (s.frame w).Local)
    (h : step sysv numCores w s = some s') : Effect (s.frame w).resource w s s' := by
  rcases step_cases h with ⟨job, jobs, hidle, -, rfl⟩ | ⟨-, frame, ipc, hadvance, rfl⟩
  · have heffect := System.enter_effect { s with jobs := Function.update s.jobs w jobs } w
      (job.start numCores) (s.frame w).resource (job.local_start numCores)
    exact ⟨heffect.others, heffect.frame_local, heffect.agree, heffect.log⟩
  · obtain ⟨hresource, hframe, hagree⟩ := Frame.advance_facts hlocal hadvance
    have heffect := System.settle_effect { s with ipc } w hframe
    rw [hresource] at heffect
    refine ⟨heffect.others, heffect.frame_local, fun q hq ↦ ?_, heffect.log⟩
    rw [System.settle_ipc]
    exact hagree q hq

/-- A worker comes to a method of another resource only by starting a job. -/
theorem step_resource {numCores : ℕ} {w : ι} {s s' : System ι} {q : Resource}
    (hlocal : (s.frame w).Local) (h : step sysv numCores w s = some s')
    (hbefore : (s.frame w).resource ≠ some q) (hafter : (s'.frame w).resource = some q) :
    ∃ job : Job, s'.frame w = job.start numCores := by
  rcases step_cases h with ⟨job, jobs, -, -, rfl⟩ | ⟨-, frame, ipc, hadvance, rfl⟩
  · exact ⟨job, System.enter_frame_self ..⟩
  · obtain ⟨hresource, -, -⟩ := Frame.advance_facts hlocal hadvance
    rcases System.settle_resource { s with ipc } w frame with hsame | hidle
    · exact absurd (hresource.symm.trans (hsame.symm.trans hafter)) hbefore
    · rw [hidle] at hafter
      exact nomatch hafter

/-- The numbers that `read_num` has returned for a counter, in order. -/
def readings (c : Counter) (log : List (ι × Event)) : List ℕ :=
  log.filterMap fun entry ↦
    match entry.2 with
    | .readNum c' num => if c' = c then some num else none
    | _ => none

/-- How many pairs of `read_num` and `write_num` are complete. -/
def wrote (c : Counter) (log : List (ι × Event)) : ℕ :=
  log.countP fun entry ↦ entry.2 = .wroteNum c

omit [DecidableEq ι] in
theorem readings_append (c : Counter) (l m : List (ι × Event)) :
    readings c (l ++ m) = readings c l ++ readings c m := List.filterMap_append

omit [DecidableEq ι] in
theorem wrote_append (c : Counter) (l m : List (ι × Event)) :
    wrote c (l ++ m) = wrote c l + wrote c m := List.countP_append

omit [DecidableEq ι] in
theorem readings_eq_nil {c : Counter} {w : ι} {new : List Event}
    (h : ∀ e ∈ new, e.resource ≠ .counter c) : readings c (new.map (w, ·)) = [] := by
  rw [readings, List.filterMap_map, List.filterMap_eq_nil_iff]
  intro e he
  cases e with
  | readNum c' num =>
    have hne : c' ≠ c := fun hc ↦ h _ he (congrArg Resource.counter hc)
    simp [hne]
  | _ => rfl

omit [DecidableEq ι] in
theorem wrote_eq_zero {c : Counter} {w : ι} {new : List Event}
    (h : ∀ e ∈ new, e.resource ≠ .counter c) : wrote c (new.map (w, ·)) = 0 := by
  rw [wrote, List.countP_map, List.countP_eq_zero]
  intro e he
  cases e with
  | wroteNum c' =>
    have hne : c' ≠ c := fun hc ↦ h _ he (congrArg Resource.counter hc)
    simp [hne]
  | _ => simp

/-- The rest of `read_num` after its semaphore has been taken. -/
def readNumRest (c : Counter) : Program ℕ :=
  .call (.read c.shm 4) fun bytes ↦ .ret (fromBytes bytes)

/-- The last call of `write_num`. -/
def writeNumRest (c : Counter) : Program Unit := ask (.v c.sem)

/-- A worker is not between `P` and `V` of a counter. -/
def Frame.Outside (c : Counter) : Frame → Prop
  | reading c' code => c' = c → code = readNum c
  | writing c' _ _ => c' ≠ c
  | _ => True

/-- Where a worker between `P` and `V` of a counter is, when `k` pairs are complete: its frame, the
number of readings and the stored number. -/
inductive Stage (c : Counter) (first k : ℕ) : Frame → ℕ → ℕ → Prop
  | reading : Stage c first k (.reading c (readNumRest c)) k (first + k)
  | writing :
    Stage c first k (.writing c (first + k) (writeNum c (first + k + 1))) (k + 1) (first + k)
  | posting :
    Stage c first k (.writing c (first + k) (writeNumRest c)) (k + 1) (first + k + 1)

/-- The readings are consecutive from `first`. -/
structure Tally (c : Counter) (first reads writes value : ℕ) (s : System ι) : Prop where
  size : 4 ≤ (s.ipc.shm c.shm).length
  readings : readings c s.log = List.range' first reads
  wrote : wrote c s.log = writes
  stored : s.ipc.stored c = value

def Free (c : Counter) (first : ℕ) (s : System ι) : Prop :=
  s.ipc.sem c.sem = 1 ∧ ∃ k, Tally c first k k (first + k) s

def Inside (c : Counter) (first : ℕ) (w : ι) (s : System ι) : Prop :=
  s.ipc.sem c.sem = 0 ∧ ∃ k reads value,
    Stage c first k (s.frame w) reads value ∧ Tally c first reads k value s

/-- The invariant of one counter. -/
def CounterInvariant (c : Counter) (first : ℕ) : System ι → Prop :=
  Guarded (Free c first) (fun w s ↦ (s.frame w).Outside c) (Inside c first)

theorem Frame.outside_of_resource {c : Counter} {frame : Frame}
    (h : frame.resource ≠ some (.counter c)) : frame.Outside c := by
  cases frame with
  | reading c' code => exact fun hc ↦ absurd (congrArg (some <| Resource.counter ·) hc) h
  | writing c' num code => exact fun hc ↦ h (congrArg (some <| Resource.counter ·) hc)
  | _ => trivial

theorem Job.outside_start (c : Counter) (numCores : ℕ) (job : Job) :
    (job.start numCores).Outside c := by
  cases job with
  | number c' =>
    rintro rfl
    rfl
  | _ => trivial

theorem Stage.resource {c : Counter} {first k reads value : ℕ} {frame : Frame}
    (h : Stage c first k frame reads value) : frame.resource = some (.counter c) := by
  cases h <;> rfl

omit [DecidableEq ι] in
theorem Tally.congr {c : Counter} {first reads writes value : ℕ} {w : ι} {s s' : System ι}
    (h : Tally c first reads writes value s) (hagree : s.ipc.Agree (.counter c) s'.ipc)
    {new : List Event} (hlog : s'.log = s.log ++ new.map (w, ·))
    (hnew : ∀ e ∈ new, e.resource ≠ .counter c) : Tally c first reads writes value s' where
  size := by
    rw [hagree.shm c.shm c.resource_shm]
    exact h.size
  readings := by rw [hlog, readings_append, readings_eq_nil hnew, List.append_nil, h.readings]
  wrote := by rw [hlog, wrote_append, wrote_eq_zero hnew, Nat.add_zero, h.wrote]
  stored := by
    rw [← h.stored, Ipc.stored, Ipc.stored, hagree.shm c.shm c.resource_shm]

/-- The step of a method of another resource. -/
theorem CounterInvariant.of_other {c : Counter} {first numCores : ℕ} {w : ι} {s s' : System ι}
    (h : CounterInvariant c first s) (hlocal : (s.frame w).Local)
    (hstep : step sysv numCores w s = some s') (hother : (s.frame w).resource ≠ some (.counter c)) :
    CounterInvariant c first s' := by
  have heffect := step_effect hlocal hstep
  have hagree := heffect.agree (.counter c) hother
  obtain ⟨new, hlog, hnew⟩ := heffect.log
  have hnew' : ∀ e ∈ new, e.resource ≠ .counter c := fun e he hc ↦ by
    rw [hnew e he, hc] at hother
    exact hother rfl
  have houtside : (s'.frame w).Outside c := by
    by_cases hafter : (s'.frame w).resource = some (.counter c)
    · obtain ⟨job, hjob⟩ := step_resource hlocal hstep hother hafter
      rw [hjob]
      exact job.outside_start c numCores
    · exact Frame.outside_of_resource hafter
  apply Guarded.step h
  · intro v hv hout
    rwa [heffect.others v hv]
  · rintro ⟨hsem, k, htally⟩ -
    refine Or.inl ⟨⟨?_, k, htally.congr hagree hlog hnew'⟩, houtside⟩
    rw [hagree.sem c.sem c.resource_sem, hsem]
  · rintro ⟨-, k, reads, value, hstage, -⟩
    exact absurd hstage.resource hother
  · rintro v hv ⟨hsem, k, reads, value, hstage, htally⟩ -
    refine ⟨⟨?_, k, reads, value, ?_, htally.congr hagree hlog hnew'⟩, houtside⟩
    · rw [hagree.sem c.sem c.resource_sem, hsem]
    · rwa [heffect.others v hv]

section Call

variable {α : Type} {ipc : Ipc} {r : Program α × Ipc}

omit [sysv.Documented] in
/-- A call that returns an answer. -/
theorem advance_call {c : Call} {next : c.Result → Program α} {answer : c.Result × Ipc}
    (hanswer : ∀ {outcome}, sysv c ipc = some outcome → outcome = .ok answer)
    (h : (Code.call c next).advance sysv ipc = some r) : r = (next answer.1, answer.2) := by
  rw [Code.advance] at h
  cases houtcome : sysv c ipc with
  | none =>
    rw [houtcome] at h
    cases h
  | some outcome =>
    rw [houtcome, hanswer houtcome] at h
    exact (Option.some.inj h).symm

theorem advance_p {sem : Semaphore} {next : Unit → Program α}
    (h : (Code.call (.p sem) next).advance sysv ipc = some r) :
    ipc.sem sem ≠ 0 ∧ r = (next (), ipc.setSem sem (ipc.sem sem - 1)) := by
  refine ⟨fun hzero ↦ ?_, advance_call (fun h ↦ (Sysv.Documented.p h).2) h⟩
  cases houtcome : sysv (.p sem) ipc with
  | none =>
    rw [Code.advance, houtcome] at h
    cases h
  | some outcome => exact (Sysv.Documented.p houtcome).1 hzero

theorem advance_v {sem : Semaphore} {next : Unit → Program α}
    (h : (Code.call (.v sem) next).advance sysv ipc = some r) :
    r = (next (), ipc.setSem sem (ipc.sem sem + 1)) :=
  advance_call Sysv.Documented.v h

theorem advance_read {shm : Segment} {byteCount : ℕ} {next : List UInt8 → Program α}
    (h : (Code.call (.read shm byteCount) next).advance sysv ipc = some r) :
    r = (next (if byteCount = 0 then ipc.shm shm else (ipc.shm shm).take byteCount), ipc) :=
  advance_call Sysv.Documented.read h

theorem advance_write {shm : Segment} {bytes : List UInt8} {next : Unit → Program α}
    (hsize : bytes.length ≤ (ipc.shm shm).length)
    (h : (Code.call (.write shm bytes) next).advance sysv ipc = some r) :
    r = (next (), ipc.setShm shm (bytes ++ (ipc.shm shm).drop bytes.length)) :=
  advance_call (fun h ↦ (Sysv.Documented.write h).trans (if_pos hsize)) h

end Call

theorem advance_readNum {c : Counter} {ipc : Ipc} {r : Frame × Ipc}
    (h : (Frame.reading c (readNum c)).advance sysv ipc = some r) :
    ipc.sem c.sem ≠ 0 ∧
      r = (.reading c (readNumRest c), ipc.setSem c.sem (ipc.sem c.sem - 1)) := by
  obtain ⟨next, hnext, rfl⟩ := Option.map_eq_some_iff.mp h
  obtain ⟨hsem, rfl⟩ := advance_p hnext
  exact ⟨hsem, rfl⟩

theorem advance_readNumRest {c : Counter} {ipc : Ipc} {r : Frame × Ipc}
    (h : (Frame.reading c (readNumRest c)).advance sysv ipc = some r) :
    r = (.reading c (.ret (ipc.stored c)), ipc) := by
  obtain ⟨next, hnext, rfl⟩ := Option.map_eq_some_iff.mp h
  obtain rfl := advance_read hnext
  rfl

theorem advance_writeNum {c : Counter} {num value : ℕ} {ipc : Ipc} {r : Frame × Ipc}
    (hsize : 4 ≤ (ipc.shm c.shm).length)
    (h : (Frame.writing c num (writeNum c value)).advance sysv ipc = some r) :
    value < 256 ^ 4 ∧ r = (.writing c num (writeNumRest c),
      ipc.setShm c.shm (lowBytes 4 value ++ (ipc.shm c.shm).drop 4)) := by
  obtain ⟨next, hnext, rfl⟩ := Option.map_eq_some_iff.mp h
  by_cases hvalue : value < 256 ^ 4
  · have hbytes : toBytes value 4 = .ok (lowBytes 4 value) := toBytes_eq_ok.mpr ⟨hvalue, rfl⟩
    rw [writeNum, hbytes] at hnext
    have hwrite := advance_write (by rwa [length_lowBytes]) hnext
    rw [length_lowBytes] at hwrite
    obtain rfl := hwrite
    exact ⟨hvalue, rfl⟩
  · have hbytes : toBytes value 4 = .error .overflowError := if_neg hvalue
    rw [writeNum, hbytes] at hnext
    cases hnext

theorem advance_writeNumRest {c : Counter} {num : ℕ} {ipc : Ipc} {r : Frame × Ipc}
    (h : (Frame.writing c num (writeNumRest c)).advance sysv ipc = some r) :
    r = (.writing c num (.ret ()), ipc.setSem c.sem (ipc.sem c.sem + 1)) := by
  obtain ⟨next, hnext, rfl⟩ := Option.map_eq_some_iff.mp h
  obtain rfl := advance_v hnext
  rfl

theorem System.settle_readNumRest (s : System ι) (w : ι) (c : Counter) :
    s.settle w (.reading c (readNumRest c)) = s.enter w (.reading c (readNumRest c)) := rfl

theorem System.settle_writeNumRest (s : System ι) (w : ι) (c : Counter) (num : ℕ) :
    s.settle w (.writing c num (writeNumRest c)) = s.enter w (.writing c num (writeNumRest c)) :=
  rfl

omit [DecidableEq ι] in
theorem readings_readNum (c : Counter) (num : ℕ) (w : ι) (log : List (ι × Event)) :
    readings c (log ++ [(w, .readNum c num)]) = readings c log ++ [num] := by
  simp [readings]

omit [DecidableEq ι] in
theorem wrote_wroteNum (c : Counter) (w : ι) (log : List (ι × Event)) :
    wrote c (log ++ [(w, .wroteNum c)]) = wrote c log + 1 := by
  simp [wrote]

/-- A worker outside can only take the semaphore, and only while the counter is free. -/
theorem Outside.step {c : Counter} (first : ℕ) {numCores : ℕ} {w : ι} {s s' : System ι}
    (h : (s.frame w).Outside c) (hresource : (s.frame w).resource = some (.counter c))
    (hstep : step sysv numCores w s = some s') :
    s.ipc.sem c.sem ≠ 0 ∧ (Free c first s → Inside c first w s') := by
  have hframe : s.frame w = .reading c (readNum c) := by
    cases hcase : s.frame w with
    | reading c' code =>
      rw [hcase] at h hresource
      have hc : c' = c := by simpa [Frame.resource] using hresource
      rw [hc, h hc]
    | writing c' num code =>
      rw [hcase] at h hresource
      exact absurd (by simpa [Frame.resource] using hresource) h
    | _ =>
      rw [hcase] at hresource
      exact nomatch hresource
  rcases step_cases hstep with ⟨job, jobs, hidle, -, -⟩ | ⟨-, frame, ipc, hadvance, rfl⟩
  · rw [hidle] at hresource
    exact nomatch hresource
  rw [hframe] at hadvance
  obtain ⟨hsem, hr⟩ := advance_readNum hadvance
  obtain ⟨rfl, rfl⟩ := Prod.mk.inj hr
  refine ⟨hsem, ?_⟩
  rintro ⟨hone, k, htally⟩
  refine ⟨?_, k, k, first + k, ?_, ?_⟩
  · rw [System.settle_ipc, Ipc.setSem_sem_self, hone]
  · rw [System.settle_readNumRest, System.enter_frame_self]
    exact .reading
  · exact ⟨htally.size, htally.readings, htally.wrote, htally.stored⟩

/-- A worker that is inside goes on to its next stage, or leaves. -/
theorem Inside.step {c : Counter} {first numCores : ℕ} {w : ι} {s s' : System ι}
    (h : Inside c first w s) (hstep : step sysv numCores w s = some s') :
    Inside c first w s' ∨ (Free c first s' ∧ (s'.frame w).Outside c) := by
  obtain ⟨hsem, k, reads, value, hstage, htally⟩ := h
  rcases step_cases hstep with ⟨job, jobs, hidle, -, -⟩ | ⟨-, frame, ipc, hadvance, rfl⟩
  · rw [hidle] at hstage
    exact nomatch hstage
  generalize s.frame w = current at hstage hadvance
  cases hstage with
  | reading =>
    obtain ⟨rfl, rfl⟩ := Prod.mk.inj (advance_readNumRest hadvance)
    refine Or.inl ⟨hsem, k, k + 1, first + k, ?_, htally.size, ?_, ?_, htally.stored⟩
    · rw [System.settle, System.enter_frame_self, htally.stored]
      exact .writing
    · show readings c (s.log ++ [(w, .readNum c (s.ipc.stored c))]) = _
      rw [readings_readNum, htally.readings, htally.stored, List.range'_1_concat]
    · show wrote c (s.log ++ [(w, .readNum c (s.ipc.stored c))]) = k
      rw [wrote_append, htally.wrote]
      simp [wrote]
  | writing =>
    obtain ⟨hlt, hr⟩ := advance_writeNum htally.size hadvance
    obtain ⟨rfl, rfl⟩ := Prod.mk.inj hr
    refine Or.inl ⟨?_, k, k + 1, first + k + 1, ?_, ?_, htally.readings, htally.wrote, ?_⟩
    · rw [System.settle_ipc, Ipc.setShm_sem, hsem]
    · rw [System.settle_writeNumRest, System.enter_frame_self]
      exact .posting
    · rw [System.settle_ipc, Ipc.setShm_shm_self, List.length_append, length_lowBytes]
      omega
    · rw [System.settle_ipc, Ipc.stored, Ipc.setShm_shm_self, take_lowBytes_append,
        fromBytes_lowBytes hlt]
  | posting =>
    obtain ⟨rfl, rfl⟩ := Prod.mk.inj (advance_writeNumRest hadvance)
    refine Or.inr ⟨⟨?_, k + 1, htally.size, ?_, ?_, htally.stored⟩, ?_⟩
    · rw [System.settle_ipc, Ipc.setSem_sem_self, hsem]
    · show readings c (s.log ++ [(w, .wroteNum c)]) = _
      rw [readings_append, htally.readings]
      simp [readings]
    · show wrote c (s.log ++ [(w, .wroteNum c)]) = k + 1
      rw [wrote_wroteNum, htally.wrote]
    · rw [System.settle, System.enter_frame_self]
      trivial

theorem CounterInvariant.step {c : Counter} {first numCores : ℕ} {w : ι} {s s' : System ι}
    (h : CounterInvariant c first s) (hlocal : (s.frame w).Local)
    (hstep : step sysv numCores w s = some s') : CounterInvariant c first s' := by
  by_cases hresource : (s.frame w).resource = some (.counter c)
  · have heffect := step_effect hlocal hstep
    apply Guarded.step h
    · intro v hv hout
      rwa [heffect.others v hv]
    · exact fun hfree hout ↦ Or.inr ((Outside.step first hout hresource hstep).2 hfree)
    · exact fun hinside ↦ hinside.step hstep
    · rintro v hv ⟨hsem, -⟩ hout
      exact absurd hsem (Outside.step first hout hresource hstep).1
  · exact h.of_other hlocal hstep hresource

end System

end ProcessorFuzz.Execution.ProcManager
