import ProcessorFuzz.Library.Interleaving

/-!
# The shared state of the workers

`procManager` keeps two counters and an array of one byte for each worker in shared memory. The
counters number the saved mismatches and the corpus: `read_num` takes the semaphore of a counter
and leaves it taken, `write_num` gives it back, so the constructor creates both semaphores with
value 0 and its own `write_num` opens them. The array has a semaphore of its own, created open.

The methods below are programs over the calls of `sysv_ipc`, of which only what is documented is
known. The workers run them concurrently: `step` lets one worker make its next call.
-/

namespace ProcessorFuzz.Execution.ProcManager

open Library Library.Interleaving

/-- The counters that `read_num` and `write_num` accept. -/
inductive Counter
  | mNum
  | cNum
  deriving DecidableEq, Repr

inductive Segment
  | mNumShm
  | cNumShm
  | procStates
  deriving DecidableEq, Repr

inductive Semaphore
  | mNumSem
  | cNumSem
  | covMapSem
  | stateSem
  deriving DecidableEq, Repr

/-- `getattr(self, name + '_shm')`. -/
def Counter.shm : Counter → Segment
  | mNum => .mNumShm
  | cNum => .cNumShm

/-- `getattr(self, name + '_sem')`. -/
def Counter.sem : Counter → Semaphore
  | mNum => .mNumSem
  | cNum => .cNumSem

structure Ipc where
  shm : Segment → List UInt8
  sem : Semaphore → ℕ

namespace Ipc

def setShm (ipc : Ipc) (shm : Segment) (bytes : List UInt8) : Ipc :=
  { ipc with shm := Function.update ipc.shm shm bytes }

def setSem (ipc : Ipc) (sem : Semaphore) (value : ℕ) : Ipc :=
  { ipc with sem := Function.update ipc.sem sem value }

/-- The number that `read_num` would read. -/
def stored (ipc : Ipc) (c : Counter) : ℕ := fromBytes ((ipc.shm c.shm).take 4)

end Ipc

inductive Call
  | p (sem : Semaphore)
  | v (sem : Semaphore)
  | read (shm : Segment) (byteCount : ℕ)
  | write (shm : Segment) (bytes : List UInt8)

abbrev Call.Result : Call → Type
  | read _ _ => List UInt8
  | _ => Unit

/-- What `sysv_ipc` makes of a call. A call without a result blocks. -/
abbrev Sysv := (c : Call) → Ipc → Option (Except PyError (c.Result × Ipc))

/-- What is documented of the calls that return. When they return is left open. -/
class Sysv.Documented (sysv : Sysv) : Prop where
  p {sem : Semaphore} {ipc : Ipc} {r} (h : sysv (.p sem) ipc = some r) :
    ipc.sem sem ≠ 0 ∧ r = .ok ((), ipc.setSem sem (ipc.sem sem - 1))
  v {sem : Semaphore} {ipc : Ipc} {r} (h : sysv (.v sem) ipc = some r) :
    r = .ok ((), ipc.setSem sem (ipc.sem sem + 1))
  /-- A `byteCount` of 0 reads the whole segment. -/
  read {shm : Segment} {byteCount : ℕ} {ipc : Ipc} {r}
    (h : sysv (.read shm byteCount) ipc = some r) :
    r = .ok (if byteCount = 0 then ipc.shm shm else (ipc.shm shm).take byteCount, ipc)
  /-- What does not fit into the segment is not written. -/
  write {shm : Segment} {bytes : List UInt8} {ipc : Ipc} {r}
    (h : sysv (.write shm bytes) ipc = some r) :
    r = if bytes.length ≤ (ipc.shm shm).length then
      .ok ((), ipc.setShm shm (bytes ++ (ipc.shm shm).drop bytes.length)) else .error .valueError

section Sysv

variable {sysv : Sysv} [sysv.Documented] {ipc ipc' : Ipc}

theorem Sysv.p_eq_ok {sem : Semaphore} (h : sysv (.p sem) ipc = some (.ok ((), ipc'))) :
    ipc.sem sem ≠ 0 ∧ ipc.setSem sem (ipc.sem sem - 1) = ipc' := by
  obtain ⟨hsem, hr⟩ := Documented.p h
  exact ⟨hsem, (Prod.mk.inj (Except.ok.inj hr)).2.symm⟩

theorem Sysv.v_eq_ok {sem : Semaphore} (h : sysv (.v sem) ipc = some (.ok ((), ipc'))) :
    ipc.setSem sem (ipc.sem sem + 1) = ipc' :=
  (Prod.mk.inj (Except.ok.inj (Documented.v h))).2.symm

theorem Sysv.read_eq_ok {shm : Segment} {byteCount : ℕ} {bytes : List UInt8}
    (h : sysv (.read shm byteCount) ipc = some (.ok (bytes, ipc'))) :
    (if byteCount = 0 then ipc.shm shm else (ipc.shm shm).take byteCount) = bytes ∧ ipc = ipc' := by
  obtain ⟨hbytes, hipc⟩ := Prod.mk.inj (Except.ok.inj (Documented.read h))
  exact ⟨hbytes.symm, hipc.symm⟩

theorem Sysv.write_eq_ok {shm : Segment} {bytes : List UInt8}
    (h : sysv (.write shm bytes) ipc = some (.ok ((), ipc'))) :
    bytes.length ≤ (ipc.shm shm).length ∧
      ipc.setShm shm (bytes ++ (ipc.shm shm).drop bytes.length) = ipc' := by
  have hr := Documented.write h
  split at hr
  · next hsize => exact ⟨hsize, (Prod.mk.inj (Except.ok.inj hr)).2.symm⟩
  · cases hr

end Sysv

abbrev Program := Code Call.Result

abbrev ask (c : Call) : Program c.Result := Code.ask c

def readNum (name : Counter) : Program ℕ := do
  ask (.p name.sem)
  let bytes ← ask (.read name.shm 4)
  return fromBytes bytes

def writeNum (name : Counter) (num : ℕ) : Program Unit := do
  let num_bytes ← Code.ofExcept (toBytes num 4)
  ask (.write name.shm num_bytes)
  ask (.v name.sem)

/-- The loop of `set_state` that copies all states but one. -/
def newStates (numCores procNum state : ℕ) (states : List UInt8) : Except PyError (List UInt8) :=
  (List.range numCores).foldlM (fun new_states i ↦
    if i = procNum then do
      return new_states ++ (← toBytes state 1)
    else
      match states[i]? with
      | none => .error .indexError
      | some byte => do return new_states ++ (← toBytes byte.toNat 1)) []

def setState (numCores procNum state : ℕ) : Program Unit := do
  ask (.p .stateSem)
  let states ← ask (.read .procStates numCores)
  let new_states ← Code.ofExcept (newStates numCores procNum state states)
  ask (.write .procStates new_states)
  ask (.v .stateSem)

def getState (numCores procNum : ℕ) : Program ℕ := do
  ask (.p .stateSem)
  let states ← ask (.read .procStates numCores)
  ask (.v .stateSem)
  match states[procNum]? with
  | none => .raise .indexError
  | some byte => return byte.toNat

/-- The part of the constructor after the segments and semaphores exist. -/
def init (numCores mNum cNum : ℕ) : Program Unit := do
  writeNum .mNum mNum
  writeNum .cNum cNum
  forM (List.range numCores) fun i ↦ setState numCores i 0

/-- New segments are zero. The semaphores of the counters start closed. -/
def created (pageSize : ℕ) : Ipc where
  shm _ := List.replicate pageSize 0
  sem
    | .mNumSem | .cNumSem => 0
    | .covMapSem | .stateSem => 1

/-- The constructor, which runs before any worker exists. -/
def procManager (sysv : Sysv) (pageSize numCores mNum cNum : ℕ) :
    Option (Except PyError (Unit × Ipc)) :=
  (init numCores mNum cNum).alone sysv (created pageSize)

/-- What a worker does with the manager: number a file as `Run` does, or set or get a state. -/
inductive Job
  | number (c : Counter)
  | setState (procNum state : ℕ)
  | getState (procNum : ℕ)
  deriving DecidableEq, Repr

/-- The method a worker is in, with the rest of its program. `writing` remembers what `read_num`
has returned. -/
inductive Frame
  | idle
  | reading (c : Counter) (code : Program ℕ)
  | writing (c : Counter) (num : ℕ) (code : Program Unit)
  | setting (procNum state : ℕ) (code : Program Unit)
  | getting (procNum : ℕ) (code : Program ℕ)

def Job.start (numCores : ℕ) : Job → Frame
  | number c => .reading c (readNum c)
  | setState procNum state => .setting procNum state (ProcManager.setState numCores procNum state)
  | getState procNum => .getting procNum (ProcManager.getState numCores procNum)

/-- The returns of the methods. -/
inductive Event
  | readNum (c : Counter) (num : ℕ)
  | wroteNum (c : Counter)
  | setState (procNum state : ℕ)
  | getState (procNum state : ℕ)
  deriving DecidableEq, Repr

structure System (ι : Type) where
  ipc : Ipc
  frame : ι → Frame
  jobs : ι → List Job
  log : List (ι × Event)

section System

variable {ι : Type} [DecidableEq ι]

/-- The workers start after the constructor has returned. -/
def start (ipc : Ipc) (jobs : ι → List Job) : System ι where
  ipc
  frame _ := .idle
  jobs
  log := []

def System.enter (s : System ι) (w : ι) (frame : Frame) : System ι :=
  { s with frame := Function.update s.frame w frame }

def System.note (s : System ι) (w : ι) (event : Event) : System ι :=
  { s with log := s.log ++ [(w, event)] }

/-- A worker makes the next call of its method. -/
def Frame.advance (sysv : Sysv) : Frame → Ipc → Option (Frame × Ipc)
  | idle, _ => none
  | reading c code, ipc => (code.advance sysv ipc).map fun r ↦ (reading c r.1, r.2)
  | writing c num code, ipc => (code.advance sysv ipc).map fun r ↦ (writing c num r.1, r.2)
  | setting p state code, ipc => (code.advance sysv ipc).map fun r ↦ (setting p state r.1, r.2)
  | getting p code, ipc => (code.advance sysv ipc).map fun r ↦ (getting p r.1, r.2)

/-- What follows the last call of a method: `Run` passes the number it has read, plus one, to
`write_num`; every other method ends its job. -/
def System.settle (s : System ι) (w : ι) : Frame → System ι
  | .reading c (.ret num) =>
    (s.note w (.readNum c num)).enter w (.writing c num (writeNum c (num + 1)))
  | .writing c _ (.ret ()) => (s.note w (.wroteNum c)).enter w .idle
  | .setting p state (.ret ()) => (s.note w (.setState p state)).enter w .idle
  | .getting p (.ret state) => (s.note w (.getState p state)).enter w .idle
  | frame => s.enter w frame

/-- One step of worker `w`: the start of its next job, or its next call. -/
def step (sysv : Sysv) (numCores : ℕ) (w : ι) (s : System ι) : Option (System ι) :=
  match s.frame w with
  | .idle =>
    match s.jobs w with
    | [] => none
    | job :: jobs =>
      some ({ s with jobs := Function.update s.jobs w jobs }.enter w (job.start numCores))
  | frame => (frame.advance sysv s.ipc).map fun r ↦ { s with ipc := r.2 }.settle w r.1

/-- A schedule names the worker of each step; a worker that cannot step is passed over. -/
def run (sysv : Sysv) (numCores : ℕ) (schedule : List ι) (s : System ι) : System ι :=
  schedule.foldl (fun s w ↦ (step sysv numCores w s).getD s) s

end System

/-- A segment and the semaphore that guards it. -/
inductive Resource
  | counter (c : Counter)
  | states
  | coverage
  deriving DecidableEq, Repr

def Segment.resource : Segment → Resource
  | mNumShm => .counter .mNum
  | cNumShm => .counter .cNum
  | procStates => .states

def Semaphore.resource : Semaphore → Resource
  | mNumSem => .counter .mNum
  | cNumSem => .counter .cNum
  | covMapSem => .coverage
  | stateSem => .states

def Call.resource : Call → Resource
  | p sem => sem.resource
  | v sem => sem.resource
  | read shm _ => shm.resource
  | write shm _ => shm.resource

@[simp]
theorem Counter.resource_shm (c : Counter) : c.shm.resource = .counter c := by cases c <;> rfl

@[simp]
theorem Counter.resource_sem (c : Counter) : c.sem.resource = .counter c := by cases c <;> rfl

/-- Two states agree on the segment and the semaphore of a resource. -/
structure Ipc.Agree (r : Resource) (ipc ipc' : Ipc) : Prop where
  shm : ∀ shm : Segment, shm.resource = r → ipc'.shm shm = ipc.shm shm
  sem : ∀ sem : Semaphore, sem.resource = r → ipc'.sem sem = ipc.sem sem

namespace Ipc

@[simp]
theorem setShm_shm_self (ipc : Ipc) (shm : Segment) (bytes : List UInt8) :
    (ipc.setShm shm bytes).shm shm = bytes := Function.update_self ..

@[simp]
theorem setShm_sem (ipc : Ipc) (shm : Segment) (bytes : List UInt8) :
    (ipc.setShm shm bytes).sem = ipc.sem := rfl

@[simp]
theorem setSem_sem_self (ipc : Ipc) (sem : Semaphore) (value : ℕ) :
    (ipc.setSem sem value).sem sem = value := Function.update_self ..

@[simp]
theorem setSem_shm (ipc : Ipc) (sem : Semaphore) (value : ℕ) :
    (ipc.setSem sem value).shm = ipc.shm := rfl

theorem Agree.refl (r : Resource) (ipc : Ipc) : Agree r ipc ipc := ⟨fun _ _ ↦ rfl, fun _ _ ↦ rfl⟩

theorem agree_setShm {r : Resource} {shm : Segment} (h : shm.resource ≠ r) (ipc : Ipc)
    (bytes : List UInt8) : Agree r ipc (ipc.setShm shm bytes) where
  shm shm' hshm' := by
    apply Function.update_of_ne
    rintro rfl
    exact h hshm'
  sem _ _ := rfl

theorem agree_setSem {r : Resource} {sem : Semaphore} (h : sem.resource ≠ r) (ipc : Ipc)
    (value : ℕ) : Agree r ipc (ipc.setSem sem value) where
  shm _ _ := rfl
  sem sem' hsem' := by
    apply Function.update_of_ne
    rintro rfl
    exact h hsem'

end Ipc

variable {sysv : Sysv} [sysv.Documented]

/-- A call changes nothing of the other resources. -/
theorem agree_of_call {r : Resource} {c : Call} {ipc ipc' : Ipc} {a : c.Result}
    (hc : c.resource ≠ r) (h : sysv c ipc = some (.ok (a, ipc'))) : ipc.Agree r ipc' := by
  cases c with
  | p sem =>
    obtain ⟨-, rfl⟩ := Sysv.p_eq_ok h
    exact Ipc.agree_setSem hc ipc _
  | v sem =>
    obtain rfl := Sysv.v_eq_ok h
    exact Ipc.agree_setSem hc ipc _
  | read shm byteCount =>
    obtain ⟨-, rfl⟩ := Sysv.read_eq_ok h
    exact Ipc.Agree.refl r ipc
  | write shm bytes =>
    obtain ⟨-, rfl⟩ := Sysv.write_eq_ok h
    exact Ipc.agree_setShm hc ipc _

/-- The methods keep to their own resource. -/
theorem callsIn_readNum (name : Counter) :
    (readNum name).CallsIn fun c ↦ c.resource = .counter name :=
  ⟨name.resource_sem, fun _ ↦ ⟨name.resource_shm, fun _ ↦ trivial⟩⟩

theorem callsIn_writeNum (name : Counter) (num : ℕ) :
    (writeNum name num).CallsIn fun c ↦ c.resource = .counter name :=
  (Code.callsIn_ofExcept _ _).bind fun _ ↦
    ⟨name.resource_shm, fun _ ↦ ⟨name.resource_sem, fun _ ↦ trivial⟩⟩

theorem callsIn_setState (numCores procNum state : ℕ) :
    (setState numCores procNum state).CallsIn fun c ↦ c.resource = .states :=
  ⟨rfl, fun _ ↦ ⟨rfl, fun _ ↦ (Code.callsIn_ofExcept _ _).bind fun _ ↦
    ⟨rfl, fun _ ↦ ⟨rfl, fun _ ↦ trivial⟩⟩⟩⟩

theorem callsIn_getState (numCores procNum : ℕ) :
    (getState numCores procNum).CallsIn fun c ↦ c.resource = .states := by
  refine ⟨rfl, fun _ ↦ ⟨rfl, fun states ↦ ⟨rfl, fun _ ↦ ?_⟩⟩⟩
  cases states[procNum]? with
  | none => trivial
  | some byte => trivial

/-- The array that `set_state` writes back differs in one entry. -/
theorem newStates_eq_ok {numCores procNum state : ℕ} {states bytes : List UInt8}
    (h : newStates numCores procNum state states = .ok bytes) :
    bytes.length = numCores ∧ (∀ i, i < numCores → i ≠ procNum → bytes[i]? = states[i]?) ∧
      (procNum < numCores → state < 256 ∧ bytes[procNum]? = some (UInt8.ofNat state)) := by
  unfold newStates at h
  induction numCores generalizing bytes with
  | zero =>
    obtain rfl := Except.ok.inj h
    simp
  | succ n ih =>
    rw [List.range_succ, List.foldlM_append] at h
    obtain ⟨copied, hcopied, hlast⟩ := bind_eq_ok.mp h
    obtain ⟨hlength, hcopy, hset⟩ := ih hcopied
    rw [List.foldlM_cons] at hlast
    obtain ⟨all, hall, hdone⟩ := bind_eq_ok.mp hlast
    obtain rfl := Except.ok.inj hdone
    have happended : ∃ byte, all = copied ++ [byte] ∧
        (n ≠ procNum → states[n]? = some byte) ∧
        (n = procNum → state < 256 ∧ byte = UInt8.ofNat state) := by
      split at hall
      · next hn =>
        obtain ⟨new, hnew, hall⟩ := bind_eq_ok.mp hall
        obtain ⟨hstate, rfl⟩ := toBytes_eq_ok.mp hnew
        exact ⟨UInt8.ofNat state, (Except.ok.inj hall).symm, fun h ↦ absurd hn h,
          fun _ ↦ ⟨by simpa using hstate, rfl⟩⟩
      · next hn =>
        split at hall
        · exact nomatch hall
        · next byte hbyte =>
          rw [toBytes_toNat] at hall
          exact ⟨byte, (Except.ok.inj hall).symm, fun _ ↦ hbyte, fun h ↦ absurd h hn⟩
    obtain ⟨byte, rfl, hold, hnew⟩ := happended
    refine ⟨by rw [List.length_append, hlength, List.length_singleton], fun i hi hne ↦ ?_,
      fun hproc ↦ ?_⟩
    · by_cases hin : i < n
      · rw [List.getElem?_append_left (by omega), hcopy i hin hne]
      · obtain rfl : i = n := by omega
        rw [List.getElem?_append_right (by omega), hlength, Nat.sub_self, hold hne]
        rfl
    · by_cases hpn : procNum < n
      · rw [List.getElem?_append_left (by omega)]
        exact hset hpn
      · obtain rfl : n = procNum := by omega
        rw [List.getElem?_append_right (by omega), hlength, Nat.sub_self]
        exact ⟨(hnew rfl).1, congrArg some (hnew rfl).2⟩

/-- What `write_num` does when nobody interferes. -/
theorem writeNum_alone {name : Counter} {num : ℕ} {ipc ipc' : Ipc}
    (h : (writeNum name num).alone sysv ipc = some (.ok ((), ipc'))) :
    num < 256 ^ 4 ∧ 4 ≤ (ipc.shm name.shm).length ∧
      ipc' = (ipc.setShm name.shm (lowBytes 4 num ++ (ipc.shm name.shm).drop 4)).setSem name.sem
        (ipc.sem name.sem + 1) := by
  obtain ⟨bytes, ipc₁, hto, h⟩ := Code.alone_bind_eq_ok.mp h
  obtain ⟨hbytes, rfl⟩ := Code.alone_ofExcept_eq_ok.mp hto
  obtain ⟨hnum, rfl⟩ := toBytes_eq_ok.mp hbytes
  obtain ⟨_, ipc₂, hwrite, h⟩ := Code.alone_bind_eq_ok.mp h
  obtain ⟨hsize, rfl⟩ := Sysv.write_eq_ok (Code.alone_ask_eq_ok.mp hwrite)
  obtain rfl := Sysv.v_eq_ok (Code.alone_ask_eq_ok.mp h)
  rw [length_lowBytes] at hsize ⊢
  exact ⟨hnum, hsize, rfl⟩

/-- `set_state(i, 0)` leaves an array of zeros as it is. -/
theorem setState_alone_zero {numCores i pageSize : ℕ} {ipc ipc' : Ipc}
    (hshm : ipc.shm .procStates = List.replicate pageSize 0)
    (h : (setState numCores i 0).alone sysv ipc = some (.ok ((), ipc'))) :
    numCores ≤ pageSize ∧ ipc'.shm = ipc.shm ∧ ipc'.sem = ipc.sem := by
  obtain ⟨_, ipc₁, hp, h⟩ := Code.alone_bind_eq_ok.mp h
  obtain ⟨hsem, rfl⟩ := Sysv.p_eq_ok (Code.alone_ask_eq_ok.mp hp)
  obtain ⟨states, ipc₂, hread, h⟩ := Code.alone_bind_eq_ok.mp h
  obtain ⟨rfl, rfl⟩ := Sysv.read_eq_ok (Code.alone_ask_eq_ok.mp hread)
  obtain ⟨bytes, ipc₃, hnew, h⟩ := Code.alone_bind_eq_ok.mp h
  obtain ⟨hbytes, rfl⟩ := Code.alone_ofExcept_eq_ok.mp hnew
  obtain ⟨_, ipc₄, hwrite, h⟩ := Code.alone_bind_eq_ok.mp h
  obtain ⟨hsize, rfl⟩ := Sysv.write_eq_ok (Code.alone_ask_eq_ok.mp hwrite)
  obtain rfl := Sysv.v_eq_ok (Code.alone_ask_eq_ok.mp h)
  obtain ⟨hlength, hcopy, hset⟩ := newStates_eq_ok hbytes
  rw [Ipc.setSem_shm, hshm, List.length_replicate, hlength] at hsize
  have hzero : bytes = List.replicate numCores 0 := by
    apply List.ext_getElem?
    intro j
    by_cases hj : j < numCores
    · rw [List.getElem?_replicate_of_lt hj]
      by_cases hji : j = i
      · rw [hji]
        exact (hset (hji ▸ hj)).2
      · rw [hcopy j hj hji, if_neg (by omega), Ipc.setSem_shm, hshm, List.take_replicate,
          Nat.min_eq_left hsize, List.getElem?_replicate_of_lt hj]
    · rw [List.getElem?_eq_none (by omega), List.getElem?_eq_none (by simpa using hj)]
  have hsame : bytes ++ (ipc.shm .procStates).drop bytes.length = ipc.shm .procStates := by
    rw [hlength, hzero, hshm, List.drop_replicate, List.replicate_append_replicate,
      Nat.add_sub_cancel' hsize]
  refine ⟨hsize, ?_, ?_⟩
  · show Function.update ipc.shm _ _ = ipc.shm
    rw [Ipc.setSem_shm, hsame, Function.update_eq_self]
  · funext sem
    by_cases hs : sem = .stateSem
    · subst hs
      rw [Ipc.setSem_sem_self, Ipc.setShm_sem, Ipc.setSem_sem_self]
      omega
    · show Function.update (Function.update ipc.sem _ _) _ _ sem = ipc.sem sem
      rw [Function.update_of_ne hs, Function.update_of_ne hs]

/-- The state in which the constructor leaves the memory: the counters hold their numbers, every
state is 0 and every semaphore is open. -/
structure Constructed (numCores : ℕ) (initial : Counter → ℕ) (ipc : Ipc) : Prop where
  stored : ∀ c, ipc.stored c = initial c
  stored_lt : ∀ c, initial c < 2 ^ 32
  size : ∀ c : Counter, 4 ≤ (ipc.shm c.shm).length
  states : numCores ≤ (ipc.shm .procStates).length
  states_zero : (ipc.shm .procStates).take numCores = List.replicate numCores 0
  sem : ∀ sem, ipc.sem sem = 1

/-- The numbers of the files that the constructor finds. -/
def initialNum (mNum cNum : ℕ) : Counter → ℕ
  | .mNum => mNum
  | .cNum => cNum

theorem take_lowBytes_append (num : ℕ) (rest : List UInt8) :
    (lowBytes 4 num ++ rest).take 4 = lowBytes 4 num := by
  have h := @List.take_left _ (lowBytes 4 num) rest
  rwa [length_lowBytes] at h

/-- The loop over the states changes nothing. -/
theorem setStates_alone (pageSize : ℕ) {numCores : ℕ} {ipc ipc' : Ipc}
    (hshm : ipc.shm .procStates = List.replicate pageSize 0)
    (h : (forM (List.range numCores) fun i ↦ setState numCores i 0).alone sysv ipc =
      some (.ok ((), ipc'))) :
    numCores ≤ pageSize ∧ ipc'.shm = ipc.shm ∧ ipc'.sem = ipc.sem := by
  refine ⟨?_, ?_⟩
  · cases numCores with
    | zero => exact Nat.zero_le pageSize
    | succ n =>
      rw [List.range_succ_eq_map, List.forM_cons] at h
      obtain ⟨_, ipc₁, hfirst, -⟩ := Code.alone_bind_eq_ok.mp h
      exact (setState_alone_zero hshm hfirst).1
  · refine Code.alone_forM_invariant (P := fun s ↦ s.shm = ipc.shm ∧ s.sem = ipc.sem) ?_
      ⟨rfl, rfl⟩ h
    intro i _ s s' hs hi
    obtain ⟨-, hshm', hsem'⟩ := setState_alone_zero (hs.1 ▸ hshm) hi
    exact ⟨hshm'.trans hs.1, hsem'.trans hs.2⟩

theorem constructed_of_procManager {pageSize numCores mNum cNum : ℕ} {ipc : Ipc}
    (h : procManager sysv pageSize numCores mNum cNum = some (.ok ((), ipc))) :
    Constructed numCores (initialNum mNum cNum) ipc := by
  obtain ⟨_, ipc₁, hm, h⟩ := Code.alone_bind_eq_ok.mp h
  obtain ⟨hmlt, hmsize, rfl⟩ := writeNum_alone hm
  obtain ⟨_, ipc₂, hc, h⟩ := Code.alone_bind_eq_ok.mp h
  obtain ⟨hclt, hcsize, rfl⟩ := writeNum_alone hc
  obtain ⟨hcores, hshm, hsem⟩ := setStates_alone pageSize rfl h
  have hpage : 4 ≤ pageSize := by simpa [created] using hmsize
  have hmShm : ipc.shm .mNumShm = lowBytes 4 mNum ++ (List.replicate pageSize 0).drop 4 := by
    rw [hshm]
    rfl
  have hcShm : ipc.shm .cNumShm = lowBytes 4 cNum ++ (List.replicate pageSize 0).drop 4 := by
    rw [hshm]
    rfl
  have hstates : ipc.shm .procStates = List.replicate pageSize 0 := by
    rw [hshm]
    rfl
  constructor
  · intro c
    cases c
    · show fromBytes ((ipc.shm .mNumShm).take 4) = mNum
      rw [hmShm, take_lowBytes_append, fromBytes_lowBytes hmlt]
    · show fromBytes ((ipc.shm .cNumShm).take 4) = cNum
      rw [hcShm, take_lowBytes_append, fromBytes_lowBytes hclt]
  · intro c
    cases c
    · exact hmlt
    · exact hclt
  · intro c
    cases c
    · show 4 ≤ (ipc.shm .mNumShm).length
      rw [hmShm, List.length_append, length_lowBytes]
      omega
    · show 4 ≤ (ipc.shm .cNumShm).length
      rw [hcShm, List.length_append, length_lowBytes]
      omega
  · rw [hstates, List.length_replicate]
    exact hcores
  · rw [hstates, List.take_replicate, Nat.min_eq_left hcores]
  · intro sem
    rw [hsem]
    cases sem <;> rfl

end ProcessorFuzz.Execution.ProcManager
