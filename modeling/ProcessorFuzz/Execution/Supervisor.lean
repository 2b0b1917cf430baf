import Mathlib.Data.List.Induction
import Mathlib.Data.List.Perm.Basic
import ProcessorFuzz.Library.Python

/-!
# The supervisor of the workers

The parent process forks a worker for every batch. A worker runs in a slot, whose number is its
`proc_num`: the array `proc_pid_arr` has the pid of the worker that runs there, or zero. When all
slots are taken, the parent waits for any child to end and frees its slot. After the last batch it
waits until no child is left.

Children end in any order. What the operating system knows of them is part of the state: a child
exists until it has been waited for, and no other child gets its pid before that.
-/

namespace ProcessorFuzz.Execution.Supervisor

open Library

/-- A forked child: the number of its fork, its pid, the slot it runs in, and its exit code once it
has ended. -/
structure Child where
  num : ℕ
  pid : ℕ
  procNum : ℕ
  status : Option ℕ
  deriving DecidableEq

/-- The exceptions of the two loops. -/
inductive Failure
  | noFreeSlot
  | unknownPid
  | noChild
  deriving DecidableEq, Repr

/-- Where the parent is: at the head of a round of the batch loop, in `wait_check` of that round, at
the head of the drain loop or in its `wait_check`, behind it, or ended by an exception or by
`exit(-1)`. -/
inductive Phase
  | batch (i : ℕ)
  | batchWait (i : ℕ)
  | drain
  | drainWait
  | done
  | failed (failure : Failure)
  | exited
  deriving DecidableEq, Repr

structure State where
  phase : Phase
  procPidArr : List ℕ
  numRunning : ℤ
  /-- The children that have not been waited for. -/
  children : List Child
  /-- The state bytes of the manager. -/
  procStates : ℕ → ℕ
  /-- The pids that were sent a signal, in order. -/
  killed : List ℕ
  /-- The numbers of the children that have been waited for, in order. -/
  waited : List ℕ

def start (multicore : ℕ) : State where
  phase := .batch 0
  procPidArr := List.replicate multicore 0
  numRunning := 0
  children := []
  procStates _ := 0
  killed := []
  waited := []

/-- `proc_state.NORMAL`. -/
def normal : ℕ := 0

/-- A child ends with an exit code and leaves a state byte; `fork` and `waitpid` return a pid; the
parent goes on from the head of a loop. -/
inductive Event
  | fork (pid : ℕ)
  | ends (pid exitCode procState : ℕ)
  | wait (pid : ℕ)
  | advance
  deriving DecidableEq, Repr

/-- The slot of the child that has been waited for is set to zero, and the loop goes on. -/
def State.free (s : State) (idx : ℕ) (next : Phase) : State :=
  { s with
    phase := next
    procPidArr := s.procPidArr.set idx 0
    numRunning := s.numRunning - 1 }

/-- The signals of a loop over pids. The one to the process group, pid 0, also ends the parent. -/
def signalled : List ℕ → List ℕ
  | [] => []
  | pid :: pids => pid :: if pid = 0 then [] else signalled pids

/-- Every process in the array but one is killed, and the parent exits. -/
def State.killOthers (s : State) (endPid : ℕ) : State :=
  { s with
    phase := .exited
    killed := s.killed ++ signalled (s.procPidArr.filter (· ≠ endPid)) }

/-- `wait_check` after `waitpid` has returned, and the two statements after it. -/
def State.waitCheck (s : State) (next : Phase) (endPid exitCode : ℕ) : State :=
  match s.procPidArr.idxOf? endPid with
  | none => { s with phase := .failed .unknownPid }
  | some idx =>
    if exitCode ≠ 0 then s.killOthers endPid
    else if s.procStates idx ≠ normal then s.killOthers endPid
    else s.free idx next

/-- The child is removed from the table of the operating system. -/
def State.reap (s : State) (child : Child) : State :=
  { s with
    children := s.children.erase child
    waited := s.waited ++ [child.num] }

/-- `waitpid(0, 0)` returns a child that has ended; without children it raises. -/
def State.wait (s : State) (next : Phase) (pid : ℕ) : Option State :=
  if s.children = [] then some { s with phase := .failed .noChild }
  else
    (s.children.find? fun child ↦ child.pid = pid).bind fun child ↦
      child.status.map fun exitCode ↦ (s.reap child).waitCheck next child.pid exitCode

/-- The parent after `fork` has returned the pid of child number `i` in a slot. -/
def State.forked (s : State) (multicore i procNum pid : ℕ) : State :=
  { s with
    phase := if s.numRunning + 1 = multicore then .batchWait i else .batch (i + 1)
    procPidArr := s.procPidArr.set procNum pid
    numRunning := s.numRunning + 1
    children := s.children ++ [{ num := i, pid, procNum, status := none }] }

/-- A child that has ended keeps its entry with the exit code. -/
def Child.ended (child : Child) (pid exitCode : ℕ) : Child :=
  if child.pid = pid then { child with status := some exitCode } else child

def step (multicore numBatch : ℕ) (s : State) : Event → Option State
  | .fork pid =>
    match s.phase with
    | .batch i =>
      if i < numBatch * multicore then
        match s.procPidArr.idxOf? 0 with
        | none => some { s with phase := .failed .noFreeSlot }
        | some procNum =>
          if pid = 0 ∨ pid ∈ s.children.map Child.pid then none
          else some (s.forked multicore i procNum pid)
      else none
    | _ => none
  | .ends pid exitCode procState =>
    (s.children.find? fun child ↦ child.pid = pid).bind fun child ↦
      if child.status.isSome then none
      else some { s with
        children := s.children.map fun c ↦ c.ended pid exitCode
        procStates := Function.update s.procStates child.procNum procState }
  | .wait pid =>
    match s.phase with
    | .batchWait i => s.wait (.batch (i + 1)) pid
    | .drainWait => s.wait .drain pid
    | _ => none
  | .advance =>
    match s.phase with
    | .batch i => if i < numBatch * multicore then none else some { s with phase := .drain }
    | .drain => some { s with phase := if s.numRunning = 0 then .done else .drainWait }
    | _ => none

/-- The state after a sequence of events, if each of them can happen in turn. -/
def run (multicore numBatch : ℕ) (events : List Event) : Option State :=
  events.foldlM (step multicore numBatch) (start multicore)

/-- Children exit normally, in state `NORMAL`. -/
def Event.Normal : Event → Prop
  | ends _ exitCode procState => exitCode = 0 ∧ procState = normal
  | _ => True

theorem wait_cases {s s' : State} {next : Phase} {pid : ℕ} (h : s.wait next pid = some s') :
    (s.children = [] ∧ s' = { s with phase := .failed .noChild }) ∨
    ∃ child ∈ s.children, ∃ exitCode, child.status = some exitCode ∧
      s' = (s.reap child).waitCheck next child.pid exitCode := by
  unfold State.wait at h
  split at h
  · next hnone => exact .inl ⟨hnone, (Option.some.inj h).symm⟩
  · obtain ⟨child, hchild, h⟩ := Option.bind_eq_some_iff.mp h
    obtain ⟨exitCode, hstatus, rfl⟩ := Option.map_eq_some_iff.mp h
    exact .inr ⟨child, List.mem_of_find?_eq_some hchild, exitCode, hstatus, rfl⟩

/-- The phases in which the parent waits, each with the phase after it. -/
inductive Waits : Phase → Phase → Prop
  | batch (i : ℕ) : Waits (.batchWait i) (.batch (i + 1))
  | drain : Waits .drainWait .drain

/-- The phases from which the parent goes on by itself. -/
inductive Advances (multicore numBatch : ℕ) (s : State) : Phase → Phase → Prop
  | batch (i : ℕ) (h : numBatch * multicore ≤ i) : Advances multicore numBatch s (.batch i) .drain
  | drain (h : s.numRunning ≠ 0) : Advances multicore numBatch s .drain .drainWait
  | done (h : s.numRunning = 0) : Advances multicore numBatch s .drain .done

theorem step_cases {multicore numBatch : ℕ} {s s' : State} {event : Event}
    (h : step multicore numBatch s event = some s') :
    (∃ i pid, event = .fork pid ∧ s.phase = .batch i ∧ i < numBatch * multicore ∧
      (s.procPidArr.idxOf? 0 = none ∧ s' = { s with phase := .failed .noFreeSlot } ∨
        ∃ procNum, s.procPidArr.idxOf? 0 = some procNum ∧ pid ≠ 0 ∧
          pid ∉ s.children.map Child.pid ∧ s' = s.forked multicore i procNum pid)) ∨
    (∃ pid exitCode procState, event = .ends pid exitCode procState ∧ ∃ child ∈ s.children,
      s' = { s with
        children := s.children.map fun c ↦ c.ended pid exitCode
        procStates := Function.update s.procStates child.procNum procState }) ∨
    (∃ pid next, event = .wait pid ∧ Waits s.phase next ∧ s.wait next pid = some s') ∨
    ∃ next, event = .advance ∧ Advances multicore numBatch s s.phase next ∧
      s' = { s with phase := next } := by
  cases event with
  | fork pid =>
    left
    rw [step] at h
    split at h
    · next i hphase =>
      split at h
      · next hi =>
        refine ⟨i, pid, rfl, hphase, hi, ?_⟩
        split at h
        · next hnone => exact .inl ⟨hnone, (Option.some.inj h).symm⟩
        · next procNum hprocNum =>
          split at h
          · exact nomatch h
          · next hpid =>
            rw [not_or] at hpid
            exact .inr ⟨procNum, hprocNum, hpid.1, hpid.2, (Option.some.inj h).symm⟩
      · exact nomatch h
    · exact nomatch h
  | ends pid exitCode procState =>
    right; left
    rw [step] at h
    obtain ⟨child, hchild, h⟩ := Option.bind_eq_some_iff.mp h
    split at h
    · exact nomatch h
    · exact ⟨pid, exitCode, procState, rfl, child, List.mem_of_find?_eq_some hchild,
        (Option.some.inj h).symm⟩
  | wait pid =>
    right; right; left
    rw [step] at h
    split at h
    · next i hphase => exact ⟨pid, _, rfl, hphase ▸ .batch i, h⟩
    · next hphase => exact ⟨pid, _, rfl, hphase ▸ .drain, h⟩
    · exact nomatch h
  | advance =>
    right; right; right
    rw [step] at h
    split at h
    · next i hphase =>
      split at h
      · exact nomatch h
      · next hi =>
        exact ⟨.drain, rfl, hphase ▸ .batch i (Nat.le_of_not_lt hi), (Option.some.inj h).symm⟩
    · next hphase =>
      by_cases hrunning : s.numRunning = 0
      · rw [if_pos hrunning] at h
        exact ⟨.done, rfl, hphase ▸ .done hrunning, (Option.some.inj h).symm⟩
      · rw [if_neg hrunning] at h
        exact ⟨.drainWait, rfl, hphase ▸ .drain hrunning, (Option.some.inj h).symm⟩
    · exact nomatch h

/-- Every child has its slot, and no slot is taken without a child. -/
structure Slots (multicore : ℕ) (s : State) : Prop where
  length : s.procPidArr.length = multicore
  slot : ∀ child ∈ s.children, s.procPidArr[child.procNum]? = some child.pid
  pos : ∀ child ∈ s.children, child.pid ≠ 0
  pids : (s.children.map Child.pid).Nodup
  taken : s.procPidArr.countP (· ≠ 0) = s.children.length
  running : s.numRunning = s.children.length

namespace Slots

variable {multicore : ℕ} {s : State}

theorem procNum_lt (h : Slots multicore s) {child : Child} (hchild : child ∈ s.children) :
    child.procNum < multicore := by
  obtain ⟨hlt, -⟩ := List.getElem?_eq_some_iff.mp (h.slot child hchild)
  rwa [h.length] at hlt

/-- Two children in one slot would have the same pid. -/
theorem nodup_procNums (h : Slots multicore s) : (s.children.map Child.procNum).Nodup := by
  have hinj : ∀ c ∈ s.children, ∀ c' ∈ s.children, c.procNum = c'.procNum → c = c' := by
    intro c hc c' hc' heq
    have hpid : c.pid = c'.pid := by
      have hslot := h.slot c hc
      rw [heq, h.slot c' hc'] at hslot
      exact (Option.some.inj hslot).symm
    exact List.inj_on_of_nodup_map h.pids hc hc' hpid
  exact List.Nodup.map_on hinj h.pids.of_map

/-- While fewer children run than there are slots, one of the slots is zero. -/
theorem exists_free (h : Slots multicore s) (hlt : s.numRunning < multicore) :
    0 ∈ s.procPidArr := by
  by_contra hnot
  have hall : s.procPidArr.countP (· ≠ 0) = s.procPidArr.length := by
    rw [List.countP_eq_length]
    intro pid hpid
    rw [decide_eq_true_eq]
    rintro rfl
    exact hnot hpid
  have hrunning := h.running
  rw [h.taken, h.length] at hall
  omega

/-- The array has the pid of every child. -/
theorem exists_idx (h : Slots multicore s) {child : Child} (hchild : child ∈ s.children) :
    ∃ idx, s.procPidArr.idxOf? child.pid = some idx := by
  have hmem : child.pid ∈ s.procPidArr := List.mem_of_getElem? (h.slot child hchild)
  cases hidx : s.procPidArr.idxOf? child.pid with
  | none => exact absurd hmem (List.idxOf?_eq_none_iff.mp hidx)
  | some idx => exact ⟨idx, rfl⟩

/-- When no child is left, every slot is zero. -/
theorem eq_replicate (h : Slots multicore s) (hrunning : s.numRunning = 0) :
    s.procPidArr = List.replicate multicore 0 := by
  have hnone : s.procPidArr.countP (· ≠ 0) = 0 := by
    rw [h.taken]
    have hlength := h.running
    omega
  rw [List.countP_eq_zero] at hnone
  rw [List.eq_replicate_iff]
  refine ⟨h.length, fun pid hpid ↦ ?_⟩
  simpa using hnone pid hpid

theorem start (multicore : ℕ) : Slots multicore (Supervisor.start multicore) where
  length := List.length_replicate
  slot _ h := absurd h List.not_mem_nil
  pos _ h := absurd h List.not_mem_nil
  pids := List.nodup_nil
  taken := by
    rw [Supervisor.start, List.countP_eq_zero.mpr]
    · rfl
    · intro pid hpid
      simp [List.eq_of_mem_replicate hpid]
  running := rfl

/-- The phase of the parent is not part of the slots. -/
theorem of_phase (h : Slots multicore s) (phase : Phase) :
    Slots multicore { s with phase } :=
  ⟨h.length, h.slot, h.pos, h.pids, h.taken, h.running⟩

theorem forked (h : Slots multicore s) {i procNum pid : ℕ}
    (hprocNum : s.procPidArr.idxOf? 0 = some procNum) (hpos : pid ≠ 0)
    (hfresh : pid ∉ s.children.map Child.pid) :
    Slots multicore (s.forked multicore i procNum pid) := by
  obtain ⟨hlt, hzero, -⟩ := List.idxOf?_eq_some_iff.mp hprocNum
  have hzero : s.procPidArr[procNum] = 0 := by simpa using hzero
  constructor
  · exact (List.length_set).trans h.length
  · intro child hchild
    rcases List.mem_append.mp hchild with hchild | hchild
    · have hslot := h.slot child hchild
      have hpos := h.pos child hchild
      have hne : procNum ≠ child.procNum := by
        rintro rfl
        rw [List.getElem?_eq_getElem hlt, hzero] at hslot
        exact hpos (Option.some.inj hslot).symm
      exact (List.getElem?_set_ne hne).trans hslot
    · obtain rfl := List.mem_singleton.mp hchild
      exact List.getElem?_set_self hlt
  · intro child hchild
    rcases List.mem_append.mp hchild with hchild | hchild
    · exact h.pos child hchild
    · obtain rfl := List.mem_singleton.mp hchild
      exact hpos
  · show ((s.children ++ [_]).map Child.pid).Nodup
    rw [List.map_append, List.map_singleton, List.nodup_append]
    refine ⟨h.pids, List.nodup_singleton _, ?_⟩
    rintro p hp q hq rfl
    obtain rfl := List.mem_singleton.mp hq
    exact hfresh hp
  · show (s.procPidArr.set procNum pid).countP (· ≠ 0) = (s.children ++ [_]).length
    rw [List.countP_set hlt, h.taken, List.length_append]
    simp [hzero, hpos]
  · show s.numRunning + 1 = ((s.children ++ [_]).length : ℤ)
    rw [h.running, List.length_append]
    rfl

/-- Ending does not change the slot of a child. -/
theorem ends (h : Slots multicore s) (pid exitCode : ℕ) (procStates : ℕ → ℕ) :
    Slots multicore { s with
      children := s.children.map fun c ↦ c.ended pid exitCode
      procStates } := by
  have hpid (c : Child) : (c.ended pid exitCode).pid = c.pid := by
    unfold Child.ended
    split <;> rfl
  have hprocNum (c : Child) : (c.ended pid exitCode).procNum = c.procNum := by
    unfold Child.ended
    split <;> rfl
  have hpids : (s.children.map fun c ↦ c.ended pid exitCode).map Child.pid =
      s.children.map Child.pid := by
    rw [List.map_map]
    exact List.map_congr_left fun c _ ↦ hpid c
  constructor
  · exact h.length
  · intro child hchild
    obtain ⟨c, hc, rfl⟩ := List.mem_map.mp hchild
    rw [hpid, hprocNum]
    exact h.slot c hc
  · intro child hchild
    obtain ⟨c, hc, rfl⟩ := List.mem_map.mp hchild
    rw [hpid]
    exact h.pos c hc
  · show ((s.children.map fun c ↦ c.ended pid exitCode).map Child.pid).Nodup
    rw [hpids]
    exact h.pids
  · show s.procPidArr.countP (· ≠ 0) = (s.children.map fun c ↦ c.ended pid exitCode).length
    rw [h.taken, List.length_map]
  · show s.numRunning = ((s.children.map fun c ↦ c.ended pid exitCode).length : ℤ)
    rw [h.running, List.length_map]

/-- Freeing the slot of a child that has been waited for. -/
theorem freed (h : Slots multicore s) {child : Child} (hchild : child ∈ s.children) {idx : ℕ}
    (hidx : s.procPidArr.idxOf? child.pid = some idx) (next : Phase) :
    Slots multicore ((s.reap child).free idx next) := by
  obtain ⟨hlt, hpid, -⟩ := List.idxOf?_eq_some_iff.mp hidx
  have hpid : s.procPidArr[idx] = child.pid := by simpa using hpid
  have hchildren : s.children.Perm (child :: s.children.erase child) :=
    List.perm_cons_erase hchild
  have hlength : s.children.length = (s.children.erase child).length + 1 := hchildren.length_eq
  have hnodup := (hchildren.map Child.pid).nodup_iff.mp h.pids
  rw [List.map_cons, List.nodup_cons] at hnodup
  constructor
  · exact (List.length_set).trans h.length
  · intro other hother
    have hmem : other ∈ s.children := List.mem_of_mem_erase hother
    have hne : idx ≠ other.procNum := by
      rintro rfl
      have hslot := h.slot other hmem
      rw [List.getElem?_eq_getElem hlt, hpid] at hslot
      apply hnodup.1
      rw [Option.some.inj hslot]
      exact List.mem_map_of_mem hother
    exact (List.getElem?_set_ne hne).trans (h.slot other hmem)
  · exact fun other hother ↦ h.pos other (List.mem_of_mem_erase hother)
  · exact hnodup.2
  · show (s.procPidArr.set idx 0).countP (· ≠ 0) = (s.children.erase child).length
    rw [List.countP_set hlt, h.taken, hlength]
    simp [hpid, h.pos child hchild]
  · show s.numRunning - 1 = ((s.children.erase child).length : ℤ)
    have hrunning := h.running
    omega

end Slots

/-- The number of children that have been forked when the parent is in a phase. -/
def Phase.forks (total : ℕ) : Phase → ℕ
  | batch i => i
  | batchWait i => i + 1
  | _ => total

/-- The number of running children that belongs to a phase. -/
def Phase.Fits (multicore numBatch : ℕ) (numRunning : ℤ) : Phase → Prop
  | batch i => i ≤ numBatch * multicore ∧ numRunning < multicore
  | batchWait i => i < numBatch * multicore ∧ numRunning = multicore
  | drain => True
  | drainWait => numRunning ≠ 0
  | done => numRunning = 0
  | failed _ => False
  | exited => False

/-- Waiting for a child is not the end of a round. -/
theorem Waits.forks {phase next : Phase} (h : Waits phase next) (total : ℕ) :
    next.forks total = phase.forks total := by
  cases h <;> rfl

theorem Waits.ne_exited {phase next : Phase} (h : Waits phase next) : next ≠ .exited := by
  cases h <;> nofun

theorem Advances.ne_exited {multicore numBatch : ℕ} {s : State} {phase next : Phase}
    (h : Advances multicore numBatch s phase next) : next ≠ .exited := by
  cases h <;> nofun

structure Inv (multicore numBatch : ℕ) (s : State) : Prop where
  slots : Slots multicore s
  ledger : (s.waited ++ s.children.map Child.num).Perm
    (List.range (s.phase.forks (numBatch * multicore)))
  phase : s.phase.Fits multicore numBatch s.numRunning

namespace Inv

variable {multicore numBatch : ℕ} {s s' : State}

theorem start (hcores : 1 ≤ multicore) (numBatch : ℕ) :
    Inv multicore numBatch (Supervisor.start multicore) where
  slots := .start multicore
  ledger := .nil
  phase := by
    refine ⟨Nat.zero_le _, ?_⟩
    show (0 : ℤ) < multicore
    omega

/-- The slot of the forked child was free. -/
theorem forked (h : Inv multicore numBatch s) {i procNum pid : ℕ} (hphase : s.phase = .batch i)
    (hi : i < numBatch * multicore) (hprocNum : s.procPidArr.idxOf? 0 = some procNum)
    (hpos : pid ≠ 0) (hfresh : pid ∉ s.children.map Child.pid) :
    Inv multicore numBatch (s.forked multicore i procNum pid) := by
  have hfits := h.phase
  rw [hphase] at hfits
  have hledger := h.ledger
  rw [hphase] at hledger
  have hnext : (s.waited ++ (s.forked multicore i procNum pid).children.map Child.num).Perm
      (List.range (i + 1)) := by
    rw [State.forked]
    dsimp only
    rw [List.map_append, ← List.append_assoc, List.range_succ]
    exact hledger.append_right _
  refine ⟨h.slots.forked hprocNum hpos hfresh, ?_, ?_⟩
  · rw [show (s.forked multicore i procNum pid).phase.forks (numBatch * multicore) = i + 1 by
      rw [State.forked]
      dsimp only
      split <;> rfl]
    exact hnext
  · rw [State.forked]
    dsimp only
    split
    · next hfull => exact ⟨hi, hfull⟩
    · next hfull =>
      refine ⟨hi, ?_⟩
      have hlt := hfits.2
      omega

theorem ends (h : Inv multicore numBatch s) (pid exitCode : ℕ) (procStates : ℕ → ℕ) :
    Inv multicore numBatch { s with
      children := s.children.map fun c ↦ c.ended pid exitCode
      procStates } := by
  refine ⟨h.slots.ends pid exitCode procStates, ?_, h.phase⟩
  have hnum : (s.children.map fun c ↦ c.ended pid exitCode).map Child.num =
      s.children.map Child.num := by
    rw [List.map_map]
    refine List.map_congr_left fun c _ ↦ ?_
    show (c.ended pid exitCode).num = c.num
    unfold Child.ended
    split <;> rfl
  show (s.waited ++ (s.children.map fun c ↦ c.ended pid exitCode).map Child.num).Perm _
  rw [hnum]
  exact h.ledger

/-- A child is waited for at most once, since it leaves the table. -/
theorem freed (h : Inv multicore numBatch s) {next : Phase} (hwaits : Waits s.phase next)
    {child : Child} (hchild : child ∈ s.children) {idx : ℕ}
    (hidx : s.procPidArr.idxOf? child.pid = some idx) :
    Inv multicore numBatch ((s.reap child).free idx next) := by
  have hfits := h.phase
  refine ⟨h.slots.freed hchild hidx next, ?_, ?_⟩
  · have hforks := hwaits.forks (numBatch * multicore)
    show ((s.waited ++ [child.num]) ++ (s.children.erase child).map Child.num).Perm
      (List.range (next.forks (numBatch * multicore)))
    rw [hforks, List.append_assoc]
    have hperm := (List.perm_cons_erase hchild).map Child.num
    exact (hperm.symm.append_left s.waited).trans h.ledger
  · show next.Fits multicore numBatch (s.numRunning - 1)
    generalize s.phase = phase at hwaits hfits
    cases hwaits with
    | batch i =>
      refine ⟨hfits.1, ?_⟩
      have hfull := hfits.2
      omega
    | drain => trivial

/-- There is a child to wait for. -/
theorem children_ne_nil (h : Inv multicore numBatch s) (hcores : 1 ≤ multicore) {next : Phase}
    (hwaits : Waits s.phase next) : s.children ≠ [] := by
  intro hnil
  have hfits := h.phase
  have hrunning := h.slots.running
  rw [hnil] at hrunning
  generalize s.phase = phase at hwaits hfits
  cases hwaits with
  | batch i =>
    have hfull : s.numRunning = multicore := hfits.2
    rw [List.length_nil] at hrunning
    omega
  | drain => exact hfits hrunning

/-- One event keeps the invariant, unless `wait_check` ends the parent. -/
theorem step (h : Inv multicore numBatch s) (hcores : 1 ≤ multicore) {event : Event}
    (hstep : step multicore numBatch s event = some s') :
    s'.phase = .exited ∨ Inv multicore numBatch s' := by
  rcases step_cases hstep with ⟨i, pid, -, hphase, hi, hfork⟩ |
    ⟨pid, exitCode, procState, -, child, -, rfl⟩ | ⟨pid, next, -, hwaits, hwait⟩ |
    ⟨next, -, hadvances, rfl⟩
  · -- a fork
    have hfits := h.phase
    rw [hphase] at hfits
    rcases hfork with ⟨hnone, -⟩ | ⟨procNum, hprocNum, hpos, hfresh, rfl⟩
    · exact absurd (h.slots.exists_free hfits.2) (List.idxOf?_eq_none_iff.mp hnone)
    · exact .inr (h.forked hphase hi hprocNum hpos hfresh)
  · -- a child ends
    exact .inr (h.ends pid exitCode _)
  · -- the parent waits
    rcases wait_cases hwait with ⟨hnil, -⟩ | ⟨child, hchild, exitCode, -, rfl⟩
    · exact absurd hnil (h.children_ne_nil hcores hwaits)
    · obtain ⟨idx, hidx⟩ := h.slots.exists_idx hchild
      have hidx' : (s.reap child).procPidArr.idxOf? child.pid = some idx := hidx
      rw [State.waitCheck, hidx']
      dsimp only
      split
      · exact .inl rfl
      · split
        · exact .inl rfl
        · exact .inr (h.freed hwaits hchild hidx)
  · -- the parent goes on
    right
    refine ⟨h.slots.of_phase next, ?_, ?_⟩
    · have hledger := h.ledger
      have hfits := h.phase
      show (s.waited ++ s.children.map Child.num).Perm
        (List.range (next.forks (numBatch * multicore)))
      generalize s.phase = phase at hadvances hledger hfits
      cases hadvances with
      | batch i hi =>
        have heq : i = numBatch * multicore := Nat.le_antisymm hfits.1 hi
        exact heq ▸ hledger
      | drain _ => exact hledger
      | done _ => exact hledger
    · show next.Fits multicore numBatch s.numRunning
      generalize s.phase = phase at hadvances
      cases hadvances with
      | batch i hi => trivial
      | drain hrunning => exact hrunning
      | done hrunning => exact hrunning

end Inv

/-- No child has ended abnormally. -/
structure AllNormal (s : State) : Prop where
  status : ∀ child ∈ s.children, ∀ exitCode, child.status = some exitCode → exitCode = 0
  procStates : ∀ procNum, s.procStates procNum = normal

/-- After normal exits `wait_check` returns the slot. -/
theorem AllNormal.waitCheck {s : State} (h : AllNormal s) {child : Child}
    (hchild : child ∈ s.children) {exitCode : ℕ} (hstatus : child.status = some exitCode)
    {idx : ℕ} (hidx : s.procPidArr.idxOf? child.pid = some idx) (next : Phase) :
    (s.reap child).waitCheck next child.pid exitCode = (s.reap child).free idx next := by
  have hidx' : (s.reap child).procPidArr.idxOf? child.pid = some idx := hidx
  have hcode : ¬exitCode ≠ 0 := not_not.mpr (h.status child hchild exitCode hstatus)
  have hstate : ¬(s.reap child).procStates idx ≠ normal := not_not.mpr (h.procStates idx)
  rw [State.waitCheck, hidx']
  dsimp only
  rw [if_neg hcode, if_neg hstate]

theorem AllNormal.step {multicore numBatch : ℕ} {s s' : State} {event : Event}
    (h : AllNormal s) (hinv : Inv multicore numBatch s) (hcores : 1 ≤ multicore)
    (hnormal : event.Normal) (hstep : step multicore numBatch s event = some s') :
    AllNormal s' ∧ s'.phase ≠ .exited := by
  rcases step_cases hstep with ⟨i, pid, -, hphase, hi, hfork⟩ |
    ⟨pid, exitCode, procState, rfl, child, -, rfl⟩ | ⟨pid, next, -, hwaits, hwait⟩ |
    ⟨next, -, hadvances, rfl⟩
  · rcases hfork with ⟨-, rfl⟩ | ⟨procNum, -, -, -, rfl⟩
    · exact ⟨⟨h.status, h.procStates⟩, nofun⟩
    · refine ⟨⟨fun child hchild exitCode hstatus ↦ ?_, h.procStates⟩, ?_⟩
      · rcases List.mem_append.mp hchild with hchild | hchild
        · exact h.status child hchild exitCode hstatus
        · obtain rfl := List.mem_singleton.mp hchild
          exact nomatch hstatus
      · rw [State.forked]
        dsimp only
        split <;> nofun
  · obtain ⟨rfl, rfl⟩ := hnormal
    refine ⟨⟨fun c hc code hstatus ↦ ?_, fun procNum ↦ ?_⟩, ?_⟩
    · obtain ⟨c, hmem, rfl⟩ := List.mem_map.mp hc
      unfold Child.ended at hstatus
      split at hstatus
      · exact (Option.some.inj hstatus).symm
      · exact h.status c hmem code hstatus
    · show Function.update s.procStates child.procNum normal procNum = normal
      by_cases heq : procNum = child.procNum
      · rw [heq, Function.update_self]
      · rw [Function.update_of_ne heq, h.procStates]
    · intro hexited
      have hfits := hinv.phase
      rw [show s.phase = .exited from hexited] at hfits
      exact hfits
  · rcases wait_cases hwait with ⟨hnil, -⟩ | ⟨child, hchild, exitCode, hstatus, rfl⟩
    · exact absurd hnil (hinv.children_ne_nil hcores hwaits)
    · obtain ⟨idx, hidx⟩ := hinv.slots.exists_idx hchild
      rw [h.waitCheck hchild hstatus hidx]
      refine ⟨⟨fun c hc ↦ h.status c (List.mem_of_mem_erase hc), h.procStates⟩, ?_⟩
      exact hwaits.ne_exited
  · exact ⟨⟨h.status, h.procStates⟩, hadvances.ne_exited⟩

/-- In a run of normal exits the invariant holds throughout. -/
theorem run_inv {multicore numBatch : ℕ} (hcores : 1 ≤ multicore) {events : List Event}
    (hnormal : ∀ event ∈ events, event.Normal) {s : State}
    (hrun : run multicore numBatch events = some s) :
    Inv multicore numBatch s ∧ AllNormal s := by
  induction events using List.reverseRecOn generalizing s with
  | nil =>
    obtain rfl := Option.some.inj hrun
    exact ⟨.start hcores numBatch, fun _ h ↦ absurd h List.not_mem_nil, fun _ ↦ rfl⟩
  | append_singleton events event ih =>
    rw [run, List.foldlM_append] at hrun
    obtain ⟨s₁, hs₁, hlast⟩ := Option.bind_eq_some_iff.mp hrun
    rw [List.foldlM_cons] at hlast
    obtain ⟨s₂, hstep, hlast⟩ := Option.bind_eq_some_iff.mp hlast
    obtain rfl := Option.some.inj hlast
    obtain ⟨hinv, hall⟩ := ih (fun e he ↦ hnormal e (List.mem_append_left _ he)) hs₁
    obtain ⟨hall', hphase⟩ := hall.step hinv hcores (hnormal event (by simp)) hstep
    rcases hinv.step hcores hstep with hexited | hinv'
    · exact absurd hexited hphase
    · exact ⟨hinv', hall'⟩

/-- No lookup in `proc_pid_arr` fails, `num_running` counts the slots that are taken, children that
run at the same time have slots of their own, and behind the drain loop every child has been waited
for once. -/
theorem supervisor_slots {multicore numBatch : ℕ} (hcores : 1 ≤ multicore) {events : List Event}
    (hnormal : ∀ event ∈ events, event.Normal) {s : State}
    (hrun : run multicore numBatch events = some s) :
    (∀ failure, s.phase ≠ .failed failure) ∧ s.phase ≠ .exited ∧
      s.numRunning = s.procPidArr.countP (· ≠ 0) ∧
      (s.children.map Child.procNum).Nodup ∧ (∀ child ∈ s.children, child.procNum < multicore) ∧
      (s.phase = .done → s.procPidArr = List.replicate multicore 0 ∧ s.children = [] ∧
        s.waited.Perm (List.range (numBatch * multicore))) := by
  obtain ⟨hinv, -⟩ := run_inv hcores hnormal hrun
  have hfits := hinv.phase
  refine ⟨fun failure hphase ↦ ?_, fun hphase ↦ ?_, ?_, hinv.slots.nodup_procNums,
    fun child hchild ↦ hinv.slots.procNum_lt hchild, fun hphase ↦ ?_⟩
  · rw [hphase] at hfits
    exact hfits
  · rw [hphase] at hfits
    exact hfits
  · rw [hinv.slots.taken, hinv.slots.running]
  · rw [hphase] at hfits
    have hnil : s.children = [] := by
      have hrunning := hinv.slots.running
      rw [show s.numRunning = 0 from hfits] at hrunning
      exact List.length_eq_zero_iff.mp (by omega)
    have hledger := hinv.ledger
    rw [hphase, hnil, List.map_nil, List.append_nil] at hledger
    exact ⟨hinv.slots.eq_replicate hfits, hnil, hledger⟩

/-- Two batches of two workers, which end in the other order. -/
def twoBatches : List Event :=
  [.fork 11, .fork 12, .ends 12 0 normal, .wait 12, .fork 13, .ends 11 0 normal, .wait 11,
    .fork 12, .ends 13 0 normal, .wait 13, .advance, .advance, .ends 12 0 normal, .wait 12, .advance]

theorem supervisor_slots_twoBatches : ∃ s, run 2 2 twoBatches = some s ∧ s.phase = .done ∧
    s.procPidArr = [0, 0] ∧ s.waited.Perm (List.range (2 * 2)) := by
  have hnormal : ∀ event ∈ twoBatches, event.Normal := by
    simp [twoBatches, Event.Normal]
  refine ⟨_, rfl, rfl, rfl, ?_⟩
  exact ((supervisor_slots (by decide) hnormal (by rfl : run 2 2 twoBatches = some _)).2.2.2.2.2
    rfl).2.2

end ProcessorFuzz.Execution.Supervisor
