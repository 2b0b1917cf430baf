import Mathlib.Data.List.NodupEquivFin
import ProcessorFuzz.Execution.Supervisor

/-!
# The failure of a worker

When a worker fails, `wait_check` kills every process in `proc_pid_arr` but the worker. In the batch
loop the array is full and these are the other workers. In the drain loop there is always a slot
that is zero, and the signal to pid 0 goes to the whole process group.
-/

namespace ProcessorFuzz.Execution.Supervisor

section Signals

variable {pids : List ℕ}

theorem zero_mem_signalled : 0 ∈ pids → 0 ∈ signalled pids := by
  induction pids with
  | nil => exact id
  | cons pid pids ih =>
    intro hmem
    rw [signalled]
    rcases List.mem_cons.mp hmem with rfl | hrest
    · exact List.mem_cons_self
    · by_cases hzero : pid = 0
      · exact hzero ▸ List.mem_cons_self
      · rw [if_neg hzero]
        exact List.mem_cons_of_mem pid (ih hrest)

theorem signalled_eq (h : 0 ∉ pids) : signalled pids = pids := by
  induction pids with
  | nil => rfl
  | cons pid pids ih =>
    rw [List.mem_cons, not_or] at h
    rw [signalled, if_neg (Ne.symm h.1), ih h.2]

end Signals

namespace Slots

variable {multicore : ℕ} {s : State} {child : Child}

/-- The pids in the array are those of the children. -/
theorem perm_pids (h : Slots multicore s) :
    (s.children.map Child.pid).Perm (s.procPidArr.filter (· ≠ 0)) := by
  have hsubset : s.children.map Child.pid ⊆ s.procPidArr.filter (· ≠ 0) := by
    intro pid hpid
    obtain ⟨c, hc, rfl⟩ := List.mem_map.mp hpid
    exact List.mem_filter.mpr ⟨List.mem_of_getElem? (h.slot c hc), decide_eq_true (h.pos c hc)⟩
  apply (List.subperm_of_subset h.pids hsubset).perm_of_length_le
  rw [← List.countP_eq_length_filter, h.taken, List.length_map]

theorem zero_mem_iff (h : Slots multicore s) : 0 ∈ s.procPidArr ↔ s.numRunning < multicore := by
  refine ⟨fun hzero ↦ ?_, h.exists_free⟩
  have hlt : s.procPidArr.countP (· ≠ 0) < s.procPidArr.length := by
    apply Nat.lt_of_le_of_ne List.countP_le_length
    intro hall
    exact of_decide_eq_true (List.countP_eq_length.mp hall 0 hzero) rfl
  have hrunning := h.running
  rw [h.taken, h.length] at hlt
  omega

theorem find?_eq (h : Slots multicore s) (hchild : child ∈ s.children) :
    (s.children.find? fun c ↦ c.pid = child.pid) = some child := by
  cases hfind : s.children.find? fun c ↦ c.pid = child.pid with
  | none => exact absurd (decide_eq_true rfl) (List.find?_eq_none.mp hfind child hchild)
  | some c =>
    have hpid : c.pid = child.pid := by simpa using List.find?_some hfind
    rw [List.inj_on_of_nodup_map h.pids (List.mem_of_find?_eq_some hfind) hchild hpid]

/-- A child is found in its own slot. -/
theorem idxOf?_eq (h : Slots multicore s) (hchild : child ∈ s.children) :
    s.procPidArr.idxOf? child.pid = some child.procNum := by
  obtain ⟨idx, hidx⟩ := h.exists_idx hchild
  obtain ⟨hlt, hpid, hfirst⟩ := List.idxOf?_eq_some_iff.mp hidx
  obtain ⟨hlt', hpid'⟩ := List.getElem?_eq_some_iff.mp (h.slot child hchild)
  have hle : idx ≤ child.procNum := by
    by_contra hgt
    exact hfirst child.procNum (by omega) (by simpa using hpid')
  have hcount : s.procPidArr.count child.pid ≤ 1 := by
    have hnodup := h.perm_pids.nodup_iff.mp h.pids
    rw [← List.count_filter (p := fun pid ↦ decide (pid ≠ 0))
      (decide_eq_true (h.pos child hchild))]
    exact List.nodup_iff_count_le_one.mp hnodup child.pid
  rcases Nat.lt_or_eq_of_le hle with hless | rfl
  · have htwice : List.Duplicate child.pid s.procPidArr :=
      List.duplicate_iff_exists_distinct_get.mpr ⟨⟨idx, hlt⟩, ⟨child.procNum, hlt'⟩, hless,
        by simpa using hpid.symm, by simpa using hpid'.symm⟩
    have htwo := List.duplicate_iff_two_le_count.mp htwice
    omega
  · exact hidx

/-- When no slot is zero, the other pids in the array are those of the other children. -/
theorem others_perm (h : Slots multicore s) (hchild : child ∈ s.children)
    (hfull : 0 ∉ s.procPidArr) :
    (s.procPidArr.filter (· ≠ child.pid)).Perm ((s.children.erase child).map Child.pid) := by
  have hperm := (List.perm_cons_erase hchild).map Child.pid
  have hnodup := hperm.nodup_iff.mp h.pids
  rw [List.map_cons, List.nodup_cons] at hnodup
  have hpids : s.procPidArr.filter (· ≠ 0) = s.procPidArr := by
    apply List.filter_eq_self.mpr
    intro pid hpid
    exact decide_eq_true fun hzero ↦ hfull (hzero ▸ hpid)
  have hothers : (child.pid :: (s.children.erase child).map Child.pid).filter (· ≠ child.pid) =
      (s.children.erase child).map Child.pid := by
    rw [List.filter_cons_of_neg (by simp)]
    apply List.filter_eq_self.mpr
    intro pid hpid
    exact decide_eq_true fun heq ↦ hnodup.1 (heq ▸ hpid)
  have hfilter := (h.perm_pids.symm.trans hperm).filter (· ≠ child.pid)
  rw [hpids, List.map_cons, hothers] at hfilter
  exact hfilter

end Slots

/-- In the drain loop fewer children run than there are slots. -/
structure Reached (multicore numBatch : ℕ) (s : State) : Prop extends Inv multicore numBatch s where
  drain : s.phase = .drain ∨ s.phase = .drainWait → s.numRunning < multicore

section Runs

variable {multicore numBatch : ℕ} {s s' : State} {event : Event} {events : List Event}

theorem phase_step_of_exited (hexited : s.phase = .exited)
    (hstep : step multicore numBatch s event = some s') : s'.phase = .exited := by
  rcases step_cases hstep with ⟨i, pid, -, hphase, -, -⟩ | ⟨pid, exitCode, procState, -, child, -, rfl⟩ |
    ⟨pid, next, -, hwaits, -⟩ | ⟨next, -, hadvances, -⟩
  · rw [hexited] at hphase
    exact nomatch hphase
  · exact hexited
  · rw [hexited] at hwaits
    exact nomatch hwaits
  · rw [hexited] at hadvances
    exact nomatch hadvances

theorem waitCheck_cases (s : State) (next : Phase) (endPid exitCode : ℕ) :
    s.waitCheck next endPid exitCode = { s with phase := .failed .unknownPid } ∨
      s.waitCheck next endPid exitCode = s.killOthers endPid ∨
      ∃ idx, s.waitCheck next endPid exitCode = s.free idx next := by
  rw [State.waitCheck]
  split
  · exact .inl rfl
  · next idx _ =>
    split
    · exact .inr (.inl rfl)
    · split
      · exact .inr (.inl rfl)
      · exact .inr (.inr ⟨idx, rfl⟩)

theorem waitCheck_of_failed {child : Child} {next : Phase} {exitCode : ℕ}
    (hidx : s.procPidArr.idxOf? child.pid = some child.procNum)
    (hfailed : exitCode ≠ 0 ∨ s.procStates child.procNum ≠ normal) :
    (s.reap child).waitCheck next child.pid exitCode = (s.reap child).killOthers child.pid := by
  have hidx' : (s.reap child).procPidArr.idxOf? child.pid = some child.procNum := hidx
  rw [State.waitCheck, hidx']
  dsimp only
  by_cases hcode : exitCode ≠ 0
  · rw [if_pos hcode]
  · have hstate : (s.reap child).procStates child.procNum ≠ normal := hfailed.resolve_left hcode
    rw [if_neg hcode, if_pos hstate]

/-- The parent comes to the drain loop with a free slot, and does not fork there. -/
theorem Reached.drain_step (h : Reached multicore numBatch s)
    (hstep : step multicore numBatch s event = some s')
    (hdrain : s'.phase = .drain ∨ s'.phase = .drainWait) : s'.numRunning < multicore := by
  have hfits := h.phase
  have hfree := h.drain
  rcases step_cases hstep with ⟨i, pid, -, -, -, hfork⟩ |
    ⟨pid, exitCode, procState, -, child, -, rfl⟩ | ⟨pid, next, -, hwaits, hwait⟩ |
    ⟨next, -, hadvances, rfl⟩
  · rcases hfork with ⟨-, rfl⟩ | ⟨procNum, -, -, -, rfl⟩
    · exact absurd hdrain (by simp)
    · rw [State.forked] at hdrain
      dsimp only at hdrain
      split at hdrain <;> exact absurd hdrain (by simp)
  · exact hfree hdrain
  · rcases wait_cases hwait with ⟨-, rfl⟩ | ⟨child, -, exitCode, -, rfl⟩
    · exact absurd hdrain (by simp)
    · rcases waitCheck_cases (s.reap child) next child.pid exitCode with hfailed | hkill |
        ⟨idx, hidle⟩
      · rw [hfailed] at hdrain
        exact absurd hdrain (by simp)
      · rw [hkill] at hdrain
        exact absurd hdrain (by simp [State.killOthers])
      · rw [hidle] at hdrain ⊢
        have hlt : s.numRunning < multicore := by
          generalize s.phase = phase at hwaits hfree
          cases hwaits with
          | batch i => exact absurd hdrain (by simp [State.free])
          | drain => exact hfree (.inr rfl)
        show s.numRunning - 1 < multicore
        omega
  · generalize s.phase = phase at hadvances hfits hfree
    cases hadvances with
    | batch i _ => exact hfits.2
    | drain _ => exact hfree (.inl rfl)
    | done _ => exact absurd hdrain (by simp)

theorem Reached.step (h : Reached multicore numBatch s) (hcores : 1 ≤ multicore)
    (hstep : step multicore numBatch s event = some s') :
    s'.phase = .exited ∨ Reached multicore numBatch s' := by
  rcases h.toInv.step hcores hstep with hexited | hinv
  · exact .inl hexited
  · exact .inr ⟨hinv, h.drain_step hstep⟩

theorem run_reached (hcores : 1 ≤ multicore) (hrun : run multicore numBatch events = some s) :
    s.phase = .exited ∨ Reached multicore numBatch s := by
  induction events using List.reverseRecOn generalizing s with
  | nil =>
    obtain rfl := Option.some.inj hrun
    exact .inr ⟨.start hcores numBatch, by rintro (h | h) <;> exact nomatch h⟩
  | append_singleton events event ih =>
    rw [run, List.foldlM_append] at hrun
    obtain ⟨s₁, hs₁, hlast⟩ := Option.bind_eq_some_iff.mp hrun
    rw [List.foldlM_cons] at hlast
    obtain ⟨s₂, hstep, hlast⟩ := Option.bind_eq_some_iff.mp hlast
    obtain rfl := Option.some.inj hlast
    rcases ih hs₁ with hexited | hreached
    · exact .inl (phase_step_of_exited hexited hstep)
    · exact hreached.step hcores hstep

/-- The signals reach the children that have not been waited for, except the one that failed, and
not the process group. -/
structure KillsOthers (s : State) (child : Child) (signals : List ℕ) : Prop where
  targets : signals.Perm ((s.children.erase child).map Child.pid)
  group : 0 ∉ signals

theorem killsOthers_iff (h : Slots multicore s) {child : Child} (hchild : child ∈ s.children) :
    KillsOthers s child (signalled (s.procPidArr.filter (· ≠ child.pid))) ↔ 0 ∉ s.procPidArr := by
  have hzero : 0 ∈ s.procPidArr → 0 ∈ signalled (s.procPidArr.filter (· ≠ child.pid)) :=
    fun hmem ↦ zero_mem_signalled (List.mem_filter.mpr ⟨hmem, decide_eq_true (h.pos child hchild).symm⟩)
  constructor
  · exact fun hkills hmem ↦ hkills.group (hzero hmem)
  · intro hfull
    rw [signalled_eq fun hmem ↦ hfull (List.mem_of_mem_filter hmem)]
    exact ⟨h.others_perm hchild hfull, fun hmem ↦ hfull (List.mem_of_mem_filter hmem)⟩

/-- A child that has ended but has not been waited for gets a signal, too. -/
theorem kills_running_iff (h : Slots multicore s) {child : Child} (hchild : child ∈ s.children) :
    (signalled (s.procPidArr.filter (· ≠ child.pid))).Perm
        (((s.children.erase child).filter fun c ↦ c.status.isNone).map Child.pid) ↔
      0 ∉ s.procPidArr ∧ ∀ c ∈ s.children.erase child, c.status = none := by
  constructor
  · intro hperm
    have hfull : 0 ∉ s.procPidArr := by
      intro hmem
      have hzero : 0 ∈ signalled (s.procPidArr.filter (· ≠ child.pid)) :=
        zero_mem_signalled (List.mem_filter.mpr
          ⟨hmem, decide_eq_true (h.pos child hchild).symm⟩)
      obtain ⟨c, hc, hpid⟩ := List.mem_map.mp (hperm.subset hzero)
      exact h.pos c (List.mem_of_mem_erase (List.mem_of_mem_filter hc)) hpid
    refine ⟨hfull, fun c hc ↦ ?_⟩
    have htargets := ((killsOthers_iff h hchild).mpr hfull).targets
    have hlength := (hperm.symm.trans htargets).length_eq
    rw [List.length_map, List.length_map, List.length_filter_eq_length_iff] at hlength
    exact Option.isNone_iff_eq_none.mp (hlength c hc)
  · rintro ⟨hfull, hrunning⟩
    rw [List.filter_eq_self.mpr fun c hc ↦ Option.isNone_iff_eq_none.mpr (hrunning c hc)]
    exact ((killsOthers_iff h hchild).mpr hfull).targets

/-- All slots are taken exactly in the batch loop. -/
theorem Reached.full_iff (h : Reached multicore numBatch s) {next : Phase}
    (hwaits : Waits s.phase next) : 0 ∉ s.procPidArr ↔ ∃ i, s.phase = .batchWait i := by
  rw [h.slots.zero_mem_iff]
  have hfits := h.phase
  have hdrain := h.drain
  generalize s.phase = phase at hwaits hfits hdrain
  cases hwaits with
  | batch i =>
    have hrunning := hfits.2
    exact iff_of_true (by omega) ⟨i, rfl⟩
  | drain => exact iff_of_false (not_not.mpr (hdrain (.inr rfl))) fun ⟨i, hi⟩ ↦ nomatch hi

/-- After a failure `wait_check` kills exactly the other children if it was called in the batch
loop, and never so if it was called in the drain loop. If the signals are to go only to children
that have not ended, no other child may have ended, either. -/
theorem wait_failed_kills_iff (hcores : 1 ≤ multicore)
    (hrun : run multicore numBatch events = some s) {next : Phase} (hwaits : Waits s.phase next)
    {child : Child} (hchild : child ∈ s.children) {exitCode : ℕ}
    (hstatus : child.status = some exitCode)
    (hfailed : exitCode ≠ 0 ∨ s.procStates child.procNum ≠ normal) :
    ∃ signals s', step multicore numBatch s (.wait child.pid) = some s' ∧ s'.phase = .exited ∧
      s'.killed = s.killed ++ signals ∧
      (KillsOthers s child signals ↔ ∃ i, s.phase = .batchWait i) ∧
      (signals.Perm (((s.children.erase child).filter fun c ↦ c.status.isNone).map Child.pid) ↔
        (∃ i, s.phase = .batchWait i) ∧ ∀ c ∈ s.children.erase child, c.status = none) := by
  have hreached : Reached multicore numBatch s := by
    refine (run_reached hcores hrun).resolve_left fun hexited ↦ ?_
    rw [hexited] at hwaits
    exact nomatch hwaits
  have hslots := hreached.slots
  have hwait : ∀ next, s.wait next child.pid = some ((s.reap child).killOthers child.pid) := by
    intro next
    rw [State.wait, if_neg (List.ne_nil_of_mem hchild), hslots.find?_eq hchild, Option.bind_some,
      hstatus, Option.map_some, waitCheck_of_failed (hslots.idxOf?_eq hchild) hfailed]
  have hstep : step multicore numBatch s (.wait child.pid) =
      some ((s.reap child).killOthers child.pid) := by
    rw [step]
    generalize s.phase = phase at hwaits
    cases hwaits with
    | batch i => exact hwait _
    | drain => exact hwait _
  refine ⟨signalled (s.procPidArr.filter (· ≠ child.pid)), _, hstep, rfl, rfl, ?_, ?_⟩
  · rw [killsOthers_iff hslots hchild, hreached.full_iff hwaits]
  · rw [kills_running_iff hslots hchild, hreached.full_iff hwaits]

end Runs

/-- Two workers; the second one ends, and the first one fails in the drain loop. -/
def lastFails : List Event :=
  [.fork 11, .fork 12, .ends 12 0 normal, .wait 12, .advance, .advance, .ends 11 1 normal]

def lastChild : Child where
  num := 0
  pid := 11
  procNum := 0
  status := some 1

/-- The signal goes to the process group. -/
theorem not_killsOthers_lastFails : ∃ s s', run 2 1 lastFails = some s ∧ s.phase = .drainWait ∧
    s.children = [lastChild] ∧ step 2 1 s (.wait 11) = some s' ∧ s'.killed = [0] ∧
    ¬ KillsOthers s lastChild s'.killed :=
  ⟨_, _, rfl, rfl, rfl, rfl, rfl, fun h ↦ h.group (by decide)⟩

theorem wait_failed_kills_iff_lastFails : ∃ s signals s', run 2 1 lastFails = some s ∧
    step 2 1 s (.wait 11) = some s' ∧ s'.phase = .exited ∧ s'.killed = s.killed ++ signals ∧
    (KillsOthers s lastChild signals ↔ ∃ i, s.phase = .batchWait i) := by
  obtain ⟨signals, s', hstep, hexited, hkilled, hiff, -⟩ :=
    wait_failed_kills_iff (by decide) (by rfl : run 2 1 lastFails = some _) .drain
      (List.mem_singleton.mpr (rfl : lastChild = _)) rfl (.inl (by decide))
  exact ⟨_, signals, s', rfl, hstep, hexited, hkilled, hiff⟩

end ProcessorFuzz.Execution.Supervisor
