import ProcessorFuzz.Library.Interleaving

/-!
# Critical sections

Workers run programs that begin with `P` and end with `V` of one semaphore and touch the shared
state only in between. Whatever the schedule, the completed programs have the effect of running
them one after another in the order of their `V`s.
-/

namespace ProcessorFuzz.Library.CriticalSection

open Interleaving

variable {Call : Type} {Result : Call → Type} {σ Job ι : Type}

/-- Where a worker is: between two jobs, before `P`, or inside with the rest of its program. -/
inductive Frame (Result : Call → Type) (Job : Type)
  | idle
  | waiting (job : Job)
  | inside (job : Job) (code : Code Result Unit)

structure Pool (Result : Call → Type) (σ Job ι : Type) where
  shared : σ
  sem : ℕ
  frame : ι → Frame Result Job
  jobs : ι → List Job
  /-- The completed jobs, in the order of their `V`s. -/
  log : List Job

/-- The semaphore is created with value 1. -/
def start (Result : Call → Type) (shared : σ) (jobs : ι → List Job) : Pool Result σ Job ι where
  shared
  sem := 1
  frame _ := .idle
  jobs
  log := []

variable [DecidableEq ι] (perform : (c : Call) → σ → Option (Except PyError (Result c × σ)))
  (body : Job → Code Result Unit)

/-- One step of worker `w`: its next job, `P`, a call of the program, or `V`. -/
def step (w : ι) (s : Pool Result σ Job ι) : Option (Pool Result σ Job ι) :=
  match s.frame w with
  | .idle =>
    match s.jobs w with
    | [] => none
    | job :: jobs =>
      some { s with
        frame := Function.update s.frame w (.waiting job)
        jobs := Function.update s.jobs w jobs }
  | .waiting job =>
    if s.sem = 0 then none
    else some { s with
      sem := s.sem - 1
      frame := Function.update s.frame w (.inside job (body job)) }
  | .inside job (.ret ()) =>
    some { s with
      sem := s.sem + 1
      frame := Function.update s.frame w .idle
      log := s.log ++ [job] }
  | .inside job code =>
    (code.advance perform s.shared).map fun r ↦
      { s with shared := r.2, frame := Function.update s.frame w (.inside job r.1) }

/-- A worker that cannot step is passed over. -/
def run (schedule : List ι) (s : Pool Result σ Job ι) : Pool Result σ Job ι :=
  schedule.foldl (fun s w ↦ (step perform body w s).getD s) s

variable {perform body} {w : ι} {s s' : Pool Result σ Job ι} {s₀ : σ}

/-- What one step can be. -/
theorem step_cases (h : step perform body w s = some s') :
    (∃ job jobs, s.frame w = .idle ∧ s.jobs w = job :: jobs ∧ s' = { s with
      frame := Function.update s.frame w (.waiting job)
      jobs := Function.update s.jobs w jobs }) ∨
    (∃ job, s.frame w = .waiting job ∧ s.sem ≠ 0 ∧ s' = { s with
      sem := s.sem - 1
      frame := Function.update s.frame w (.inside job (body job)) }) ∨
    (∃ job, s.frame w = .inside job (.ret ()) ∧ s' = { s with
      sem := s.sem + 1
      frame := Function.update s.frame w .idle
      log := s.log ++ [job] }) ∨
    ∃ job code r, s.frame w = .inside job code ∧ code.advance perform s.shared = some r ∧
      s' = { s with shared := r.2, frame := Function.update s.frame w (.inside job r.1) } := by
  unfold step at h
  split at h
  · next hidle =>
    split at h
    · exact nomatch h
    · next job jobs hjobs => exact Or.inl ⟨job, jobs, hidle, hjobs, (Option.some.inj h).symm⟩
  · next job hwaiting =>
    split at h
    · exact nomatch h
    · next hsem => exact Or.inr (Or.inl ⟨job, hwaiting, hsem, (Option.some.inj h).symm⟩)
  · next job hinside =>
    exact Or.inr (Or.inr (Or.inl ⟨job, hinside, (Option.some.inj h).symm⟩))
  · next job code _ hinside =>
    obtain ⟨r, hr, rfl⟩ := Option.map_eq_some_iff.mp h
    exact Or.inr (Or.inr (Or.inr ⟨job, code, r, hinside, hr, rfl⟩))

def Outside (w : ι) (s : Pool Result σ Job ι) : Prop := ∀ job code, s.frame w ≠ .inside job code

/-- The shared state is that of the completed programs run one after another. -/
def Free (perform : (c : Call) → σ → Option (Except PyError (Result c × σ)))
    (body : Job → Code Result Unit) (s₀ : σ) (s : Pool Result σ Job ι) : Prop :=
  s.sem = 1 ∧ (forM s.log body).alone perform s₀ = some (.ok ((), s.shared))

/-- The rest of the program ends from here as the whole program does from the state that the
completed programs left. -/
def Inside (perform : (c : Call) → σ → Option (Except PyError (Result c × σ)))
    (body : Job → Code Result Unit) (s₀ : σ) (w : ι) (s : Pool Result σ Job ι) : Prop :=
  s.sem = 0 ∧ ∃ job code s₁, s.frame w = .inside job code ∧
    (forM s.log body).alone perform s₀ = some (.ok ((), s₁)) ∧
    code.alone perform s.shared = (body job).alone perform s₁

omit [DecidableEq ι] in
theorem outside_of_idle (h : s.frame w = .idle) : Outside w s :=
  fun _ _ hinside ↦ nomatch h.symm.trans hinside

omit [DecidableEq ι] in
theorem outside_of_waiting {job : Job} (h : s.frame w = .waiting job) : Outside w s :=
  fun _ _ hinside ↦ nomatch h.symm.trans hinside

theorem alone_of_advance {α : Type} {code : Code Result α} {shared : σ} {r : Code Result α × σ}
    (h : code.advance perform shared = some r) :
    r.1.alone perform r.2 = code.alone perform shared := by
  cases code with
  | ret a => exact nomatch h
  | raise e => exact nomatch h
  | call c next =>
    cases hanswer : perform c shared with
    | none => simp [Code.advance, hanswer] at h
    | some outcome =>
      cases outcome with
      | error e =>
        simp only [Code.advance, hanswer, Option.some.injEq] at h
        subst h
        simp [Code.alone, hanswer]
      | ok answer =>
        simp only [Code.advance, hanswer, Option.some.injEq] at h
        subst h
        exact (Code.alone_call_of_ok hanswer).symm

theorem alone_forM_concat {l : List Job} {job : Job} {s₁ s₂ : σ}
    (hl : (forM l body).alone perform s₀ = some (.ok ((), s₁)))
    (hjob : (body job).alone perform s₁ = some (.ok ((), s₂))) :
    (forM (l ++ [job]) body).alone perform s₀ = some (.ok ((), s₂)) := by
  induction l generalizing s₀ with
  | nil =>
    obtain ⟨-, rfl⟩ := Prod.mk.inj (Except.ok.inj (Option.some.inj hl))
    rw [List.nil_append, List.forM_cons]
    exact Code.alone_bind_eq_ok.mpr ⟨(), s₂, hjob, rfl⟩
  | cons first l ih =>
    rw [List.forM_cons] at hl
    obtain ⟨_, s', hfirst, hrest⟩ := Code.alone_bind_eq_ok.mp hl
    rw [List.cons_append, List.forM_cons]
    exact Code.alone_bind_eq_ok.mpr ⟨(), s', hfirst, ih hrest⟩

theorem step_others (h : step perform body w s = some s') {v : ι} (hv : v ≠ w) :
    s'.frame v = s.frame v := by
  rcases step_cases h with ⟨_, _, -, -, rfl⟩ | ⟨_, -, -, rfl⟩ | ⟨_, -, rfl⟩ | ⟨_, _, _, -, -, rfl⟩
  all_goals exact Function.update_of_ne hv ..

/-- One step keeps the semaphore guarding the shared state. -/
theorem guarded_step
    (h : Guarded (Free perform body s₀) Outside (Inside perform body s₀) s)
    (hstep : step perform body w s = some s') :
    Guarded (Free perform body s₀) Outside (Inside perform body s₀) s' := by
  have hothers : ∀ v, v ≠ w → Outside v s → Outside v s' := by
    intro v hv hout job code
    rw [step_others hstep hv]
    exact hout job code
  rcases step_cases hstep with ⟨job, jobs, hframe, -, rfl⟩ | ⟨job, hframe, hsem, rfl⟩ |
    ⟨job, hframe, rfl⟩ | ⟨job, code, r, hframe, hadvance, rfl⟩
  · -- a worker takes its next job
    have hout : Outside w { s with
        frame := Function.update s.frame w (.waiting job)
        jobs := Function.update s.jobs w jobs } := outside_of_waiting (Function.update_self ..)
    apply Guarded.step h hothers
    · exact fun hfree _ ↦ Or.inl ⟨hfree, hout⟩
    · rintro ⟨-, job', code, s₁, hinside, -⟩
      exact nomatch hframe.symm.trans hinside
    · rintro v hv ⟨hzero, job', code, s₁, hinside, hlog, hcode⟩ -
      exact ⟨⟨hzero, job', code, s₁, (step_others hstep hv).trans hinside, hlog, hcode⟩, hout⟩
  · -- `P`
    apply Guarded.step h hothers
    · rintro ⟨hone, hlog⟩ -
      refine Or.inr ⟨?_, job, body job, s.shared, Function.update_self .., hlog, rfl⟩
      rw [hone]
    · rintro ⟨-, job', code, s₁, hinside, -⟩
      exact nomatch hframe.symm.trans hinside
    · rintro v hv ⟨hzero, -⟩
      exact absurd hzero hsem
  · -- `V`
    have hnot : ¬ Outside w s := fun hout ↦ hout job _ hframe
    apply Guarded.step h hothers
    · exact fun _ hout ↦ absurd hout hnot
    · rintro ⟨hzero, job', code, s₁, hinside, hlog, hcode⟩
      obtain ⟨rfl, rfl⟩ := Frame.inside.inj (hframe.symm.trans hinside)
      refine Or.inr ⟨⟨?_, ?_⟩, ?_⟩
      · rw [hzero]
      · exact alone_forM_concat hlog hcode.symm
      · exact outside_of_idle (Function.update_self ..)
    · exact fun _ _ _ hout ↦ absurd hout hnot
  · -- a call of the program
    have hnot : ¬ Outside w s := fun hout ↦ hout job code hframe
    apply Guarded.step h hothers
    · exact fun _ hout ↦ absurd hout hnot
    · rintro ⟨hzero, job', code', s₁, hinside, hlog, hcode⟩
      obtain ⟨rfl, rfl⟩ := Frame.inside.inj (hframe.symm.trans hinside)
      refine Or.inl ⟨hzero, job, r.1, s₁, Function.update_self .., hlog, ?_⟩
      rw [← hcode]
      exact alone_of_advance hadvance
    · exact fun _ _ _ hout ↦ absurd hout hnot

/-- What every step preserves holds after a run. -/
theorem run_invariant {P : Pool Result σ Job ι → Prop}
    (hstep : ∀ w s s', P s → step perform body w s = some s' → P s') (hs : P s)
    (schedule : List ι) : P (run perform body schedule s) := by
  induction schedule generalizing s with
  | nil => exact hs
  | cons w schedule ih =>
    apply ih
    show P ((step perform body w s).getD s)
    cases hcase : step perform body w s with
    | none => exact hs
    | some s' => exact hstep w s s' hs hcase

/-- While nobody is inside, the shared state is that of the completed programs in the order of
their `V`s. -/
theorem run_serial (shared : σ) (jobs : ι → List Job) (schedule : List ι)
    (hfree : (run perform body schedule (start Result shared jobs)).sem ≠ 0) :
    (forM (run perform body schedule (start Result shared jobs)).log body).alone perform shared =
      some (.ok ((), (run perform body schedule (start Result shared jobs)).shared)) := by
  have hstart : Guarded (Free perform body shared) Outside (Inside perform body shared)
      (start Result shared jobs) :=
    Or.inl ⟨⟨rfl, rfl⟩, fun w ↦ outside_of_idle rfl⟩
  have h := run_invariant (fun w s s' hs ↦ guarded_step hs) hstart schedule
  rcases h with ⟨⟨-, hlog⟩, -⟩ | ⟨w, ⟨hzero, -⟩, -⟩
  · exact hlog
  · exact absurd hzero hfree

/-- The job that a worker is busy with. -/
def Frame.job? : Frame Result Job → Option Job
  | idle => none
  | waiting job => some job
  | inside job _ => some job

/-- Every job that is or was in the pool satisfies `P`. -/
structure AllJobs (P : Job → Prop) (s : Pool Result σ Job ι) : Prop where
  log : ∀ job ∈ s.log, P job
  frame : ∀ w job, (s.frame w).job? = some job → P job
  jobs : ∀ w, ∀ job ∈ s.jobs w, P job

theorem AllJobs.step {P : Job → Prop} (h : AllJobs P s)
    (hstep : step perform body w s = some s') : AllJobs P s' := by
  have hframe : (∀ job, (s'.frame w).job? = some job → P job) →
      ∀ v job, (s'.frame v).job? = some job → P job := by
    intro hw v job hjob
    by_cases hv : v = w
    · exact hw job (hv ▸ hjob)
    · rw [step_others hstep hv] at hjob
      exact h.frame v job hjob
  rcases step_cases hstep with ⟨job, jobs, hidle, hjobs, rfl⟩ | ⟨job, hwaiting, -, rfl⟩ |
    ⟨job, hinside, rfl⟩ | ⟨job, code, r, hinside, -, rfl⟩
  · have hmem : ∀ job' ∈ job :: jobs, P job' := fun job' hjob' ↦ h.jobs w job' (hjobs ▸ hjob')
    refine ⟨h.log, hframe fun job' hjob' ↦ ?_, fun v job' hjob' ↦ ?_⟩
    · have hjob : job = job' := by simpa [Frame.job?] using hjob'
      exact hmem job' (hjob ▸ List.mem_cons_self)
    · by_cases hv : v = w
      · subst hv
        have hrest : job' ∈ jobs := by simpa using hjob'
        exact hmem job' (List.mem_cons_of_mem job hrest)
      · have hsame : job' ∈ s.jobs v := by simpa [Function.update_of_ne hv] using hjob'
        exact h.jobs v job' hsame
  · refine ⟨h.log, hframe fun job' hjob' ↦ ?_, h.jobs⟩
    have hjob : job = job' := by simpa [Frame.job?] using hjob'
    exact h.frame w job' (by rw [hwaiting, ← hjob]; rfl)
  · refine ⟨fun job' hjob' ↦ ?_, hframe fun job' hjob' ↦ ?_, h.jobs⟩
    · rcases List.mem_append.mp hjob' with hold | hnew
      · exact h.log job' hold
      · exact h.frame w job' (by rw [hinside, List.mem_singleton.mp hnew]; rfl)
    · simp [Frame.job?] at hjob'
  · refine ⟨h.log, hframe fun job' hjob' ↦ ?_, h.jobs⟩
    have hjob : job = job' := by simpa [Frame.job?] using hjob'
    exact h.frame w job' (by rw [hinside, ← hjob]; rfl)

/-- Only jobs of the workers are completed. -/
theorem run_log_all {P : Job → Prop} (shared : σ) {jobs : ι → List Job}
    (hjobs : ∀ w, ∀ job ∈ jobs w, P job) (schedule : List ι) :
    ∀ job ∈ (run perform body schedule (start Result shared jobs)).log, P job := by
  have hstart : AllJobs P (start Result shared jobs) :=
    ⟨fun _ h ↦ absurd h List.not_mem_nil, fun _ _ h ↦ (nomatch h), hjobs⟩
  exact (run_invariant (fun _ _ _ hs ↦ hs.step) hstart schedule).log

end ProcessorFuzz.Library.CriticalSection
