import ProcessorFuzz.Execution.CovMap

/-!
# The iteration count of the coverage log

A forked worker reads the last line of the common coverage log under `covMap_sem`, releases the
semaphore, fuzzes for its number of iterations and then calls `store_covmap`, which appends a line
with the iteration that it began with plus the number of its iterations. The supervisor passes on
the iteration of the last line plus one.

Between the reading and the line that a worker appends any other workers can read and append lines.
Of the calls of `sysv_ipc` only what is documented is known.
-/

namespace ProcessorFuzz.Execution.CovLog

open Library Library.Interleaving CovMap

/-- What `P` and `V` make of the value of a semaphore. A call without a result blocks. -/
structure Sysv where
  p : ℕ → Option ℕ
  v : ℕ → Option ℕ

/-- What is documented of the calls that return. When they return is left open. -/
structure Sysv.Documented (sysv : Sysv) : Prop where
  p : ∀ {n m}, sysv.p n = some m → n ≠ 0 ∧ m = n - 1
  v : ∀ {n m}, sysv.v n = some m → m = n + 1

/-- What a worker is forked with, and what its call of `store_covmap` finds. -/
structure Worker where
  procNum : ℕ
  numIter : ℕ
  covmaps : List Text
  elapsedTime : Text

/-- `lines[-1].split('\t')` of the log. -/
def lastTuple (contents : Text) : Except PyError (List Text) := do
  let line ← Text.item (Text.readlines contents) (-1)
  .ok (Text.split ['\t'] line)

/-- `int(last_tuple[i])`. -/
def column (tuple : List Text) (i : ℤ) : Except PyError ℤ := do
  let field ← Text.item tuple i
  Text.int 10 field

/-- `start_iter` and `start_cov`. -/
def starts (tuple : List Text) : Except PyError (ℤ × ℤ) := do
  let start_iter ← column tuple 1
  let start_cov ← column tuple 2
  .ok (start_iter, start_cov)

/-- Where a worker is: before the first `P`, with the semaphore before and after it has read the
log, behind the `V`, in the loop of `Run`, before the `P` of `store_covmap`, within it, or ended. -/
inductive Frame
  | forked
  | reading
  | read (outcome : Except PyError (List Text))
  | released (tuple : List Text)
  | fuzzing (startIter : ℤ) (executed : ℕ)
  | waiting (executed : ℕ) (job : Job)
  | storing (executed : ℕ) (job : Job) (code : Program Unit)
  | finished
  | raised (e : PyError)

/-- A completed call of `store_covmap`, with the iterations that its worker had executed. -/
structure Store where
  executed : ℕ
  job : Job

structure System (ι : Type) where
  files : Files
  sem : ℕ
  frame : ι → Frame
  /-- The completed calls, in the order of their `V`s. -/
  stored : List Store

variable {ι : Type}

def start (files : Files) : System ι where
  files
  sem := 1
  frame _ := .forked
  stored := []

/-- The arguments of `store_covmap`; the iterations of a log are never negative. -/
def Worker.job (worker : Worker) (startIter : ℤ) : Job where
  procNum := worker.procNum
  covmaps := worker.covmaps
  elapsedTime := worker.elapsedTime
  iter := (startIter + worker.numIter).toNat

variable [DecidableEq ι]

def System.enter (s : System ι) (w : ι) (frame : Frame) : System ι :=
  { s with frame := Function.update s.frame w frame }

/-- One step of worker `w`. -/
def step (sysv : Sysv) (worker : ι → Worker) (w : ι) (s : System ι) : Option (System ι) :=
  match s.frame w with
  | .forked => (sysv.p s.sem).map fun sem ↦ { s with sem }.enter w .reading
  | .reading => some (s.enter w (.read (lastTuple s.files.covLog)))
  | .read (.ok tuple) => (sysv.v s.sem).map fun sem ↦ { s with sem }.enter w (.released tuple)
  | .read (.error _) => none
  | .released tuple =>
    match starts tuple with
    | .ok (start_iter, _) => some (s.enter w (.fuzzing (start_iter + 1) 0))
    | .error e => some (s.enter w (.raised e))
  | .fuzzing startIter executed =>
    if executed < (worker w).numIter then some (s.enter w (.fuzzing startIter (executed + 1)))
    else some (s.enter w (.waiting executed ((worker w).job startIter)))
  | .waiting executed job =>
    (sysv.p s.sem).map fun sem ↦ { s with sem }.enter w (.storing executed job (storeCovmap job))
  | .storing executed job (.ret ()) =>
    (sysv.v s.sem).map fun sem ↦
      { s with sem, stored := s.stored ++ [Store.mk executed job] }.enter w .finished
  | .storing executed job code =>
    (code.advance perform s.files).map fun r ↦
      { s with files := r.2 }.enter w (.storing executed job r.1)
  | .finished => none
  | .raised _ => none

/-- A worker that cannot step is passed over. -/
def run (sysv : Sysv) (worker : ι → Worker) (schedule : List ι) (s : System ι) : System ι :=
  schedule.foldl (fun s w ↦ (step sysv worker w s).getD s) s

/-- The iterations that the workers of some calls have executed together. -/
def executedBy (stores : List Store) : ℕ := (stores.map Store.executed).sum

/-- The iteration column of every appended line is the number of iterations that all workers have
executed which have stored by then. -/
def Exact (s : System ι) : Prop :=
  ∀ before store after, s.stored = before ++ store :: after →
    store.job.iter = executedBy (before ++ [store])

/-- The log that some calls leave: one line for each of them. -/
def Appended (contents : Text) (stores : List Store) (covLog : Text) : Prop :=
  ∃ sums : List ℕ, sums.length = stores.length ∧
    covLog = contents ++
      (List.zipWith (fun store cov_sum ↦ logLine store.job cov_sum) stores sums).flatten

/-- `'{:<10}\t{:<10}\t{:<10}\n'.format(0, 0, 0)` without its line feed. -/
def zeroLine : Text :=
  Text.ljust 10 ['0'] ++ '\t' :: Text.ljust 10 ['0'] ++ '\t' :: Text.ljust 10 ['0']

/-- A log that ends with the line that the supervisor appends. -/
def zeroLog (lines : List Text) : Text := (lines ++ [zeroLine]).flatMap fun line ↦ line ++ ['\n']

theorem isLineText_zeroLine : Text.IsLineText zeroLine := by
  have hall : zeroLine.all (fun c ↦ c ≠ '\n' && c ≠ '\r') = true := by decide
  intro c hc
  simpa using List.all_eq_true.mp hall c hc

theorem lastTuple_zeroLog {lines : List Text} (h : ∀ line ∈ lines, Text.IsLineText line) :
    lastTuple (zeroLog lines) = .ok (Text.split ['\t'] (zeroLine ++ ['\n'])) := by
  have hall : ∀ line ∈ lines ++ [zeroLine], Text.IsLineText line := by
    intro line hline
    rcases List.mem_append.mp hline with hline | hline
    · exact h line hline
    · rw [List.mem_singleton.mp hline]
      exact isLineText_zeroLine
  have hread : Text.readlines (zeroLog lines) =
      lines.map (fun line ↦ line ++ ['\n']) ++ [zeroLine ++ ['\n']] := by
    rw [zeroLog, Text.readlines_flatMap hall, List.map_append, List.map_singleton]
  have hitem (first : List Text) (last : Text) : Text.item (first ++ [last]) (-1) = .ok last := by
    have hindex : ((-1 : ℤ) + ((first ++ [last]).length : ℕ)).toNat = first.length := by
      rw [List.length_append, List.length_singleton]
      omega
    have hpos : ¬((-1 : ℤ) + ((first ++ [last]).length : ℕ) < 0) := by
      rw [List.length_append, List.length_singleton]
      omega
    have hneg : (-1 : ℤ) < 0 := by decide
    unfold Text.item
    simp only [hneg, if_true, hpos, if_false, hindex, List.getElem?_concat_length]
  rw [lastTuple, hread, hitem]
  rfl

theorem starts_zeroLine : starts (Text.split ['\t'] (zeroLine ++ ['\n'])) = .ok (0, 0) := by
  decide

variable {worker : ι → Worker} {w : ι} {s s' : System ι}

/-- The steps of a worker, one for each place where it can be. -/
inductive Steps (worker : ι → Worker) (w : ι) (s : System ι) : System ι → Prop
  | pRead (hframe : s.frame w = .forked) (hsem : s.sem ≠ 0) :
    Steps worker w s ({ s with sem := s.sem - 1 }.enter w .reading)
  | read (hframe : s.frame w = .reading) :
    Steps worker w s (s.enter w (.read (lastTuple s.files.covLog)))
  | vRead {tuple : List Text} (hframe : s.frame w = .read (.ok tuple)) :
    Steps worker w s ({ s with sem := s.sem + 1 }.enter w (.released tuple))
  | begin {tuple : List Text} {start_iter start_cov : ℤ} (hframe : s.frame w = .released tuple)
    (hstarts : starts tuple = .ok (start_iter, start_cov)) :
    Steps worker w s (s.enter w (.fuzzing (start_iter + 1) 0))
  | fail {tuple : List Text} {e : PyError} (hframe : s.frame w = .released tuple) :
    Steps worker w s (s.enter w (.raised e))
  | fuzz {startIter : ℤ} {executed : ℕ} (hframe : s.frame w = .fuzzing startIter executed)
    (hlt : executed < (worker w).numIter) :
    Steps worker w s (s.enter w (.fuzzing startIter (executed + 1)))
  | stop {startIter : ℤ} {executed : ℕ} (hframe : s.frame w = .fuzzing startIter executed)
    (hge : (worker w).numIter ≤ executed) :
    Steps worker w s (s.enter w (.waiting executed ((worker w).job startIter)))
  | pStore {executed : ℕ} {job : Job} (hframe : s.frame w = .waiting executed job)
    (hsem : s.sem ≠ 0) :
    Steps worker w s
      ({ s with sem := s.sem - 1 }.enter w (.storing executed job (storeCovmap job)))
  | store {executed : ℕ} {job : Job} {code : Program Unit} {r : Program Unit × Files}
    (hframe : s.frame w = .storing executed job code)
    (hadvance : code.advance perform s.files = some r) :
    Steps worker w s ({ s with files := r.2 }.enter w (.storing executed job r.1))
  | vStore {executed : ℕ} {job : Job} (hframe : s.frame w = .storing executed job (.ret ())) :
    Steps worker w s ({ s with
      sem := s.sem + 1
      stored := s.stored ++ [Store.mk executed job] }.enter w .finished)

theorem steps_of_step {sysv : Sysv} (hsysv : sysv.Documented) (h : step sysv worker w s = some s') :
    Steps worker w s s' := by
  unfold step at h
  split at h
  · next hframe =>
    obtain ⟨sem, hp, rfl⟩ := Option.map_eq_some_iff.mp h
    obtain ⟨hsem, rfl⟩ := hsysv.p hp
    exact .pRead hframe hsem
  · next hframe => exact Option.some.inj h ▸ .read hframe
  · next tuple hframe =>
    obtain ⟨sem, hv, rfl⟩ := Option.map_eq_some_iff.mp h
    obtain rfl := hsysv.v hv
    exact .vRead hframe
  · exact nomatch h
  · next tuple hframe =>
    split at h
    · next start_iter start_cov hstarts => exact Option.some.inj h ▸ .begin hframe hstarts
    · exact Option.some.inj h ▸ .fail hframe
  · next startIter executed hframe =>
    split at h
    · next hlt => exact Option.some.inj h ▸ .fuzz hframe hlt
    · next hge => exact Option.some.inj h ▸ .stop hframe (Nat.le_of_not_lt hge)
  · next executed job hframe =>
    obtain ⟨sem, hp, rfl⟩ := Option.map_eq_some_iff.mp h
    obtain ⟨hsem, rfl⟩ := hsysv.p hp
    exact .pStore hframe hsem
  · next executed job hframe =>
    obtain ⟨sem, hv, rfl⟩ := Option.map_eq_some_iff.mp h
    obtain rfl := hsysv.v hv
    exact .vStore hframe
  · next executed job code _ hframe =>
    obtain ⟨r, hr, rfl⟩ := Option.map_eq_some_iff.mp h
    exact .store hframe hr
  · exact nomatch h
  · exact nomatch h

@[simp]
theorem enter_frame_self (s : System ι) (w : ι) (frame : Frame) :
    (s.enter w frame).frame w = frame :=
  Function.update_self ..

theorem enter_frame_of_ne (s : System ι) {v w : ι} (frame : Frame) (h : v ≠ w) :
    (s.enter w frame).frame v = s.frame v :=
  Function.update_of_ne h ..

/-- A step of one worker leaves the places of the others alone. -/
theorem Steps.others (h : Steps worker w s s') {v : ι} (hv : v ≠ w) : s'.frame v = s.frame v := by
  cases h <;> exact enter_frame_of_ne _ _ hv

/-- A call that writes a coverage map, or reads, does not touch the log. -/
def KeepsLog : Call → Prop
  | .appendLog _ => False
  | _ => True

theorem covLog_of_perform {c : Call} (hc : KeepsLog c) {a : c.Result} {files files' : Files}
    (h : perform c files = some (.ok (a, files'))) : files'.covLog = files.covLog := by
  cases c with
  | appendLog line => exact absurd hc id
  | write dir name contents =>
    obtain ⟨-, rfl⟩ := Prod.mk.inj (Except.ok.inj (Option.some.inj h))
    rfl
  | isfile dir name =>
    obtain ⟨-, rfl⟩ := Prod.mk.inj (Except.ok.inj (Option.some.inj h))
    rfl
  | getsize dir name =>
    simp only [perform] at h
    split at h
    · cases h
    · obtain ⟨-, rfl⟩ := Prod.mk.inj (Except.ok.inj (Option.some.inj h))
      rfl
  | readline dir name =>
    simp only [perform] at h
    split at h
    · cases h
    · obtain ⟨-, rfl⟩ := Prod.mk.inj (Except.ok.inj (Option.some.inj h))
      rfl

/-- A program that makes no other calls leaves the log as it is. -/
theorem covLog_of_alone {α : Type} {code : Program α} (hcode : code.CallsIn KeepsLog)
    {files files' : Files} {a : α} (h : code.alone perform files = some (.ok (a, files'))) :
    files'.covLog = files.covLog := by
  induction code generalizing files with
  | ret b =>
    obtain ⟨-, rfl⟩ := Prod.mk.inj (Except.ok.inj (Option.some.inj h))
    rfl
  | raise e => exact nomatch h
  | call c next ih =>
    obtain ⟨answer, files₁, hanswer, hrest⟩ := (Code.alone_bind_eq_ok (x := Code.ask c)).mp h
    have hfirst := covLog_of_perform hcode.1 (Code.alone_ask_eq_ok.mp hanswer)
    exact (ih answer (hcode.2 answer) hrest).trans hfirst

theorem callsIn_foldlM {δ β : Type} {P : Call → Prop} {f : β → δ → Program β} {l : List δ}
    (h : ∀ acc i, (f acc i).CallsIn P) (acc : β) : (l.foldlM f acc).CallsIn P := by
  induction l generalizing acc with
  | nil => trivial
  | cons i l ih =>
    rw [List.foldlM_cons]
    exact (h acc i).bind ih

theorem callsIn_storeFile (procNum cov_sum : ℕ) (cov_file : Text) :
    (storeFile procNum cov_sum cov_file).CallsIn KeepsLog := by
  refine ⟨trivial, fun size ↦ ?_⟩
  have hcommon : (readCommon cov_file size).CallsIn KeepsLog := by
    refine ⟨trivial, fun known ↦ ?_⟩
    cases known with
    | true => exact ⟨trivial, fun line ↦ Code.callsIn_ofExcept _ _⟩
    | false => trivial
  refine hcommon.bind fun cov_map ↦ ⟨trivial, fun line ↦ ?_⟩
  exact (Code.callsIn_ofExcept _ _).bind fun cov_map ↦ ⟨trivial, fun _ ↦ trivial⟩

/-- A call of `store_covmap` appends one line, with the iteration it was given. -/
theorem storeCovmap_appends {job : Job} {files files' : Files}
    (h : (storeCovmap job).alone perform files = some (.ok ((), files'))) :
    ∃ cov_sum, files'.covLog = files.covLog ++ logLine job cov_sum := by
  obtain ⟨cov_sum, files₁, hloop, hlast⟩ := Code.alone_bind_eq_ok.mp h
  have hkept := covLog_of_alone (callsIn_foldlM (callsIn_storeFile job.procNum) 0) hloop
  have happend := Code.alone_ask_eq_ok.mp hlast
  obtain ⟨-, rfl⟩ := Prod.mk.inj (Except.ok.inj (Option.some.inj happend))
  exact ⟨cov_sum, by rw [← hkept]⟩

/-- The frames in which a worker holds the semaphore. -/
def Frame.Holds : Frame → Prop
  | reading => True
  | read _ => True
  | storing _ _ _ => True
  | _ => False

def Outside (w : ι) (s : System ι) : Prop := ¬(s.frame w).Holds

/-- Nobody holds the semaphore, and the log has one line for each completed call. -/
def Free (contents : Text) (s : System ι) : Prop :=
  s.sem = 1 ∧ Appended contents s.stored s.files.covLog

/-- The worker reads the log that the completed calls left, or it is in the midst of a call that
began with it. -/
def Inside (contents : Text) (w : ι) (s : System ι) : Prop :=
  s.sem = 0 ∧ ((¬∃ executed job code, s.frame w = .storing executed job code) ∧
      (s.frame w).Holds ∧ Appended contents s.stored s.files.covLog ∨
    ∃ executed job code files, s.frame w = .storing executed job code ∧
      Appended contents s.stored files.covLog ∧
      code.alone perform s.files = (storeCovmap job).alone perform files)

theorem Appended.concat {contents covLog : Text} {stores : List Store}
    (h : Appended contents stores covLog) (store : Store) (cov_sum : ℕ) :
    Appended contents (stores ++ [store]) (covLog ++ logLine store.job cov_sum) := by
  obtain ⟨sums, hlength, rfl⟩ := h
  refine ⟨sums ++ [cov_sum], by rw [List.length_append, List.length_append, hlength]; rfl, ?_⟩
  rw [List.zipWith_append hlength.symm, List.flatten_append, List.append_assoc]
  simp

omit [DecidableEq ι] in
theorem Inside.holds {contents : Text} (h : Inside contents w s) : (s.frame w).Holds := by
  rcases h.2 with ⟨-, hholds, -⟩ | ⟨executed, job, code, files, hframe, -⟩
  · exact hholds
  · rw [hframe]
    trivial

/-- What another worker does outside leaves the one inside where it is. -/
theorem Inside.enter {contents : Text} {v : ι} (h : Inside contents v s) (hv : v ≠ w)
    (frame : Frame) : Inside contents v (s.enter w frame) := by
  rw [Inside, enter_frame_of_ne s frame hv]
  exact h

/-- A step from outside to outside. -/
theorem guarded_enter {contents : Text} {frame : Frame}
    (h : Guarded (Free contents) Outside (Inside contents) s) (hframe : Outside w s)
    (hframe' : ¬frame.Holds) :
    Guarded (Free contents) Outside (Inside contents) (s.enter w frame) := by
  have hout : Outside w (s.enter w frame) := by
    rw [Outside, enter_frame_self]
    exact hframe'
  apply Guarded.step h
  · intro v hv houtside
    rw [Outside, enter_frame_of_ne s frame hv]
    exact houtside
  · exact fun hfree _ ↦ .inl ⟨hfree, hout⟩
  · exact fun hinside ↦ absurd hinside.holds hframe
  · exact fun v hv hinside _ ↦ ⟨hinside.enter hv frame, hout⟩

/-- A `P`: the worker comes inside with the log as it is. -/
theorem guarded_p {contents : Text} {frame : Frame}
    (h : Guarded (Free contents) Outside (Inside contents) s) (hsem : s.sem ≠ 0)
    (hinside : ∀ s₁ : System ι, s₁.sem = 0 → s₁.frame w = frame →
      Appended contents s₁.stored s₁.files.covLog → Inside contents w s₁) :
    Guarded (Free contents) Outside (Inside contents)
      ({ s with sem := s.sem - 1 }.enter w frame) := by
  apply Guarded.step h
  · intro v hv houtside
    rw [Outside, enter_frame_of_ne _ frame hv]
    exact houtside
  · rintro ⟨hone, happended⟩ -
    right
    apply hinside
    · show s.sem - 1 = 0
      rw [hone]
    · exact enter_frame_self _ w frame
    · exact happended
  · exact fun hinside ↦ absurd hinside.1 hsem
  · exact fun v hv hinside ↦ absurd hinside.1 hsem

omit [DecidableEq ι] in
/-- A step of the worker inside. -/
theorem guarded_inside {contents : Text}
    (h : Guarded (Free contents) Outside (Inside contents) s) (hframe : (s.frame w).Holds)
    (hothers : ∀ v, v ≠ w → s'.frame v = s.frame v)
    (hinside : Inside contents w s →
      Inside contents w s' ∨ Free contents s' ∧ Outside w s') :
    Guarded (Free contents) Outside (Inside contents) s' := by
  apply Guarded.step h
  · intro v hv houtside
    rw [Outside, hothers v hv]
    exact houtside
  · exact fun _ houtside ↦ absurd hframe houtside
  · exact hinside
  · exact fun v hv _ houtside ↦ absurd hframe houtside

/-- The semaphore guards the log. -/
theorem Steps.guarded {contents : Text}
    (h : Guarded (Free contents) Outside (Inside contents) s) (hsteps : Steps worker w s s') :
    Guarded (Free contents) Outside (Inside contents) s' := by
  have hothers : ∀ v, v ≠ w → s'.frame v = s.frame v := fun v ↦ hsteps.others
  -- the frames outside are told apart from the others by computation
  have hout {frame : Frame} (hframe : s.frame w = frame) (hnot : ¬frame.Holds) : Outside w s := by
    rw [Outside, hframe]
    exact hnot
  cases hsteps with
  | pRead hframe hsem =>
    apply guarded_p h hsem
    intro s₁ hzero hreading happended
    refine ⟨hzero, .inl ⟨?_, ?_, happended⟩⟩
    · rintro ⟨executed, job, code, hstoring⟩
      exact nomatch hreading.symm.trans hstoring
    · rw [hreading]
      trivial
  | read hframe =>
    apply guarded_inside h (by rw [hframe]; trivial) hothers
    rintro ⟨hzero, ⟨-, -, happended⟩ | ⟨executed, job, code, files, hstoring, -⟩⟩
    · refine .inl ⟨hzero, .inl ⟨?_, ?_, happended⟩⟩
      · rintro ⟨executed, job, code, hstoring⟩
        rw [enter_frame_self] at hstoring
        exact nomatch hstoring
      · rw [enter_frame_self]
        trivial
    · exact nomatch hframe.symm.trans hstoring
  | vRead hframe =>
    apply guarded_inside h (by rw [hframe]; trivial) hothers
    rintro ⟨hzero, ⟨-, -, happended⟩ | ⟨executed, job, code, files, hstoring, -⟩⟩
    · refine .inr ⟨⟨?_, happended⟩, ?_⟩
      · show s.sem + 1 = 1
        rw [hzero]
      · rw [Outside, enter_frame_self]
        exact id
    · exact nomatch hframe.symm.trans hstoring
  | begin hframe _ => exact guarded_enter h (hout hframe id) id
  | fail hframe => exact guarded_enter h (hout hframe id) id
  | fuzz hframe _ => exact guarded_enter h (hout hframe id) id
  | stop hframe _ => exact guarded_enter h (hout hframe id) id
  | pStore hframe hsem =>
    apply guarded_p h hsem
    intro s₁ hzero hstoring happended
    exact ⟨hzero, .inr ⟨_, _, _, s₁.files, hstoring, happended, rfl⟩⟩
  | store hframe hadvance =>
    apply guarded_inside h (by rw [hframe]; trivial) hothers
    rintro ⟨hzero, ⟨hnot, -, -⟩ | ⟨executed, job, code, files, hstoring, happended, hcode⟩⟩
    · exact absurd ⟨_, _, _, hframe⟩ hnot
    · obtain ⟨rfl, rfl, rfl⟩ := Frame.storing.inj (hframe.symm.trans hstoring)
      refine .inl ⟨hzero, .inr ⟨_, _, _, files, enter_frame_self _ w _, happended, ?_⟩⟩
      rw [← hcode]
      exact CriticalSection.alone_of_advance hadvance
  | vStore hframe =>
    apply guarded_inside h (by rw [hframe]; trivial) hothers
    rintro ⟨hzero, ⟨hnot, -, -⟩ | ⟨executed, job, code, files, hstoring, happended, hcode⟩⟩
    · exact absurd ⟨_, _, _, hframe⟩ hnot
    · obtain ⟨rfl, rfl, rfl⟩ := Frame.storing.inj (hframe.symm.trans hstoring)
      obtain ⟨cov_sum, hlog⟩ := storeCovmap_appends hcode.symm
      refine .inr ⟨⟨?_, ?_⟩, ?_⟩
      · show s.sem + 1 = 1
        rw [hzero]
      · show Appended contents (s.stored ++ [_]) s.files.covLog
        rw [hlog]
        exact happended.concat ⟨_, _⟩ cov_sum
      · rw [Outside, enter_frame_self]
        exact id

/-- What a worker has read while no call was completed is the initial line. -/
def Early (tuple : List Text) (numIter : ℕ) : Frame → Prop
  | .read outcome => outcome = .ok tuple
  | .released t => t = tuple
  | .fuzzing startIter executed => startIter = 1 ∧ executed ≤ numIter
  | .waiting executed job => job.iter = executed + 1
  | .storing executed job _ => job.iter = executed + 1
  | _ => True

/-- As long as nothing is stored every worker begins at the initial line; the first completed call
was made by such a worker. -/
structure FirstCall (worker : ι → Worker) (tuple : List Text) (s : System ι) : Prop where
  early : s.stored = [] → ∀ w, Early tuple (worker w).numIter (s.frame w)
  first : ∀ store rest, s.stored = store :: rest → store.job.iter = store.executed + 1

/-- A step that stores nothing and keeps the worker early. -/
theorem FirstCall.enter {tuple : List Text} {files : Files} {sem : ℕ} {frame : Frame}
    (h : FirstCall worker tuple s)
    (hearly : s.stored = [] → Early tuple (worker w).numIter (s.frame w) →
      Early tuple (worker w).numIter frame) :
    FirstCall worker tuple ({ s with files, sem }.enter w frame) := by
  refine ⟨fun hnil v ↦ ?_, h.first⟩
  by_cases hv : v = w
  · subst hv
    rw [enter_frame_self]
    exact hearly hnil (h.early hnil v)
  · rw [enter_frame_of_ne _ frame hv]
    exact h.early hnil v

theorem Steps.firstCall {contents : Text} {tuple : List Text}
    (hguarded : Guarded (Free contents) Outside (Inside contents) s)
    (hcontents : lastTuple contents = .ok tuple) (hstarts : starts tuple = .ok (0, 0))
    (h : FirstCall worker tuple s) (hsteps : Steps worker w s s') :
    FirstCall worker tuple s' := by
  cases hsteps with
  | pRead hframe _ => exact h.enter fun _ _ ↦ trivial
  | read hframe =>
    -- whoever reads is inside, so the log is the initial one
    apply h.enter
    intro hnil _
    have hholds : ¬Outside w s := fun hout ↦ hout (by rw [hframe]; trivial)
    have happended : Appended contents s.stored s.files.covLog := by
      rcases hguarded with ⟨-, houtside⟩ | ⟨v, hinside, houtside⟩
      · exact absurd (houtside w) hholds
      · have hvw : w = v := by
          by_contra hne
          exact hholds (houtside w hne)
        subst hvw
        rcases hinside.2 with ⟨-, -, happended⟩ | ⟨_, _, _, _, hstoring, -⟩
        · exact happended
        · exact nomatch hframe.symm.trans hstoring
    obtain ⟨sums, -, hlog⟩ := happended
    rw [hnil, List.zipWith_nil_left, List.flatten_nil, List.append_nil] at hlog
    show lastTuple s.files.covLog = .ok tuple
    rw [hlog, hcontents]
  | vRead hframe =>
    apply h.enter
    intro _ hearly
    rw [hframe] at hearly
    exact Except.ok.inj hearly
  | begin hframe hread =>
    apply h.enter
    intro _ hearly
    rw [hframe] at hearly
    rw [show _ = tuple from hearly, hstarts] at hread
    obtain ⟨rfl, -⟩ := Prod.mk.inj (Except.ok.inj hread)
    exact ⟨rfl, Nat.zero_le _⟩
  | fail hframe => exact h.enter fun _ _ ↦ trivial
  | fuzz hframe hlt =>
    apply h.enter
    intro _ hearly
    rw [hframe] at hearly
    exact ⟨hearly.1, hlt⟩
  | stop hframe hge =>
    apply h.enter
    intro _ hearly
    rw [hframe] at hearly
    obtain ⟨rfl, hle⟩ := hearly
    show ((1 : ℤ) + (worker w).numIter).toNat = _ + 1
    omega
  | pStore hframe _ =>
    apply h.enter
    intro _ hearly
    rw [hframe] at hearly
    exact hearly
  | store hframe _ =>
    apply h.enter
    intro _ hearly
    rw [hframe] at hearly
    exact hearly
  | vStore hframe =>
    refine ⟨fun hnil ↦ absurd hnil (by simp [System.enter]), fun store rest hstored ↦ ?_⟩
    have hstored : s.stored ++ [_] = store :: rest := hstored
    cases hcase : s.stored with
    | nil =>
      rw [hcase] at hstored
      obtain ⟨rfl, -⟩ := List.cons.inj hstored
      have hearly := h.early hcase w
      rw [hframe] at hearly
      exact hearly
    | cons first before =>
      rw [hcase] at hstored
      obtain ⟨rfl, -⟩ := List.cons.inj hstored
      exact h.first _ _ hcase

/-- What holds after any schedule: the log has a line for each completed call, and the first of them
began at the initial line. -/
theorem run_inv {sysv : Sysv} (hsysv : sysv.Documented) {files : Files} {tuple : List Text}
    (hcontents : lastTuple files.covLog = .ok tuple) (hstarts : starts tuple = .ok (0, 0))
    (worker : ι → Worker) (schedule : List ι) :
    Guarded (Free files.covLog) Outside (Inside files.covLog)
        (run sysv worker schedule (start files)) ∧
      FirstCall worker tuple (run sysv worker schedule (start files)) := by
  induction schedule using List.reverseRecOn with
  | nil =>
    refine ⟨.inl ⟨⟨rfl, [], rfl, ?_⟩, fun w ↦ id⟩, fun _ w ↦ trivial, fun _ _ h ↦ nomatch h⟩
    rw [List.zipWith_nil_right, List.flatten_nil, List.append_nil]
    rfl
  | append_singleton schedule w ih =>
    rw [run, List.foldl_append]
    show Guarded _ _ _ ((step sysv worker w (run sysv worker schedule (start files))).getD _) ∧
      FirstCall worker tuple ((step sysv worker w (run sysv worker schedule (start files))).getD _)
    cases hstep : step sysv worker w (run sysv worker schedule (start files)) with
    | none => exact ih
    | some s' =>
      have hsteps := steps_of_step hsysv hstep
      exact ⟨hsteps.guarded ih.1, hsteps.firstCall ih.1 hcontents hstarts ih.2⟩

/-- Two workers without coverage maps, of three and four iterations. -/
def twoWorkers (w : Bool) : Worker where
  procNum := w.toNat
  numIter := if w then 4 else 3
  covmaps := []
  elapsedTime := "1.5".toList

/-- A log with the initial line only. -/
def freshFiles : Files where
  file _ _ := none
  covLog := zeroLog []

/-- Both workers read the initial line before one of them stores: the log says 4 and 5 for 3 and 7
iterations. -/
def bothRead : List Bool :=
  [true, true, true, false, false, false] ++ List.replicate 20 false ++ List.replicate 20 true

/-- A `P` at 0 blocks. -/
def linux : Sysv where
  p n := if n = 0 then none else some (n - 1)
  v n := some (n + 1)

theorem documented_linux : linux.Documented where
  p {n m} h := by
    by_cases hn : n = 0
    · simp [linux, hn] at h
    · exact ⟨hn, by simpa [linux, hn, eq_comm] using h⟩
  v h := (Option.some.inj h).symm

/-- From the initial line on, the logged iterations are exact only until a worker stores: the first
line that is appended counts one iteration too many. While nobody holds the semaphore, the log
consists of the lines of the completed calls. -/
theorem exact_iff_nothing_stored {sysv : Sysv} (hsysv : sysv.Documented) {files : Files}
    {lines : List Text} (hlines : ∀ line ∈ lines, Text.IsLineText line)
    (hlog : files.covLog = zeroLog lines) (worker : ι → Worker) (schedule : List ι) :
    (Exact (run sysv worker schedule (start files)) ↔
      (run sysv worker schedule (start files)).stored = []) ∧
    ((run sysv worker schedule (start files)).sem ≠ 0 →
      Appended files.covLog (run sysv worker schedule (start files)).stored
        (run sysv worker schedule (start files)).files.covLog) := by
  have hcontents := lastTuple_zeroLog hlines
  rw [← hlog] at hcontents
  obtain ⟨hguarded, hfirst⟩ := run_inv hsysv hcontents starts_zeroLine worker schedule
  refine ⟨⟨fun hexact ↦ ?_, fun hnil before store after hsplit ↦ ?_⟩, fun hsem ↦ ?_⟩
  · cases hcase : (run sysv worker schedule (start files)).stored with
    | nil => rfl
    | cons store rest =>
      have hcolumn : store.job.iter = executedBy [store] := hexact [] store rest hcase
      have hone := hfirst.first store rest hcase
      rw [executedBy, List.map_singleton, List.sum_singleton] at hcolumn
      omega
  · rw [hnil] at hsplit
    exact absurd hsplit (by simp)
  · rcases hguarded with ⟨hfree, -⟩ | ⟨w, hinside, -⟩
    · exact hfree.2
    · exact absurd hinside.1 hsem

theorem exact_iff_nothing_stored_bothRead :
    (Exact (run linux twoWorkers bothRead (start freshFiles)) ↔
      (run linux twoWorkers bothRead (start freshFiles)).stored = []) ∧
    (run linux twoWorkers bothRead (start freshFiles)).stored.map Store.executed = [3, 4] ∧
    Appended freshFiles.covLog (run linux twoWorkers bothRead (start freshFiles)).stored
      (run linux twoWorkers bothRead (start freshFiles)).files.covLog := by
  obtain ⟨hexact, happended⟩ := exact_iff_nothing_stored documented_linux
    (fun line (h : line ∈ ([] : List Text)) ↦ absurd h List.not_mem_nil)
    (rfl : freshFiles.covLog = zeroLog []) twoWorkers bothRead
  exact ⟨hexact, by decide +kernel, happended (by decide +kernel)⟩

theorem not_exact_bothRead :
    (run linux twoWorkers bothRead (start freshFiles)).stored.map (fun store ↦ store.job.iter) =
        [4, 5] ∧
      (run linux twoWorkers bothRead (start freshFiles)).stored.map Store.executed = [3, 4] ∧
      ¬Exact (run linux twoWorkers bothRead (start freshFiles)) := by
  have hiter : (run linux twoWorkers bothRead (start freshFiles)).stored.map
      (fun store ↦ store.job.iter) = [4, 5] := by decide +kernel
  have hexecuted : (run linux twoWorkers bothRead (start freshFiles)).stored.map Store.executed =
      [3, 4] := by decide +kernel
  refine ⟨hiter, hexecuted, fun hexact ↦ ?_⟩
  cases hstored : (run linux twoWorkers bothRead (start freshFiles)).stored with
  | nil =>
    rw [hstored] at hiter
    exact nomatch hiter
  | cons store rest =>
    have hcolumn := hexact [] store rest hstored
    rw [hstored] at hiter hexecuted
    have hfour : store.job.iter = 4 := (List.cons.inj hiter).1
    have hthree : store.executed = 3 := (List.cons.inj hexecuted).1
    rw [List.nil_append, executedBy, List.map_singleton, List.sum_singleton, hthree] at hcolumn
    omega

end ProcessorFuzz.Execution.CovLog
