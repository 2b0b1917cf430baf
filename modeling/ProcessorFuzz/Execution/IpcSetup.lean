import Mathlib.Algebra.Group.Nat.Defs
import Mathlib.Data.List.Infix
import Mathlib.Data.List.TakeWhile
import ProcessorFuzz.Library.Resources

/-!
# The shared objects of the process manager

The constructor of `procManager` creates three shared memories and four semaphores with the keys
that follow a random number. When one of the keys is taken, the attempt is cleaned up and another
number is drawn. `remove` is called when the manager is no longer needed.

The System V objects are those of the operating system: an object is found by its key unless the
key is private, and its identity is not given to another object. How a number becomes a key, and
whether an object can be removed a second time, is up to `sysv_ipc`. A shared memory lingers there
for as long as it is attached, a semaphore does not.
-/

namespace ProcessorFuzz.Execution.IpcSetup

open Library.Resources Library.Resources.Store

inductive Kind
  | sharedMemory
  | semaphore
  deriving DecidableEq, Repr

/-- The handles of the manager. -/
inductive Name
  | mNumShm
  | cNumShm
  | mNumSem
  | cNumSem
  | covMapSem
  | procStates
  | stateSem
  deriving DecidableEq, Repr

namespace Name

def kind : Name → Kind
  | mNumShm | cNumShm | procStates => .sharedMemory
  | mNumSem | cNumSem | covMapSem | stateSem => .semaphore

/-- What is added to the random number. -/
def offset : Name → ℕ
  | mNumShm => 1
  | cNumShm => 0
  | mNumSem => 3
  | cNumSem => 2
  | covMapSem => 4
  | procStates => 5
  | stateSem => 6

end Name

open Name

/-- The names in the order in which their objects are created. -/
def names : List Name :=
  [mNumShm, cNumShm, mNumSem, cNumSem, covMapSem, procStates, stateSem]

/-- The names of the exception handler. -/
def cleaned : List Name := [cNumShm, mNumShm, cNumSem, mNumSem, covMapSem]

/-- The names of `remove`. -/
def removed : List Name := [mNumShm, cNumShm, mNumSem, cNumSem, covMapSem, procStates]

section

variable {κ : Type}

abbrev Manager (κ : Type) := Store Name (Kind × κ)

/-- No handle has been set. -/
def start (objects : List (Object (Kind × κ))) (nextId : ℕ) : Manager κ where
  objects := objects
  nextId := nextId
  handle _ := none

/-- What `sysv_ipc` makes of a number, and the kinds whose objects linger after their removal. -/
structure Ipc (κ : Type) where
  key : ℕ → Option κ
  lingers : Kind → Bool

namespace Ipc

variable (ipc : Ipc κ)

/-- Numbers that are close have different keys, unless these are private. -/
def KeysApart : Prop :=
  ∀ m n, m ≠ n → m ≤ n + 6 → n ≤ m + 6 → ipc.key m = ipc.key n → ipc.key m = none

def nameKey (number : ℕ) (name : Name) : Option (Kind × κ) :=
  (ipc.key (number + name.offset)).map (name.kind, ·)

/-- `delete_ipc` of one handle after another. -/
def deleteIpc : List Name → Manager κ → Option (Manager κ) := releaseAll (ipc.lingers ·.kind)

/-- `remove` has no test whether a handle is set. -/
def remove (s : Manager κ) : Option (Manager κ) :=
  removed.foldlM (fun s name ↦ (s.handle name).bind fun _ ↦ s.release (ipc.lingers ·.kind) name) s

variable [DecidableEq κ]

inductive Outcome (κ : Type)
  | created (t : Manager κ)
  | cleaned (u : Manager κ)
  | raised

/-- One round of the loop. -/
def attempt (number : ℕ) (s : Manager κ) : Outcome κ :=
  match createAll (ipc.nameKey number) names s with
  | (true, t) => .created t
  | (false, t) =>
    match ipc.deleteIpc cleaned t with
    | some u => .cleaned u
    | none => .raised

/-- A round of the loop: the number, the state before, and what the round has done. -/
structure Round (κ : Type) where
  number : ℕ
  before : Manager κ
  outcome : Outcome κ

/-- The rounds of the loop when the numbers are drawn. -/
def rounds : List ℕ → Manager κ → List (Round κ)
  | [], _ => []
  | number :: numbers, s =>
    ⟨number, s, ipc.attempt number s⟩ ::
      match ipc.attempt number s with
      | .cleaned u => rounds numbers u
      | _ => []

/-- The key of the name is private or not taken. -/
def isFree (objects : List (Object (Kind × κ))) (number : ℕ) (name : Name) : Bool :=
  decide ¬Taken objects (ipc.nameKey number name)

/-- A round ends the loop if and only if all keys are free, and `remove` then leaves none of the
seven objects. Any other round leaves the objects as they were. -/
def Round.Proper (round : Round κ) : Prop :=
  match round.outcome with
  | .created t =>
    (∀ name ∈ names, ipc.isFree round.before.objects round.number name) ∧
      ∃ u, ipc.remove t = some u ∧ ∀ name ∈ names, ∀ id, t.handle name = some id → id ∉ u.ids
  | .cleaned u =>
    (¬∀ name ∈ names, ipc.isFree round.before.objects round.number name) ∧
      u.objects = round.before.objects
  | .raised => False

def AllOrNothing (numbers : List ℕ) (s : Manager κ) : Prop :=
  ∀ round ∈ ipc.rounds numbers s, round.Proper ipc

/-- The names of a round that get an object. -/
def made (objects : List (Object (Kind × κ))) (number : ℕ) : List Name :=
  names.takeWhile (ipc.isFree objects number)

/-- No round gets as far as `proc_states`, and whenever one does not get as far as an earlier one,
the objects between are of a kind that lingers. -/
def Harmless (objects : List (Object (Kind × κ))) : List Name → List ℕ → Prop
  | _, [] => True
  | earlier, number :: numbers =>
    (procStates ∉ ipc.made objects number ∧
      ∀ name ∈ cleaned, name ∉ ipc.made objects number → name ∈ earlier →
        ipc.lingers name.kind) ∧
      Harmless objects (earlier ++ ipc.made objects number) numbers

end Ipc

variable [DecidableEq κ] {ipc : Ipc κ} {number : ℕ} {s t u : Manager κ}

omit [DecidableEq κ] in
theorem keysDiffer (h : ipc.KeysApart) (number : ℕ) : KeysDiffer (ipc.nameKey number) names := by
  have hoffsets : names.Pairwise fun name name' ↦ name.offset ≠ name'.offset := by decide
  have hle : ∀ name : Name, name.offset ≤ 6 := by
    intro name
    cases name <;> decide
  refine hoffsets.imp fun {name name'} hne heq ↦ ?_
  rw [Ipc.nameKey, Ipc.nameKey] at heq
  rw [Ipc.nameKey]
  cases hkey : ipc.key (number + name.offset) with
  | none => rfl
  | some k =>
    rw [hkey] at heq
    obtain ⟨k', hkey', hpair⟩ := Option.map_eq_some_iff.mp heq.symm
    obtain rfl : k' = k := congrArg Prod.snd hpair
    have hname := hle name
    have hname' := hle name'
    have hnone := h _ _ (by omega) (by omega) (by omega) (hkey.trans hkey'.symm)
    exact congrArg (Option.map _) (hkey.symm.trans hnone)

theorem createAll_names (h : ipc.KeysApart) (number : ℕ) (s : Manager κ) :
    createAll (ipc.nameKey number) names s =
      (names.all (ipc.isFree s.objects number),
        (ipc.made s.objects number).foldl (create (ipc.nameKey number)) s) :=
  createAll_eq (keysDiffer h number) _ fun _ _ ↦ decide_eq_true_iff

theorem made_nodup (ipc : Ipc κ) (objects : List (Object (Kind × κ))) (number : ℕ) :
    (ipc.made objects number).Nodup := by
  have hnodup : names.Nodup := by decide
  exact hnodup.sublist (List.takeWhile_sublist _)

/-- The exception handler covers all names before `proc_states`. -/
theorem forall_made_iff (ipc : Ipc κ) (objects : List (Object (Kind × κ))) (number : ℕ) :
    (∀ name ∈ ipc.made objects number, name ∈ cleaned) ↔ procStates ∉ ipc.made objects number := by
  have hinits : ∀ made ∈ names.inits, (∀ name ∈ made, name ∈ cleaned) ↔ procStates ∉ made := by
    decide
  exact hinits _ ((List.mem_inits _ _).mpr (List.takeWhile_prefix _))

omit [DecidableEq κ] in
theorem deleteIpc_of_remove (hu : ipc.remove s = some u) : ipc.deleteIpc removed s = some u := by
  unfold Ipc.remove at hu
  unfold Ipc.deleteIpc releaseAll
  generalize removed = removed at hu ⊢
  induction removed generalizing s with
  | nil => exact hu
  | cons name removed ih =>
    rw [List.foldlM_cons] at hu ⊢
    obtain ⟨s', hs', hu⟩ := Option.bind_eq_some_iff.mp hu
    obtain ⟨id, -, hs'⟩ := Option.bind_eq_some_iff.mp hs'
    exact Option.bind_eq_some_iff.mpr ⟨s', hs', ih hu⟩

omit [DecidableEq κ] in
/-- The semaphore of the states is still there when `remove` returns. -/
theorem mem_ids_of_remove (hvalid : s.Valid) {o : Object (Kind × κ)} (ho : o ∈ s.objects)
    (hid : s.handle stateSem = some o.id) (hu : ipc.remove s = some u) : o.id ∈ u.ids := by
  have hnodup : removed.Nodup := by decide
  have hnot : stateSem ∉ removed := by decide
  exact List.mem_map_of_mem
    (mem_objects_of_releaseAll hvalid hnodup (deleteIpc_of_remove hu) hnot ho hid)

/-- A round that creates all objects is not proper: `remove` leaves one of them. -/
theorem not_proper_created (hvalid : s.Valid)
    (ht : t = names.foldl (create (ipc.nameKey number)) s) :
    ¬Ipc.Round.Proper ipc ⟨number, s, .created t⟩ := by
  rintro ⟨-, u, hu, hleft⟩
  have hnodup : names.Nodup := by decide
  have hmem : stateSem ∈ names := by decide
  have htvalid := hvalid.foldl_create (ipc.nameKey number) names
  obtain ⟨fresh, hcreated⟩ := exists_created (ipc.nameKey number) names s hnodup
  rw [← ht] at htvalid hcreated
  obtain ⟨o, ho, hid⟩ := hcreated.new stateSem hmem
  have hobject : o ∈ t.objects := by
    rw [hcreated.objects]
    exact List.mem_append_right _ ho
  exact hleft stateSem hmem o.id hid (mem_ids_of_remove htvalid hobject hid hu)

/-- The condition on one round. -/
def HarmlessRound (ipc : Ipc κ) (number : ℕ) (s : Manager κ) : Prop :=
  procStates ∉ ipc.made s.objects number ∧
    ∀ name ∈ cleaned, name ∉ ipc.made s.objects number → s.handle name ≠ none →
      ipc.lingers name.kind

theorem made_of_all (h : names.all (ipc.isFree s.objects number) = true) :
    ipc.made s.objects number = names :=
  List.takeWhile_eq_self_iff.mpr (List.all_eq_true.mp h)

/-- A failed attempt is cleaned up as it should be if and only if the round is harmless. -/
theorem cleaned_iff (hvalid : s.Valid) (hstale : s.Stale) :
    (∃ u, ipc.deleteIpc cleaned
        ((ipc.made s.objects number).foldl (create (ipc.nameKey number)) s) = some u ∧
      u.objects = s.objects) ↔ HarmlessRound ipc number s := by
  have hnodup : cleaned.Nodup := by decide
  rw [HarmlessRound, ← forall_made_iff]
  exact releaseAll_restores_iff hvalid hstale (made_nodup ipc s.objects number) hnodup

theorem proper_attempt_iff (h : ipc.KeysApart) (hvalid : s.Valid) (hstale : s.Stale) :
    Ipc.Round.Proper ipc ⟨number, s, ipc.attempt number s⟩ ↔ HarmlessRound ipc number s := by
  rw [Ipc.attempt, createAll_names h number s]
  cases hall : names.all (ipc.isFree s.objects number) with
  | true =>
    have hmade := made_of_all hall
    constructor
    · exact fun hproper ↦ absurd hproper (not_proper_created hvalid (by rw [hmade]))
    · intro hharmless
      have hmem : procStates ∈ names := by decide
      exact absurd (hmade ▸ hmem) hharmless.1
  | false =>
    have hnot : ¬∀ name ∈ names, ipc.isFree s.objects number name := by
      rw [← List.all_eq_true, hall]
      exact Bool.false_ne_true
    rw [← cleaned_iff hvalid hstale]
    dsimp only
    cases ipc.deleteIpc cleaned _ with
    | none => simp [Ipc.Round.Proper]
    | some u => simp [Ipc.Round.Proper, hnot]

/-- After a harmless round the loop goes on with the objects it found. -/
theorem exists_cleaned (h : ipc.KeysApart) (hvalid : s.Valid) (hstale : s.Stale)
    (hharmless : HarmlessRound ipc number s) :
    ∃ u, ipc.attempt number s = .cleaned u ∧ u.objects = s.objects ∧ u.Valid ∧ u.Stale ∧
      ∀ name, u.handle name ≠ none ↔ s.handle name ≠ none ∨ name ∈ ipc.made s.objects number := by
  obtain ⟨u, hu, hobjects⟩ := (cleaned_iff hvalid hstale).mpr hharmless
  have hnodup : cleaned.Nodup := by decide
  obtain ⟨huvalid, hustale, hhandle⟩ :=
    restored_of_releaseAll hvalid hstale (made_nodup ipc s.objects number) hnodup hu hobjects
  refine ⟨u, ?_, hobjects, huvalid, hustale, hhandle⟩
  rw [Ipc.attempt, createAll_names h number s]
  cases hall : names.all (ipc.isFree s.objects number) with
  | true =>
    have hmem : procStates ∈ names := by decide
    exact absurd (made_of_all hall ▸ hmem) hharmless.1
  | false =>
    dsimp only
    rw [hu]

theorem allOrNothing_cons (numbers : List ℕ) :
    ipc.AllOrNothing (number :: numbers) s ↔
      Ipc.Round.Proper ipc ⟨number, s, ipc.attempt number s⟩ ∧
        ∀ u, ipc.attempt number s = .cleaned u → ipc.AllOrNothing numbers u := by
  unfold Ipc.AllOrNothing
  rw [Ipc.rounds, List.forall_mem_cons]
  cases ipc.attempt number s <;> simp

/-- In the state before a round no handle refers to an object, and the handles that are set are
those of the names that got an object in an earlier round. -/
structure Between (objects : List (Object (Kind × κ))) (earlier : List Name) (s : Manager κ) :
    Prop where
  objects : s.objects = objects
  valid : s.Valid
  stale : s.Stale
  handle : ∀ name, s.handle name ≠ none ↔ name ∈ earlier

omit [DecidableEq κ] in
theorem between_start {objects : List (Object (Kind × κ))} {nextId : ℕ}
    (h : ∀ o ∈ objects, o.id < nextId) : Between objects [] (start objects nextId) where
  objects := rfl
  valid := by
    refine ⟨?_, nofun, nofun⟩
    intro id hid
    obtain ⟨o, ho, rfl⟩ := List.mem_map.mp hid
    exact h o ho
  stale := nofun
  handle name := by simp [start]

theorem allOrNothing_iff_of_between (h : ipc.KeysApart) {objects : List (Object (Kind × κ))}
    {earlier : List Name} (hbetween : Between objects earlier s) (numbers : List ℕ) :
    ipc.AllOrNothing numbers s ↔ ipc.Harmless objects earlier numbers := by
  induction numbers generalizing s earlier with
  | nil => exact iff_of_true nofun trivial
  | cons number numbers ih =>
    obtain ⟨rfl, hvalid, hstale, hhandle⟩ := hbetween
    have hround : HarmlessRound ipc number s ↔ procStates ∉ ipc.made s.objects number ∧
        ∀ name ∈ cleaned, name ∉ ipc.made s.objects number → name ∈ earlier →
          ipc.lingers name.kind := by
      simp only [HarmlessRound, hhandle]
    rw [allOrNothing_cons, proper_attempt_iff h hvalid hstale, Ipc.Harmless, ← hround]
    refine and_congr_right fun hharmless ↦ ?_
    obtain ⟨u, hattempt, hobjects, huvalid, hustale, huhandle⟩ :=
      exists_cleaned h hvalid hstale hharmless
    have hnext : Between s.objects (earlier ++ ipc.made s.objects number) u := by
      refine ⟨hobjects, huvalid, hustale, fun name ↦ ?_⟩
      rw [huhandle, hhandle, List.mem_append]
    rw [← ih hnext, hattempt]
    constructor
    · exact fun hall ↦ hall u rfl
    · rintro hu u' heq
      cases heq
      exact hu

/-- The set-up is all or nothing exactly for numbers that are all harmless. -/
theorem allOrNothing_iff (ipc : Ipc κ) (h : ipc.KeysApart) (objects : List (Object (Kind × κ)))
    (nextId : ℕ) (hids : ∀ o ∈ objects, o.id < nextId) (numbers : List ℕ) :
    ipc.AllOrNothing numbers (start objects nextId) ↔ ipc.Harmless objects [] numbers :=
  allOrNothing_iff_of_between h (between_start hids) numbers

end

/-- Keys of 32 bits, of which 0 is private. -/
def linux : Ipc ℕ where
  key n := if n % 2 ^ 32 = 0 then none else some (n % 2 ^ 32)
  lingers kind := decide (kind = .sharedMemory)

theorem keysApart_linux : linux.KeysApart := by
  intro m n hne hm hn heq
  simp only [linux] at heq ⊢
  by_cases hzero : m % 2 ^ 32 = 0
  · exact if_pos hzero
  · rw [if_neg hzero] at heq
    by_cases hzero' : n % 2 ^ 32 = 0
    · rw [if_pos hzero'] at heq
      cases heq
    · rw [if_neg hzero', Option.some_inj] at heq
      omega

/-- The keys of the first semaphores of two numbers are taken. -/
def takenSemaphores : List (Object (Kind × ℕ)) :=
  [⟨0, some (.semaphore, 8)⟩, ⟨1, some (.semaphore, 23)⟩]

/-- Two attempts in a row create the shared memories of the counters and clean up. -/
theorem allOrNothing_iff_takenSemaphores :
    linux.made takenSemaphores 5 = [.mNumShm, .cNumShm] ∧
      linux.AllOrNothing [5, 20] (start takenSemaphores 2) := by
  have hfirst : linux.made takenSemaphores 5 = [.mNumShm, .cNumShm] := by decide
  have hsecond : linux.made takenSemaphores 20 = [.mNumShm, .cNumShm] := by decide
  refine ⟨hfirst, (allOrNothing_iff linux keysApart_linux takenSemaphores 2 (by decide)
    [5, 20]).mpr ?_⟩
  rw [Ipc.Harmless, Ipc.Harmless, hfirst, hsecond]
  exact ⟨⟨by decide, by decide⟩, ⟨by decide, by decide⟩, trivial⟩

/-- The last key is taken, and the memory of the states stays. -/
theorem not_allOrNothing_lastTaken :
    ¬linux.AllOrNothing [5] (start [⟨0, some (.semaphore, 11)⟩] 1) := by
  intro h
  have hbetween : Between [⟨0, some (.semaphore, 11)⟩] []
      (start [⟨0, some (.semaphore, 11)⟩] 1 : Manager ℕ) := between_start (by decide)
  obtain ⟨⟨hstates, -⟩, -⟩ := (allOrNothing_iff_of_between keysApart_linux hbetween [5]).mp h
  exact absurd (by decide) hstates

end ProcessorFuzz.Execution.IpcSetup
