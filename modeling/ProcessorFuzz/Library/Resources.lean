import Mathlib.Data.List.Basic
import Mathlib.Data.List.Induction
import Mathlib.Data.List.Nodup
import Mathlib.Logic.Function.Basic
import Mathlib.Order.Nat

/-!
# Named handles on shared objects

A program creates objects that are found by their keys, and keeps handles on them under names of its
own. A handle is the identity of an object, which is never given to another one, so it becomes stale
when the object is removed. The attempt to create an object for each of several names stops at the
first key that is taken; a clean-up removes the objects of a fixed list of names.
-/

namespace ProcessorFuzz.Library.Resources

open Function

/-- An object; one without a key is private and is not found. -/
structure Object (κ : Type) where
  id : ℕ
  key : Option κ
  deriving DecidableEq, Repr

/-- The objects that exist, with the handles of the program. -/
structure Store (ν κ : Type) where
  objects : List (Object κ)
  nextId : ℕ
  handle : ν → Option ℕ

namespace Store

variable {ν κ : Type}

def ids (s : Store ν κ) : List ℕ := s.objects.map Object.id

/-- There is an object with the key. -/
def Taken (objects : List (Object κ)) (key : Option κ) : Prop :=
  key ≠ none ∧ ∃ o ∈ objects, o.key = key

instance [DecidableEq κ] (objects : List (Object κ)) (key : Option κ) :
    Decidable (Taken objects key) :=
  inferInstanceAs (Decidable (key ≠ none ∧ ∃ o ∈ objects, o.key = key))

/-- A new object, whose handle replaces the one that the name had. -/
def create [DecidableEq ν] (key : ν → Option κ) (s : Store ν κ) (name : ν) : Store ν κ where
  objects := s.objects ++ [⟨s.nextId, key name⟩]
  nextId := s.nextId + 1
  handle := update s.handle name (some s.nextId)

/-- Objects are created for one name after another, up to the first key that is taken. -/
def createAll [DecidableEq ν] [DecidableEq κ] (key : ν → Option κ) :
    List ν → Store ν κ → Bool × Store ν κ
  | [], s => (true, s)
  | name :: names, s =>
    if Taken s.objects (key name) then (false, s) else createAll key names (s.create key name)

def remove (id : ℕ) (s : Store ν κ) : Store ν κ :=
  { s with objects := s.objects.filter fun o ↦ o.id ≠ id }

/-- The object of a name is removed, if the name has a handle. On a stale handle this fails, unless
the object lingers after its removal. -/
def release (lingers : ν → Bool) (s : Store ν κ) (name : ν) : Option (Store ν κ) :=
  match s.handle name with
  | none => some s
  | some id => if id ∈ s.ids ∨ lingers name then some (s.remove id) else none

def releaseAll (lingers : ν → Bool) (names : List ν) (s : Store ν κ) : Option (Store ν κ) :=
  names.foldlM (release lingers) s

/-- Every identity has been given out, and no two names have the same. -/
structure Valid (s : Store ν κ) : Prop where
  id_lt : ∀ id ∈ s.ids, id < s.nextId
  handle_lt : ∀ name id, s.handle name = some id → id < s.nextId
  handle_inj : ∀ name name' id, s.handle name = some id → s.handle name' = some id → name = name'

/-- No handle refers to an object that exists. -/
def Stale (s : Store ν κ) : Prop := ∀ name id, s.handle name = some id → id ∉ s.ids

variable {key : ν → Option κ} {lingers : ν → Bool} {names made cleaned : List ν}
  {s t : Store ν κ} {fresh : List (Object κ)}

section Creating

variable [DecidableEq ν]

/-- Different names have different keys, unless they are private. -/
def KeysDiffer (key : ν → Option κ) (names : List ν) : Prop :=
  names.Pairwise fun name name' ↦ key name = key name' → key name = none

theorem taken_create {name name' : ν} (h : key name = key name' → key name = none) :
    Taken (s.create key name).objects (key name') ↔ Taken s.objects (key name') := by
  have hobjects : (s.create key name).objects = s.objects ++ [⟨s.nextId, key name⟩] := rfl
  unfold Taken
  rw [hobjects]
  constructor
  · rintro ⟨hne, o, ho, hkey⟩
    refine ⟨hne, o, ?_, hkey⟩
    rcases List.mem_append.mp ho with ho | ho
    · exact ho
    · rw [List.mem_singleton.mp ho] at hkey
      exact absurd (hkey.symm.trans (h hkey)) hne
  · rintro ⟨hne, o, ho, hkey⟩
    exact ⟨hne, o, List.mem_append_left _ ho, hkey⟩

/-- The attempt creates the objects of the names up to the first one that is not free. -/
theorem createAll_eq [DecidableEq κ] (h : KeysDiffer key names) (isFree : ν → Bool)
    (hfree : ∀ name ∈ names, isFree name = true ↔ ¬Taken s.objects (key name)) :
    createAll key names s =
      (names.all isFree, (names.takeWhile isFree).foldl (create key) s) := by
  induction names generalizing s with
  | nil => rfl
  | cons name names ih =>
    obtain ⟨hname, hnames⟩ := List.pairwise_cons.mp h
    obtain ⟨hfirst, hrest⟩ := List.forall_mem_cons.mp hfree
    rw [createAll]
    split
    · next htaken =>
      have hfalse : isFree name = false := by
        rw [Bool.eq_false_iff, ne_eq, hfirst]
        exact not_not.mpr htaken
      simp [hfalse]
    · next hnot =>
      have htrue : isFree name = true := hfirst.mpr hnot
      have hnext : ∀ name' ∈ names,
          isFree name' = true ↔ ¬Taken (s.create key name).objects (key name') := by
        intro name' hname'
        rw [hrest name' hname', taken_create (hname name' hname')]
      rw [ih hnames hnext]
      simp [htrue]

/-- The objects and the handles after objects have been created for some names. -/
structure Created (key : ν → Option κ) (s : Store ν κ) (made : List ν) (t : Store ν κ)
    (fresh : List (Object κ)) : Prop where
  objects : t.objects = s.objects ++ fresh
  nextId_le : s.nextId ≤ t.nextId
  old : ∀ name ∉ made, t.handle name = s.handle name
  new : ∀ name ∈ made, ∃ o ∈ fresh, t.handle name = some o.id
  fresh_range : ∀ o ∈ fresh, s.nextId ≤ o.id ∧ o.id < t.nextId
  named : ∀ o ∈ fresh, ∃ name ∈ made, t.handle name = some o.id

theorem exists_created (key : ν → Option κ) (made : List ν) (s : Store ν κ) (hnodup : made.Nodup) :
    ∃ fresh, Created key s made (made.foldl (create key) s) fresh := by
  induction made using List.reverseRecOn with
  | nil => exact ⟨[], (List.append_nil _).symm, le_rfl, fun _ _ ↦ rfl, nofun, nofun, nofun⟩
  | append_singleton made name ih =>
    rw [List.nodup_append_comm, List.singleton_append, List.nodup_cons] at hnodup
    obtain ⟨hname, hnodup⟩ := hnodup
    obtain ⟨fresh, h⟩ := ih hnodup
    rw [List.foldl_concat]
    generalize made.foldl (create key) s = t at h ⊢
    have hhandle : (t.create key name).handle = update t.handle name (some t.nextId) := rfl
    have hother : ∀ name' ∈ made, (t.create key name).handle name' = t.handle name' :=
      fun name' hname' ↦ update_of_ne (fun heq : name' = name ↦ hname (heq ▸ hname')) _ _
    refine ⟨fresh ++ [⟨t.nextId, key name⟩], ?_, ?_, ?_, ?_, ?_, ?_⟩
    · rw [← List.append_assoc, ← h.objects]
      rfl
    · exact h.nextId_le.trans (Nat.le_succ _)
    · intro name' hnot
      rw [List.mem_append, List.mem_singleton, not_or] at hnot
      rw [hhandle, update_of_ne hnot.2, h.old name' hnot.1]
    · intro name' hname'
      rcases List.mem_append.mp hname' with hname' | hname'
      · obtain ⟨o, ho, heq⟩ := h.new name' hname'
        exact ⟨o, List.mem_append_left _ ho, (hother name' hname').trans heq⟩
      · rw [List.mem_singleton.mp hname', hhandle, update_self]
        exact ⟨_, List.mem_append_right _ (List.mem_singleton_self _), rfl⟩
    · intro o ho
      change s.nextId ≤ o.id ∧ o.id < t.nextId + 1
      rcases List.mem_append.mp ho with ho | ho
      · obtain ⟨hle, hlt⟩ := h.fresh_range o ho
        exact ⟨hle, hlt.trans (Nat.lt_succ_self _)⟩
      · rw [List.mem_singleton.mp ho]
        exact ⟨h.nextId_le, Nat.lt_succ_self _⟩
    · intro o ho
      rcases List.mem_append.mp ho with ho | ho
      · obtain ⟨name', hname', heq⟩ := h.named o ho
        exact ⟨name', List.mem_append_left _ hname', (hother name' hname').trans heq⟩
      · rw [List.mem_singleton.mp ho]
        exact ⟨name, List.mem_append_right _ (List.mem_singleton_self _), update_self _ _ _⟩

/-- The handles stay different when a new object gets one. -/
theorem Valid.create (h : s.Valid) (key : ν → Option κ) (name : ν) : (s.create key name).Valid := by
  have hcases : ∀ name' id, (s.create key name).handle name' = some id →
      name' = name ∧ id = s.nextId ∨ name' ≠ name ∧ s.handle name' = some id := by
    intro name' id heq
    by_cases hname : name' = name
    · subst hname
      exact .inl ⟨rfl, (Option.some.inj ((update_self name' _ s.handle).symm.trans heq)).symm⟩
    · exact .inr ⟨hname, (update_of_ne hname _ s.handle).symm.trans heq⟩
  constructor
  · intro id hid
    change id < s.nextId + 1
    have hids : (s.create key name).ids = s.ids ++ [s.nextId] := List.map_append
    rw [hids, List.mem_append, List.mem_singleton] at hid
    rcases hid with hid | rfl
    · exact (h.id_lt id hid).trans (Nat.lt_succ_self _)
    · exact Nat.lt_succ_self _
  · intro name' id heq
    change id < s.nextId + 1
    rcases hcases name' id heq with ⟨-, rfl⟩ | ⟨-, hold⟩
    · exact Nat.lt_succ_self _
    · exact (h.handle_lt name' id hold).trans (Nat.lt_succ_self _)
  · intro name₁ name₂ id heq₁ heq₂
    rcases hcases name₁ id heq₁ with ⟨rfl, rfl⟩ | ⟨hne₁, hold₁⟩
    · rcases hcases name₂ _ heq₂ with ⟨rfl, -⟩ | ⟨-, hold₂⟩
      · rfl
      · exact absurd (h.handle_lt name₂ _ hold₂) (lt_irrefl _)
    · rcases hcases name₂ id heq₂ with ⟨rfl, rfl⟩ | ⟨-, hold₂⟩
      · exact absurd (h.handle_lt name₁ _ hold₁) (lt_irrefl _)
      · exact h.handle_inj name₁ name₂ id hold₁ hold₂

theorem Valid.foldl_create (h : s.Valid) (key : ν → Option κ) (made : List ν) :
    (made.foldl (Store.create key) s).Valid := by
  induction made generalizing s with
  | nil => exact h
  | cons name made ih => exact ih (h.create key name)

end Creating

/-- The objects that a clean-up leaves. -/
def kept (cleaned : List ν) (s : Store ν κ) : List (Object κ) :=
  s.objects.filter fun o ↦ decide (∀ name ∈ cleaned, s.handle name ≠ some o.id)

/-- The clean-up meets no handle that it cannot remove. -/
def Removable (lingers : ν → Bool) (cleaned : List ν) (s : Store ν κ) : Prop :=
  ∀ name ∈ cleaned, ∀ id, s.handle name = some id → id ∈ s.ids ∨ lingers name

theorem mem_ids_remove {id id' : ℕ} (h : id' ≠ id) : id' ∈ (s.remove id).ids ↔ id' ∈ s.ids := by
  simp only [ids, remove, List.mem_map, List.mem_filter, decide_eq_true_eq]
  constructor
  · rintro ⟨o, ⟨ho, -⟩, rfl⟩
    exact ⟨o, ho, rfl⟩
  · rintro ⟨o, ho, rfl⟩
    exact ⟨o, ⟨ho, h⟩, rfl⟩

theorem Valid.remove (h : s.Valid) (id : ℕ) : (s.remove id).Valid where
  id_lt id' hid' := by
    obtain ⟨o, ho, rfl⟩ := List.mem_map.mp hid'
    exact h.id_lt _ (List.mem_map_of_mem (List.mem_of_mem_filter ho))
  handle_lt := h.handle_lt
  handle_inj := h.handle_inj

theorem kept_cons_of_none {name : ν} (h : s.handle name = none) :
    s.kept (name :: cleaned) = s.kept cleaned := by
  unfold kept
  congr 1
  ext o
  simp [h]

theorem kept_remove {name : ν} {id : ℕ} (h : s.handle name = some id) :
    (s.remove id).kept cleaned = s.kept (name :: cleaned) := by
  have hhandle : (s.remove id).handle = s.handle := rfl
  have hobjects : (s.remove id).objects = s.objects.filter fun o ↦ o.id ≠ id := rfl
  unfold kept
  rw [hhandle, hobjects, List.filter_filter]
  congr 1
  ext o
  have hne : some id ≠ some o.id ↔ o.id ≠ id := by rw [ne_eq, Option.some_inj, ne_eq, eq_comm]
  rw [← Bool.decide_and, decide_eq_decide, List.forall_mem_cons, h, hne, and_comm]

/-- A clean-up fails on a stale handle, and removes the objects of its names otherwise. -/
theorem releaseAll_eq (h : s.Valid) (hnodup : cleaned.Nodup) :
    (Removable lingers cleaned s →
      releaseAll lingers cleaned s = some { s with objects := s.kept cleaned }) ∧
    (¬Removable lingers cleaned s → releaseAll lingers cleaned s = none) := by
  induction cleaned generalizing s with
  | nil =>
    constructor
    · intro _
      simp [releaseAll, kept]
    · intro hnot
      exact absurd nofun hnot
  | cons name cleaned ih =>
    obtain ⟨hname, hnodup⟩ := List.nodup_cons.mp hnodup
    have hstep : releaseAll lingers (name :: cleaned) s =
        (release lingers s name).bind (releaseAll lingers cleaned) := List.foldlM_cons
    rw [hstep, release]
    cases hid : s.handle name with
    | none =>
      have hremovable : Removable lingers (name :: cleaned) s ↔ Removable lingers cleaned s := by
        unfold Removable
        rw [List.forall_mem_cons, hid]
        simp
      rw [hremovable, kept_cons_of_none hid]
      exact ih h hnodup
    | some id =>
      have hrest : Removable lingers cleaned (s.remove id) ↔ Removable lingers cleaned s := by
        refine forall₂_congr fun name' hname' ↦ forall₂_congr fun id' hid' ↦ ?_
        have hne : id' ≠ id := by
          rintro rfl
          exact hname (h.handle_inj _ _ _ hid hid' ▸ hname')
        rw [mem_ids_remove hne]
      have hremovable : Removable lingers (name :: cleaned) s ↔
          (id ∈ s.ids ∨ lingers name) ∧ Removable lingers cleaned s := by
        unfold Removable
        rw [List.forall_mem_cons, hid]
        simp
      rw [hremovable]
      by_cases hcan : id ∈ s.ids ∨ lingers name
      · obtain ⟨hall, hnone⟩ := ih (h.remove id) hnodup
        dsimp only
        rw [if_pos hcan, Option.bind_some]
        constructor
        · rintro ⟨-, hrem⟩
          rw [hall (hrest.mpr hrem), kept_remove hid]
          rfl
        · intro hnot
          exact hnone fun hrem ↦ hnot ⟨hcan, hrest.mp hrem⟩
      · dsimp only
        rw [if_neg hcan]
        exact ⟨fun hboth ↦ absurd hboth.1 hcan, fun _ ↦ rfl⟩

namespace Created

variable (h : Created key s made t fresh)

include h in
theorem handle_of_mem_made {name : ν} {id : ℕ} (hname : name ∈ made)
    (hid : t.handle name = some id) :
    s.nextId ≤ id ∧ id ∈ t.ids := by
  obtain ⟨o, ho, heq⟩ := h.new name hname
  obtain rfl : o.id = id := Option.some.inj (heq.symm.trans hid)
  refine ⟨(h.fresh_range o ho).1, List.mem_map_of_mem ?_⟩
  rw [h.objects]
  exact List.mem_append_right _ ho

include h in
/-- A handle that the attempt has not replaced is stale. -/
theorem not_mem_ids (hvalid : s.Valid) (hstale : s.Stale) {name : ν} {id : ℕ} (hname : name ∉ made)
    (hid : t.handle name = some id) : id ∉ t.ids := by
  rw [h.old name hname] at hid
  rw [ids, h.objects, List.map_append, List.mem_append, not_or]
  refine ⟨hstale name id hid, fun hmem ↦ ?_⟩
  obtain ⟨o, ho, rfl⟩ := List.mem_map.mp hmem
  exact absurd (hvalid.handle_lt name _ hid) (not_lt.mpr (h.fresh_range o ho).1)

include h in
theorem removable_iff (hvalid : s.Valid) (hstale : s.Stale) :
    Removable lingers cleaned t ↔
      ∀ name ∈ cleaned, name ∉ made → s.handle name ≠ none → lingers name := by
  refine forall₂_congr fun name _ ↦ ?_
  constructor
  · intro hrem hname hsome
    obtain ⟨id, hid⟩ := Option.ne_none_iff_exists'.mp hsome
    rw [← h.old name hname] at hid
    exact (hrem id hid).resolve_left (h.not_mem_ids hvalid hstale hname hid)
  · intro hlingers id hid
    by_cases hname : name ∈ made
    · exact .inl (h.handle_of_mem_made hname hid).2
    · refine .inr (hlingers hname ?_)
      rw [← h.old name hname, hid]
      exact Option.some_ne_none id

include h in
/-- The objects that were there before the attempt are no concern of the clean-up. -/
theorem kept_eq (hvalid : s.Valid) (hstale : s.Stale) :
    t.kept cleaned = s.objects ++
      fresh.filter fun o ↦ decide (∀ name ∈ cleaned, t.handle name ≠ some o.id) := by
  rw [kept, h.objects, List.filter_append]
  congr 1
  rw [List.filter_eq_self]
  intro o ho
  have hmem : o.id ∈ s.ids := List.mem_map_of_mem ho
  rw [decide_eq_true_eq]
  intro name _ hid
  by_cases hname : name ∈ made
  · exact absurd (hvalid.id_lt _ hmem) (not_lt.mpr (h.handle_of_mem_made hname hid).1)
  · rw [h.old name hname] at hid
    exact hstale name _ hid hmem

include h in
/-- All new objects are removed if and only if the clean-up covers every name that got one. -/
theorem kept_eq_objects_iff (ht : t.Valid) (hvalid : s.Valid) (hstale : s.Stale) :
    t.kept cleaned = s.objects ↔ ∀ name ∈ made, name ∈ cleaned := by
  rw [h.kept_eq hvalid hstale, List.append_right_eq_self, List.filter_eq_nil_iff]
  constructor
  · intro hall name hname
    obtain ⟨o, ho, hid⟩ := h.new name hname
    have hsome := hall o ho
    rw [decide_eq_true_eq] at hsome
    push Not at hsome
    obtain ⟨name', hname', hid'⟩ := hsome
    rwa [ht.handle_inj name name' _ hid hid']
  · intro hall o ho
    obtain ⟨name, hname, hid⟩ := h.named o ho
    rw [decide_eq_true_eq]
    exact fun hnone ↦ hnone name (hall name hname) hid

include h in
theorem valid_restored (ht : t.Valid) (hvalid : s.Valid) :
    Valid { t with objects := s.objects } where
  id_lt id hid := (hvalid.id_lt id hid).trans_le h.nextId_le
  handle_lt := ht.handle_lt
  handle_inj := ht.handle_inj

include h in
theorem stale_restored (hvalid : s.Valid) (hstale : s.Stale) :
    Stale { t with objects := s.objects } := by
  intro name id hid hmem
  change t.handle name = some id at hid
  by_cases hname : name ∈ made
  · exact absurd (hvalid.id_lt id hmem) (not_lt.mpr (h.handle_of_mem_made hname hid).1)
  · rw [h.old name hname] at hid
    exact hstale name id hid hmem

include h in
theorem handle_ne_none_iff (name : ν) :
    t.handle name ≠ none ↔ s.handle name ≠ none ∨ name ∈ made := by
  by_cases hname : name ∈ made
  · obtain ⟨o, -, hid⟩ := h.new name hname
    simp [hname, hid]
  · simp [hname, h.old name hname]

end Created

variable [DecidableEq ν]

/-- A clean-up after a failed attempt restores the objects if and only if it covers all that the
attempt has created and meets no stale handle of an object that does not linger. -/
theorem releaseAll_restores_iff (hvalid : s.Valid) (hstale : s.Stale) (hmade : made.Nodup)
    (hcleaned : cleaned.Nodup) :
    (∃ u, releaseAll lingers cleaned (made.foldl (create key) s) = some u ∧
      u.objects = s.objects) ↔
    (∀ name ∈ made, name ∈ cleaned) ∧
      ∀ name ∈ cleaned, name ∉ made → s.handle name ≠ none → lingers name := by
  obtain ⟨fresh, hcreated⟩ := exists_created key made s hmade
  have ht := hvalid.foldl_create key made
  generalize made.foldl (create key) s = t at hcreated ht ⊢
  obtain ⟨hsome, hnone⟩ := @releaseAll_eq _ _ lingers _ _ ht hcleaned
  rw [← hcreated.removable_iff hvalid hstale, ← hcreated.kept_eq_objects_iff ht hvalid hstale]
  by_cases hrem : Removable lingers cleaned t
  · rw [hsome hrem]
    simp [hrem]
  · rw [hnone hrem]
    simp [hrem]

/-- After a clean-up that restores the objects, the next attempt starts as this one did. -/
theorem restored_of_releaseAll {u : Store ν κ} (hvalid : s.Valid) (hstale : s.Stale)
    (hmade : made.Nodup) (hcleaned : cleaned.Nodup)
    (hu : releaseAll lingers cleaned (made.foldl (create key) s) = some u)
    (hobjects : u.objects = s.objects) :
    u.Valid ∧ u.Stale ∧ ∀ name, u.handle name ≠ none ↔ s.handle name ≠ none ∨ name ∈ made := by
  obtain ⟨fresh, hcreated⟩ := exists_created key made s hmade
  have ht := hvalid.foldl_create key made
  generalize made.foldl (create key) s = t at hcreated ht hu
  obtain ⟨hsome, hnone⟩ := @releaseAll_eq _ _ lingers _ _ ht hcleaned
  have hrem : Removable lingers cleaned t := by
    by_contra hrem
    rw [hnone hrem] at hu
    exact Option.some_ne_none u hu.symm
  obtain rfl : { t with objects := t.kept cleaned } = u :=
    Option.some.inj ((hsome hrem).symm.trans hu)
  change t.kept cleaned = s.objects at hobjects
  rw [hobjects]
  exact ⟨hcreated.valid_restored ht hvalid, hcreated.stale_restored hvalid hstale,
    hcreated.handle_ne_none_iff⟩

omit [DecidableEq ν] in
/-- A clean-up that does not cover a name leaves the object of the name. -/
theorem mem_objects_of_releaseAll {u : Store ν κ} {name : ν} {o : Object κ} (hvalid : s.Valid)
    (hcleaned : cleaned.Nodup) (hu : releaseAll lingers cleaned s = some u)
    (hname : name ∉ cleaned) (ho : o ∈ s.objects) (hid : s.handle name = some o.id) :
    o ∈ u.objects := by
  obtain ⟨hsome, hnone⟩ := @releaseAll_eq _ _ lingers _ _ hvalid hcleaned
  have hrem : Removable lingers cleaned s := by
    by_contra hrem
    rw [hnone hrem] at hu
    exact Option.some_ne_none u hu.symm
  obtain rfl : { s with objects := s.kept cleaned } = u :=
    Option.some.inj ((hsome hrem).symm.trans hu)
  refine List.mem_filter.mpr ⟨ho, decide_eq_true ?_⟩
  intro name' hname' hid'
  exact hname (hvalid.handle_inj _ _ _ hid hid' ▸ hname')

end Store

end ProcessorFuzz.Library.Resources
