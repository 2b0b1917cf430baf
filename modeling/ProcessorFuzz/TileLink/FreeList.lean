import ProcessorFuzz.Library.Dict
import ProcessorFuzz.Library.Python

/-!
# Free lists and callback maps

`FreeList` hands out identifiers and keeps the events that wait for one; `srcToCallback` maps a
probe source to the continuation that its acknowledgement runs. That an identifier is free at most
once and comes from the initial list are fields of the structure.
-/

namespace ProcessorFuzz.TileLink

open Library

/-- `ε` is the type of the reserved events. -/
structure FreeList (ε : Type) where
  name : String
  initList : List ℕ
  freeList : List ℕ
  eventQueue : List ε
  nodup_initList : initList.Nodup
  nodup_freeList : freeList.Nodup
  freeList_subset : freeList ⊆ initList

namespace FreeList

variable {ε : Type}

/-- The constructor, for a list of distinct identifiers. -/
def new (name : String) (initList : List ℕ) (h : initList.Nodup) : FreeList ε where
  name := name
  initList := initList
  freeList := initList
  eventQueue := []
  nodup_initList := h
  nodup_freeList := h
  freeList_subset := List.Subset.refl _

/-- `free_list.remove(ret)`. -/
def remove (fl : FreeList ε) (ret : ℕ) : FreeList ε where
  name := fl.name
  initList := fl.initList
  freeList := fl.freeList.erase ret
  eventQueue := fl.eventQueue
  nodup_initList := fl.nodup_initList
  nodup_freeList := fl.nodup_freeList.erase ret
  freeList_subset := List.Subset.trans List.erase_subset fl.freeList_subset

def get (fl : FreeList ε) (draws : Draws) : Except PyError (ℕ × FreeList ε × Draws) := do
  assert (!fl.freeList.isEmpty) (fl.name ++ " is empty")
  let (ret, draws) ← draws.choice fl.freeList
  return (ret, fl.remove ret, draws)

def empty (fl : FreeList ε) : Bool := fl.freeList.isEmpty

def reserve (fl : FreeList ε) (callback : ε) : FreeList ε where
  name := fl.name
  initList := fl.initList
  freeList := fl.freeList
  eventQueue := fl.eventQueue ++ [callback]
  nodup_initList := fl.nodup_initList
  nodup_freeList := fl.nodup_freeList
  freeList_subset := fl.freeList_subset

/-- `free_list.append(ret)` followed by the removal of the next event. -/
def restore (fl : FreeList ε) (ret : ℕ) (hinit : ret ∈ fl.initList) (hfree : ret ∉ fl.freeList) :
    FreeList ε where
  name := fl.name
  initList := fl.initList
  freeList := fl.freeList ++ [ret]
  eventQueue := fl.eventQueue.tail
  nodup_initList := fl.nodup_initList
  nodup_freeList :=
    List.Nodup.append fl.nodup_freeList (List.nodup_singleton ret)
      (List.disjoint_singleton.mpr hfree)
  freeList_subset := List.append_subset.mpr ⟨fl.freeList_subset, by simpa using hinit⟩

/-- The event to call, if one was reserved, comes first. -/
def release (fl : FreeList ε) (ret : ℕ) : Except PyError (Option ε × FreeList ε) :=
  if hinit : ret ∈ fl.initList then
    if hfree : ret ∈ fl.freeList then
      .error (.assertionError (toString ret ++ " already in " ++ fl.name ++ " free_list"))
    else .ok (fl.eventQueue.head?, fl.restore ret hinit hfree)
  else .error (.assertionError (toString ret ++ " not in " ++ fl.name ++ " init_list"))

@[simp]
theorem empty_eq_true {fl : FreeList ε} : fl.empty = true ↔ fl.freeList = [] :=
  List.isEmpty_iff

@[simp]
theorem empty_eq_false {fl : FreeList ε} : fl.empty = false ↔ fl.freeList ≠ [] := by
  rw [ne_eq, ← empty_eq_true, Bool.not_eq_true]

@[simp]
theorem initList_remove (fl : FreeList ε) (ret : ℕ) : (fl.remove ret).initList = fl.initList := rfl

@[simp]
theorem eventQueue_remove (fl : FreeList ε) (ret : ℕ) :
    (fl.remove ret).eventQueue = fl.eventQueue := rfl

@[simp]
theorem mem_freeList_remove {fl : FreeList ε} {ret src : ℕ} :
    src ∈ (fl.remove ret).freeList ↔ src ≠ ret ∧ src ∈ fl.freeList :=
  fl.nodup_freeList.mem_erase_iff

@[simp]
theorem initList_reserve (fl : FreeList ε) (e : ε) : (fl.reserve e).initList = fl.initList := rfl

@[simp]
theorem freeList_reserve (fl : FreeList ε) (e : ε) : (fl.reserve e).freeList = fl.freeList := rfl

@[simp]
theorem eventQueue_reserve (fl : FreeList ε) (e : ε) :
    (fl.reserve e).eventQueue = fl.eventQueue ++ [e] := rfl

section Restore

variable (fl : FreeList ε) (ret : ℕ) (hinit : ret ∈ fl.initList) (hfree : ret ∉ fl.freeList)

@[simp]
theorem initList_restore : (fl.restore ret hinit hfree).initList = fl.initList := rfl

@[simp]
theorem eventQueue_restore : (fl.restore ret hinit hfree).eventQueue = fl.eventQueue.tail := rfl

@[simp]
theorem mem_freeList_restore {src : ℕ} :
    src ∈ (fl.restore ret hinit hfree).freeList ↔ src ∈ fl.freeList ∨ src = ret := by
  simp [restore]

end Restore

/-- `get` fails on an empty list only, and otherwise takes one of the free identifiers. -/
theorem get_eq_ok_iff {fl : FreeList ε} {draws : Draws} {r : ℕ × FreeList ε × Draws} :
    fl.get draws = .ok r ↔
      ∃ ret ∈ fl.freeList, draws.choice fl.freeList = .ok (ret, draws.rest) ∧
        r = (ret, fl.remove ret, draws.rest) := by
  by_cases h : fl.freeList = []
  · simp [get, h, Library.assert]
  · obtain ⟨ret, hmem, hchoice⟩ := Draws.exists_choice_eq_ok h draws
    have hget : fl.get draws = .ok (ret, fl.remove ret, draws.rest) := by
      have hempty : fl.freeList.isEmpty = false := by simpa using h
      unfold get
      rw [hempty, hchoice]
      rfl
    constructor
    · intro hr
      rw [hget] at hr
      exact ⟨ret, hmem, hchoice, (Except.ok.inj hr).symm⟩
    · rintro ⟨ret', _, hchoice', rfl⟩
      rw [hchoice] at hchoice'
      obtain rfl : ret = ret' := congrArg Prod.fst (Except.ok.inj hchoice')
      exact hget

theorem exists_get_eq_ok {fl : FreeList ε} (h : fl.freeList ≠ []) (draws : Draws) :
    ∃ ret ∈ fl.freeList, fl.get draws = .ok (ret, fl.remove ret, draws.rest) := by
  obtain ⟨ret, hmem, hchoice⟩ := Draws.exists_choice_eq_ok h draws
  exact ⟨ret, hmem, get_eq_ok_iff.mpr ⟨ret, hmem, hchoice, rfl⟩⟩

theorem release_eq_ok_iff {fl : FreeList ε} {ret : ℕ} {r : Option ε × FreeList ε} :
    fl.release ret = .ok r ↔
      ∃ (hinit : ret ∈ fl.initList) (hfree : ret ∉ fl.freeList),
        r = (fl.eventQueue.head?, fl.restore ret hinit hfree) := by
  unfold release
  by_cases hinit : ret ∈ fl.initList
  · by_cases hfree : ret ∈ fl.freeList
    · simp [hinit, hfree]
    · simp [hinit, hfree, eq_comm]
  · simp [hinit]

end FreeList

/-- The map `c_map` of `srcToCallback`; every source is a key of it. -/
structure SrcToCallback (κ : Type) where
  name : String
  srcs : List ℕ
  cMap : Dict ℕ (Option κ)

namespace SrcToCallback

variable {κ : Type}

def new (name : String) (initSrcs : List ℕ) : SrcToCallback κ where
  name := name
  srcs := initSrcs
  cMap := Dict.ofList (initSrcs.map fun src ↦ (src, none))

def set (m : SrcToCallback κ) (src : ℕ) (callback : κ) : Except PyError (SrcToCallback κ) := do
  assert (decide (src ∈ m.srcs)) (toString src ++ " not in " ++ m.name ++ " srcs")
  match m.cMap.get? src with
  | none => .error .keyError
  | some registered =>
    assert registered.isNone (m.name ++ " duplicate callback setup")
    return { m with cMap := m.cMap.set src (some callback) }

/-- Returns the callback that `call` runs; its entry is cleared first. -/
def call (m : SrcToCallback κ) (src : ℕ) : Except PyError (Option κ × SrcToCallback κ) :=
  match m.cMap.get? src with
  | none => .error .keyError
  | some none => .ok (none, m)
  | some (some callback) => .ok (some callback, { m with cMap := m.cMap.set src none })

/-- The continuation registered for a source. -/
def registered (m : SrcToCallback κ) (src : ℕ) : Option κ := (m.cMap.get? src).join

theorem set_eq_ok {m : SrcToCallback κ} {src : ℕ} (hsrc : src ∈ m.srcs)
    (h : m.cMap.get? src = some none) (callback : κ) :
    m.set src callback = .ok { m with cMap := m.cMap.set src (some callback) } := by
  unfold set
  rw [h]
  simp [hsrc]

theorem call_eq_ok {m : SrcToCallback κ} {src : ℕ} {callback : κ}
    (h : m.cMap.get? src = some (some callback)) :
    m.call src = .ok (some callback, { m with cMap := m.cMap.set src none }) := by
  unfold call
  rw [h]

end SrcToCallback

end ProcessorFuzz.TileLink
