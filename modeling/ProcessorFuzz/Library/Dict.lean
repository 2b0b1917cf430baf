import Mathlib.Data.List.Induction
import Mathlib.Data.List.Nodup
import Mathlib.Data.List.Perm.Basic
import Mathlib.Order.Defs.PartialOrder

/-!
# Insertion-ordered dictionaries

A dictionary keeps its entries in the order in which their keys were first stored. Overwriting a
key keeps its place and removing it forgets the place. That no key occurs twice is a field, so
every dictionary that can be built has it.
-/

namespace ProcessorFuzz.Library

structure Dict (κ α : Type*) where
  entries : List (κ × α)
  nodup : (entries.map Prod.fst).Nodup

namespace Dict

variable {κ α : Type*}

@[ext]
theorem ext {d e : Dict κ α} (h : d.entries = e.entries) : d = e := by
  cases d
  cases e
  congr

instance [DecidableEq κ] [DecidableEq α] : DecidableEq (Dict κ α) := fun d e ↦
  decidable_of_iff (d.entries = e.entries) ⟨ext, congrArg entries⟩

def empty : Dict κ α := ⟨[], List.nodup_nil⟩

def keys (d : Dict κ α) : List κ := d.entries.map Prod.fst

def values (d : Dict κ α) : List α := d.entries.map Prod.snd

theorem nodup_keys (d : Dict κ α) : d.keys.Nodup := d.nodup

@[simp]
theorem keys_empty : (empty : Dict κ α).keys = [] := rfl

@[simp]
theorem values_empty : (empty : Dict κ α).values = [] := rfl

variable [DecidableEq κ]

def find? (k : κ) : List (κ × α) → Option α
  | [] => none
  | (key, value) :: rest => if key = k then some value else find? k rest

def get? (d : Dict κ α) (k : κ) : Option α := find? k d.entries

def getD (d : Dict κ α) (k : κ) (fallback : α) : α := (d.get? k).getD fallback

@[simp]
theorem get?_empty (k : κ) : (empty : Dict κ α).get? k = none := rfl

theorem find?_eq_none_iff {k : κ} {l : List (κ × α)} :
    find? k l = none ↔ k ∉ l.map Prod.fst := by
  induction l with
  | nil => simp [find?]
  | cons entry rest ih =>
    obtain ⟨key, value⟩ := entry
    by_cases h : key = k
    · simp [find?, h]
    · simpa [find?, h, Ne.symm h] using ih

theorem get?_eq_none_iff {d : Dict κ α} {k : κ} : d.get? k = none ↔ k ∉ d.keys :=
  find?_eq_none_iff

theorem isSome_get?_iff {d : Dict κ α} {k : κ} : (d.get? k).isSome ↔ k ∈ d.keys := by
  rw [Option.isSome_iff_ne_none, ne_eq, get?_eq_none_iff, not_not]

theorem find?_eq_some_iff {k : κ} {v : α} {l : List (κ × α)} (hl : (l.map Prod.fst).Nodup) :
    find? k l = some v ↔ (k, v) ∈ l := by
  induction l with
  | nil => simp [find?]
  | cons entry rest ih =>
    obtain ⟨key, value⟩ := entry
    rw [List.map_cons, List.nodup_cons] at hl
    by_cases h : key = k
    · subst h
      have habsent : (key, v) ∉ rest := fun hmem ↦
        hl.1 (List.mem_map.mpr ⟨(key, v), hmem, rfl⟩)
      simp [find?, habsent, eq_comm]
    · simpa [find?, h, Ne.symm h] using ih hl.2

theorem get?_eq_some_iff {d : Dict κ α} {k : κ} {v : α} :
    d.get? k = some v ↔ (k, v) ∈ d.entries :=
  find?_eq_some_iff d.nodup

theorem mem_values_iff {d : Dict κ α} {v : α} : v ∈ d.values ↔ ∃ k, d.get? k = some v := by
  simp [values, get?_eq_some_iff]

def put (k : κ) (v : α) : List (κ × α) → List (κ × α)
  | [] => [(k, v)]
  | (key, value) :: rest => if key = k then (key, v) :: rest else (key, value) :: put k v rest

theorem map_fst_put (k : κ) (v : α) (l : List (κ × α)) :
    (put k v l).map Prod.fst =
      if k ∈ l.map Prod.fst then l.map Prod.fst else l.map Prod.fst ++ [k] := by
  induction l with
  | nil => rfl
  | cons entry rest ih =>
    obtain ⟨key, value⟩ := entry
    by_cases h : key = k
    · simp [put, h]
    · simp only [put, h, if_false, List.map_cons, ih, List.mem_cons, Ne.symm h, false_or]
      split <;> rfl

/-- A new key goes to the end. -/
theorem put_of_not_mem {k : κ} (v : α) {l : List (κ × α)} (h : k ∉ l.map Prod.fst) :
    put k v l = l ++ [(k, v)] := by
  induction l with
  | nil => rfl
  | cons entry rest ih =>
    rw [List.map_cons, List.mem_cons, not_or] at h
    obtain ⟨hne, hrest⟩ := h
    rw [put, if_neg (Ne.symm hne), ih hrest, List.cons_append]

/-- The assignment `d[k] = v`. -/
def set (d : Dict κ α) (k : κ) (v : α) : Dict κ α where
  entries := put k v d.entries
  nodup := by
    rw [map_fst_put]
    split
    · exact d.nodup
    · next h =>
      have hdisjoint : (d.entries.map Prod.fst).Disjoint [k] := List.disjoint_singleton.mpr h
      exact List.Nodup.append d.nodup (List.nodup_singleton k) hdisjoint

theorem keys_set (d : Dict κ α) (k : κ) (v : α) :
    (d.set k v).keys = if k ∈ d.keys then d.keys else d.keys ++ [k] :=
  map_fst_put k v d.entries

@[simp]
theorem mem_keys_set {d : Dict κ α} {k k' : κ} {v : α} :
    k' ∈ (d.set k v).keys ↔ k' = k ∨ k' ∈ d.keys := by
  rw [keys_set]
  split
  · next h => exact ⟨Or.inr, fun h' ↦ h'.elim (fun heq ↦ heq ▸ h) id⟩
  · rw [List.mem_append, List.mem_singleton, or_comm]

theorem find?_put (k k' : κ) (v : α) (l : List (κ × α)) :
    find? k' (put k v l) = if k' = k then some v else find? k' l := by
  induction l with
  | nil => simp [put, find?, eq_comm]
  | cons entry rest ih =>
    obtain ⟨key, value⟩ := entry
    by_cases h : key = k
    · subst h
      by_cases h' : key = k'
      · simp [put, find?, h']
      · simp [put, find?, h', Ne.symm h']
    · by_cases h' : key = k'
      · subst h'
        simp [put, find?, h]
      · simpa [put, find?, h, h'] using ih

theorem get?_set (d : Dict κ α) (k k' : κ) (v : α) :
    (d.set k v).get? k' = if k' = k then some v else d.get? k' :=
  find?_put k k' v d.entries

@[simp]
theorem get?_set_self (d : Dict κ α) (k : κ) (v : α) : (d.set k v).get? k = some v := by
  simp [get?_set]

theorem get?_set_of_ne (d : Dict κ α) {k k' : κ} (v : α) (h : k' ≠ k) :
    (d.set k v).get? k' = d.get? k' := by
  simp [get?_set, h]

theorem getD_set (d : Dict κ α) (k k' : κ) (v fallback : α) :
    (d.set k v).getD k' fallback = if k' = k then v else d.getD k' fallback := by
  rw [getD, get?_set]
  split <;> rfl

theorem put_put (k : κ) (v w : α) (l : List (κ × α)) : put k w (put k v l) = put k w l := by
  induction l with
  | nil => simp [put]
  | cons entry rest ih =>
    obtain ⟨key, value⟩ := entry
    by_cases h : key = k
    · simp [put, h]
    · simp [put, h, ih]

/-- The last value stored under a key counts. -/
theorem set_set (d : Dict κ α) (k : κ) (v w : α) : (d.set k v).set k w = d.set k w :=
  ext (put_put k v w d.entries)

theorem mem_values_set {d : Dict κ α} {k : κ} {v w : α} (h : w ∈ (d.set k v).values) :
    w = v ∨ w ∈ d.values := by
  obtain ⟨k', hk'⟩ := mem_values_iff.mp h
  rw [get?_set] at hk'
  split at hk'
  · exact Or.inl (Option.some.inj hk').symm
  · exact Or.inr (mem_values_iff.mpr ⟨k', hk'⟩)

/-- `d.pop(k)` without the returned value; absent keys are left alone. -/
def erase (d : Dict κ α) (k : κ) : Dict κ α where
  entries := d.entries.filter fun entry ↦ entry.1 ≠ k
  nodup := d.nodup.sublist (List.filter_sublist.map Prod.fst)

theorem keys_erase (d : Dict κ α) (k : κ) : (d.erase k).keys = d.keys.filter (· ≠ k) := by
  rw [keys, keys, List.filter_map]
  rfl

@[simp]
theorem mem_keys_erase {d : Dict κ α} {k k' : κ} :
    k' ∈ (d.erase k).keys ↔ k' ∈ d.keys ∧ k' ≠ k := by
  simp [keys_erase]

theorem get?_erase (d : Dict κ α) (k k' : κ) :
    (d.erase k).get? k' = if k' = k then none else d.get? k' := by
  by_cases h : k' = k
  · subst h
    simp [get?_eq_none_iff]
  · rw [if_neg h]
    ext v
    simp [get?_eq_some_iff, erase, h]

/-- The dictionary display, later entries overwriting earlier ones. -/
def ofList (l : List (κ × α)) : Dict κ α := l.foldl (fun d entry ↦ d.set entry.1 entry.2) empty

/-- A loop that stores one value under each key leaves that value there. -/
theorem get?_foldl_set {ι : Type*} (key : ι → κ) (value : ι → α) {l : List ι} {j : ι} (hj : j ∈ l)
    (hinj : ∀ i ∈ l, key i = key j → i = j) (d : Dict κ α) :
    (l.foldl (fun d i ↦ d.set (key i) (value i)) d).get? (key j) = some (value j) := by
  induction l using List.reverseRecOn with
  | nil => exact absurd hj List.not_mem_nil
  | append_singleton l i ih =>
    rw [List.foldl_append, List.foldl_cons, List.foldl_nil, get?_set]
    split
    · next heq => rw [hinj i (by simp) heq.symm]
    · next hne =>
      apply ih
      · rcases List.mem_append.mp hj with hj | hj
        · exact hj
        · exact absurd (congrArg key (List.mem_singleton.mp hj)) hne
      · intro i' hi'
        exact hinj i' (List.mem_append_left [i] hi')

theorem get?_foldl_set_const (l : List κ) (v : α) (d : Dict κ α) (k : κ) :
    ((l.map fun key ↦ (key, v)).foldl (fun d entry ↦ d.set entry.1 entry.2) d).get? k =
      if k ∈ l then some v else d.get? k := by
  induction l generalizing d with
  | nil => simp
  | cons key rest ih =>
    rw [List.map_cons, List.foldl_cons, ih, get?_set]
    by_cases hmem : k ∈ rest
    · simp [hmem]
    · simp [hmem]

theorem get?_ofList_const (l : List κ) (v : α) (k : κ) :
    (ofList (l.map fun key ↦ (key, v))).get? k = if k ∈ l then some v else none :=
  get?_foldl_set_const l v empty k

/-- `d.update(entries)`: the entries are stored one after the other. -/
def update (d : Dict κ α) (entries : List (κ × α)) : Dict κ α :=
  entries.foldl (fun d entry ↦ d.set entry.1 entry.2) d

@[simp]
theorem update_nil (d : Dict κ α) : d.update [] = d := rfl

theorem update_append (d : Dict κ α) (left right : List (κ × α)) :
    d.update (left ++ right) = (d.update left).update right :=
  List.foldl_append

/-- New keys are stored in the order of the entries. -/
theorem entries_update_of_nodup {d : Dict κ α} {entries : List (κ × α)}
    (h : (d.keys ++ entries.map Prod.fst).Nodup) : (d.update entries).entries = d.entries ++ entries := by
  induction entries generalizing d with
  | nil => exact (List.append_nil d.entries).symm
  | cons entry entries ih =>
    obtain ⟨k, v⟩ := entry
    have hnew : k ∉ d.keys := by
      intro hk
      exact List.disjoint_of_nodup_append h hk List.mem_cons_self
    have hset : (d.set k v).entries = d.entries ++ [(k, v)] := put_of_not_mem v hnew
    have hkeys : (d.set k v).keys = d.keys ++ [k] := by rw [keys_set, if_neg hnew]
    calc
      (d.update ((k, v) :: entries)).entries = (d.set k v).entries ++ entries := by
        apply ih
        rw [hkeys, List.append_assoc]
        exact h
      _ = d.entries ++ (k, v) :: entries := by
        rw [hset, List.append_assoc]
        rfl

/-- The last entry of a key counts. -/
theorem get?_update (d : Dict κ α) (entries : List (κ × α)) (k : κ) :
    (d.update entries).get? k = (find? k entries.reverse).or (d.get? k) := by
  induction entries using List.reverseRecOn with
  | nil => rfl
  | append_singleton entries entry ih =>
    have hlast : (d.update (entries ++ [entry])).get? k =
        ((d.update entries).set entry.1 entry.2).get? k := by
      rw [update_append]
      rfl
    rw [hlast, get?_set, ih, List.reverse_append, List.reverse_singleton, List.singleton_append,
      find?]
    by_cases h : k = entry.1
    · simp [h]
    · simp [h, Ne.symm h]

theorem get?_update_of_not_mem (d : Dict κ α) {entries : List (κ × α)} {k : κ}
    (h : k ∉ entries.map Prod.fst) : (d.update entries).get? k = d.get? k := by
  have hnone : find? k entries.reverse = none := by
    rw [find?_eq_none_iff, List.map_reverse, List.mem_reverse]
    exact h
  rw [get?_update, hnone, Option.none_or]

/-- What is stored under a key of the entries does not depend on the dictionary before. -/
theorem get?_update_of_mem (d e : Dict κ α) {entries : List (κ × α)} {k : κ}
    (h : k ∈ entries.map Prod.fst) : (d.update entries).get? k = (e.update entries).get? k := by
  have hsome : find? k entries.reverse ≠ none := by
    rw [ne_eq, find?_eq_none_iff, List.map_reverse, List.mem_reverse, not_not]
    exact h
  obtain ⟨v, hv⟩ := Option.ne_none_iff_exists'.mp hsome
  rw [get?_update, get?_update, hv, Option.some_or, Option.some_or]

theorem get?_update_of_nodup (d : Dict κ α) {entries : List (κ × α)} {k : κ} {v : α}
    (hnodup : (entries.map Prod.fst).Nodup) (h : (k, v) ∈ entries) :
    (d.update entries).get? k = some v := by
  have hfind : find? k entries.reverse = some v := by
    rw [find?_eq_some_iff (by rw [List.map_reverse, List.nodup_reverse]; exact hnodup),
      List.mem_reverse]
    exact h
  rw [get?_update, hfind, Option.some_or]

/-- A key whose entries all have one value has this value. -/
theorem get?_update_of_forall (d : Dict κ α) {entries : List (κ × α)} {k : κ} {v : α}
    (hmem : k ∈ entries.map Prod.fst) (h : ∀ entry ∈ entries, entry.1 = k → entry.2 = v) :
    (d.update entries).get? k = some v := by
  induction entries using List.reverseRecOn with
  | nil => exact absurd hmem List.not_mem_nil
  | append_singleton entries entry ih =>
    have hset : (d.update (entries ++ [entry])).get? k =
        ((d.update entries).set entry.1 entry.2).get? k := by
      rw [update_append]
      rfl
    rw [hset, get?_set]
    split
    · next heq => rw [h entry (by simp) heq.symm]
    · next hne =>
      apply ih
      · rw [List.map_append, List.mem_append] at hmem
        rcases hmem with hmem | hmem
        · exact hmem
        · exact absurd (List.mem_singleton.mp hmem) hne
      · exact fun e he ↦ h e (List.mem_append_left [entry] he)

/-- The last entry of a key is the greatest one, if the entries are in order. -/
theorem mem_and_le_of_get?_update [Preorder α] {entries : List (κ × α)} {k : κ} {v : α}
    (hsorted : (entries.map Prod.snd).Pairwise (· ≤ ·))
    (h : (empty.update entries).get? k = some v) :
    (k, v) ∈ entries ∧ ∀ entry ∈ entries, entry.1 = k → entry.2 ≤ v := by
  induction entries using List.reverseRecOn with
  | nil => cases h
  | append_singleton entries entry ih =>
    have hset : (empty.update (entries ++ [entry])).get? k =
        ((empty.update entries).set entry.1 entry.2).get? k := by
      rw [update_append]
      rfl
    rw [List.map_append, List.pairwise_append] at hsorted
    obtain ⟨hentries, -, hlast⟩ := hsorted
    have hle : ∀ other ∈ entries, other.2 ≤ entry.2 := fun other hother ↦
      hlast _ (List.mem_map_of_mem hother) _ List.mem_cons_self
    rw [hset, get?_set] at h
    split at h
    · next hkey =>
      obtain rfl := Option.some.inj h
      refine ⟨List.mem_append_right _ (List.mem_singleton.mpr (Prod.ext hkey rfl)), ?_⟩
      intro other hother _
      rcases List.mem_append.mp hother with hother | hother
      · exact hle other hother
      · exact (List.mem_singleton.mp hother) ▸ le_rfl
    · next hkey =>
      obtain ⟨hmem, hbound⟩ := ih hentries h
      refine ⟨List.mem_append_left _ hmem, fun other hother heq ↦ ?_⟩
      rcases List.mem_append.mp hother with hother | hother
      · exact hbound other hother heq
      · rw [List.mem_singleton.mp hother] at heq
        exact absurd heq.symm hkey

theorem mem_keys_update {d : Dict κ α} {entries : List (κ × α)} {k : κ} :
    k ∈ (d.update entries).keys ↔ k ∈ entries.map Prod.fst ∨ k ∈ d.keys := by
  induction entries generalizing d with
  | nil => simp
  | cons entry entries ih =>
    calc
      k ∈ (d.update (entry :: entries)).keys
          ↔ k ∈ entries.map Prod.fst ∨ k ∈ (d.set entry.1 entry.2).keys := ih
      _ ↔ k ∈ (entry :: entries).map Prod.fst ∨ k ∈ d.keys := by
        rw [mem_keys_set, List.map_cons, List.mem_cons, or_assoc, or_left_comm]

theorem mem_entries_set {d : Dict κ α} {k : κ} {v : α} {entry : κ × α}
    (h : entry ∈ (d.set k v).entries) : entry = (k, v) ∨ entry ∈ d.entries := by
  have hget : (d.set k v).get? entry.1 = some entry.2 := get?_eq_some_iff.mpr h
  rw [get?_set] at hget
  split at hget
  · next hkey => exact .inl (Prod.ext hkey (Option.some.inj hget).symm)
  · exact .inr (get?_eq_some_iff.mp hget)

theorem mem_entries_update {d : Dict κ α} {entries : List (κ × α)} {entry : κ × α}
    (h : entry ∈ (d.update entries).entries) : entry ∈ entries ∨ entry ∈ d.entries := by
  induction entries generalizing d with
  | nil => exact .inr h
  | cons first entries ih =>
    rcases ih h with h | h
    · exact .inl (List.mem_cons_of_mem first h)
    · rcases mem_entries_set h with rfl | h
      · exact .inl List.mem_cons_self
      · exact .inr h

end Dict

end ProcessorFuzz.Library
