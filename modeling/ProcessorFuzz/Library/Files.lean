import ProcessorFuzz.Library.Dict
import ProcessorFuzz.Library.Python
import ProcessorFuzz.Library.Text

/-!
# A file system

Files by their paths. Directories are not kept: a path is created when it is written, and its
slashes matter only to `glob`, whose star stands for a text without them. Each operation is
described by the lookups that can be made after it.
-/

namespace ProcessorFuzz.Library

/-- The contents of the files. -/
abbrev FileSystem := Dict Text Text

namespace FileSystem

variable {files files' : FileSystem} {path other stem : Text} {paths : List Text}

/-- `open(path, 'r').read()` -/
def read (files : FileSystem) (path : Text) : Except PyError Text :=
  match files.get? path with
  | none => .error .fileNotFoundError
  | some contents => .ok contents

/-- `os.remove` -/
def remove (files : FileSystem) (path : Text) : Except PyError FileSystem := do
  let _ ← files.read path
  .ok (files.erase path)

/-- `shutil.copy` -/
def copy (files : FileSystem) (source target : Text) : Except PyError FileSystem := do
  let contents ← files.read source
  .ok (files.set target contents)

/-- A loop of `os.remove`. -/
def removeAll (files : FileSystem) (paths : List Text) : Except PyError FileSystem :=
  paths.foldlM remove files

/-- The path is found by the pattern `stem + '*'`. -/
def Matches (stem path : Text) : Prop := stem <+: path ∧ '/' ∉ path.drop stem.length

instance (stem path : Text) : Decidable (Matches stem path) :=
  inferInstanceAs (Decidable (_ ∧ _))

theorem matches_append {rest : Text} (h : '/' ∉ rest) : Matches stem (stem ++ rest) := by
  refine ⟨List.prefix_append stem rest, ?_⟩
  rwa [List.drop_left]

/-- `glob.glob(stem + '*')` -/
def glob (files : FileSystem) (stem : Text) : List Text :=
  files.keys.filter fun path ↦ Matches stem path

theorem read_eq_ok {contents : Text} :
    files.read path = .ok contents ↔ files.get? path = some contents := by
  unfold read
  cases files.get? path with
  | none => exact ⟨nofun, nofun⟩
  | some contents' => exact ⟨fun h ↦ congrArg some (Except.ok.inj h),
      fun h ↦ congrArg Except.ok (Option.some.inj h)⟩

theorem exists_read_eq_ok : (∃ contents, files.read path = .ok contents) ↔ path ∈ files.keys := by
  rw [← Dict.isSome_get?_iff, Option.isSome_iff_exists]
  exact exists_congr fun contents ↦ read_eq_ok

theorem remove_eq_ok :
    files.remove path = .ok files' ↔ path ∈ files.keys ∧ files' = files.erase path := by
  rw [remove, bind_eq_ok, ← exists_read_eq_ok]
  constructor
  · rintro ⟨contents, hread, h⟩
    exact ⟨⟨contents, hread⟩, (Except.ok.inj h).symm⟩
  · rintro ⟨⟨contents, hread⟩, rfl⟩
    exact ⟨contents, hread, rfl⟩

theorem copy_eq_ok {source target : Text} : files.copy source target = .ok files' ↔
    ∃ contents, files.get? source = some contents ∧ files' = files.set target contents := by
  rw [copy, bind_eq_ok]
  exact exists_congr fun contents ↦ and_congr read_eq_ok
    ⟨fun h ↦ (Except.ok.inj h).symm, fun h ↦ congrArg Except.ok h.symm⟩

/-- Several files are removed one after another, each of which has to be there. -/
theorem get?_removeAll (h : files.removeAll paths = .ok files') (other : Text) :
    files'.get? other = if other ∈ paths then none else files.get? other := by
  induction paths generalizing files with
  | nil =>
    obtain rfl := Except.ok.inj h
    rfl
  | cons path paths ih =>
    rw [removeAll, List.foldlM_cons] at h
    obtain ⟨files₁, hremove, h⟩ := bind_eq_ok.mp h
    obtain ⟨-, rfl⟩ := remove_eq_ok.mp hremove
    rw [ih h, Dict.get?_erase]
    by_cases hpath : other = path
    · simp [hpath]
    · simp [hpath]

/-- Different files that are there can be removed in any order. -/
theorem exists_removeAll_eq_ok (hnodup : paths.Nodup) (h : ∀ path ∈ paths, path ∈ files.keys) :
    ∃ files', files.removeAll paths = .ok files' := by
  induction paths generalizing files with
  | nil => exact ⟨files, rfl⟩
  | cons path paths ih =>
    obtain ⟨hpath, hpaths⟩ := List.nodup_cons.mp hnodup
    obtain ⟨hmem, hothers⟩ := List.forall_mem_cons.mp h
    have hleft : ∀ path' ∈ paths, path' ∈ (files.erase path).keys := fun path' hpath' ↦
      Dict.mem_keys_erase.mpr ⟨hothers path' hpath', fun heq ↦ hpath (heq ▸ hpath')⟩
    obtain ⟨files', hfiles⟩ := ih hpaths hleft
    refine ⟨files', ?_⟩
    rw [removeAll, List.foldlM_cons, remove_eq_ok.mpr ⟨hmem, rfl⟩]
    exact hfiles

theorem mem_glob : path ∈ files.glob stem ↔ path ∈ files.keys ∧ Matches stem path := by
  rw [glob, List.mem_filter, decide_eq_true_iff]

/-- What `glob` finds can be removed. -/
theorem exists_removeAll_glob (files : FileSystem) (stem : Text) :
    ∃ files', files.removeAll (files.glob stem) = .ok files' :=
  exists_removeAll_eq_ok (files.nodup_keys.filter _) fun _ h ↦ (mem_glob.mp h).1

theorem get?_removeAll_glob (h : files.removeAll (files.glob stem) = .ok files') (other : Text) :
    files'.get? other = if Matches stem other then none else files.get? other := by
  rw [get?_removeAll h]
  by_cases hstem : Matches stem other
  · by_cases hother : other ∈ files.keys
    · simp [mem_glob, hstem, hother]
    · simp [hstem, Dict.get?_eq_none_iff.mpr hother]
  · simp [mem_glob, hstem]

/-- These files are written and no others. -/
structure Writes (paths : List Text) (files files' : FileSystem) : Prop where
  mem_keys : ∀ path ∈ paths, path ∈ files'.keys
  get? : ∀ path ∉ paths, files'.get? path = files.get? path

namespace Writes

variable {files'' : FileSystem} {paths' : List Text}

theorem refl (files : FileSystem) : Writes [] files files := ⟨nofun, fun _ _ ↦ rfl⟩

theorem set (files : FileSystem) (path contents : Text) :
    Writes [path] files (files.set path contents) where
  mem_keys other h := by
    obtain rfl := List.mem_singleton.mp h
    exact Dict.mem_keys_set.mpr (.inl rfl)
  get? other h := Dict.get?_set_of_ne files contents fun heq ↦ h (List.mem_singleton.mpr heq)

theorem mem_keys_iff (h : Writes paths files files') (path : Text) :
    path ∈ files'.keys ↔ path ∈ files.keys ∨ path ∈ paths := by
  by_cases hpath : path ∈ paths
  · exact ⟨fun _ ↦ .inr hpath, fun _ ↦ h.mem_keys path hpath⟩
  · rw [← Dict.isSome_get?_iff, h.get? path hpath, Dict.isSome_get?_iff]
    exact (or_iff_left hpath).symm

theorem trans (h : Writes paths files files') (h' : Writes paths' files' files'') :
    Writes (paths ++ paths') files files'' where
  mem_keys path hpath := by
    rcases List.mem_append.mp hpath with hpath | hpath
    · exact (h'.mem_keys_iff path).mpr (.inl (h.mem_keys path hpath))
    · exact h'.mem_keys path hpath
  get? path hpath := by
    obtain ⟨hfirst, hsecond⟩ := not_or.mp (mt List.mem_append.mpr hpath)
    calc
      files''.get? path = files'.get? path := h'.get? path hsecond
      _ = files.get? path := h.get? path hfirst

end Writes

end FileSystem

end ProcessorFuzz.Library
