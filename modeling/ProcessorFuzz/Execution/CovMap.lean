import Mathlib.Algebra.Order.BigOperators.Group.List
import ProcessorFuzz.Library.CriticalSection
import ProcessorFuzz.Library.Reading

/-!
# Merging the coverage maps of the workers

Each worker leaves its coverage maps in a directory of its own, one file of characters `0` and `1`
for each instrumented module. `store_covmap` merges them into the common directory: it reads the
common map of each module if there is one, sets the bits that the worker has covered, writes the map
back and appends the number of set bits to the coverage log. The calls of all workers are guarded by
one semaphore.
-/

namespace ProcessorFuzz.Execution.CovMap

open Library Library.Interleaving

/-- The directories `out/covmap` and `out/covmap-XX`. -/
inductive Dir
  | covmap
  | worker (procNum : ℕ)
  deriving DecidableEq, Repr

structure Files where
  file : Dir → Text → Option Text
  covLog : Text

def Files.put (files : Files) (dir : Dir) (name contents : Text) : Files :=
  { files with
    file := Function.update files.file dir (Function.update (files.file dir) name (some contents)) }

inductive Call
  | getsize (dir : Dir) (name : Text)
  | isfile (dir : Dir) (name : Text)
  | readline (dir : Dir) (name : Text)
  | write (dir : Dir) (name contents : Text)
  | appendLog (line : Text)

abbrev Call.Result : Call → Type
  | getsize _ _ => ℕ
  | isfile _ _ => Bool
  | readline _ _ => Text
  | _ => Unit

/-- One call. The size of a file is in bytes; reading a file that does not exist raises. -/
def perform : (c : Call) → Files → Option (Except PyError (c.Result × Files))
  | .getsize dir name, files =>
    match files.file dir name with
    | none => some (.error .fileNotFoundError)
    | some contents => some (.ok ((contents.map Char.utf8Size).sum, files))
  | .isfile dir name, files => some (.ok ((files.file dir name).isSome, files))
  | .readline dir name, files =>
    match files.file dir name with
    | none => some (.error .fileNotFoundError)
    | some contents => some (.ok ((Text.readlines contents).head?.getD [], files))
  | .write dir name contents, files => some (.ok ((), files.put dir name contents))
  | .appendLog line, files => some (.ok ((), { files with covLog := files.covLog ++ line }))

abbrev Program := Code Call.Result

abbrev ask (c : Call) : Program c.Result := Code.ask c

/-- One call of `store_covmap`: the listing of the worker's directory comes in any order, and the
elapsed time is what `str` makes of it. -/
structure Job where
  procNum : ℕ
  covmaps : List Text
  elapsedTime : Text
  iter : ℕ

/-- `int(line[n])`; a single character is never a negative number. -/
def digitAt (line : Text) (n : ℕ) : Except PyError ℕ := do
  let c ← Text.item line n
  let value ← Text.int 10 [c]
  return value.toNat

/-- `cov_map[n] | int(line[n])` for the entry `bit` at position `n`. -/
def setBit (line : Text) (entry : ℕ × ℕ) : Except PyError ℕ := do
  let bit ← digitAt line entry.2
  return entry.1 ||| bit

/-- `cov_map` before the worker's map is added: zeros, or what the common map holds. -/
def readCommon (cov_file : Text) (size : ℕ) : Program (List ℕ) := do
  let known ← ask (.isfile .covmap cov_file)
  if known then do
    let line ← ask (.readline .covmap cov_file)
    Code.ofExcept ((List.range size).mapM (digitAt line))
  else
    return List.replicate size 0

/-- The body of the loop over the files of the worker. -/
def storeFile (procNum cov_sum : ℕ) (cov_file : Text) : Program ℕ := do
  let size ← ask (.getsize (.worker procNum) cov_file)
  let cov_map ← readCommon cov_file size
  let line ← ask (.readline (.worker procNum) cov_file)
  let cov_map ← Code.ofExcept (cov_map.zipIdx.mapM (setBit line))
  ask (.write .covmap cov_file (cov_map.flatMap Text.dec))
  return cov_sum + cov_map.sum

/-- The line that is appended to `cov_log`. -/
def logLine (job : Job) (cov_sum : ℕ) : Text :=
  Text.ljust 10 job.elapsedTime ++ '\t' :: Text.ljust 10 (Text.dec job.iter) ++
    '\t' :: Text.ljust 10 (Text.dec cov_sum) ++ ['\n']

/-- `store_covmap` between the `P` and the `V` of `covMap_sem`. -/
def storeCovmap (job : Job) : Program Unit := do
  let cov_sum ← job.covmaps.foldlM (storeFile job.procNum) 0
  ask (.appendLog (logLine job cov_sum))

/-- A line of the characters `0` and `1`. -/
def bitText (bits : List Bool) : Text := bits.map fun bit ↦ if bit then '1' else '0'

theorem isLineText_bitText (bits : List Bool) : Text.IsLineText (bitText bits) := by
  intro c hc
  obtain ⟨bit, -, rfl⟩ := List.mem_map.mp hc
  cases bit <;> decide

theorem readline_bitText (bits : List Bool) :
    (Text.readlines (bitText bits)).head?.getD [] = bitText bits := by
  have htranslate := Text.translateNewlines_append (isLineText_bitText bits) []
  have hlines := Text.linesFrom_append (isLineText_bitText bits) [] []
  rw [List.append_nil] at htranslate hlines
  rw [Text.readlines, htranslate, show Text.translateNewlines [] = [] from rfl, List.append_nil,
    hlines, List.nil_append]
  cases bits with
  | nil => rfl
  | cons bit bits => rfl

theorem utf8Size_bitText (bits : List Bool) :
    ((bitText bits).map Char.utf8Size).sum = bits.length := by
  induction bits with
  | nil => rfl
  | cons bit bits ih =>
    have hone : Char.utf8Size (if bit then '1' else '0') = 1 := by cases bit <;> rfl
    rw [bitText, List.map_cons, List.map_cons, List.sum_cons, hone, List.length_cons, Nat.add_comm]
    exact congrArg (· + 1) ih

theorem int_bit (bit : Bool) :
    Text.int 10 [if bit then '1' else '0'] = .ok (bit.toNat : ℤ) := by
  cases bit <;> rfl

theorem digitAt_bitText {bits : List Bool} {n : ℕ} {bit : Bool} (h : bits[n]? = some bit) :
    digitAt (bitText bits) n = .ok bit.toNat := by
  have hitem : Text.item (bitText bits) n = .ok (if bit then '1' else '0') := by
    apply Text.item_of_getElem?
    rw [bitText, List.getElem?_map, h, Option.map_some]
  rw [digitAt, hitem, ok_bind, int_bit, ok_bind]
  rfl

theorem flatMap_dec (bits : List Bool) :
    (bits.map Bool.toNat).flatMap Text.dec = bitText bits := by
  induction bits with
  | nil => rfl
  | cons bit bits ih =>
    rw [List.map_cons, List.flatMap_cons, ih]
    cases bit <;> rfl

theorem sum_toNat (bits : List Bool) : (bits.map Bool.toNat).sum = bits.count true := by
  induction bits with
  | nil => rfl
  | cons bit bits ih =>
    rw [List.map_cons, List.sum_cons, ih, List.count_cons]
    cases bit <;> simp [Nat.add_comm]

/-- The bitwise or of two maps. -/
def orBits (g m : List Bool) : List Bool := List.zipWith (· || ·) g m

theorem getElem?_orBits {g m : List Bool} (h : g.length = m.length) (n : ℕ) :
    (orBits g m)[n]? = if n < m.length then some (g[n]?.getD false || m[n]?.getD false) else none := by
  rw [orBits, List.getElem?_zipWith]
  by_cases hn : n < m.length
  · rw [List.getElem?_eq_getElem (h ▸ hn), List.getElem?_eq_getElem hn, if_pos hn]
    rfl
  · rw [if_neg hn, List.getElem?_eq_none (by omega)]

theorem toNat_or (a b : Bool) : a.toNat ||| b.toNat = (a || b).toNat := by cases a <;> cases b <;> rfl

/-- The first loop reads the common map. -/
theorem mapM_digitAt (g : List Bool) :
    (List.range g.length).mapM (digitAt (bitText g)) = .ok (g.map Bool.toNat) := by
  have hread : ∀ n ∈ List.range g.length,
      digitAt (bitText g) n = .ok (g[n]?.getD false).toNat := by
    intro n hn
    rw [List.mem_range] at hn
    rw [digitAt_bitText (List.getElem?_eq_getElem hn), List.getElem?_eq_getElem hn]
    rfl
  rw [mapM_eq_ok hread]
  congr 1
  apply List.ext_getElem (by simp)
  intro n h₁ h₂
  have hn : n < g.length := by simpa using h₂
  simp [hn]

/-- The second loop sets the bits of the worker. -/
theorem mapM_setBits {g m : List Bool} (h : g.length = m.length) :
    (g.map Bool.toNat).zipIdx.mapM (setBit (bitText m)) =
      .ok ((orBits g m).map Bool.toNat) := by
  have hread : ∀ entry ∈ (g.map Bool.toNat).zipIdx,
      setBit (bitText m) entry = .ok (entry.1 ||| (m[entry.2]?.getD false).toNat) := by
    rintro ⟨bit, n⟩ hentry
    obtain ⟨-, hn, -⟩ := List.mem_zipIdx hentry
    have hnm : n < m.length := by simpa [h] using hn
    rw [setBit, digitAt_bitText (List.getElem?_eq_getElem hnm), List.getElem?_eq_getElem hnm]
    rfl
  rw [mapM_eq_ok hread]
  congr 1
  apply List.ext_getElem? fun n ↦ ?_
  rw [List.getElem?_map, List.getElem?_zipIdx, List.getElem?_map, List.getElem?_map,
    getElem?_orBits h]
  by_cases hn : n < m.length
  · rw [List.getElem?_eq_getElem (h ▸ hn), if_pos hn]
    simp [toNat_or]
  · rw [List.getElem?_eq_none (by omega), if_neg hn]
    rfl

/-- The common map of a module after a worker's map has been stored. -/
def merge (common : Option (List Bool)) (m : List Bool) : List Bool :=
  orBits (common.getD (List.replicate m.length false)) m

theorem readCommon_alone {name : Text} {files : Files} {common : Option (List Bool)} {size : ℕ}
    (hcommon : files.file .covmap name = common.map bitText)
    (hlength : ∀ g ∈ common, g.length = size) :
    (readCommon name size).alone perform files =
      some (.ok ((common.getD (List.replicate size false)).map Bool.toNat, files)) := by
  have hisfile : perform (.isfile .covmap name) files = some (.ok (common.isSome, files)) := by
    simp only [perform, hcommon, Option.isSome_map]
  refine Code.alone_bind_eq_ok.mpr ⟨common.isSome, files, Code.alone_ask_eq_ok.mpr hisfile, ?_⟩
  cases common with
  | none => simp [Code.alone]
  | some g =>
    have hline : perform (.readline .covmap name) files = some (.ok (bitText g, files)) := by
      simp only [perform, hcommon, Option.map_some, readline_bitText]
    rw [Option.isSome_some, if_pos rfl]
    refine Code.alone_bind_eq_ok.mpr ⟨bitText g, files, Code.alone_ask_eq_ok.mpr hline, ?_⟩
    rw [← hlength g rfl, mapM_digitAt]
    rfl

theorem storeFile_alone (cov_sum : ℕ) {procNum : ℕ} {name : Text} {files : Files}
    {common : Option (List Bool)} {m : List Bool}
    (hworker : files.file (.worker procNum) name = some (bitText m))
    (hcommon : files.file .covmap name = common.map bitText)
    (hlength : ∀ g ∈ common, g.length = m.length) :
    (storeFile procNum cov_sum name).alone perform files =
      some (.ok (cov_sum + (merge common m).count true,
        files.put .covmap name (bitText (merge common m)))) := by
  have hsize : perform (.getsize (.worker procNum) name) files = some (.ok (m.length, files)) := by
    simp only [perform, hworker, utf8Size_bitText]
  have hline : perform (.readline (.worker procNum) name) files =
      some (.ok (bitText m, files)) := by
    simp only [perform, hworker, readline_bitText]
  have hg : (common.getD (List.replicate m.length false)).length = m.length := by
    cases common with
    | none => exact List.length_replicate
    | some g => exact hlength g rfl
  refine Code.alone_bind_eq_ok.mpr ⟨m.length, files, Code.alone_ask_eq_ok.mpr hsize, ?_⟩
  refine Code.alone_bind_eq_ok.mpr ⟨_, files, readCommon_alone hcommon hlength, ?_⟩
  refine Code.alone_bind_eq_ok.mpr ⟨bitText m, files, Code.alone_ask_eq_ok.mpr hline, ?_⟩
  rw [mapM_setBits hg, Code.ofExcept_ok, Code.ret_bind, flatMap_dec, sum_toNat]
  rfl

/-- The coverage maps of the workers: the same files, each of the same length everywhere. -/
structure Maps where
  names : List Text
  size : Text → ℕ
  bits : ℕ → Text → List Bool
  nodup : names.Nodup
  length : ∀ p, ∀ name ∈ names, (bits p name).length = size name

namespace Maps

variable (maps : Maps)

/-- The bitwise or of the maps of several workers. -/
def union (procs : List ℕ) (name : Text) : List Bool :=
  (List.range (maps.size name)).map fun n ↦ procs.any fun p ↦ (maps.bits p name)[n]?.getD false

/-- The common map; it does not exist before the first call. -/
def common (procs : List ℕ) (name : Text) : Option (List Bool) :=
  if procs = [] then none else some (maps.union procs name)

/-- The number of covered bits. -/
def covered (procs : List ℕ) : ℕ :=
  (maps.names.map fun name ↦ (maps.union procs name).count true).sum

/-- The coverage sums that a list of calls logs. -/
def sums (procs : List ℕ) : List ℕ :=
  (List.range procs.length).map fun k ↦ maps.covered (procs.take (k + 1))

theorem length_union (procs : List ℕ) (name : Text) :
    (maps.union procs name).length = maps.size name := by simp [union]

theorem getElem?_union (procs : List ℕ) {name : Text} {n : ℕ} (hn : n < maps.size name) :
    (maps.union procs name)[n]? = some (procs.any fun p ↦ (maps.bits p name)[n]?.getD false) := by
  rw [union, List.getElem?_map, List.getElem?_range hn]
  rfl

/-- Storing one more map adds it to the union. -/
theorem merge_common (procs : List ℕ) (p : ℕ) {name : Text} (hname : name ∈ maps.names) :
    merge (maps.common procs name) (maps.bits p name) = maps.union (procs ++ [p]) name := by
  have hlength := maps.length p name hname
  have hcommon : (maps.common procs name).getD (List.replicate (maps.bits p name).length false) =
      maps.union procs name := by
    by_cases hprocs : procs = []
    · subst hprocs
      rw [common, if_pos rfl, Option.getD_none, hlength]
      simp [union, List.map_const']
    · rw [common, if_neg hprocs, Option.getD_some]
  rw [merge, hcommon]
  apply List.ext_getElem?
  intro n
  rw [getElem?_orBits ((maps.length_union procs name).trans hlength.symm)]
  by_cases hn : n < maps.size name
  · rw [if_pos (hlength ▸ hn), getElem?_union maps _ hn, getElem?_union maps _ hn,
      Option.getD_some, List.any_append]
    simp
  · rw [if_neg (by omega), List.getElem?_eq_none (by rw [length_union]; omega)]

theorem sums_concat (procs : List ℕ) (p : ℕ) :
    maps.sums (procs ++ [p]) = maps.sums procs ++ [maps.covered (procs ++ [p])] := by
  rw [sums, List.length_append, List.length_singleton, List.range_succ, List.map_append]
  congr 1
  · apply List.map_congr_left
    intro k hk
    rw [List.mem_range] at hk
    rw [List.take_append_of_le_length (by omega)]
  · rw [List.map_singleton, List.take_of_length_le (by simp)]

end Maps

/-- The files after some calls that began with `files₀`. -/
structure Stored (maps : Maps) (files₀ : Files) (calls : List Job) (files : Files) : Prop where
  worker : ∀ p, ∀ name ∈ maps.names,
    files.file (.worker p) name = some (bitText (maps.bits p name))
  common : ∀ name ∈ maps.names,
    files.file .covmap name = (maps.common (calls.map Job.procNum) name).map bitText
  others : ∀ name, name ∉ maps.names → files.file .covmap name = files₀.file .covmap name
  log : files.covLog = files₀.covLog ++
    (List.zipWith logLine calls (maps.sums (calls.map Job.procNum))).flatten

/-- The files within a call of worker `p` that has stored the maps `before`. -/
structure Storing (maps : Maps) (files₀ : Files) (calls : List Job) (p : ℕ) (before : List Text)
    (cov_sum : ℕ) (files : Files) : Prop where
  worker : ∀ p, ∀ name ∈ maps.names,
    files.file (.worker p) name = some (bitText (maps.bits p name))
  done : ∀ name ∈ before,
    files.file .covmap name = some (bitText (maps.union (calls.map Job.procNum ++ [p]) name))
  todo : ∀ name ∈ maps.names, name ∉ before →
    files.file .covmap name = (maps.common (calls.map Job.procNum) name).map bitText
  others : ∀ name, name ∉ maps.names → files.file .covmap name = files₀.file .covmap name
  log : files.covLog = files₀.covLog ++
    (List.zipWith logLine calls (maps.sums (calls.map Job.procNum))).flatten
  sum : cov_sum =
    (before.map fun name ↦ (maps.union (calls.map Job.procNum ++ [p]) name).count true).sum

theorem Files.put_file_self (files : Files) (dir : Dir) (name contents : Text) :
    (files.put dir name contents).file dir name = some contents := by
  simp [put]

theorem Files.put_file_of_ne (files : Files) {dir dir' : Dir} {name name' : Text}
    (contents : Text) (h : dir' ≠ dir ∨ name' ≠ name) :
    (files.put dir name contents).file dir' name' = files.file dir' name' := by
  by_cases hdir : dir' = dir
  · subst hdir
    have hname := h.resolve_left fun hne ↦ hne rfl
    simp [put, hname]
  · simp [put, hdir]

variable {maps : Maps} {files₀ files : Files} {calls : List Job}

theorem Storing.step {p : ℕ} {before after : List Text} {name : Text} {cov_sum : ℕ}
    (h : Storing maps files₀ calls p before cov_sum files)
    (hlisting : (before ++ name :: after).Perm maps.names) :
    ∃ cov_sum' files', (storeFile p cov_sum name).alone perform files =
        some (.ok (cov_sum', files')) ∧
      Storing maps files₀ calls p (before ++ [name]) cov_sum' files' := by
  have hname : name ∈ maps.names := hlisting.mem_iff.mp (by simp)
  have hfresh : name ∉ before := by
    have hnodup := hlisting.nodup_iff.mpr maps.nodup
    have hdisjoint := (List.nodup_append.mp hnodup).2.2
    exact fun hmem ↦ hdisjoint name hmem name List.mem_cons_self rfl
  have hlength : ∀ g ∈ maps.common (calls.map Job.procNum) name,
      g.length = (maps.bits p name).length := by
    intro g hg
    rw [Maps.common] at hg
    split at hg
    · exact nomatch hg
    · rw [← Option.some.inj hg, Maps.length_union, maps.length p name hname]
  have halone := storeFile_alone cov_sum (h.worker p name hname)
    (h.todo name hname hfresh) hlength
  rw [maps.merge_common _ p hname] at halone
  refine ⟨_, _, halone, ?_, ?_, ?_, ?_, h.log, ?_⟩
  · intro q name' hname'
    rw [Files.put_file_of_ne _ _ (Or.inl (by simp))]
    exact h.worker q name' hname'
  · intro name' hname'
    by_cases heq : name' = name
    · rw [heq, Files.put_file_self]
    · rw [Files.put_file_of_ne _ _ (Or.inr heq)]
      have hbefore : name' ∈ before := by simpa [heq] using hname'
      exact h.done name' hbefore
  · intro name' hname' hnot
    have hne : name' ≠ name := fun heq ↦ hnot (by simp [heq])
    rw [Files.put_file_of_ne _ _ (Or.inr hne)]
    exact h.todo name' hname' fun hmem ↦ hnot (List.mem_append_left _ hmem)
  · intro name' hname'
    have hne : name' ≠ name := fun heq ↦ hname' (heq ▸ hname)
    rw [Files.put_file_of_ne _ _ (Or.inr hne)]
    exact h.others name' hname'
  · rw [List.map_append, List.sum_append, ← h.sum]
    simp

/-- One call joins the maps of its worker to the common maps. -/
theorem Stored.step (h : Stored maps files₀ calls files) {job : Job}
    (hlisting : job.covmaps.Perm maps.names) :
    ∃ files', (storeCovmap job).alone perform files = some (.ok ((), files')) ∧
      Stored maps files₀ (calls ++ [job]) files' := by
  have hbegin : Storing maps files₀ calls job.procNum [] 0 files :=
    ⟨h.worker, fun _ hmem ↦ absurd hmem List.not_mem_nil, fun name hname _ ↦ h.common name hname,
      h.others, h.log, rfl⟩
  obtain ⟨cov_sum, files₁, hloop, hend⟩ := Code.alone_foldlM
    (R := fun before cov_sum files ↦ Storing maps files₀ calls job.procNum before cov_sum files)
    (f := storeFile job.procNum) (l := job.covmaps)
    (fun before name after cov_sum files hsplit hstoring ↦
      hstoring.step (hsplit ▸ hlisting)) hbegin
  have hprocs : (calls ++ [job]).map Job.procNum = calls.map Job.procNum ++ [job.procNum] := by
    simp
  have hcovered : cov_sum = maps.covered (calls.map Job.procNum ++ [job.procNum]) := by
    rw [hend.sum]
    exact (hlisting.map _).sum_eq
  refine ⟨_, Code.alone_bind_eq_ok.mpr ⟨cov_sum, files₁, hloop, rfl⟩, hend.worker, ?_, hend.others,
    ?_⟩
  · intro name hname
    rw [hprocs, Maps.common, if_neg (by simp)]
    exact hend.done name (hlisting.mem_iff.mpr hname)
  · show files₁.covLog ++ logLine job cov_sum = _
    have hzip : List.zipWith logLine (calls ++ [job])
        (maps.sums (calls.map Job.procNum ++ [job.procNum])) =
        List.zipWith logLine calls (maps.sums (calls.map Job.procNum)) ++
          [logLine job cov_sum] := by
      rw [Maps.sums_concat, List.zipWith_append (by simp [Maps.sums]), hcovered]
      rfl
    rw [hprocs, hzip, hend.log, List.flatten_append, List.append_assoc]
    simp

section Pool

variable {ι : Type} [DecidableEq ι]

/-- Nothing has been stored yet. -/
structure Fresh (maps : Maps) (files : Files) : Prop where
  worker : ∀ p, ∀ name ∈ maps.names,
    files.file (.worker p) name = some (bitText (maps.bits p name))
  common : ∀ name ∈ maps.names, files.file .covmap name = none

/-- A state that the workers reach, by any number of calls in any order, while no call is going
on. -/
def Reached (maps : Maps) (files : Files)
    (s : CriticalSection.Pool Call.Result Files Job ι) : Prop :=
  s.sem ≠ 0 ∧ ∃ (jobs : ι → List Job) (schedule : List ι),
    (∀ w, ∀ job ∈ jobs w, job.covmaps.Perm maps.names) ∧
      s = CriticalSection.run perform storeCovmap schedule
        (CriticalSection.start Call.Result files jobs)

/-- The workers whose maps have been stored, in order. -/
def stored (s : CriticalSection.Pool Call.Result Files Job ι) : List ℕ := s.log.map Job.procNum

/-- The text of a common map, empty while it does not exist. -/
def commonText (s : CriticalSection.Pool Call.Result Files Job ι) (name : Text) : Text :=
  (s.shared.file .covmap name).getD []

/-- `store_covmap` joins coverage maps. -/
structure Joins (maps : Maps) (files : Files) (ι : Type) [DecidableEq ι] : Prop where
  /-- Every common map is the bitwise or of the maps stored so far. -/
  union : ∀ s : CriticalSection.Pool Call.Result Files Job ι, Reached maps files s →
    ∀ name ∈ maps.names, stored s ≠ [] →
      commonText s name = bitText (maps.union (stored s) name)
  /-- The logged sums are the numbers of set bits after each call. -/
  log : ∀ s : CriticalSection.Pool Call.Result Files Job ι, Reached maps files s →
    s.shared.covLog = files.covLog ++
      (List.zipWith logLine s.log (maps.sums (stored s))).flatten ∧
    (maps.names.map fun name ↦ (commonText s name).count '1').sum = maps.covered (stored s) ∧
    (maps.sums (stored s)).Pairwise (· ≤ ·)
  /-- No set bit is cleared later. -/
  monotone : ∀ s s' : CriticalSection.Pool Call.Result Files Job ι, Reached maps files s →
    Reached maps files s' → s.log <+: s'.log → ∀ name ∈ maps.names, ∀ n : ℕ,
      (commonText s name)[n]? = some '1' → (commonText s' name)[n]? = some '1'
  order : ∀ s s' : CriticalSection.Pool Call.Result Files Job ι, Reached maps files s →
    Reached maps files s' → (stored s).Perm (stored s') →
      s.shared.file .covmap = s'.shared.file .covmap
  repeated : ∀ s s' : CriticalSection.Pool Call.Result Files Job ι, Reached maps files s →
    Reached maps files s' → ∀ job, s'.log = s.log ++ [job] → job.procNum ∈ stored s →
      s'.shared.file .covmap = s.shared.file .covmap

theorem Reached.stored {s : CriticalSection.Pool Call.Result Files Job ι}
    (hfresh : Fresh maps files) (h : Reached maps files s) :
    Stored maps files s.log s.shared := by
  obtain ⟨hsem, jobs, schedule, hjobs, hs⟩ := h
  have hserial : (forM s.log storeCovmap).alone perform files = some (.ok ((), s.shared)) := by
    rw [hs] at hsem ⊢
    exact CriticalSection.run_serial files jobs schedule hsem
  have hlistings : ∀ job ∈ s.log, job.covmaps.Perm maps.names := by
    rw [hs]
    exact CriticalSection.run_log_all files hjobs schedule
  have hbegin : Stored maps files [] files :=
    ⟨hfresh.worker, hfresh.common, fun _ _ ↦ rfl, (List.append_nil _).symm⟩
  obtain ⟨files', hrun, hend⟩ := Code.alone_forM (R := Stored maps files) (l := s.log)
    (f := storeCovmap)
    (fun before job after files' hsplit hstored ↦
      hstored.step (hlistings job (by rw [hsplit]; simp))) hbegin
  rw [hserial] at hrun
  obtain ⟨-, rfl⟩ := Prod.mk.inj (Except.ok.inj (Option.some.inj hrun))
  exact hend

/-- The common maps depend only on which maps have been stored. -/
theorem Maps.union_congr (maps : Maps) {procs procs' : List ℕ}
    (h : ∀ p, p ∈ procs ↔ p ∈ procs') (name : Text) :
    maps.union procs name = maps.union procs' name := by
  apply List.map_congr_left
  intro n _
  rw [Bool.eq_iff_iff, List.any_eq_true, List.any_eq_true]
  constructor
  · rintro ⟨p, hp, hbit⟩
    exact ⟨p, (h p).mp hp, hbit⟩
  · rintro ⟨p, hp, hbit⟩
    exact ⟨p, (h p).mpr hp, hbit⟩

theorem Maps.getElem?_union_mono (maps : Maps) {procs procs' : List ℕ} (h : procs ⊆ procs')
    {name : Text} {n : ℕ} (hbit : (maps.union procs name)[n]? = some true) :
    (maps.union procs' name)[n]? = some true := by
  have hn : n < maps.size name := by
    have hlength := (List.getElem?_eq_some_iff.mp hbit).1
    rwa [Maps.length_union] at hlength
  rw [maps.getElem?_union procs hn, Option.some.injEq, List.any_eq_true] at hbit
  rw [maps.getElem?_union procs' hn, Option.some.injEq, List.any_eq_true]
  obtain ⟨p, hp, hset⟩ := hbit
  exact ⟨p, h hp, hset⟩

theorem count_le_count {g m : List Bool} (hlength : g.length = m.length)
    (h : ∀ n : ℕ, g[n]? = some true → m[n]? = some true) : g.count true ≤ m.count true := by
  induction g generalizing m with
  | nil => exact Nat.zero_le _
  | cons a g ih =>
    cases m with
    | nil => exact nomatch hlength
    | cons b m =>
      have hrest : g.count true ≤ m.count true :=
        ih (Nat.succ.inj hlength) fun n hn ↦ by simpa using h (n + 1) (by simpa using hn)
      have hfirst : a = true → b = true := fun ha ↦ by simpa using h 0 (by simp [ha])
      rw [List.count_cons, List.count_cons]
      cases a with
      | false => exact Nat.add_le_add hrest (Nat.zero_le _)
      | true =>
        rw [hfirst rfl]
        exact Nat.add_le_add_right hrest _

/-- More stored maps cover more. -/
theorem Maps.covered_mono (maps : Maps) {procs procs' : List ℕ} (h : procs ⊆ procs') :
    maps.covered procs ≤ maps.covered procs' := by
  apply List.sum_le_sum
  intro name _
  apply count_le_count
  · rw [Maps.length_union, Maps.length_union]
  · exact fun n hn ↦ maps.getElem?_union_mono h hn

theorem Maps.pairwise_sums (maps : Maps) (procs : List ℕ) :
    (maps.sums procs).Pairwise (· ≤ ·) := by
  apply List.Pairwise.map
  · intro k l hkl
    exact maps.covered_mono (List.take_subset_take_left procs (Nat.succ_le_succ hkl))
  · exact List.pairwise_le_range

theorem count_bitText (bits : List Bool) : (bitText bits).count '1' = bits.count true := by
  induction bits with
  | nil => rfl
  | cons bit bits ih =>
    have hcons : bitText (bit :: bits) = (if bit then '1' else '0') :: bitText bits := rfl
    rw [hcons, List.count_cons, List.count_cons, ih]
    cases bit <;> rfl

theorem getElem?_bitText {bits : List Bool} {n : ℕ} :
    (bitText bits)[n]? = some '1' ↔ bits[n]? = some true := by
  rw [bitText, List.getElem?_map]
  cases bits[n]? with
  | none => simp
  | some bit => cases bit <;> simp

variable {s s' : CriticalSection.Pool Call.Result Files Job ι}

theorem Reached.commonText (hfresh : Fresh maps files) (h : Reached maps files s) {name : Text}
    (hname : name ∈ maps.names) (hne : CovMap.stored s ≠ []) :
    commonText s name = bitText (maps.union (CovMap.stored s) name) := by
  have hcommon : s.shared.file .covmap name =
      (maps.common (CovMap.stored s) name).map bitText := (h.stored hfresh).common name hname
  rw [CovMap.commonText, hcommon, Maps.common, if_neg hne]
  rfl

theorem Reached.commonText_eq_nil (hfresh : Fresh maps files) (h : Reached maps files s)
    {name : Text} (hname : name ∈ maps.names) (hempty : CovMap.stored s = []) :
    CovMap.commonText s name = [] := by
  have hcommon : s.shared.file .covmap name =
      (maps.common (CovMap.stored s) name).map bitText := (h.stored hfresh).common name hname
  rw [CovMap.commonText, hcommon, Maps.common, if_pos hempty]
  rfl

/-- Reached states with the same stored maps have the same common maps. -/
theorem Reached.covmap_eq (hfresh : Fresh maps files) (h : Reached maps files s)
    (h' : Reached maps files s') (hsame : ∀ p, p ∈ CovMap.stored s ↔ p ∈ CovMap.stored s') :
    s.shared.file .covmap = s'.shared.file .covmap := by
  have hempty : CovMap.stored s = [] ↔ CovMap.stored s' = [] := by
    rw [List.eq_nil_iff_forall_not_mem, List.eq_nil_iff_forall_not_mem]
    exact forall_congr' fun p ↦ not_congr (hsame p)
  funext name
  by_cases hname : name ∈ maps.names
  · have hcommon : maps.common (CovMap.stored s) name = maps.common (CovMap.stored s') name := by
      unfold Maps.common
      rw [maps.union_congr hsame]
      exact if_congr hempty rfl rfl
    calc
      s.shared.file .covmap name = (maps.common (CovMap.stored s) name).map bitText :=
        (h.stored hfresh).common name hname
      _ = (maps.common (CovMap.stored s') name).map bitText := by rw [hcommon]
      _ = s'.shared.file .covmap name := ((h'.stored hfresh).common name hname).symm
  · calc
      s.shared.file .covmap name = files.file .covmap name := (h.stored hfresh).others name hname
      _ = s'.shared.file .covmap name := ((h'.stored hfresh).others name hname).symm

theorem Reached.sum_count (hfresh : Fresh maps files) (h : Reached maps files s) :
    (maps.names.map fun name ↦ (CovMap.commonText s name).count '1').sum =
      maps.covered (CovMap.stored s) := by
  have hcount : ∀ name ∈ maps.names,
      (CovMap.commonText s name).count '1' = (maps.union (CovMap.stored s) name).count true := by
    intro name hname
    by_cases hne : CovMap.stored s = []
    · rw [h.commonText_eq_nil hfresh hname hne, hne]
      simp [Maps.union, List.count_replicate, List.map_const']
    · rw [h.commonText hfresh hname hne, count_bitText]
  exact congrArg List.sum (List.map_congr_left hcount)

/-- For any number of workers, whatever maps they have and in whatever order and however often they
call `store_covmap`. -/
theorem joins (ι : Type) [DecidableEq ι] {maps : Maps} {files : Files}
    (hfresh : Fresh maps files) : Joins maps files ι where
  union s h name hname hne := h.commonText hfresh hname hne
  log s h := ⟨(h.stored hfresh).log, h.sum_count hfresh, maps.pairwise_sums _⟩
  monotone s s' h h' hbegins name hname n hbit := by
    have hsubset : stored s ⊆ stored s' := List.map_subset _ hbegins.subset
    have hne : stored s ≠ [] := by
      intro hempty
      rw [h.commonText_eq_nil hfresh hname hempty] at hbit
      exact nomatch hbit
    have hne' : stored s' ≠ [] := fun hempty ↦
      hne (List.eq_nil_of_subset_nil (hempty ▸ hsubset))
    rw [h.commonText hfresh hname hne, getElem?_bitText] at hbit
    rw [h'.commonText hfresh hname hne', getElem?_bitText]
    exact maps.getElem?_union_mono hsubset hbit
  order s s' h h' hperm := h.covmap_eq hfresh h' fun p ↦ hperm.mem_iff
  repeated s s' h h' job hlog hmem := by
    refine h'.covmap_eq hfresh h fun p ↦ ?_
    have hstored : stored s' = stored s ++ [job.procNum] := by
      rw [stored, hlog, List.map_append]
      rfl
    rw [hstored, List.mem_append, List.mem_singleton]
    exact ⟨fun hp ↦ hp.elim id fun heq ↦ heq ▸ hmem, Or.inl⟩

/-- Worker 0 covers the first of two bits, worker 1 the second. -/
def twoMaps : Maps where
  names := ["Core".toList]
  size _ := 2
  bits p _ := [p == 0, p == 1]
  nodup := List.nodup_singleton _
  length _ _ _ := rfl

def twoFiles : Files where
  file
    | .covmap, _ => none
    | .worker p, name => some (bitText (twoMaps.bits p name))
  covLog := []

theorem joins_two : Fresh twoMaps twoFiles ∧ Joins twoMaps twoFiles (Fin 2) := by
  have hfresh : Fresh twoMaps twoFiles := ⟨fun _ _ _ ↦ rfl, fun _ _ ↦ rfl⟩
  exact ⟨hfresh, joins (Fin 2) hfresh⟩

/-- Both workers store their maps. -/
example : ((forM [⟨1, ["Core".toList], [], 5⟩, ⟨0, ["Core".toList], [], 9⟩] storeCovmap).alone
    perform twoFiles).map (fun r ↦ r.toOption.map fun r ↦ r.2.file .covmap "Core".toList) =
      some (some (some "11".toList)) := by decide

end Pool

end ProcessorFuzz.Execution.CovMap
