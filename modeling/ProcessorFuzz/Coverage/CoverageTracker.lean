import Mathlib.Algebra.Order.Field.Rat
import Mathlib.Data.Finset.Dedup
import Mathlib.Data.Finset.Union
import Mathlib.Data.List.Flatten
import Mathlib.Tactic.FieldSimp
import Mathlib.Tactic.Positivity
import ProcessorFuzz.Library.Dict

/-!
# The coverage score

The tracker merges the reports of the simulations and of the workers. It keeps an address only if it
was accessed, so that the denominator of its score counts the same addresses as the numerator.
-/

namespace ProcessorFuzz.Coverage

open Library

/-- `CoverageTracker`, with the contents of `global_coverage.json`. -/
structure CoverageTracker (α : Type) where
  multicore : Bool
  coverageDb : Dict α Bool
  globalCoverage : Option (Dict α Bool)

/-- A call of the tracker. A worker's report is absent if it has not written its file. -/
inductive CoverageCall (α : Type)
  | updateFromRtl (rtlCoverage : Dict α Bool)
  | aggregateMulticore (workerCov : Option (Dict α Bool))

namespace CoverageTracker

variable {α : Type} [DecidableEq α]

def init (multicore : Bool) : CoverageTracker α := ⟨multicore, Dict.empty, none⟩

/-- An iteration of `update_from_rtl`. -/
def mergeEntry (db : Dict α Bool) (entry : α × Bool) : Dict α Bool :=
  if entry.2 then db.set entry.1 true else db

def updateFromRtl (rtlCoverage : Dict α Bool) (t : CoverageTracker α) : CoverageTracker α :=
  { t with coverageDb := rtlCoverage.entries.foldl mergeEntry t.coverageDb }

def aggregateMulticore (workerCov : Option (Dict α Bool)) (t : CoverageTracker α) :
    CoverageTracker α :=
  if t.multicore then
    match workerCov with
    | none => t
    | some cov =>
      let t := t.updateFromRtl cov
      { t with globalCoverage := some t.coverageDb }
  else t

/-- `get_coverage_score`, with exact division. -/
def getCoverageScore (t : CoverageTracker α) : ℚ :=
  let totalTracked := t.coverageDb.values.length
  if totalTracked = 0 then 0
  else (t.coverageDb.values.filter id).length / totalTracked * 100

def call (t : CoverageTracker α) : CoverageCall α → CoverageTracker α
  | .updateFromRtl rtlCoverage => t.updateFromRtl rtlCoverage
  | .aggregateMulticore workerCov => t.aggregateMulticore workerCov

def run (multicore : Bool) (calls : List (CoverageCall α)) : CoverageTracker α :=
  calls.foldl call (init multicore)

end CoverageTracker

namespace CoverageCall

variable {α : Type} [DecidableEq α]

/-- What a call reports. A worker's report counts if the tracker is used for several workers. -/
def report (multicore : Bool) : CoverageCall α → List (α × Bool)
  | .updateFromRtl rtlCoverage => rtlCoverage.entries
  | .aggregateMulticore workerCov =>
    if multicore then (workerCov.map Dict.entries).getD [] else []

/-- The addresses that were reported. -/
def reported (multicore : Bool) (calls : List (CoverageCall α)) : Finset α :=
  ((calls.flatMap (report multicore)).map Prod.fst).toFinset

/-- The addresses that were reported as accessed. -/
def accessed (multicore : Bool) (calls : List (CoverageCall α)) : Finset α :=
  (((calls.flatMap (report multicore)).filter Prod.snd).map Prod.fst).toFinset

/-- The percentage of the reported addresses that were accessed. -/
def coverage (multicore : Bool) (calls : List (CoverageCall α)) : ℚ :=
  100 * ((accessed multicore calls).card / (reported multicore calls).card)

theorem mem_reported {multicore : Bool} {calls : List (CoverageCall α)} {addr : α} :
    addr ∈ reported multicore calls ↔
      ∃ entry ∈ calls.flatMap (report multicore), entry.1 = addr := by
  rw [reported, List.mem_toFinset, List.mem_map]

theorem mem_accessed {multicore : Bool} {calls : List (CoverageCall α)} {addr : α} :
    addr ∈ accessed multicore calls ↔
      ∃ entry ∈ calls.flatMap (report multicore), entry.2 = true ∧ entry.1 = addr := by
  rw [accessed, List.mem_toFinset, List.mem_map]
  simp only [List.mem_filter, and_assoc]

theorem accessed_subset (multicore : Bool) (calls : List (CoverageCall α)) :
    accessed multicore calls ⊆ reported multicore calls := by
  intro addr haddr
  obtain ⟨entry, hentry, -, heq⟩ := mem_accessed.mp haddr
  exact mem_reported.mpr ⟨entry, hentry, heq⟩

/-- The order of the calls does not matter. -/
theorem accessed_perm {multicore : Bool} {calls calls' : List (CoverageCall α)}
    (h : calls'.Perm calls) : accessed multicore calls' = accessed multicore calls := by
  ext addr
  simp only [mem_accessed, List.mem_flatMap, h.mem_iff]

/-- The percentage is zero or one hundred only in the extreme cases. -/
theorem coverage_eq_iff (multicore : Bool) (calls : List (CoverageCall α)) :
    (if accessed multicore calls = ∅ then 0 else 100) = coverage multicore calls ↔
      accessed multicore calls = ∅ ∨ accessed multicore calls = reported multicore calls := by
  unfold coverage
  split
  · next hempty => simp [hempty]
  · next hne =>
    have hcard : 0 < (accessed multicore calls).card := Finset.card_pos.mpr
      (Finset.nonempty_iff_ne_empty.mpr hne)
    have hle := Finset.card_le_card (accessed_subset multicore calls)
    have hpos : (0 : ℚ) < (reported multicore calls).card := by
      exact_mod_cast hcard.trans_le hle
    rw [or_iff_right hne]
    constructor
    · intro heq
      have hratio : ((accessed multicore calls).card : ℚ) = (reported multicore calls).card := by
        field_simp at heq
        exact heq.symm
      exact Finset.eq_of_subset_of_card_le (accessed_subset multicore calls)
        (by exact_mod_cast hratio.ge)
    · intro heq
      rw [heq, div_self hpos.ne', mul_one]

end CoverageCall

namespace CoverageTracker

open CoverageCall

variable {α : Type} [DecidableEq α]

theorem mem_keys_foldl_mergeEntry {entries : List (α × Bool)} {db : Dict α Bool} {addr : α} :
    addr ∈ (entries.foldl mergeEntry db).keys ↔
      addr ∈ db.keys ∨ ∃ entry ∈ entries, entry.2 = true ∧ entry.1 = addr := by
  induction entries generalizing db with
  | nil => simp
  | cons entry entries ih =>
    rw [List.foldl_cons, ih, mergeEntry]
    split
    · next haccessed =>
      rw [Dict.mem_keys_set]
      simp only [List.mem_cons, exists_eq_or_imp, haccessed, true_and]
      rw [eq_comm, or_comm (a := entry.1 = addr), or_assoc]
    · next haccessed => simp [haccessed]

theorem forall_values_foldl_mergeEntry {entries : List (α × Bool)} {db : Dict α Bool}
    (h : ∀ accessed ∈ db.values, accessed = true) :
    ∀ accessed ∈ (entries.foldl mergeEntry db).values, accessed = true := by
  induction entries generalizing db with
  | nil => exact h
  | cons entry entries ih =>
    apply ih
    intro accessed haccessed
    unfold mergeEntry at haccessed
    split at haccessed
    · rcases Dict.mem_values_set haccessed with heq | hmem
      · exact heq
      · exact h accessed hmem
    · exact h accessed haccessed

/-- A call merges its report. -/
theorem coverageDb_call (t : CoverageTracker α) (c : CoverageCall α) :
    (t.call c).multicore = t.multicore ∧
      (t.call c).coverageDb = (report t.multicore c).foldl mergeEntry t.coverageDb := by
  cases c with
  | updateFromRtl rtlCoverage => exact ⟨rfl, rfl⟩
  | aggregateMulticore workerCov =>
    obtain ⟨multicore, db, globalCoverage⟩ := t
    cases multicore <;> cases workerCov <;> exact ⟨rfl, rfl⟩

theorem coverageDb_run (multicore : Bool) (calls : List (CoverageCall α)) :
    (run multicore calls).multicore = multicore ∧ (run multicore calls).coverageDb =
      (calls.flatMap (report multicore)).foldl mergeEntry Dict.empty := by
  induction calls using List.reverseRecOn with
  | nil => exact ⟨rfl, rfl⟩
  | append_singleton calls c ih =>
    obtain ⟨hmulticore, hdb⟩ := ih
    have hrun : run multicore (calls ++ [c]) = (run multicore calls).call c := by
      unfold run
      rw [List.foldl_concat]
    obtain ⟨hcall, hcallDb⟩ := coverageDb_call (run multicore calls) c
    rw [hmulticore] at hcallDb
    rw [hrun, List.flatMap_append, List.foldl_append, ← hdb, List.flatMap_singleton]
    exact ⟨hcall.trans hmulticore, hcallDb⟩

theorem toFinset_keys_run (multicore : Bool) (calls : List (CoverageCall α)) :
    (run multicore calls).coverageDb.keys.toFinset = accessed multicore calls := by
  ext addr
  rw [List.mem_toFinset, (coverageDb_run multicore calls).2, mem_keys_foldl_mergeEntry, mem_accessed,
    Dict.keys_empty]
  simp

/-- The score tells only whether an address was accessed at all. -/
theorem getCoverageScore_run (multicore : Bool) (calls : List (CoverageCall α)) :
    (run multicore calls).getCoverageScore =
      if accessed multicore calls = ∅ then 0 else 100 := by
  have hvalues : ∀ a ∈ (run multicore calls).coverageDb.values, id a = true := by
    rw [(coverageDb_run multicore calls).2]
    exact forall_values_foldl_mergeEntry nofun
  have hlength : (run multicore calls).coverageDb.values.length =
      (run multicore calls).coverageDb.keys.length := by
    rw [Dict.values, Dict.keys, List.length_map, List.length_map]
  have hempty : accessed multicore calls = ∅ ↔
      (run multicore calls).coverageDb.keys.length = 0 := by
    rw [← toFinset_keys_run, List.toFinset_eq_empty_iff, List.length_eq_zero_iff]
  unfold getCoverageScore
  dsimp only
  rw [List.filter_eq_self.mpr hvalues, hlength]
  split
  · next hzero => rw [if_pos (hempty.mpr hzero)]
  · next hne =>
    have hcast : ((run multicore calls).coverageDb.keys.length : ℚ) ≠ 0 := by exact_mod_cast hne
    rw [if_neg fun h ↦ hne (hempty.mp h), div_self hcast, one_mul]

/-- The score is the percentage of the reported addresses that were accessed, it does not depend on
the order of the calls, and a report on known addresses does not lower it. -/
structure Correct (multicore : Bool) (calls : List (CoverageCall α)) : Prop where
  exact : (run multicore calls).getCoverageScore = coverage multicore calls
  order : ∀ calls', calls'.Perm calls →
    (run multicore calls').getCoverageScore = (run multicore calls).getCoverageScore
  mono : ∀ rtlCoverage : Dict α Bool, (∀ addr ∈ rtlCoverage.keys, addr ∈ reported multicore calls) →
    (run multicore calls).getCoverageScore ≤
      (run multicore (calls ++ [.updateFromRtl rtlCoverage])).getCoverageScore

theorem order_of_run {multicore : Bool} {calls calls' : List (CoverageCall α)}
    (h : calls'.Perm calls) :
    (run multicore calls').getCoverageScore = (run multicore calls).getCoverageScore := by
  rw [getCoverageScore_run, getCoverageScore_run, accessed_perm h]

/-- No call lowers the score. -/
theorem mono_of_run (multicore : Bool) (calls : List (CoverageCall α)) (c : CoverageCall α) :
    (run multicore calls).getCoverageScore ≤ (run multicore (calls ++ [c])).getCoverageScore := by
  have hsub : accessed multicore calls ⊆ accessed multicore (calls ++ [c]) := by
    intro addr haddr
    obtain ⟨entry, hentry, hrest⟩ := mem_accessed.mp haddr
    rw [mem_accessed, List.flatMap_append]
    exact ⟨entry, List.mem_append_left _ hentry, hrest⟩
  rw [getCoverageScore_run, getCoverageScore_run]
  split
  · split <;> norm_num
  · next hne =>
    rw [if_neg]
    intro hempty
    rw [hempty] at hsub
    exact hne (Finset.subset_empty.mp hsub)

/-- The score is correct if and only if none or all of the reported addresses were accessed. -/
theorem correct_iff (multicore : Bool) (calls : List (CoverageCall α)) :
    Correct multicore calls ↔
      accessed multicore calls = ∅ ∨ accessed multicore calls = reported multicore calls := by
  rw [← coverage_eq_iff, ← getCoverageScore_run]
  constructor
  · exact fun h ↦ h.exact
  · intro hexact
    exact ⟨hexact, fun _ h ↦ order_of_run h, fun _ _ ↦ mono_of_run multicore calls _⟩

/-- One of two addresses was accessed. -/
theorem not_correct_halfAccessed :
    ¬Correct false [.updateFromRtl (Dict.ofList [(0x300, true), (0x301, false)])] := by
  intro h
  have hexact := h.exact
  rw [getCoverageScore_run, coverage_eq_iff] at hexact
  revert hexact
  decide

end CoverageTracker

end ProcessorFuzz.Coverage
