import Mathlib.Data.Fintype.BigOperators
import ProcessorFuzz.Common.SpikeTransitions
import ProcessorFuzz.Fuzzing.FuzzRuns

/-!
# The transitions of a run

A log that is scanned shows transitions, which depend on the log alone. The global lists hold the
transitions of all logs that were scanned, each once. A test goes to the RTL simulation exactly when
its log shows a transition that no log before it has shown.
-/

namespace ProcessorFuzz.Fuzzing

open Library Mutation Execution
open Common.Transitions
open Common.SpikeTransitions (transitionsOf changes_logText exists_change_iff mem_offered_iff)

variable {config : Config} {it : ℕ} {outcome : Outcome} {test : Test} {s s' : Session} {trns : ℕ}
  {fate : Fate}

/-- The lists that the scan keeps in its mode: the one of all registers, or the two of the eight. -/
def keptLists (allCsr : Bool) : Option Kind → Globals → List Entry
  | none, g => if allCsr then g.combT else []
  | some kind, g => if allCsr then [] else csrLists kind g

/-- The entries that a change offers to these lists. -/
def offered (fpCsr : Bool) (change : Change) : Option Kind → List Entry
  | none => offeredAll change ()
  | some kind => offeredCsrs fpCsr change kind

/-- The number of transitions that are known. -/
def known (allCsr : Bool) (g : Globals) : ℕ :=
  if allCsr then g.combT.length else g.combPriv.length + g.combFunc.length

theorem size_keptLists (allCsr : Bool) (g : Globals) :
    Collect.size (keptLists allCsr) g = known allCsr g := by
  rw [Collect.size, Fintype.sum_option]
  cases allCsr with
  | false => exact Nat.zero_add _
  | true => exact Nat.add_zero _

theorem collects_keptLists (allCsr fpCsr : Bool) :
    Collect.Collects (extractTransitions allCsr fpCsr) (keptLists allCsr) fun log ↦
      (logChanges allCsr log).map fun cs kind ↦ cs.flatMap fun c ↦ offered fpCsr c kind where
  returns h := exists_of_logChanges fpCsr h
  finds {g log g' n} h := by
    have hkind {cs : List Change} (hcs : logChanges allCsr log = some cs) :
        ∀ c ∈ cs, (allCsr = true ∧ ∃ entry, c = .all entry) ∨
          (allCsr = false ∧ ∃ keys, c = .csrs keys) := changes_kind (changes_of_logChanges hcs)
    cases allCsr with
    | true =>
      obtain ⟨l, hl, hgrows, hsize⟩ := (collects_all fpCsr).finds h
      obtain ⟨cs, hcs, rfl⟩ := Option.map_eq_some_iff.mp hl
      refine ⟨_, congrArg (Option.map _) hcs, fun kind ↦ ?_, ?_⟩
      · cases kind with
        | none => exact hgrows ()
        | some kind =>
          have hnil : (cs.flatMap fun c ↦ offered fpCsr c (some kind)) = [] := by
            rw [List.flatMap_eq_nil_iff]
            intro c hc
            rcases hkind hcs c hc with ⟨-, entry, rfl⟩ | ⟨hfalse, -⟩
            · rfl
            · exact nomatch hfalse
          dsimp only
          rw [hnil]
          exact .refl []
      · rw [size_keptLists, size_keptLists]
        exact hsize
    | false =>
      obtain ⟨l, hl, hgrows, hsize⟩ := (collects_csrs fpCsr).finds h
      obtain ⟨cs, hcs, rfl⟩ := Option.map_eq_some_iff.mp hl
      refine ⟨_, congrArg (Option.map _) hcs, fun kind ↦ ?_, ?_⟩
      · cases kind with
        | none =>
          have hnil : (cs.flatMap fun c ↦ offered fpCsr c none) = [] := by
            rw [List.flatMap_eq_nil_iff]
            intro c hc
            rcases hkind hcs c hc with ⟨htrue, -⟩ | ⟨-, keys, rfl⟩
            · exact nomatch htrue
            · rfl
          dsimp only
          rw [hnil]
          exact .refl []
        | some kind => exact hgrows kind
      · rw [size_keptLists, size_keptLists]
        exact hsize

/-- A log shows a transition. -/
def Shows (config : Config) (log : Text) (kind : Option Kind) (entry : Entry) : Prop :=
  ∃ cs, changes config.allCsr none (Text.readlines log) = .ok cs ∧
    ∃ c ∈ cs, entry ∈ offered config.fpCsr c kind

/-- What the log of a simulation shows is what its transitions offer. -/
theorem shows_logText (hall : config.allCsr = false) {events : List SpikeEvents.Event}
    (hlegible : ∀ t ∈ transitionsOf events, t.Legible) (kind : Kind) (entry : Entry) :
    Shows config (SpikeEvents.logText events) (some kind) entry ↔
      ∃ t ∈ transitionsOf events, t.Offers config.fpCsr kind entry := by
  obtain ⟨cs, hcs⟩ : ∃ cs,
      changes false none (Text.readlines (SpikeEvents.logText events)) = .ok cs := by
    rw [changes_logText, exists_mapM_eq_ok_iff]
    exact fun t ht ↦ exists_change_iff.mpr (hlegible t ht)
  unfold Shows
  rw [← mem_offered_iff hcs, List.mem_flatMap, hall, hcs]
  constructor
  · rintro ⟨cs', heq, hentry⟩
    obtain rfl := Except.ok.inj heq
    exact hentry
  · exact fun hentry ↦ ⟨cs, rfl, hentry⟩

/-- The program is built, and Spike runs it to its end. -/
def Outcome.scans (outcome : Outcome) : Bool := outcome.build.isSome && (isaEnd outcome.isa).isNone

theorem Iterated.scanned (h : Iterated config it outcome test s trns fate s') :
    outcome.scans = true ∧ (trns = 0 ↔ fate = .repeated) ∧
        extractTransitions config.allCsr config.fpCsr s.transitions (it, outcome.isa.log) =
          .ok (s'.transitions, trns) ∨
      outcome.scans = false ∧ trns = 0 ∧ s'.transitions = s.transitions := by
  have hbuilt {input : Option RtlMemory.RtlInput} {s₁ : Session}
      (hbuild : Preprocessed it outcome test s input s₁) :
      outcome.scans = (input.isSome && (isaEnd outcome.isa).isNone) := by
    rw [Outcome.scans, hbuild.input_isSome]
  have hscan {input : RtlMemory.RtlInput} {s₁ s₂ : Session} {trns : ℕ}
      (hbuild : Preprocessed it outcome test s (some input) s₁)
      (hscanned : Scanned config it outcome test s₁ trns s₂) : outcome.scans = true ∧
        extractTransitions config.allCsr config.fpCsr s.transitions (it, outcome.isa.log) =
          .ok (s₂.transitions, trns) := by
    obtain ⟨ret, s₃, htested, hread⟩ := hscanned.tested
    refine ⟨by rw [hbuilt hbuild, hscanned.fate]; rfl, ?_⟩
    rw [← hread.scan, htested.frame, hbuild.frame]
  have hnew {fate : Fate} (hpos : 0 < trns) (hfate : fate ≠ .repeated) :
      trns = 0 ↔ fate = .repeated := iff_of_false hpos.ne' hfate
  cases h with
  | compileFailed hbuild =>
    exact .inr ⟨hbuilt hbuild, rfl, by rw [hbuild.frame]⟩
  | isaFailed hbuild htested hfate =>
    refine .inr ⟨by rw [hbuilt hbuild, hfate]; rfl, rfl, ?_⟩
    rw [htested.frame, hbuild.frame]
  | repeated hbuild hscanned hdrop =>
    obtain ⟨hscans, hextract⟩ := hscan hbuild hscanned
    refine .inl ⟨hscans, iff_of_true rfl rfl, ?_⟩
    rw [hextract, (dropTest_eq_ok hdrop).1]
  | rtlFailed hbuild hscanned hpos htested =>
    obtain ⟨hscans, hextract⟩ := hscan hbuild hscanned
    refine .inl ⟨hscans, hnew hpos nofun, ?_⟩
    rw [hextract, htested.frame]
  | finished hbuild hscanned hpos htested hfinished =>
    obtain ⟨hscans, hextract⟩ := hscan hbuild hscanned
    refine .inl ⟨hscans, hnew hpos hfinished.fate_ne, ?_⟩
    rw [hextract, hfinished.transitions, htested.frame]

/-- What a run has done to the global lists. -/
structure Transits (config : Config) (done : List (Outcome × Report)) (s : Session) : Prop where
  nodup : ∀ kind, (keptLists config.allCsr kind s.transitions).Nodup
  mem : ∀ kind entry, entry ∈ keptLists config.allCsr kind s.transitions ↔
    ∃ e ∈ done, e.1.scans = true ∧ Shows config e.1.isa.log kind entry
  total : (done.map fun e ↦ e.2.trns).sum = known config.allCsr s.transitions
  repeated : ∀ before e after, done = before ++ e :: after → e.1.scans = true →
    (e.2.fate = .repeated ↔ ∀ kind entry, Shows config e.1.isa.log kind entry →
      ∃ e' ∈ before, e'.1.scans = true ∧ Shows config e'.1.isa.log kind entry)

theorem keptLists_start (allCsr : Bool) (kind : Option Kind) : keptLists allCsr kind {} = [] := by
  rcases kind with _ | kind
  · cases allCsr <;> rfl
  · cases allCsr <;> cases kind <;> rfl

theorem Transits.start (config : Config) (noGuide : Bool) (draws : Draws) :
    Transits config [] (start noGuide draws) where
  nodup kind := by
    change (keptLists config.allCsr kind {}).Nodup
    rw [keptLists_start]
    exact .nil
  mem kind entry := by
    change entry ∈ keptLists config.allCsr kind {} ↔ _
    rw [keptLists_start]
    exact iff_of_false List.not_mem_nil (by simp)
  total := by cases config.allCsr <;> rfl
  repeated before e after h := absurd h (by simp)

/-- A list with another item at its end is split at one of the items before it or at this one. -/
theorem concat_eq_append_cons {α : Type} {l before after : List α} {x e : α}
    (h : l ++ [x] = before ++ e :: after) :
    (before = l ∧ e = x) ∨ ∃ after', l = before ++ e :: after' := by
  rcases List.eq_nil_or_concat after with rfl | ⟨after', y, rfl⟩
  · obtain ⟨rfl, hx⟩ := List.append_inj' h rfl
    exact .inl ⟨rfl, (List.singleton_inj.mp hx).symm⟩
  · refine .inr ⟨after', ?_⟩
    rw [List.concat_eq_append, ← List.cons_append, ← List.append_assoc] at h
    exact (List.append_inj' h rfl).1

theorem exists_mem_concat {α : Type} {P : α → Prop} {l : List α} {x : α} :
    (∃ e ∈ l ++ [x], P e) ↔ (∃ e ∈ l, P e) ∨ P x := by
  simp only [List.mem_append, List.mem_singleton, or_and_right, exists_or, exists_eq_left]

theorem Transits.step {done : List (Outcome × Report)} {s₁ : Session} (h : Transits config done s)
    (hnext : nextTest config it s = .ok (test, s₁))
    (hiterated : Iterated config it outcome test s₁ trns fate s') :
    Transits config (done ++ [(outcome, ⟨it, test, trns, fate⟩)]) s' := by
  have hstart : s₁.transitions = s.transitions := by rw [nextTest_frame hnext]
  rcases hiterated.scanned with ⟨hscans, hfate, hextract⟩ | ⟨hscans, hzero, hkept⟩
  · rw [hstart] at hextract
    obtain ⟨found, hfound, hgrows, hsize⟩ :=
      (collects_keptLists config.allCsr config.fpCsr).finds hextract
    have hcount := (collects_keptLists config.allCsr config.fpCsr).count_eq_zero_iff h.nodup hfound
      hextract
    -- What the scan finds is what the log shows.
    have hshows (kind : Option Kind) (entry : Entry) :
        entry ∈ found kind ↔ Shows config outcome.isa.log kind entry := by
      obtain ⟨cs, hcs, rfl⟩ := Option.map_eq_some_iff.mp hfound
      have hchanges := changes_of_logChanges hcs
      rw [List.mem_flatMap]
      constructor
      · exact fun hentry ↦ ⟨cs, hchanges, hentry⟩
      · rintro ⟨cs', hcs', hentry⟩
        obtain rfl := Except.ok.inj (hchanges.symm.trans hcs')
        exact hentry
    refine ⟨fun kind ↦ (hgrows kind).nodup (h.nodup kind), fun kind entry ↦ ?_, ?_, ?_⟩
    · rw [(hgrows kind).mem, h.mem, hshows, exists_mem_concat]
      simp only [hscans, true_and]
    · rw [List.map_append, List.sum_append, h.total, List.map_singleton, List.sum_singleton,
        ← size_keptLists, ← size_keptLists, hsize]
    · intro before e after hsplit hscanned
      rcases concat_eq_append_cons hsplit with ⟨rfl, rfl⟩ | ⟨after', hsplit'⟩
      · rw [← hfate, hcount]
        refine forall₂_congr fun kind entry ↦ ?_
        rw [hshows, h.mem]
      · exact h.repeated before e after' hsplit' hscanned
  · refine ⟨?_, fun kind entry ↦ ?_, ?_, ?_⟩
    · rw [hkept, hstart]
      exact h.nodup
    · rw [hkept, hstart, h.mem, exists_mem_concat]
      simp only [hscans, Bool.false_eq_true, false_and, or_false]
    · rw [List.map_append, List.sum_append, h.total, List.map_singleton, List.sum_singleton, hkept,
        hstart, hzero, Nat.add_zero]
    · intro before e after hsplit hscanned
      rcases concat_eq_append_cons hsplit with ⟨rfl, rfl⟩ | ⟨after', hsplit'⟩
      · exact absurd (hscans.symm.trans hscanned) Bool.false_ne_true
      · exact h.repeated before e after' hsplit' hscanned

theorem transits_run {noGuide : Bool} {draws : Draws} {outcomes : List Outcome}
    {reports : List Report} (h : run config noGuide draws outcomes = .ok (reports, s)) :
    Transits config (outcomes.zip reports) s :=
  run_induction (I := fun _ done s ↦ Transits config done s) (.start config noGuide draws)
    (fun hs hnext hiterated ↦ hs.step hnext hiterated) h

end ProcessorFuzz.Fuzzing
