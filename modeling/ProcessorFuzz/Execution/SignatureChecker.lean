import Mathlib.Tactic.Linarith
import ProcessorFuzz.Library.Latch
import ProcessorFuzz.Mutation.RiscvDefinitions

/-!
# The differential oracle on signatures

`sigChecker.check` compares the signature of the ISA simulator with that of the RTL simulation.
Differences that are known to be harmless are tolerated by register-specific rules. The verdict is
kept in match flags that the loops share: an untolerated difference clears a flag, a tolerated one
sets it again.

The loops are flags latched along a list, so the verdict is decided by the last difference of each
group, the 32 + 32 registers and the CSRs. From this follows exactly when the verdict is the
intended one: unless every group with an untolerated difference ends in a tolerated one.
-/

namespace ProcessorFuzz.Execution.SignatureChecker

open Library Mutation.RiscvDefinitions

/-- The values `read_sig` returns: registers, CSRs and the words of the six data sections, whose
lengths come from the symbol table that both simulators share. -/
structure Signature (sizes : Fin 6 → ℕ) where
  xregVals : Vector ℕ 32
  fregVals : Vector ℕ 32
  csrVals : CsrName → ℕ
  dataVals : (i : Fin 6) → Vector ℕ (sizes i)

/-- The match flags of `check`. -/
structure Flags where
  xregMatch : Bool := true
  fregMatch : Bool := true
  csrMatch : Bool := true
  dataMatch : Bool := true

variable {sizes : Fin 6 → ℕ}

def xregStep (flags : Flags) (val : ℕ × ℕ) : Flags :=
  let isMatch := val.1 == val.2
  if !isMatch then { flags with xregMatch := false } else flags

def fregStep (flags : Flags) (val : ℕ × ℕ) : Flags :=
  let isMatch := val.1 == val.2
  -- the source writes `xreg_match`, not `freg_match`, in both branches
  let flags := if !isMatch then { flags with xregMatch := false } else flags
  if !isMatch && ((val.1 : ℤ) == (val.2 : ℤ) - 1 || (val.1 : ℤ) == (val.2 : ℤ) + 1) then
    { flags with xregMatch := true }
  else flags

/-- One block `if not match and rule: match = True; csr_match = True`. -/
def csrRule (rule : Bool) (state : Bool × Flags) : Bool × Flags :=
  if !state.1 && rule then (true, { state.2 with csrMatch := true }) else state

def csrStep (isa rtl : Signature sizes) (flags : Flags) (csrName : CsrName) : Flags :=
  let isaVal := isa.csrVals csrName
  let rtlVal := rtl.csrVals csrName
  let isMatch := isaVal == rtlVal
  let flags := if !isMatch then { flags with csrMatch := false } else flags
  let state := csrRule (csrName == .mstatus && rtlVal == (isaVal ||| 1 <<< 17)) (isMatch, flags)
  let state := csrRule (csrName == .scause && rtlVal == (isaVal ||| 1 <<< 4)) state
  let state := csrRule (csrName == .stval && rtlVal == 0) state
  let state := csrRule ((csrName == .mstatus || csrName == .sstatus) &&
    (rtlVal == (isaVal ||| 1 <<< 13 ||| 1 <<< 63) ||
      rtlVal == (isaVal ||| 1 <<< 14 ||| 1 <<< 63))) state
  if (csrName == .mtval || csrName == .stval) && rtlVal != 0 && isaVal == 0 then
    { state.2 with csrMatch := true }
  else state.2

def dataStep (isa rtl : Signature sizes) (flags : Flags) (i : Fin 6) : Flags :=
  if isa.dataVals i != rtl.dataVals i then { flags with dataMatch := false } else flags

/-- `sigChecker.check` on the two signatures read. -/
def check (isa rtl : Signature sizes) : Bool :=
  let flags : Flags := {}
  let flags := (isa.xregVals.toList.zip rtl.xregVals.toList).foldl xregStep flags
  let flags := (isa.fregVals.toList.zip rtl.fregVals.toList).foldl fregStep flags
  let flags := csrNames.foldl (csrStep isa rtl) flags
  let flags := (List.finRange 6).foldl (dataStep isa rtl) flags
  flags.xregMatch && flags.fregMatch && flags.csrMatch && flags.dataMatch

/-- The rounding tolerance of the floating-point registers. -/
def FregTolerated (isa rtl : ℕ) : Prop := (isa : ℤ) = rtl - 1 ∨ (isa : ℤ) = rtl + 1

/-- The tolerances coded for a control and status register. -/
def CsrTolerated (csr : CsrName) (isa rtl : ℕ) : Prop :=
  (csr = .mstatus ∧ rtl = isa ||| 1 <<< 17) ∨
  (csr = .scause ∧ rtl = isa ||| 1 <<< 4) ∨
  (csr = .stval ∧ rtl = 0) ∨
  ((csr = .mstatus ∨ csr = .sstatus) ∧
    (rtl = isa ||| 1 <<< 13 ||| 1 <<< 63 ∨ rtl = isa ||| 1 <<< 14 ||| 1 <<< 63)) ∨
  ((csr = .mtval ∨ csr = .stval) ∧ isa = 0 ∧ rtl ≠ 0)

instance (isa rtl : ℕ) : Decidable (FregTolerated isa rtl) :=
  inferInstanceAs (Decidable (_ ∨ _))

instance (csr : CsrName) (isa rtl : ℕ) : Decidable (CsrTolerated csr isa rtl) :=
  inferInstanceAs (Decidable (_ ∨ _))

/-- Every pair is equal or covered by a tolerance of its own register. -/
structure Accepts (isa rtl : Signature sizes) : Prop where
  xregs : ∀ i (h : i < 32), isa.xregVals[i] = rtl.xregVals[i]
  fregs : ∀ i (h : i < 32), isa.fregVals[i] = rtl.fregVals[i] ∨
    FregTolerated isa.fregVals[i] rtl.fregVals[i]
  csrs : ∀ csr, isa.csrVals csr = rtl.csrVals csr ∨
    CsrTolerated csr (isa.csrVals csr) (rtl.csrVals csr)
  data : ∀ i j (h : j < sizes i), (isa.dataVals i)[j] = (rtl.dataVals i)[j]

/-- A compared pair, and whether a tolerance of its register covers it. -/
structure Entry where
  isa : ℕ
  rtl : ℕ
  tolerated : Bool

namespace Entry

def differs (entry : Entry) : Bool := entry.isa != entry.rtl

/-- What an entry does to the flag of its group. -/
def effect (entry : Entry) : Option Bool := if entry.differs then some entry.tolerated else none

end Entry

def xregEntry (val : ℕ × ℕ) : Entry := ⟨val.1, val.2, false⟩

def fregEntry (val : ℕ × ℕ) : Entry := ⟨val.1, val.2, decide (FregTolerated val.1 val.2)⟩

def csrEntry (isa rtl : Signature sizes) (csr : CsrName) : Entry :=
  ⟨isa.csrVals csr, rtl.csrVals csr, decide (CsrTolerated csr (isa.csrVals csr) (rtl.csrVals csr))⟩

/-- The register pairs in the order they are compared, integer registers first. -/
def registerEntries (isa rtl : Signature sizes) : List Entry :=
  (isa.xregVals.toList.zip rtl.xregVals.toList).map xregEntry ++
    (isa.fregVals.toList.zip rtl.fregVals.toList).map fregEntry

def csrEntries (isa rtl : Signature sizes) : List Entry := csrNames.map (csrEntry isa rtl)

/-- Some difference of the group is not covered by a tolerance. -/
def Untolerated (entries : List Entry) : Prop :=
  ∃ entry ∈ entries, entry.differs = true ∧ entry.tolerated = false

/-- The last difference of the group, if there is one, is covered by a tolerance. -/
def EndsTolerated (entries : List Entry) : Prop :=
  ∀ entry ∈ (entries.filter Entry.differs).getLast?, entry.tolerated = true

/-- An untolerated difference that no flag remembers: all data words agree, and in each group the
differences end with a tolerated one. -/
def Hidden (isa rtl : Signature sizes) : Prop :=
  isa.dataVals = rtl.dataVals ∧
    (Untolerated (registerEntries isa rtl) ∨ Untolerated (csrEntries isa rtl)) ∧
    EndsTolerated (registerEntries isa rtl) ∧ EndsTolerated (csrEntries isa rtl)

theorem xregStep_eq (flags : Flags) (val : ℕ × ℕ) :
    xregStep flags val =
      { flags with xregMatch := (xregEntry val).effect.getD flags.xregMatch } := by
  by_cases h : val.1 = val.2 <;> simp [xregStep, xregEntry, Entry.effect, Entry.differs, h]

theorem fregStep_eq (flags : Flags) (val : ℕ × ℕ) :
    fregStep flags val =
      { flags with xregMatch := (fregEntry val).effect.getD flags.xregMatch } := by
  by_cases h : val.1 = val.2
  · simp [fregStep, fregEntry, Entry.effect, Entry.differs, h]
  · by_cases htol : FregTolerated val.1 val.2
    · have hrule := htol
      unfold FregTolerated at hrule
      simp [fregStep, fregEntry, Entry.effect, Entry.differs, h, htol, hrule]
    · have hrule := htol
      unfold FregTolerated at hrule
      simp [fregStep, fregEntry, Entry.effect, Entry.differs, h, htol, hrule]

/-- A rule block, seen from the flag: once matched nothing changes, otherwise the rule decides. -/
theorem csrRule_eq (rule : Bool) (state : Bool × Flags) :
    csrRule rule state =
      (state.1 || rule, { state.2 with csrMatch := state.2.csrMatch || (!state.1 && rule) }) := by
  obtain ⟨isMatch, flags⟩ := state
  cases isMatch <;> cases rule <;> simp [csrRule]

theorem csrStep_eq (isa rtl : Signature sizes) (flags : Flags) (csr : CsrName) :
    csrStep isa rtl flags csr =
      { flags with csrMatch := (csrEntry isa rtl csr).effect.getD flags.csrMatch } := by
  by_cases h : isa.csrVals csr = rtl.csrVals csr
  · simp [csrStep, csrRule_eq, csrEntry, Entry.effect, Entry.differs, h]
  · have htol : decide (CsrTolerated csr (isa.csrVals csr) (rtl.csrVals csr)) =
        ((csr == .mstatus && rtl.csrVals csr == (isa.csrVals csr ||| 1 <<< 17)) ||
          (csr == .scause && rtl.csrVals csr == (isa.csrVals csr ||| 1 <<< 4)) ||
          (csr == .stval && rtl.csrVals csr == 0) ||
          ((csr == .mstatus || csr == .sstatus) &&
            (rtl.csrVals csr == (isa.csrVals csr ||| 1 <<< 13 ||| 1 <<< 63) ||
              rtl.csrVals csr == (isa.csrVals csr ||| 1 <<< 14 ||| 1 <<< 63))) ||
          ((csr == .mtval || csr == .stval) && rtl.csrVals csr != 0 && isa.csrVals csr == 0)) := by
      rw [Bool.eq_iff_iff, decide_eq_true_iff]
      simp only [CsrTolerated, Bool.or_eq_true, Bool.and_eq_true, beq_iff_eq,
        bne_iff_ne]
      tauto
    simp only [csrEntry, Entry.effect, Entry.differs, htol]
    simp only [csrStep, csrRule_eq, beq_eq_false_iff_ne.mpr h, bne_iff_ne, ne_eq, h,
      not_false_eq_true, if_true, Bool.not_false, Bool.false_or, Bool.true_and, Option.getD_some]
    generalize (csr == .mstatus && rtl.csrVals csr == (isa.csrVals csr ||| 1 <<< 17)) = r₁
    generalize (csr == .scause && rtl.csrVals csr == (isa.csrVals csr ||| 1 <<< 4)) = r₂
    generalize (csr == .stval && rtl.csrVals csr == 0) = r₃
    generalize ((csr == .mstatus || csr == .sstatus) &&
      (rtl.csrVals csr == (isa.csrVals csr ||| 1 <<< 13 ||| 1 <<< 63) ||
        rtl.csrVals csr == (isa.csrVals csr ||| 1 <<< 14 ||| 1 <<< 63))) = r₄
    generalize ((csr == .mtval || csr == .stval) && rtl.csrVals csr != 0 &&
      isa.csrVals csr == 0) = r₅
    cases r₁ <;> cases r₂ <;> cases r₃ <;> cases r₄ <;> cases r₅ <;> rfl

theorem foldl_xregStep (vals : List (ℕ × ℕ)) (flags : Flags) :
    vals.foldl xregStep flags = { flags with
      xregMatch := Latch.run flags.xregMatch ((vals.map xregEntry).map Entry.effect) } := by
  induction vals generalizing flags with
  | nil => rfl
  | cons val vals ih => simp [ih, xregStep_eq]

theorem foldl_fregStep (vals : List (ℕ × ℕ)) (flags : Flags) :
    vals.foldl fregStep flags = { flags with
      xregMatch := Latch.run flags.xregMatch ((vals.map fregEntry).map Entry.effect) } := by
  induction vals generalizing flags with
  | nil => rfl
  | cons val vals ih => simp [ih, fregStep_eq]

theorem foldl_csrStep (isa rtl : Signature sizes) (csrs : List CsrName) (flags : Flags) :
    csrs.foldl (csrStep isa rtl) flags = { flags with
      csrMatch := Latch.run flags.csrMatch ((csrs.map (csrEntry isa rtl)).map Entry.effect) } := by
  induction csrs generalizing flags with
  | nil => rfl
  | cons csr csrs ih => simp [ih, csrStep_eq]

theorem foldl_dataStep (isa rtl : Signature sizes) (sections : List (Fin 6)) (flags : Flags) :
    sections.foldl (dataStep isa rtl) flags = { flags with
      dataMatch := flags.dataMatch &&
        sections.all fun i ↦ isa.dataVals i == rtl.dataVals i } := by
  induction sections generalizing flags with
  | nil => simp
  | cons i sections ih =>
    rw [List.foldl_cons, ih]
    by_cases h : isa.dataVals i = rtl.dataVals i <;> simp [dataStep, h]

/-- The verdict from the latched flags. `freg_match` is never written. -/
theorem check_eq (isa rtl : Signature sizes) :
    check isa rtl =
      (Latch.run true ((registerEntries isa rtl).map Entry.effect) &&
        Latch.run true ((csrEntries isa rtl).map Entry.effect) &&
        (List.finRange 6).all fun i ↦ isa.dataVals i == rtl.dataVals i) := by
  simp only [check, foldl_xregStep, foldl_fregStep, foldl_csrStep, foldl_dataStep,
    registerEntries, csrEntries, List.map_append, Latch.run_append, Bool.and_true, Bool.true_and]

theorem run_effect_eq_true_iff (entries : List Entry) :
    Latch.run true (entries.map Entry.effect) = true ↔ EndsTolerated entries := by
  have hreduce : (entries.map Entry.effect).reduceOption =
      (entries.filter Entry.differs).map Entry.tolerated := by
    induction entries with
    | nil => rfl
    | cons entry entries ih =>
      by_cases h : entry.differs = true
      · simp [Entry.effect, h, List.reduceOption_cons_of_some, ih]
      · simp [Entry.effect, h, List.reduceOption_cons_of_none, ih]
  rw [Latch.run_eq_getLast, hreduce, List.getLast?_map, EndsTolerated]
  cases (entries.filter Entry.differs).getLast? <;> simp

theorem endsTolerated_of_not_untolerated {entries : List Entry} (h : ¬ Untolerated entries) :
    EndsTolerated entries := by
  intro entry hlast
  have hmem := List.mem_of_getLast? hlast
  obtain ⟨hentry, hdiffers⟩ := List.mem_filter.mp hmem
  by_contra htol
  exact h ⟨entry, hentry, hdiffers, by simpa using htol⟩

theorem check_eq_true_iff (isa rtl : Signature sizes) :
    check isa rtl = true ↔
      EndsTolerated (registerEntries isa rtl) ∧ EndsTolerated (csrEntries isa rtl) ∧
        isa.dataVals = rtl.dataVals := by
  rw [check_eq, Bool.and_eq_true, Bool.and_eq_true, run_effect_eq_true_iff,
    run_effect_eq_true_iff, and_assoc]
  refine and_congr_right fun _ ↦ and_congr_right fun _ ↦ ?_
  simp [funext_iff]

theorem not_untolerated_zip_iff {n : ℕ} (isa rtl : Vector ℕ n) (entryOf : ℕ × ℕ → Entry)
    (hisa : ∀ val, (entryOf val).differs = (val.1 != val.2)) :
    ¬ Untolerated ((isa.toList.zip rtl.toList).map entryOf) ↔
      ∀ i (h : i < n), isa[i] = rtl[i] ∨ (entryOf (isa[i], rtl[i])).tolerated = true := by
  constructor
  · intro h i hi
    by_contra hnot
    obtain ⟨hne, htol⟩ := not_or.mp hnot
    refine h ⟨entryOf (isa[i], rtl[i]), List.mem_map.mpr ⟨(isa[i], rtl[i]), ?_, rfl⟩, ?_, ?_⟩
    · have hlength : i < (isa.toList.zip rtl.toList).length := by simpa using hi
      have hget : (isa.toList.zip rtl.toList)[i] = (isa[i], rtl[i]) := by simp
      exact hget ▸ List.getElem_mem hlength
    · simpa [hisa] using hne
    · simpa using htol
  · rintro h ⟨entry, hmem, hdiffers, htol⟩
    obtain ⟨val, hval, rfl⟩ := List.mem_map.mp hmem
    obtain ⟨i, hi, rfl⟩ := List.getElem_of_mem hval
    have hn : i < n := by simpa using hi
    have hget : (isa.toList.zip rtl.toList)[i] = (isa[i], rtl[i]) := by simp
    rw [hget] at hdiffers htol
    rcases h i hn with heq | htrue
    · simp [hisa, heq] at hdiffers
    · simp [htrue] at htol

theorem accepts_iff (isa rtl : Signature sizes) :
    Accepts isa rtl ↔
      ¬ Untolerated (registerEntries isa rtl) ∧ ¬ Untolerated (csrEntries isa rtl) ∧
        isa.dataVals = rtl.dataVals := by
  have hregisters : ¬ Untolerated (registerEntries isa rtl) ↔
      (∀ i (h : i < 32), isa.xregVals[i] = rtl.xregVals[i]) ∧
        ∀ i (h : i < 32), isa.fregVals[i] = rtl.fregVals[i] ∨
          FregTolerated isa.fregVals[i] rtl.fregVals[i] := by
    have hsplit : Untolerated (registerEntries isa rtl) ↔
        Untolerated ((isa.xregVals.toList.zip rtl.xregVals.toList).map xregEntry) ∨
          Untolerated ((isa.fregVals.toList.zip rtl.fregVals.toList).map fregEntry) := by
      simp only [Untolerated, registerEntries, List.mem_append, or_and_right, exists_or]
    rw [hsplit, not_or, not_untolerated_zip_iff _ _ xregEntry fun _ ↦ rfl,
      not_untolerated_zip_iff _ _ fregEntry fun _ ↦ rfl]
    simp [xregEntry, fregEntry]
  have hcsrs : ¬ Untolerated (csrEntries isa rtl) ↔
      ∀ csr, isa.csrVals csr = rtl.csrVals csr ∨
        CsrTolerated csr (isa.csrVals csr) (rtl.csrVals csr) := by
    simp only [Untolerated, csrEntries, List.mem_map, mem_csrNames, true_and,
      exists_exists_eq_and, csrEntry, Entry.differs, not_exists, not_and, bne_iff_ne, ne_eq,
      decide_eq_false_iff_not, not_not]
    exact forall_congr' fun csr ↦ or_iff_not_imp_left.symm
  have hdata : isa.dataVals = rtl.dataVals ↔
      ∀ i j (h : j < sizes i), (isa.dataVals i)[j] = (rtl.dataVals i)[j] := by
    constructor
    · intro h i j hj
      rw [h]
    · intro h
      funext i
      exact Vector.ext fun j hj ↦ h i j hj
  rw [hregisters, hcsrs, hdata]
  exact ⟨fun h ↦ ⟨⟨h.xregs, h.fregs⟩, h.csrs, h.data⟩,
    fun h ↦ ⟨h.1.1, h.1.2, h.2.1, h.2.2⟩⟩

/-- Signatures that should be accepted are accepted: the defect is one-sided. -/
theorem check_of_accepts {isa rtl : Signature sizes} (h : Accepts isa rtl) :
    check isa rtl = true := by
  obtain ⟨hregisters, hcsrs, hdata⟩ := (accepts_iff isa rtl).mp h
  exact (check_eq_true_iff isa rtl).mpr ⟨endsTolerated_of_not_untolerated hregisters,
    endsTolerated_of_not_untolerated hcsrs, hdata⟩

/-- The verdict is the intended one exactly when no untolerated difference is hidden. -/
theorem check_iff_accepts_iff_not_hidden (isa rtl : Signature sizes) :
    (check isa rtl = true ↔ Accepts isa rtl) ↔ ¬ Hidden isa rtl := by
  have hcheck := check_eq_true_iff isa rtl
  have haccepts := accepts_iff isa rtl
  have hone : Accepts isa rtl → check isa rtl = true := check_of_accepts
  unfold Hidden
  tauto

/-- All registers, CSRs and data words zero except for what the arguments set. -/
def sample (x1 f0 : ℕ) : Signature fun _ ↦ 2 where
  xregVals := (Vector.replicate 32 0).set 1 x1
  fregVals := (Vector.replicate 32 0).set 0 f0
  csrVals _ := 0
  dataVals _ := Vector.replicate 2 0

/-- Register `x1` differs by five, but the rounding difference in `f0` sets the flag again. -/
theorem check_sample_not_accepts :
    ¬ (check (sample 0 0) (sample 5 1) = true ↔ Accepts (sample 0 0) (sample 5 1)) := by
  intro h
  have hx1 := (h.mp (by decide)).xregs 1 (by decide)
  exact absurd hx1 (by decide)

end ProcessorFuzz.Execution.SignatureChecker
