import ProcessorFuzz.Common.TraceCompare

/-!
# The alignment of the two traces

Row `j` of the ISA trace belongs to the `j`-th line of the RTL log, from the start on, that is not a
delayed write-back. The offset keeps this pairing: it grows by the delayed write-backs between two
instructions. Only an exception of Rocket moves it on by a line of another kind.
-/

namespace ProcessorFuzz.Common.TraceCompare

open Library Library.Text

variable {toplevel : Toplevel} {pcFound : Option Text} {lines : List Text} {start i j : ℕ}

/-- The lines from `start` up to line `i` that are not delayed write-backs. -/
def instrLines (lines : List Text) (start i : ℕ) : ℕ :=
  ((lines.take i).drop start).countP fun line ↦ !isDelayed line

/-- Line `i` is the `j`-th one from `start` on that is not a delayed write-back. -/
structure IsInstrLine (lines : List Text) (start j i : ℕ) : Prop where
  start_le : start ≤ i
  lt_length : i < lines.length
  not_delayed : isDelayed lines[i] = false
  count : instrLines lines start i = j

theorem instrLines_succ (hstart : start ≤ i) (hi : i < lines.length) :
    instrLines lines start (i + 1) =
      instrLines lines start i + if isDelayed lines[i] then 0 else 1 := by
  have hlength : start ≤ (lines.take i).length := by
    rw [List.length_take]
    omega
  calc instrLines lines start (i + 1)
      = ((lines.take i).drop start ++ [lines[i]]).countP fun line ↦ !isDelayed line := by
        rw [instrLines, List.take_succ_eq_append_getElem hi, List.drop_append_of_le_length hlength]
    _ = instrLines lines start i + if !isDelayed lines[i] then 1 else 0 := by
        rw [List.countP_append, List.countP_singleton, instrLines]
    _ = instrLines lines start i + if isDelayed lines[i] then 0 else 1 := by
        cases isDelayed lines[i] <;> rfl

/-- Skipping the delayed write-backs leads to a line of another kind and passes over none. -/
theorem isInstrLine_of_skipDelayed {offset next : ℕ} (hstart : start ≤ offset + j)
    (h : skipDelayed offset (lines.drop (offset + j)) = .ok next) :
    IsInstrLine lines start (instrLines lines start (offset + j)) (next + j) := by
  generalize hrest : lines.drop (offset + j) = rest at h
  induction rest generalizing offset with
  | nil => exact nomatch h
  | cons line rest ih =>
    have hlt : offset + j < lines.length := by
      by_contra hle
      rw [List.drop_eq_nil_of_le (not_lt.mp hle)] at hrest
      exact nomatch hrest
    rw [List.drop_eq_getElem_cons hlt] at hrest
    obtain ⟨rfl, hdrop⟩ := List.cons.inj hrest
    rw [skipDelayed] at h
    split at h
    · next hdelayed =>
      have hnext : offset + 1 + j = offset + j + 1 := by omega
      have hcount : instrLines lines start (offset + 1 + j) =
          instrLines lines start (offset + j) := by
        rw [hnext, instrLines_succ hstart hlt, if_pos hdelayed, Nat.add_zero]
      rw [← hcount]
      exact ih (by omega) (by rw [hnext, hdrop]) h
    · next hnot =>
      obtain rfl := Except.ok.inj h
      exact ⟨hstart, hlt, Bool.eq_false_iff.mpr hnot, rfl⟩

theorem IsInstrLine.instrLines_succ (h : IsInstrLine lines start j i) :
    instrLines lines start (i + 1) = j + 1 := by
  rw [TraceCompare.instrLines_succ h.start_le h.lt_length, h.count, h.not_delayed]
  rfl

/-- Line `k` is the first delayed write-back after line `i` that names the register. -/
structure IsFirstDelayed (lines : List Text) (i : ℕ) (reg : Text) (k : ℕ) (value : Text) :
    Prop where
  lt : i < k
  lt_length : k < lines.length
  delayed : isDelayed lines[k] = true
  reg_eq : delayedReg lines[k] = .ok reg
  value_eq : delayedValue lines[k] = .ok value
  first : ∀ k' (_ : k' < lines.length), i < k' → k' < k → isDelayed lines[k'] = true →
    delayedReg lines[k'] ≠ .ok reg

theorem isFirstDelayed_of_findDelayed {reg value : Text} {k : ℕ}
    (h : findDelayed reg (i + 1) (lines.drop (i + 1)) = .ok (some (k, value))) :
    IsFirstDelayed lines i reg k value := by
  generalize hrest : lines.drop (i + 1) = rest at h
  induction rest generalizing i with
  | nil => exact nomatch h
  | cons line rest ih =>
    have hlt : i + 1 < lines.length := by
      by_contra hle
      rw [List.drop_eq_nil_of_le (not_lt.mp hle)] at hrest
      exact nomatch hrest
    rw [List.drop_eq_getElem_cons hlt] at hrest
    obtain ⟨rfl, hdrop⟩ := List.cons.inj hrest
    -- a line that is passed over does not name the register
    have hlater : findDelayed reg (i + 1 + 1) rest = .ok (some (k, value)) →
        (isDelayed lines[i + 1] = true → delayedReg lines[i + 1] ≠ .ok reg) →
        IsFirstDelayed lines i reg k value := by
      intro hfound hnot
      have hnext := ih hdrop hfound
      refine ⟨by have := hnext.lt; omega, hnext.lt_length, hnext.delayed, hnext.reg_eq,
        hnext.value_eq, ?_⟩
      intro k' hk' hik' hk'k
      rcases Nat.eq_or_lt_of_le hik' with rfl | hlt'
      · exact hnot
      · exact hnext.first k' hk' hlt' hk'k
    rw [findDelayed] at h
    split at h
    · next hdelayed =>
      obtain ⟨reg', hreg, h⟩ := bind_eq_ok.mp h
      split at h
      · next heq =>
        obtain ⟨value', hvalue, h⟩ := bind_eq_ok.mp h
        cases h
        subst heq
        exact ⟨Nat.lt_succ_self i, hlt, hdelayed, hreg, hvalue, by intro k' _ _ _; omega⟩
      · next hne =>
        refine hlater h fun _ heq ↦ hne ?_
        exact Except.ok.inj (hreg.symm.trans heq)
    · next hnot => exact hlater h fun hdelayed ↦ absurd hdelayed hnot

theorem isFirstDelayed_of_resolve {instrStr wdata value : Text} {k : ℕ}
    (h : resolve lines i instrStr wdata = .ok (some (k, value))) :
    ∃ reg, wbReg instrStr = .ok reg ∧ IsFirstDelayed lines i reg k value := by
  rw [resolve] at h
  split at h
  · obtain ⟨reg, hreg, h⟩ := bind_eq_ok.mp h
    exact ⟨reg, hreg, isFirstDelayed_of_findDelayed h⟩
  · cases h

variable {op : Text} {isa : IsaRow} {s t : State} {round : Round} {row : List Text}

@[simp]
theorem compareLine_index :
    (compareLine toplevel pcFound lines i op isa s).index = i := by
  unfold compareLine
  repeat' split
  all_goals rfl

theorem isFirstDelayed_of_compareLine {k : ℕ} {value : Text}
    (h : (compareLine toplevel pcFound lines i op isa s).resolved = some (k, value)) :
    ∃ reg, wbReg isa.instrStr = .ok reg ∧ IsFirstDelayed lines i reg k value := by
  unfold compareLine at h
  split at h
  · cases h
  · split at h
    · cases h
    · dsimp only at h
      split at h
      · cases h
      · next hresolve =>
        split at h <;> exact isFirstDelayed_of_resolve (hresolve.trans (congrArg _ h))

/-- The offset does not change once there is a line for the row. -/
theorem rtlTraceStart_of_finishRow {resolved : Option (ℕ × Text)} {rtl : RtlLine}
    {rtlLine : List Text}
    (h : finishRow lines i op resolved isa rtl rtlLine s = .ok (.next t)) :
    t.rtlTraceStart = s.rtlTraceStart := by
  obtain ⟨⟨mismatch, notFound⟩, -, h⟩ := bind_eq_ok.mp h
  dsimp only at h
  split at h
  · cases h
  · split at h
    · cases h
    · cases h
      rfl

theorem rtlTraceStart_of_compareLine
    (h : (compareLine toplevel pcFound lines i op isa s).outcome = .next t) :
    t.rtlTraceStart = s.rtlTraceStart := by
  unfold compareLine at h
  split at h
  · cases h
  · split at h
    · cases h
    · dsimp only at h
      split at h
      · cases h
      · split at h
        · cases h
        · next hfinish => exact rtlTraceStart_of_finishRow (hfinish.trans (congrArg _ h))

theorem eq_of_skipException {offset next : ℕ} {pcIsa : Text}
    (hexception : toplevel = .rocketTile → ∀ line ∈ lines, isException line = false)
    (h : skipException toplevel lines j offset pcIsa = .ok next) : next = offset := by
  obtain ⟨line, hline, h⟩ := bind_eq_ok.mp h
  split at h
  · next hboth =>
    have hfalse := hexception hboth.2 line (mem_of_item_eq_ok hline)
    exact absurd hboth.1 (Bool.eq_false_iff.mp hfalse)
  · exact (Except.ok.inj h).symm

/-- The instruction and the mode of a row. -/
theorem columns_of_readIsaRow {modeBefore : Text} (h : readIsaRow modeBefore row = .ok isa) :
    item row 6 = .ok isa.instrStr ∧
      ∃ mode, item row 5 = .ok mode ∧ isa.mode = if mode = [] then modeBefore else mode := by
  obtain ⟨pc, -, h⟩ := bind_eq_ok.mp h
  obtain ⟨instr, -, h⟩ := bind_eq_ok.mp h
  obtain ⟨cell, -, h⟩ := bind_eq_ok.mp h
  obtain ⟨gpr, -, h⟩ := bind_eq_ok.mp h
  obtain ⟨wdata, -, h⟩ := bind_eq_ok.mp h
  obtain ⟨mode, hmode, h⟩ := bind_eq_ok.mp h
  obtain ⟨instrStr, hinstrStr, h⟩ := bind_eq_ok.mp h
  obtain ⟨mstatus, -, h⟩ := bind_eq_ok.mp h
  obtain ⟨frm, -, h⟩ := bind_eq_ok.mp h
  obtain ⟨fflags, -, h⟩ := bind_eq_ok.mp h
  obtain ⟨mcause, -, h⟩ := bind_eq_ok.mp h
  obtain ⟨scause, -, h⟩ := bind_eq_ok.mp h
  obtain ⟨medeleg, -, h⟩ := bind_eq_ok.mp h
  obtain ⟨mcounteren, -, h⟩ := bind_eq_ok.mp h
  obtain ⟨scounteren, -, h⟩ := bind_eq_ok.mp h
  obtain ⟨mcauseDigit, -, h⟩ := bind_eq_ok.mp h
  obtain ⟨scauseDigit, -, h⟩ := bind_eq_ok.mp h
  cases h
  exact ⟨hinstrStr, mode, hmode, rfl⟩

/-- What the comparison of a row does when it finds a line for the row. -/
theorem exists_of_compareRow
    (h : compareRow toplevel pcFound lines j row s = .ok round) :
    ∃ isa op skipped next, readIsaRow s.mode row = .ok isa ∧
      skipDelayed s.rtlTraceStart (lines.drop (s.rtlTraceStart + j)) = .ok skipped ∧
      skipException toplevel lines j skipped isa.pc = .ok next ∧
      round = compareLine toplevel pcFound lines (next + j) op isa
        { s with rtlTraceStart := next } := by
  obtain ⟨isa, hisa, h⟩ := bind_eq_ok.mp h
  obtain ⟨skipped, hskipped, h⟩ := bind_eq_ok.mp h
  obtain ⟨op, -, h⟩ := bind_eq_ok.mp h
  have hend : ∀ x : Except PyError Round,
      x = (do
        let next ← skipException toplevel lines j skipped isa.pc
        .ok (compareLine toplevel pcFound lines (next + j) op isa
          { s with rtlTraceStart := next })) → x = .ok round →
      ∃ next, skipException toplevel lines j skipped isa.pc = .ok next ∧
        round = compareLine toplevel pcFound lines (next + j) op isa
          { s with rtlTraceStart := next } := by
    rintro _ rfl hx
    obtain ⟨next, hnext, hx⟩ := bind_eq_ok.mp hx
    exact ⟨next, hnext, (Except.ok.inj hx).symm⟩
  have hlast : ∃ next, skipException toplevel lines j skipped isa.pc = .ok next ∧
      round = compareLine toplevel pcFound lines (next + j) op isa
        { s with rtlTraceStart := next } := by
    split at h
    · obtain ⟨_, -, h⟩ := bind_eq_ok.mp h
      exact hend _ rfl h
    · exact hend _ rfl h
  obtain ⟨next, hnext, hround⟩ := hlast
  exact ⟨isa, op, skipped, next, hisa, hskipped, hnext, hround⟩

/-- The offset before row `j`: as many lines of instructions have been passed as rows. -/
structure Aligned (lines : List Text) (start j : ℕ) (s : State) : Prop where
  start_le : start ≤ s.rtlTraceStart + j
  count : instrLines lines start (s.rtlTraceStart + j) = j

/-- The round of a row is about the line that belongs to the row. -/
structure Round.Matches (lines : List Text) (start j : ℕ) (row : List Text) (round : Round) :
    Prop where
  index : IsInstrLine lines start j round.index
  resolved : ∀ k value, round.resolved = some (k, value) → ∃ instrStr reg,
    item row 6 = .ok instrStr ∧ wbReg instrStr = .ok reg ∧
      IsFirstDelayed lines round.index reg k value

/-- One row keeps the alignment. -/
theorem Aligned.step (hs : Aligned lines start j s)
    (hexception : toplevel = .rocketTile → ∀ line ∈ lines, isException line = false)
    (h : compareRow toplevel pcFound lines j row s = .ok round) :
    round.Matches lines start j row ∧
      ∀ t, round.outcome = .next t → Aligned lines start (j + 1) t := by
  obtain ⟨isa, op, skipped, next, hisa, hskipped, hnext, rfl⟩ := exists_of_compareRow h
  obtain rfl := eq_of_skipException hexception hnext
  have hline := isInstrLine_of_skipDelayed hs.start_le hskipped
  rw [hs.count] at hline
  refine ⟨⟨?_, ?_⟩, ?_⟩
  · rw [compareLine_index]
    exact hline
  · intro k value hresolved
    obtain ⟨reg, hreg, hfirst⟩ := isFirstDelayed_of_compareLine hresolved
    rw [compareLine_index]
    exact ⟨isa.instrStr, reg, (columns_of_readIsaRow hisa).1, hreg, hfirst⟩
  · intro t ht
    have hstart : t.rtlTraceStart + (j + 1) = next + j + 1 := by
      rw [rtlTraceStart_of_compareLine ht]
      rfl
    constructor
    · rw [hstart]
      exact hline.start_le.trans (Nat.le_succ _)
    · rw [hstart, hline.instrLines_succ]

end ProcessorFuzz.Common.TraceCompare
