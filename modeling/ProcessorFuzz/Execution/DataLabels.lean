import ProcessorFuzz.Execution.DataImage

/-!
# The labels of the data sections

The assembler places the lines of a section one after the other, each word in eight bytes. So the
labels of a section of `S` words are those numbered from `0` to `S / 2 - 5`, 16 bytes apart, and
there are 32 bytes of the section in front of the first one and 32 bytes behind the pair of the last
one.
-/

namespace ProcessorFuzz.Execution.DataLabels

open Library SignatureFile RtlMemory Preprocessor DataImage

/-- The labels of the lines of a section that begins at `addr`, with their addresses. -/
def labelsFrom : ℕ → List DataLine → List (Text × ℕ)
  | _, [] => []
  | addr, line :: lines =>
    (if line.label = [] then [] else [(line.label, addr)]) ++
      labelsFrom (addr + 8 * line.words.length) lines

/-- The address behind the last line of a section that begins at `addr`. -/
def endFrom (addr : ℕ) (lines : List DataLine) : ℕ :=
  addr + 8 * (lines.flatMap DataLine.words).length

theorem labelsFrom_append (addr : ℕ) (lines lines' : List DataLine) :
    labelsFrom addr (lines ++ lines') =
      labelsFrom addr lines ++ labelsFrom (endFrom addr lines) lines' := by
  induction lines generalizing addr with
  | nil => rfl
  | cons line lines ih =>
    have hend : endFrom addr (line :: lines) = endFrom (addr + 8 * line.words.length) lines := by
      simp only [endFrom, List.flatMap_cons, List.length_append]
      omega
    rw [List.cons_append, labelsFrom, labelsFrom, ih, List.append_assoc, hend]

/-- Every line stores two words. -/
theorem endFrom_eq (addr : ℕ) (lines : List DataLine) :
    endFrom addr lines = addr + 16 * lines.length := by
  induction lines generalizing addr with
  | nil => rfl
  | cons line lines ih =>
    have htail : endFrom addr (line :: lines) = endFrom (addr + 16) lines := by
      simp only [endFrom, List.flatMap_cons, List.length_append, DataLine.words, List.length_cons,
        List.length_nil]
      omega
    rw [htail, ih, List.length_cons]
    omega

variable {data : List ℤ} {S n : ℕ}

/-- The labels of the first `m` pairs. -/
theorem labelsFrom_pairLines (addr m : ℕ) :
    labelsFrom addr ((List.range m).map (pairLine data S n)) =
      (List.range (labelCount S m)).map fun k ↦ (dataLabel n k ++ ":".toList, addr + 32 + 16 * k) := by
  induction m with
  | zero =>
    rw [labelCount, Nat.zero_sub, Nat.zero_min]
    rfl
  | succ m ih =>
    have hend : endFrom addr ((List.range m).map (pairLine data S n)) = addr + 16 * m := by
      rw [endFrom_eq, List.length_map, List.length_range]
    rw [List.range_succ, List.map_append, List.map_singleton, labelsFrom_append, ih, hend,
      labelsFrom, labelsFrom, List.append_nil, pairLine, pairLabel]
    by_cases hlabel : 2 ≤ m ∧ m + 2 < S / 2
    · have hcount : labelCount S m = m - 2 := by
        rw [labelCount]
        omega
      have hcount' : labelCount S (m + 1) = m - 2 + 1 := by
        rw [labelCount]
        omega
      have haddr : addr + 32 + 16 * (m - 2) = addr + 16 * m := by omega
      rw [if_pos hlabel, if_neg (by simp [dataLabel]), hcount, hcount', List.range_succ,
        List.map_append, List.map_singleton, haddr]
    · have hcount : labelCount S (m + 1) = labelCount S m := by
        rw [labelCount, labelCount]
        omega
      rw [if_neg hlabel, if_pos rfl, List.append_nil, hcount]

/-- The labels of a section and its size in bytes. -/
theorem labelsFrom_emitSection (hsize : SectionSize data S) (hS : 16 ≤ S) (hn : n < 6)
    {lines : List DataLine} (hlines : emitSection data S n = .ok lines) (addr : ℕ) :
    labelsFrom addr lines = ((List.range (S / 2 - 4)).map fun k ↦
      (dataLabel n k ++ ":".toList, addr + 32 + 16 * k)) ∧ endFrom addr lines = addr + 8 * S := by
  obtain rfl := Except.ok.inj ((emitSection_eq_ok hsize.even (hsize.le_length hn)).symm.trans hlines)
  have hcount : labelCount S (S / 2) = S / 2 - 4 := by
    rw [labelCount]
    omega
  have heven := Nat.mul_div_cancel' hsize.even
  constructor
  · rw [labelsFrom_pairLines, hcount]
  · rw [endFrom_eq, List.length_map, List.length_range]
    omega

end ProcessorFuzz.Execution.DataLabels
