import Mathlib.Tactic.IntervalCases
import ProcessorFuzz.Execution.Preprocessor
import ProcessorFuzz.Execution.RtlHost

/-!
# The random data in the program and in the RTL memory

The preprocessor writes the data of a test into the sections of an assembly file, and the RTL hosts
write the same data into their memory, at addresses that they compute from the symbols of the linked
program. The emitter walks a section in pairs of words; the loader walks the addresses of a section
with an offset that it accumulates from the sizes of the sections before.

The linked program is an image of the memory in which the words of a section are placed one after
the other, from the symbol at its beginning to the symbol at its end. The hosts store exactly the
words of the image.
-/

namespace ProcessorFuzz.Execution.DataImage

open Library SignatureFile RtlMemory Preprocessor

/-- An image that has these words from `start` to `stop`, and nothing else between them. -/
structure Placed (image : ℕ → ℤ) (start stop : ℕ) (words : List ℤ) : Prop where
  stop_eq : stop = start + 8 * words.length
  image_eq : ∀ i word, words[i]? = some word → image (start + 8 * i) = word

/-- A program that is linked from the emitted sections: every section begins at a multiple of
eight. -/
structure LinkedImage (data : List ℤ) (sectionSize : ℕ) {symbols : Dict Text ℕ}
    (linked : Linked symbols) (image : ℕ → ℤ) : Prop where
  aligned : ∀ n < 6, 8 ∣ linked.dataStart n
  placed : ∀ n < 6, ∀ lines, emitSection data sectionSize n = .ok lines →
    Placed image (linked.dataStart n) (linked.dataEnd n) (lines.flatMap DataLine.words)

/-- Sections of `S` words, for a power of two that is at least two. -/
structure SectionSize (data : List ℤ) (S : ℕ) : Prop where
  pow : ∃ k, S = 2 ^ k
  two_le : 2 ≤ S
  length_eq : data.length = 6 * S

namespace SectionSize

variable {data : List ℤ} {S : ℕ}

theorem even (h : SectionSize data S) : 2 ∣ S := by
  obtain ⟨k, rfl⟩ := h.pow
  have htwo := h.two_le
  cases k with
  | zero => exact absurd htwo (by decide)
  | succ k => exact Nat.pow_succ' ▸ Nat.dvd_mul_right 2 (2 ^ k)

theorem length_div (h : SectionSize data S) : data.length / 6 = S := by
  rw [h.length_eq, Nat.mul_div_cancel_left S (by decide)]

theorem le_length (h : SectionSize data S) {n : ℕ} (hn : n < 6) : (n + 1) * S ≤ data.length := by
  rw [h.length_eq]
  exact Nat.mul_le_mul_right S hn

/-- The data pass the checks of `process`. -/
theorem checkData_eq_ok (h : SectionSize data S) : checkData data 6 = .ok () := by
  have hnonempty : (!data.isEmpty) = true := by
    have htwo := h.two_le
    have hlength := h.length_eq
    cases data with
    | nil =>
      rw [List.length_nil] at hlength
      omega
    | cons word rest => rfl
  have hmask : S &&& (S - 1) = 0 := by
    obtain ⟨k, rfl⟩ := h.pow
    rw [Nat.and_two_pow_sub_one_eq_mod, Nat.mod_self]
  rw [checkData, hnonempty, assert_true, ok_bind]
  dsimp only
  rw [h.length_div, assert_eq_ok, decide_eq_true_eq]
  exact hmask

/-- A section is emitted with exactly its own words. -/
theorem exists_emitSection (h : SectionSize data S) {n : ℕ} (hn : n < 6) :
    ∃ lines, emitSection data S n = .ok lines ∧
      lines.flatMap DataLine.words = (data.drop (n * S)).take S :=
  ⟨_, emitSection_eq_ok h.even (h.le_length hn), words_pairLines h.even (h.le_length hn)⟩

theorem length_section (h : SectionSize data S) {n : ℕ} (hn : n < 6) :
    ((data.drop (n * S)).take S).length = S := by
  have hle := h.le_length hn
  have hnext : (n + 1) * S = n * S + S := Nat.succ_mul n S
  rw [List.length_take, List.length_drop]
  omega

theorem getElem?_section (h : SectionSize data S) {n i : ℕ} (hn : n < 6) (hi : i < S) :
    ((data.drop (n * S)).take S)[i]? = some (data.getD (n * S + i) 0) := by
  have hle := h.le_length hn
  have hnext : (n + 1) * S = n * S + S := Nat.succ_mul n S
  rw [List.getElem?_take_of_lt hi, List.getElem?_drop, List.getD_eq_getElem?_getD,
    List.getElem?_eq_getElem (by omega), Option.getD_some]

end SectionSize

/-- Behind a line of the template that names one data section, `process` inserts this section. -/
theorem dataInsertion_eq_ok {data : List ℤ} {S n : ℕ} {line : Text} {lines : List DataLine}
    (hn : n < 6) (hline : ∀ m < 6, Marks (dataStartSymbol m) line ↔ m = n)
    (hlines : emitSection data S n = .ok lines) :
    dataInsertion data S 6 line = .ok (lines.map DataLine.text) := by
  have hstep : ∀ m ∈ List.range 6, ∀ assembly : List Text,
      (if Marks (dataStartSymbol m) line then do
        let lines ← emitSection data S m
        .ok (assembly ++ lines.map DataLine.text)
      else .ok assembly : Except PyError (List Text)) =
        .ok (assembly ++ if m = n then lines.map DataLine.text else []) := by
    intro m hm assembly
    have hmarks := hline m (List.mem_range.mp hm)
    by_cases heq : m = n
    · rw [if_pos (hmarks.mpr heq), if_pos heq, heq, hlines, ok_bind]
    · rw [if_neg (fun h ↦ heq (hmarks.mp h)), if_neg heq, List.append_nil]
  have hfold : (List.range 6).foldl
      (fun assembly m ↦ assembly ++ if m = n then lines.map DataLine.text else []) [] =
        lines.map DataLine.text := by
    rw [List.foldl_append_eq_append, List.nil_append]
    interval_cases n <;> simp [List.range_succ]
  rw [dataInsertion, foldlM_eq_ok hstep, hfold]

section Loading

variable {input : RtlInput} {linked : Linked input.symbols} {S : ℕ} {image : ℕ → ℤ}

theorem dataEnd_eq (hsize : SectionSize input.data S)
    (himage : LinkedImage input.data S linked image) {n : ℕ} (hn : n < 6) :
    linked.dataEnd n = linked.dataStart n + 8 * S := by
  obtain ⟨lines, hlines, hwords⟩ := hsize.exists_emitSection hn
  have hstop := (himage.placed n hn lines hlines).stop_eq
  rwa [hwords, hsize.length_section hn] at hstop

theorem image_eq (hsize : SectionSize input.data S)
    (himage : LinkedImage input.data S linked image) {n i : ℕ} (hn : n < 6) (hi : i < S) :
    image (linked.dataStart n + 8 * i) = input.data.getD (n * S + i) 0 := by
  obtain ⟨lines, hlines, hwords⟩ := hsize.exists_emitSection hn
  apply (himage.placed n hn lines hlines).image_eq
  rw [hwords, hsize.getElem?_section hn hi]

/-- The running offset of the loader is the position of the section in the data. -/
theorem offset_eq (hsize : SectionSize input.data S)
    (himage : LinkedImage input.data S linked image) {n : ℕ} (hn : n ≤ 6) :
    linked.offset n = ((n * S : ℕ) : ℤ) := by
  induction n with
  | zero => simp [Linked.offset]
  | succ n ih =>
    rw [Linked.offset, ih (by omega), dataEnd_eq hsize himage (by omega)]
    push_cast
    have hsize : ((linked.dataStart n : ℤ) + 8 * S - linked.dataStart n) / 8 = S := by omega
    rw [hsize]
    ring

theorem getElem?_sectionAddrs (hsize : SectionSize input.data S)
    (himage : LinkedImage input.data S linked image) {n i : ℕ} (hn : n < 6) :
    (linked.sectionAddrs n)[i]? = if i < S then some (linked.dataStart n + 8 * i) else none := by
  have haligned := himage.aligned n hn
  have hstart : linked.dataStart n / 8 * 8 = linked.dataStart n := Nat.div_mul_cancel haligned
  have hstop : linked.dataEnd n / 8 * 8 = linked.dataEnd n := by
    rw [dataEnd_eq hsize himage hn]
    exact Nat.div_mul_cancel (Nat.dvd_add haligned (Nat.dvd_mul_right 8 S))
  have hlt : linked.dataStart n + 8 * i < linked.dataEnd n ↔ i < S := by
    rw [dataEnd_eq hsize himage hn]
    omega
  rw [Linked.sectionAddrs, RtlMemory.sectionAddrs, hstart, hstop, getElem?_rangeStep (by decide)]
  simp only [hlt]

theorem length_sectionAddrs (hsize : SectionSize input.data S)
    (himage : LinkedImage input.data S linked image) {n i : ℕ} (hn : n < 6) :
    i < (linked.sectionAddrs n).length ↔ i < S := by
  have hget := getElem?_sectionAddrs hsize himage hn (i := i)
  constructor
  · intro h
    by_contra hnot
    rw [if_neg hnot, List.getElem?_eq_none_iff] at hget
    omega
  · intro h
    by_contra hnot
    rw [if_pos h, List.getElem?_eq_none (by omega)] at hget
    exact nomatch hget

/-- The loader reads word `i` of section `n` at position `n * S + i` of the data. -/
theorem dataWord_eq_ok (hsize : SectionSize input.data S)
    (himage : LinkedImage input.data S linked image) {n i : ℕ} (hn : n < 6) (hi : i < S) :
    dataWord input.data (linked.offset n) i = .ok (input.data.getD (n * S + i) 0) := by
  have hle := hsize.le_length hn
  have hnext : (n + 1) * S = n * S + S := Nat.succ_mul n S
  have hindex : ((i : ℕ) : ℤ) + linked.offset n = ((n * S + i : ℕ) : ℤ) := by
    rw [offset_eq hsize himage (by omega)]
    push_cast
    ring
  rw [dataWord, hindex, item_eq_getD (by omega)]

theorem dataReadable (hsize : SectionSize input.data S)
    (himage : LinkedImage input.data S linked image) {n : ℕ} (hn : n < 6) :
    linked.DataReadable input.data n := by
  intro i hi
  exact ⟨_, dataWord_eq_ok hsize himage hn ((length_sectionAddrs hsize himage hn).mp hi)⟩

/-- Every entry that is stored for the data is a word of the image. -/
theorem entry_eq_image (hsize : SectionSize input.data S)
    (himage : LinkedImage input.data S linked image) {entry : ℕ × ℤ}
    (hentry : entry ∈ linked.dataEntries input.data 6) : entry.2 = image entry.1 := by
  obtain ⟨n, hn, hentry⟩ := List.mem_flatMap.mp hentry
  have hn : n < 6 := List.mem_range.mp hn
  obtain ⟨⟨addr, i⟩, hmem, rfl⟩ := List.mem_map.mp hentry
  have haddr := List.mk_mem_zipIdx_iff_getElem?.mp hmem
  rw [getElem?_sectionAddrs hsize himage hn] at haddr
  split at haddr
  · next hi =>
    obtain rfl := Option.some.inj haddr
    dsimp only
    rw [dataWord_eq_ok hsize himage hn hi, image_eq hsize himage hn hi]
    rfl
  · exact nomatch haddr

/-- Whatever the memory held before, the loader leaves the word of the image. -/
theorem get?_update_dataEntries (hsize : SectionSize input.data S)
    (himage : LinkedImage input.data S linked image) (memory : Dict ℕ ℤ) {n i : ℕ} (hn : n < 6)
    (hi : i < S) :
    (memory.update (linked.dataEntries input.data 6)).get? (linked.dataStart n + 8 * i) =
      some (image (linked.dataStart n + 8 * i)) := by
  apply Dict.get?_update_of_forall
  · rw [mem_dataEntries]
    refine ⟨n, hn, List.mem_iff_getElem?.mpr ⟨i, ?_⟩⟩
    rw [getElem?_sectionAddrs hsize himage hn, if_pos hi]
  · intro entry hentry hkey
    rw [entry_eq_image hsize himage hentry, hkey]

end Loading

/-- The sections of the assembly file hold the data in order, and both hosts store in the memory
what the linked program has there. -/
theorem hosts_hold_emitted_data {S : ℕ} (data : List UInt64) (input : RtlInput)
    (linked : Linked input.symbols) (image : ℕ → ℤ)
    (hinput : input.data = data.map fun word ↦ (word.toNat : ℤ))
    (hsize : SectionSize input.data S)
    (hcode : linked.CodeReadable (Text.readlines input.hexfile))
    (himage : LinkedImage input.data S linked image) :
    checkData input.data 6 = .ok () ∧ input.data.length / 6 = S ∧
      (∀ n < 6, ∃ lines, emitSection input.data S n = .ok lines ∧
        lines.flatMap DataLine.words = (input.data.drop (n * S)).take S ∧
        ∀ line, (∀ m < 6, Marks (dataStartSymbol m) line ↔ m = n) →
          dataInsertion input.data S 6 line = .ok (lines.map DataLine.text)) ∧
      ∃ host simulator, hostMemory input = .ok host ∧ simulatorMemory input = .ok simulator ∧
        ∀ n < 6, ∀ i < S, ∃ word, data[n * S + i]? = some word ∧
          image (linked.dataStart n + 8 * i) = word.toNat ∧
          host.get? (linked.dataStart n + 8 * i) = some (word.toNat : ℤ) ∧
          simulator.get? (linked.dataStart n + 8 * i) = some (word.toNat : ℤ) := by
  have hreadable : Readable linked := ⟨hcode, fun n hn ↦ dataReadable hsize himage hn⟩
  refine ⟨hsize.checkData_eq_ok, hsize.length_div, fun n hn ↦ ?_, ?_⟩
  · obtain ⟨lines, hlines, hwords⟩ := hsize.exists_emitSection hn
    exact ⟨lines, hlines, hwords, fun line hline ↦ dataInsertion_eq_ok hn hline hlines⟩
  · refine ⟨_, _, (hostMemory_eq_ok linked).mpr ⟨hreadable, rfl⟩,
      (simulatorMemory_eq_ok linked).mpr ⟨hreadable, rfl⟩, fun n hn i hi ↦ ?_⟩
    have hle := hsize.le_length hn
    have hnext : (n + 1) * S = n * S + S := Nat.succ_mul n S
    have hlength : data.length = input.data.length := by rw [hinput, List.length_map]
    have hindex : n * S + i < data.length := by omega
    have hword : image (linked.dataStart n + 8 * i) = (data[n * S + i].toNat : ℤ) := by
      rw [image_eq hsize himage hn hi, hinput, List.getD_eq_getElem?_getD, List.getElem?_map,
        List.getElem?_eq_getElem hindex]
      rfl
    refine ⟨data[n * S + i], List.getElem?_eq_getElem hindex, hword, ?_, ?_⟩
    · rw [get?_update_dataEntries hsize himage _ hn hi, hword]
    · rw [get?_update_dataEntries hsize himage _ hn hi, hword]

theorem sectionSize_linkedTest : SectionSize RtlHost.linkedTest.data 2 where
  pow := ⟨1, rfl⟩
  two_le := le_rfl
  length_eq := rfl

/-- The words 1 to 12, two in each section. -/
def linkedTestImage (addr : ℕ) : ℤ :=
  (((addr - 0x80010000) / 0x10000 * 2 + addr % 0x10000 / 8 + 1 : ℕ) : ℤ)

theorem linkedImage_linkedTest :
    LinkedImage RtlHost.linkedTest.data 2 RtlHost.linkedTestLinked linkedTestImage where
  aligned := by decide
  placed n hn lines hlines := by
    obtain ⟨lines', hlines', hwords⟩ := sectionSize_linkedTest.exists_emitSection hn
    obtain rfl := Except.ok.inj (hlines.symm.trans hlines')
    have hlength := sectionSize_linkedTest.length_section hn
    rw [hwords]
    refine ⟨?_, fun i word hword ↦ ?_⟩
    · simp only [hlength, RtlHost.linkedTestLinked]
      omega
    · have hi : i < 2 := hlength ▸ (List.getElem?_eq_some_iff.mp hword).1
      rw [sectionSize_linkedTest.getElem?_section hn hi] at hword
      obtain rfl := Option.some.inj hword
      interval_cases n <;> interval_cases i <;> rfl

theorem hosts_hold_emitted_data_linkedTest :
    checkData RtlHost.linkedTest.data 6 = .ok () ∧ RtlHost.linkedTest.data.length / 6 = 2 ∧
      (∀ n < 6, ∃ lines, emitSection RtlHost.linkedTest.data 2 n = .ok lines ∧
        lines.flatMap DataLine.words = (RtlHost.linkedTest.data.drop (n * 2)).take 2 ∧
        ∀ line, (∀ m < 6, Marks (dataStartSymbol m) line ↔ m = n) →
          dataInsertion RtlHost.linkedTest.data 2 6 line = .ok (lines.map DataLine.text)) ∧
      ∃ host simulator, hostMemory RtlHost.linkedTest = .ok host ∧
        simulatorMemory RtlHost.linkedTest = .ok simulator ∧
        ∀ n < 6, ∀ i < 2, ∃ word,
          ([1, 2, 3, 4, 5, 6, 7, 8, 9, 10, 11, 12] : List UInt64)[n * 2 + i]? = some word ∧
          linkedTestImage (RtlHost.linkedTestLinked.dataStart n + 8 * i) = word.toNat ∧
          host.get? (RtlHost.linkedTestLinked.dataStart n + 8 * i) = some (word.toNat : ℤ) ∧
          simulator.get? (RtlHost.linkedTestLinked.dataStart n + 8 * i) =
            some (word.toNat : ℤ) := by
  have hcode : RtlHost.linkedTestLinked.CodeReadable
      (Text.readlines RtlHost.linkedTest.hexfile) :=
    ((hostMemory_eq_ok RtlHost.linkedTestLinked).mp RtlHost.hostMemory_linkedTest).1.code
  exact hosts_hold_emitted_data [1, 2, 3, 4, 5, 6, 7, 8, 9, 10, 11, 12] RtlHost.linkedTest
    RtlHost.linkedTestLinked linkedTestImage rfl sectionSize_linkedTest hcode
    linkedImage_linkedTest

end ProcessorFuzz.Execution.DataImage
