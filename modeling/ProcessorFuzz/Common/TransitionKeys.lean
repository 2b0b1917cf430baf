import ProcessorFuzz.Common.Transitions
import ProcessorFuzz.Execution.SpikeCsrs

/-!
# When transitions share a key

The keys of `extract_transitions` are register values as `processor_t::disasm` prints them, put
together without separators. Most values have a fixed width, but the cause registers and `medeleg`
are only padded to a minimum, so digits can move from one value to the next: two transitions share
a key exactly when the concatenations have the same length and the same value.

What keeps the keys apart is the processor. `set_csr` masks the cause registers and a trap stores
its cause, so that they hold an interrupt, printed with sixteen digits of which the first is at
least eight, or a small exception code, printed with two. The first digit then tells the width.
-/

namespace ProcessorFuzz.Common.TransitionKeys

open Library Transitions Execution.SpikeLog Execution.SpikeCsrs

/-- The record that is read from a line of the Spike log. -/
def recordOf (state : State) (instr pc : Text) : Record where
  mstatus := "0x".toList ++ Text.hexPad 16 state.mstatus.toNat
  frm := Text.hexPad 1 state.frm.toNat
  fflags := Text.hexPad 2 state.fflags.toNat
  mcause := Text.hexPad 2 state.mcause.toNat
  scause := Text.hexPad 2 state.scause.toNat
  medeleg := Text.hexPad 8 state.medeleg.toNat
  mcounteren := Text.hexPad 8 state.mcounteren.toNat
  scounteren := Text.hexPad 8 state.scounteren.toNat
  others := []
  instr := instr
  pc := pc

theorem not_mem_hexPad_append {c : Char} (hc : Text.isHexDigit c = false) {width n : ℕ}
    {before : Text} (hbefore : c ∉ before) : c ∉ before ++ Text.hexPad width n := by
  intro h
  rcases List.mem_append.mp h with h | h
  · exact hbefore h
  · exact not_mem_hexPad hc width n h

theorem commas_eq (a b c d e f g h : Text) :
    "0x".toList ++ a ++ ",".toList ++ b ++ ",".toList ++ c ++ ",".toList ++ d ++ ",".toList ++ e ++
        ",".toList ++ f ++ ",".toList ++ g ++ ",".toList ++ h =
      ("0x".toList ++ a) ++ ',' :: (b ++ ',' :: (c ++ ',' :: (d ++ ',' :: (e ++ ',' :: (f ++
        ',' :: (g ++ ',' :: h)))))) := by
  have hsep : ",".toList = [','] := rfl
  simp only [hsep, List.append_assoc, List.cons_append, List.nil_append]

/-- The commas between the values are the only ones. -/
theorem split_csrValues (state : State) :
    Text.split [','] (csrValues state) =
      ["0x".toList ++ Text.hexPad 16 state.mstatus.toNat, Text.hexPad 1 state.frm.toNat,
        Text.hexPad 2 state.fflags.toNat, Text.hexPad 2 state.mcause.toNat,
        Text.hexPad 2 state.scause.toNat, Text.hexPad 8 state.medeleg.toNat,
        Text.hexPad 8 state.mcounteren.toNat, Text.hexPad 8 state.scounteren.toNat] := by
  have hcomma : ∀ width n, ',' ∉ Text.hexPad width n := not_mem_hexPad (by decide)
  have hfirst : ',' ∉ "0x".toList ++ Text.hexPad 16 state.mstatus.toNat :=
    not_mem_hexPad_append (by decide) (by decide)
  have hshape : csrValues state = _ := commas_eq _ _ _ _ _ _ _ _
  rw [hshape, Text.split_append_cons hfirst, Text.split_append_cons (hcomma _ _),
    Text.split_append_cons (hcomma _ _), Text.split_append_cons (hcomma _ _),
    Text.split_append_cons (hcomma _ _), Text.split_append_cons (hcomma _ _),
    Text.split_append_cons (hcomma _ _), Text.split_of_not_mem (hcomma _ _)]

theorem isSpace_of_mem_hexPad {width n : ℕ} {c : Char} (h : c ∈ Text.hexPad width n) :
    Text.isSpace c = false := by
  obtain ⟨d, hd, rfl⟩ := Text.exists_digitChar (Text.isHexDigit_of_mem_hexPad h)
  exact Text.isSpace_of_digitValue (Text.digitValue_digitChar hd)

theorem header_eq (padding number pc bits values disassembly : Text) :
    "core ".toList ++ (padding ++ number) ++ ": 0x".toList ++ pc ++ " (0x".toList ++ bits ++
        ") ".toList ++ "[".toList ++ values ++ "]".toList ++ " ".toList ++ disassembly ++
        "\n".toList =
      "core".toList ++ ' ' :: (padding ++ ((number ++ [':']) ++ ' ' :: (("0x".toList ++ pc) ++
        ' ' :: ("(0x".toList ++ bits ++ ") ".toList ++ "[".toList ++ values ++ "]".toList ++
        " ".toList ++ disassembly ++ "\n".toList)))) := by
  have hfirst : "core ".toList = "core".toList ++ [' '] := rfl
  have hcolon : ": 0x".toList = [':'] ++ [' '] ++ "0x".toList := rfl
  have hbits : " (0x".toList = ' ' :: "(0x".toList := rfl
  simp only [hfirst, hcolon, hbits, List.append_assoc, List.cons_append, List.nil_append]

/-- The third word of a line is the program counter. -/
theorem item_words_instructionLine (id : UInt32) (state : State) (bits : UInt64)
    (disassembly : Text) :
    Text.item (Text.words (instructionLine id state bits disassembly)) 2 =
      .ok ("0x".toList ++ Text.hexPad 16 state.pc.toNat) := by
  have hcore : ∀ c ∈ "core".toList, Text.isSpace c = false := by decide
  have hid : ∀ c ∈ Text.dec id.toNat ++ [':'], Text.isSpace c = false := by
    intro c hc
    rcases List.mem_append.mp hc with hc | hc
    · obtain ⟨d, -, hd⟩ := Text.isNumeral_toDigits (by decide) (by decide) id.toNat c hc
      exact Text.isSpace_of_digitValue hd
    · rw [List.mem_singleton.mp hc]
      decide
  have hpc : ∀ c ∈ "0x".toList ++ Text.hexPad 16 state.pc.toNat, Text.isSpace c = false := by
    intro c hc
    rcases List.mem_append.mp hc with hc | hc
    · have hall : ∀ c ∈ "0x".toList, Text.isSpace c = false := by decide
      exact hall c hc
    · exact isSpace_of_mem_hexPad hc
  have hspace : Text.isSpace ' ' = true := by decide
  obtain ⟨rest, hrest⟩ : ∃ rest, instructionLine id state bits disassembly =
      "core".toList ++ ' ' :: (List.replicate (3 - (Text.dec id.toNat).length) ' ' ++
        ((Text.dec id.toNat ++ [':']) ++ ' ' ::
          (("0x".toList ++ Text.hexPad 16 state.pc.toNat) ++ ' ' :: rest))) :=
    ⟨_, header_eq _ _ _ _ _ _⟩
  have hwords : Text.words (instructionLine id state bits disassembly) =
      "core".toList :: (Text.dec id.toNat ++ [':']) ::
        ("0x".toList ++ Text.hexPad 16 state.pc.toNat) :: Text.words rest := by
    rw [hrest, Text.words_append_cons (by decide) hcore hspace,
      Text.words_replicate_space hspace, Text.words_append_cons (by simp) hid hspace,
      Text.words_append_cons (by simp) hpc hspace]
  rw [hwords]
  rfl

/-- A line of the Spike log is read back value by value. -/
theorem exists_parseRecord (id : UInt32) (state : State) (bits : UInt64) (disassembly : Text) :
    ∃ instr pc, parseRecord false (instructionLine id state bits disassembly) =
      .ok (recordOf state instr pc) := by
  set tail := " ".toList ++ disassembly ++ "\n".toList
  have hline : instructionLine id state bits disassembly =
      lineHeader id state bits ++ '[' :: (csrValues state ++ ']' :: tail) := by
    have hopen : "[".toList = ['['] := rfl
    have hclose : "]".toList = [']'] := rfl
    simp only [instructionLine, hopen, hclose, List.append_assoc, List.cons_append,
      List.nil_append, tail]
  set before := tail.takeWhile (· ≠ '[')
  have hnot : ∀ c, Text.isHexDigit c = false → c ∉ "0x".toList → c ∉ ",".toList →
      c ∉ csrValues state := fun c ↦ not_mem_csrValues state
  have hbracket : (csrValues state ++ ']' :: tail).takeWhile (· ≠ '[') =
      csrValues state ++ ']' :: before := by
    have hvalues : ∀ c ∈ csrValues state, decide (c ≠ '[') = true := by
      rintro c hc
      rw [decide_eq_true_eq]
      rintro rfl
      exact hnot '[' (by decide) (by decide) (by decide) hc
    rw [List.takeWhile_append_of_pos hvalues]
    rfl
  have hone : Text.item (Text.split ['['] (instructionLine id state bits disassembly)) 1 =
      .ok (csrValues state ++ ']' :: before) := by
    rw [hline, Text.split_append_cons (bracket_not_mem_lineHeader id state bits)]
    apply Text.item_of_getElem?
    rw [List.getElem?_cons_succ, Text.split_head, hbracket]
  have hsplit : Text.split [']'] (csrValues state ++ ']' :: before) =
      csrValues state :: Text.split [']'] before :=
    Text.split_append_cons (hnot ']' (by decide) (by decide) (by decide)) before
  have hinstr : Text.item (csrValues state :: Text.split [']'] before) 1 =
      .ok (before.takeWhile (· ≠ ']')) := by
    apply Text.item_of_getElem?
    rw [List.getElem?_cons_succ, Text.split_head]
  refine ⟨Text.rstrip (before.takeWhile (· ≠ ']')),
    "0x".toList ++ Text.hexPad 16 state.pc.toNat, ?_⟩
  unfold parseRecord
  rw [hone, ok_bind, hsplit]
  have hvals : Text.item (csrValues state :: Text.split [']'] before) 0 =
    .ok (csrValues state) := rfl
  rw [hvals, ok_bind, hinstr, ok_bind]
  dsimp only
  rw [split_csrValues, item_words_instructionLine]
  rfl

/-- The registers of a privilege transition as they are concatenated. -/
def privText (s : State) : Text :=
  ("0x".toList ++ Text.hexPad 16 s.mstatus.toNat) ++ Text.hexPad 2 s.mcause.toNat ++
    Text.hexPad 2 s.scause.toNat ++ Text.hexPad 8 s.medeleg.toNat ++
    Text.hexPad 8 s.mcounteren.toNat ++ Text.hexPad 8 s.scounteren.toNat

/-- The field `FS` of `mstatus`. -/
def fs (s : State) : ℕ := s.mstatus.toNat / 2 ^ 13 % 4

/-- The registers of a floating-point transition as they are concatenated. -/
def funcText (s : State) : Text :=
  Text.dec (fs s) ++ Text.hexPad 1 s.frm.toNat ++ Text.hexPad 2 s.fflags.toNat

theorem combF_recordOf (s : State) (instr pc : Text) :
    Transitions.combF (recordOf s instr pc) = .ok (funcText s) := by
  have hmstatus : Text.int 16 (recordOf s instr pc).mstatus = .ok (s.mstatus.toNat : ℤ) := by
    have hnumeral : Text.IsNumeral 16 (Text.zeroPad 16 16 s.mstatus.toNat) :=
      Text.isNumeral_zeroPad (by decide) (by decide) 16 s.mstatus.toNat
    have hread := Text.int_hex_prefix (Text.zeroPad_ne_nil 16 16 s.mstatus.toNat) hnumeral
    rwa [Text.numeralValue_zeroPad (by decide) (by decide)] at hread
  have hfs : ((s.mstatus.toNat : ℤ) / 2 ^ 13 % 4).toNat = fs s := by
    unfold fs
    omega
  rw [Transitions.combF, hmstatus, ok_bind, hfs]
  rfl

/-- What two consecutive records are described by. -/
def transitionKeys (l₁ l₂ : Text) : Except PyError (Option Change) := do
  let p ← parseRecord false l₁
  let r ← parseRecord false l₂
  changeFrom false (some p) r

/-- The keys of two consecutive records of the Spike log, printed in the states `s` and `t`. -/
def Observed (s t : State) (keys : Keys) : Prop :=
  ∃ id bits disassembly id' bits' disassembly',
    transitionKeys (instructionLine id s bits disassembly)
      (instructionLine id' t bits' disassembly') = .ok (some (.csrs keys))

theorem Observed.keys_eq {s t : State} {keys : Keys} (h : Observed s t keys) :
    keys.combPrP = privText s ∧ keys.combPr = privText t ∧ keys.combFP = funcText s ∧
      keys.combF = funcText t := by
  obtain ⟨id, bits, disassembly, id', bits', disassembly', h⟩ := h
  obtain ⟨instr, pc, hp⟩ := exists_parseRecord id s bits disassembly
  obtain ⟨instr', pc', hr⟩ := exists_parseRecord id' t bits' disassembly'
  rw [transitionKeys, hp, ok_bind, hr, ok_bind] at h
  simp only [changeFrom, Bool.false_eq_true, if_false, compareCsrs] at h
  split at h
  · rw [combF_recordOf, ok_bind, combF_recordOf, ok_bind] at h
    obtain ⟨key, -, h⟩ := bind_eq_ok.mp h
    obtain rfl := Change.csrs.inj (Option.some.inj (Except.ok.inj h))
    exact ⟨rfl, rfl, rfl, rfl⟩
  · cases Except.ok.inj h

theorem hexPad_injective (width : ℕ) : Function.Injective (Text.hexPad width) := by
  intro m n h
  have hvalue := congrArg (Text.numeralValue 16) h
  rwa [Text.hexPad_eq_zeroPad, Text.hexPad_eq_zeroPad,
    Text.numeralValue_zeroPad (by decide) (by decide),
    Text.numeralValue_zeroPad (by decide) (by decide)] at hvalue

theorem hexPad_toNat_inj {width : ℕ} {a b : UInt64}
    (h : Text.hexPad width a.toNat = Text.hexPad width b.toNat) : a = b :=
  UInt64.toNat_inj.mp (hexPad_injective width h)

theorem hexPad_toNat_inj' {width : ℕ} {a b : UInt32}
    (h : Text.hexPad width a.toNat = Text.hexPad width b.toNat) : a = b :=
  UInt32.toNat_inj.mp (hexPad_injective width h)

/-- The number of digits that `%0<width>x` prints. -/
def digits (width n : ℕ) : ℕ := max width (Text.hex n).length

theorem length_hexPad_eq (width n : ℕ) : (Text.hexPad width n).length = digits width n := by
  rw [Text.hexPad, List.length_append, List.length_replicate, digits]
  omega

theorem value_hexPad (width n : ℕ) : Text.numeralValue 16 (Text.hexPad width n) = n :=
  Text.numeralValue_zeroPad (by decide) (by decide) width n

theorem isHexDigit_hexPad_append {width n : ℕ} {before : Text}
    (h : ∀ c ∈ before, Text.isHexDigit c = true) :
    ∀ c ∈ before ++ Text.hexPad width n, Text.isHexDigit c = true := by
  intro c hc
  rcases List.mem_append.mp hc with hc | hc
  · exact h c hc
  · exact Text.isHexDigit_of_mem_hexPad hc

/-- The values of the registers without a fixed width, as one number. -/
def causeValue (s : State) : ℕ :=
  (s.mcause.toNat * 16 ^ digits 2 s.scause.toNat + s.scause.toNat) *
    16 ^ digits 8 s.medeleg.toNat + s.medeleg.toNat

/-- The privilege registers of two states print to the same concatenation. -/
structure PrivOverlap (s t : State) : Prop where
  mstatus : s.mstatus = t.mstatus
  mcounteren : s.mcounteren = t.mcounteren
  scounteren : s.scounteren = t.scounteren
  width : digits 2 s.mcause.toNat + digits 2 s.scause.toNat + digits 8 s.medeleg.toNat =
    digits 2 t.mcause.toNat + digits 2 t.scause.toNat + digits 8 t.medeleg.toNat
  value : causeValue s = causeValue t

/-- The floating-point registers of two states print to the same concatenation. -/
structure FuncOverlap (s t : State) : Prop where
  fs : fs s = fs t
  width : digits 1 s.frm.toNat + digits 2 s.fflags.toNat =
    digits 1 t.frm.toNat + digits 2 t.fflags.toNat
  value : s.frm.toNat * 16 ^ digits 2 s.fflags.toNat + s.fflags.toNat =
    t.frm.toNat * 16 ^ digits 2 t.fflags.toNat + t.fflags.toNat

/-- The part of a privilege key whose values have no fixed width. -/
def causeText (s : State) : Text :=
  Text.hexPad 2 s.mcause.toNat ++ Text.hexPad 2 s.scause.toNat ++ Text.hexPad 8 s.medeleg.toNat

theorem length_causeText (s : State) : (causeText s).length =
    digits 2 s.mcause.toNat + digits 2 s.scause.toNat + digits 8 s.medeleg.toNat := by
  simp only [causeText, List.length_append, length_hexPad_eq]

theorem value_causeText (s : State) : Text.numeralValue 16 (causeText s) = causeValue s := by
  rw [causeText, Text.numeralValue_append, Text.numeralValue_append, value_hexPad, value_hexPad,
    value_hexPad, length_hexPad_eq, length_hexPad_eq, causeValue]

theorem isHexDigit_causeText (s : State) : ∀ c ∈ causeText s, Text.isHexDigit c = true :=
  isHexDigit_hexPad_append (isHexDigit_hexPad_append fun _ ↦ Text.isHexDigit_of_mem_hexPad)

theorem causeText_eq_iff {s t : State} : causeText s = causeText t ↔
    (digits 2 s.mcause.toNat + digits 2 s.scause.toNat + digits 8 s.medeleg.toNat =
      digits 2 t.mcause.toNat + digits 2 t.scause.toNat + digits 8 t.medeleg.toNat) ∧
    causeValue s = causeValue t := by
  constructor
  · intro h
    constructor
    · rw [← length_causeText, ← length_causeText, h]
    · rw [← value_causeText, ← value_causeText, h]
  · rintro ⟨hwidth, hvalue⟩
    apply Text.eq_of_numeralValue_eq (isHexDigit_causeText s) (isHexDigit_causeText t)
    · rw [length_causeText, length_causeText, hwidth]
    · rw [value_causeText, value_causeText, hvalue]

theorem length_hexPad_toNat (a : UInt64) : (Text.hexPad 16 a.toNat).length = 16 :=
  Text.length_hexPad (by decide) a.toNat_lt

theorem length_hexPad_toNat' (a : UInt32) : (Text.hexPad 8 a.toNat).length = 8 :=
  Text.length_hexPad (by decide) a.toNat_lt

theorem append_six (a b c d e f : Text) :
    a ++ b ++ c ++ d ++ e ++ f = a ++ (b ++ c ++ d ++ (e ++ f)) := by
  simp only [List.append_assoc]

/-- Around the cause registers stand values of fixed width. -/
theorem privText_eq (s : State) :
    privText s = ("0x".toList ++ Text.hexPad 16 s.mstatus.toNat) ++
      (causeText s ++ (Text.hexPad 8 s.mcounteren.toNat ++ Text.hexPad 8 s.scounteren.toNat)) :=
  append_six _ _ _ _ _ _

theorem privText_eq_iff {s t : State} : privText s = privText t ↔ PrivOverlap s t := by
  rw [privText_eq, privText_eq]
  constructor
  · intro h
    obtain ⟨hmstatus, h⟩ := List.append_inj h (by
      rw [List.length_append, List.length_append, length_hexPad_toNat, length_hexPad_toNat])
    obtain ⟨hcause, h⟩ := List.append_inj' h (by
      simp only [List.length_append, length_hexPad_toNat'])
    obtain ⟨hmcounteren, hscounteren⟩ := List.append_inj h (by
      rw [length_hexPad_toNat', length_hexPad_toNat'])
    obtain ⟨hwidth, hvalue⟩ := causeText_eq_iff.mp hcause
    exact ⟨hexPad_toNat_inj (List.append_cancel_left hmstatus), hexPad_toNat_inj' hmcounteren,
      hexPad_toNat_inj' hscounteren, hwidth, hvalue⟩
  · intro h
    rw [h.mstatus, h.mcounteren, h.scounteren, causeText_eq_iff.mpr ⟨h.width, h.value⟩]

theorem length_dec_fs (s : State) : (Text.dec (fs s)).length = 1 := by
  have hall : ∀ n < 4, (Text.dec n).length = 1 := by decide
  exact hall (fs s) (Nat.mod_lt _ (by decide))

theorem funcText_eq_iff {s t : State} : funcText s = funcText t ↔ FuncOverlap s t := by
  have hlength : ∀ s : State, (Text.hexPad 1 s.frm.toNat ++ Text.hexPad 2 s.fflags.toNat).length =
      digits 1 s.frm.toNat + digits 2 s.fflags.toNat := by
    intro s
    rw [List.length_append, length_hexPad_eq, length_hexPad_eq]
  have hvalue : ∀ s : State, Text.numeralValue 16
      (Text.hexPad 1 s.frm.toNat ++ Text.hexPad 2 s.fflags.toNat) =
      s.frm.toNat * 16 ^ digits 2 s.fflags.toNat + s.fflags.toNat := by
    intro s
    rw [Text.numeralValue_append, value_hexPad, value_hexPad, length_hexPad_eq]
  rw [funcText, funcText, List.append_assoc, List.append_assoc]
  constructor
  · intro h
    obtain ⟨hfs, h⟩ := List.append_inj h (by rw [length_dec_fs, length_dec_fs])
    exact ⟨Text.dec_injective hfs, by rw [← hlength, ← hlength, h],
      by rw [← hvalue, ← hvalue, h]⟩
  · intro h
    rw [h.fs]
    congr 1
    apply Text.eq_of_numeralValue_eq
    · exact isHexDigit_hexPad_append fun _ ↦ Text.isHexDigit_of_mem_hexPad
    · exact isHexDigit_hexPad_append fun _ ↦ Text.isHexDigit_of_mem_hexPad
    · rw [hlength, hlength, h.width]
    · rw [hvalue, hvalue, h.value]

theorem length_hexPad_code {n : ℕ} (h : n < 0x80) : (Text.hexPad 2 n).length = 2 :=
  Text.length_hexPad (by decide) (h.trans (by decide))

theorem length_hexPad_interrupt {n : ℕ} (hle : 2 ^ 63 ≤ n) (hlt : n < 2 ^ 64) :
    (Text.hexPad 2 n).length = 16 := by
  have hupper : (Text.hex n).length ≤ 16 :=
    (Nat.length_toDigits_le_iff (by decide) (by decide)).mpr hlt
  have hlower : ¬ (Text.hex n).length ≤ 15 := by
    intro h
    have hsmall : n < 16 ^ 15 := (Nat.length_toDigits_le_iff (by decide) (by decide)).mp h
    omega
  rw [length_hexPad_eq, digits]
  omega

/-- The first two digits of an interrupt are no exception code. -/
theorem not_code_of_interrupt {m n : ℕ} (hm : m < 0x80) (hle : 2 ^ 63 ≤ n) (hlt : n < 2 ^ 64)
    {after after' : Text} : Text.hexPad 2 m ++ after ≠ Text.hexPad 2 n ++ after' := by
  intro h
  have hlength := length_hexPad_interrupt hle hlt
  have htake : Text.hexPad 2 m = (Text.hexPad 2 n).take 2 := by
    have htake := congrArg (List.take 2) h
    rwa [List.take_left' (length_hexPad_code hm),
      List.take_append_of_le_length (by rw [hlength]; decide)] at htake
  have hdrop : Text.numeralValue 16 ((Text.hexPad 2 n).drop 2) < 16 ^ 14 := by
    have hnumeral : Text.IsNumeral 16 ((Text.hexPad 2 n).drop 2) :=
      Text.isNumeral_of_isHexDigit fun c hc ↦
        Text.isHexDigit_of_mem_hexPad (List.mem_of_mem_drop hc)
    have hvalue := hnumeral.value_lt
    rwa [List.length_drop, hlength] at hvalue
  have hsplit : n = m * 16 ^ 14 + Text.numeralValue 16 ((Text.hexPad 2 n).drop 2) := by
    calc
      n = Text.numeralValue 16 ((Text.hexPad 2 n).take 2 ++ (Text.hexPad 2 n).drop 2) := by
        rw [List.take_append_drop, value_hexPad]
      _ = m * 16 ^ 14 + Text.numeralValue 16 ((Text.hexPad 2 n).drop 2) := by
        rw [Text.numeralValue_append, ← htake, value_hexPad, List.length_drop, hlength]
  omega

/-- The first digit of a cause tells how many digits it has. -/
theorem cause_append_inj {c d : UInt64} (hc : IsCause c) (hd : IsCause d) {after after' : Text}
    (h : Text.hexPad 2 c.toNat ++ after = Text.hexPad 2 d.toNat ++ after') :
    c = d ∧ after = after' := by
  have hlength : (Text.hexPad 2 c.toNat).length = (Text.hexPad 2 d.toNat).length := by
    rcases hc with hc | hc
    · rcases hd with hd | hd
      · rw [length_hexPad_code hc, length_hexPad_code hd]
      · exact absurd h (not_code_of_interrupt hc hd d.toNat_lt)
    · rcases hd with hd | hd
      · exact absurd h.symm (not_code_of_interrupt hd hc c.toNat_lt)
      · rw [length_hexPad_interrupt hc c.toNat_lt, length_hexPad_interrupt hd d.toNat_lt]
  obtain ⟨hcause, hafter⟩ := List.append_inj h hlength
  exact ⟨hexPad_toNat_inj hcause, hafter⟩

/-- The registers of a privilege transition as they are printed. -/
def printedPriv (s : State) : List Text :=
  ["0x".toList ++ Text.hexPad 16 s.mstatus.toNat, Text.hexPad 2 s.mcause.toNat,
    Text.hexPad 2 s.scause.toNat, Text.hexPad 8 s.medeleg.toNat, Text.hexPad 8 s.mcounteren.toNat,
    Text.hexPad 8 s.scounteren.toNat]

/-- The registers of a floating-point transition as they are printed. -/
def printedFunc (s : State) : List Text :=
  [Text.dec (fs s), Text.hexPad 1 s.frm.toNat, Text.hexPad 2 s.fflags.toNat]

/-- For states that the processor can reach, the concatenation determines the values. -/
theorem printedPriv_eq_of_overlap {s t : State} (hs : Held s) (ht : Held t)
    (h : privText s = privText t) : printedPriv s = printedPriv t := by
  have hoverlap := privText_eq_iff.mp h
  have htext : causeText s = causeText t :=
    causeText_eq_iff.mpr ⟨hoverlap.width, hoverlap.value⟩
  rw [causeText, causeText, List.append_assoc, List.append_assoc] at htext
  obtain ⟨hmcause, htext⟩ := cause_append_inj hs.mcause.isCause ht.mcause.isCause htext
  obtain ⟨hscause, hmedeleg⟩ := cause_append_inj hs.scause.isCause ht.scause.isCause htext
  rw [printedPriv, printedPriv, hoverlap.mstatus, hmcause, hscause, hmedeleg,
    hoverlap.mcounteren, hoverlap.scounteren]

theorem printedFunc_eq_of_overlap {s t : State} (hs : Held s) (ht : Held t)
    (h : funcText s = funcText t) : printedFunc s = printedFunc t := by
  have hfrm : ∀ {s : State}, Held s → (Text.hexPad 1 s.frm.toNat).length = 1 := fun hs ↦
    Text.length_hexPad (by decide) (hs.frm.trans (by decide))
  rw [funcText, funcText, List.append_assoc, List.append_assoc] at h
  obtain ⟨hfs, h⟩ := List.append_inj h (by rw [length_dec_fs, length_dec_fs])
  obtain ⟨hfrm, hfflags⟩ := List.append_inj h (by rw [hfrm hs, hfrm ht])
  rw [printedFunc, printedFunc, hfs, hfrm, hfflags]

theorem privEntry_eq_iff {s t s' t' : State} {keys keys' : Keys} (h : Observed s t keys)
    (h' : Observed s' t' keys') (hinstr : keys.instrT = keys'.instrT) :
    keys.privEntry = keys'.privEntry ↔ PrivOverlap s s' ∧ PrivOverlap t t' := by
  obtain ⟨hpr, hpr', -, -⟩ := h.keys_eq
  obtain ⟨hprs, hprs', -, -⟩ := h'.keys_eq
  rw [Keys.privEntry, Keys.privEntry, hpr, hpr', hprs, hprs', hinstr, Prod.mk.injEq,
    Prod.mk.injEq, privText_eq_iff, privText_eq_iff]
  exact and_iff_right rfl

theorem funcEntry_eq_iff {s t s' t' : State} {keys keys' : Keys} (h : Observed s t keys)
    (h' : Observed s' t' keys') (hinstr : keys.instrT = keys'.instrT) :
    keys.funcEntry = keys'.funcEntry ↔ FuncOverlap s s' ∧ FuncOverlap t t' := by
  obtain ⟨-, -, hf, hf'⟩ := h.keys_eq
  obtain ⟨-, -, hfs, hfs'⟩ := h'.keys_eq
  rw [Keys.funcEntry, Keys.funcEntry, hf, hf', hfs, hfs', hinstr, Prod.mk.injEq,
    Prod.mk.injEq, funcText_eq_iff, funcText_eq_iff]
  exact and_iff_right rfl

/-- A transition of reachable states has a privilege entry of its own. -/
theorem privEntry_ne {s t s' t' : State} {keys keys' : Keys} (hs : Reachable s)
    (ht : Reachable t) (hs' : Reachable s') (ht' : Reachable t') (h : Observed s t keys)
    (h' : Observed s' t' keys')
    (hdiffer : printedPriv s ≠ printedPriv s' ∨ printedPriv t ≠ printedPriv t') :
    keys.privEntry ≠ keys'.privEntry := by
  intro heq
  obtain ⟨hpr, hpr', -, -⟩ := h.keys_eq
  obtain ⟨hprs, hprs', -, -⟩ := h'.keys_eq
  rw [Keys.privEntry, Keys.privEntry, hpr, hpr', hprs, hprs', Prod.mk.injEq,
    Prod.mk.injEq] at heq
  rcases hdiffer with hdiffer | hdiffer
  · exact hdiffer (printedPriv_eq_of_overlap hs.held hs'.held heq.2.1)
  · exact hdiffer (printedPriv_eq_of_overlap ht.held ht'.held heq.2.2)

theorem funcEntry_ne {s t s' t' : State} {keys keys' : Keys} (hs : Reachable s)
    (ht : Reachable t) (hs' : Reachable s') (ht' : Reachable t') (h : Observed s t keys)
    (h' : Observed s' t' keys')
    (hdiffer : printedFunc s ≠ printedFunc s' ∨ printedFunc t ≠ printedFunc t') :
    keys.funcEntry ≠ keys'.funcEntry := by
  intro heq
  obtain ⟨-, -, hf, hf'⟩ := h.keys_eq
  obtain ⟨-, -, hfs, hfs'⟩ := h'.keys_eq
  rw [Keys.funcEntry, Keys.funcEntry, hf, hf', hfs, hfs', Prod.mk.injEq,
    Prod.mk.injEq] at heq
  rcases hdiffer with hdiffer | hdiffer
  · exact hdiffer (printedFunc_eq_of_overlap hs.held hs'.held heq.2.1)
  · exact hdiffer (printedFunc_eq_of_overlap ht.held ht'.held heq.2.2)

/-- A privilege entry of an earlier transition that was not this one. -/
def EarlierEntry (s t : State) (keys : Keys) (entry : Entry) : Prop :=
  ∃ s' t' keys', Reachable s' ∧ Reachable t' ∧ Observed s' t' keys' ∧ entry = keys'.privEntry ∧
    (keys.instrT ≠ keys'.instrT ∨ printedPriv s ≠ printedPriv s' ∨ printedPriv t ≠ printedPriv t')

/-- Distinct transitions get distinct keys for all values that the processor can hold, and a new
one is admitted. For arbitrary register contents, keys coincide exactly when the concatenated
digits do. -/
theorem distinct_keys {s t s' t' : State} {keys keys' : Keys} (h : Observed s t keys)
    (h' : Observed s' t' keys') (hinstr : keys.instrT = keys'.instrT) :
    (keys.privEntry = keys'.privEntry ↔ PrivOverlap s s' ∧ PrivOverlap t t') ∧
    (keys.funcEntry = keys'.funcEntry ↔ FuncOverlap s s' ∧ FuncOverlap t t') ∧
    (Reachable s → Reachable t → Reachable s' → Reachable t' →
      (printedPriv s ≠ printedPriv s' ∨ printedPriv t ≠ printedPriv t' →
        keys.privEntry ≠ keys'.privEntry) ∧
      (printedFunc s ≠ printedFunc s' ∨ printedFunc t ≠ printedFunc t' →
        keys.funcEntry ≠ keys'.funcEntry) ∧
      ∀ g j, printedPriv s ≠ printedPriv t → (∀ entry ∈ g.combPriv, EarlierEntry s t keys entry) →
        (admitPriv false (g, j) keys).2 = true) := by
  refine ⟨privEntry_eq_iff h h' hinstr, funcEntry_eq_iff h h' hinstr, ?_⟩
  intro hs ht hs' ht'
  refine ⟨privEntry_ne hs ht hs' ht' h h', funcEntry_ne hs ht hs' ht' h h', ?_⟩
  intro g j hchange hearlier
  have hnew : keys.privEntry ∉ g.combPriv := by
    intro hmem
    obtain ⟨s₁, t₁, keys₁, hs₁, ht₁, h₁, heq, hdiffer | hdiffer⟩ := hearlier _ hmem
    · exact hdiffer (congrArg Prod.fst heq)
    · exact privEntry_ne hs ht hs₁ ht₁ h h₁ hdiffer heq
  have hcomb : keys.combPrP ≠ keys.combPr := by
    obtain ⟨hpr, hpr', -, -⟩ := h.keys_eq
    rw [hpr, hpr']
    intro heq
    exact hchange (printedPriv_eq_of_overlap hs.held ht.held heq)
  unfold admitPriv
  dsimp only
  rw [if_pos ⟨by decide, hnew, hcomb⟩]

/-- A state with these cause registers, before and after an `mret`. -/
def causeState (mstatus mcause scause : UInt64) : State :=
  { reset with mstatus, mcause, scause }

def mretLines (mcause scause : UInt64) : Text × Text :=
  (instructionLine 0 (causeState 0x80 mcause scause) 0x30200073 "mret".toList,
    instructionLine 0 (causeState 0x88 mcause scause) 0x13 "nop".toList)

def mretKeys : Keys where
  instrT := "mret".toList
  combP := "0x000000000000008000012304000000000000000000000000".toList
  comb := "0x000000000000008800012304000000000000000000000000".toList
  combPrP := "0x000000000000008012304000000000000000000000000".toList
  combPr := "0x000000000000008812304000000000000000000000000".toList
  combFP := "0000".toList
  combF := "0000".toList
  skip := false

/-- The keys of an `mret` between causes that the processor holds. -/
def userEcallKeys (scause : Text) : Keys where
  instrT := "mret".toList
  combP := "0x0000000000000080000".toList ++ "08".toList ++ scause ++
    "000000000000000000000000".toList
  comb := "0x0000000000000088000".toList ++ "08".toList ++ scause ++
    "000000000000000000000000".toList
  combPrP := "0x0000000000000080".toList ++ "08".toList ++ scause ++
    "000000000000000000000000".toList
  combPr := "0x0000000000000088".toList ++ "08".toList ++ scause ++
    "000000000000000000000000".toList
  combFP := "0000".toList
  combF := "0000".toList
  skip := false

theorem distinct_keys_mret :
    ∃ keys keys', Observed (causeState 0x80 8 0) (causeState 0x88 8 0) keys ∧
      Observed (causeState 0x80 8 0x8000000000000001) (causeState 0x88 8 0x8000000000000001)
        keys' ∧
      keys.privEntry ≠ keys'.privEntry := by
  have hobserved : Observed (causeState 0x80 8 0) (causeState 0x88 8 0)
      (userEcallKeys "00".toList) :=
    ⟨0, 0x30200073, "mret".toList, 0, 0x13, "nop".toList, by decide⟩
  have hobserved' : Observed (causeState 0x80 8 0x8000000000000001)
      (causeState 0x88 8 0x8000000000000001) (userEcallKeys "8000000000000001".toList) :=
    ⟨0, 0x30200073, "mret".toList, 0, 0x13, "nop".toList, by decide⟩
  have hreachable : ∀ mstatus, Reachable (causeState mstatus 8 0) := fun mstatus ↦
    ⟨[.mcause 8, .mstatus mstatus], rfl⟩
  have hreachable' : ∀ mstatus, Reachable (causeState mstatus 8 0x8000000000000001) :=
    fun mstatus ↦ ⟨[.mcause 8, .trapToSupervisor (.interrupt 1), .mstatus mstatus], rfl⟩
  refine ⟨_, _, hobserved, hobserved', ?_⟩
  apply ((distinct_keys hobserved hobserved' rfl).2.2 (hreachable _) (hreachable _)
    (hreachable' _) (hreachable' _)).1
  decide

/-- For register contents that the masks exclude, a digit can move from `mcause` to `scause`: the
two transitions differ, share a key, and the second one is dropped as already seen. -/
theorem not_distinct_keys_shifted :
    (∃ keys keys', Observed (causeState 0x80 0x123 0x04) (causeState 0x88 0x123 0x04) keys ∧
      Observed (causeState 0x80 0x12 0x304) (causeState 0x88 0x12 0x304) keys' ∧
      keys.instrT = keys'.instrT ∧
      printedPriv (causeState 0x80 0x123 0x04) ≠ printedPriv (causeState 0x80 0x12 0x304) ∧
      keys.privEntry = keys'.privEntry) ∧
    (Collect.runCalls (extractTransitions false false) {}
      [(0, (mretLines 0x123 0x04).1 ++ (mretLines 0x123 0x04).2),
        (1, (mretLines 0x12 0x304).1 ++ (mretLines 0x12 0x304).2)]).toOption.map Prod.snd =
      some [1, 0] := by
  constructor
  · exact ⟨mretKeys, mretKeys, ⟨0, 0x30200073, "mret".toList, 0, 0x13, "nop".toList,
      by decide⟩, ⟨0, 0x30200073, "mret".toList, 0, 0x13, "nop".toList,
      by decide⟩, rfl, by decide, rfl⟩
  · decide

end ProcessorFuzz.Common.TransitionKeys
