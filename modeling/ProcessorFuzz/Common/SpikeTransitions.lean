import ProcessorFuzz.Common.TransitionKeys
import ProcessorFuzz.Execution.SpikeEvents

/-!
# The transitions of a simulation

What `extract_transitions` finds in a log of the Spike fork is what the executions say: every line of
an instruction is read back value by value, and no other line is read. So the keys of a log are those
of the instructions that change a monitored register, in order.

The configuration with all registers asks for more values than the fork prints.
-/

namespace ProcessorFuzz.Common.SpikeTransitions

open Library Transitions TransitionKeys Execution.SpikeLog Execution.SpikeEvents

/-- An instruction as the log shows it, with the state in which it is executed. -/
structure Executed where
  state : State
  instr : Text

/-- What the scan takes for the instruction: the text behind the bracket, up to another one. -/
def instrText (disassembly : Text) : Text :=
  Text.rstrip ((" ".toList ++ disassembly ++ "\n".toList).takeWhile (· ≠ ']'))

def executed? : Event → Option Executed
  | .instruction _ state _ disassembly => some ⟨state, instrText disassembly⟩
  | _ => none

/-- The registers that are printed and compared. -/
def SameCsrs (s t : State) : Prop :=
  s.mstatus = t.mstatus ∧ s.frm = t.frm ∧ s.fflags = t.fflags ∧ s.mcause = t.mcause ∧
    s.scause = t.scause ∧ s.medeleg = t.medeleg ∧ s.mcounteren = t.mcounteren ∧
    s.scounteren = t.scounteren

instance (s t : State) : Decidable (SameCsrs s t) := inferInstanceAs (Decidable (_ ∧ _))

/-- An instruction that changes a register, with the states before and after it. -/
structure Transition where
  instr : Text
  before : State
  after : State

/-- The transition between two executions. -/
def transition? (p r : Executed) : Option Transition :=
  if SameCsrs p.state r.state then none else some ⟨p.instr, p.state, r.state⟩

/-- The transitions of a sequence of executions. -/
def transitionsFrom : Option Executed → List Executed → List Transition
  | _, [] => []
  | previous, r :: rest =>
    (previous.bind fun p ↦ transition? p r).toList ++ transitionsFrom (some r) rest

/-- The transitions of a simulation. -/
def transitionsOf (events : List Event) : List Transition :=
  transitionsFrom none (events.filterMap executed?)

/-- The register that the instruction writes is the only one of the four that it changes. -/
def Transition.IsWrite (t : Transition) (csr : Text) : Prop :=
  let csr := if csr = "sstatus".toList then "mstatus".toList else csr
  csr ∈ csrNames ∧
    (t.before.mstatus ≠ t.after.mstatus ↔ "mstatus".toList = csr) ∧
    (t.before.mcause ≠ t.after.mcause ↔ "mcause".toList = csr) ∧
    (t.before.scause ≠ t.after.scause ↔ "scause".toList = csr) ∧
    (t.before.fflags ≠ t.after.fflags ↔ "fflags".toList = csr)

instance (t : Transition) (csr : Text) : Decidable (t.IsWrite csr) :=
  inferInstanceAs (Decidable (_ ∧ _))

/-- All values as they are concatenated. -/
def allText (s : State) : Text := (recordOf s [] []).values.flatten

/-- The keys of a transition. -/
def Transition.change (t : Transition) : Except PyError Change := do
  let (instrT, csr) ← instrKey t.instr
  .ok (.csrs
    { instrT
      combP := allText t.before
      comb := allText t.after
      combPrP := privText t.before
      combPr := privText t.after
      combFP := funcText t.before
      combF := funcText t.after
      skip := t.IsWrite csr })

/-- The program counter as it is printed. -/
def pcText (s : State) : Text := "0x".toList ++ Text.hexPad 16 s.pc.toNat

/-- The pieces of an instruction line. -/
theorem split_instructionLine (id : UInt32) (state : State) (bits : UInt64) (disassembly : Printed) :
    Text.item (Text.split ['['] (instructionLine id state bits disassembly)) 1 =
        .ok (csrValues state ++ ']' :: (" ".toList ++ disassembly ++ "\n".toList)) ∧
      Text.split [']'] (csrValues state ++ ']' :: (" ".toList ++ disassembly ++ "\n".toList)) =
        csrValues state :: Text.split [']'] (" ".toList ++ disassembly ++ "\n".toList) := by
  set tail : Text := " ".toList ++ disassembly ++ "\n".toList with htail
  have hline : instructionLine id state bits disassembly =
      lineHeader id state bits ++ '[' :: (csrValues state ++ ']' :: tail) := by
    have hopen : "[".toList = ['['] := rfl
    have hclose : "]".toList = [']'] := rfl
    simp only [instructionLine, hopen, hclose, List.append_assoc, List.cons_append,
      List.nil_append, tail]
  have hopen : '[' ∉ csrValues state ++ ']' :: tail := by
    have hvalues : '[' ∉ csrValues state := not_mem_csrValues state rfl (by decide) (by decide)
    have hprinted : '[' ∉ (disassembly : Text) := disassembly.2.1
    simp only [htail, List.mem_append, List.mem_cons, hvalues, hprinted, or_false, false_or]
    decide
  have hclose : ']' ∉ csrValues state := not_mem_csrValues state rfl (by decide) (by decide)
  refine ⟨?_, Text.split_append_cons hclose tail⟩
  rw [hline, Text.split_append_cons (bracket_not_mem_lineHeader id state bits),
    Text.split_of_not_mem hopen]
  rfl

theorem parseRecord_instructionLine (id : UInt32) (state : State) (bits : UInt64)
    (disassembly : Printed) : parseRecord false (instructionLine id state bits disassembly) =
      .ok (recordOf state (instrText disassembly) (pcText state)) := by
  obtain ⟨hbracket, hsplit⟩ := split_instructionLine id state bits disassembly
  have hvals {rest : List Text} : Text.item (csrValues state :: rest) 0 = .ok (csrValues state) := rfl
  have hinstr : Text.item (csrValues state :: Text.split [']']
      (" ".toList ++ disassembly ++ "\n".toList)) 1 =
      .ok ((" ".toList ++ disassembly ++ "\n".toList).takeWhile (· ≠ ']')) := by
    apply Text.item_of_getElem?
    rw [List.getElem?_cons_succ, Text.split_head]
  unfold parseRecord
  rw [hbracket, ok_bind, hsplit, hvals, ok_bind, hinstr, ok_bind]
  dsimp only
  rw [split_csrValues, item_words_instructionLine]
  rfl

/-- There is no ninth value. -/
theorem parseRecord_all_instructionLine (id : UInt32) (state : State) (bits : UInt64)
    (disassembly : Printed) :
    parseRecord true (instructionLine id state bits disassembly) = .error .indexError := by
  obtain ⟨hbracket, hsplit⟩ := split_instructionLine id state bits disassembly
  have hvals {rest : List Text} : Text.item (csrValues state :: rest) 0 = .ok (csrValues state) := rfl
  have hinstr : Text.item (csrValues state :: Text.split [']']
      (" ".toList ++ disassembly ++ "\n".toList)) 1 =
      .ok ((" ".toList ++ disassembly ++ "\n".toList).takeWhile (· ≠ ']')) := by
    apply Text.item_of_getElem?
    rw [List.getElem?_cons_succ, Text.split_head]
  unfold parseRecord
  rw [hbracket, ok_bind, hsplit, hvals, ok_bind, hinstr, ok_bind]
  dsimp only
  rw [split_csrValues]
  rfl

theorem values_recordOf_eq_iff {s t : State} {instr instr' pc pc' : Text} :
    (recordOf s instr pc).values = (recordOf t instr' pc').values ↔ SameCsrs s t := by
  constructor
  · intro h
    simp only [Record.values, recordOf, List.append_nil, List.cons.injEq, and_true] at h
    obtain ⟨hmstatus, hfrm, hfflags, hmcause, hscause, hmedeleg, hmcounteren, hscounteren⟩ := h
    exact ⟨hexPad_toNat_inj (List.append_cancel_left hmstatus), hexPad_toNat_inj' hfrm,
      hexPad_toNat_inj' hfflags, hexPad_toNat_inj hmcause, hexPad_toNat_inj hscause,
      hexPad_toNat_inj hmedeleg, hexPad_toNat_inj' hmcounteren, hexPad_toNat_inj' hscounteren⟩
  · rintro ⟨hmstatus, hfrm, hfflags, hmcause, hscause, hmedeleg, hmcounteren, hscounteren⟩
    simp only [Record.values, recordOf, hmstatus, hfrm, hfflags, hmcause, hscause, hmedeleg,
      hmcounteren, hscounteren]

/-- One flag is raised, the one of the register. -/
theorem flags_eq_iff {flags names : List Bool} (hnames : names.count true = 1) :
    (flags.count true == 1 && flags == names) = true ↔ flags = names := by
  rw [Bool.and_eq_true, beq_iff_eq, beq_iff_eq]
  refine ⟨And.right, ?_⟩
  rintro rfl
  exact ⟨hnames, rfl⟩

/-- The second criterion on the states. -/
theorem skips_recordOf (t : Transition) (csr pc pc' instr' : Text) :
    skips csr (recordOf t.before t.instr pc) (recordOf t.after instr' pc') =
      decide (t.IsWrite csr) := by
  have hmstatus : (recordOf t.after instr' pc').mstatus ≠ (recordOf t.before t.instr pc).mstatus ↔
      t.before.mstatus ≠ t.after.mstatus := by
    refine not_congr ⟨fun h ↦ (hexPad_toNat_inj (List.append_cancel_left h)).symm, fun h ↦ ?_⟩
    rw [recordOf, recordOf, h]
  have hmcause : (recordOf t.after instr' pc').mcause ≠ (recordOf t.before t.instr pc).mcause ↔
      t.before.mcause ≠ t.after.mcause := by
    refine not_congr ⟨fun h ↦ (hexPad_toNat_inj h).symm, fun h ↦ ?_⟩
    rw [recordOf, recordOf, h]
  have hscause : (recordOf t.after instr' pc').scause ≠ (recordOf t.before t.instr pc).scause ↔
      t.before.scause ≠ t.after.scause := by
    refine not_congr ⟨fun h ↦ (hexPad_toNat_inj h).symm, fun h ↦ ?_⟩
    rw [recordOf, recordOf, h]
  have hfflags : (recordOf t.after instr' pc').fflags ≠ (recordOf t.before t.instr pc).fflags ↔
      t.before.fflags ≠ t.after.fflags := by
    refine not_congr ⟨fun h ↦ (hexPad_toNat_inj' h).symm, fun h ↦ ?_⟩
    rw [recordOf, recordOf, h]
  rw [Bool.eq_iff_iff, decide_eq_true_iff]
  unfold skips Transition.IsWrite
  dsimp only
  generalize (if csr = "sstatus".toList then "mstatus".toList else csr) = csr'
  by_cases hcsr : csr' ∈ csrNames
  · have hcount : (csrNames.map fun name ↦ decide (name = csr')).count true = 1 := by
      revert hcsr csr'
      decide
    rw [if_pos hcsr, flags_eq_iff hcount, and_iff_right hcsr]
    simp only [csrNames, List.map_cons, List.map_nil, List.cons.injEq, and_true, decide_eq_decide,
      hmstatus, hmcause, hscause, hfflags]
  · rw [if_neg hcsr]
    exact iff_of_false Bool.false_ne_true fun h ↦ hcsr h.1

/-- The change that two records make is that of the transition. -/
theorem compareCsrs_recordOf (p r : Executed) (pc pc' : Text) :
    compareCsrs (recordOf p.state p.instr pc) (recordOf r.state r.instr pc') =
      match transition? p r with
      | none => .ok none
      | some t => t.change.map some := by
  unfold compareCsrs transition?
  by_cases hsame : SameCsrs p.state r.state
  · rw [if_neg (not_not_intro (values_recordOf_eq_iff.mpr hsame)), if_pos hsame]
  · rw [if_pos (mt values_recordOf_eq_iff.mp hsame), if_neg hsame, combF_recordOf, ok_bind,
      combF_recordOf, ok_bind]
    unfold Transition.change
    dsimp only
    have hinstr : (recordOf p.state p.instr pc).instr = p.instr := rfl
    rw [hinstr]
    cases hkey : instrKey p.instr with
    | error e => rfl
    | ok key =>
      have hskip := skips_recordOf ⟨p.instr, p.state, r.state⟩ key.2 pc pc' r.instr
      rw [ok_bind, ok_bind, hskip]
      rfl

/-- Only the line of an instruction is read. -/
theorem bracket_mem_text_iff (event : Event) :
    '[' ∈ event.text ++ ['\n'] ↔ (executed? event).isSome = true := by
  cases event with
  | instruction id state bits disassembly =>
    refine iff_of_true ?_ rfl
    unfold Event.text
    simp
  | executed | exception | tval | commit =>
    refine iff_of_false (fun hmem ↦ ?_) Bool.false_ne_true
    rcases List.mem_append.mp hmem with hmem | hmem
    · refine Foreign.not_text (.inl rfl) (.inr ?_) hmem
      exact not_false
    · exact absurd (List.mem_singleton.mp hmem) (by decide)

/-- The changes from an execution on. -/
theorem changes_cons_executed (previous : Option Executed) (r : Executed) (pc pc' : Text)
    (lines : List Text) {rest : List Transition}
    (hrest : changes false (some (recordOf r.state r.instr pc')) lines = rest.mapM Transition.change) :
    (do
      let change ← changeFrom false (previous.map fun p ↦ recordOf p.state p.instr pc)
        (recordOf r.state r.instr pc')
      let rest ← changes false (some (recordOf r.state r.instr pc')) lines
      .ok (change.toList ++ rest)) =
        ((previous.bind fun p ↦ transition? p r).toList ++ rest).mapM Transition.change := by
  rw [List.mapM_append, hrest]
  cases previous with
  | none =>
    rw [Option.map_none, changeFrom, ok_bind]
    rfl
  | some p =>
    change (do
      let change ← compareCsrs (recordOf p.state p.instr pc) (recordOf r.state r.instr pc')
      let rest ← rest.mapM Transition.change
      .ok (change.toList ++ rest)) = _
    rw [compareCsrs_recordOf, Option.bind_some]
    cases transition? p r with
    | none => rfl
    | some t =>
      rw [Option.toList_some, List.mapM_cons, List.mapM_nil]
      dsimp only
      cases t.change with
      | error e => rfl
      | ok change =>
        cases rest.mapM Transition.change with
        | error e => rfl
        | ok rest => rfl

/-- The records of the lines of a simulation are those of its executions. -/
theorem changes_map_text (previous : Option Executed) (pc : Text) (events : List Event) :
    changes false (previous.map fun p ↦ recordOf p.state p.instr pc)
      (events.map fun event ↦ event.text ++ ['\n']) =
        (transitionsFrom previous (events.filterMap executed?)).mapM Transition.change := by
  induction events generalizing previous pc with
  | nil => rfl
  | cons event events ih =>
    have hmem := bracket_mem_text_iff event
    rw [List.map_cons, changes]
    cases event with
    | instruction id state bits disassembly =>
      have hline : (Event.instruction id state bits disassembly).text ++ ['\n'] =
          instructionLine id state bits disassembly := rfl
      rw [if_neg (not_not_intro (hmem.mpr rfl)), hline, parseRecord_instructionLine, ok_bind]
      exact changes_cons_executed previous ⟨state, instrText disassembly⟩ pc _ _
        (ih (some ⟨state, instrText disassembly⟩) _)
    | executed | exception | tval | commit =>
      rw [if_pos (mt hmem.mp Bool.false_ne_true)]
      exact ih previous pc

/-- The changes of a log are the transitions of the simulation. -/
theorem changes_logText (events : List Event) :
    changes false none (Text.readlines (logText events)) =
      (transitionsOf events).mapM Transition.change := by
  rw [readlines_logText]
  exact changes_map_text none [] events

/-- With all registers, the first instruction raises an exception. -/
theorem changes_all_logText (events : List Event) :
    changes true none (Text.readlines (logText events)) =
      if events.filterMap executed? = [] then .ok [] else .error .indexError := by
  rw [readlines_logText]
  induction events with
  | nil => rfl
  | cons event events ih =>
    have hmem := bracket_mem_text_iff event
    rw [List.map_cons, changes]
    cases event with
    | instruction id state bits disassembly =>
      have hline : (Event.instruction id state bits disassembly).text ++ ['\n'] =
          instructionLine id state bits disassembly := rfl
      rw [if_neg (not_not_intro (hmem.mpr rfl)), hline, parseRecord_all_instructionLine, error_bind]
      exact (if_neg (List.cons_ne_nil _ _)).symm
    | executed | exception | tval | commit =>
      rw [if_pos (mt hmem.mp Bool.false_ne_true)]
      exact ih

/-- The disassembly has the words that a key is made of. -/
def Transition.Legible (t : Transition) : Prop := ∃ key, instrKey t.instr = .ok key

/-- What a transition offers to the lists: the values before and after it, where they are printed in
another way, unless the instruction has just written one of the four registers. -/
inductive Transition.Offers (fpCsr : Bool) (t : Transition) : Kind → Entry → Prop
  | priv {instrT csr : Text} (hkey : instrKey t.instr = .ok (instrT, csr)) (hwrite : ¬ t.IsWrite csr)
    (hmode : fpCsr = false) (hne : privText t.before ≠ privText t.after) :
    Offers fpCsr t .priv (instrT, privText t.before, privText t.after)
  | func {instrT csr : Text} (hkey : instrKey t.instr = .ok (instrT, csr)) (hwrite : ¬ t.IsWrite csr)
    (hne : funcText t.before ≠ funcText t.after) :
    Offers fpCsr t .func (instrT, funcText t.before, funcText t.after)

theorem exists_change_iff {t : Transition} : (∃ c, t.change = .ok c) ↔ t.Legible := by
  unfold Transition.change
  rw [exists_bind_eq_ok]
  exact ⟨fun ⟨key, hkey, _⟩ ↦ ⟨key, hkey⟩, fun ⟨key, hkey⟩ ↦ ⟨key, hkey, _, rfl⟩⟩

theorem mem_offeredCsrs_iff {t : Transition} {change : Change} (h : t.change = .ok change)
    {fpCsr : Bool} {kind : Kind} {entry : Entry} :
    entry ∈ offeredCsrs fpCsr change kind ↔ t.Offers fpCsr kind entry := by
  obtain ⟨⟨instrT, csr⟩, hkey, h⟩ := bind_eq_ok.mp h
  obtain rfl := Except.ok.inj h
  have hsame {instrT' csr' : Text} (hkey' : instrKey t.instr = .ok (instrT', csr')) :
      instrT' = instrT ∧ csr' = csr := by
    obtain ⟨rfl, rfl⟩ := Prod.mk.inj (Except.ok.inj (hkey.symm.trans hkey'))
    exact ⟨rfl, rfl⟩
  unfold offeredCsrs
  dsimp only
  by_cases hwrite : t.IsWrite csr
  · rw [if_pos (decide_eq_true hwrite)]
    refine iff_of_false List.not_mem_nil ?_
    rintro (⟨hkey', hnot, -, -⟩ | ⟨hkey', hnot, -⟩)
    · exact hnot ((hsame hkey').2 ▸ hwrite)
    · exact hnot ((hsame hkey').2 ▸ hwrite)
  · rw [if_neg (mt of_decide_eq_true hwrite)]
    cases kind with
    | priv =>
      dsimp only [offeredPriv]
      constructor
      · intro hmem
        split at hmem
        · next hoffer =>
          rw [List.mem_singleton.mp hmem]
          exact .priv hkey hwrite (by simpa using hoffer.1) hoffer.2
        · exact absurd hmem List.not_mem_nil
      · rintro ⟨hkey', hnot, hmode, hne⟩
        obtain ⟨rfl, rfl⟩ := hsame hkey'
        rw [if_pos ⟨by rw [hmode]; rfl, hne⟩]
        exact List.mem_singleton_self _
    | func =>
      dsimp only [offeredFunc]
      constructor
      · intro hmem
        split at hmem
        · next hoffer =>
          rw [List.mem_singleton.mp hmem]
          exact .func hkey hwrite hoffer
        · exact absurd hmem List.not_mem_nil
      · rintro (_ | ⟨hkey', hnot, hne⟩)
        obtain ⟨rfl, rfl⟩ := hsame hkey'
        rw [if_pos hne]
        exact List.mem_singleton_self _

/-- What the changes of a simulation offer is what its transitions offer. -/
theorem mem_offered_iff {events : List Event} {cs : List Change}
    (h : changes false none (Text.readlines (logText events)) = .ok cs) {fpCsr : Bool} {kind : Kind}
    {entry : Entry} : entry ∈ cs.flatMap (fun c ↦ offeredCsrs fpCsr c kind) ↔
      ∃ t ∈ transitionsOf events, t.Offers fpCsr kind entry := by
  rw [changes_logText] at h
  have hpairs := forall₂_of_mapM_eq_ok h
  clear h
  generalize transitionsOf events = ts at hpairs
  induction hpairs with
  | nil => simp
  | cons hchange _ ih =>
    rw [List.flatMap_cons, List.mem_append, mem_offeredCsrs_iff hchange, List.exists_mem_cons_iff]
    exact or_congr_right ih

/-- A scan of the log of a simulation returns exactly when the disassemblies at its transitions can
be read, and then adds to the lists what the transitions offer. With all registers, it returns for a
log without an instruction only. -/
theorem extractTransitions_logText (fpCsr : Bool) (g : Globals) (it : ℕ) (events : List Event) :
    ((∃ r, extractTransitions false fpCsr g (it, logText events) = .ok r) ↔
      ∀ t ∈ transitionsOf events, t.Legible) ∧
    (∀ g' n, extractTransitions false fpCsr g (it, logText events) = .ok (g', n) →
      ∀ kind entry, entry ∈ csrLists kind g' ↔
        entry ∈ csrLists kind g ∨ ∃ t ∈ transitionsOf events, t.Offers fpCsr kind entry) ∧
    ((∃ r, extractTransitions true fpCsr g (it, logText events) = .ok r) ↔
      events.filterMap executed? = []) := by
  have hscan {allCsr : Bool} : (∃ r, extractTransitions allCsr fpCsr g (it, logText events) = .ok r) ↔
      ∃ cs, changes allCsr none (Text.readlines (logText events)) = .ok cs := by
    constructor
    · rintro ⟨⟨g', n⟩, h⟩
      obtain ⟨cs, hcs, -⟩ := extractTransitions_eq_ok h
      exact ⟨cs, hcs⟩
    · rintro ⟨cs, hcs⟩
      exact exists_extractTransitions fpCsr g hcs
  refine ⟨?_, fun g' n h kind entry ↦ ?_, ?_⟩
  · rw [hscan, changes_logText, exists_mapM_eq_ok_iff]
    exact forall₂_congr fun t _ ↦ exists_change_iff
  · obtain ⟨found, hfound, hgrows, -⟩ := (collects_csrs fpCsr).finds h
    obtain ⟨cs, hcs, rfl⟩ := Option.map_eq_some_iff.mp hfound
    rw [(hgrows kind).mem, mem_offered_iff (changes_of_logChanges hcs)]
  · rw [hscan, changes_all_logText]
    split
    · next hempty => exact iff_of_true ⟨[], rfl⟩ hempty
    · next hne => exact iff_of_false (fun ⟨_, h⟩ ↦ nomatch h) hne

end ProcessorFuzz.Common.SpikeTransitions
