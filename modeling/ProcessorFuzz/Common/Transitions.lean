import ProcessorFuzz.Library.Collect
import ProcessorFuzz.Library.Reading

/-!
# Transition coverage

`extract_transitions` scans an ISA log for consecutive records that differ in a control and status
register. A change is described by keys, the text of the instruction and the concatenated values
before and after it, and is kept in a global list unless the same key is there already. The number
of keys added is the guidance signal of the fuzzer.

Which keys a log offers depends on the log alone. So the global lists are sets of keys, whatever
the order in which logs are processed, and a log that was processed before brings nothing new.
-/

namespace ProcessorFuzz.Common.Transitions

open Library

/-- What is read from one line of the log. -/
structure Record where
  mstatus : Text
  frm : Text
  fflags : Text
  mcause : Text
  scause : Text
  medeleg : Text
  mcounteren : Text
  scounteren : Text
  /-- The further registers, from `dcsr` to `pmpaddr`, that are read when `ALL_CSR` is on. -/
  others : List Text
  instr : Text
  pc : Text

/-- The values that are compared, in the order in which they are concatenated. -/
def Record.values (r : Record) : List Text :=
  [r.mstatus, r.frm, r.fflags, r.mcause, r.scause, r.medeleg, r.mcounteren, r.scounteren] ++
    r.others

/-- The parts of a line around its brackets. -/
def parseRecord (allCsr : Bool) (l : Text) : Except PyError Record := do
  let bracket ← Text.item (Text.split ['['] l) 1
  let vals ← Text.item (Text.split [']'] bracket) 0
  let instr ← Text.item (Text.split [']'] bracket) 1
  let vals := Text.split [','] vals
  let mstatus ← Text.item vals 0
  let frm ← Text.item vals 1
  let fflags ← Text.item vals 2
  let mcause ← Text.item vals 3
  let scause ← Text.item vals 4
  let medeleg ← Text.item vals 5
  let mcounteren ← Text.item vals 6
  let scounteren ← Text.item vals 7
  let others ←
    if allCsr then (List.range 33).mapM fun (i : ℕ) ↦ Text.item vals (8 + i) else .ok []
  let pc ← Text.item (Text.words l) 2
  .ok { mstatus, frm, fflags, mcause, scause, medeleg, mcounteren, scounteren, others
        instr := Text.rstrip instr, pc }

/-- A key: the instruction and the values before and after it. -/
abbrev Entry := Text × Text × Text

/-- What a difference between two records is described by. -/
structure Keys where
  instrT : Text
  combP : Text
  comb : Text
  combPrP : Text
  combPr : Text
  combFP : Text
  combF : Text
  skip : Bool
  deriving DecidableEq, Repr

inductive Change
  | all (entry : Entry)
  | csrs (keys : Keys)
  deriving DecidableEq, Repr

def combPr (r : Record) : Text :=
  r.mstatus ++ r.mcause ++ r.scause ++ r.medeleg ++ r.mcounteren ++ r.scounteren

/-- `str((int(mstatus,16)>>13) & 3) + frm + fflags`. -/
def combF (r : Record) : Except PyError Text := do
  let mstatus ← Text.int 16 r.mstatus
  .ok (Text.dec (mstatus / 2 ^ 13 % 4).toNat ++ r.frm ++ r.fflags)

/-- The mnemonics of the instructions that only write a register. -/
def csrWrites : List Text :=
  ["csrw".toList, "csrs".toList, "csrc".toList, "csrwi".toList, "csrsi".toList, "csrci".toList]

/-- `instr_t` and `csr`: the instruction without its operands, except for the register that it
accesses. -/
def instrKey (instrP : Text) : Except PyError (Text × Text) := do
  let first ← Text.item (Text.words instrP) 0
  let instrT := Text.strip first
  if "csrr".toList <:+: instrP then do
    let operand ← Text.item (Text.split [','] instrP) 1
    .ok (instrT ++ [' '] ++ Text.strip operand, Text.strip operand)
  else if instrT ∈ csrWrites then do
    let head ← Text.item (Text.split [','] instrP) 0
    let csr ← Text.item (Text.words head) 1
    .ok ([' '].intercalate (Text.words head), csr)
  else .ok (instrT, [])

def csrNames : List Text :=
  ["mstatus".toList, "mcause".toList, "scause".toList, "fflags".toList]

/-- The second criterion: the instruction writes a register and changes that register only. -/
def skips (csr : Text) (p r : Record) : Bool :=
  let csr := if csr = "sstatus".toList then "mstatus".toList else csr
  if csr ∈ csrNames then
    let csrN := csrNames.map fun name ↦ decide (name = csr)
    let csrL := [decide (r.mstatus ≠ p.mstatus), decide (r.mcause ≠ p.mcause),
      decide (r.scause ≠ p.scause), decide (r.fflags ≠ p.fflags)]
    csrL.count true == 1 && csrL == csrN
  else false

/-- The branch for `ALL_CSR`. -/
def compareAll (p r : Record) : Except PyError (Option Change) :=
  if p.values ≠ r.values then do
    let first ← Text.item (Text.words p.instr) 0
    .ok (some (.all (Text.strip first, p.values.flatten, r.values.flatten)))
  else .ok none

/-- The branch for the eight monitored registers. -/
def compareCsrs (p r : Record) : Except PyError (Option Change) :=
  if p.values ≠ r.values then do
    let combF ← Transitions.combF r
    let combFP ← Transitions.combF p
    let (instrT, csr) ← instrKey p.instr
    .ok (some (.csrs
      { instrT
        combP := p.values.flatten
        comb := r.values.flatten
        combPrP := combPr p
        combPr := combPr r
        combFP, combF
        skip := skips csr p r }))
  else .ok none

/-- The change that a record makes after the one before it; the first one makes none. -/
def changeFrom (allCsr : Bool) (previous : Option Record) (r : Record) :
    Except PyError (Option Change) :=
  match previous with
  | none => .ok none
  | some p => if allCsr then compareAll p r else compareCsrs p r

/-- The global lists, and the contents of `transition.db`. -/
structure Globals where
  combT : List Entry := []
  combPriv : List Entry := []
  combFunc : List Entry := []
  db : Text := []

def printEntry (tag : Text) (entry : Entry) : Text :=
  tag ++ [' '] ++ entry.1 ++ ['\n'] ++ entry.2.1 ++ ['\n'] ++ entry.2.2 ++ ['\n']

def Keys.privEntry (keys : Keys) : Entry := (keys.instrT, keys.combPrP, keys.combPr)

def Keys.funcEntry (keys : Keys) : Entry := (keys.instrT, keys.combFP, keys.combF)

/-- The check of the privileged registers; the flag is `priv_trns`. -/
def admitPriv (fpCsr : Bool) (s : Globals × ℕ) (keys : Keys) : (Globals × ℕ) × Bool :=
  let entry := keys.privEntry
  if !fpCsr ∧ entry ∉ s.1.combPriv ∧ keys.combPrP ≠ keys.combPr then
    (({ s.1 with combPriv := s.1.combPriv ++ [entry]
                 db := s.1.db ++ printEntry "PRIVILEGE".toList entry }, s.2 + 1), true)
  else (s, false)

/-- The check of the floating-point registers; the flag is `func_trns`. -/
def admitFunc (s : Globals × ℕ) (keys : Keys) : (Globals × ℕ) × Bool :=
  let entry := keys.funcEntry
  if entry ∉ s.1.combFunc ∧ keys.combFP ≠ keys.combF then
    (({ s.1 with combFunc := s.1.combFunc ++ [entry]
                 db := s.1.db ++ printEntry "FLOAT".toList entry }, s.2 + 1), true)
  else (s, false)

/-- The global lists and `j` after a change. -/
def admitChange (fpCsr : Bool) (s : Globals × ℕ) : Change → Globals × ℕ
  | .all entry =>
    if entry ∉ s.1.combT then
      ({ s.1 with combT := s.1.combT ++ [entry] }, s.2 + 1)
    else s
  | .csrs keys =>
    if keys.skip then s
    else
      let (s, privTrns) := admitPriv fpCsr s keys
      let (s, funcTrns) := admitFunc s keys
      if privTrns || funcTrns then
        ({ s.1 with combT := s.1.combT ++ [(keys.instrT, keys.combP, keys.comb)] }, s.2)
      else s

structure Loop where
  /-- The record before, until `init` is cleared there is none. -/
  previous : Option Record := none
  count : ℕ := 0
  /-- The global lists and the counter `j`. -/
  state : Globals × ℕ

def step (allCsr fpCsr : Bool) (loop : Loop) (l : Text) : Except PyError Loop :=
  if '[' ∉ l then .ok loop
  else do
    let r ← parseRecord allCsr l
    let change ← changeFrom allCsr loop.previous r
    .ok { previous := some r
          count := loop.count + 1
          state := change.elim loop.state (admitChange fpCsr loop.state) }

/-- `extract_transitions` on the contents of the log file `it`. -/
def extractTransitions (allCsr fpCsr : Bool) (g : Globals) (log : ℕ × Text) :
    Except PyError (Globals × ℕ) := do
  let loop ← (Text.readlines log.2).foldlM (step allCsr fpCsr) { state := (g, 0) }
  let (g, j) := loop.state
  .ok ({ g with
    db := g.db ++ "test  ".toList ++ Text.dec log.1 ++ ['\n'] ++
      "Number of transitions :  ".toList ++ Text.dec j ++ ['\n'] ++
      "Instruction count     :  ".toList ++ Text.dec loop.count ++ ['\n'] }, j)

/-- The changes in the lines of a log, whatever the global lists are. -/
def changes (allCsr : Bool) : Option Record → List Text → Except PyError (List Change)
  | _, [] => .ok []
  | previous, l :: ls =>
    if '[' ∉ l then changes allCsr previous ls
    else do
      let r ← parseRecord allCsr l
      let change ← changeFrom allCsr previous r
      let rest ← changes allCsr (some r) ls
      .ok (change.toList ++ rest)

theorem foldl_toList_append (fpCsr : Bool) (change : Option Change) (rest : List Change)
    (s : Globals × ℕ) :
    (change.toList ++ rest).foldl (admitChange fpCsr) s =
      rest.foldl (admitChange fpCsr) (change.elim s (admitChange fpCsr s)) := by
  cases change <;> rfl

/-- The loop admits the changes of its lines one after another. -/
theorem map_foldlM_step (allCsr fpCsr : Bool) (ls : List Text) (loop : Loop) :
    (ls.foldlM (step allCsr fpCsr) loop).map Loop.state =
      (changes allCsr loop.previous ls).map fun cs ↦ cs.foldl (admitChange fpCsr) loop.state := by
  induction ls generalizing loop with
  | nil => rfl
  | cons l ls ih =>
    rw [List.foldlM_cons, changes]
    by_cases hl : '[' ∈ l
    · rw [step, if_neg (not_not_intro hl), if_neg (not_not_intro hl)]
      cases hrecord : parseRecord allCsr l with
      | error e => rfl
      | ok r =>
        cases hchange : changeFrom allCsr loop.previous r with
        | error e =>
          rw [ok_bind, hchange, ok_bind, hchange]
          rfl
        | ok change =>
          rw [ok_bind, hchange, ok_bind, ok_bind, ok_bind, hchange, ok_bind, ih]
          cases changes allCsr (some r) ls with
          | error e => rfl
          | ok rest => exact congrArg Except.ok (foldl_toList_append fpCsr change rest _).symm
    · rw [step, if_pos hl, if_pos hl, ok_bind]
      exact ih loop

/-- The lists that are kept for the eight registers. -/
inductive Kind
  | priv
  | func
  deriving DecidableEq, Repr

instance : Fintype Kind where
  elems := {.priv, .func}
  complete kind := by cases kind <;> decide

def csrLists : Kind → Globals → List Entry
  | .priv, g => g.combPriv
  | .func, g => g.combFunc

/-- The list that is kept when `ALL_CSR` is on. -/
def allLists (_ : Unit) (g : Globals) : List Entry := g.combT

theorem size_csrLists (g : Globals) :
    Collect.size csrLists g = g.combPriv.length + g.combFunc.length := rfl

theorem size_allLists (g : Globals) : Collect.size allLists g = g.combT.length := rfl

def offeredPriv (fpCsr : Bool) (keys : Keys) : List Entry :=
  if !fpCsr ∧ keys.combPrP ≠ keys.combPr then [keys.privEntry] else []

def offeredFunc (keys : Keys) : List Entry :=
  if keys.combFP ≠ keys.combF then [keys.funcEntry] else []

/-- The entries that a change offers to the lists of the eight registers. -/
def offeredCsrs (fpCsr : Bool) : Change → Kind → List Entry
  | .all _, _ => []
  | .csrs keys, kind =>
    if keys.skip then []
    else
      match kind with
      | .priv => offeredPriv fpCsr keys
      | .func => offeredFunc keys

/-- The entry that a change offers to the list of all registers. -/
def offeredAll : Change → Unit → List Entry
  | .all entry, _ => [entry]
  | .csrs _, _ => []

theorem admitPriv_grows (fpCsr : Bool) (s : Globals × ℕ) (keys : Keys) :
    Collect.Grows s.1.combPriv (admitPriv fpCsr s keys).1.1.combPriv (offeredPriv fpCsr keys) ∧
      (admitPriv fpCsr s keys).1.1.combFunc = s.1.combFunc ∧
      (admitPriv fpCsr s keys).1.1.combPriv.length + s.2 =
        s.1.combPriv.length + (admitPriv fpCsr s keys).1.2 := by
  unfold admitPriv offeredPriv
  dsimp only
  by_cases hoffer : !fpCsr ∧ keys.combPrP ≠ keys.combPr
  · rw [if_pos hoffer]
    by_cases hmem : keys.privEntry ∈ s.1.combPriv
    · rw [if_neg fun h ↦ h.2.1 hmem]
      exact ⟨Collect.Grows.of_mem hmem, rfl, rfl⟩
    · rw [if_pos ⟨hoffer.1, hmem, hoffer.2⟩]
      refine ⟨Collect.Grows.append hmem, rfl, ?_⟩
      rw [List.length_append, List.length_singleton]
      dsimp only
      omega
  · rw [if_neg hoffer, if_neg fun h ↦ hoffer ⟨h.1, h.2.2⟩]
    exact ⟨Collect.Grows.refl _, rfl, rfl⟩

theorem admitFunc_grows (s : Globals × ℕ) (keys : Keys) :
    Collect.Grows s.1.combFunc (admitFunc s keys).1.1.combFunc (offeredFunc keys) ∧
      (admitFunc s keys).1.1.combPriv = s.1.combPriv ∧
      (admitFunc s keys).1.1.combFunc.length + s.2 =
        s.1.combFunc.length + (admitFunc s keys).1.2 := by
  unfold admitFunc offeredFunc
  dsimp only
  by_cases hoffer : keys.combFP ≠ keys.combF
  · rw [if_pos hoffer]
    by_cases hmem : keys.funcEntry ∈ s.1.combFunc
    · rw [if_neg fun h ↦ h.1 hmem]
      exact ⟨Collect.Grows.of_mem hmem, rfl, rfl⟩
    · rw [if_pos ⟨hmem, hoffer⟩]
      refine ⟨Collect.Grows.append hmem, rfl, ?_⟩
      rw [List.length_append, List.length_singleton]
      dsimp only
      omega
  · rw [if_neg hoffer, if_neg fun h ↦ hoffer h.2]
    exact ⟨Collect.Grows.refl _, rfl, rfl⟩

/-- Recording the whole transition in `comb_t` leaves the two lists and `j` alone. -/
theorem admit_csrs (fpCsr : Bool) (s : Globals × ℕ) (keys : Keys) (hskip : keys.skip = false) :
    (admitChange fpCsr s (.csrs keys)).1.combPriv =
        (admitFunc (admitPriv fpCsr s keys).1 keys).1.1.combPriv ∧
      (admitChange fpCsr s (.csrs keys)).1.combFunc =
        (admitFunc (admitPriv fpCsr s keys).1 keys).1.1.combFunc ∧
      (admitChange fpCsr s (.csrs keys)).2 = (admitFunc (admitPriv fpCsr s keys).1 keys).1.2 := by
  simp only [admitChange, hskip, Bool.false_eq_true, if_false]
  split <;> exact ⟨rfl, rfl, rfl⟩

theorem admit_csrs_grows (fpCsr : Bool) (keys : Keys) (s : Globals × ℕ) :
    (∀ kind, Collect.Grows (csrLists kind s.1) (csrLists kind (admitChange fpCsr s (.csrs keys)).1)
      (offeredCsrs fpCsr (.csrs keys) kind)) ∧
      Collect.size csrLists (admitChange fpCsr s (.csrs keys)).1 + s.2 =
        Collect.size csrLists s.1 + (admitChange fpCsr s (.csrs keys)).2 := by
  cases hskip : keys.skip with
  | true =>
    simp only [admitChange, offeredCsrs, hskip, if_true]
    exact ⟨fun kind ↦ Collect.Grows.refl _, trivial⟩
  | false =>
    obtain ⟨hpriv, hfunc, hj⟩ := admit_csrs fpCsr s keys hskip
    obtain ⟨hgrowsPriv, hframeFunc, hlengthPriv⟩ := admitPriv_grows fpCsr s keys
    obtain ⟨hgrowsFunc, hframePriv, hlengthFunc⟩ := admitFunc_grows (admitPriv fpCsr s keys).1 keys
    constructor
    · intro kind
      cases kind with
      | priv =>
        simp only [csrLists, offeredCsrs, hskip, Bool.false_eq_true, if_false, hpriv, hframePriv]
        exact hgrowsPriv
      | func =>
        rw [hframeFunc] at hgrowsFunc
        simp only [csrLists, offeredCsrs, hskip, Bool.false_eq_true, if_false, hfunc]
        exact hgrowsFunc
    · rw [hframeFunc] at hlengthFunc
      rw [size_csrLists, size_csrLists, hpriv, hfunc, hj, hframePriv]
      omega

theorem admit_all_grows (fpCsr : Bool) (entry : Entry) (s : Globals × ℕ) :
    (∀ k, Collect.Grows (allLists k s.1) (allLists k (admitChange fpCsr s (.all entry)).1)
      (offeredAll (.all entry) k)) ∧
      Collect.size allLists (admitChange fpCsr s (.all entry)).1 + s.2 =
        Collect.size allLists s.1 + (admitChange fpCsr s (.all entry)).2 := by
  simp only [size_allLists, allLists, offeredAll, admitChange]
  by_cases hmem : entry ∈ s.1.combT
  · simp only [hmem, not_true_eq_false, if_false]
    exact ⟨fun _ ↦ Collect.Grows.of_mem hmem, trivial⟩
  · simp only [hmem, not_false_eq_true, if_true, List.length_append, List.length_singleton]
    exact ⟨fun _ ↦ Collect.Grows.append hmem, by omega⟩

/-- With `ALL_CSR` every change is compared in all registers, without it in the eight. -/
theorem changeFrom_kind {allCsr : Bool} {previous : Option Record} {r : Record} {change : Change}
    (h : changeFrom allCsr previous r = .ok (some change)) :
    (allCsr = true ∧ ∃ entry, change = .all entry) ∨
      (allCsr = false ∧ ∃ keys, change = .csrs keys) := by
  cases previous with
  | none => exact nomatch Except.ok.inj h
  | some p =>
    cases allCsr with
    | true =>
      refine .inl ⟨rfl, ?_⟩
      simp only [changeFrom, if_true, compareAll] at h
      split at h
      · obtain ⟨first, -, h⟩ := bind_eq_ok.mp h
        exact ⟨_, (Option.some.inj (Except.ok.inj h)).symm⟩
      · exact nomatch Except.ok.inj h
    | false =>
      refine .inr ⟨rfl, ?_⟩
      simp only [changeFrom, Bool.false_eq_true, if_false, compareCsrs] at h
      split at h
      · obtain ⟨_, -, h⟩ := bind_eq_ok.mp h
        obtain ⟨_, -, h⟩ := bind_eq_ok.mp h
        obtain ⟨_, -, h⟩ := bind_eq_ok.mp h
        exact ⟨_, (Option.some.inj (Except.ok.inj h)).symm⟩
      · exact nomatch Except.ok.inj h

theorem changes_kind {allCsr : Bool} {previous : Option Record} {ls : List Text}
    {cs : List Change} (h : changes allCsr previous ls = .ok cs) :
    ∀ c ∈ cs, (allCsr = true ∧ ∃ entry, c = .all entry) ∨
      (allCsr = false ∧ ∃ keys, c = .csrs keys) := by
  induction ls generalizing previous cs with
  | nil =>
    obtain rfl := Except.ok.inj h
    exact fun c hc ↦ absurd hc List.not_mem_nil
  | cons l ls ih =>
    unfold changes at h
    split at h
    · exact ih h
    · obtain ⟨r, -, h⟩ := bind_eq_ok.mp h
      obtain ⟨change, hchange, h⟩ := bind_eq_ok.mp h
      obtain ⟨rest, hrest, h⟩ := bind_eq_ok.mp h
      obtain rfl := Except.ok.inj h
      intro c hc
      rcases List.mem_append.mp hc with hc | hc
      · rw [Option.mem_toList.mp hc] at hchange
        exact changeFrom_kind hchange
      · exact ih hrest c hc

/-- The changes that are found in a log, when it can be processed. -/
def logChanges (allCsr : Bool) (log : ℕ × Text) : Option (List Change) :=
  (changes allCsr none (Text.readlines log.2)).toOption

/-- A call returns exactly when the changes of its log can be computed, and admits these. -/
theorem extractTransitions_eq_ok {allCsr fpCsr : Bool} {g g' : Globals} {log : ℕ × Text} {n : ℕ}
    (h : extractTransitions allCsr fpCsr g log = .ok (g', n)) :
    ∃ cs, changes allCsr none (Text.readlines log.2) = .ok cs ∧
      g'.combT = (cs.foldl (admitChange fpCsr) (g, 0)).1.combT ∧
      g'.combPriv = (cs.foldl (admitChange fpCsr) (g, 0)).1.combPriv ∧
      g'.combFunc = (cs.foldl (admitChange fpCsr) (g, 0)).1.combFunc ∧
      n = (cs.foldl (admitChange fpCsr) (g, 0)).2 := by
  obtain ⟨loop, hloop, h⟩ := bind_eq_ok.mp h
  have hmap := map_foldlM_step allCsr fpCsr (Text.readlines log.2) { state := (g, 0) }
  rw [hloop] at hmap
  cases hcs : changes allCsr none (Text.readlines log.2) with
  | error e =>
    rw [hcs] at hmap
    exact nomatch hmap
  | ok cs =>
    rw [hcs] at hmap
    have hstate : loop.state = cs.foldl (admitChange fpCsr) (g, 0) := Except.ok.inj hmap
    obtain ⟨rfl, rfl⟩ := Prod.mk.inj (Except.ok.inj h)
    refine ⟨cs, rfl, ?_⟩
    rw [← hstate]
    exact ⟨rfl, rfl, rfl, rfl⟩

theorem exists_extractTransitions {allCsr : Bool} (fpCsr : Bool) (g : Globals) {log : ℕ × Text}
    {cs : List Change} (h : changes allCsr none (Text.readlines log.2) = .ok cs) :
    ∃ r, extractTransitions allCsr fpCsr g log = .ok r := by
  have hmap := map_foldlM_step allCsr fpCsr (Text.readlines log.2) { state := (g, 0) }
  rw [h] at hmap
  cases hloop : (Text.readlines log.2).foldlM (step allCsr fpCsr) { state := (g, 0) } with
  | error e =>
    rw [hloop] at hmap
    exact nomatch hmap
  | ok loop =>
    rw [extractTransitions, hloop]
    exact ⟨_, rfl⟩

theorem exists_of_logChanges {κ : Type} {allCsr : Bool} (fpCsr : Bool) {log : ℕ × Text}
    {offered : Change → κ → List Entry} {found : κ → List Entry}
    (h : (logChanges allCsr log).map (fun cs k ↦ cs.flatMap fun c ↦ offered c k) = some found)
    (g : Globals) : ∃ r, extractTransitions allCsr fpCsr g log = .ok r := by
  obtain ⟨cs, hcs, -⟩ := Option.map_eq_some_iff.mp h
  have hlog : changes allCsr none (Text.readlines log.2) = .ok cs := by
    unfold logChanges at hcs
    cases hchanges : changes allCsr none (Text.readlines log.2) with
    | error e =>
      rw [hchanges] at hcs
      exact nomatch hcs
    | ok cs' =>
      rw [hchanges] at hcs
      rw [Option.some.inj hcs]
  exact exists_extractTransitions fpCsr g hlog

theorem changes_of_logChanges {allCsr : Bool} {log : ℕ × Text} {cs : List Change}
    (h : logChanges allCsr log = some cs) :
    changes allCsr none (Text.readlines log.2) = .ok cs := by
  unfold logChanges at h
  cases hchanges : changes allCsr none (Text.readlines log.2) with
  | error e => exact nomatch hchanges ▸ h
  | ok cs' =>
    rw [hchanges] at h
    exact congrArg Except.ok (Option.some.inj h)

/-- Without `ALL_CSR`, a log is collected into the lists of the eight registers. -/
theorem collects_csrs (fpCsr : Bool) :
    Collect.Collects (extractTransitions false fpCsr) csrLists fun log ↦
      (logChanges false log).map fun cs kind ↦ cs.flatMap fun c ↦ offeredCsrs fpCsr c kind where
  returns h := exists_of_logChanges fpCsr h
  finds {g log g' n} h := by
    obtain ⟨cs, hcs, -, hpriv, hfunc, hn⟩ := extractTransitions_eq_ok h
    have hlists : ∀ kind, csrLists kind g' = csrLists kind (cs.foldl (admitChange fpCsr) (g, 0)).1 := by
      intro kind
      cases kind with
      | priv => exact hpriv
      | func => exact hfunc
    have hadmit : ∀ c ∈ cs, ∀ s, (∀ kind, Collect.Grows (csrLists kind s.1)
        (csrLists kind (admitChange fpCsr s c).1) (offeredCsrs fpCsr c kind)) ∧
        Collect.size csrLists (admitChange fpCsr s c).1 + s.2 =
          Collect.size csrLists s.1 + (admitChange fpCsr s c).2 := by
      intro c hc s
      rcases changes_kind hcs c hc with ⟨hall, -⟩ | ⟨-, keys, rfl⟩
      · exact nomatch hall
      · exact admit_csrs_grows fpCsr keys s
    obtain ⟨hgrows, hsize⟩ := Collect.grows_foldl hadmit (g, 0)
    refine ⟨_, by rw [logChanges, hcs]; rfl, ?_, ?_⟩
    · intro kind
      rw [hlists]
      exact hgrows kind
    · rw [size_csrLists, hpriv, hfunc, hn]
      exact hsize

/-- With `ALL_CSR`, a log is collected into the list of all registers. -/
theorem collects_all (fpCsr : Bool) :
    Collect.Collects (extractTransitions true fpCsr) allLists fun log ↦
      (logChanges true log).map fun cs k ↦ cs.flatMap fun c ↦ offeredAll c k where
  returns h := exists_of_logChanges fpCsr h
  finds {g log g' n} h := by
    obtain ⟨cs, hcs, hall, -, -, hn⟩ := extractTransitions_eq_ok h
    have hadmit : ∀ c ∈ cs, ∀ s, (∀ k, Collect.Grows (allLists k s.1)
        (allLists k (admitChange fpCsr s c).1) (offeredAll c k)) ∧
        Collect.size allLists (admitChange fpCsr s c).1 + s.2 =
          Collect.size allLists s.1 + (admitChange fpCsr s c).2 := by
      intro c hc s
      rcases changes_kind hcs c hc with ⟨-, entry, rfl⟩ | ⟨hcsrs, -⟩
      · exact admit_all_grows fpCsr entry s
      · exact nomatch hcsrs
    obtain ⟨hgrows, hsize⟩ := Collect.grows_foldl hadmit (g, 0)
    refine ⟨_, by rw [logChanges, hcs]; rfl, ?_, ?_⟩
    · intro k
      show Collect.Grows g.combT g'.combT _
      rw [hall]
      exact hgrows k
    · rw [size_allLists, hall, hn]
      exact hsize

/-- Transition coverage accumulates as a set, in the two lists of the eight registers or in the
list of all registers. Two logs with the same text are copies, whatever their iterations. -/
theorem extractTransitions_accumulates (fpCsr : Bool) {g g' : Globals} {logs : List (ℕ × Text)}
    {counts : List ℕ} :
    (g.combPriv.Nodup → g.combFunc.Nodup →
      Collect.runCalls (extractTransitions false fpCsr) g logs = .ok (g', counts) →
      Collect.AccumulatesSets (extractTransitions false fpCsr) csrLists Prod.snd g logs g' counts) ∧
    (g.combT.Nodup →
      Collect.runCalls (extractTransitions true fpCsr) g logs = .ok (g', counts) →
      Collect.AccumulatesSets (extractTransitions true fpCsr) allLists Prod.snd g logs g'
        counts) := by
  constructor
  · intro hpriv hfunc hrun
    refine (collects_csrs fpCsr).accumulatesSets ?_ ?_ hrun
    · rintro log log' htext
      simp only [logChanges, htext]
    intro kind
    cases kind with
    | priv => exact hpriv
    | func => exact hfunc
  · intro hall hrun
    refine (collects_all fpCsr).accumulatesSets ?_ (fun _ ↦ hall) hrun
    rintro log log' htext
    simp only [logChanges, htext]

/-- A line with 41 register values, so that both modes can read it. -/
def sampleLine (mstatus : Text) : Text :=
  "core   0: 0x80 [".toList ++ mstatus ++ (List.replicate 40 ",0".toList).flatten ++
    "] ecall\n".toList

def sampleLogs : List (ℕ × Text) :=
  [(0, sampleLine ['0'] ++ sampleLine ['1'] ++ sampleLine ['0']),
    (1, sampleLine ['0'] ++ sampleLine ['1'])]

theorem extractTransitions_accumulates_sample :
    (∃ g' counts, Collect.runCalls (extractTransitions false false) {} sampleLogs =
        .ok (g', counts) ∧
      Collect.AccumulatesSets (extractTransitions false false) csrLists Prod.snd {} sampleLogs g'
        counts) ∧
    (∃ g' counts, Collect.runCalls (extractTransitions true false) {} sampleLogs =
        .ok (g', counts) ∧
      Collect.AccumulatesSets (extractTransitions true false) allLists Prod.snd {} sampleLogs g'
        counts) := by
  obtain ⟨⟨g₁, counts₁⟩, h₁⟩ : ∃ r,
      Collect.runCalls (extractTransitions false false) {} sampleLogs = .ok r :=
    (collects_csrs false).exists_runCalls (by decide) {}
  obtain ⟨⟨g₂, counts₂⟩, h₂⟩ : ∃ r,
      Collect.runCalls (extractTransitions true false) {} sampleLogs = .ok r :=
    (collects_all false).exists_runCalls (by decide) {}
  exact ⟨⟨g₁, counts₁, h₁, (extractTransitions_accumulates false).1 .nil .nil h₁⟩,
    ⟨g₂, counts₂, h₂, (extractTransitions_accumulates false).2 .nil h₂⟩⟩

example : (Collect.runCalls (extractTransitions false false) {} sampleLogs).toOption.map Prod.snd =
    some [2, 0] := by decide

end ProcessorFuzz.Common.Transitions
