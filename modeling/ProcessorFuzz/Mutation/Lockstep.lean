import ProcessorFuzz.Mutation.SimInputRoundTrip
import ProcessorFuzz.Mutation.WordLines

/-!
# Interrupt values in lockstep with instructions

A test is in lockstep when it has one interrupt value for each main instruction. The reader keeps
its values in lockstep with its tuples whatever the lines are, and it begins a word of the main part
with each line that shows the label of one, so that what is read from the file of a test in lockstep
is in lockstep and has no more words.
-/

namespace ProcessorFuzz.Mutation

open Library Word

/-- A test whose interrupt values go with its main instructions. -/
structure Lockstep (x : SimInput) : Prop where
  words : ∀ part, ∀ w ∈ x.partWords part, Sized part w
  length_ints : x.ints.length = (x.words.map fun w ↦ w.insts.length).sum
  length_words : x.words.length ≤ maxWords .mainPart

theorem length_flatMap_retInsts {part : Part} {words : List Word} (h : ∀ w ∈ words, Sized part w) :
    (words.flatMap retInsts).length = (words.map fun w ↦ w.insts.length).sum := by
  rw [List.length_flatMap]
  congr 1
  apply List.map_congr_left
  intro w hw
  exact (h w hw).length_eq

theorem Lockstep.length_lines {x : SimInput} (h : Lockstep x) :
    (x.words.flatMap retInsts).length = x.ints.length :=
  (length_flatMap_retInsts (h.words .mainPart)).trans h.length_ints.symm

namespace Reader

/-- The interrupt values and the lines that the reader has. -/
structure Balanced (r : Reader) : Prop where
  ints : r.ints.length = ((r.tuples .mainPart).map fun tup ↦ tup.2.length).sum
  lines : ∀ part, ∀ tup ∈ r.tuples part, AreLines tup.2

/-- Where the reader stands: the tuples that it appends to are those of its part. -/
def InPart (r : Reader) : Prop := r.tmp.map Prod.fst = r.part

theorem sum_length_modify {tuples : List (ℤ × List Text)} {i : ℕ} (hi : i < tuples.length)
    (inst : Text) :
    ((tuples.modify i fun tup ↦ (tup.1, tup.2 ++ [inst])).map fun tup ↦ tup.2.length).sum =
      (tuples.map fun tup ↦ tup.2.length).sum + 1 := by
  induction tuples generalizing i with
  | nil => exact absurd hi (Nat.not_lt_zero i)
  | cons tup tuples ih =>
    cases i with
    | zero =>
      simp only [List.modify_zero_cons, List.map_cons, List.sum_cons, List.length_append,
        List.length_singleton]
      omega
    | succ i =>
      have hrest := ih (Nat.lt_of_succ_lt_succ hi)
      simp only [List.modify_succ_cons, List.map_cons, List.sum_cons, hrest]
      omega

theorem areLines_modify {tuples : List (ℤ × List Text)} (h : ∀ tup ∈ tuples, AreLines tup.2)
    {inst : Text} (hinst : Text.IsLineText inst) (i : ℕ) :
    ∀ tup ∈ tuples.modify i fun tup ↦ (tup.1, tup.2 ++ [inst]), AreLines tup.2 := by
  induction tuples generalizing i with
  | nil => cases i <;> exact nofun
  | cons tup tuples ih =>
    obtain ⟨htup, htuples⟩ := List.forall_mem_cons.mp h
    cases i with
    | zero => exact List.forall_mem_cons.mpr ⟨htup.append (.singleton hinst), htuples⟩
    | succ i => exact List.forall_mem_cons.mpr ⟨htup, ih htuples i⟩

variable {r r' : Reader} {line inst : Text}

/-- A label adds a tuple without lines. -/
theorem enter_spec (hr : r.Balanced) (hpart : r.InPart) (hrun : r.enter line = .ok r') :
    r'.Balanced ∧ r'.InPart ∧ (r'.tuples .mainPart).length =
      (r.tuples .mainPart).length + if linePart line = some .mainPart then 1 else 0 := by
  unfold enter at hrun
  cases hline : linePart line with
  | none =>
    rw [hline] at hrun
    obtain rfl := Except.ok.inj hrun
    exact ⟨hr, hpart, rfl⟩
  | some part =>
    rw [hline] at hrun
    obtain ⟨tuples, htuples, hrun⟩ := bind_eq_ok.mp hrun
    obtain rfl := Except.ok.inj hrun
    obtain ⟨label, -, htuples⟩ := bind_eq_ok.mp htuples
    obtain rfl := Except.ok.inj htuples
    refine ⟨⟨?_, fun other ↦ ?_⟩, rfl, ?_⟩
    · by_cases hmain : part = .mainPart
      · subst hmain
        simpa using hr.ints
      · simpa [Function.update_of_ne (Ne.symm hmain)] using hr.ints
    · by_cases hother : other = part
      · subst hother
        dsimp only
        rw [Function.update_self]
        exact List.forall_mem_append.mpr ⟨hr.lines other, List.forall_mem_singleton.mpr .nil⟩
      · dsimp only
        rw [Function.update_of_ne hother]
        exact hr.lines other
    · by_cases hmain : part = .mainPart
      · subst hmain
        simp
      · simp [Function.update_of_ne (Ne.symm hmain), hmain]

/-- A line goes into the tuple at which the reader stands. -/
theorem append_spec (hr : r.Balanced) (hpart : r.InPart) (hinst : Text.IsLineText inst)
    (hrun : r.append inst = .ok r') :
    (∀ part, ∀ tup ∈ r'.tuples part, AreLines tup.2) ∧ r'.InPart ∧ r'.part = r.part ∧
      r'.ints = r.ints ∧ (r'.tuples .mainPart).length = (r.tuples .mainPart).length ∧
      ((r'.tuples .mainPart).map fun tup ↦ tup.2.length).sum =
        r.ints.length + if r.part = some .mainPart then 1 else 0 := by
  unfold append at hrun
  cases htmp : r.tmp with
  | none =>
    rw [htmp] at hrun
    exact nomatch hrun
  | some tmp =>
    obtain ⟨part, num⟩ := tmp
    have hpart' : r.part = some part := by rw [← hpart, htmp, Option.map_some]
    rw [htmp] at hrun
    dsimp only at hrun
    split at hrun
    · next hnum =>
      obtain rfl := Except.ok.inj hrun
      refine ⟨fun other ↦ ?_, hpart'.symm, rfl, rfl, ?_, ?_⟩
      · by_cases hother : other = part
        · subst hother
          dsimp only
          rw [Function.update_self]
          exact areLines_modify (hr.lines other) hinst _
        · dsimp only
          rw [Function.update_of_ne hother]
          exact hr.lines other
      · by_cases hmain : part = .mainPart
        · subst hmain
          simp
        · simp [Function.update_of_ne (Ne.symm hmain)]
      · by_cases hmain : part = .mainPart
        · subst hmain
          dsimp only
          rw [Function.update_self, sum_length_modify hnum, hr.ints, if_pos hpart']
        · have hne : r.part ≠ some .mainPart := by simpa [hpart'] using hmain
          dsimp only
          rw [Function.update_of_ne (Ne.symm hmain), hr.ints, if_neg hne, Nat.add_zero]
    · exact nomatch hrun

/-- A line of the main part is read with its interrupt value. -/
theorem readLine_spec (hr : r.Balanced) (hpart : r.InPart)
    (hline : Text.IsLineText (Text.slice line 8 50)) (hrun : r.readLine line = .ok r') :
    r'.Balanced ∧ r'.InPart ∧ (r'.tuples .mainPart).length =
      (r.tuples .mainPart).length + if linePart line = some .mainPart then 1 else 0 := by
  obtain ⟨r₁, henter, hrun⟩ := bind_eq_ok.mp hrun
  obtain ⟨r₂, happend, hrun⟩ := bind_eq_ok.mp hrun
  obtain ⟨hr₁, hpart₁, hlength₁⟩ := enter_spec hr hpart henter
  obtain ⟨hlines₂, hpart₂, heq₂, hints₂, hlength₂, hsum₂⟩ := append_spec hr₁ hpart₁ hline happend
  rw [← hlength₁, ← hlength₂]
  rw [← heq₂, ← hints₂] at hsum₂
  split at hrun
  · next hmain =>
    obtain ⟨int, -, hrun⟩ := bind_eq_ok.mp hrun
    obtain rfl := Except.ok.inj hrun
    refine ⟨⟨?_, hlines₂⟩, hpart₂, rfl⟩
    rw [if_pos hmain] at hsum₂
    rw [List.length_append, List.length_singleton]
    exact hsum₂.symm
  · next hmain =>
    obtain rfl := Except.ok.inj hrun
    rw [if_neg hmain, Nat.add_zero] at hsum₂
    exact ⟨⟨hsum₂.symm, hlines₂⟩, hpart₂, rfl⟩

/-- The lines up to the data are read in lockstep. -/
theorem readLines_spec {lines rest : List Text} {data : List ℤ} (hr : r.Balanced)
    (hpart : r.InPart) (hlines : ∀ line ∈ lines, Text.IsLineText (Text.slice line 8 50))
    (hrest : ∀ line ∈ rest.head?, "data:".toList <:+: line)
    (hrun : readLines (lines ++ rest) r = .ok (r', data)) :
    r'.Balanced ∧ (r'.tuples .mainPart).length ≤
      (r.tuples .mainPart).length + lines.countP (linePart · = some .mainPart) := by
  have hdata : ∀ {r : Reader} {rest : List Text}, r.Balanced → (do
      let data ← rest.mapM (Text.int 16)
      return ({ r with part := none }, data)) = Except.ok (r', data) →
      r'.Balanced ∧ (r'.tuples .mainPart).length = (r.tuples .mainPart).length := by
    intro r rest hr hrun
    obtain ⟨data', -, hrun⟩ := bind_eq_ok.mp hrun
    obtain ⟨rfl, -⟩ := Prod.mk.inj (Except.ok.inj hrun)
    exact ⟨⟨hr.ints, hr.lines⟩, rfl⟩
  induction lines generalizing r with
  | nil =>
    rw [List.nil_append] at hrun
    cases rest with
    | nil =>
      obtain ⟨rfl, -⟩ := Prod.mk.inj (Except.ok.inj hrun)
      exact ⟨hr, Nat.le_add_right _ _⟩
    | cons line rest =>
      rw [readLines, if_pos (hrest line rfl)] at hrun
      obtain ⟨hr', hlength⟩ := hdata hr hrun
      exact ⟨hr', hlength.le⟩
  | cons line lines ih =>
    obtain ⟨hline, hlines⟩ := List.forall_mem_cons.mp hlines
    rw [List.cons_append, readLines] at hrun
    split at hrun
    · obtain ⟨hr', hlength⟩ := hdata hr hrun
      exact ⟨hr', hlength.le.trans (Nat.le_add_right _ _)⟩
    · obtain ⟨r₁, hread, hrun⟩ := bind_eq_ok.mp hrun
      obtain ⟨hr₁, hpart₁, hlength₁⟩ := readLine_spec hr hpart hline hread
      obtain ⟨hr', hlength⟩ := ih hr₁ hpart₁ hlines hrun
      refine ⟨hr', hlength.trans ?_⟩
      simp only [hlength₁, List.countP_cons, decide_eq_true_eq]
      omega

end Reader

section Lines

variable {part : Part} {w : Word} {inst : Text} {int : ℤ} {x : SimInput}

theorem linePart_eq_of_take_eq {line line' : Text} (h : line.take 2 = line'.take 2) :
    Reader.linePart line = Reader.linePart line' := by
  rw [Reader.linePart, Reader.linePart, h]

/-- The reader finds the labels of a printed word. -/
theorem Sized.linePart (hw : Sized part w) : ∃ first rest, w.retInsts = first :: rest ∧
    2 ≤ first.length ∧ Reader.linePart first = some part ∧
    ∀ inst ∈ rest, 2 ≤ inst.length ∧ Reader.linePart inst = none := by
  have hlong : ∀ {text start : Text} {n : ℕ}, text.take n = start → start.length ≤ text.length := by
    rintro text start n rfl
    exact (List.length_take_le' n text)
  obtain ⟨first, rest, hlines, hfirst, hrest⟩ := hw.shape
  refine ⟨first, rest, hlines, ?_, ?_, fun inst hinst ↦ ⟨?_, ?_⟩⟩
  · have hpart : part.text.length = 2 := by cases part <;> rfl
    exact hpart ▸ hlong hfirst
  · unfold Reader.linePart
    rw [hfirst]
    cases part <;> rfl
  · have hblanks := hlong (hrest inst hinst)
    rw [List.length_replicate] at hblanks
    omega
  · have htake : inst.take 2 = List.replicate 2 ' ' := by
      calc
        inst.take 2 = (inst.take 8).take 2 := by
          rw [List.take_take, Nat.min_eq_left (by decide)]
        _ = (List.replicate 8 ' ').take 2 := by rw [hrest inst hinst]
    unfold Reader.linePart
    rw [htake]
    rfl

theorem Sized.two_le_length (hw : Sized part w) (hinst : inst ∈ w.retInsts) : 2 ≤ inst.length := by
  obtain ⟨first, rest, hlines, hfirst, -, hrest⟩ := hw.linePart
  rw [hlines] at hinst
  rcases List.mem_cons.mp hinst with rfl | hinst
  · exact hfirst
  · exact (hrest inst hinst).1

/-- Only the first line of a main word is a main line. -/
theorem Sized.countP_linePart (hw : Sized part w) :
    w.retInsts.countP (Reader.linePart · = some .mainPart) = if part = .mainPart then 1 else 0 := by
  obtain ⟨first, rest, hlines, -, hfirst, hrest⟩ := hw.linePart
  have hzero : rest.countP (Reader.linePart · = some .mainPart) = 0 := by
    rw [List.countP_eq_zero]
    intro inst hinst
    simp [(hrest inst hinst).2]
  rw [hlines, List.countP_cons, hzero, hfirst]
  cases part <;> rfl

theorem linePart_printLine (h : 2 ≤ inst.length) :
    Reader.linePart (printLine part inst int ++ ['\n']) = Reader.linePart inst := by
  apply linePart_eq_of_take_eq
  rw [printLine, Text.ljust_eq_append, List.append_assoc, List.append_assoc,
    List.take_append_of_le_length h]

/-- The columns that are read lie in the line. -/
theorem isLineText_slice_printLine (h : Text.IsLineText inst) :
    Text.IsLineText (Text.slice (printLine part inst int ++ ['\n']) 8 50) := by
  have hslice : Text.slice (printLine part inst int ++ ['\n']) 8 50 =
      ((Text.ljust 50 inst).take 50).drop 8 := by
    have hlength : 50 ≤ (Text.ljust 50 inst).length := by
      rw [Text.length_ljust]
      exact Nat.le_max_left 50 inst.length
    calc
      Text.slice (printLine part inst int ++ ['\n']) 8 50
          = ((printLine part inst int ++ ['\n']).take 50).drop 8 := Text.slice_natCast _ 8 50
      _ = ((Text.ljust 50 inst).take 50).drop 8 := by
        rw [printLine, List.append_assoc, List.take_append_of_le_length hlength]
  rw [hslice]
  apply (h.ljust 50).of_subset
  intro c hc
  exact List.mem_of_mem_take (List.mem_of_mem_drop hc)

theorem isLineText_printLine (h : Text.IsLineText inst) :
    Text.IsLineText (printLine part inst int) := by
  refine (h.ljust 50).append ?_
  split
  · exact Text.isLineText_zeroPadInt (by decide) (by decide) 4 int
  · exact Text.isLineText_nil

namespace Lockstep

theorem length_intsOf (hx : Lockstep x) (part : Part) :
    ((x.partWords part).flatMap retInsts).length = (x.intsOf part).length := by
  cases part with
  | mainPart => exact hx.length_lines
  | prefixPart => exact List.length_replicate.symm
  | suffixPart => exact List.length_replicate.symm

/-- Every line of a part is that of an instruction of one of its words. -/
theorem mem_partLines (hx : Lockstep x) {line : Text} (h : line ∈ x.partLines part) :
    ∃ w inst int, Sized part w ∧ inst ∈ w.retInsts ∧ line = printLine part inst int := by
  obtain ⟨⟨inst, int⟩, hentry, rfl⟩ := List.mem_map.mp h
  obtain ⟨w, hw, hinst⟩ := List.mem_flatMap.mp (List.of_mem_zip hentry).1
  exact ⟨w, inst, int, hx.words part w hw, hinst, rfl⟩

/-- The main lines of a part are as many as its words, and the other parts have none. -/
theorem countP_partLines (hx : Lockstep x) (part : Part) :
    ((x.partLines part).map (· ++ ['\n'])).countP (Reader.linePart · = some .mainPart) =
      if part = .mainPart then (x.partWords part).length else 0 := by
  have hwords : ∀ words : List Word, (∀ w ∈ words, Sized part w) →
      (words.flatMap retInsts).countP (Reader.linePart · = some .mainPart) =
        if part = .mainPart then words.length else 0 := by
    intro words
    induction words with
    | nil => exact fun _ ↦ (ite_self 0).symm
    | cons w words ih =>
      intro h
      obtain ⟨hw, hwords⟩ := List.forall_mem_cons.mp h
      rw [List.flatMap_cons, List.countP_append, ih hwords, hw.countP_linePart, List.length_cons]
      split
      · exact Nat.add_comm 1 words.length
      · rfl
  have hzip : (((x.partWords part).flatMap retInsts).zip (x.intsOf part)).map Prod.fst =
      (x.partWords part).flatMap retInsts := List.map_fst_zip (hx.length_intsOf part).le
  rw [← hwords (x.partWords part) (hx.words part), ← hzip, SimInput.partLines, List.map_map,
    List.countP_map, List.countP_map]
  apply List.countP_congr
  intro entry hentry
  obtain ⟨w, hw, hinst⟩ := List.mem_flatMap.mp (List.of_mem_zip hentry).1
  have hlength := (hx.words part w hw).two_le_length hinst
  simp [linePart_printLine hlength]

end Lockstep

end Lines

/-- The words that are read have the lines of their tuples. -/
theorem sized_tuplesToWords {part : Part} {tuples : List (ℤ × List Text)} {words : List Word}
    (hlines : ∀ tup ∈ tuples, AreLines tup.2)
    (h : Mutator.tuplesToWords tuples part = .ok words) : (∀ w ∈ words, Sized part w) ∧
      (words.map fun w ↦ w.insts.length) = tuples.map fun tup ↦ tup.2.length := by
  have hwords := forall₂_of_mapM_eq_ok h
  clear h
  induction hwords with
  | nil => exact ⟨nofun, rfl⟩
  | cons hpopulate _ ih =>
    obtain ⟨htup, htuples⟩ := List.forall_mem_cons.mp hlines
    obtain ⟨hsized, hlengths⟩ := ih htuples
    refine ⟨List.forall_mem_cons.mpr ⟨.of_populate hpopulate htup LineValues.empty, hsized⟩, ?_⟩
    rw [List.map_cons, List.map_cons, hlengths, (length_retInsts_populate hpopulate).2.1]
    rfl

namespace Lockstep

variable {x y : SimInput}

/-- The lines of the file are lines. -/
theorem isLineText_lines (hx : Lockstep x) {template : Text} (htemplate : template ∈ templates)
    (data : List ℤ) :
    ∀ line ∈ template :: [] :: (x.partLines .prefixPart ++ x.partLines .mainPart ++
      x.partLines .suffixPart ++ SimInput.dataLines data), Text.IsLineText line := by
  have htemplates : ∀ template ∈ templates, Text.IsLineText template := by
    unfold Text.IsLineText
    decide
  have hpart : ∀ part, ∀ line ∈ x.partLines part, Text.IsLineText line := by
    intro part line hline
    obtain ⟨w, inst, int, hw, hinst, rfl⟩ := hx.mem_partLines hline
    exact isLineText_printLine (hw.lines inst hinst)
  have hdata : ∀ line ∈ SimInput.dataLines data, Text.IsLineText line := by
    unfold SimInput.dataLines
    split
    · exact nofun
    · refine List.forall_mem_cons.mpr ⟨by decide, fun line hline ↦ ?_⟩
      obtain ⟨word, -, rfl⟩ := List.mem_map.mp hline
      exact Text.isLineText_zeroPadInt (by decide) (by decide) 16 word
  simp only [List.forall_mem_cons, List.forall_mem_append]
  exact ⟨htemplates template htemplate, Text.isLineText_nil,
    ⟨⟨hpart .prefixPart, hpart .mainPart⟩, hpart .suffixPart⟩, hdata⟩

/-- What the reader has after the lines of a file. -/
theorem readLines_lines (hx : Lockstep x) {data data' : List ℤ} {r : Reader}
    (h : Reader.readLines ((x.partLines .prefixPart ++ x.partLines .mainPart ++
      x.partLines .suffixPart ++ SimInput.dataLines data).map (· ++ ['\n'])) Reader.start =
        .ok (r, data')) :
    r.Balanced ∧ (r.tuples .mainPart).length ≤ x.words.length := by
  have hstart : Reader.start.Balanced := ⟨rfl, fun _ ↦ nofun⟩
  have hslice : ∀ line ∈ (x.partLines .prefixPart ++ x.partLines .mainPart ++
      x.partLines .suffixPart).map (· ++ ['\n']), Text.IsLineText (Text.slice line 8 50) := by
    intro line hline
    obtain ⟨inner, hinner, rfl⟩ := List.mem_map.mp hline
    have hpart : ∃ part, inner ∈ x.partLines part := by
      rcases List.mem_append.mp hinner with hinner | hinner
      · rcases List.mem_append.mp hinner with hinner | hinner
        · exact ⟨_, hinner⟩
        · exact ⟨_, hinner⟩
      · exact ⟨_, hinner⟩
    obtain ⟨part, hinner⟩ := hpart
    obtain ⟨w, inst, int, hw, hinst, rfl⟩ := hx.mem_partLines hinner
    exact isLineText_slice_printLine (hw.lines inst hinst)
  have hdata : ∀ line ∈ ((SimInput.dataLines data).map (· ++ ['\n'])).head?,
      "data:".toList <:+: line := by
    unfold SimInput.dataLines
    split
    · exact nofun
    · intro line hline
      obtain rfl := Option.some.inj hline
      exact (List.prefix_append _ _).isInfix
  rw [List.map_append] at h
  obtain ⟨hr, hlength⟩ := Reader.readLines_spec hstart rfl hslice hdata h
  refine ⟨hr, hlength.trans ?_⟩
  rw [List.map_append, List.map_append, List.countP_append, List.countP_append,
    hx.countP_partLines, hx.countP_partLines, hx.countP_partLines]
  simp [Reader.start, SimInput.partWords]

/-- A test that is read from the file of a test in lockstep is in lockstep. -/
theorem readSiminput (hx : Lockstep x) {data data' : List ℤ} {contents : Text}
    (hsave : x.save data = .ok contents) {m m' : Mutator} {draws draws' : Draws} {intr : Bool}
    (h : m.readSiminput contents draws = .ok ((y, data', intr), m', draws')) : Lockstep y := by
  have htemplate : ∃ template, Text.item templates x.template = .ok template := by
    obtain ⟨prefixInsts, -, hsave⟩ := bind_eq_ok.mp hsave
    obtain ⟨insts, -, hsave⟩ := bind_eq_ok.mp hsave
    obtain ⟨suffixInsts, -, hsave⟩ := bind_eq_ok.mp hsave
    obtain ⟨template, htemplate, -⟩ := bind_eq_ok.mp hsave
    exact ⟨template, htemplate⟩
  obtain ⟨template, htemplate⟩ := htemplate
  rw [SimInput.save_eq_ok (fun part w hw ↦ (hx.words part w hw).populated) hx.length_lines.symm
    htemplate] at hsave
  obtain rfl := Except.ok.inj hsave
  unfold Mutator.readSiminput at h
  rw [Text.readlines_flatMap (hx.isLineText_lines (Text.mem_of_item_eq_ok htemplate) data),
    List.map_cons, List.map_cons] at h
  obtain ⟨index, -, h⟩ := bind_eq_ok.mp h
  obtain ⟨⟨r, newData⟩, hread, h⟩ := bind_eq_ok.mp h
  obtain ⟨prefixWords, hbegins, h⟩ := bind_eq_ok.mp h
  obtain ⟨words, hwords, h⟩ := bind_eq_ok.mp h
  obtain ⟨suffixWords, hsuffix, h⟩ := bind_eq_ok.mp h
  obtain ⟨⟨seed, m₁, draws₁⟩, -, h⟩ := bind_eq_ok.mp h
  dsimp only at h
  split at h
  · exact nomatch h
  · have heq := (Prod.mk.inj (Prod.mk.inj (Except.ok.inj h)).1).1
    subst heq
    obtain ⟨hr, hlength⟩ := hx.readLines_lines hread
    have hmain := sized_tuplesToWords (hr.lines _) hwords
    refine ⟨fun part ↦ ?_, ?_, ?_⟩
    · cases part with
      | prefixPart => exact (sized_tuplesToWords (hr.lines _) hbegins).1
      | mainPart => exact hmain.1
      | suffixPart => exact (sized_tuplesToWords (hr.lines _) hsuffix).1
    · change r.ints.length = (words.map fun w ↦ w.insts.length).sum
      rw [hr.ints, hmain.2]
    · have hcount := congrArg List.length hmain.2
      rw [List.length_map, List.length_map] at hcount
      change words.length ≤ maxWords .mainPart
      rw [hcount]
      exact hlength.trans hx.length_words

end Lockstep

end ProcessorFuzz.Mutation
