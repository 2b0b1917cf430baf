import ProcessorFuzz.Mutation.CorpusData
import ProcessorFuzz.Mutation.TestCase
import ProcessorFuzz.Mutation.WordInvariants

/-!
# Empty sampling ranges

A control-flow word jumps to a label behind its own. The words that `mutate_words` inserts and those
of the first test are numbered by a counter of the generator and jump at most to the label of the
last seed word, so that the range of the label is empty when the counter has come that far. `get`
sets an interrupt among the first instructions of the main part, of which a mutation may leave none.
-/

namespace ProcessorFuzz.Mutation

open Library Library.Stateful Generating RvMutator

/-- A computation that leaves the counters alone. -/
def KeepsNum {α : Type} (x : Generating α) : Prop :=
  ∀ s, Ensures x s fun _ s' ↦ s'.1.num = s.1.num

section KeepsNum

variable {α β ι : Type} {x : Generating α} {f : α → Generating β}

theorem KeepsNum.bind (hx : KeepsNum x) (hf : ∀ a, KeepsNum (f a)) : KeepsNum (x >>= f) := by
  intro s
  apply Ensures.bind (hx s)
  intro a s₁ h₁
  exact (hf a s₁).mono fun _ _ h ↦ h.trans h₁

theorem KeepsNum.pure (a : α) : KeepsNum (Pure.pure a) := fun _ ↦ .pure rfl

theorem KeepsNum.onSnd (y : Stateful Draws α) : KeepsNum (onSnd y) :=
  fun _ ↦ .onSnd ⟨fun _ _ ↦ rfl⟩

theorem KeepsNum.lift (y : Except PyError α) : KeepsNum (lift y) := fun _ ↦ .lift fun _ _ ↦ rfl

theorem KeepsNum.read (g : InstGenerator × Draws → α) : KeepsNum (read g) := fun _ ↦ .read rfl

theorem KeepsNum.write {g : InstGenerator × Draws → InstGenerator × Draws}
    (hg : ∀ s, (g s).1.num = s.1.num) : KeepsNum (write g) := fun s ↦ .write (hg s)

theorem KeepsNum.ite {P : Prop} [Decidable P] {y : Generating α} (hx : KeepsNum x)
    (hy : KeepsNum y) : KeepsNum (if P then x else y) := by
  split
  · exact hx
  · exact hy

theorem KeepsNum.fill {operands : List ι} {name : ι → Text} {value : ι → Generating Text}
    (hvalue : ∀ operand, KeepsNum (value operand)) (opvals : Dict Text Text) :
    KeepsNum (fill operands name value opvals) := by
  intro s
  refine Ensures.foldlM (I := fun _ (s' : InstGenerator × Draws) ↦ s'.1.num = s.1.num) (fun operand _ opvals s₁ h₁ ↦ ?_) rfl
  apply Ensures.bind (hvalue operand s₁)
  intro val s₂ h₂
  exact .pure (h₂.trans h₁)

theorem keepsNum_reuses (used : List ℕ) : KeepsNum (reuses used) :=
  .ite (.pure _) (.bind (.onSnd _) fun _ ↦ .pure _)

theorem keepsNum_getXregs (region : ℕ × ℕ) (noZero : Bool) : KeepsNum (getXregs region noZero) := by
  have hdraw : KeepsNum (drawXNum region) :=
    .bind (.read _) fun _ ↦ .bind (keepsNum_reuses _) fun _ ↦
      .ite (.onSnd _) (.bind (.onSnd _) fun _ ↦ .bind (.write fun _ ↦ rfl) fun _ ↦ .pure _)
  exact .bind hdraw fun _ ↦ .bind (.onSnd _) fun _ ↦ .pure _

theorem keepsNum_getFregs : KeepsNum getFregs := by
  have hdraw : KeepsNum drawFNum :=
    .bind (.read _) fun _ ↦ .bind (keepsNum_reuses _) fun _ ↦
      .ite (.onSnd _) (.bind (.onSnd _) fun _ ↦ .bind (.write fun _ ↦ rfl) fun _ ↦ .pure _)
  exact .bind hdraw fun _ ↦ .pure _

theorem keepsNum_getImm (iName : Text) (align : ℕ) : KeepsNum (getImm iName align) := by
  have hnum (mask : ℕ) : KeepsNum (immNum mask) :=
    .bind (.read _) fun _ ↦ .bind (.onSnd _) fun _ ↦
      .ite (.onSnd _) (.ite (.onSnd _)
        (.bind (.onSnd _) fun _ ↦ .bind (.write fun _ ↦ rfl) fun _ ↦ .pure _))
  exact .bind (.lift _) fun _ ↦ .bind (.onSnd _) fun _ ↦
    .ite (.lift _) (.bind (.onSnd _) fun _ ↦ .bind (hnum _) fun _ ↦ .pure _)

/-- Populating a word draws no number of another word. -/
theorem keepsNum_populateWord (w : GenWord) (maxLabel : ℤ) (part : Part) :
    KeepsNum (populateWord w maxLabel part) :=
  .ite (.pure _) (.bind (.fill (fun _ ↦ .ite (keepsNum_getXregs _ _) (keepsNum_getXregs _ _)) _)
    fun _ ↦ .bind (.fill (fun _ ↦ keepsNum_getFregs) _) fun _ ↦
      .bind (.fill (fun _ ↦ keepsNum_getImm _ _) _) fun _ ↦
        .bind (.fill (fun _ ↦ .onSnd _) _) fun _ ↦ .bind (.lift _) fun _ ↦ .pure _)

end KeepsNum

/-- The words that `mutate_words` inserts, as `get_word` returns them: up to the first one that
cannot be populated. -/
def inserted (part : Part) (maxLabel : ℤ) : List GenWord → InstGenerator × Draws → List GenWord
  | [], _ => []
  | _ :: seedWords, (generator, draws) =>
    let rand := draws 0 % 2 ^ 53
    if ¬ Draws.below rand 1 2 ∧ Draws.below rand 3 4 then
      match getWord part (generator, draws.rest) with
      | .error _ => []
      | .ok (newWord, s) =>
        newWord ::
          match populateWord newWord maxLabel part s with
          | .error _ => []
          | .ok (_, s) => inserted part maxLabel seedWords s
    else inserted part maxLabel seedWords (generator, draws.rest)

/-- There is a label behind every control-flow word of a list whose words are numbered from `num`. -/
def Fits (num : ℕ) (maxLabel : ℤ) (words : List GenWord) : Prop :=
  ∀ (k : ℕ) (w : GenWord), words[k]? = some w → Jumps w → ((num + k : ℕ) : ℤ) < maxLabel

section Loop

variable {part : Part} {maxLabel : ℤ} {s : InstGenerator × Draws}

theorem fits_nil (num : ℕ) : Fits num maxLabel [] := nofun

theorem fits_cons {num : ℕ} {w : GenWord} {words : List GenWord} : Fits num maxLabel (w :: words) ↔
    (Jumps w → (num : ℤ) < maxLabel) ∧ Fits (num + 1) maxLabel words := by
  constructor
  · intro h
    refine ⟨h 0 w rfl, fun k w' hw' hjump ↦ ?_⟩
    have hlt := h (k + 1) w' hw' hjump
    rwa [← Nat.add_assoc, Nat.add_right_comm] at hlt
  · rintro ⟨hw, hwords⟩ k w' hw' hjump
    cases k with
    | zero =>
      obtain rfl := Option.some.inj hw'
      exact hw hjump
    | succ k =>
      have hlt := hwords k w' hw' hjump
      rwa [Nat.add_right_comm, Nat.add_assoc] at hlt

/-- The loop of `mutate_words` returns if its control-flow words fit, and draws from an empty range
if they do not. -/
theorem mutateLoop_raisesUnless (hmax : 0 ≤ maxLabel) (seedWords : List GenWord) :
    RaisesUnless .valueError (Fits (s.1.num part) maxLabel (inserted part maxLabel seedWords s))
      (mutateLoop part maxLabel seedWords s) := by
  induction seedWords generalizing s with
  | nil => exact .of_eq_ok rfl (fits_nil _)
  | cons word seedWords ih =>
    obtain ⟨generator, draws⟩ := s
    have hrandom : onSnd Draws.random (generator, draws) =
        .ok (draws 0 % 2 ^ 53, (generator, draws.rest)) := rfl
    have hreturn {s : InstGenerator × Draws} (f : List GenWord → List GenWord) :
        RaisesUnless .valueError
          (Fits (s.1.num part) maxLabel (inserted part maxLabel seedWords s))
          ((do
            let words ← mutateLoop part maxLabel seedWords
            return f words : Generating (List GenWord)) s) :=
      RaisesUnless.bind_ok ih fun r _ ↦ ⟨_, rfl⟩
    rw [mutateLoop, bind_eq, hrandom, ok_bind, inserted]
    dsimp only
    by_cases hkeep : Draws.below (draws 0 % 2 ^ 53) 1 2
    · rw [if_pos hkeep, if_neg fun h ↦ h.1 hkeep]
      exact hreturn (word :: ·)
    · rw [if_neg hkeep]
      by_cases hadd : Draws.below (draws 0 % 2 ^ 53) 3 4
      · rw [if_pos hadd, if_pos ⟨hkeep, hadd⟩]
        obtain ⟨⟨newWord, s₁⟩, hget, hgot, -⟩ :=
          returns_getWord (s := (generator, draws.rest)) stable_true True.intro part
        have hnum : s₁.1.num part = generator.num part + 1 := by
          rw [hgot.num_eq, Function.update_self]
        have hlabel : newWord.label = (generator.num part : ℤ) := hgot.label_eq
        rw [bind_eq, hget, ok_bind]
        dsimp only
        rw [fits_cons]
        by_cases hjump : Jumps newWord → newWord.label < maxLabel
        · obtain ⟨⟨newWord', s₂⟩, hpopulate, -⟩ :=
            returns_populateWord (s := s₁) stable_true True.intro hgot.template hmax hjump part
          have hnum₂ : s₂.1.num part = generator.num part + 1 := by
            rw [(keepsNum_populateWord newWord maxLabel part s₁).of_eq_ok _ hpopulate, hnum]
          rw [bind_eq, hpopulate, ok_bind]
          dsimp only
          rw [hlabel] at hjump
          rw [and_iff_right hjump, ← hnum₂]
          exact hreturn fun words ↦ word :: newWord' :: words
        · -- The word cannot be populated.
          rw [hlabel] at hjump
          refine .of_eq_error ?_ fun hfits ↦ hjump hfits.1
          rw [Classical.not_imp, not_lt, ← hlabel] at hjump
          rw [bind_eq, populateWord_eq_error hgot.template hjump.1 hjump.2, error_bind]
      · rw [if_neg hadd, if_neg fun h ↦ hadd h.2]
        exact ih

/-- The words of the prefix read and write control registers. -/
theorem ensures_getWord_prefixPart :
    Ensures (getWord .prefixPart) s fun w _ ↦ ¬ Jumps w := by
  have hsymbols : ∀ table ∈ baseTables, ∀ item ∈ table, item.1 ∈ RiscvDefinitions.rvZicsr.keys →
      item.2.symbols = [] := by
    decide
  have hwords : ∀ opcode ∈ RiscvDefinitions.rvZicsr.keys,
      wordFunction opcode = wordCsrR ∨ wordFunction opcode = wordCsrI := by
    have hkeys : RiscvDefinitions.rvZicsr.keys =
        ["csrrw", "csrrs", "csrrc", "csrrwi", "csrrsi", "csrrci"].map String.toList := by
      decide
    rw [hkeys]
    simp only [List.map_cons, List.map_nil, List.forall_mem_cons]
    exact ⟨.inl rfl, .inl rfl, .inl rfl, .inr rfl, .inr rfl, .inr rfl, nofun⟩
  apply Ensures.bind (Q := fun opcode _ ↦ opcode ∈ RiscvDefinitions.rvZicsr.keys)
    (.onSnd ⟨fun _ h ↦ Draws.mem_of_choice_eq_ok h⟩)
  intro opcode s₁ hopcode
  apply Ensures.bind .trivial
  intro label s₂ _
  apply Ensures.bind .trivial
  intro _ s₃ _
  cases hlookup : opcodesMap.lookup opcode with
  | none => exact .lift nofun
  | some entry =>
    have hentry : entry.symbols = [] := by
      obtain ⟨before, after, heq, -⟩ := List.lookup_eq_some_iff.mp hlookup
      have hmem : (opcode, entry) ∈ opcodesMap := by
        rw [heq]
        exact List.mem_append_right _ List.mem_cons_self
      obtain ⟨table, htable, hitem⟩ := exists_baseTable hmem
      exact hsymbols table htable _ hitem hopcode
    have hword : Ensures (wordFunction opcode opcode entry) s₃.2
        fun r _ ↦ r.2.2.symbols = [] ∨ ¬ NeedsLater r.1 := by
      rcases hwords opcode hopcode with heq | heq <;> rw [heq]
      · apply Ensures.bind .trivial
        intro csr draws₁ _
        split
        · exact .pure (.inr fun h ↦ h.1 rfl)
        · apply Ensures.bind .trivial
          intro rounds draws₂ _
          apply Ensures.bind .trivial
          intro r draws₃ _
          exact .pure (.inl hentry)
      · apply Ensures.bind .trivial
        intro csr draws₁ _
        exact .pure (.inl hentry)
    apply Ensures.bind (.draw hword)
    intro r s₄ hr
    refine .pure fun hjump ↦ ?_
    rcases hr with hr | hr
    · exact hjump.1 hr
    · exact hr hjump.2

theorem fits_prefixPart {num : ℕ} {words : List GenWord} (h : ∀ w ∈ words, ¬ Jumps w) :
    Fits num maxLabel words :=
  fun _ w hw hjump ↦ absurd hjump (h w (List.mem_of_getElem? hw))

theorem not_jumps_inserted (seedWords : List GenWord) :
    ∀ w ∈ inserted .prefixPart maxLabel seedWords s, ¬ Jumps w := by
  induction seedWords generalizing s with
  | nil => exact nofun
  | cons word seedWords ih =>
    rw [inserted]
    split
    · split
      · exact nofun
      · next newWord s₁ hget =>
        refine List.forall_mem_cons.mpr ⟨ensures_getWord_prefixPart.of_eq_ok _ hget, ?_⟩
        split
        · exact nofun
        · exact ih
    · exact ih

end Loop

/-- The control-flow words that `mutate_words` inserts have a label of the seed words behind them. -/
def MutateFits (part : Part) (seedWords : List GenWord) (s : InstGenerator × Draws) : Prop :=
  Fits (s.1.num part) (lastLabel seedWords) (inserted part (lastLabel seedWords) seedWords s)

/-- No range that `mutate_words` reaches is empty: not in `_get_symbol`, for the words that are
inserted, and not in `repop_label`, for the words whose labels have been set. All of these are
populated, so that none is populated after this. -/
structure MutateRanges (part : Part) (seedWords : List GenWord) (maxNum : ℕ)
    (s : InstGenerator × Draws) : Prop where
  symbols : mutateLoop part (lastLabel seedWords) seedWords s ≠ .error .valueError
  labels : ∀ words s', mutateLoop part (lastLabel seedWords) seedWords s = .ok (words, s') →
    ∀ words' labelMap, relabel part 0 Dict.empty (words.take maxNum) = .ok (words', labelMap) →
      ∀ w ∈ words', w.populated = true ∧ w.label + 1 ≤ words'.length

section MutateWords

variable {part : Part} {seedWords : List GenWord} {s : InstGenerator × Draws} {maxNum : ℕ}

theorem lastLabel_nonneg (words : List GenWord) : 0 ≤ lastLabel words := by
  unfold lastLabel
  split
  · exact le_rfl
  · next hne =>
    have hpos := List.length_pos_of_ne_nil hne
    omega

theorem mutateFits_prefix : MutateFits .prefixPart seedWords s :=
  fits_prefixPart (not_jumps_inserted seedWords)

theorem mutateFits_loop : RaisesUnless .valueError (MutateFits part seedWords s)
    (mutateLoop part (lastLabel seedWords) seedWords s) :=
  mutateLoop_raisesUnless (lastLabel_nonneg seedWords) seedWords

/-- The words of a part are numbered from `n` on. -/
theorem label_relabel {n : ℕ} {labelMap labelMap' : Dict ℤ ℤ} {words words' : List GenWord}
    (h : relabel part n labelMap words = .ok (words', labelMap')) :
    words'.length = words.length ∧
      ∀ (i : ℕ) (w : GenWord), words'[i]? = some w → w.label = (n + i : ℕ) := by
  induction words generalizing n labelMap words' labelMap' with
  | nil =>
    obtain ⟨rfl, -⟩ := Prod.mk.inj (Except.ok.inj h)
    exact ⟨rfl, nofun⟩
  | cons w words ih =>
    obtain ⟨⟨word, tup⟩, hreset, h⟩ := bind_eq_ok.mp h
    obtain ⟨⟨rest, labelMap₁⟩, hrest, h⟩ := bind_eq_ok.mp h
    obtain ⟨rfl, -⟩ := Prod.mk.inj (Except.ok.inj h)
    obtain ⟨hlength, hlabels⟩ := ih hrest
    have hlabel : word.label = (n : ℤ) := by
      unfold Word.resetLabel at hreset
      split at hreset
      · split at hreset
        · exact nomatch hreset
        · exact (congrArg Word.label (Prod.mk.inj (Except.ok.inj hreset)).1).symm
      · exact (congrArg Word.label (Prod.mk.inj (Except.ok.inj hreset)).1).symm
    refine ⟨by simp [hlength], fun i v hv ↦ ?_⟩
    cases i with
    | zero =>
      obtain rfl := Option.some.inj hv
      exact hlabel
    | succ i =>
      rw [hlabels i v hv]
      push_cast
      ring

/-- The ranges of `repop_label` are never empty. -/
theorem mutateRanges_iff (h : ∀ w ∈ seedWords, w.populated = true) :
    MutateRanges part seedWords maxNum s ↔ MutateFits part seedWords s := by
  rw [← mutateFits_loop.ne_error_iff]
  refine ⟨fun hranges ↦ hranges.symbols, fun hne ↦ ⟨hne, ?_⟩⟩
  intro words s' hloop words' labelMap hrelabel w hw
  have hwords : ∀ w ∈ words, w.populated = true :=
    (wordInvariant_populated.ensures_mutateLoop h).of_eq_ok _ hloop
  have hpopulated := forall_relabel (D := fun _ ↦ True)
    (fun w hw ↦ ⟨hwords w (List.mem_of_mem_take hw), True.intro⟩) hrelabel
  obtain ⟨i, hi, rfl⟩ := List.getElem_of_mem hw
  have hlabel := (label_relabel hrelabel).2 i _ (List.getElem?_eq_getElem hi)
  exact ⟨(hpopulated _ hw).1, by omega⟩

/-- Words with legible lines are mutated if the words that are inserted fit, whatever their labels
are. -/
theorem mutateWords_raisesUnless (h : ∀ w ∈ seedWords, LegibleLines part w.toWord) (maxNum : ℕ) :
    RaisesUnless .valueError (MutateFits part seedWords s) (mutateWords seedWords part maxNum s) := by
  refine RaisesUnless.bind_ok mutateFits_loop fun r hloop ↦ ?_
  have hwords := (wordInvariant_legibleLines.ensures_mutateLoop h).of_eq_ok r hloop
  have htake : ∀ w ∈ r.1.take maxNum, LegibleLines part w.toWord :=
    fun w hw ↦ hwords w (List.mem_of_mem_take hw)
  obtain ⟨⟨words', draws'⟩, hreset, -⟩ := returns_resetLabels htake r.2.2
  have hlegible := (wordInvariant_legibleLines.resetLabels htake).of_eq_ok _ hreset
  refine ⟨(words', (r.2.1, draws')), ?_⟩
  dsimp only
  rw [bind_eq, onSnd, hreset, ok_bind, ok_bind]
  exact wordInvariant_legibleLines.mapM_populated hlegible _

/-- Some word of a list is not dropped: the outcome for it is below 3/4. -/
def Keeps (length : ℕ) (draws : Draws) : Prop :=
  ∃ i < length, Draws.below (draws i % 2 ^ 53) 3 4

theorem keeps_succ {length : ℕ} {draws : Draws} :
    Keeps (length + 1) draws ↔
      Draws.below (draws 0 % 2 ^ 53) 3 4 ∨ Keeps length draws.rest := by
  constructor
  · rintro ⟨i, hi, hkeep⟩
    cases i with
    | zero => exact .inl hkeep
    | succ i => exact .inr ⟨i, Nat.lt_of_succ_lt_succ hi, hkeep⟩
  · rintro (hkeep | ⟨i, hi, hkeep⟩)
    · exact ⟨0, Nat.succ_pos length, hkeep⟩
    · exact ⟨i + 1, Nat.succ_lt_succ hi, hkeep⟩

/-- The loop of `mutate_words` leaves a word if it does not drop all of them. -/
theorem ensures_mutateLoop_ne_nil (maxLabel : ℤ) (seedWords : List GenWord) :
    Ensures (mutateLoop part maxLabel seedWords) s
      fun words _ ↦ words ≠ [] ↔ Keeps seedWords.length s.2 := by
  induction seedWords generalizing s with
  | nil =>
    exact .pure ⟨fun h ↦ absurd rfl h, fun ⟨i, hi, _⟩ ↦ absurd hi (Nat.not_lt_zero i)⟩
  | cons word seedWords ih =>
    have hrandom : Ensures (onSnd Draws.random) s
        fun rand s' ↦ rand = s.2 0 % 2 ^ 53 ∧ s' = (s.1, s.2.rest) := .onSnd ⟨fun r hr ↦ by
      obtain rfl := Except.ok.inj hr
      exact ⟨rfl, rfl⟩⟩
    apply Ensures.bind hrandom
    rintro rand s₁ ⟨rfl, rfl⟩
    rw [List.length_cons, keeps_succ]
    split
    · next hkeep =>
      have hbelow : Draws.below (s.2 0 % 2 ^ 53) 3 4 := by
        simp only [Draws.below, decide_eq_true_eq] at hkeep ⊢
        omega
      apply Ensures.bind .trivial
      intro words s₂ _
      exact .pure ⟨fun _ ↦ .inl hbelow, fun _ ↦ List.cons_ne_nil _ _⟩
    · split
      · next hadd =>
        apply Ensures.bind .trivial
        intro newWord s₂ _
        apply Ensures.bind .trivial
        intro newWord' s₃ _
        apply Ensures.bind .trivial
        intro words s₄ _
        exact .pure ⟨fun _ ↦ .inl hadd, fun _ ↦ List.cons_ne_nil _ _⟩
      · next hdrop =>
        refine ih.mono fun words s₂ hwords ↦ ?_
        rw [hwords, or_iff_right hdrop]

theorem ensures_length_resetLabels {words : List GenWord} {draws : Draws} :
    Ensures (resetLabels words part) draws fun words' _ ↦ words'.length = words.length := by
  apply Ensures.bind (.lift (Q := fun r _ ↦ r.1.length = words.length) fun r hr ↦
    (label_relabel hr).1)
  intro ⟨words₁, labelMap⟩ draws₁ hlength
  refine (Ensures.mapM (I := fun _ ↦ True) (C := fun _ _ ↦ True) (fun _ _ _ _ ↦ ?_)
    True.intro).mono fun words₂ _ h ↦ h.1.length_eq.symm.trans hlength
  exact ⟨fun _ _ ↦ ⟨True.intro, True.intro⟩⟩

theorem ensures_mutateWords_ne_nil (hmax : 0 < maxNum) :
    Ensures (mutateWords seedWords part maxNum) s
      fun words _ ↦ words ≠ [] ↔ Keeps seedWords.length s.2 := by
  apply Ensures.bind (ensures_mutateLoop_ne_nil _ seedWords)
  intro words s₁ hwords
  apply Ensures.bind (.draw ensures_length_resetLabels)
  intro words' s₂ hlength
  refine (Ensures.mapM (I := fun _ ↦ True) (C := fun _ _ ↦ True) (fun _ _ _ _ ↦ ?_)
    True.intro).mono fun words'' _ h ↦ ?_
  · exact ⟨fun _ _ ↦ ⟨True.intro, True.intro⟩⟩
  · have hsame : words''.length = min maxNum words.length := by
      rw [← h.1.length_eq, hlength, List.length_take]
    rw [← hwords, ← List.length_pos_iff, ← List.length_pos_iff, hsame]
    omega

end MutateWords

namespace RvMutator

/-- No range is empty that `get` reaches after the choice of the seed words. -/
def SeedRanges (seed : Parts) (assertIntr : Bool) (s : InstGenerator × Draws) : Prop :=
  MutateRanges .prefixPart (seed.words .prefixPart) (maxWords .prefixPart) s ∧
  ∀ prefixWords s₁, mutateWords (seed.words .prefixPart) .prefixPart (maxWords .prefixPart) s =
    .ok (prefixWords, s₁) →
  MutateRanges .mainPart (seed.words .mainPart) (maxWords .mainPart) s₁ ∧
  ∀ words s₂, mutateWords (seed.words .mainPart) .mainPart (maxWords .mainPart) s₁ =
    .ok (words, s₂) →
  MutateRanges .suffixPart (seed.words .suffixPart) (maxWords .suffixPart) s₂ ∧
  ∀ suffixWords s₃, mutateWords (seed.words .suffixPart) .suffixPart (maxWords .suffixPart) s₂ =
    .ok (suffixWords, s₃) →
  drawInts (words.map fun w ↦ w.insts.length).sum assertIntr s₃.2 ≠ .error .valueError

/-- The control-flow words that are inserted into the main part and into the suffix fit, and with an
interrupt the main part keeps a word. -/
def SeedFits (seed : Parts) (assertIntr : Bool) (s : InstGenerator × Draws) : Prop :=
  ∀ prefixWords s₁, mutateWords (seed.words .prefixPart) .prefixPart (maxWords .prefixPart) s =
    .ok (prefixWords, s₁) →
  MutateFits .mainPart (seed.words .mainPart) s₁ ∧
  ∀ words s₂, mutateWords (seed.words .mainPart) .mainPart (maxWords .mainPart) s₁ =
    .ok (words, s₂) →
  MutateFits .suffixPart (seed.words .suffixPart) s₂ ∧
  ∀ suffixWords s₃, mutateWords (seed.words .suffixPart) .suffixPart (maxWords .suffixPart) s₂ =
    .ok (suffixWords, s₃) →
  (assertIntr = true → Keeps (seed.words .mainPart).length s₁.2)

/-- No range that `get` reaches is empty. -/
def GetRanges (m : RvMutator) (assertIntr : Bool) (draws : Draws) : Prop :=
  match m.phase with
  | .generation => m.makeDraft assertIntr (InstGenerator.start, draws) ≠ .error .valueError
  | .mutation => ∀ seed draws', m.mutationSeed draws = .ok (seed, draws') →
    SeedRanges seed assertIntr (InstGenerator.start, draws')
  | .merge => m.mergeSeed draws ≠ .error .valueError ∧
    ∀ seed draws', m.mergeSeed draws = .ok (seed, draws') →
      SeedRanges seed assertIntr (InstGenerator.start, draws')

/-- The condition on the random outcomes of `get`. A generated test has none. -/
def GetFits (m : RvMutator) (assertIntr : Bool) (draws : Draws) : Prop :=
  match m.phase with
  | .generation => True
  | .mutation => ∀ seed draws', m.mutationSeed draws = .ok (seed, draws') →
    SeedFits seed assertIntr (InstGenerator.start, draws')
  | .merge => ∀ seed draws', m.mergeSeed draws = .ok (seed, draws') →
    SeedFits seed assertIntr (InstGenerator.start, draws')

end RvMutator

section Get

variable {seed : Parts} {assertIntr : Bool} {s : InstGenerator × Draws} {m : RvMutator}

theorem drawInts_raisesUnless {length : ℕ} {draws : Draws} :
    RaisesUnless .valueError (assertIntr = true → 0 < length) (drawInts length assertIntr draws) := by
  by_cases hlength : assertIntr = true → 0 < length
  · refine .inl ⟨hlength, ?_⟩
    cases assertIntr with
    | false => exact ⟨_, rfl⟩
    | true =>
      obtain ⟨r, hr, -⟩ := @returns_drawInts _ stable_true draws True.intro _ (hlength rfl) true
      exact ⟨r, hr⟩
  · refine .of_eq_error ?_ hlength
    obtain ⟨rfl, hzero⟩ := Classical.not_imp.mp hlength
    obtain rfl : length = 0 := by omega
    rfl

/-- Words with instructions have an instruction if there is a word. -/
theorem sum_length_insts_pos {words : List GenWord} (h : ∀ w ∈ words, WholeWord w.toWord) :
    0 < (words.map fun w ↦ w.insts.length).sum ↔ words ≠ [] := by
  cases words with
  | nil => simp
  | cons w words =>
    have hpos := List.length_pos_iff.mpr (h w List.mem_cons_self).2
    rw [List.map_cons, List.sum_cons]
    exact ⟨fun _ ↦ List.cons_ne_nil _ _, fun _ ↦ by omega⟩

/-- The main part has an instruction exactly when a word of it is kept. -/
theorem ensures_mutateWords_insts {seedWords : List GenWord}
    (h : ∀ w ∈ seedWords, WholeWord w.toWord) :
    Ensures (mutateWords seedWords .mainPart (maxWords .mainPart)) s fun words _ ↦
      0 < (words.map fun w ↦ w.insts.length).sum ↔ Keeps seedWords.length s.2 := by
  constructor
  intro r hr
  have hwhole : ∀ w ∈ r.1, WholeWord w.toWord :=
    (@WordInvariant.ensures_mutateWords _ .mainPart _ wordInvariant_wholeWord _ h _).of_eq_ok r hr
  rw [sum_length_insts_pos hwhole]
  exact (ensures_mutateWords_ne_nil (by decide)).of_eq_ok r hr

theorem seedRanges_iff (h : ∀ part, ∀ w ∈ seed.words part, WholeWord w.toWord) :
    SeedRanges seed assertIntr s ↔ SeedFits seed assertIntr s := by
  have hpart {part : Part} {s : InstGenerator × Draws} :
      MutateRanges part (seed.words part) (maxWords part) s ↔ MutateFits part (seed.words part) s :=
    mutateRanges_iff fun w hw ↦ (h part w hw).1
  unfold SeedRanges SeedFits
  rw [hpart, and_iff_right mutateFits_prefix]
  refine forall₂_congr fun prefixWords s₁ ↦ imp_congr_right fun _ ↦ and_congr hpart ?_
  refine forall₂_congr fun words s₂ ↦ imp_congr_right fun hwords ↦ and_congr hpart ?_
  refine forall₂_congr fun suffixWords s₃ ↦ imp_congr_right fun _ ↦ ?_
  have hinsts := (ensures_mutateWords_insts (h .mainPart)).of_eq_ok _ hwords
  dsimp only at hinsts
  rw [drawInts_raisesUnless.ne_error_iff, hinsts]

/-- What `get` does after the choice of the seed words. -/
def seedDraft (seed : Parts) (assertIntr : Bool) : Generating Draft := do
  let parts ← mutateParts seed
  let prefixWords ← populateWords (parts.words .prefixPart) .prefixPart
  let words ← populateWords (parts.words .mainPart) .mainPart
  let suffixWords ← populateWords (parts.words .suffixPart) .suffixPart
  let ints ← onSnd (drawInts (words.map fun w ↦ w.insts.length).sum assertIntr)
  return { prefixWords, words, suffixWords, ints
           parent := parts.parent
           nameSuffix := parts.nameSuffix }

theorem populateWords_eq {words : List GenWord} {part : Part}
    (h : ∀ w ∈ words, w.populated = true) :
    populateWords words part s = .ok (words.map GenWord.toWord, s) := by
  have hloop : ∀ (words : List GenWord) (maxLabel : ℤ), (∀ w ∈ words, w.populated = true) →
      (words.mapM fun w ↦ do
        let w ← populateWord w maxLabel part
        return w.toWord : Generating (List Word)) s = .ok (words.map GenWord.toWord, s) := by
    intro words maxLabel h
    induction words with
    | nil => rfl
    | cons w words ih =>
      obtain ⟨hw, hwords⟩ := List.forall_mem_cons.mp h
      rw [List.mapM_cons, populateWord_of_populated hw, pure_bind, pure_bind, bind_eq, ih hwords]
      rfl
  exact hloop words words.length h

/-- On legible words this returns if the words fit, and draws from an empty range if not. -/
theorem seedDraft_raisesUnless (h : ∀ part, ∀ w ∈ seed.words part, LegibleLines part w.toWord)
    (hwhole : ∀ part, ∀ w ∈ seed.words part, WholeWord w.toWord) :
    RaisesUnless .valueError (SeedFits seed assertIntr s) (seedDraft seed assertIntr s) := by
  have hpopulated {part : Part} {s : InstGenerator × Draws} {r : List GenWord × InstGenerator × Draws}
      (heq : mutateWords (seed.words part) part (maxWords part) s = .ok r) :
      ∀ w ∈ r.1, w.populated = true :=
    (@WordInvariant.ensures_mutateWords _ part _ wordInvariant_populated _
      (fun w hw ↦ (hwhole part w hw).1) _).of_eq_ok _ heq
  unfold seedDraft mutateParts
  simp only [bind_assoc, pure_bind]
  refine (RaisesUnless.bind (mutateWords_raisesUnless (h .prefixPart) _) fun r hbegins ↦
    RaisesUnless.bind (mutateWords_raisesUnless (h .mainPart) _) fun r₁ hmain ↦
    RaisesUnless.bind (Q := fun _ ↦ assertIntr = true → Keeps (seed.words .mainPart).length r.2.2)
      (mutateWords_raisesUnless (h .suffixPart) _) fun r₂ hsuffix ↦ ?_).congr ?_
  · have hinsts : 0 < ((r₁.1.map GenWord.toWord).map fun w ↦ w.insts.length).sum ↔
        Keeps (seed.words .mainPart).length r.2.2 := by
      rw [List.map_map]
      exact (ensures_mutateWords_insts (hwhole .mainPart)).of_eq_ok _ hmain
    dsimp only
    rw [bind_eq, populateWords_eq (hpopulated hbegins), ok_bind, bind_eq,
      populateWords_eq (hpopulated hmain), ok_bind, bind_eq,
      populateWords_eq (hpopulated hsuffix), ok_bind, ← hinsts]
    exact RaisesUnless.bind_ok (RaisesUnless.bind_ok drawInts_raisesUnless fun _ _ ↦ ⟨_, rfl⟩)
      fun _ _ ↦ ⟨_, rfl⟩
  · simp only [SeedFits, Prod.forall, and_iff_right mutateFits_prefix]

theorem assert_ne_error (condition : Bool) (message : String) :
    assert condition message ≠ .error .valueError := by
  unfold assert
  split <;> exact nofun

/-- The choice of an entry fails for an empty corpus, with another exception. -/
theorem choice_ne_error {α : Type} (l : List α) (draws : Draws) :
    Draws.choice l draws ≠ .error .valueError := by
  unfold Draws.choice
  split <;> exact nofun

theorem mutationSeed_ne_error (m : RvMutator) (draws : Draws) :
    m.mutationSeed draws ≠ .error .valueError :=
  bind_ne_error (choice_ne_error _ _) fun _ ↦ nofun

theorem mergeSeed_ne_error (m : RvMutator) (draws : Draws) :
    m.mergeSeed draws ≠ .error .valueError := by
  unfold mergeSeed
  rw [bind_eq]
  refine bind_ne_error (choice_ne_error _ _) fun r₁ ↦ ?_
  rw [bind_eq]
  refine bind_ne_error (choice_ne_error _ _) fun r₂ ↦ ?_
  rw [bind_eq, Draws.randint, if_neg (by omega)]
  exact pure_ne_error

theorem addData_ne_error (m : Mutator) (draws : Draws) :
    m.addData [] draws ≠ .error .valueError := by
  by_cases hfull : m.dataSeeds.length = m.maxData
  · cases hseeds : m.dataSeeds with
    | nil =>
      rw [hseeds] at hfull
      simp only [Mutator.addData, hseeds, if_pos hfull, error_bind]
      intro heq
      cases heq
    | cons seed seeds =>
      rw [hseeds] at hfull
      simp only [Mutator.addData, hseeds, if_pos hfull, ok_bind, if_true, Mutator.randomWords_eq]
      exact pure_ne_error
  · simp only [Mutator.addData, if_neg hfull, ok_bind, if_true, Mutator.randomWords_eq]
    exact pure_ne_error

/-- Neither the data nor the template of a test are drawn from an empty range. -/
theorem finish_ne_error (m : RvMutator) (it : ℕ) (draft : Draft) (draws : Draws) :
    m.finish it draft draws ≠ .error .valueError := by
  have htake : takeData m.toMutator draft.parent draws ≠ .error .valueError := by
    unfold takeData
    split
    · exact addData_ne_error _ _
    · exact bind_ne_error (bind_ne_error (assert_ne_error _ _) fun _ ↦ pure_ne_error)
        fun _ ↦ pure_ne_error
  refine bind_ne_error htake fun r ↦ ?_
  obtain ⟨template, draws', htemplate⟩ := RvMutator.exists_takeTemplate_eq draft.parent r.2.2
  dsimp only
  rw [htemplate, ok_bind]
  split <;> exact nofun

theorem get_ne_error_iff {it : ℕ} {draws : Draws} :
    m.get it assertIntr draws ≠ .error .valueError ↔
      m.makeDraft assertIntr (InstGenerator.start, draws) ≠ .error .valueError := by
  rw [not_iff_not]
  refine bind_eq_error.trans (or_iff_left ?_)
  rintro ⟨r, -, hfinish⟩
  exact finish_ne_error m it r.1 r.2.2 hfinish

/-- The mutators whose corpus has words with instructions, and which generate a word at least. -/
structure Stocked (m : RvMutator) : Prop where
  whole : ∀ x ∈ m.corpus, AllWords (fun _ ↦ WholeWord) x.partWords
  numWords_pos : 0 < m.numWords

theorem Stocked.generates (hm : Stocked m) (hphase : m.phase = .generation) {draws : Draws} :
    m.makeDraft assertIntr (InstGenerator.start, draws) ≠ .error .valueError := by
  obtain ⟨r, hr, -⟩ := returns_makeDraft (s := (InstGenerator.start, draws)) stable_true True.intro
    (fun _ ↦ rfl) hphase hm.numWords_pos assertIntr
  rw [hr]
  exact nofun

theorem getRanges_iff (hm : Stocked m) {draws : Draws} :
    GetRanges m assertIntr draws ↔ GetFits m assertIntr draws := by
  unfold GetRanges GetFits
  cases hphase : m.phase with
  | generation => exact iff_true_intro (hm.generates hphase)
  | mutation =>
    refine forall₂_congr fun seed draws' ↦ imp_congr_right fun hseed ↦ seedRanges_iff ?_
    exact (ensures_mutationSeed_words hm.whole).of_eq_ok _ hseed
  | merge =>
    dsimp only
    rw [and_iff_right (mergeSeed_ne_error m draws)]
    refine forall₂_congr fun seed draws' ↦ imp_congr_right fun hseed ↦ seedRanges_iff ?_
    exact (ensures_mergeSeed_words hm.whole).of_eq_ok _ hseed

/-- On a corpus with legible words, the only way to a `ValueError` is an empty range. -/
theorem get_ne_error_iff_fits (hm : Stocked m)
    (hlegible : ∀ x ∈ m.corpus, AllWords LegibleLines x.partWords) {it : ℕ} {draws : Draws} :
    m.get it assertIntr draws ≠ .error .valueError ↔ GetFits m assertIntr draws := by
  rw [get_ne_error_iff]
  have hchosen {choose : Stateful Draws Parts} (hchoose : choose draws ≠ .error .valueError)
      (hdraft : m.makeDraft assertIntr (InstGenerator.start, draws) =
        (choose draws >>= fun r ↦ seedDraft r.1 assertIntr (InstGenerator.start, r.2)))
      (hseed : ∀ seed draws', choose draws = .ok (seed, draws') →
        ∀ part, ∀ w ∈ seed.words part, LegibleLines part w.toWord)
      (hwhole : ∀ seed draws', choose draws = .ok (seed, draws') →
        ∀ part, ∀ w ∈ seed.words part, WholeWord w.toWord) :
      m.makeDraft assertIntr (InstGenerator.start, draws) ≠ .error .valueError ↔
        ∀ seed draws', choose draws = .ok (seed, draws') →
          SeedFits seed assertIntr (InstGenerator.start, draws') := by
    rw [hdraft]
    cases hr : choose draws with
    | error e =>
      rw [error_bind]
      rw [hr] at hchoose
      exact ⟨fun _ _ _ h ↦ (nomatch h), fun _ herror ↦
        hchoose (congrArg Except.error (Except.error.inj herror))⟩
    | ok r =>
      obtain ⟨seed, draws'⟩ := r
      have hcases : RaisesUnless .valueError _
          (seedDraft seed assertIntr (InstGenerator.start, draws')) :=
        seedDraft_raisesUnless (hseed seed draws' hr) (hwhole seed draws' hr)
      rw [ok_bind, hcases.ne_error_iff]
      constructor
      · rintro hfits seed₁ draws₁ heq
        obtain ⟨rfl, rfl⟩ := Prod.mk.inj (Except.ok.inj heq)
        exact hfits
      · exact fun hfits ↦ hfits seed draws' rfl
  unfold GetFits
  cases hphase : m.phase with
  | generation => exact iff_true_intro (hm.generates hphase)
  | mutation =>
    refine hchosen (mutationSeed_ne_error m draws) ?_
      (fun seed draws' h ↦ (ensures_mutationSeed_words hlegible).of_eq_ok _ h)
      fun seed draws' h ↦ (ensures_mutationSeed_words hm.whole).of_eq_ok _ h
    unfold makeDraft makeParts
    rw [hphase]
    dsimp only
    rw [bind_assoc, bind_eq, onSnd]
    cases m.mutationSeed draws <;> rfl
  | merge =>
    refine hchosen (mergeSeed_ne_error m draws) ?_
      (fun seed draws' h ↦ (ensures_mergeSeed_words hlegible).of_eq_ok _ h)
      fun seed draws' h ↦ (ensures_mergeSeed_words hm.whole).of_eq_ok _ h
    unfold makeDraft makeParts
    rw [hphase]
    dsimp only
    rw [bind_assoc, bind_eq, onSnd]
    cases m.mergeSeed draws <;> rfl

end Get

theorem numWords_get {m m' : RvMutator} {it : ℕ} {assertIntr : Bool} {draws draws' : Draws}
    {r : SimInput × List ℤ} (h : m.get it assertIntr draws = .ok (r, m', draws')) :
    m'.numWords = m.numWords := by
  obtain ⟨⟨draft, s⟩, -, hfinish⟩ := bind_eq_ok.mp h
  obtain ⟨-, -, -, hnum⟩ := finish_eq_ok hfinish
  exact hnum

theorem numWords_updatePhase {m m' : RvMutator} {it : ℕ} {draws draws' : Draws}
    (h : m.updatePhase it draws = .ok (m', draws')) : m'.numWords = m.numWords := by
  unfold updatePhase at h
  split at h
  · obtain ⟨rfl, -⟩ := Prod.mk.inj (Except.ok.inj h)
    rfl
  · obtain ⟨⟨rand, draws₁⟩, -, h⟩ := bind_eq_ok.mp h
    obtain ⟨rfl, -⟩ := Prod.mk.inj (Except.ok.inj h)
    rfl

/-- No call makes `num_words` smaller. -/
theorem numWords_le_step (s : Session) (call : Call) :
    s.mutator.numWords ≤ maxWords .mainPart →
      s.mutator.numWords ≤ (s.step call).mutator.numWords ∧
        (s.step call).mutator.numWords ≤ maxWords .mainPart := by
  intro hle
  cases call with
  | fuzz call =>
    cases call with
    | updatePhase it draws =>
      rw [Session.step, Session.fuzzStep]
      split
      · exact ⟨le_rfl, hle⟩
      · next h =>
        dsimp only
        rw [numWords_updatePhase h]
        exact ⟨le_rfl, hle⟩
    | get it assertIntr draws =>
      rw [Session.step, Session.fuzzStep]
      split
      · exact ⟨le_rfl, hle⟩
      · next h =>
        dsimp only
        rw [numWords_get h]
        exact ⟨le_rfl, hle⟩
    | addCorpus i =>
      rw [Session.step, Session.fuzzStep]
      split
      · exact ⟨le_rfl, hle⟩
      · exact ⟨le_min (Nat.le_succ _) hle, Nat.min_le_right _ _⟩
  | setPhase phase => exact ⟨le_rfl, hle⟩
  | readSiminput contents draws =>
    rw [Session.step]
    split
    · exact ⟨le_rfl, hle⟩
    · next h =>
      obtain ⟨⟨result, base, draws₁⟩, -, h⟩ := bind_eq_ok.mp h
      obtain ⟨-, hm⟩ := Prod.mk.inj (Except.ok.inj h)
      obtain ⟨rfl, -⟩ := Prod.mk.inj hm
      exact ⟨le_rfl, hle⟩
  | makeNop i nopMask part =>
    rw [Session.step]
    split
    · exact ⟨le_rfl, hle⟩
    · split <;> exact ⟨le_rfl, hle⟩
  | deleteNop i draws =>
    rw [Session.step]
    split
    · exact ⟨le_rfl, hle⟩
    · split <;> exact ⟨le_rfl, hle⟩

theorem numWords_le_run {s : Session} (hle : s.mutator.numWords ≤ maxWords .mainPart)
    (calls : List Call) : s.mutator.numWords ≤ (s.run calls).mutator.numWords := by
  induction calls generalizing s with
  | nil => exact le_rfl
  | cons call calls ih =>
    obtain ⟨hstep, hle'⟩ := numWords_le_step s call hle
    exact hstep.trans (ih hle')

theorem stocked_run (maxDataSeeds corpusSize : ℕ) (noGuide : Bool) (calls : List Call) :
    Stocked ((Session.start maxDataSeeds corpusSize noGuide).run calls).mutator where
  whole := (holdsOf_wholeWord maxDataSeeds corpusSize noGuide calls).corpus
  numWords_pos := by
    have hle := numWords_le_run (s := Session.start maxDataSeeds corpusSize noGuide)
      (by decide : 100 ≤ 200) calls
    have hstart : (Session.start maxDataSeeds corpusSize noGuide).mutator.numWords = 100 := rfl
    omega

namespace TestCaseProcessor

/-- The control-flow words among the words that are drawn have a label behind them. -/
def InitialFits (p : TestCaseProcessor) (draws : Draws) : Prop :=
  ∀ templates s, initialTemplates (p.instGenerator, draws) = .ok (templates, s) →
    Fits (p.instGenerator.num .mainPart) 14 (templates .mainPart) ∧
      Fits (p.instGenerator.num .suffixPart) 2 (templates .suffixPart)

section Initial

variable {part : Part} {s : InstGenerator × Draws}

/-- Templates with the numbers of a counter. -/
structure NumberedFrom (num : ℕ) (words : List GenWord) : Prop where
  template : ∀ w ∈ words, Template w
  label : ∀ (k : ℕ) (w : GenWord), words[k]? = some w → w.label = (num + k : ℕ)

theorem returns_numbered (part : Part) (is : List ℕ) :
    Returns (is.mapM fun _ ↦ getWord part) s fun words s' ↦
      NumberedFrom (s.1.num part) words ∧ words.length = is.length ∧
        s'.1.num = Function.update s.1.num part (s.1.num part + is.length) := by
  induction is generalizing s with
  | nil => exact .pure ⟨⟨nofun, nofun⟩, rfl, by simp⟩
  | cons i is ih =>
    rw [List.mapM_cons]
    apply Returns.bind (returns_getWord stable_true True.intro part)
    intro w s₁ ⟨hw, _⟩
    apply Returns.bind ih
    intro words s₂ ⟨hwords, hlength, hnum⟩
    have hcount : s₁.1.num part = s.1.num part + 1 := by
      rw [hw.num_eq, Function.update_self]
    refine .pure ⟨⟨List.forall_mem_cons.mpr ⟨hw.template, hwords.template⟩, fun k v hv ↦ ?_⟩, ?_, ?_⟩
    · cases k with
      | zero =>
        obtain rfl := Option.some.inj hv
        exact hw.label_eq
      | succ k =>
        rw [hwords.label k v hv, hcount]
        push_cast
        ring
    · rw [List.length_cons, List.length_cons, hlength]
    · rw [hnum, hcount, hw.num_eq, Function.update_idem, List.length_cons]
      congr 1
      omega

/-- A part is populated if its control-flow words fit. -/
theorem populatePart_raisesUnless {num : ℕ} {words : List GenWord}
    (h : NumberedFrom num words) :
    RaisesUnless .valueError (Fits num (lastLabel words) words) (populatePart part words s) := by
  have hloop : ∀ (maxLabel : ℤ), 0 ≤ maxLabel → ∀ (words : List GenWord) (num : ℕ)
      (s : InstGenerator × Draws), NumberedFrom num words →
      RaisesUnless .valueError (Fits num maxLabel words) ((words.mapM fun w ↦ do
        let w ← populateWord w maxLabel part
        return w.toWord : Generating (List Word)) s) := by
    intro maxLabel hmax words
    induction words with
    | nil => exact fun num s _ ↦ .of_eq_ok rfl (fits_nil num)
    | cons w words ih =>
      intro num s h
      obtain ⟨hw, hwords⟩ := List.forall_mem_cons.mp h.template
      have hlabel : w.label = (num : ℤ) := h.label 0 w rfl
      have hrest : NumberedFrom (num + 1) words :=
        ⟨hwords, fun k v hv ↦ by rw [h.label (k + 1) v hv]; push_cast; ring⟩
      rw [List.mapM_cons, fits_cons, bind_assoc, bind_eq]
      by_cases hjump : Jumps w → w.label < maxLabel
      · obtain ⟨⟨w', s₁⟩, hpopulate, -⟩ :=
          returns_populateWord (s := s) stable_true True.intro hw hmax hjump part
        rw [hpopulate, ok_bind, pure_bind, bind_eq]
        rw [hlabel] at hjump
        rw [and_iff_right hjump]
        exact RaisesUnless.bind_ok (ih (num + 1) s₁ hrest) fun _ _ ↦ ⟨_, rfl⟩
      · rw [hlabel] at hjump
        refine .of_eq_error ?_ fun hfits ↦ hjump hfits.1
        rw [Classical.not_imp, not_lt, ← hlabel] at hjump
        rw [populateWord_eq_error hw hjump.1 hjump.2, error_bind]
  exact hloop (lastLabel words) (lastLabel_nonneg words) words num s h

/-- The words of the prefix are populated whatever their numbers are. -/
theorem not_jumps_templates (is : List ℕ) :
    Ensures (is.mapM fun _ ↦ getWord .prefixPart) s fun words _ ↦ ∀ w ∈ words, ¬ Jumps w := by
  refine (Ensures.mapM (I := fun _ ↦ True) (C := fun _ w ↦ ¬ Jumps w) (fun _ _ s' _ ↦
    ensures_getWord_prefixPart.mono fun _ _ h ↦ ⟨h, True.intro⟩) True.intro).mono fun words _ h w hw ↦ ?_
  obtain ⟨i, hi, rfl⟩ := List.getElem_of_mem hw
  exact h.1.get (h.1.length_eq ▸ hi) hi

/-- What the words of the first test are before they are populated. -/
theorem returns_initialTemplates : Returns initialTemplates s fun templates _ ↦
    (∀ part, ∃ num, NumberedFrom num (templates part)) ∧
      (∀ w ∈ templates .prefixPart, ¬ Jumps w) ∧
      NumberedFrom (s.1.num .mainPart) (templates .mainPart) ∧
      NumberedFrom (s.1.num .suffixPart) (templates .suffixPart) ∧
      (templates .mainPart).length = 15 ∧ (templates .suffixPart).length = 3 := by
  apply Returns.bind ((returns_numbered .prefixPart _).and_ensures (not_jumps_templates _))
  intro prefixWords s₁ ⟨⟨hbegins, _, hnum₁⟩, hjumps⟩
  apply Returns.bind (returns_numbered .mainPart _)
  intro mainWords s₂ ⟨hmain, hlength, hnum₂⟩
  apply Returns.bind (returns_numbered .suffixPart _)
  intro suffixWords s₃ ⟨hsuffix, hlength', _⟩
  have hmain' : s₁.1.num .mainPart = s.1.num .mainPart := by
    rw [hnum₁, Function.update_of_ne (by decide)]
  have hsuffix' : s₂.1.num .suffixPart = s.1.num .suffixPart := by
    rw [hnum₂, Function.update_of_ne (by decide), hnum₁, Function.update_of_ne (by decide)]
  refine .pure ⟨fun part ↦ ?_, hjumps, hmain' ▸ hmain, hsuffix' ▸ hsuffix, hlength, hlength'⟩
  cases part with
  | prefixPart => exact ⟨_, hbegins⟩
  | mainPart => exact ⟨_, hmain⟩
  | suffixPart => exact ⟨_, hsuffix⟩

theorem initialWords_raisesUnless (p : TestCaseProcessor) (draws : Draws) :
    RaisesUnless .valueError (p.InitialFits draws) (initialWords (p.instGenerator, draws)) := by
  obtain ⟨⟨templates, s⟩, htemplates, hall, hjumps, hmain, hsuffix, hlength, hlength'⟩ :=
    returns_initialTemplates (s := (p.instGenerator, draws))
  obtain ⟨num, hbegins⟩ := hall .prefixPart
  have hlast : ∀ {words : List GenWord} {n : ℕ}, words.length = n + 1 → lastLabel words = n := by
    intro words n hlength
    rw [lastLabel, if_neg (List.ne_nil_of_length_eq_add_one hlength), hlength]
    push_cast
    ring
  have hfits : p.InitialFits draws ↔
      Fits (p.instGenerator.num .mainPart) (lastLabel (templates .mainPart)) (templates .mainPart) ∧
      Fits (p.instGenerator.num .suffixPart) (lastLabel (templates .suffixPart))
        (templates .suffixPart) := by
    rw [hlast hlength, hlast hlength']
    constructor
    · intro h
      exact h templates s htemplates
    · intro h templates' s' htemplates'
      rw [htemplates] at htemplates'
      obtain ⟨rfl, -⟩ := Prod.mk.inj (Except.ok.inj htemplates')
      exact h
  obtain ⟨r, hr⟩ := (populatePart_raisesUnless (s := s) hbegins).exists_eq_ok (fits_prefixPart hjumps)
  unfold initialWords
  rw [bind_eq, htemplates, ok_bind, bind_eq, hr, ok_bind, hfits]
  exact RaisesUnless.bind_and (populatePart_raisesUnless hmain) fun r₁ _ ↦
    RaisesUnless.bind_ok (populatePart_raisesUnless hsuffix) fun r₂ _ ↦ ⟨_, rfl⟩

/-- Saving a test raises other exceptions only. -/
theorem save_ne_error (x : SimInput) (data : List ℤ) : x.save data ≠ .error .valueError := by
  have hinsts (part : Part) (words : List Word) (num : ℕ) :
      SimInput.partInsts part words num ≠ .error .valueError := by
    refine bind_ne_error (foldlM_ne_error (fun insts w ↦ ?_) _ _) fun _ ↦ pure_ne_error
    exact bind_ne_error (bind_ne_error (assert_ne_error _ _) fun _ ↦ pure_ne_error)
      fun _ ↦ pure_ne_error
  have htemplate : Text.item templates x.template ≠ .error .valueError := by
    have hnonneg : ¬ (x.template : ℤ) < 0 := by omega
    rw [Text.item, if_neg hnonneg, if_neg hnonneg]
    split <;> exact nofun
  exact bind_ne_error (hinsts _ _ _) fun _ ↦ bind_ne_error (hinsts _ _ _) fun _ ↦
    bind_ne_error (hinsts _ _ _) fun _ ↦ bind_ne_error htemplate fun _ ↦ pure_ne_error

theorem saveInitial_ne_error (p : TestCaseProcessor) (testName : Text) (templateVersion : ℕ)
    (words : Part → List Word) (draws : Draws) :
    p.saveInitial testName templateVersion words draws ≠ .error .valueError := by
  refine bind_ne_error (addData_ne_error _ _) fun r ↦ ?_
  dsimp only
  split
  · exact nofun
  · exact bind_ne_error (save_ne_error _ _) fun _ ↦ pure_ne_error

theorem generateInitialTest_ne_error_iff (p : TestCaseProcessor) (testName : Text)
    (templateVersion : ℕ) (draws : Draws) :
    p.generateInitialTest testName templateVersion draws ≠ .error .valueError ↔
      p.InitialFits draws := by
  rw [← (p.initialWords_raisesUnless draws).ne_error_iff, not_iff_not]
  refine bind_eq_error.trans (or_iff_left ?_)
  rintro ⟨r, -, hsave⟩
  exact saveInitial_ne_error _ _ _ _ _ hsave

end Initial

end TestCaseProcessor

section Stable

variable {P : Draws → Prop} {labelMap : Dict ℤ ℤ} {maxLabel : ℤ} {part : Part}
  {draws draws' : Draws}

theorem Word.stable_repopInst (hP : Stable P) {w : Word} {inst inst' : Text} (h : P draws)
    (hrun : w.repopInst labelMap maxLabel part draws inst = .ok (inst', draws')) : P draws' := by
  unfold Word.repopInst at hrun
  split at hrun
  · obtain ⟨old, -, hrun⟩ := bind_eq_ok.mp hrun
    obtain ⟨⟨random, draws₁⟩, hrandom, hrun⟩ := bind_eq_ok.mp hrun
    obtain ⟨-, rfl⟩ := Prod.mk.inj (Except.ok.inj hrun)
    unfold Draws.randint at hrandom
    split at hrandom
    · cases hrandom
    · obtain ⟨-, rfl⟩ := Prod.mk.inj (Except.ok.inj hrandom)
      exact hP draws h
  · obtain ⟨-, rfl⟩ := Prod.mk.inj (Except.ok.inj hrun)
    exact h

theorem Word.stable_repopInsts (hP : Stable P) {w : Word} {insts done : List Text}
    {state : List Text × Draws} (h : P draws) (hrun : insts.foldlM (fun state inst ↦ do
      let (inst, draws) ← w.repopInst labelMap maxLabel part state.2 inst
      return (state.1 ++ [inst], draws)) (done, draws) = .ok state) : P state.2 := by
  induction insts generalizing done draws with
  | nil =>
    obtain rfl := Except.ok.inj hrun
    exact h
  | cons inst insts ih =>
    rw [List.foldlM_cons] at hrun
    obtain ⟨next, hnext, hrest⟩ := bind_eq_ok.mp hrun
    obtain ⟨⟨inst', draws₁⟩, hinst, hnext⟩ := bind_eq_ok.mp hnext
    obtain rfl := Except.ok.inj hnext
    exact ih (stable_repopInst hP h hinst) hrest

theorem Word.stable_repopLabel (hP : Stable P) {w w' : Word} (h : P draws)
    (hrun : w.repopLabel labelMap maxLabel part draws = .ok (w', draws')) : P draws' := by
  unfold Word.repopLabel at hrun
  split at hrun
  · obtain ⟨state, hloop, hrun⟩ := bind_eq_ok.mp hrun
    obtain ⟨-, rfl⟩ := Prod.mk.inj (Except.ok.inj hrun)
    exact stable_repopInsts hP h hloop
  · obtain ⟨-, rfl⟩ := Prod.mk.inj (Except.ok.inj hrun)
    exact h

/-- `reset_labels` only draws. -/
theorem ensures_resetLabels_stable (hP : Stable P) (h : P draws) (words : List GenWord) :
    Ensures (resetLabels words part) draws fun _ draws' ↦ P draws' := by
  apply Ensures.bind (Ensures.lift (Q := fun _ draws' ↦ P draws') fun _ _ ↦ h)
  intro ⟨words', labelMap⟩ draws₁ h₁
  refine (Ensures.mapM (I := P) (C := fun _ _ ↦ True) (fun w _ draws₂ h₂ ↦ ?_) h₁).mono
    fun _ _ h ↦ h.2
  constructor
  intro r hr
  obtain ⟨⟨w', draws₃⟩, hrun, hr⟩ := bind_eq_ok.mp hr
  obtain rfl := Except.ok.inj hr
  exact ⟨True.intro, Word.stable_repopLabel hP h₂ hrun⟩

end Stable

/-- With the outcome 0 for all words nothing is inserted. -/
theorem inserted_keeps (part : Part) (maxLabel : ℤ) (words : List GenWord) (g : InstGenerator) :
    inserted part maxLabel words (g, fun _ ↦ 0) = [] := by
  induction words with
  | nil => rfl
  | cons w words ih =>
    have hkeep : Draws.below (0 % 2 ^ 53) 1 2 = true := by decide
    rw [inserted, if_neg (fun h ↦ h.1 hkeep)]
    exact ih

theorem mutateLoop_keeps (part : Part) (maxLabel : ℤ) (words : List GenWord) (g : InstGenerator) :
    mutateLoop part maxLabel words (g, fun _ ↦ 0) = .ok (words, (g, fun _ ↦ 0)) := by
  induction words with
  | nil => rfl
  | cons word words ih =>
    have hrandom : onSnd Draws.random (g, fun _ ↦ 0) = .ok (0, (g, fun _ ↦ 0)) := rfl
    have hkeep : Draws.below 0 1 2 = true := by decide
    rw [mutateLoop, bind_eq, hrandom, ok_bind]
    simp only [hkeep, if_true]
    rw [bind_eq, ih]
    rfl

/-- The outcomes are still 0 when the words of a test have been mutated. -/
theorem ensures_mutateWords_keeps {words : List GenWord} {part : Part} {maxNum : ℕ}
    {g : InstGenerator} (h : ∀ w ∈ words, w.populated = true) :
    Ensures (mutateWords words part maxNum) (g, fun _ ↦ 0) fun _ s ↦ s.2 = fun _ ↦ 0 := by
  have hloop : Ensures (mutateLoop part (lastLabel words) words) (g, fun _ ↦ 0) fun words' s ↦
      words' = words ∧ s.2 = fun _ ↦ 0 := by
    constructor
    intro r hr
    rw [mutateLoop_keeps] at hr
    obtain rfl := Except.ok.inj hr
    exact ⟨rfl, rfl⟩
  apply Ensures.bind hloop
  intro words' s₁ ⟨hsame, hs₁⟩
  rw [hsame]
  have hreset : Ensures (resetLabels (words.take maxNum) part) s₁.2 fun words' draws ↦
      (draws = fun _ ↦ 0) ∧ ∀ w ∈ words', w.populated = true :=
    (ensures_resetLabels_stable (stable_const 0) hs₁ _).and
      (wordInvariant_populated.resetLabels fun w hw ↦ h w (List.mem_of_mem_take hw))
  apply Ensures.bind (.draw hreset)
  intro words' s₂ ⟨hs₂, hpopulated⟩
  constructor
  intro r hr
  rw [wordInvariant_populated.mapM_populated hpopulated] at hr
  obtain rfl := Except.ok.inj hr
  exact hs₂

theorem mutateFits_keeps (part : Part) (words : List GenWord) (g : InstGenerator) :
    MutateFits part words (g, fun _ ↦ 0) := by
  rw [MutateFits, inserted_keeps]
  exact fits_nil _

/-- A mutation that keeps all words has a place for the interrupt. -/
theorem seedFits_keeps {seed : Parts} (h : ∀ part, ∀ w ∈ seed.words part, w.populated = true)
    (hmain : seed.words .mainPart ≠ []) (g : InstGenerator) :
    SeedFits seed true (g, fun _ ↦ 0) := by
  intro prefixWords s₁ hprefix
  obtain ⟨g₁, draws₁⟩ := s₁
  obtain rfl : draws₁ = fun _ ↦ 0 := (ensures_mutateWords_keeps (h .prefixPart)).of_eq_ok _ hprefix
  refine ⟨mutateFits_keeps _ _ _, fun words s₂ hwords ↦ ?_⟩
  obtain ⟨g₂, draws₂⟩ := s₂
  obtain rfl : draws₂ = fun _ ↦ 0 := (ensures_mutateWords_keeps (h .mainPart)).of_eq_ok _ hwords
  have hkeep : Draws.below (0 % 2 ^ 53) 3 4 = true := by decide
  exact ⟨mutateFits_keeps _ _ _, fun _ _ _ _ ↦ ⟨0, List.length_pos_of_ne_nil hmain, hkeep⟩⟩

/-- The session of two tests, as a sequence of all calls. -/
theorem run_twoTests (maxDataSeeds : ℕ) :
    (Session.start maxDataSeeds 10 false).run (twoTests.map .fuzz) =
      (Session.start maxDataSeeds 10 false).fuzz twoTests := by
  rw [Session.run, Session.fuzz, List.foldl_map]
  rfl

/-- A populated word that does nothing. -/
def idleWord : GenWord := Word.toGen {
  label := 0
  insts := ["nop".toList]
  operands := []
  populated := true
  retInsts := ["_l0:     nop                                       ".toList] }

/-- Outcomes with which a word is inserted behind the first seed word, for the first opcode. -/
def insertFirst : Draws := fun i ↦ if i = 0 then 2 ^ 52 else 0

/-- With the outcome 0 the first opcode is drawn, `mret`. -/
theorem exists_jumps_getWord : ∃ w s,
    getWord .mainPart (InstGenerator.start, fun _ ↦ 0) = .ok (w, s) ∧ Jumps w := by
  have hjumps : (match getWord .mainPart (InstGenerator.start, fun _ ↦ 0) with
      | .ok (w, _) => decide (Jumps w)
      | .error _ => false) = true := by
    decide +kernel
  split at hjumps
  · next w s hget => exact ⟨w, s, hget, of_decide_eq_true hjumps⟩
  · exact nomatch hjumps

theorem legibleLines_idleWord : LegibleLines .mainPart idleWord.toWord := by
  refine ⟨rfl, List.cons_ne_nil _ _, fun inst hinst ↦ ?_⟩
  obtain rfl := List.mem_singleton.mp hinst
  exact ⟨_, _, (List.take_append_drop 8 _).symm, by decide, by decide, .inl (by decide)⟩

theorem rest_insertFirst : insertFirst.rest = fun _ ↦ 0 := by
  funext i
  rw [Draws.rest, insertFirst, if_neg (Nat.succ_ne_zero i)]

/-- A jump that is inserted has the label of the second word behind it. -/
theorem fits_idleWords :
    MutateFits .mainPart [idleWord, idleWord] (InstGenerator.start, insertFirst) := by
  obtain ⟨⟨w, s⟩, hget, hgot, hs⟩ := returns_getWord
    (s := (InstGenerator.start, fun _ ↦ 0)) (stable_const 0) rfl .mainPart
  have hlabel : w.label < 1 := by
    rw [hgot.label_eq]
    exact Int.zero_lt_one
  unfold MutateFits
  rw [inserted, if_pos (by decide), rest_insertFirst, hget]
  refine fits_cons.mpr ⟨fun _ ↦ by decide, ?_⟩
  -- The outcomes are still 0 when the second word is reached, so that nothing follows the jump.
  obtain ⟨⟨w', g, draws⟩, hpopulate, -, hdraws⟩ := returns_populateWord (stable_const 0) hs
    hgot.template Int.one_nonneg (fun _ ↦ hlabel) .mainPart
  have hpopulate' : populateWord w (lastLabel [idleWord, idleWord]) .mainPart s =
      .ok (w', (g, draws)) := hpopulate
  obtain rfl : draws = fun _ ↦ 0 := hdraws
  dsimp only
  rw [hpopulate']
  dsimp only
  rw [inserted_keeps]
  exact fits_nil _

/-- A mutation of the only test of the corpus that keeps all words. -/
theorem getFits_keeps {m : RvMutator} (hm : Stocked m) (hphase : m.phase = .mutation)
    {x : SimInput} (hcorpus : m.corpus = [x]) (hne : x.words ≠ []) :
    GetFits m true fun _ ↦ 0 := by
  unfold GetFits
  rw [hphase]
  intro seed draws' hseed
  have hwords := (ensures_mutationSeed_words hm.whole).of_eq_ok _ hseed
  have hchoice : Draws.choice [x] (fun _ ↦ 0) = .ok (x, fun _ ↦ 0) := rfl
  unfold mutationSeed at hseed
  rw [hcorpus, bind_eq, hchoice, ok_bind] at hseed
  obtain ⟨rfl, rfl⟩ := Prod.mk.inj (Except.ok.inj hseed)
  exact seedFits_keeps (fun part w hw ↦ (hwords part w hw).1) (List.map_eq_nil_iff.not.mpr hne) _

/-- A range is empty exactly when a control-flow word is inserted or generated with a number that is
not below the label of the last word, or when an interrupt is to be set and no main word is kept.
For `mutate_words` the seed words are any populated words. For `get` the mutator is reached by any
calls, whatever the files are that it reads; a word of a file may have a label that is no number,
which is another cause of a `ValueError`. Without such a file an empty range is the only cause. -/
theorem ranges_iff_fits (maxDataSeeds corpusSize : ℕ) (noGuide : Bool) (calls : List Call)
    (part : Part) (seedWords : List GenWord) (maxNum : ℕ) (s : InstGenerator × Draws) (it : ℕ)
    (assertIntr : Bool) (draws : Draws) (p : TestCaseProcessor) (testName : Text)
    (templateVersion : ℕ) :
    let m := ((Session.start maxDataSeeds corpusSize noGuide).run calls).mutator
    ((∀ w ∈ seedWords, w.populated = true) →
      (MutateRanges part seedWords maxNum s ↔ MutateFits part seedWords s)) ∧
    ((∀ w ∈ seedWords, LegibleLines part w.toWord) →
      (mutateWords seedWords part maxNum s ≠ .error .valueError ↔ MutateFits part seedWords s)) ∧
    (GetRanges m assertIntr draws ↔ GetFits m assertIntr draws) ∧
    ((∀ call ∈ calls, ∀ contents draws, call ≠ .readSiminput contents draws) →
      (m.get it assertIntr draws ≠ .error .valueError ↔ GetFits m assertIntr draws)) ∧
    (p.generateInitialTest testName templateVersion draws ≠ .error .valueError ↔
      p.InitialFits draws) := by
  intro m
  have hm : Stocked m := stocked_run maxDataSeeds corpusSize noGuide calls
  refine ⟨mutateRanges_iff, fun h ↦ (mutateWords_raisesUnless h maxNum).ne_error_iff,
    getRanges_iff hm, fun hread ↦ ?_, p.generateInitialTest_ne_error_iff _ _ _⟩
  have hlegible := (holdsOf_legibleLines maxDataSeeds corpusSize noGuide hread).corpus
  exact get_ne_error_iff_fits hm hlegible

/-- A jump that is inserted behind the first of two words, and a mutation of a test of the corpus
that keeps its words and sets an interrupt: nothing is drawn from an empty range. -/
theorem ranges_iff_fits_twoTests :
    mutateWords [idleWord, idleWord] .mainPart 20 (InstGenerator.start, insertFirst) ≠
        .error .valueError ∧
      ((Session.start 1 10 false).run (twoTests.map .fuzz)).mutator.get 2 true (fun _ ↦ 0) ≠
        .error .valueError := by
  have hread : ∀ call ∈ twoTests.map Call.fuzz, ∀ contents draws,
      call ≠ .readSiminput contents draws := by
    intro call hcall contents draws
    obtain ⟨fuzzCall, -, rfl⟩ := List.mem_map.mp hcall
    exact Call.noConfusion
  have hm := stocked_run 1 10 false (twoTests.map .fuzz)
  obtain ⟨-, hmutate, -, hget, -⟩ := ranges_iff_fits 1 10 false (twoTests.map .fuzz) .mainPart
    [idleWord, idleWord] 20 (InstGenerator.start, insertFirst) 2 true (fun _ ↦ 0)
    (TestCaseProcessor.init [] Dict.empty) [] 0
  obtain ⟨x₀, x₁, m, heq, hphase, hcorpus, hit₀, hit₁, hne⟩ := fuzz_twoTests Nat.one_pos
  rw [run_twoTests, heq] at hm hget ⊢
  refine ⟨(hmutate ?_).mpr fits_idleWords, (hget hread).mpr (getFits_keeps hm hphase hcorpus hne)⟩
  intro w hw
  rcases List.mem_cons.mp hw with rfl | hw
  · exact legibleLines_idleWord
  · obtain rfl := List.mem_singleton.mp hw
    exact legibleLines_idleWord

/-- A mutation that drops all main words has no place for the interrupt, and a jump that is inserted
behind the only word of a part has no label to jump to. -/
theorem ranges_empty :
    ((Session.start 1 10 false).run (twoTests.map .fuzz)).mutator.get 2 true dropAll =
      .error .valueError ∧
    mutateWords [idleWord] .mainPart 20 (InstGenerator.start, insertFirst) =
      .error .valueError := by
  constructor
  · have hm := stocked_run 1 10 false (twoTests.map .fuzz)
    have hread : ∀ call ∈ twoTests.map Call.fuzz, ∀ contents draws,
        call ≠ .readSiminput contents draws := by
      intro call hcall contents draws
      obtain ⟨fuzzCall, -, rfl⟩ := List.mem_map.mp hcall
      exact Call.noConfusion
    have hlegible := (holdsOf_legibleLines 1 10 false hread).corpus
    obtain ⟨x₀, x₁, m, heq, hphase, hcorpus, -⟩ := fuzz_twoTests Nat.one_pos
    rw [run_twoTests, heq] at hm hlegible ⊢
    by_contra hne
    have hfits := (get_ne_error_iff_fits hm hlegible).mp hne
    unfold GetFits at hfits
    rw [hphase] at hfits
    obtain ⟨seed, hseed⟩ : ∃ seed, m.mutationSeed dropAll = .ok (seed, dropAll) := by
      have hchoice : Draws.choice [x₀] dropAll = .ok (x₀, dropAll) := by
        rw [Draws.choice, List.length_singleton, Nat.mod_one]
        rfl
      unfold mutationSeed
      rw [bind_eq, hcorpus, hchoice]
      exact ⟨_, rfl⟩
    have hkeeps := ((hfits seed dropAll hseed _ _ (mutateWords_dropAll _ _ _ _)).2 _ _
      (mutateWords_dropAll _ _ _ _)).2 _ _ (mutateWords_dropAll _ _ _ _) rfl
    obtain ⟨i, -, hkeep⟩ := hkeeps
    have hdrop : Draws.below ((2 ^ 53 - 1) % 2 ^ 53) 3 4 = true := hkeep
    exact absurd hdrop (by decide)
  · obtain ⟨w, s, hget, hjump⟩ := exists_jumps_getWord
    have hnot : ¬ MutateFits .mainPart [idleWord] (InstGenerator.start, insertFirst) := by
      unfold MutateFits
      rw [inserted, if_pos (by decide), rest_insertFirst, hget]
      intro hfits
      exact absurd (hfits 0 w rfl hjump) (by decide)
    change (mutateLoop .mainPart (lastLabel [idleWord]) [idleWord] >>= _) _ = _
    rw [bind_eq, mutateFits_loop.eq_error hnot, error_bind]

end ProcessorFuzz.Mutation
