import ProcessorFuzz.Mutation.InstGenerator

/-!
# What the generator draws

Every method of the generator that draws an operand returns from every state, whatever it has used
before: registers are `x` or `f` and a number, immediates a sign and the masked bits of a number, and
symbols name a data word or a label of the part. So a template whose operands are named in the usual
way is always filled in, unless there is no label behind its own that it could jump to.
-/

namespace ProcessorFuzz.Mutation.Generating

open Library Library.Stateful RiscvDefinitions

variable {P : Draws → Prop} {s : InstGenerator × Draws}

theorem returns_reuses (hP : Stable P) (hs : P s.2) (used : List ℕ) :
    Returns (reuses used) s fun reuse s' ↦ (reuse = true → used ≠ []) ∧ P s'.2 := by
  unfold reuses
  split
  · exact .pure ⟨nofun, hs⟩
  · next hused =>
    apply Returns.bind (.draw (.random hP hs))
    intro rand s' hs'
    exact .pure ⟨fun _ ↦ hused, hs'.2⟩

theorem returns_newXNum (hP : Stable P) (hs : P s.2) {nums : List ℕ} (hnums : nums ≠ []) :
    Returns (newXNum nums) s fun _ s' ↦ P s'.2 := by
  apply Returns.bind (.draw (.choice hnums hP hs))
  intro xNum s' hs'
  apply Returns.bind (.write (Q := fun _ s'' ↦ P s''.2) hs'.2)
  intro _ s'' hs''
  exact .pure hs''

theorem returns_drawXNum (hP : Stable P) (hs : P s.2) {region : ℕ × ℕ}
    (hregion : (nums.take region.2).drop region.1 ≠ []) :
    Returns (drawXNum region) s fun _ s' ↦ P s'.2 := by
  apply Returns.bind (.read (Q := fun _ s' ↦ P s'.2) hs)
  intro used s₁ hs₁
  apply Returns.bind (returns_reuses hP hs₁ _)
  intro reuse s₂ ⟨hreuse, hs₂⟩
  split
  · next htrue =>
    have hused : used ≠ [] := by
      intro hnil
      apply hreuse htrue
      rw [hnil, ite_self]
    exact (Returns.draw (.choice hused hP hs₂)).mono fun _ _ h ↦ h.2
  · exact returns_newXNum hP hs₂ hregion

/-- A register is `x` and a number, which is not `0` where this is asked for. -/
def IsXreg (noZero : Bool) (val : Text) : Prop :=
  ∃ n, val = 'x' :: Text.dec n ∧ (noZero = true → n ≠ 0)

theorem returns_getXregs (hP : Stable P) (hs : P s.2) {region : ℕ × ℕ}
    (hregion : (nums.take region.2).drop region.1 ≠ []) (noZero : Bool) :
    Returns (getXregs region noZero) s fun val s' ↦ IsXreg noZero val ∧ P s'.2 := by
  apply Returns.bind (returns_drawXNum hP hs hregion)
  intro xNum s₁ hs₁
  have hzero : Returns (bif noZero then replaceZero xNum else pure xNum) s₁.2
      fun n draws ↦ (noZero = true → n ≠ 0) ∧ P draws := by
    cases noZero with
    | false => exact .pure ⟨nofun, hs₁⟩
    | true =>
      rw [cond_true, replaceZero]
      split
      · have hpos : ∀ n ∈ nums.drop 1, n ≠ 0 := by decide
        exact (Returns.choice (by decide) hP hs₁).mono fun n _ hn ↦ ⟨fun _ ↦ hpos n hn.1, hn.2⟩
      · next hne => exact .pure ⟨fun _ ↦ hne, hs₁⟩
  apply Returns.bind (.draw hzero)
  intro n s₂ ⟨hn, hs₂⟩
  exact .pure ⟨⟨n, rfl, hn⟩, hs₂⟩

theorem returns_getFregs (hP : Stable P) (hs : P s.2) :
    Returns getFregs s fun val s' ↦ (∃ n, val = 'f' :: Text.dec n) ∧ P s'.2 := by
  have hnew : ∀ s₁ : InstGenerator × Draws, P s₁.2 → Returns newFNum s₁ fun _ s' ↦ P s'.2 := by
    intro s₁ hs₁
    apply Returns.bind (.draw (.choice (by decide) hP hs₁))
    intro fNum s' hs'
    apply Returns.bind (.write (Q := fun _ s'' ↦ P s''.2) hs'.2)
    intro _ s'' hs''
    exact .pure hs''
  have hdraw : Returns drawFNum s fun _ s' ↦ P s'.2 := by
    apply Returns.bind (.read (Q := fun _ s' ↦ P s'.2) hs)
    intro used s₁ hs₁
    apply Returns.bind (returns_reuses hP hs₁ used)
    intro reuse s₂ ⟨hused, hs₂⟩
    split
    · next hreuse => exact (Returns.draw (.choice (hused hreuse) hP hs₂)).mono fun _ _ h ↦ h.2
    · exact hnew s₂ hs₂
  apply Returns.bind hdraw
  intro n s₃ hs₃
  exact .pure ⟨⟨n, rfl⟩, hs₃⟩

/-- The names of immediates: the number of bits behind `uimm`, or with a sign behind `imm`. -/
inductive IsImm (iName : Text) : (bits : ℕ) → (signed : Bool) → Prop
  | unsigned {bits : ℕ} (h : "uimm".toList <:+: iName)
    (hwidth : Text.int 10 (iName.drop 4) = .ok (bits : ℤ)) : IsImm iName bits false
  | signed {bits : ℕ} (h : ¬ "uimm".toList <:+: iName)
    (hwidth : Text.int 10 (iName.drop 3) = .ok ((bits + 1 : ℕ) : ℤ)) : IsImm iName bits true

/-- The signs of an immediate. -/
def IsSign (signed : Bool) (sign : Text) : Prop := sign = [] ∨ (signed = true ∧ sign = ['-'])

variable {iName : Text} {bits align : ℕ} {signed : Bool}

theorem returns_immShape (hP : Stable P) {draws : Draws} (hdraws : P draws)
    (h : IsImm iName bits signed) : Returns (immShape iName) draws
      fun shape draws' ↦ (IsSign signed shape.1 ∧ shape.2 = bits) ∧ P draws' := by
  cases h with
  | unsigned h hwidth =>
    rw [immShape, if_pos h]
    apply Returns.bind (.lift hwidth (Q := fun (width : ℤ) draws' ↦ width = bits ∧ P draws')
      ⟨rfl, hdraws⟩)
    intro width draws₁ ⟨hwidth, hdraws₁⟩
    exact .pure ⟨⟨.inl rfl, hwidth⟩, hdraws₁⟩
  | signed h hwidth =>
    rw [immShape, if_neg h]
    apply Returns.bind (.choice (by simp) hP hdraws)
    intro sign draws₁ ⟨hsign, hdraws₁⟩
    have hsign : IsSign true sign := by simpa [IsSign] using hsign
    apply Returns.bind (.lift hwidth (Q := fun (width : ℤ) draws' ↦ width = bits + 1 ∧ P draws')
      ⟨rfl, hdraws₁⟩)
    intro width draws₂ ⟨hwidth, hdraws₂⟩
    exact .pure ⟨⟨hsign, by omega⟩, hdraws₂⟩

theorem returns_immNum (hP : Stable P) (hs : P s.2) (mask : ℕ) :
    Returns (immNum mask) s fun _ s' ↦ P s'.2 := by
  apply Returns.bind (.read (Q := fun _ s' ↦ P s'.2) hs)
  intro used s₁ hs₁
  apply Returns.bind (.draw (.random hP hs₁))
  intro rand s₂ ⟨_, hs₂⟩
  split
  · next hused => exact (Returns.draw (.choice hused.1 hP hs₂)).mono fun _ _ h ↦ h.2
  · split
    · exact (Returns.draw (.choice (by simp) hP hs₂)).mono fun _ _ h ↦ h.2
    · apply Returns.bind (.draw (.randint (Int.natCast_nonneg mask) hP hs₂))
      intro imm s₃ ⟨_, hs₃⟩
      apply Returns.bind (.write (Q := fun _ s' ↦ P s'.2) hs₃)
      intro _ s₄ hs₄
      exact .pure hs₄

/-- The immediates of a name: a sign and some of the bits that the mask leaves. -/
def ImmVal (bits align : ℕ) (signed : Bool) (val : Text) : Prop :=
  ∃ sign imm, IsSign signed sign ∧
    val = sign ++ Text.dec (alignMask (2 ^ bits - 1) align &&& imm)

/-- A random number lies below `1`. -/
theorem below_one {rand : ℕ} (h : rand < 2 ^ 53) : Draws.below rand 1 1 = true := by
  simpa [Draws.below] using h

theorem returns_getImm (hP : Stable P) (hs : P s.2) (h : IsImm iName bits signed)
    (halign : align &&& (align - 1) = 0) :
    Returns (getImm iName align) s fun val s' ↦ ImmVal bits align signed val ∧ P s'.2 := by
  apply Returns.bind (.lift (assert_eq_ok.mpr (decide_eq_true halign))
    (Q := fun _ s' ↦ P s'.2) hs)
  intro _ s₁ hs₁
  apply Returns.bind (.draw (returns_immShape hP hs₁ h))
  intro ⟨sign, width⟩ s₂ ⟨⟨hsign, hwidth⟩, hs₂⟩
  have hwidth : width = (bits : ℤ) := hwidth
  rw [hwidth]
  dsimp only
  rw [if_neg (by omega), Int.toNat_natCast]
  apply Returns.bind (.draw (.random hP hs₂))
  intro rand s₃ ⟨hrand, hs₃⟩
  rw [below_one hrand, if_pos rfl]
  apply Returns.bind (returns_immNum hP hs₃ _)
  intro imm s₄ hs₄
  exact .pure ⟨⟨sign, imm, hsign, rfl⟩, hs₄⟩

/-- The operand `imm<width>` or `uimm<width>` of an instruction. -/
structure ImmField where
  signed : Bool
  width : ℕ
  width_pos : signed = true → 0 < width

namespace ImmField

/-- The name of the operand in a template. -/
def name (field : ImmField) : Text :=
  (if field.signed then "imm".toList else "uimm".toList) ++ Text.dec field.width

/-- The number lies in the field. -/
def Holds (field : ImmField) (v : ℤ) : Prop :=
  if field.signed then |v| ≤ 2 ^ (field.width - 1) - 1 else 0 ≤ v ∧ v ≤ 2 ^ field.width - 1

/-- The bits that are drawn; one is left for the sign. -/
def drawnBits (field : ImmField) : ℕ := if field.signed then field.width - 1 else field.width

theorem isImm_name (field : ImmField) : IsImm field.name field.drawnBits field.signed := by
  obtain ⟨signed, width, hpos⟩ := field
  cases signed with
  | false => exact .unsigned (List.prefix_append _ _).isInfix (Text.int_dec width)
  | true =>
    have hu : ¬"uimm".toList <:+: "imm".toList ++ Text.dec width := by
      intro hwithin
      rcases List.mem_append.mp (hwithin.subset (by decide : 'u' ∈ "uimm".toList)) with hmem | hmem
      · exact absurd hmem (by decide)
      · exact Text.not_mem_dec (by decide) hmem
    have hwidth : width - 1 + 1 = width := Nat.sub_add_cancel (hpos rfl)
    refine .signed hu ?_
    change Text.int 10 (Text.dec width) = .ok ((width - 1 + 1 : ℕ) : ℤ)
    rw [hwidth, Text.int_dec]

end ImmField

theorem alignMask_two_pow (mask k : ℕ) : alignMask mask (2 ^ k) = mask - mask % 2 ^ k := by
  rw [alignMask, if_neg (Nat.two_pow_pos k).ne', Nat.and_two_pow_sub_one_eq_mod]

theorem alignMask_le (mask align : ℕ) : alignMask mask align ≤ mask := by
  unfold alignMask
  split
  · exact Nat.zero_le mask
  · exact Nat.sub_le _ _

/-- All bits below the alignment are masked out, whichever number is masked. -/
theorem dvd_alignMask_and (mask k imm : ℕ) : 2 ^ k ∣ alignMask mask (2 ^ k) &&& imm := by
  apply Nat.dvd_of_mod_eq_zero
  rw [Nat.and_mod_two_pow, alignMask_two_pow, Nat.sub_mod_eq_zero_of_mod_eq (Nat.mod_mod _ _).symm,
    Nat.zero_and]

/-- An immediate of the field is a multiple of the alignment in the field. -/
theorem ImmField.exists_int_eq {field : ImmField} {k : ℕ} {val : Text}
    (h : ImmVal field.drawnBits (2 ^ k) field.signed val) :
    ∃ v : ℤ, Text.int 10 val = .ok v ∧ field.Holds v ∧ (2 ^ k : ℤ) ∣ v := by
  obtain ⟨sign, imm, hsign, rfl⟩ := h
  have hdvd := Int.natCast_dvd_natCast.mpr (dvd_alignMask_and (2 ^ field.drawnBits - 1) k imm)
  have hle : alignMask (2 ^ field.drawnBits - 1) (2 ^ k) &&& imm ≤ 2 ^ field.drawnBits - 1 :=
    Nat.and_le_left.trans (alignMask_le _ _)
  generalize alignMask (2 ^ field.drawnBits - 1) (2 ^ k) &&& imm = n at hdvd hle
  have hbound : (n : ℤ) ≤ 2 ^ field.drawnBits - 1 := by
    have hpow := Nat.two_pow_pos field.drawnBits
    have hcast : ((2 ^ field.drawnBits - 1 : ℕ) : ℤ) = 2 ^ field.drawnBits - 1 := by
      rw [Nat.cast_sub hpow]
      norm_cast
    exact (Int.ofNat_le.mpr hle).trans_eq hcast
  rw [Nat.cast_pow, Nat.cast_ofNat] at hdvd
  rcases hsign with rfl | ⟨hsigned, rfl⟩
  · refine ⟨n, Text.int_dec n, ?_, hdvd⟩
    cases hsigned : field.signed <;> simpa [Holds, drawnBits, hsigned] using hbound
  · refine ⟨-n, Text.int_neg_dec n, ?_, Int.dvd_neg.mpr hdvd⟩
    simpa [Holds, drawnBits, hsigned] using hbound

/-- The draws of immediates with the names and the alignments of a list. -/
def getImms (history : List (Text × ℕ)) : Generating Unit :=
  history.forM fun imm ↦ do
    let _ ← getImm imm.1 imm.2
    return ()

/-- Whichever immediates have been drawn since the start, the next one is drawn, as no range is
empty, and it is a multiple of its alignment that lies in its field. -/
theorem getImm_holds (field : ImmField) (k : ℕ) (history : List (Text × ℕ)) (draws : Draws) :
    Ensures (getImms history) (InstGenerator.start, draws) fun _ s ↦
      Returns (getImm field.name (2 ^ k)) s fun val _ ↦
        ∃ v : ℤ, Text.int 10 val = .ok v ∧ field.Holds v ∧ (2 ^ k : ℤ) ∣ v := by
  refine Ensures.trivial.mono fun _ s _ ↦ ?_
  have hpower : 2 ^ k &&& (2 ^ k - 1) = 0 := by
    rw [Nat.and_two_pow_sub_one_eq_mod, Nat.mod_self]
  have hreturns := @returns_getImm _ s _ _ _ _ stable_true True.intro field.isImm_name hpower
  exact hreturns.mono fun _ _ h ↦ ImmField.exists_int_eq h.1

/-- The labels of data words. -/
def IsDataSymbol (val : Text) : Prop :=
  ∃ n k : ℕ, n ≤ 5 ∧ k ≤ 27 ∧ val = "d_".toList ++ Text.dec n ++ "_".toList ++ Text.dec k

/-- The labels of a part. -/
def IsPartSymbol (part : Part) (val : Text) : Prop := ∃ num, val = part.text ++ Text.str num

variable {tpe : WordType} {myLabel maxLabel : ℤ} {part : Part} {draws : Draws}

theorem returns_dataSymbol (hP : Stable P) (h : P draws) :
    Returns dataSymbol draws fun val draws' ↦ IsDataSymbol val ∧ P draws' := by
  apply Returns.bind (.randint (by decide) hP h)
  intro n draws₁ ⟨hn, h₁⟩
  apply Returns.bind (.randint (by decide) hP h₁)
  intro k draws₂ ⟨hk, h₂⟩
  lift n to ℕ using hn.1
  lift k to ℕ using hk.1
  exact .pure ⟨⟨n, k, Int.ofNat_le.mp hn.2, Int.ofNat_le.mp hk.2, rfl⟩, h₂⟩

theorem returns_partSymbol (hP : Stable P) (h : P draws) {low high : ℤ} (hle : low ≤ high)
    (part : Part) :
    Returns (partSymbol low high part) draws fun val draws' ↦ IsPartSymbol part val ∧ P draws' := by
  apply Returns.bind (.randint hle hP h)
  intro num draws₁ ⟨_, h₁⟩
  exact .pure ⟨⟨num, rfl⟩, h₁⟩

/-- The types whose words jump to a label of the part. -/
def NeedsLater (tpe : WordType) : Prop := tpe ≠ .memR ∧ tpe ≠ .memW

instance (tpe : WordType) : Decidable (NeedsLater tpe) := inferInstanceAs (Decidable (_ ∧ _))

theorem getSymbol_of_needsLater (h : NeedsLater tpe) :
    getSymbol tpe myLabel maxLabel part = partSymbol (myLabel + 1) maxLabel part := by
  cases tpe with
  | memR => exact absurd rfl h.1
  | memW => exact absurd rfl h.2
  | _ => rfl

/-- A symbol can be drawn if there is a label behind that of a word that jumps. -/
theorem returns_getSymbol (hP : Stable P) (h : P draws) (hmax : 0 ≤ maxLabel)
    (hjump : NeedsLater tpe → myLabel < maxLabel) :
    Returns (getSymbol tpe myLabel maxLabel part) draws fun _ draws' ↦ P draws' := by
  have hdata : Returns dataSymbol draws fun _ draws' ↦ P draws' :=
    (returns_dataSymbol hP h).mono fun _ _ h' ↦ h'.2
  by_cases hlater : NeedsLater tpe
  · have hle : myLabel + 1 ≤ maxLabel := hjump hlater
    rw [getSymbol_of_needsLater hlater]
    exact (returns_partSymbol hP h hle part).mono fun _ _ h' ↦ h'.2
  · cases tpe with
    | memW => exact hdata
    | memR =>
      apply Returns.bind (.random hP h)
      intro rand draws₁ ⟨_, h₁⟩
      split
      · exact (returns_partSymbol hP h₁ hmax part).mono fun _ _ h' ↦ h'.2
      · exact (returns_dataSymbol hP h₁).mono fun _ _ h' ↦ h'.2
    | _ => exact absurd ⟨nofun, nofun⟩ hlater

/-- A word that jumps has no symbol to draw if there is no label behind its own. -/
theorem getSymbol_eq_error (h : NeedsLater tpe) (hle : maxLabel ≤ myLabel) :
    getSymbol tpe myLabel maxLabel part draws = .error .valueError := by
  rw [getSymbol_of_needsLater h, partSymbol, bind_eq, Draws.randint, if_pos (by omega)]
  rfl

/-- Whatever symbol is drawn, memory words get a data label or, when they read, one of the part. -/
theorem ensures_getSymbol : Ensures (getSymbol tpe myLabel maxLabel part) draws
    fun val _ ↦ IsDataSymbol val ∨ (tpe ≠ .memW ∧ IsPartSymbol part val) := by
  have hstable : Stable fun _ : Draws ↦ True := fun _ _ ↦ True.intro
  have hdata : ∀ draws, Ensures dataSymbol draws fun val _ ↦ IsDataSymbol val := fun draws ↦
    (returns_dataSymbol hstable True.intro).ensures.mono fun _ _ h ↦ h.1
  have hpart : ∀ low high draws,
      Ensures (partSymbol low high part) draws fun val _ ↦ IsPartSymbol part val := by
    intro low high draws
    apply Ensures.bind .trivial
    intro num _ _
    exact .pure ⟨num, rfl⟩
  cases tpe with
  | memW => exact (hdata draws).mono fun _ _ h ↦ .inl h
  | memR =>
    apply Ensures.bind .trivial
    intro rand draws₁ _
    split
    · exact (hpart _ _ draws₁).mono fun _ _ h ↦ .inr ⟨nofun, h⟩
    · exact (hdata draws₁).mono fun _ _ h ↦ .inl h
  | _ => exact (hpart _ _ draws).mono fun _ _ h ↦ .inr ⟨nofun, h⟩

section Fill

variable {ι : Type} {operands : List ι} {name : ι → Text} {value : ι → Generating Text}
  {C : ι → Text → Prop} {opvals : Dict Text Text}

/-- The dictionary with these values for the operands. -/
def Filled (operands : List ι) (name : ι → Text) (C : ι → Text → Prop)
    (opvals opvals' : Dict Text Text) : Prop :=
  ∃ vals, List.Forall₂ C operands vals ∧ opvals' = opvals.update ((operands.map name).zip vals)

theorem Filled.mem_keys_iff {opvals' : Dict Text Text} (h : Filled operands name C opvals opvals')
    {key : Text} : key ∈ opvals'.keys ↔ key ∈ operands.map name ∨ key ∈ opvals.keys := by
  obtain ⟨vals, hvals, rfl⟩ := h
  rw [Dict.mem_keys_update, List.map_fst_zip (by rw [List.length_map, hvals.length_eq])]

theorem Filled.mem_keys {opvals' : Dict Text Text} (h : Filled operands name C opvals opvals')
    {key : Text} (hkey : key ∈ operands.map name ∨ key ∈ opvals.keys) : key ∈ opvals'.keys :=
  h.mem_keys_iff.mpr hkey

/-- What holds of the old entries and of the new values holds of all entries. -/
theorem Filled.forall_entries {opvals' : Dict Text Text} {Q : Text × Text → Prop}
    (h : Filled operands name C opvals opvals')
    (hC : ∀ operand ∈ operands, ∀ val, C operand val → Q (name operand, val))
    (hold : ∀ entry ∈ opvals.entries, Q entry) : ∀ entry ∈ opvals'.entries, Q entry := by
  obtain ⟨vals, hvals, rfl⟩ := h
  intro entry hentry
  rcases Dict.mem_entries_update hentry with hentry | hentry
  · obtain ⟨i, hi, rfl⟩ := List.getElem_of_mem hentry
    rw [List.length_zip, List.length_map, hvals.length_eq, Nat.min_self] at hi
    have hi' : i < operands.length := hvals.length_eq ▸ hi
    rw [List.getElem_zip, List.getElem_map]
    exact hC _ (List.getElem_mem hi') _ (hvals.get hi' hi)
  · exact hold entry hentry

theorem returns_fill (hs : P s.2)
    (h : ∀ operand ∈ operands, ∀ s, P s.2 →
      Returns (value operand) s fun val s' ↦ C operand val ∧ P s'.2) :
    Returns (fill operands name value opvals) s
      fun opvals' s' ↦ Filled operands name C opvals opvals' ∧ P s'.2 := by
  induction operands generalizing s opvals with
  | nil => exact .pure ⟨⟨[], .nil, rfl⟩, hs⟩
  | cons operand operands ih =>
    have hstep : Returns (do
        let val ← value operand
        return opvals.set (name operand) val) s
        fun opvals' s' ↦ (∃ val, C operand val ∧ opvals' = opvals.set (name operand) val) ∧
          P s'.2 := by
      apply Returns.bind (h operand List.mem_cons_self s hs)
      intro val s₁ ⟨hval, hs₁⟩
      exact .pure ⟨⟨val, hval, rfl⟩, hs₁⟩
    unfold fill
    rw [List.foldlM_cons]
    apply Returns.bind hstep
    intro opvals₁ s₁ ⟨⟨val, hval, heq⟩, hs₁⟩
    have hrest := @ih _ opvals₁ hs₁ fun operand' hmem ↦
      h operand' (List.mem_cons_of_mem operand hmem)
    refine hrest.mono fun opvals₂ s₂ ⟨⟨vals, hvals, heq'⟩, hs₂⟩ ↦ ⟨⟨val :: vals, ?_, ?_⟩, hs₂⟩
    · exact .cons hval hvals
    · rw [heq', heq]
      rfl

theorem ensures_fill (h : ∀ operand ∈ operands, ∀ s, Ensures (value operand) s
      fun val _ ↦ C operand val) :
    Ensures (fill operands name value opvals) s
      fun opvals' _ ↦ Filled operands name C opvals opvals' := by
  induction operands generalizing s opvals with
  | nil => exact .pure ⟨[], .nil, rfl⟩
  | cons operand operands ih =>
    have hstep : Ensures (do
        let val ← value operand
        return opvals.set (name operand) val) s
        fun opvals' _ ↦ ∃ val, C operand val ∧ opvals' = opvals.set (name operand) val := by
      apply Ensures.bind (h operand List.mem_cons_self s)
      intro val s₁ hval
      exact .pure ⟨val, hval, rfl⟩
    unfold fill
    rw [List.foldlM_cons]
    apply Ensures.bind hstep
    intro opvals₁ s₁ ⟨val, hval, heq⟩
    have hrest := @ih s₁ opvals₁ fun operand' hmem ↦
      h operand' (List.mem_cons_of_mem operand hmem)
    refine hrest.mono fun opvals₂ s₂ ⟨vals, hvals, heq'⟩ ↦ ⟨val :: vals, .cons hval hvals, ?_⟩
    rw [heq', heq]
    rfl

end Fill

end ProcessorFuzz.Mutation.Generating
