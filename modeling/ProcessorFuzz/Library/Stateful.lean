import ProcessorFuzz.Library.Python

/-!
# Computations with a state

A Python method that changes the fields of its object and may raise is a state transformer over
exceptions. The two judgements say what it leaves from a given state: `Ensures` whenever it returns,
`Returns` that it does return.
-/

namespace ProcessorFuzz.Library

/-- A computation with state `σ` that may raise. -/
abbrev Stateful (σ : Type) := StateT σ (Except PyError)

namespace Stateful

variable {σ α β ι : Type}

/-- A computation that needs no state. -/
def lift (x : Except PyError α) : Stateful σ α := fun s ↦ do
  let a ← x
  .ok (a, s)

/-- A field of the state. -/
def read (f : σ → α) : Stateful σ α := fun s ↦ .ok (f s, s)

/-- An assignment to the state. -/
def write (f : σ → σ) : Stateful σ Unit := fun s ↦ .ok ((), f s)

/-- A computation that knows only the second part of the state. -/
def onSnd {τ : Type} (x : Stateful τ α) : Stateful (σ × τ) α := fun s ↦ do
  let (a, t) ← x s.2
  .ok (a, (s.1, t))

/-- Whenever the computation returns from `s`, what it returns and leaves satisfies `Q`. -/
structure Ensures (x : Stateful σ α) (s : σ) (Q : α → σ → Prop) : Prop where
  of_eq_ok : ∀ r, x s = .ok r → Q r.1 r.2

/-- The computation returns from `s`, and what it returns and leaves satisfies `Q`. -/
def Returns (x : Stateful σ α) (s : σ) (Q : α → σ → Prop) : Prop :=
  ∃ r, x s = .ok r ∧ Q r.1 r.2

variable {x : Stateful σ α} {f : α → Stateful σ β} {s : σ} {Q Q' : α → σ → Prop}
  {R : β → σ → Prop}

theorem bind_eq (x : Stateful σ α) (f : α → Stateful σ β) (s : σ) :
    (x >>= f) s = (x s >>= fun r ↦ f r.1 r.2) := rfl

theorem Returns.ensures (h : Returns x s Q) : Ensures x s Q := by
  obtain ⟨r, hr, hQ⟩ := h
  constructor
  intro r' hr'
  rw [hr] at hr'
  obtain rfl := Except.ok.inj hr'
  exact hQ

theorem Ensures.mono (h : Ensures x s Q) (hQ : ∀ a s', Q a s' → Q' a s') : Ensures x s Q' :=
  ⟨fun r hr ↦ hQ r.1 r.2 (h.of_eq_ok r hr)⟩

theorem Returns.mono (h : Returns x s Q) (hQ : ∀ a s', Q a s' → Q' a s') : Returns x s Q' := by
  obtain ⟨r, hr, hr'⟩ := h
  exact ⟨r, hr, hQ r.1 r.2 hr'⟩

theorem Ensures.trivial : Ensures x s fun _ _ ↦ True := ⟨fun _ _ ↦ True.intro⟩

theorem Ensures.pure {a : α} (h : Q a s) : Ensures (pure a) s Q := by
  constructor
  intro r hr
  obtain rfl := Except.ok.inj hr
  exact h

theorem Returns.pure {a : α} (h : Q a s) : Returns (pure a) s Q := ⟨(a, s), rfl, h⟩

theorem Ensures.bind (hx : Ensures x s Q) (hf : ∀ a s', Q a s' → Ensures (f a) s' R) :
    Ensures (x >>= f) s R := by
  constructor
  intro r hr
  rw [bind_eq] at hr
  obtain ⟨r₁, hr₁, hr⟩ := bind_eq_ok.mp hr
  exact (hf r₁.1 r₁.2 (hx.of_eq_ok r₁ hr₁)).of_eq_ok r hr

theorem Returns.bind (hx : Returns x s Q) (hf : ∀ a s', Q a s' → Returns (f a) s' R) :
    Returns (x >>= f) s R := by
  obtain ⟨r₁, hr₁, hQ⟩ := hx
  obtain ⟨r, hr, hR⟩ := hf r₁.1 r₁.2 hQ
  refine ⟨r, ?_, hR⟩
  rw [bind_eq, hr₁]
  exact hr

/-- What is ensured may be used after what is returned. -/
theorem Returns.and_ensures (hx : Returns x s Q) (hx' : Ensures x s Q') :
    Returns x s fun a s' ↦ Q a s' ∧ Q' a s' := by
  obtain ⟨r, hr, hQ⟩ := hx
  exact ⟨r, hr, hQ, hx'.of_eq_ok r hr⟩

theorem Ensures.and (h : Ensures x s Q) (h' : Ensures x s Q') :
    Ensures x s fun a s' ↦ Q a s' ∧ Q' a s' :=
  ⟨fun r hr ↦ ⟨h.of_eq_ok r hr, h'.of_eq_ok r hr⟩⟩

theorem Ensures.lift {x : Except PyError α} (h : ∀ a, x = .ok a → Q a s) :
    Ensures (Stateful.lift x) s Q := by
  constructor
  intro r hr
  obtain ⟨a, ha, hr⟩ := bind_eq_ok.mp hr
  obtain rfl := Except.ok.inj hr
  exact h a ha

theorem Returns.lift {x : Except PyError α} {a : α} (hx : x = .ok a) (h : Q a s) :
    Returns (Stateful.lift x) s Q :=
  ⟨(a, s), by rw [Stateful.lift, hx, ok_bind], h⟩

theorem Ensures.read {g : σ → α} (h : Q (g s) s) : Ensures (read g) s Q := by
  constructor
  intro r hr
  obtain rfl := Except.ok.inj hr
  exact h

theorem Returns.read {g : σ → α} (h : Q (g s) s) : Returns (read g) s Q := ⟨(g s, s), rfl, h⟩

theorem Ensures.write {g : σ → σ} {Q : Unit → σ → Prop} (h : Q () (g s)) :
    Ensures (write g) s Q := by
  constructor
  intro r hr
  obtain rfl := Except.ok.inj hr
  exact h

theorem Returns.write {g : σ → σ} {Q : Unit → σ → Prop} (h : Q () (g s)) :
    Returns (write g) s Q := ⟨((), g s), rfl, h⟩

section OnSnd

variable {τ : Type} {y : Stateful τ α} {t : σ × τ} {P : α → σ × τ → Prop} {P₂ : α → τ → Prop}

theorem Ensures.onSnd (h : Ensures y t.2 fun a u ↦ P a (t.1, u)) : Ensures (onSnd y) t P := by
  constructor
  intro r hr
  obtain ⟨r', hr', hr⟩ := bind_eq_ok.mp hr
  obtain rfl := Except.ok.inj hr
  exact h.of_eq_ok r' hr'

theorem Returns.onSnd (h : Returns y t.2 fun a u ↦ P a (t.1, u)) : Returns (onSnd y) t P := by
  obtain ⟨r, hr, hP⟩ := h
  refine ⟨(r.1, (t.1, r.2)), ?_, hP⟩
  rw [Stateful.onSnd, hr, ok_bind]

theorem Ensures.draw (h : Ensures y t.2 P₂) : Ensures (Stateful.onSnd y) t fun a t' ↦ P₂ a t'.2 :=
  .onSnd h

theorem Returns.draw (h : Returns y t.2 P₂) : Returns (Stateful.onSnd y) t fun a t' ↦ P₂ a t'.2 :=
  .onSnd h

end OnSnd

section Draws

/-- A property of the outcomes in store that each call into `random` keeps. -/
def Stable (P : Draws → Prop) : Prop := ∀ draws, P draws → P draws.rest

theorem stable_true : Stable fun _ ↦ True := fun _ _ ↦ True.intro

variable {P : Draws → Prop} {draws : Draws}

theorem Returns.random (hP : Stable P) (h : P draws) :
    Returns Draws.random draws fun rand draws' ↦ rand < 2 ^ 53 ∧ P draws' :=
  ⟨_, rfl, Nat.mod_lt _ (by decide), hP draws h⟩

theorem Returns.choice {l : List α} (hl : l ≠ []) (hP : Stable P) (h : P draws) :
    Returns (Draws.choice l) draws fun a draws' ↦ a ∈ l ∧ P draws' := by
  obtain ⟨a, ha, hchoice⟩ := Draws.exists_choice_eq_ok hl draws
  exact ⟨(a, draws.rest), hchoice, ha, hP draws h⟩

theorem Returns.randint {a b : ℤ} (hab : a ≤ b) (hP : Stable P) (h : P draws) :
    Returns (Draws.randint a b) draws fun n draws' ↦ (a ≤ n ∧ n ≤ b) ∧ P draws' := by
  refine ⟨_, if_neg (by omega), ?_, hP draws h⟩
  have hmod : draws 0 % (b - a + 1).toNat < (b - a + 1).toNat := Nat.mod_lt _ (by omega)
  dsimp only
  omega

/-- A number that was drawn lies in the range. -/
theorem Ensures.randint {a b : ℤ} :
    Ensures (Draws.randint a b) draws fun n _ ↦ a ≤ n ∧ n ≤ b := by
  by_cases hab : a ≤ b
  · exact (@Returns.randint _ draws a b hab stable_true True.intro).ensures.mono fun _ _ h ↦ h.1
  · constructor
    intro r hr
    rw [Draws.randint, if_pos (by omega)] at hr
    exact nomatch hr

end Draws

/-- A loop keeps what its body keeps. -/
theorem Ensures.foldlM {g : β → ι → Stateful σ β} {I : β → σ → Prop} {l : List ι}
    (hstep : ∀ i ∈ l, ∀ b s, I b s → Ensures (g b i) s I) {b : β} (h : I b s) :
    Ensures (l.foldlM g b) s I := by
  induction l generalizing b s with
  | nil => exact .pure h
  | cons i l ih =>
    rw [List.foldlM_cons]
    apply Ensures.bind (hstep i List.mem_cons_self b s h)
    intro b' s' h'
    exact ih (fun j hj ↦ hstep j (List.mem_cons_of_mem i hj)) h'

/-- A comprehension relates its items to the results one by one. -/
theorem Ensures.mapM {g : ι → Stateful σ β} {I : σ → Prop} {C : ι → β → Prop} {l : List ι}
    (hstep : ∀ i ∈ l, ∀ s, I s → Ensures (g i) s fun b s' ↦ C i b ∧ I s') (h : I s) :
    Ensures (l.mapM g) s fun bs s' ↦ List.Forall₂ C l bs ∧ I s' := by
  induction l generalizing s with
  | nil => exact .pure ⟨.nil, h⟩
  | cons i l ih =>
    rw [List.mapM_cons]
    apply Ensures.bind (hstep i List.mem_cons_self s h)
    rintro b s' ⟨hb, hs'⟩
    apply Ensures.bind (ih (fun j hj ↦ hstep j (List.mem_cons_of_mem i hj)) hs')
    rintro bs s'' ⟨hbs, hs''⟩
    exact .pure ⟨.cons hb hbs, hs''⟩

theorem Returns.mapM {g : ι → Stateful σ β} {I : σ → Prop} {C : ι → β → Prop} {l : List ι}
    (hstep : ∀ i ∈ l, ∀ s, I s → Returns (g i) s fun b s' ↦ C i b ∧ I s') (h : I s) :
    Returns (l.mapM g) s fun bs s' ↦ List.Forall₂ C l bs ∧ I s' := by
  induction l generalizing s with
  | nil => exact .pure ⟨.nil, h⟩
  | cons i l ih =>
    rw [List.mapM_cons]
    apply Returns.bind (hstep i List.mem_cons_self s h)
    rintro b s' ⟨hb, hs'⟩
    apply Returns.bind (ih (fun j hj ↦ hstep j (List.mem_cons_of_mem i hj)) hs')
    rintro bs s'' ⟨hbs, hs''⟩
    exact .pure ⟨.cons hb hbs, hs''⟩

end Stateful

end ProcessorFuzz.Library
