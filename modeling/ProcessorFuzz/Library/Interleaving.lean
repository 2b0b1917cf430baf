import Mathlib.Algebra.BigOperators.Group.Finset.Basic
import Mathlib.Algebra.BigOperators.Group.Finset.Piecewise
import Mathlib.Data.Fintype.Basic
import ProcessorFuzz.Library.Python

/-!
# Programs that share a state

A program asks a shared state for one call after another and computes on the answers. Programs of
several workers are interleaved at every call. A call may block, which leaves the worker where it
is, and it may raise.

The second part is the rule for a semaphore that guards a resource: either the resource is free and
every worker is outside, or exactly one worker is inside.
-/

namespace ProcessorFuzz.Library.Interleaving

/-- A program over calls with the given types of answers. -/
inductive Code {Call : Type} (Result : Call → Type) (α : Type)
  | ret (a : α)
  | raise (e : PyError)
  | call (c : Call) (next : Result c → Code Result α)

namespace Code

variable {Call : Type} {Result : Call → Type} {α β : Type}

def bind : Code Result α → (α → Code Result β) → Code Result β
  | ret a, f => f a
  | raise e, _ => raise e
  | call c next, f => call c fun r ↦ (next r).bind f

instance : Monad (Code Result) where
  pure := ret
  bind := bind

/-- The program that only makes one call. -/
def ask (c : Call) : Code Result (Result c) := call c ret

/-- A computation that needs no call. -/
def ofExcept : Except PyError α → Code Result α
  | .ok a => ret a
  | .error e => raise e

@[simp]
theorem pure_eq (a : α) : (pure a : Code Result α) = ret a := rfl

@[simp]
theorem ret_bind (a : α) (f : α → Code Result β) : (ret a >>= f) = f a := rfl

@[simp]
theorem raise_bind (e : PyError) (f : α → Code Result β) :
    ((raise e : Code Result α) >>= f) = raise e := rfl

@[simp]
theorem call_bind (c : Call) (next : Result c → Code Result α) (f : α → Code Result β) :
    (call c next >>= f) = call c fun r ↦ next r >>= f := rfl

@[simp]
theorem ask_bind (c : Call) (f : Result c → Code Result β) :
    ((ask c : Code Result (Result c)) >>= f) = call c f := rfl

@[simp]
theorem ofExcept_ok (a : α) : (ofExcept (.ok a) : Code Result α) = ret a := rfl

@[simp]
theorem ofExcept_error (e : PyError) : (ofExcept (.error e) : Code Result α) = raise e := rfl

/-- All calls that a program can come to make satisfy `P`. -/
def CallsIn (P : Call → Prop) : Code Result α → Prop
  | ret _ => True
  | raise _ => True
  | call c next => P c ∧ ∀ r, (next r).CallsIn P

theorem CallsIn.bind {P : Call → Prop} {x : Code Result α} {f : α → Code Result β}
    (hx : x.CallsIn P) (hf : ∀ a, (f a).CallsIn P) : (x >>= f).CallsIn P := by
  induction x with
  | ret a => exact hf a
  | raise e => trivial
  | call c next ih => exact ⟨hx.1, fun r ↦ ih r (hx.2 r)⟩

theorem callsIn_ofExcept (P : Call → Prop) (x : Except PyError α) :
    (ofExcept x : Code Result α).CallsIn P := by
  cases x with
  | ok a => trivial
  | error e => trivial

section Perform

variable {σ : Type} (perform : (c : Call) → σ → Option (Except PyError (Result c × σ)))

/-- The next call of a program. A program that has ended or whose call blocks does not advance. -/
def advance : Code Result α → σ → Option (Code Result α × σ)
  | ret _, _ => none
  | raise _, _ => none
  | call c next, s =>
    match perform c s with
    | none => none
    | some (.error e) => some (raise e, s)
    | some (.ok (r, s')) => some (next r, s')

/-- A program run while no other one does: `none` when it blocks. -/
def alone : Code Result α → σ → Option (Except PyError (α × σ))
  | ret a, s => some (.ok (a, s))
  | raise e, _ => some (.error e)
  | call c next, s =>
    match perform c s with
    | none => none
    | some (.error e) => some (.error e)
    | some (.ok (r, s')) => (next r).alone s'

variable {perform} {s s' : σ}

theorem alone_call_of_ok {c : Call} {next : Result c → Code Result α} {r : Result c}
    (h : perform c s = some (.ok (r, s'))) :
    (call c next).alone perform s = (next r).alone perform s' := by
  simp only [alone, h]

theorem alone_ask_eq_ok {c : Call} {r : Result c} :
    (ask c).alone perform s = some (.ok (r, s')) ↔ perform c s = some (.ok (r, s')) := by
  cases hanswer : perform c s with
  | none => simp [ask, alone, hanswer]
  | some outcome => cases outcome <;> simp [ask, alone, hanswer]

theorem alone_ofExcept_eq_ok {x : Except PyError α} {a : α} :
    (ofExcept x : Code Result α).alone perform s = some (.ok (a, s')) ↔ x = .ok a ∧ s = s' := by
  cases x with
  | ok b => simp [alone]
  | error e => simp [alone]

/-- A sequence returns when its first part does and the rest returns from there. -/
theorem alone_bind_eq_ok {x : Code Result α} {f : α → Code Result β} {b : β} :
    (x >>= f).alone perform s = some (.ok (b, s')) ↔
      ∃ a s₁, x.alone perform s = some (.ok (a, s₁)) ∧
        (f a).alone perform s₁ = some (.ok (b, s')) := by
  induction x generalizing s with
  | ret a => simp [alone]
  | raise e => simp [alone]
  | call c next ih =>
    rw [call_bind]
    cases hanswer : perform c s with
    | none => simp [alone, hanswer]
    | some outcome =>
      cases outcome with
      | error e => simp [alone, hanswer]
      | ok answer =>
        rw [alone_call_of_ok hanswer, alone_call_of_ok hanswer]
        exact ih answer.1

/-- A loop keeps what every one of its iterations keeps. -/
theorem alone_forM_invariant {δ : Type} {P : σ → Prop} {f : δ → Code Result Unit} {l : List δ}
    (hstep : ∀ i ∈ l, ∀ s s', P s → (f i).alone perform s = some (.ok ((), s')) → P s')
    (hs : P s) (hrun : (forM l f).alone perform s = some (.ok ((), s'))) : P s' := by
  induction l generalizing s with
  | nil =>
    simp only [List.forM_nil, pure_eq, alone, Option.some.injEq, Except.ok.injEq, Prod.mk.injEq,
      true_and] at hrun
    exact hrun ▸ hs
  | cons i l ih =>
    rw [List.forM_cons] at hrun
    obtain ⟨_, s₁, hi, hrest⟩ := alone_bind_eq_ok.mp hrun
    have hs₁ : P s₁ := hstep i List.mem_cons_self s s₁ hs hi
    exact ih (fun j hj ↦ hstep j (List.mem_cons_of_mem i hj)) hs₁ hrest

/-- A loop whose iterations return, with what it has achieved after each part of the list. -/
theorem alone_foldlM {δ : Type} {R : List δ → β → σ → Prop} {f : β → δ → Code Result β}
    {l : List δ}
    (hstep : ∀ before i after acc s, l = before ++ i :: after → R before acc s →
      ∃ acc' s', (f acc i).alone perform s = some (.ok (acc', s')) ∧ R (before ++ [i]) acc' s')
    {acc : β} (hs : R [] acc s) :
    ∃ acc' s', (l.foldlM f acc).alone perform s = some (.ok (acc', s')) ∧ R l acc' s' := by
  have hrest : ∀ (rest before : List δ) (acc : β) (s : σ), l = before ++ rest → R before acc s →
      ∃ acc' s', (rest.foldlM f acc).alone perform s = some (.ok (acc', s')) ∧ R l acc' s' := by
    intro rest
    induction rest with
    | nil =>
      intro before acc s hl hR
      rw [List.append_nil] at hl
      exact ⟨acc, s, rfl, hl ▸ hR⟩
    | cons i rest ih =>
      intro before acc s hl hR
      obtain ⟨acc₁, s₁, hi, hR₁⟩ := hstep before i rest acc s hl hR
      obtain ⟨acc₂, s₂, hafter, hR₂⟩ := ih (before ++ [i]) acc₁ s₁ (by simp [hl]) hR₁
      rw [List.foldlM_cons]
      exact ⟨acc₂, s₂, alone_bind_eq_ok.mpr ⟨acc₁, s₁, hi, hafter⟩, hR₂⟩
  exact hrest l [] acc s rfl hs

theorem alone_forM {δ : Type} {R : List δ → σ → Prop} {f : δ → Code Result Unit} {l : List δ}
    (hstep : ∀ before i after s, l = before ++ i :: after → R before s →
      ∃ s', (f i).alone perform s = some (.ok ((), s')) ∧ R (before ++ [i]) s')
    (hs : R [] s) : ∃ s', (forM l f).alone perform s = some (.ok ((), s')) ∧ R l s' := by
  have hrest : ∀ (rest before : List δ) (s : σ), l = before ++ rest → R before s →
      ∃ s', (forM rest f).alone perform s = some (.ok ((), s')) ∧ R l s' := by
    intro rest
    induction rest with
    | nil =>
      intro before s hl hR
      rw [List.append_nil] at hl
      exact ⟨s, rfl, hl ▸ hR⟩
    | cons i rest ih =>
      intro before s hl hR
      obtain ⟨s₁, hi, hR₁⟩ := hstep before i rest s hl hR
      obtain ⟨s₂, hafter, hR₂⟩ := ih (before ++ [i]) s₁ (by simp [hl]) hR₁
      rw [List.forM_cons]
      exact ⟨s₂, alone_bind_eq_ok.mpr ⟨(), s₁, hi, hafter⟩, hR₂⟩
  exact hrest l [] s rfl hs

/-- A program that advances makes one of its calls, and goes on or raises. -/
theorem CallsIn.advance {P : Call → Prop} {x : Code Result α} {r : Code Result α × σ}
    (hx : x.CallsIn P) (h : x.advance perform s = some r) :
    r.1.CallsIn P ∧ (r.2 = s ∨ ∃ c a, P c ∧ perform c s = some (.ok (a, r.2))) := by
  cases x with
  | ret a => exact nomatch h
  | raise e => exact nomatch h
  | call c next =>
    simp only [Code.advance] at h
    cases hanswer : perform c s with
    | none => simp [hanswer] at h
    | some outcome =>
      cases outcome with
      | error e =>
        simp only [hanswer, Option.some.injEq] at h
        subst h
        exact ⟨trivial, Or.inl rfl⟩
      | ok answer =>
        simp only [hanswer, Option.some.injEq] at h
        subst h
        exact ⟨hx.2 answer.1, Or.inr ⟨c, answer.1, hx.1, hanswer⟩⟩

end Perform

end Code

section Guarded

variable {ι σ : Type*}

/-- The resource is free and nobody is inside, or exactly one worker is inside. -/
def Guarded (free : σ → Prop) (outside inside : ι → σ → Prop) (s : σ) : Prop :=
  (free s ∧ ∀ w, outside w s) ∨ ∃ w, inside w s ∧ ∀ v, v ≠ w → outside v s

variable {free : σ → Prop} {outside inside : ι → σ → Prop} {s s' : σ}

/-- The step of one worker keeps a resource guarded when it enters only a free resource, leaves it
free and otherwise does not interfere with the others. -/
theorem Guarded.step {w : ι} (h : Guarded free outside inside s)
    (hothers : ∀ v, v ≠ w → outside v s → outside v s')
    (henter : free s → outside w s → (free s' ∧ outside w s') ∨ inside w s')
    (hinside : inside w s → inside w s' ∨ (free s' ∧ outside w s'))
    (hbystander : ∀ v, v ≠ w → inside v s → outside w s → inside v s' ∧ outside w s') :
    Guarded free outside inside s' := by
  rcases h with ⟨hfree, houtside⟩ | ⟨v, hv, houtside⟩
  · have hrest : ∀ v, v ≠ w → outside v s' := fun v hvw ↦ hothers v hvw (houtside v)
    rcases henter hfree (houtside w) with ⟨hfree', hw⟩ | hw
    · refine Or.inl ⟨hfree', fun v ↦ ?_⟩
      by_cases hvw : v = w
      · exact hvw ▸ hw
      · exact hrest v hvw
    · exact Or.inr ⟨w, hw, hrest⟩
  · by_cases hvw : v = w
    · subst hvw
      have hrest : ∀ u, u ≠ v → outside u s' := fun u hu ↦ hothers u hu (houtside u hu)
      rcases hinside hv with hv' | ⟨hfree', hv'⟩
      · exact Or.inr ⟨v, hv', hrest⟩
      · refine Or.inl ⟨hfree', fun u ↦ ?_⟩
        by_cases huv : u = v
        · exact huv ▸ hv'
        · exact hrest u huv
    · obtain ⟨hv', hw'⟩ := hbystander v hvw hv (houtside w (Ne.symm hvw))
      refine Or.inr ⟨v, hv', fun u hu ↦ ?_⟩
      by_cases huw : u = w
      · exact huw ▸ hw'
      · exact hothers u huw (houtside u hu)

/-- Two workers that are not outside are the same. -/
theorem Guarded.eq_of_not_outside (h : Guarded free outside inside s) {v w : ι}
    (hv : ¬ outside v s) (hw : ¬ outside w s) : v = w := by
  rcases h with ⟨_, houtside⟩ | ⟨u, _, houtside⟩
  · exact absurd (houtside v) hv
  · have hvu : v = u := by
      by_contra hne
      exact hv (houtside v hne)
    have hwu : w = u := by
      by_contra hne
      exact hw (houtside w hne)
    rw [hvu, hwu]

end Guarded

section History

variable {ι ε : Type*} [DecidableEq ι]

/-- What one worker contributed to a common history. -/
def share (w : ι) (log : List (ι × ε)) : List ε :=
  log.filterMap fun entry ↦ if entry.1 = w then some entry.2 else none

@[simp]
theorem share_nil (w : ι) : share w ([] : List (ι × ε)) = [] := rfl

@[simp]
theorem share_append (w : ι) (l m : List (ι × ε)) : share w (l ++ m) = share w l ++ share w m :=
  List.filterMap_append

@[simp]
theorem share_self (w : ι) (e : ε) : share w [(w, e)] = [e] := by simp [share]

theorem share_of_ne {v w : ι} (h : v ≠ w) (e : ε) : share w [(v, e)] = [] := by simp [share, h]

/-- The entries of a history are the entries of its workers together. -/
theorem sum_countP_share [Fintype ι] (p : ε → Bool) (log : List (ι × ε)) :
    ∑ w, (share w log).countP p = log.countP fun entry ↦ p entry.2 := by
  induction log with
  | nil => simp
  | cons entry log ih =>
    have hsplit : ∀ w, (share w (entry :: log)).countP p =
        (if entry.1 = w then if p entry.2 then 1 else 0 else 0) + (share w log).countP p := by
      intro w
      have happend : share w (entry :: log) = share w [entry] ++ share w log :=
        share_append w [entry] log
      rw [happend, List.countP_append]
      by_cases hw : entry.1 = w
      · subst hw
        rw [share_self entry.1 entry.2, if_pos rfl, List.countP_singleton]
      · rw [share_of_ne hw entry.2, if_neg hw, List.countP_nil]
    calc
      ∑ w, (share w (entry :: log)).countP p
          = (∑ w, if entry.1 = w then if p entry.2 then 1 else 0 else 0) +
              ∑ w, (share w log).countP p := by
        rw [← Finset.sum_add_distrib]
        exact Finset.sum_congr rfl fun w _ ↦ hsplit w
      _ = (if p entry.2 then 1 else 0) + log.countP fun entry ↦ p entry.2 := by
        rw [Finset.sum_ite_eq, if_pos (Finset.mem_univ _), ih]
      _ = (entry :: log).countP fun entry ↦ p entry.2 := by
        rw [List.countP_cons, Nat.add_comm]

end History

end ProcessorFuzz.Library.Interleaving
