import Mathlib.Algebra.Group.Nat.Defs
import Mathlib.Data.Int.Notation
import Mathlib.Data.List.Nodup

/-!
# Exceptions, bytes and random outcomes

A Python computation that may raise is an `Except PyError`. Its random outcomes come from a stream
of numbers, one for each call into `random`; a statement about every outcome quantifies over the
stream.
-/

namespace ProcessorFuzz.Library

inductive PyError
  | assertionError (message : String)
  | attributeError (name : String)
  | fileNotFoundError
  | indexError
  | keyError
  | nameError (name : String)
  | notImplementedError
  | overflowError
  | typeError
  | unboundLocalError (name : String)
  | valueError
  deriving DecidableEq, Repr

/-- The statement `assert condition, message`. -/
def assert (condition : Bool) (message : String) : Except PyError Unit :=
  if condition then .ok () else .error (.assertionError message)

@[simp]
theorem assert_true (message : String) : assert true message = .ok () := rfl

@[simp]
theorem assert_eq_ok {condition : Bool} {message : String} :
    assert condition message = .ok () ↔ condition = true := by
  cases condition <;> simp [assert]

section Except

universe u

variable {ε : Type*} {α β : Type u}

@[simp]
theorem ok_bind (a : α) (f : α → Except ε β) : (Except.ok a >>= f) = f a := rfl

@[simp]
theorem error_bind (e : ε) (f : α → Except ε β) : (Except.error e >>= f) = .error e := rfl

/-- A sequence returns when its first part does and the rest returns from there. -/
theorem bind_eq_ok {x : Except ε α} {f : α → Except ε β} {b : β} :
    (x >>= f) = .ok b ↔ ∃ a, x = .ok a ∧ f a = .ok b := by
  cases x with
  | error e => simp
  | ok a => simp

/-- A sequence raises what its first part raises, or what the rest raises from there. -/
theorem bind_eq_error {x : Except ε α} {f : α → Except ε β} {e : ε} :
    (x >>= f) = .error e ↔ x = .error e ∨ ∃ a, x = .ok a ∧ f a = .error e := by
  cases x with
  | error e' => simp
  | ok a => simp

theorem exists_bind_eq_ok {x : Except ε α} {f : α → Except ε β} :
    (∃ b, (x >>= f) = .ok b) ↔ ∃ a, x = .ok a ∧ ∃ b, f a = .ok b := by
  constructor
  · rintro ⟨b, h⟩
    obtain ⟨a, ha, hb⟩ := bind_eq_ok.mp h
    exact ⟨a, ha, b, hb⟩
  · rintro ⟨a, ha, b, hb⟩
    exact ⟨b, bind_eq_ok.mpr ⟨a, ha, hb⟩⟩

/-- Two branches before the rest, which is repeated in both. -/
theorem ite_bind_eq_ok {c : Prop} [Decidable c] {x y : Except ε α} {f : α → Except ε β} {b : β}
    (h : (if c then x >>= f else y >>= f) = .ok b) :
    ∃ a, (if c then x else y) = .ok a ∧ f a = .ok b := by
  split at h
  · next hc =>
    rw [if_pos hc]
    exact bind_eq_ok.mp h
  · next hc =>
    rw [if_neg hc]
    exact bind_eq_ok.mp h

/-- The result of a sequence is mapped where its rest returns. -/
theorem map_bind_congr {γ : Type u} {x : Except ε α} {f : α → Except ε β} {g : β → γ}
    {f' : α → Except ε γ} (h : ∀ a, (f a).map g = f' a) : (x >>= f).map g = x >>= f' := by
  cases x with
  | error e => rfl
  | ok a => exact h a

theorem pure_ne_error {a : α} {e : ε} : (pure a : Except ε α) ≠ .error e := nofun

theorem bind_ne_error {x : Except ε α} {f : α → Except ε β} {e : ε} (hx : x ≠ .error e)
    (hf : ∀ a, f a ≠ .error e) : (x >>= f) ≠ .error e := by
  rw [Ne, bind_eq_error, not_or]
  exact ⟨hx, fun ⟨a, _, ha⟩ ↦ hf a ha⟩

/-- A loop raises only what its steps raise. -/
theorem foldlM_ne_error {σ ι : Type*} {step : σ → ι → Except ε σ} {e : ε}
    (hstep : ∀ s i, step s i ≠ .error e) (is : List ι) (s : σ) : is.foldlM step s ≠ .error e := by
  induction is generalizing s with
  | nil => exact nofun
  | cons i is ih =>
    rw [List.foldlM_cons]
    exact bind_ne_error (hstep s i) ih

/-- A comprehension whose calls all return is a map. -/
theorem mapM_eq_ok {ι : Type*} {f : ι → Except ε α} {g : ι → α} {is : List ι}
    (h : ∀ i ∈ is, f i = .ok (g i)) : is.mapM f = .ok (is.map g) := by
  induction is with
  | nil => rfl
  | cons i is ih =>
    rw [List.mapM_cons, h i List.mem_cons_self, ih fun j hj ↦ h j (List.mem_cons_of_mem i hj)]
    rfl

/-- A comprehension that returns relates its items to the results one by one. -/
theorem forall₂_of_mapM_eq_ok {ι : Type*} {f : ι → Except ε α} {is : List ι} {as : List α}
    (h : is.mapM f = .ok as) : List.Forall₂ (fun i a ↦ f i = .ok a) is as := by
  induction is generalizing as with
  | nil =>
    obtain rfl := Except.ok.inj h
    exact .nil
  | cons i is ih =>
    rw [List.mapM_cons] at h
    obtain ⟨a, ha, h⟩ := bind_eq_ok.mp h
    obtain ⟨as', has, h⟩ := bind_eq_ok.mp h
    obtain rfl := Except.ok.inj h
    exact .cons ha (ih has)

/-- A comprehension returns exactly when all of its items do. -/
theorem exists_mapM_eq_ok_iff {ι : Type*} {f : ι → Except ε α} {is : List ι} :
    (∃ as, is.mapM f = .ok as) ↔ ∀ i ∈ is, ∃ a, f i = .ok a := by
  induction is with
  | nil => exact ⟨fun _ _ hi ↦ absurd hi List.not_mem_nil, fun _ ↦ ⟨[], rfl⟩⟩
  | cons i is ih =>
    rw [List.mapM_cons, exists_bind_eq_ok, List.forall_mem_cons, ← ih]
    constructor
    · rintro ⟨a, ha, bs, h⟩
      obtain ⟨as, has, -⟩ := bind_eq_ok.mp h
      exact ⟨⟨a, ha⟩, as, has⟩
    · rintro ⟨⟨a, ha⟩, as, has⟩
      exact ⟨a, ha, exists_bind_eq_ok.mpr ⟨as, has, a :: as, rfl⟩⟩

/-- A loop whose steps all return is a fold. -/
theorem foldlM_eq_ok {σ ι : Type*} {step : σ → ι → Except ε σ} {next : σ → ι → σ} {is : List ι}
    (h : ∀ i ∈ is, ∀ s, step s i = .ok (next s i)) (s : σ) :
    is.foldlM step s = .ok (is.foldl next s) := by
  induction is generalizing s with
  | nil => rfl
  | cons i is ih =>
    rw [List.foldlM_cons, h i List.mem_cons_self]
    exact ih (fun j hj ↦ h j (List.mem_cons_of_mem i hj)) (next s i)

/-- A loop whose steps all return returns. -/
theorem exists_foldlM_eq_ok {σ ι : Type*} {step : σ → ι → Except ε σ} {is : List ι}
    (h : ∀ i ∈ is, ∀ s, ∃ s', step s i = .ok s') (s : σ) : ∃ s', is.foldlM step s = .ok s' := by
  induction is generalizing s with
  | nil => exact ⟨s, rfl⟩
  | cons i is ih =>
    obtain ⟨s₁, hs₁⟩ := h i List.mem_cons_self s
    rw [List.foldlM_cons, hs₁, ok_bind]
    exact ih (fun j hj ↦ h j (List.mem_cons_of_mem i hj)) s₁

/-- Each step of a loop that returns has returned. -/
theorem exists_of_foldlM_eq_ok {σ ι : Type*} {step : σ → ι → Except ε σ} {is : List ι} {s s' : σ}
    (h : is.foldlM step s = .ok s') : ∀ i ∈ is, ∃ t t', step t i = .ok t' := by
  induction is generalizing s with
  | nil => exact fun i hi ↦ absurd hi List.not_mem_nil
  | cons i is ih =>
    rw [List.foldlM_cons] at h
    obtain ⟨s₁, hs₁, h⟩ := bind_eq_ok.mp h
    exact List.forall_mem_cons.mpr ⟨⟨s, s₁, hs₁⟩, ih h⟩

/-- What every step of a run preserves holds after the run. -/
theorem foldlM_invariant {σ ι : Type*} {step : σ → ι → Except ε σ} {P : σ → Prop}
    (hstep : ∀ s i s', P s → step s i = .ok s' → P s') {is : List ι} {s s' : σ} (hs : P s)
    (hrun : is.foldlM step s = .ok s') : P s' := by
  induction is generalizing s with
  | nil =>
    obtain rfl := Except.ok.inj hrun
    exact hs
  | cons i is ih =>
    rw [List.foldlM_cons] at hrun
    obtain ⟨s₁, hs₁, hrun⟩ := bind_eq_ok.mp hrun
    exact ih (hstep s i s₁ hs hs₁) hrun

/-- A loop whose step returns from every state at the items of a kind returns exactly when all of
its items are of that kind. -/
theorem exists_foldlM_eq_ok_iff {σ ι : Type*} {step : σ → ι → Except ε σ} {Q : ι → Prop}
    (hstep : ∀ s i, (∃ s', step s i = .ok s') ↔ Q i) {is : List ι} (s : σ) :
    (∃ s', is.foldlM step s = .ok s') ↔ ∀ i ∈ is, Q i := by
  induction is generalizing s with
  | nil => exact ⟨fun _ _ hi ↦ absurd hi List.not_mem_nil, fun _ ↦ ⟨s, rfl⟩⟩
  | cons i is ih =>
    rw [List.forall_mem_cons, List.foldlM_cons]
    constructor
    · rintro ⟨s', h⟩
      obtain ⟨s₁, hs₁, h⟩ := bind_eq_ok.mp h
      exact ⟨(hstep s i).mp ⟨s₁, hs₁⟩, (ih s₁).mp ⟨s', h⟩⟩
    · rintro ⟨hi, his⟩
      obtain ⟨s₁, hs₁⟩ := (hstep s i).mpr hi
      rw [hs₁, ok_bind]
      exact (ih s₁).mpr his

/-- The computation returns under the condition, and raises `e` without it. -/
def RaisesUnless (e : ε) (P : Prop) (x : Except ε α) : Prop :=
  (P ∧ ∃ a, x = .ok a) ∨ (¬ P ∧ x = .error e)

namespace RaisesUnless

variable {e : ε} {P P' : Prop} {x : Except ε α} {f : α → Except ε β} {Q : α → Prop}

theorem of_eq_ok {a : α} (h : x = .ok a) (hP : P) : RaisesUnless e P x := .inl ⟨hP, a, h⟩

theorem of_eq_error (h : x = .error e) (hP : ¬ P) : RaisesUnless e P x := .inr ⟨hP, h⟩

theorem congr (h : RaisesUnless e P x) (hP : P ↔ P') : RaisesUnless e P' x :=
  h.imp (And.imp_left hP.mp) (And.imp_left (mt hP.mpr))

theorem ne_error_iff (h : RaisesUnless e P x) : x ≠ .error e ↔ P := by
  rcases h with ⟨hP, a, ha⟩ | ⟨hP, herror⟩
  · rw [ha]
    exact ⟨fun _ ↦ hP, fun _ ↦ nofun⟩
  · exact ⟨fun hne ↦ absurd herror hne, fun h ↦ absurd h hP⟩

theorem exists_eq_ok (h : RaisesUnless e P x) (hP : P) : ∃ a, x = .ok a :=
  h.elim And.right fun hnot ↦ absurd hP hnot.1

theorem eq_error (h : RaisesUnless e P x) (hP : ¬ P) : x = .error e :=
  h.elim (fun hyes ↦ absurd hyes.1 hP) And.right

/-- A sequence needs the condition of its first part, and that of the rest where this returns. -/
theorem bind (hx : RaisesUnless e P x)
    (hf : ∀ a, x = .ok a → RaisesUnless e (Q a) (f a)) :
    RaisesUnless e (P ∧ ∀ a, x = .ok a → Q a) (x >>= f) := by
  rcases hx with ⟨hP, a, rfl⟩ | ⟨hP, rfl⟩
  · have hQ : (P ∧ ∀ a', (Except.ok a : Except ε α) = .ok a' → Q a') ↔ Q a :=
      ⟨fun h ↦ h.2 a rfl, fun h ↦ ⟨hP, fun a' ha' ↦ Except.ok.inj ha' ▸ h⟩⟩
    exact (hf a rfl).congr hQ.symm
  · exact .of_eq_error rfl fun h ↦ hP h.1

/-- The condition of the rest may be the same wherever the first part returns. -/
theorem bind_and (hx : RaisesUnless e P x) (hf : ∀ a, x = .ok a → RaisesUnless e P' (f a)) :
    RaisesUnless e (P ∧ P') (x >>= f) := by
  refine (hx.bind hf).congr (and_congr_right fun hP ↦ ⟨fun h ↦ ?_, fun h _ _ ↦ h⟩)
  obtain ⟨a, ha⟩ := hx.exists_eq_ok hP
  exact h a ha

theorem bind_ok (hx : RaisesUnless e P x) (hf : ∀ a, x = .ok a → ∃ b, f a = .ok b) :
    RaisesUnless e P (x >>= f) := by
  refine (@bind_and _ _ _ e P True x f hx fun a ha ↦ ?_).congr (and_iff_left True.intro)
  obtain ⟨b, hb⟩ := hf a ha
  exact .of_eq_ok hb True.intro

end RaisesUnless

end Except

/-- The low bytes of a number, the least significant one first. -/
def lowBytes : ℕ → ℕ → List UInt8
  | 0, _ => []
  | length + 1, num => UInt8.ofNat num :: lowBytes length (num / 256)

/-- `num.to_bytes(length, 'little')` of a number that is not negative. -/
def toBytes (num length : ℕ) : Except PyError (List UInt8) :=
  if num < 256 ^ length then .ok (lowBytes length num) else .error .overflowError

/-- `int.from_bytes(bytes, 'little')`. -/
def fromBytes (bytes : List UInt8) : ℕ := bytes.foldr (fun byte num ↦ byte.toNat + 256 * num) 0

@[simp]
theorem length_lowBytes (length num : ℕ) : (lowBytes length num).length = length := by
  induction length generalizing num with
  | zero => rfl
  | succ length ih => rw [lowBytes, List.length_cons, ih]

theorem fromBytes_lowBytes {length num : ℕ} (h : num < 256 ^ length) :
    fromBytes (lowBytes length num) = num := by
  induction length generalizing num with
  | zero =>
    have hnum : num = 0 := by simpa using h
    rw [hnum]
    rfl
  | succ length ih =>
    have hrest : num / 256 < 256 ^ length := by
      apply Nat.div_lt_of_lt_mul
      rwa [← Nat.pow_succ']
    calc
      fromBytes (lowBytes (length + 1) num)
          = (UInt8.ofNat num).toNat + 256 * fromBytes (lowBytes length (num / 256)) := rfl
      _ = num % 256 + 256 * (num / 256) := by rw [ih hrest, UInt8.toNat_ofNat']
      _ = num := Nat.mod_add_div num 256

theorem fromBytes_lt (bytes : List UInt8) : fromBytes bytes < 256 ^ bytes.length := by
  induction bytes with
  | nil => exact Nat.one_pos
  | cons byte bytes ih =>
    have hbyte : byte.toNat < 256 := byte.toNat_lt
    calc
      fromBytes (byte :: bytes) = byte.toNat + 256 * fromBytes bytes := rfl
      _ < 256 * (fromBytes bytes + 1) := by omega
      _ ≤ 256 * 256 ^ bytes.length := Nat.mul_le_mul_left 256 ih
      _ = 256 ^ (byte :: bytes).length := by rw [List.length_cons, Nat.pow_succ']

theorem toBytes_eq_ok {num length : ℕ} {bytes : List UInt8} :
    toBytes num length = .ok bytes ↔ num < 256 ^ length ∧ lowBytes length num = bytes := by
  unfold toBytes
  split
  · next h => simp [h]
  · next h => simp [h]

/-- A byte read from memory fits into one byte again. -/
theorem toBytes_toNat (byte : UInt8) : toBytes byte.toNat 1 = .ok [byte] := by
  have hlt : byte.toNat < 256 ^ 1 := byte.toNat_lt
  rw [toBytes_eq_ok]
  exact ⟨hlt, by rw [lowBytes, lowBytes, UInt8.ofNat_toNat]⟩

/-- The outcomes that the calls into `random` still have in store. -/
abbrev Draws := ℕ → ℕ

namespace Draws

def rest (draws : Draws) : Draws := fun i ↦ draws (i + 1)

/-- `random.choice`: any item of the list, an error when there is none. -/
def choice {α : Type*} (l : List α) (draws : Draws) : Except PyError (α × Draws) :=
  match l[draws 0 % l.length]? with
  | none => .error .indexError
  | some a => .ok (a, draws.rest)

/-- `random.randint(a, b)`: any number of the range, an error when it is empty. -/
def randint (a b : ℤ) (draws : Draws) : Except PyError (ℤ × Draws) :=
  if b < a then .error .valueError
  else .ok (a + ((draws 0 % (b - a + 1).toNat : ℕ) : ℤ), draws.rest)

/-- `random.random()`, in multiples of `2 ^ -53`. -/
def random (draws : Draws) : Except PyError (ℕ × Draws) := .ok (draws 0 % 2 ^ 53, draws.rest)

/-- The comparison of such a number with `num / den`. -/
def below (rand num den : ℕ) : Bool := rand * den < num * 2 ^ 53

theorem mem_of_choice_eq_ok {α : Type*} {l : List α} {draws : Draws} {r : α × Draws}
    (h : choice l draws = .ok r) : r.1 ∈ l := by
  unfold choice at h
  split at h
  · exact nomatch h
  · next a ha =>
    obtain rfl := Except.ok.inj h
    exact List.mem_of_getElem? ha

theorem exists_choice_eq_ok {α : Type*} {l : List α} (hl : l ≠ []) (draws : Draws) :
    ∃ a ∈ l, choice l draws = .ok (a, draws.rest) := by
  have hlength : draws 0 % l.length < l.length :=
    Nat.mod_lt _ (List.length_pos_of_ne_nil hl)
  have hget : l[draws 0 % l.length]? = some (l[draws 0 % l.length]) :=
    List.getElem?_eq_getElem hlength
  refine ⟨l[draws 0 % l.length], List.getElem_mem hlength, ?_⟩
  unfold choice
  rw [hget]

end Draws

end ProcessorFuzz.Library
