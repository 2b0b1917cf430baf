import Mathlib.Algebra.BigOperators.Group.Finset.Basic
import Mathlib.Algebra.GroupWithZero.Nat
import Mathlib.Algebra.Order.BigOperators.Group.Finset
import Mathlib.Data.Fintype.Basic
import Mathlib.Data.List.Nodup
import ProcessorFuzz.Library.Python

/-!
# Collecting without repetition

A call scans an item, appends what it finds to some lists unless it is already there, and returns
by how much the lists have grown. What is found depends on the item alone. Then the lists are sets
in disguise: no order of calls changes their members or the total of the returned numbers, and a
copy of an item that was scanned once brings nothing new.
-/

namespace ProcessorFuzz.Library.Collect

variable {σ ι α κ τ ε : Type*}

/-- The list `after` consists of `before` and the items found, without new repetitions. -/
structure Grows (before after found : List α) : Prop where
  nodup : before.Nodup → after.Nodup
  mem : ∀ a, a ∈ after ↔ a ∈ before ∨ a ∈ found

namespace Grows

variable {l m k found found' : List α}

theorem refl (l : List α) : Grows l l [] where
  nodup h := h
  mem a := by simp

theorem trans (h : Grows l m found) (h' : Grows m k found') : Grows l k (found ++ found') where
  nodup hl := h'.nodup (h.nodup hl)
  mem a := by rw [h'.mem, h.mem, List.mem_append, or_assoc]

theorem of_mem {a : α} (h : a ∈ l) : Grows l l [a] where
  nodup hl := hl
  mem b := by
    constructor
    · exact Or.inl
    · rintro (hb | hb)
      · exact hb
      · rwa [List.mem_singleton.mp hb]

theorem append {a : α} (h : a ∉ l) : Grows l (l ++ [a]) [a] where
  nodup hl := hl.append (List.nodup_singleton a) (List.disjoint_singleton.mpr h)
  mem _ := List.mem_append

theorem length_eq_of_found_mem (h : Grows l m found) (hl : l.Nodup)
    (hfound : ∀ a ∈ found, a ∈ l) : m.length = l.length := by
  have hperm : m.Perm l := by
    apply (List.perm_ext_iff_of_nodup (h.nodup hl) hl).mpr
    intro a
    rw [h.mem]
    exact ⟨fun ha ↦ ha.elim id (hfound a), Or.inl⟩
  exact hperm.length_eq

end Grows

/-- Calls one after another, with the numbers they return. -/
def runCalls (call : σ → ι → Except ε (σ × ℕ)) : σ → List ι → Except ε (σ × List ℕ)
  | s, [] => .ok (s, [])
  | s, i :: is =>
    match call s i with
    | .error e => .error e
    | .ok (s₁, n) =>
      match runCalls call s₁ is with
      | .error e => .error e
      | .ok (s₂, counts) => .ok (s₂, n :: counts)

section Fintype

variable [Fintype κ]

def size (lists : κ → σ → List α) (s : σ) : ℕ := ∑ k, (lists k s).length

/-- The growth of a loop is the growth of its steps. -/
theorem grows_foldl {χ : Type*} {lists : κ → σ → List α} {step : σ × ℕ → χ → σ × ℕ}
    {offered : χ → κ → List α} {cs : List χ}
    (hstep : ∀ c ∈ cs, ∀ s, (∀ k, Grows (lists k s.1) (lists k (step s c).1) (offered c k)) ∧
      size lists (step s c).1 + s.2 = size lists s.1 + (step s c).2) (s : σ × ℕ) :
    (∀ k, Grows (lists k s.1) (lists k (cs.foldl step s).1) (cs.flatMap fun c ↦ offered c k)) ∧
      size lists (cs.foldl step s).1 + s.2 = size lists s.1 + (cs.foldl step s).2 := by
  induction cs generalizing s with
  | nil => exact ⟨fun k ↦ Grows.refl _, rfl⟩
  | cons c cs ih =>
    obtain ⟨hgrows, hsize⟩ := hstep c List.mem_cons_self s
    obtain ⟨hgrows', hsize'⟩ := ih (fun d hd ↦ hstep d (List.mem_cons_of_mem c hd)) (step s c)
    constructor
    · intro k
      rw [List.flatMap_cons]
      exact (hgrows k).trans (hgrows' k)
    · rw [List.foldl_cons]
      omega

/-- A call adds what it finds in its item and returns the growth. -/
structure Collects (call : σ → ι → Except ε (σ × ℕ)) (lists : κ → σ → List α)
    (found : ι → Option (κ → List α)) : Prop where
  returns : ∀ {i l}, found i = some l → ∀ s, ∃ r, call s i = .ok r
  finds : ∀ {s i s' n}, call s i = .ok (s', n) → ∃ l, found i = some l ∧
    (∀ k, Grows (lists k s) (lists k s') (l k)) ∧ size lists s' = size lists s + n

/-- What it means that a run of calls accumulates sets. Items of one content are copies of each
other. -/
structure AccumulatesSets (call : σ → ι → Except ε (σ × ℕ)) (lists : κ → σ → List α)
    (content : ι → τ) (s : σ) (is : List ι) (s' : σ) (counts : List ℕ) : Prop where
  nodup : ∀ k, (lists k s').Nodup
  /-- Every call of the run returns the growth. -/
  growth : ∀ before i after, is = before ++ i :: after → ∃ s₁ counts₁ s₂ n,
    runCalls call s before = .ok (s₁, counts₁) ∧ call s₁ i = .ok (s₂, n) ∧
    size lists s₂ = size lists s₁ + n
  /-- The order of the calls does not matter. -/
  perm : ∀ js, is.Perm js → ∃ s'' counts', runCalls call s js = .ok (s'', counts') ∧
    (∀ k a, a ∈ lists k s'' ↔ a ∈ lists k s') ∧ counts'.sum = counts.sum
  /-- At any later point, a copy of an item of the run brings nothing new. -/
  again : ∀ i ∈ is, ∀ i', content i' = content i → ∀ js s₁ counts₁,
    runCalls call s' js = .ok (s₁, counts₁) → ∃ s₂, call s₁ i' = .ok (s₂, 0)

variable {call : σ → ι → Except ε (σ × ℕ)} {lists : κ → σ → List α}
  {found : ι → Option (κ → List α)}

theorem runCalls_cons_eq_ok {s s' : σ} {i : ι} {is : List ι} {counts : List ℕ}
    (h : runCalls call s (i :: is) = .ok (s', counts)) :
    ∃ s₁ n counts₁, call s i = .ok (s₁, n) ∧ runCalls call s₁ is = .ok (s', counts₁) ∧
      counts = n :: counts₁ := by
  unfold runCalls at h
  split at h
  · exact nomatch h
  · next s₁ n hcall =>
    split at h
    · exact nomatch h
    · next s₂ counts₁ hrun =>
      obtain ⟨rfl, rfl⟩ := Prod.mk.inj (Except.ok.inj h)
      exact ⟨s₁, n, counts₁, hcall, hrun, rfl⟩

theorem runCalls_append_eq_ok {s s' : σ} {is js : List ι} {counts : List ℕ}
    (h : runCalls call s (is ++ js) = .ok (s', counts)) :
    ∃ s₁ counts₁ counts₂, runCalls call s is = .ok (s₁, counts₁) ∧
      runCalls call s₁ js = .ok (s', counts₂) := by
  induction is generalizing s counts with
  | nil => exact ⟨s, [], counts, rfl, h⟩
  | cons i is ih =>
    obtain ⟨s₁, n, rest, hcall, hrun, -⟩ := runCalls_cons_eq_ok h
    obtain ⟨s₂, counts₁, counts₂, his, hjs⟩ := ih hrun
    refine ⟨s₂, n :: counts₁, counts₂, ?_, hjs⟩
    simp only [runCalls, hcall, his]

/-- A call brings nothing new exactly when all that it finds is there already. -/
theorem Collects.count_eq_zero_iff (h : Collects call lists found) {s s' : σ} {i : ι} {n : ℕ}
    {l : κ → List α} (hs : ∀ k, (lists k s).Nodup) (hfound : found i = some l)
    (hcall : call s i = .ok (s', n)) : n = 0 ↔ ∀ k, ∀ a ∈ l k, a ∈ lists k s := by
  obtain ⟨l', hl', hgrows, hsize⟩ := h.finds hcall
  obtain rfl := Option.some.inj (hfound.symm.trans hl')
  have hsub (k : κ) : lists k s ⊆ lists k s' := fun a ha ↦ ((hgrows k).mem a).mpr (.inl ha)
  constructor
  · rintro rfl
    have hle : ∀ k ∈ Finset.univ, (lists k s).length ≤ (lists k s').length := fun k _ ↦
      ((hs k).subperm (hsub k)).length_le
    have hlength := (Finset.sum_eq_sum_iff_of_le hle).mp hsize.symm
    intro k a ha
    have hperm : (lists k s).Perm (lists k s') :=
      ((hs k).subperm (hsub k)).perm_of_length_le (hlength k (Finset.mem_univ k)).ge
    exact hperm.mem_iff.mpr (((hgrows k).mem a).mpr (.inr ha))
  · intro hmem
    have hsame : size lists s' = size lists s :=
      Finset.sum_congr rfl fun k _ ↦ (hgrows k).length_eq_of_found_mem (hs k) (hmem k)
    omega

/-- Calls return wherever their items can be scanned. -/
theorem Collects.exists_runCalls (h : Collects call lists found) {is : List ι}
    (his : ∀ i ∈ is, (found i).isSome) (s : σ) : ∃ r, runCalls call s is = .ok r := by
  induction is generalizing s with
  | nil => exact ⟨_, rfl⟩
  | cons i is ih =>
    obtain ⟨l, hl⟩ := Option.isSome_iff_exists.mp (his i List.mem_cons_self)
    obtain ⟨⟨s₁, n⟩, hcall⟩ := h.returns hl s
    obtain ⟨⟨s₂, counts⟩, hrun⟩ := ih (fun j hj ↦ his j (List.mem_cons_of_mem i hj)) s₁
    refine ⟨(s₂, n :: counts), ?_⟩
    simp only [runCalls, hcall, hrun]

/-- What a run has added to the lists. -/
theorem Collects.run (h : Collects call lists found) {s s' : σ} {is : List ι} {counts : List ℕ}
    (hrun : runCalls call s is = .ok (s', counts)) :
    (∀ i ∈ is, (found i).isSome) ∧
      (∀ k, (lists k s).Nodup → (lists k s').Nodup) ∧
      (∀ k a, a ∈ lists k s' ↔ a ∈ lists k s ∨ ∃ i ∈ is, ∃ l, found i = some l ∧ a ∈ l k) ∧
      size lists s' = size lists s + counts.sum := by
  induction is generalizing s counts with
  | nil =>
    obtain ⟨rfl, rfl⟩ := Prod.mk.inj (Except.ok.inj hrun)
    simp
  | cons i is ih =>
    obtain ⟨s₁, n, rest, hcall, hrest, rfl⟩ := runCalls_cons_eq_ok hrun
    obtain ⟨l, hl, hgrows, hsize⟩ := h.finds hcall
    obtain ⟨hsome, hnodup, hmem, hsize'⟩ := ih hrest
    refine ⟨?_, fun k hk ↦ hnodup k ((hgrows k).nodup hk), ?_, ?_⟩
    · intro j hj
      rcases List.mem_cons.mp hj with rfl | hj
      · rw [hl]
        rfl
      · exact hsome j hj
    · intro k a
      rw [hmem, (hgrows k).mem, or_assoc]
      constructor
      · rintro (ha | ha | ⟨j, hj, hfound⟩)
        · exact .inl ha
        · exact .inr ⟨i, List.mem_cons_self, l, hl, ha⟩
        · exact .inr ⟨j, List.mem_cons_of_mem i hj, hfound⟩
      · rintro (ha | ⟨j, hj, l', hl', ha⟩)
        · exact .inl ha
        · rcases List.mem_cons.mp hj with rfl | hj
          · rw [hl] at hl'
            rw [Option.some.inj hl']
            exact .inr (.inl ha)
          · exact .inr (.inr ⟨j, hj, l', hl', ha⟩)
    · rw [hsize', hsize, List.sum_cons, Nat.add_assoc]

theorem size_eq_of_mem_iff {s s' : σ} (hs : ∀ k, (lists k s).Nodup)
    (hs' : ∀ k, (lists k s').Nodup) (h : ∀ k a, a ∈ lists k s ↔ a ∈ lists k s') :
    size lists s = size lists s' := by
  apply Finset.sum_congr rfl
  intro k _
  exact ((List.perm_ext_iff_of_nodup (hs k) (hs' k)).mpr (h k)).length_eq

/-- Collecting calls accumulate sets. -/
theorem Collects.accumulatesSets (h : Collects call lists found) {content : ι → τ}
    (hcontent : ∀ i i', content i' = content i → found i' = found i) {s s' : σ} {is : List ι}
    {counts : List ℕ} (hs : ∀ k, (lists k s).Nodup)
    (hrun : runCalls call s is = .ok (s', counts)) :
    AccumulatesSets call lists content s is s' counts := by
  obtain ⟨hsome, hnodup, hmem, hsize⟩ := h.run hrun
  refine ⟨fun k ↦ hnodup k (hs k), ?_, ?_, ?_⟩
  · rintro before i after rfl
    obtain ⟨s₁, counts₁, rest, hbefore, hafter⟩ := runCalls_append_eq_ok hrun
    obtain ⟨s₂, n, -, hcall, -, -⟩ := runCalls_cons_eq_ok hafter
    obtain ⟨-, -, -, hgrowth⟩ := h.finds hcall
    exact ⟨s₁, counts₁, s₂, n, hbefore, hcall, hgrowth⟩
  · intro js hperm
    obtain ⟨⟨s'', counts'⟩, hrun'⟩ :=
      h.exists_runCalls (fun i hi ↦ hsome i (hperm.mem_iff.mpr hi)) s
    obtain ⟨-, hnodup', hmem', hsize'⟩ := h.run hrun'
    have hsame : ∀ k a, a ∈ lists k s'' ↔ a ∈ lists k s' := by
      intro k a
      rw [hmem, hmem']
      simp only [hperm.mem_iff]
    refine ⟨s'', counts', hrun', hsame, ?_⟩
    have := size_eq_of_mem_iff (fun k ↦ hnodup' k (hs k)) (fun k ↦ hnodup k (hs k)) hsame
    omega
  · intro i hi i' hcopy js s₁ counts₁ hjs
    have hfound : found i' = found i := hcontent i i' hcopy
    obtain ⟨l, hl⟩ := Option.isSome_iff_exists.mp (hsome i hi)
    obtain ⟨⟨s₂, n⟩, hcall⟩ := h.returns (hfound.trans hl) s₁
    obtain ⟨l', hl', hgrows, hgrowth⟩ := h.finds hcall
    rw [hfound] at hl'
    obtain ⟨-, hnodup₁, hmem₁, -⟩ := h.run hjs
    have hsame : size lists s₂ = size lists s₁ := by
      apply Finset.sum_congr rfl
      intro k _
      apply (hgrows k).length_eq_of_found_mem (hnodup₁ k (hnodup k (hs k)))
      intro a ha
      exact (hmem₁ k a).mpr (.inl ((hmem k a).mpr (.inr ⟨i, hi, l', hl', ha⟩)))
    have hzero : n = 0 := by omega
    exact ⟨s₂, by rw [hcall, hzero]⟩

end Fintype

end ProcessorFuzz.Library.Collect
