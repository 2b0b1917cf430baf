import Mathlib.Data.List.Induction
import Mathlib.Data.List.ReduceOption

/-!
# Flags latched along a list

A loop that keeps one Boolean and overwrites it at some of its items is decided by the last item
that writes. The effect of an item is an `Option Bool`: `none` leaves the flag alone, `some b`
stores `b`. The rules below say what the flag is after the loop without unfolding the loop again.
-/

namespace ProcessorFuzz.Library.Latch

/-- The flag after the items' effects, applied in order. -/
def run (flag : Bool) (effects : List (Option Bool)) : Bool :=
  effects.foldl (fun current effect ↦ effect.getD current) flag

@[simp]
theorem run_nil (flag : Bool) : run flag [] = flag := rfl

@[simp]
theorem run_cons (flag : Bool) (effect : Option Bool) (effects : List (Option Bool)) :
    run flag (effect :: effects) = run (effect.getD flag) effects := rfl

@[simp]
theorem run_append (flag : Bool) (first second : List (Option Bool)) :
    run flag (first ++ second) = run (run flag first) second := by
  simp [run]

/-- The last write decides; without a write the flag keeps its initial value. -/
theorem run_eq_getLast (flag : Bool) (effects : List (Option Bool)) :
    run flag effects = effects.reduceOption.getLast?.getD flag := by
  induction effects generalizing flag with
  | nil => rfl
  | cons effect effects ih =>
    cases effect with
    | none => simpa [List.reduceOption_cons_of_none] using ih flag
    | some value =>
      rw [run_cons, Option.getD_some, ih value, List.reduceOption_cons_of_some,
        List.getLast?_cons]
      rfl

/-- A flag ends as it began when every item that flips it is followed by one that restores it. -/
theorem run_map_eq_self_iff {ι : Type*} (flag : Bool) (effect : ι → Option Bool) (items : List ι) :
    run flag (items.map effect) = flag ↔ ∀ before item after, items = before ++ item :: after →
      effect item = some (!flag) → ∃ later ∈ after, effect later = some flag := by
  induction items using List.reverseRecOn with
  | nil => simp
  | append_singleton items last ih =>
    rw [List.map_append, run_append, List.map_singleton, run_cons, run_nil]
    constructor
    · intro h before item after heq hitem
      rcases List.eq_nil_or_concat after with rfl | ⟨after, x, rfl⟩
      · obtain ⟨-, hlast⟩ := List.append_inj' heq rfl
        rw [List.singleton_inj.mp hlast, hitem, Option.getD_some] at h
        exact absurd h (by cases flag <;> decide)
      · rw [List.concat_eq_append, ← List.cons_append, ← List.append_assoc] at heq
        obtain ⟨hitems, hlast⟩ := List.append_inj' heq rfl
        obtain rfl := List.singleton_inj.mp hlast
        by_cases hx : effect last = some flag
        · refine ⟨last, ?_, hx⟩
          rw [List.concat_eq_append]
          exact List.mem_append_right _ List.mem_cons_self
        · have hnone : effect last = none := by
            cases hcase : effect last with
            | none => rfl
            | some value =>
              rw [hcase] at h
              exact absurd (hcase.trans (congrArg some h)) hx
          rw [hnone, Option.getD_none] at h
          obtain ⟨later, hlater, heffect⟩ := ih.mp h before item after hitems hitem
          refine ⟨later, ?_, heffect⟩
          rw [List.concat_eq_append]
          exact List.mem_append_left _ hlater
    · intro h
      cases hcase : effect last with
      | none =>
        rw [Option.getD_none]
        refine ih.mpr fun before item after heq hitem ↦ ?_
        have heq' : items ++ [last] = before ++ item :: (after ++ [last]) := by
          rw [heq, List.append_assoc, List.cons_append]
        obtain ⟨later, hlater, heffect⟩ := h before item (after ++ [last]) heq' hitem
        rcases List.mem_append.mp hlater with hlater | hlater
        · exact ⟨later, hlater, heffect⟩
        · rw [List.mem_singleton.mp hlater, hcase] at heffect
          exact nomatch heffect
      | some value =>
        rw [Option.getD_some]
        by_contra hne
        have hflip : effect last = some (!flag) := by
          rw [hcase]
          revert hne
          cases value <;> cases flag <;> decide
        obtain ⟨later, hlater, -⟩ := h items last [] rfl hflip
        exact nomatch hlater

/-- The effect of an item on a flag that begins as `flag`. -/
def effect {ι : Type*} (flag : Bool) (flips restores : ι → Bool) (item : ι) : Option Bool :=
  if flips item then some (!flag) else if restores item then some flag else none

/-- Each item of the first kind has one of the second kind behind it. -/
def Followed {ι : Type*} (first second : ι → Bool) (items : List ι) : Prop :=
  ∀ before item after, items = before ++ item :: after → first item = true →
    ∃ later ∈ after, second later = true

theorem run_effect_eq_self_iff {ι : Type*} (flag : Bool) {flips restores : ι → Bool}
    (hdisjoint : ∀ item, restores item = true → flips item = false) (items : List ι) :
    run flag (items.map (effect flag flips restores)) = flag ↔ Followed flips restores items := by
  have hflips : ∀ item, effect flag flips restores item = some (!flag) ↔ flips item = true := by
    intro item
    unfold effect
    cases flips item <;> cases restores item <;> cases flag <;> decide
  have hrestores : ∀ item, effect flag flips restores item = some flag ↔
      restores item = true := by
    intro item
    have hitem := hdisjoint item
    unfold effect
    revert hitem
    cases flips item <;> cases restores item <;> cases flag <;> decide
  rw [run_map_eq_self_iff]
  simp only [hflips, hrestores]
  rfl

end ProcessorFuzz.Library.Latch
