import Mathlib.Data.List.Nodup
import Mathlib.Data.List.Perm.Basic
import Mathlib.Data.List.Range

/-!
# Numbers in the order of their use

A bounded pool hands out the numbers `0, 1, …` and, when it is full, the number that has not been
used for the longest time. The list keeps its numbers in the order of their last use, the most
recent one at the end. The age of a number is how many numbers have been used since.
-/

namespace ProcessorFuzz.Library.Recency

/-- The list after a use of the number. -/
def touch (num : ℕ) (order : List ℕ) : List ℕ := order.erase num ++ [num]

/-- The number that the pool hands out. -/
def next (capacity : ℕ) (order : List ℕ) : ℕ :=
  if order.length = capacity then order.headD 0 else order.length

/-- The numbers of the list are those below its length, each once. -/
def Numbered (order : List ℕ) : Prop := order.Perm (List.range order.length)

/-- The number of items that were used after `num`. -/
def age (order : List ℕ) (num : ℕ) : ℕ := order.reverse.idxOf num

variable {order : List ℕ} {capacity num : ℕ}

theorem numbered_nil : Numbered [] := List.Perm.refl []

theorem Numbered.nodup (h : Numbered order) : order.Nodup :=
  h.nodup_iff.mpr List.nodup_range

theorem Numbered.mem_iff (h : Numbered order) : num ∈ order ↔ num < order.length := by
  calc
    num ∈ order ↔ num ∈ List.range order.length := List.Perm.mem_iff h
    _ ↔ num < order.length := List.mem_range

@[simp]
theorem mem_touch {num' : ℕ} : num' ∈ touch num order ↔ num' = num ∨ num' ∈ order := by
  by_cases hne : num' = num
  · simp [touch, hne]
  · simp [touch, hne, List.mem_erase_of_ne hne]

/-- The use of a number of the list moves it to the end. -/
theorem perm_touch (h : num ∈ order) : (touch num order).Perm order :=
  calc
    (touch num order).Perm (num :: order.erase num) := List.perm_append_singleton num _
    List.Perm _ order := (List.perm_cons_erase h).symm

theorem Numbered.touch_of_mem (h : Numbered order) (hmem : num ∈ order) :
    Numbered (touch num order) := by
  have hperm : (touch num order).Perm order := perm_touch hmem
  rw [Numbered, hperm.length_eq]
  exact hperm.trans h

theorem Numbered.touch_length (h : Numbered order) :
    touch order.length order = order ++ [order.length] := by
  have hnot : order.length ∉ order := by simp [h.mem_iff]
  rw [touch, List.erase_of_not_mem hnot]

/-- A full pool hands out its first number, another one a number that is not in the list. -/
theorem next_cases (h : Numbered order) (hle : order.length ≤ capacity) (hpos : 0 < capacity) :
    (order.length = capacity ∧ next capacity order ∈ order) ∨
      (order.length < capacity ∧ next capacity order = order.length) := by
  unfold next
  split
  · next hfull =>
    left
    cases order with
    | nil => simp only [List.length_nil] at hfull; omega
    | cons first rest => exact ⟨hfull, List.mem_cons_self⟩
  · next hroom => exact .inr ⟨by omega, rfl⟩

theorem Numbered.touch_next (h : Numbered order) (hle : order.length ≤ capacity)
    (hpos : 0 < capacity) : Numbered (touch (next capacity order) order) := by
  rcases next_cases h hle hpos with ⟨-, hmem⟩ | ⟨-, hnew⟩
  · exact h.touch_of_mem hmem
  · rw [hnew, h.touch_length, Numbered, List.length_append, List.length_singleton,
      List.range_succ]
    exact h.append_right _

theorem length_touch_next (h : Numbered order) (hle : order.length ≤ capacity)
    (hpos : 0 < capacity) :
    order.length ≤ (touch (next capacity order) order).length ∧
      (touch (next capacity order) order).length ≤ capacity := by
  rcases next_cases h hle hpos with ⟨-, hmem⟩ | ⟨hroom, hnew⟩
  · rw [(perm_touch hmem).length_eq]
    exact ⟨le_rfl, hle⟩
  · rw [hnew, h.touch_length, List.length_append, List.length_singleton]
    exact ⟨Nat.le_succ _, hroom⟩

@[simp]
theorem age_touch_self : age (touch num order) num = 0 := by
  simp [age, touch]

/-- Removing other items moves an item to the front. -/
theorem idxOf_filter_le {p : ℕ → Bool} (hp : p num = true) (l : List ℕ) :
    (l.filter p).idxOf num ≤ l.idxOf num := by
  induction l with
  | nil => simp
  | cons a l ih =>
    by_cases ha : a = num
    · rw [ha, List.filter_cons_of_pos hp, List.idxOf_cons_self, List.idxOf_cons_self]
    · rw [List.idxOf_cons_ne l ha]
      cases hpa : p a with
      | false =>
        rw [List.filter_cons_of_neg (by simp [hpa])]
        exact ih.trans (Nat.le_succ _)
      | true =>
        rw [List.filter_cons_of_pos hpa, List.idxOf_cons_ne _ ha]
        exact Nat.succ_le_succ ih

/-- Another use makes a number older by one at most. -/
theorem age_touch_le (h : order.Nodup) (num num' : ℕ) :
    age (touch num order) num' ≤ age order num' + 1 := by
  by_cases hne : num = num'
  · rw [hne, age_touch_self]
    exact Nat.zero_le _
  · have hreverse : (touch num order).reverse = num :: order.reverse.filter (· != num) := by
      rw [touch, h.erase_eq_filter, List.reverse_append, ← List.filter_reverse]
      rfl
    rw [age, hreverse, List.idxOf_cons_ne _ hne]
    apply Nat.succ_le_succ
    apply idxOf_filter_le
    simpa using Ne.symm hne

/-- A full pool hands out the oldest number. -/
theorem age_next (h : order.Nodup) (hfull : order.length = capacity) (hpos : 0 < capacity) :
    age order (next capacity order) = capacity - 1 := by
  cases order with
  | nil => simp only [List.length_nil] at hfull; omega
  | cons first rest =>
    have hnot : first ∉ rest.reverse := by
      rw [List.mem_reverse]
      exact (List.nodup_cons.mp h).1
    rw [next, if_pos hfull, age, List.headD_cons, List.reverse_cons,
      List.idxOf_append_of_notMem hnot, List.length_reverse, List.idxOf_cons_self]
    simp only [List.length_cons] at hfull
    omega

end ProcessorFuzz.Library.Recency
