import Mathlib.Order.Lattice
import Mathlib.Order.BooleanAlgebra.Basic

/-!
# Greedy growth

A greedy search joins one piece after the other to what it has and keeps the join when a test
accepts it. What it has only grows and is accepted once a piece was kept. When the test is antitone,
no piece that was rejected is accepted later, so that each piece of the search is settled at its end.
-/

namespace ProcessorFuzz.Library.Greedy

variable {α : Type*} [SemilatticeSup α] (accept : α → Bool)

def attempt (a piece : α) : α := if accept (a ⊔ piece) then a ⊔ piece else a

def search (a : α) (pieces : List α) : α := pieces.foldl (attempt accept) a

/-- The search has nothing more to gain from the piece. -/
def Settled (a piece : α) : Prop := piece ≤ a ∨ accept (a ⊔ piece) = false

variable {accept} {a b piece : α} {pieces pieces' : List α}

theorem le_attempt : a ≤ attempt accept a piece := by
  unfold attempt
  split
  · exact le_sup_left
  · exact le_rfl

theorem le_search : a ≤ search accept a pieces := by
  induction pieces generalizing a with
  | nil => exact le_rfl
  | cons piece pieces ih => exact le_attempt.trans ih

theorem search_append :
    search accept a (pieces ++ pieces') = search accept (search accept a pieces) pieces' :=
  List.foldl_append

theorem attempt_eq_or_accept (h : a = b ∨ accept a = true) :
    attempt accept a piece = b ∨ accept (attempt accept a piece) = true := by
  unfold attempt
  split
  case isTrue haccept => exact .inr haccept
  case isFalse => exact h

theorem search_eq_or_accept (h : a = b ∨ accept a = true) :
    search accept a pieces = b ∨ accept (search accept a pieces) = true := by
  induction pieces generalizing a with
  | nil => exact h
  | cons piece pieces ih => exact ih (attempt_eq_or_accept h)

theorem settled_attempt : Settled accept (attempt accept a piece) piece := by
  unfold attempt
  split
  case isTrue => exact .inl le_sup_right
  case isFalse hreject => exact .inr (Bool.eq_false_iff.mpr hreject)

theorem Settled.mono (hpiece : Settled accept a piece) (h : Antitone accept) (hab : a ≤ b) :
    Settled accept b piece := by
  rcases hpiece with hle | hreject
  · exact .inl (hle.trans hab)
  · exact .inr (Bool.eq_false_of_le_false ((h (sup_le_sup_right hab piece)).trans hreject.le))

theorem settled_search (h : Antitone accept) (hpiece : piece ∈ pieces) :
    Settled accept (search accept a pieces) piece := by
  induction pieces generalizing a with
  | nil => exact nomatch hpiece
  | cons first pieces ih =>
    rcases List.mem_cons.mp hpiece with rfl | hrest
    · exact settled_attempt.mono h le_search
    · exact ih hrest

end ProcessorFuzz.Library.Greedy
