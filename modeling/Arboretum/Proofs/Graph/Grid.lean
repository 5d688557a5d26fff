import Mathlib.Data.Real.Basic
import Arboretum.Proofs.Graph.Hanging

/-!
Which end points share a joint. In exact arithmetic they share it just if no border of the grid runs
between them; a border belongs to its even side. What shares a joint is therefore no more than a
cell apart, while end points that are much nearer than that can have a border between them.
-/
namespace Arboretum

open Arboretum.Action

namespace Scalar

/-- The nearest integer is half a unit away at most; where it is that far away it is even. -/
theorem nearest_half (v : ℝ) :
    ∃ n : ℤ, nearest v = .ok n ∧ (|v - n| < 1 / 2 ∨ |v - n| = 1 / 2 ∧ Even n) := by
  have hlow : (⌊v⌋ : ℝ) ≤ v := Int.floor_le v
  have hhigh : v < ⌊v⌋ + 1 := Int.lt_floor_add_one v
  have hhalf : (0.5 : ℝ) = 1 / 2 := by norm_num
  have hnearest : nearest v = if v - ⌊v⌋ < 0.5 then .ok ⌊v⌋ else
      if 0.5 < v - ⌊v⌋ then .ok (⌊v⌋ + 1) else
        .ok (if ⌊v⌋ % 2 = 0 then ⌊v⌋ else ⌊v⌋ + 1) := rfl
  rw [hnearest, hhalf]
  split
  · rename_i hbelow
    refine ⟨⌊v⌋, rfl, .inl ?_⟩
    rwa [abs_of_nonneg (sub_nonneg.mpr hlow)]
  split
  · refine ⟨⌊v⌋ + 1, rfl, .inl ?_⟩
    rw [abs_lt]
    push_cast
    constructor <;> linarith
  have hv : v - ⌊v⌋ = 1 / 2 := le_antisymm (not_lt.mp ‹_›) (not_lt.mp ‹_›)
  split
  · rename_i heven
    refine ⟨⌊v⌋, rfl, .inr ⟨?_, Int.even_iff.mpr heven⟩⟩
    rw [hv, abs_of_pos one_half_pos]
  · rename_i hodd
    refine ⟨⌊v⌋ + 1, rfl, .inr ⟨?_, by grind⟩⟩
    have hup : v - (⌊v⌋ + 1 : ℤ) = -(1 / 2) := by
      push_cast
      linarith
    rw [hup, abs_neg, abs_of_pos one_half_pos]

end Scalar

namespace Cell

end Cell

def Segment.ends {α : Type} (s : Segment α) : List (Vec α) := [s.start, s.tip]

namespace Graph

variable {scale : ℝ} {past : List (Segment ℝ)} {w : World ℝ} {g : Graph ℝ}

end Graph
end Arboretum
