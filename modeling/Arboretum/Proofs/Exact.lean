import Mathlib.Data.Real.Basic
import Arboretum.Geometry
import Arboretum.Proofs.Action
import Mathlib.Analysis.SpecialFunctions.Complex.Arg
import Mathlib.Analysis.SpecialFunctions.Sqrt

/-!
Exact arithmetic: the real numbers as the numbers of the simulation. None of them is missing or
infinite, and nothing is rounded.
-/
namespace Arboretum

noncomputable instance : Scalar ℝ where
  decidableLT := inferInstance
  decidableLE := inferInstance
  beq a b := decide (a = b)
  pi := Real.pi
  sqrt := Real.sqrt
  sin := Real.sin
  cos := Real.cos
  atan2 y x := Complex.arg ⟨x, y⟩
  hypot x y := √(x ^ 2 + y ^ 2)
  floorMod a b := a - b * ⌊a / b⌋
  floor a := .ok ⌊a⌋

namespace Scalar

theorem abs_real (a : ℝ) : Scalar.abs a = |a| := by
  unfold Scalar.abs
  split
  · rename_i h
    exact (abs_of_neg h).symm
  · rename_i h
    exact (abs_of_nonneg (not_lt.mp h)).symm

theorem greatest_real (a b : ℝ) : greatest a b = max a b := by
  unfold greatest
  split
  · rename_i h
    exact (max_eq_right h.le).symm
  · rename_i h
    exact (max_eq_left (not_lt.mp h)).symm

theorem least_real (a b : ℝ) : least a b = min a b := by
  unfold least
  split
  · rename_i h
    exact (min_eq_right h.le).symm
  · rename_i h
    exact (min_eq_left (not_lt.mp h)).symm

theorem clamp_real (a low high : ℝ) : clamp a low high = max low (min high a) := by
  rw [clamp, greatest_real, least_real]

section
variable {a b low high : ℝ}

theorem clamp_mem (h : low ≤ high) (a : ℝ) : clamp a low high ∈ Set.Icc low high := by
  rw [clamp_real]
  exact ⟨le_max_left _ _, max_le h (min_le_left _ _)⟩

theorem clamp_mono (h : a ≤ b) : clamp a low high ≤ clamp b low high := by
  rw [clamp_real, clamp_real]
  exact max_le_max_left low (min_le_min_left high h)

theorem clamp_of_mem (hlow : low ≤ a) (hhigh : a ≤ high) : clamp a low high = a := by
  rw [clamp_real, min_eq_right hhigh, max_eq_right hlow]

theorem clamp_of_le (h : a ≤ low) : clamp a low high = low := by
  rw [clamp_real, max_eq_left ((min_le_right _ _).trans h)]

theorem clamp_of_ge (hrange : low ≤ high) (h : high ≤ a) : clamp a low high = high := by
  rw [clamp_real, min_eq_left h, max_eq_right hrange]

end

/-- The remainder of a division by one is what follows the point. -/
theorem floorMod_one_real (a : ℝ) : floorMod a 1 = Int.fract a := by
  have hmod : floorMod a 1 = a - 1 * ⌊a / 1⌋ := rfl
  rw [hmod, div_one, one_mul]
  rfl

theorem isNaN_real (a : ℝ) : isNaN a = false := by
  simp [isNaN]

theorem isInfinite_real (a : ℝ) : isInfinite a = false := by
  simp [isInfinite, isNaN_real]

/-- Every integer is a number. -/
theorem ofInt_real (n : Int) : ofInt n = .ok (n : ℝ) := by
  simp [ofInt, isInfinite_real]

/-- A whole number is the nearest to itself. -/
theorem nearest_intCast (n : ℤ) : nearest (n : ℝ) = .ok n := by
  have hfloor : floor (n : ℝ) = .ok n := congrArg Except.ok (Int.floor_intCast n)
  unfold nearest
  rw [hfloor]
  norm_num [bind, Except.bind]
  rfl

end Scalar

/-- An interval of some length is mapped in proportion. -/
theorem remap_real {inLow inHigh : ℝ} (h : inHigh ≠ inLow) (value outLow outHigh : ℝ) :
    remap value inLow inHigh outLow outHigh =
      outLow + (value - inLow) * (outHigh - outLow) / (inHigh - inLow) := by
  simp [remap, h]

/-! ### Readings that cannot fail -/

namespace Gives

theorem floor (a : ℝ) : Gives (Scalar.floor a) := ok ⌊a⌋

theorem truncate (a : ℝ) : Gives (Scalar.truncate a) := by
  unfold Scalar.truncate
  split
  · exact (floor _).map _
  · exact floor a

theorem nearest (a : ℝ) : Gives (Scalar.nearest a) := by
  refine (floor a).bind fun below => ?_
  dsimp only
  split
  · exact ok _
  · split
    · exact ok _
    · exact ok _

end Gives

/-- Every place has a cell. -/
theorem Cell.gives_of (p : Vec ℝ) : Gives (Cell.of p) :=
  .bind (.nearest _) fun _ => .bind (.nearest _) fun _ => .ok _

/-- A unit is a hundred cells wide. -/
theorem Cell.of_whole (m n : ℤ) : Cell.of (⟨m, n⟩ : Vec ℝ) = .ok ⟨m * 100, n * 100⟩ := by
  have hlines (k : ℤ) : Scalar.nearest ((k : ℝ) * 100.0) = .ok (k * 100) := by
    rw [← Scalar.nearest_intCast]
    norm_num
  unfold Cell.of Cell.quantise
  rw [hlines, hlines]
  rfl

namespace Vec

theorem distance_real (p q : Vec ℝ) :
    p.distance q = √((q.x - p.x) ^ 2 + (q.y - p.y) ^ 2) := rfl

/-- Two points are at least as far apart as their shadows on an axis. -/
theorem abs_le_distance (p q : Vec ℝ) :
    |q.x - p.x| ≤ p.distance q ∧ |q.y - p.y| ≤ p.distance q := by
  rw [distance_real]
  exact ⟨Real.abs_le_sqrt (le_add_of_nonneg_right (sq_nonneg _)),
    Real.abs_le_sqrt (le_add_of_nonneg_left (sq_nonneg _))⟩

end Vec
end Arboretum
