import Arboretum.Proofs.Exact

/-!
What arithmetic that rounds has in common with exact arithmetic.
-/
namespace Arboretum

/-- Numbers of which the order, the sums of what is not negative, and the signs of products and
lengths can be relied on. -/
class Scalar.Lawful (α : Type) [Scalar α] : Prop where
  le_trans {a b c : α} : a ≤ b → b ≤ c → a ≤ c
  le_of_lt {a b : α} : a < b → a ≤ b
  /-- Whatever can be compared is a number, and equal to itself. -/
  le_self {a b : α} : a ≤ b → a ≤ a ∧ b ≤ b
  zero_lt_one : (0 : α) < 1
  le_add {a b : α} : 0 ≤ a → 0 ≤ b → a ≤ a + b
  not_mul_lt_zero {a b : α} : ¬ a < 0 → 0 < b → ¬ a * b < 0
  not_hypot_lt_zero (x y : α) : ¬ Scalar.hypot x y < 0

instance : Scalar.Lawful ℝ where
  le_trans := le_trans
  le_of_lt := le_of_lt
  le_self _ := ⟨le_refl _, le_refl _⟩
  zero_lt_one := zero_lt_one
  le_add _ h := le_add_of_nonneg_right h
  not_mul_lt_zero ha hb := not_lt.mpr (mul_nonneg (not_lt.mp ha) hb.le)
  not_hypot_lt_zero _ _ := not_lt.mpr (Real.sqrt_nonneg _)

/-- Numbers that keep their order when each is taken from the same number, of which none is above an
infinite one less a finite one, and of which the larger has the larger share of a whole. -/
class Scalar.Ordered (α : Type) [Scalar α] : Prop where
  not_lt_of_le {a b : α} : a ≤ b → ¬ b < a
  le_of_not_lt {a b : α} : a ≤ a → b ≤ b → ¬ b < a → a ≤ b
  sub_le_sub {a b c : α} : 0 ≤ a → a ≤ b → b ≤ c → Scalar.isInfinite c = false → c - b ≤ c - a
  le_infinite_sub {a c x : α} : 0 ≤ c → Scalar.isInfinite c → 0 ≤ a → Scalar.isInfinite a = false →
    x ≤ x → x ≤ c - a
  floor_mul {a b : α} {n : Nat} {t : Int} : 0 ≤ a → a ≤ b → Scalar.floor (b * (n : α)) = .ok t →
    ∃ s ≤ t, Scalar.floor (a * (n : α)) = .ok s
  floor_one_mul (n : Nat) : Scalar.floor (1 * (n : α)) = Scalar.floor (n : α)

instance : Scalar.Ordered ℝ where
  not_lt_of_le := not_lt_of_ge
  le_of_not_lt _ _ := not_lt.mp
  sub_le_sub _ h _ _ := sub_le_sub_left h _
  le_infinite_sub _ h _ _ _ := by simp [Scalar.isInfinite_real] at h
  floor_mul := by
    intro a b n t _ h ht
    have hle : ⌊a * (n : ℝ)⌋ ≤ ⌊b * (n : ℝ)⌋ :=
      Int.floor_le_floor (mul_le_mul_of_nonneg_right h (Nat.cast_nonneg n))
    exact ⟨_, hle.trans_eq (Except.ok.inj ht), rfl⟩
  floor_one_mul n := congrArg Scalar.floor (one_mul (n : ℝ))

/-- Numbers of which no square root is below zero. -/
class Scalar.Rooted (α : Type) [Scalar α] : Prop where
  not_sqrt_lt_zero (a : α) : ¬ Scalar.sqrt a < 0

instance : Scalar.Rooted ℝ where
  not_sqrt_lt_zero a := not_lt.mpr (Real.sqrt_nonneg a)

end Arboretum
