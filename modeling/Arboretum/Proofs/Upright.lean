import Arboretum.Proofs.Binary64.Order

namespace Arboretum

/-- Binary floating point with the cosine and the sine of a stem that heads straight up, and of no
other heading, so that plantings can be worked out. -/
def Upright : Type := Float

namespace Upright

def up : Float := -3.141592653589793 / 2.0
def lost : Float := 0.0 / 0.0

instance : Scalar Upright :=
  { (inferInstance : Scalar Float) with
    cos := fun heading : Float => if heading == up then (6.123233995736766e-17 : Float) else lost
    sin := fun heading : Float => if heading == up then (-1.0 : Float) else lost }

/-! What no cosine or sine has a part in is as in floating point. -/

instance : Scalar.Lawful Upright where
  le_trans := Scalar.Lawful.le_trans (α := Float)
  le_of_lt := Scalar.Lawful.le_of_lt (α := Float)
  le_self := Scalar.Lawful.le_self (α := Float)
  zero_lt_one := Scalar.Lawful.zero_lt_one (α := Float)
  le_add := Scalar.Lawful.le_add (α := Float)
  not_mul_lt_zero := Scalar.Lawful.not_mul_lt_zero (α := Float)
  not_hypot_lt_zero := Scalar.Lawful.not_hypot_lt_zero (α := Float)

instance : Scalar.Ordered Upright where
  not_lt_of_le := Scalar.Ordered.not_lt_of_le (α := Float)
  le_of_not_lt := Scalar.Ordered.le_of_not_lt (α := Float)
  sub_le_sub := Scalar.Ordered.sub_le_sub (α := Float)
  le_infinite_sub := Scalar.Ordered.le_infinite_sub (α := Float)
  floor_mul := Scalar.Ordered.floor_mul (α := Float)
  floor_one_mul := Scalar.Ordered.floor_one_mul (α := Float)

end Upright
end Arboretum
