import Arboretum.Power
import Arboretum.Scalar

/-!
Machine numbers as the numbers of the simulation. What an operation of the machine does not give is
computed from the exact value of a number, an integer times a power of two, and rounded once.
-/
namespace Arboretum.Binary64

open Float.Model (UnpackedFloat)

/-- The largest integer that is not above `n * 2 ^ e`. -/
def floorScaled (n : Int) (e : Int) : Int :=
  if 0 ≤ e then n * twoTo e.toNat else n / twoTo (-e).toNat

def floor (x : Float) : Except Fault Int :=
  match x.toModel.unpack with
  | .notANumber => .error .notANumber
  | .infinity _ => .error .infinite
  | .zero _ => .ok 0
  | .finite s m e _ => .ok (floorScaled (s.apply m) e)

/-- Brings two scaled magnitudes to the smaller of their exponents. -/
def align (m : Nat) (e : Int) (n : Nat) (f : Int) : Nat × Nat × Int :=
  let g := min e f
  (m * twoTo (e - g).toNat, n * twoTo (f - g).toNat, g)

def ofScaled (negative : Bool) (m : Nat) (e : Int) : Float :=
  let sign : UnpackedFloat.Sign := if negative then .negative else .positive
  let rounded := if m = 0 then UnpackedFloat.zero sign else UnpackedFloat.round .binary64 sign m e
  ⟨Float.Model.pack rounded⟩

/-- The length of the hypotenuse, correctly rounded: the squares are summed exactly. -/
def hypot (x y : Float) : Float :=
  match x.toModel.unpack, y.toModel.unpack with
  | .infinity _, _ => 1.0 / 0.0
  | _, .infinity _ => 1.0 / 0.0
  | .notANumber, _ => x
  | _, .notANumber => y
  | .zero _, _ => y.abs
  | _, .zero _ => x.abs
  | .finite _ m e _, .finite _ n f _ =>
    let (a, b, g) := align m e n f
    if positive : 0 < a * a + b * b then
      ⟨Float.Model.pack
        (UnpackedFloat.sqrt .binary64 (.finite .positive (a * a + b * b) (2 * g) positive))⟩
    else 0.0

/-- The remainder that takes the sign of the dividend; it is always exact. -/
def remainder (x y : Float) : Float :=
  match x.toModel.unpack, y.toModel.unpack with
  | .notANumber, _ | _, .notANumber | .infinity _, _ | _, .zero _ => 0.0 / 0.0
  | _, .infinity _ | .zero _, _ => x
  | .finite _ m e _, .finite _ n f _ =>
    let (a, b, g) := align m e n f
    ofScaled (x < 0.0) (a % b) g

def floorMod (x y : Float) : Float :=
  let r := remainder x y
  if r == 0.0 then (if y < 0.0 then -0.0 else 0.0)
  else if (y < 0.0) == (r < 0.0) then r
  else r + y

/-- The quotient that goes with `floorMod`, as a whole number. -/
def floorDiv (x y : Float) : Except Fault Int := do
  let r := remainder x y
  let q := (x - r) / y
  let q := if r == 0.0 || (y < 0.0) == (r < 0.0) then q else q - 1.0
  let whole ← floor q
  return if 0.5 < q - Float.ofInt whole then whole + 1 else whole

instance : Scalar Float where
  natCast := Float.ofNat
  intCast := Float.ofInt
  one := 1.0
  decidableLT := inferInstance
  decidableLE := inferInstance
  pi := 3.141592653589793
  sqrt := Float.sqrt
  sin := Float.sin
  cos := Float.cos
  atan2 := Float.atan2
  hypot := hypot
  floorMod := floorMod
  floor := floor

end Arboretum.Binary64
