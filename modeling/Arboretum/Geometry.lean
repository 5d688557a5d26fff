import Arboretum.Power
import Arboretum.Vec

namespace Arboretum

open Scalar

variable {α : Type} [Scalar α]

/-- Maps one interval onto another in proportion, beyond its ends too. An interval of no length goes
to the start of the other. -/
def remap (value inLow inHigh outLow outHigh : α) : α :=
  if inHigh == inLow then outLow
  else outLow + (value - inLow) * (outHigh - outLow) / (inHigh - inLow)

/-- The radicand of the side opposite an angle. -/
def oppositeSquare (a b angle : α) : α := a * a + b * b - 2.0 * a * b * cos angle

/-- The side opposite an angle of a triangle. Rounding can take the radicand of a flat triangle
below zero; such a triangle closes. -/
def oppositeSide (a b angle : α) : Except Fault α :=
  if isInfinite angle then .error .noDirection
  else .ok (sqrt (greatest 0 (oppositeSquare a b angle)))

/-- A square of the grid on which end points are compared. -/
structure Cell where
  x : Int
  y : Int
  deriving DecidableEq, Repr

namespace Cell

/-- How many grid lines there are to a unit, for a number of decimals. -/
def linesPerUnit (decimals : Int) : Except Fault α :=
  if 0 ≤ decimals then ofInt (tenTo decimals.toNat)
  else .ok (OfScientific.ofScientific 1 true decimals.natAbs)

def quantise (lines : α) (p : Vec α) : Except Fault Cell := do
  let x ← nearest (p.x * lines)
  let y ← nearest (p.y * lines)
  return ⟨x, y⟩

/-- The cell of a point of a plant: two decimals tell end points apart. -/
def of (p : Vec α) : Except Fault Cell := quantise 100.0 p

end Cell
end Arboretum
