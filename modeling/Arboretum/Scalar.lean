import Arboretum.Fault

/-!
The numbers of the simulation. Every rule of the library is written over `Scalar`, so that it runs
on machine numbers and can be reasoned about in exact arithmetic. Nothing is assumed of the
operations: where a comparison fails (as it does for what is not a number), the picks below say
which of the two arguments wins.
-/
namespace Arboretum

class Scalar (α : Type) extends Add α, Sub α, Mul α, Div α, Neg α, Zero α, One α, NatCast α,
    IntCast α, OfScientific α, LT α, LE α, BEq α where
  decidableLT : DecidableLT α
  decidableLE : DecidableLE α
  pi : α
  sqrt : α → α
  sin : α → α
  cos : α → α
  atan2 : α → α → α
  hypot : α → α → α
  /-- The remainder that takes the sign of the divisor. -/
  floorMod : α → α → α
  /-- The largest integer that is not above a number, for a number that has one. -/
  floor : α → Except Fault Int

/-- Numbers that can be written down: the fewest digits that read back. -/
class Written (α : Type) where
  text : α → String

namespace Scalar

variable {α : Type} [Scalar α]

instance : DecidableLT α := decidableLT
instance : DecidableLE α := decidableLE

/-- What is not a number is the one thing that differs from itself. -/
def isNaN (a : α) : Bool := !(a == a)

/-- An infinite number is one whose difference with itself is not a number. -/
def isInfinite (a : α) : Bool := !isNaN a && isNaN (a - a)

def abs (a : α) : α := if a < 0 then -a else a

/-- The smaller of two numbers; the first unless the second is below it. -/
def least (a b : α) : α := if b < a then b else a

/-- The larger of two numbers; the first unless the second is above it. -/
def greatest (a b : α) : α := if a < b then b else a

def clamp (value low high : α) : α := greatest low (least high value)

/-- The larger of two numbers, or whichever of them is not a number. -/
def upper (a b : α) : α := if b ≤ a then a else if isNaN a then a else b

/-- The smaller of two numbers, or whichever of them is not a number. -/
def lower (a b : α) : α := if a ≤ b then a else if isNaN a then a else b

/-- Moves a number to the nearer end of an interval that it lies outside of. What is not a number
stays. -/
def confine (low high a : α) : α :=
  let raised := if isNaN a then a else if low < a then a else low
  if isNaN raised then raised else if raised < high then raised else high

/-- The integer next to zero among the two around a number. -/
def truncate (a : α) : Except Fault Int :=
  if a < 0 then (floor (-a)).map Int.neg else floor a

/-- The nearest integer; halfway between two, the even one. -/
def nearest (a : α) : Except Fault Int := do
  let below ← floor a
  let rest := a - (below : α)
  if rest < 0.5 then return below
  else if 0.5 < rest then return below + 1
  else return if below % 2 = 0 then below else below + 1

/-- The sine and cosine of a heading; an infinite heading has none. -/
def direction (heading : α) : Except Fault (α × α) :=
  if isInfinite heading then .error .noDirection else .ok (cos heading, sin heading)

/-- An integer as a number, when it is within range. -/
def ofInt (n : Int) : Except Fault α :=
  if isInfinite (n : α) then .error .tooLarge else .ok (n : α)

/-- The quotient of two integers, when it is within range. Where the dividend is not, the whole part
of the quotient has more digits than a number keeps. -/
def quotient (n : Int) (d : Nat) : Except Fault α :=
  if isInfinite (n : α) then ofInt (n.tdiv d) else .ok ((n : α) / (d : α))

end Scalar
end Arboretum
