import Arboretum.Scalar

namespace Arboretum

/-- How fast simulated time runs against real time. -/
inductive Speed where
  | quarter
  | half
  | normal
  | double
  | quadruple
  deriving DecidableEq, Repr

namespace Speed

def level : Speed → Nat
  | quarter => 0
  | half => 1
  | normal => 2
  | double => 3
  | quadruple => 4

def ofLevel? (n : Int) : Option Speed :=
  if n = 0 then some quarter
  else if n = 1 then some half
  else if n = 2 then some normal
  else if n = 3 then some double
  else if n = 4 then some quadruple
  else none

def factor {α : Type} [Scalar α] : Speed → α
  | quarter => 0.25
  | half => 0.5
  | normal => 1
  | double => 2.0
  | quadruple => 4.0

def text : Speed → String
  | quarter => "x0.25"
  | half => "x0.5"
  | normal => "x1.0"
  | double => "x2.0"
  | quadruple => "x4.0"

end Speed
end Arboretum
