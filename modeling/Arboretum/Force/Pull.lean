import Arboretum.Vec

/-!
Radial fields. A field pulls the points within its radius towards its centre, the harder the nearer
they are, up to a cap. A point that sits on the centre is pushed upward, having no direction to it.
-/
namespace Arboretum

structure Pull (α : Type) where
  centre : Vec α
  radius : α
  strength : α
  cap : α

namespace Pull

variable {α : Type} [Scalar α]

def defaultRadius : α := 60.0
def defaultStrength : α := 0.2
def defaultCap : α := 0.1

/-- Nearer than this a point sits on the centre. -/
def leastDistance : α := 0.000001

def magnitude (s : Pull α) (distance : α) : α :=
  Scalar.lower (s.strength * (1 - distance / s.radius)) s.cap

def direction (s : Pull α) (p : Vec α) : Vec α :=
  let delta := s.centre - p
  if delta.norm ≤ leastDistance then ⟨0, -1⟩ else delta.divideBy delta.norm

/-- The force on a point within the radius. -/
def forceAt (s : Pull α) (p : Vec α) : Option (Vec α) :=
  let distance := (s.centre - p).norm
  if distance < s.radius then some ((s.direction p).scale (s.magnitude distance)) else none

/-- A field without a radius has no effect. -/
def isVoid (s : Pull α) : Bool := s.radius ≤ 0

/-- The sum of what some fields do to a point. -/
def total (sources : List (Pull α)) (p : Vec α) : Vec α :=
  sources.foldl (fun sum s =>
    if s.isVoid then sum
    else match s.forceAt p with
      | some force => sum + force
      | none => sum) 0

end Pull
end Arboretum
