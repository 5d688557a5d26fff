import Arboretum.Action
import Arboretum.Geometry
import Arboretum.Note

namespace Arboretum

/-- Attraction by a pointer: a field at the pointer, while it is enabled and held down. -/
structure Attractor (α : Type) where
  enabled : Bool
  held : Bool
  spot : Vec α
  cap : α
  strength : α
  radius : α

namespace Attractor

variable {α : Type} [Scalar α]

def boundStrength (s : α) : α := Scalar.clamp s 0.0001 0.5
def boundRadius (r : α) : α := Scalar.clamp r 10.0 200.0

def new (strength radius cap : α) : Attractor α :=
  ⟨true, false, ⟨0, 0⟩, cap, boundStrength strength, boundRadius radius⟩

def default : Attractor α := new Pull.defaultStrength Pull.defaultRadius Pull.defaultCap

def move (spot : Vec α) (a : Attractor α) : Attractor α := { a with spot }

def press (spot : Vec α) (a : Attractor α) : Attractor α := { a with held := a.enabled, spot }

def release (a : Attractor α) : Attractor α := { a with held := false }

def setStrength (s : α) : Action (Note α) (Attractor α) Unit := do
  Action.modify fun a => { a with strength := boundStrength s }
  Action.note (.attractorStrength (boundStrength s))

def setRadius (r : α) : Action (Note α) (Attractor α) Unit := do
  Action.modify fun a => { a with radius := boundRadius r }
  Action.note (.attractorRadius (boundRadius r))

/-- Disabling lets go as well. -/
def toggle : Action (Note α) (Attractor α) Bool := do
  let a ← Action.read
  let enabled := !a.enabled
  Action.modify fun a => { a with enabled, held := enabled && a.held }
  Action.note (.attractorEnabled enabled)
  return enabled

def sources (a : Attractor α) : List (Pull α) :=
  if a.enabled && a.held then [⟨a.spot, a.radius, a.strength, a.cap⟩] else []

end Attractor
end Arboretum
