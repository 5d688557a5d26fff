import Arboretum.Geometry

/-!
Masses and stiffnesses of a plant's body. Deeper branches are lighter and softer, thicker ones
heavier and stiffer; a tip is always lighter than its joint.
-/
namespace Arboretum

variable {α : Type} [Scalar α]

/-- What lies between two values as the depth goes from 0 to 10, and on beyond. -/
def byDepth (depth shallow deep : α) : α := remap depth 0 10.0 shallow deep

def jointMass (depth thickness : α) : α :=
  Scalar.greatest 0.01 (byDepth depth 2.0 0.2 * thickness)

def tipMass (depth thickness : α) : α :=
  Scalar.greatest 0.01 (byDepth depth 0.5 0.05 * thickness)

def strandStiffness (depth thickness : α) : α :=
  Scalar.greatest 0.001 (byDepth depth 0.25 0.05 * thickness)

def braceStiffness (depth : α) : α := Scalar.greatest 0 (byDepth depth 0.0025 0.0005)

end Arboretum
