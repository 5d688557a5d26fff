import Arboretum.Colour
import Arboretum.Vec

namespace Arboretum

/-- One drawn edge of a plant's skeleton, in the plant's own coordinates; y grows downward. -/
structure Segment (α : Type) where
  start : Vec α
  tip : Vec α
  /-- How many branches were open when it was drawn. -/
  depth : Int
  /-- Relative to the thickness of the plant's stem. -/
  thickness : α
  heading : α
  colour : Colour
  isRoot : Bool

def Segment.length {α : Type} [Scalar α] (s : Segment α) : α := s.start.distance s.tip

structure Fruit (α : Type) where
  position : Vec α
  size : α
  colour : Colour
  heading : α

end Arboretum
