import Arboretum.Colour
import Arboretum.Geometry

namespace Arboretum

/-- What is drawn on a surface, in order. A filled circle has the width 0. -/
inductive Command (α : Type) where
  | fill (colour : Colour)
  | rect (colour : Colour) (corner : Vec α) (size : Vec α)
  | line (colour : Colour) (start tip : Vec α) (width : Int)
  | polygon (colour : Colour) (points : List (Vec α))
  | circle (colour : Colour) (centre : Vec α) (radius : α) (width : Int)
  /-- Copies a transparent surface, which holds what was drawn on it. -/
  | stamp (width height : Int) (drawn : List (Command α)) (corner : Vec α)
  | text (text : String) (colour : Colour) (corner : Vec α)

abbrev Drawing (α : Type) : Type := List (Command α)

namespace Drawing

def white : Colour := [255, 255, 255]
def background : Colour := [12, 14, 24]
def soil : Colour := [40, 32, 24]
def springColour : Colour := [100, 200, 255]
def pinnedColour : Colour := [255, 100, 100]
def freeColour : Colour := [255, 255, 100]
def attractorColour : Colour := [0, 255, 255]
def attractorFill : Colour := [0, 255, 255, 40]
def highlightColour : Colour := [255, 255, 255, 100]

variable {α : Type} [Scalar α]

/-- A filled disc on a transparent square that it just fits. -/
def disc (colour : Colour) (radius : Int) (corner : Vec α) : Command α :=
  let r : α := (radius : α)
  .stamp (2 * radius) (2 * radius) [.circle colour ⟨r, r⟩ r 0] corner

end Drawing
end Arboretum
