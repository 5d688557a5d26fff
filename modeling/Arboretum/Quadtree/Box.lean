import Arboretum.Vec

namespace Arboretum

/-- An upright box: its centre and half its width and height. -/
structure Box (α : Type) where
  centre : Vec α
  half : Vec α

namespace Box

variable {α : Type} [Scalar α]

open Scalar

/-- The left and upper edges belong to a box, the right and lower ones do not. -/
def contains (b : Box α) (p : Vec α) : Bool :=
  b.centre.x - b.half.x ≤ p.x && p.x < b.centre.x + b.half.x &&
    b.centre.y - b.half.y ≤ p.y && p.y < b.centre.y + b.half.y

def meets (a b : Box α) : Bool :=
  !(a.centre.x + a.half.x < b.centre.x - b.half.x ||
    b.centre.x + b.half.x < a.centre.x - a.half.x ||
    a.centre.y + a.half.y < b.centre.y - b.half.y ||
    b.centre.y + b.half.y < a.centre.y - a.half.y)

/-- The box of some points, grown by a padding so that its open edges leave none of them out. -/
def around (padding : α) : List (Vec α) → Except Fault (Box α)
  | [] => .error .noPoints
  | p :: ps =>
    let low : Vec α :=
      ps.foldl (fun low q => ⟨least low.x q.x, least low.y q.y⟩) p
    let high : Vec α :=
      ps.foldl (fun high q => ⟨greatest high.x q.x, greatest high.y q.y⟩) p
    .ok ⟨⟨(low.x + high.x) / 2.0, (low.y + high.y) / 2.0⟩,
      ⟨(high.x - low.x) / 2.0 + padding, (high.y - low.y) / 2.0 + padding⟩⟩

def quarter (b : Box α) (right down : α) : Box α :=
  let half : Vec α := ⟨b.half.x / 2.0, b.half.y / 2.0⟩
  ⟨⟨b.centre.x + right * half.x, b.centre.y + down * half.y⟩, half⟩

def upperRight (b : Box α) : Box α := b.quarter 1 (-1)
def upperLeft (b : Box α) : Box α := b.quarter (-1) (-1)
def lowerRight (b : Box α) : Box α := b.quarter 1 1
def lowerLeft (b : Box α) : Box α := b.quarter (-1) 1

end Box
end Arboretum
