import Arboretum.Drawing
import Arboretum.Plant.Frame

/-!
Drawings of plants. Segments come in the order of the frame, grown tips of deep branches end in a
leaf, and fruits come last.
-/
namespace Arboretum.Drawing

variable {α : Type} [Scalar α]

/-- The width of a line in whole pixels, one at least. -/
def lineWidth (thickness : α) : Except Fault Int := (Scalar.nearest thickness).map (max 1)

/-- A small diamond that points on from a parent to a tip. -/
def leaf (colour : Colour) (tip parent : Vec α) : Drawing α :=
  let angle := Scalar.atan2 (tip.y - parent.y) (tip.x - parent.x)
  let corner (angle side : α) : Vec α :=
    ⟨tip.x + Scalar.cos angle * side, tip.y + Scalar.sin angle * side⟩
  let sideAngle := Scalar.pi / 4.0
  [.polygon colour
    [tip, corner (angle + sideAngle) 8.0, corner angle 18.0, corner (angle - sideAngle) 8.0]]

/-- A fruit with a highlight to its upper right; one of less than a pixel's radius is not drawn. -/
def fruit (f : FruitView α) : Except Fault (Drawing α) := do
  let size := f.size * f.growth
  let radius := size / 2.0
  if radius < 1 then return []
  let shine ← Scalar.truncate (size * 0.3 / 2.0)
  let shine := max 1 shine
  let offset := size * 0.2
  let corner : Vec α :=
    ⟨f.position.x + offset - (shine : α), f.position.y - offset - (shine : α)⟩
  return [.circle f.colour f.position radius 0, disc highlightColour shine corner]

/-- From this growth on tips have leaves. -/
def leafReveal : α := 0.8

def leafDepth : Int := 2

/-- A segment tapers with its depth. One that is not fully revealed reaches out from its start. -/
def segment (leaves : Bool) (leafColour : Colour) (s : SegmentView α) :
    Except Fault (Drawing α) := do
  if s.growth ≤ 0 then return []
  let depth : α ← Scalar.ofInt s.depth
  let taper := Scalar.greatest (remap depth 0 5.0 1 0.3) 0
  let width ← lineWidth (s.thickness * taper * s.growth)
  if 1 ≤ s.growth then
    let stroke : Drawing α := [.line s.colour s.start s.tip width]
    return if leaves && s.isTip && leafDepth ≤ s.depth then stroke ++ leaf leafColour s.tip s.start
      else stroke
  else
    let t := Scalar.clamp s.growth 0 1
    let reached : Vec α :=
      ⟨s.start.x + (s.tip.x - s.start.x) * t, s.start.y + (s.tip.y - s.start.y) * t⟩
    return [.line s.colour s.start reached width]

def plant (f : Frame α) : Except Fault (Drawing α) := do
  let leaves := decide (leafReveal < f.growth)
  let segments ← f.segments.mapM (segment leaves f.leafColour)
  let fruits ← if Growth.fruitReveal < f.growth then f.fruits.mapM fruit else pure []
  return segments.flatten ++ fruits.flatten

end Arboretum.Drawing
