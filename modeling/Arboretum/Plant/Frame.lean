import Arboretum.Plant

/-!
What there is to draw of a plant: positions only, no handles.
-/
namespace Arboretum

structure SegmentView (α : Type) where
  start : Vec α
  tip : Vec α
  depth : Int
  thickness : α
  colour : Colour
  /-- How much of it is revealed, from 0 to 1. -/
  growth : α
  /-- No other built segment starts where this one ends. -/
  isTip : Bool

structure FruitView (α : Type) where
  position : Vec α
  size : α
  colour : Colour
  growth : α

structure Frame (α : Type) where
  id : Int
  kind : String
  growth : α
  stemThickness : α
  leafColour : Colour
  segments : List (SegmentView α)
  fruits : List (FruitView α)

namespace Plant

variable {α : Type} [Scalar α]

/-- The strands alive, by depth; within one depth they keep their order. -/
def strandsByDepth (w : World α) (p : Plant α) : List (Int × Nat × Segment α) :=
  (p.graph.strands.filter fun s => w.springIsAlive s.2.1).mergeSort
    fun s t => s.2.2.depth ≤ t.2.2.depth

def viewSegment (w : World α) (p : Plant α) (starts : List Cell) :
    Int × Nat × Segment α → Except Fault (SegmentView α)
  | (index, serial, s) => do
    let ends ← match w.links[serial]? with
      | some l => do
        let a ← w.particle l.a
        let b ← w.particle l.b
        pure (a.position, b.position)
      | none => .error (.removedPoint serial)
    let growth ← p.growth.segmentRatio index
    let tip ← Cell.of s.tip
    return {
      start := ends.1
      tip := ends.2
      depth := s.depth
      thickness := p.stemThickness * s.thickness
      colour := s.colour
      growth
      isTip := !starts.contains tip }

def viewFruit (w : World α) (p : Plant α) (h : Hanging α) : Option (FruitView α) :=
  (w.particle? h.point).map fun row =>
    ⟨row.position, h.fruit.size * p.scale, h.fruit.colour, p.growth.fruitRatio⟩

def frame (w : World α) (p : Plant α) : Except Fault (Frame α) := do
  Drill.check p.drill.frame
  p.checkAlive "drawn"
  let strands := p.strandsByDepth w
  let starts ← strands.mapM fun s => Cell.of s.2.2.start
  let segments ← strands.mapM (p.viewSegment w starts)
  return {
    id := p.id
    kind := p.kind
    growth := p.growth.growth
    stemThickness := p.stemThickness
    leafColour := p.grammar.leafColour
    segments
    fruits := p.graph.hangings.filterMap (p.viewFruit w) }

end Plant
end Arboretum
