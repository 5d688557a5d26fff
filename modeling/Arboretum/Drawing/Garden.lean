import Arboretum.Drawing.Plant
import Arboretum.Garden

/-!
Drawings of a whole garden, from back to front: sky, ground, plants, and over them what is asked for
of the structure of the world, the pointer's fields and the status text.
-/
namespace Arboretum.Drawing

variable {α : Type} [Scalar α]

def ground (width height groundY : α) : Drawing α :=
  [.rect soil ⟨0, groundY⟩ ⟨width, height - groundY⟩]

/-- Every spring and every point of a world. -/
def structureOf (w : World α) : Except Fault (Drawing α) := do
  let springs ← w.springs.toList.mapM fun serial =>
    match w.links[serial]? with
    | some l => do
      let a ← w.particle l.a
      let b ← w.particle l.b
      pure (Command.line springColour a.position b.position 1)
    | none => .error (.removedPoint serial)
  let points ← w.bodies.toList.mapM fun id => do
    let p ← w.particle id
    pure (Command.circle (if p.pinned then pinnedColour else freeColour) p.position 2.0 0)
  return springs ++ points

/-- The reach of a pointer's field, in whole pixels. -/
def attractor (s : Pull α) : Except Fault (Drawing α) := do
  let radius ← Scalar.truncate s.radius
  let r : α := (radius : α)
  return [disc attractorFill radius ⟨s.centre.x - r, s.centre.y - r⟩,
    .circle attractorColour s.centre r 1]

/-- Lines of text, down from the upper left corner. -/
def status (lines : List String) : Drawing α :=
  lines.mapIdx fun i line => .text line white ⟨10.0, 10.0 + (i : α) * 20.0⟩

/-- What is drawn over the plants. -/
structure Overlay (α : Type) where
  font : Bool
  debug : Bool
  attractors : List (Pull α)
  lines : List String

/-- Draws a garden on a surface of its size. -/
def garden (o : Overlay α) : Garden.Tending α (Drawing α) := do
  let g ← Action.read
  let frames ← Garden.frames
  let plants ← Action.ofExcept (frames.mapM plant)
  let inner ← if o.debug then Action.ofExcept (structureOf g.world) else pure []
  let fields ← Action.ofExcept (o.attractors.mapM attractor)
  return [.fill background] ++ ground g.width g.height g.groundY ++ plants.flatten ++ inner ++
    fields.flatten ++ (if o.font then status o.lines else [])

end Arboretum.Drawing
