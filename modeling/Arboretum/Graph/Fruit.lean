import Arboretum.Graph
import Arboretum.Quadtree

namespace Arboretum.Graph

variable {α : Type} [Scalar α]

def fruitMass : α := 0.3
def fruitStiffness : α := 0.025

/-- The joints alive, with their positions now. -/
def anchors (w : World α) (g : Graph α) : List (Vec α × Nat) :=
  g.joints.filterMap fun j => (w.particle? j.2).map fun p => (p.position, j.2)

/-- Hangs a fruit from the nearest of the indexed joints by a soft spring. -/
def hang (index : PointIndex α Nat) (f : Fruit α) : Build α (Option (Hanging α)) := do
  let (_, g) ← reading
  let spot := g.toWorld f.position
  match index.nearest spot PointIndex.defaultHalf with
  | none =>
    Action.note (.fruitUnhung spot)
    return none
  | some (_, joint) =>
    let point ← inWorld (World.addPoint spot fruitMass false)
    let (w, _) ← reading
    let made ← inWorld (World.addSpring (some (w.point joint)) (some (w.point point))
      fruitStiffness (some (f.size * g.scale * 1.2)) World.defaultDamping)
    match made with
    | none =>
      let (w, _) ← reading
      let _ ← inWorld (World.removePoint (some (w.point point)))
      return none
    | some spring =>
      let hanging : Hanging α := ⟨f, point, spring⟩
      record fun g => { g with hangings := g.hangings ++ [hanging] }
      return some hanging

/-- Hangs fruits; returns those that hang, in order. -/
def hangAll (fruits : List (Fruit α)) : Build α (List (Hanging α)) := do
  if fruits.isEmpty then return []
  let (w, g) ← reading
  if g.joints.isEmpty then
    Action.note (.nothingToHangFrom fruits.length)
    return []
  let anchors := g.anchors w
  let box ← Action.ofExcept (Box.around 1 (anchors.map (·.1)))
  let index ← Action.ofExcept ((PointIndex.empty box PointIndex.defaultCapacity).insertAll anchors)
  let hangings ← Action.forEach fruits (hang index)
  return hangings.filterMap id

end Arboretum.Graph
