import Arboretum.Graph

namespace Arboretum.Graph

variable {α : Type} [Scalar α]

def dropSpring (serial : Nat) : Build α Unit := do
  let (w, _) ← reading
  if w.springIsAlive serial then
    let _ ← inWorld (World.removeSpring (some (w.spring serial)))

def dropPoint (id : Nat) : Build α Unit := do
  let (w, _) ← reading
  if w.isAlive id then
    let _ ← inWorld (World.removePoint (some (w.point id)))

/-- Removes every spring and point that the body keeps, and forgets them. -/
def release : Build α Unit := do
  let (_, g) ← reading
  let _ ← Action.forEach g.allSprings dropSpring
  let _ ← Action.forEach g.allPoints dropPoint
  record fun g => new g.origin g.scale

end Arboretum.Graph
