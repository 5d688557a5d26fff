import Arboretum.Force.Pull
import Arboretum.World.Structure

namespace Arboretum.World

variable {α : Type} [Scalar α]

/-- Those of some points that are alive and not pinned, with their rows. -/
def free (w : World α) (points : List Nat) : List (Nat × Particle α) :=
  points.filterMap fun id =>
    match w.particle? id with
    | some p => if p.pinned then none else some (id, p)
    | none => none

/-- Adds forces to points. -/
def pushAll (pushes : List (Nat × Vec α)) : Action (Note α) (World α) Unit := do
  let _ ← Action.forEach pushes fun (id, force) => do
    let w ← Action.read
    push (some (w.point id)) force

/-- The points that some fields move, with the force on each. -/
def pulls (w : World α) (points : List Nat) (sources : List (Pull α)) : List (Nat × Vec α) :=
  ((w.free points).map fun (id, p) => (id, Pull.total sources p.position)).filter
    fun (_, f) => !(f.x == 0) || !(f.y == 0)

/-- Lets fields act on points; returns how many were moved. Fields without a radius are remarked
on. -/
def pull (points : List Nat) (sources : List (Pull α)) : Action (Note α) (World α) Nat := do
  let w ← Action.read
  if (w.free points).isEmpty || sources.isEmpty then return 0
  let _ ← Action.forEach (sources.filter Pull.isVoid) fun s => Action.note (.pullIgnored s)
  let pushes := w.pulls points sources
  pushAll pushes
  return pushes.length

end Arboretum.World
