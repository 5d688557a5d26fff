import Arboretum.Graph.Mass
import Arboretum.Skeleton
import Arboretum.World.Structure

/-!
The body of one plant in a world. End points of segments that fall into one cell share a point, the
joint of that cell. A segment becomes a strand between two joints, two segments that leave one joint
are held at their opening by a brace between their tips, and a fruit hangs from the nearest joint.
-/
namespace Arboretum

structure Hanging (α : Type) where
  fruit : Fruit α
  point : Nat
  spring : Nat

structure Graph (α : Type) where
  origin : Vec α
  scale : α
  /-- The joint of each cell, oldest first. -/
  joints : List (Cell × Nat)
  /-- The strand of each segment that has a number. -/
  strands : List (Int × Nat × Segment α)
  braces : List Nat
  hangings : List (Hanging α)
  /-- The pairs of points that have a brace, the smaller number first. -/
  braced : List (Nat × Nat)

namespace Graph

variable {α : Type} [Scalar α]

/-- What building works on: a world and a body in it. -/
abbrev Build (α ρ : Type) : Type := Action (Note α) (World α × Graph α) ρ

def new (origin : Vec α) (scale : α) : Graph α := ⟨origin, scale, [], [], [], [], []⟩

def toWorld (g : Graph α) (p : Vec α) : Vec α :=
  ⟨g.origin.x + p.x * g.scale, g.origin.y + p.y * g.scale⟩

def joint? (g : Graph α) (cell : Cell) : Option Nat :=
  (g.joints.find? fun j => j.1 == cell).map (·.2)

def allSprings (g : Graph α) : List Nat :=
  g.strands.map (·.2.1) ++ g.braces ++ g.hangings.map (·.spring)

def allPoints (g : Graph α) : List Nat := g.joints.map (·.2) ++ g.hangings.map (·.point)

/-- The points alive that are not pinned. -/
def movable (w : World α) (g : Graph α) : List Nat :=
  g.allPoints.filter fun id =>
    match w.particle? id with
    | some p => !p.pinned
    | none => false

/-- Writes an entry over the one of its key, or after the others. -/
def put {κ β : Type} [BEq κ] (key : κ) (value : β) : List (κ × β) → List (κ × β)
  | [] => [(key, value)]
  | (k, v) :: rest => if k == key then (k, value) :: rest else (k, v) :: put key value rest

def reading : Build α (World α × Graph α) := Action.read

def inWorld {ρ : Type} (x : Action (Note α) (World α) ρ) : Build α ρ := x.onFst

def record (f : Graph α → Graph α) : Build α Unit := Action.modify fun (w, g) => (w, f g)

/-- The joint of a cell, made if there is none yet. A joint that has to be fixed and is not is
pinned where it is. -/
def jointAt (cell : Cell) (spot : Vec α) (mass : α) (fixed : Bool) : Build α Nat := do
  let (w, g) ← reading
  match g.joint? cell with
  | none =>
    let id ← inWorld (World.addPoint spot mass fixed)
    record fun g => { g with joints := g.joints ++ [(cell, id)] }
    return id
  | some id =>
    if fixed then
      let p ← Action.ofExcept (w.particle id)
      if !p.pinned then inWorld (World.pin (w.point id))
    return id

/-- Builds the strand of a segment. Its tip sprouts from wherever its start has swayed to. Returns
the strand; a segment within one cell has none. -/
def materialize (s : Segment α) (index : Option Int) : Build α (Option Nat) := do
  let startCell ← Action.ofExcept (Cell.of s.start)
  let tipCell ← Action.ofExcept (Cell.of s.tip)
  if startCell = tipCell then
    Action.note (.segmentCollapsed index startCell)
    return none
  let (_, g) ← reading
  let depth : α ← Action.ofExcept (Scalar.ofInt s.depth)
  let start ← jointAt startCell (g.toWorld s.start) (jointMass depth s.thickness) s.isRoot
  let (w, _) ← reading
  let now ← Action.ofExcept (w.particle start)
  let spot : Vec α :=
    ⟨now.position.x + (s.tip.x - s.start.x) * g.scale,
     now.position.y + (s.tip.y - s.start.y) * g.scale⟩
  let tip ← jointAt tipCell spot (tipMass depth s.thickness) s.isRoot
  let (w, _) ← reading
  let made ← inWorld (World.addSpring (some (w.point start)) (some (w.point tip))
    (strandStiffness depth s.thickness) (some (s.length * g.scale)) World.defaultDamping)
  match made, index with
  | none, _ => Action.note (.segmentUnlinked index)
  | some serial, some i => record fun g => { g with strands := put i (serial, s) g.strands }
  | some _, none => pure ()
  return made

end Graph
end Arboretum
