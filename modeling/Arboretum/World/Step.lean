import Arboretum.World

/-!
One step of a world: the points move on with their velocity and acceleration, the springs are
relaxed a number of times, the velocity along each spring is damped, and the bounds hold the points.
The springs of a pass all see the positions at its start.
-/
namespace Arboretum

variable {α : Type} [Scalar α]

/-- The acceleration per unit of force and mass. -/
def forceScale : α := 20000.0

/-- Springs are never taken to be shorter than this. -/
def minLength : α := 0.000001

/-- Moves a point on by its last displacement and its acceleration; a pinned one stays. -/
def Particle.drift (s : Setting α) (dt : α) (p : Particle α) : Particle α :=
  let velocity := (p.position - p.previous).scale (1 - s.friction)
  let acceleration := s.gravity + (p.force.divideBy p.mass).scale forceScale
  let next := p.position + velocity + (acceleration.scale dt).scale dt
  { p with
    position := if p.pinned then p.position else next
    previous := p.position
    force := 0 }

/-- How readily a point gives way. -/
def Particle.yield (p : Particle α) : α := if p.pinned then 0 else 1 / p.mass

def Particle.shift (d : Vec α) (p : Particle α) : Particle α :=
  { p with position := p.position + d }

def Particle.shiftPrevious (d : Vec α) (p : Particle α) : Particle α :=
  { p with previous := p.previous + d }

def Particle.confine (b : Bounds α) (p : Particle α) : Particle α :=
  { p with position :=
    ⟨Scalar.confine b.low.x b.high.x p.position.x, Scalar.confine b.low.y b.high.y p.position.y⟩ }

/-- The parts of a spring's correction that its two ends take; none between two pinned ends. -/
structure Shares (α : Type) where
  a : α
  b : α

def Shares.between (p q : Particle α) : Shares α :=
  let total := p.yield + q.yield
  if 0 < total then ⟨p.yield / total, q.yield / total⟩ else ⟨0, 0⟩

/-- What a spring does to its ends in a pass. -/
structure Nudge (α : Type) where
  a : Nat
  b : Nat
  shiftA : Vec α
  shiftB : Vec α

namespace Wire

def row (rows : Array (Particle α)) (slot : Nat) : Particle α := rows.getD slot .blank

def shares (rows : Array (Particle α)) (w : Wire α) : Shares α :=
  .between (row rows w.a) (row rows w.b)

/-- A spring closes the gap to its rest length by the part that its stiffness says. -/
def correct (w : Wire α) (p q : Particle α) : Vec α :=
  let delta := q.position - p.position
  let length := delta.norm
  delta.scale ((length - w.rest) / Scalar.upper length minLength * w.stiffness)

def relax (rows : Array (Particle α)) (w : Wire α) (s : Shares α) : Nudge α :=
  let correction := w.correct (row rows w.a) (row rows w.b)
  ⟨w.a, w.b, correction.scale s.a, (-correction).scale s.b⟩

/-- The part of the ends' relative velocity along the spring that damping takes away. -/
def impulse (w : Wire α) (p q : Particle α) : Vec α :=
  let delta := q.position - p.position
  let normal := delta.divideBy (Scalar.upper delta.norm minLength)
  let relative := (q.position - q.previous) - (p.position - p.previous)
  normal.scale (relative.dot normal * w.damping)

def damp (rows : Array (Particle α)) (w : Wire α) (s : Shares α) : Nudge α :=
  let impulse := w.impulse (row rows w.a) (row rows w.b)
  ⟨w.a, w.b, (-impulse).scale s.a, impulse.scale s.b⟩

end Wire

/-- Carries out nudges on positions or previous positions: all first ends, then all second ends. -/
def nudgeAll (move : Vec α → Particle α → Particle α) (nudges : List (Nudge α))
    (rows : Array (Particle α)) : Array (Particle α) :=
  let rows := nudges.foldl (fun rows n => rows.modify n.a (move n.shiftA)) rows
  nudges.foldl (fun rows n => rows.modify n.b (move n.shiftB)) rows

def relaxPass (wires : List (Wire α × Shares α)) (rows : Array (Particle α)) :
    Array (Particle α) :=
  nudgeAll Particle.shift (wires.map fun (w, s) => w.relax rows s) rows

def dampPass (wires : List (Wire α × Shares α)) (rows : Array (Particle α)) :
    Array (Particle α) :=
  nudgeAll Particle.shiftPrevious (wires.map fun (w, s) => w.damp rows s) rows

def relaxSprings (passes : Nat) (wires : List (Wire α)) (rows : Array (Particle α)) :
    Array (Particle α) :=
  let wires := wires.map fun w => (w, w.shares rows)
  dampPass wires (Nat.repeat (relaxPass wires) passes rows)

namespace World

/-- The springs alive, in order, with the slots of their ends now. -/
def freshWires (w : World α) : List (Wire α) :=
  w.springs.toList.filterMap fun serial => do
    let l ← w.links[serial]?
    let a ← w.slot? l.a
    let b ← w.slot? l.b
    return ⟨a, b, l.rest, l.stiffness, l.damping⟩

def currentWires (w : World α) : List (Wire α) := w.wires.getD w.freshWires

/-- Applies a change to the rows in use. -/
def mapLive (w : World α) (f : Particle α → Particle α) : World α :=
  let count := w.count
  { w with rows := w.rows.mapIdx fun i p => if i < count then f p else p }

def relax (w : World α) : World α :=
  if w.springs.isEmpty then w
  else
    let wires := w.currentWires
    { w with rows := relaxSprings w.setting.passes wires w.rows, wires := some wires }

def confine (w : World α) : World α :=
  match w.setting.bounds with
  | some b => w.mapLive (.confine b)
  | none => w

def step (dt : α) (w : World α) : World α :=
  if w.count = 0 then w else ((w.mapLive (.drift w.setting dt)).relax).confine

end World
end Arboretum
