import Arboretum.Power
import Arboretum.World.Point

/-!
Worlds of point masses and springs. The points alive fill the first rows of a table, in slot order;
a point keeps its number for good, and its slot while nothing is removed before it. Rows beyond the
last point keep what they last held. What a spring was made with is kept by its serial number.
-/
namespace Arboretum

/-- The row of a slot. -/
structure Particle (α : Type) where
  position : Vec α
  previous : Vec α
  force : Vec α
  mass : α
  pinned : Bool

/-- A spring as it was made, and its place among the springs alive. -/
structure Link (α : Type) where
  a : Nat
  b : Nat
  stiffness : α
  damping : α
  rest : α
  place : Option Nat

/-- A spring as the solver sees it: its ends are slots. -/
structure Wire (α : Type) where
  a : Nat
  b : Nat
  rest : α
  stiffness : α
  damping : α

structure Bounds (α : Type) where
  low : Vec α
  high : Vec α

structure Setting (α : Type) where
  gravity : Vec α
  /-- The fraction of its velocity that a point loses in a step. -/
  friction : α
  /-- How often the springs are relaxed in a step. -/
  passes : Nat
  bounds : Option (Bounds α)

structure World (α : Type) where
  /-- Tells the points of one world from those of another. -/
  tag : Nat
  setting : Setting α
  rows : Array (Particle α)
  /-- The points alive, in slot order. -/
  bodies : Array Nat
  /-- The slot of each point ever made. -/
  slots : Array (Option Nat)
  /-- The springs ever made. -/
  links : Array (Link α)
  /-- The springs alive, in order. -/
  springs : Array Nat
  /-- The springs alive as the solver sees them, until the structure changes. -/
  wires : Option (List (Wire α))

section

variable {α : Type} [Scalar α]

/-- A row that nothing was written to. -/
def Particle.blank : Particle α := ⟨0, 0, 0, 1, false⟩

/-- A point at rest. -/
def Particle.atRest (spot : Vec α) (mass : α) (pinned : Bool) : Particle α :=
  ⟨spot, spot, 0, mass, pinned⟩

/-- Gravity points up, so that stems stand. -/
def Setting.default : Setting α := ⟨⟨0, -95.0⟩, 0.02, 4, none⟩

end

namespace World

variable {α : Type}

def defaultCapacity : Nat := 256

def new [Scalar α] (tag : Nat) (setting : Setting α) (capacity : Nat) : World α where
  tag := tag
  setting := setting
  rows := Array.replicate capacity Particle.blank
  bodies := #[]
  slots := #[]
  links := #[]
  springs := #[]
  wires := none

/-- A world with room for a number of points at first. A position takes sixteen bytes, and their
number is a word; far fewer fit in memory. -/
def withRoom [Scalar α] (tag : Nat) (setting : Setting α) (room : Int) : Except Fault (World α) :=
  if room < 0 then .error .negativeRoom
  else if (twoTo 59 : Int) ≤ room then .error .countlessRoom
  else if (twoTo 32 : Int) ≤ room then .error .noMemory
  else .ok (new tag setting room.toNat)

def count (w : World α) : Nat := w.bodies.size

def capacity (w : World α) : Nat := w.rows.size

/-- The slot of a point, while it is alive. -/
def slot? (w : World α) (id : Nat) : Option Nat := (w.slots[id]?).join

/-- The row of a point, while it is alive. -/
def particle? (w : World α) (id : Nat) : Option (Particle α) :=
  (w.slot? id).bind (w.rows[·]?)

def isAlive (w : World α) (id : Nat) : Bool := (w.slot? id).isSome

/-- The points alive with their rows, in slot order. -/
def seated (w : World α) : List (Nat × Particle α) :=
  w.bodies.toList.filterMap fun id => (w.particle? id).map (id, ·)

/-- A point as a holder sees it now. -/
def point (w : World α) (id : Nat) : Point α where
  home := w.tag
  id := id
  seat := (w.slot? id).bind fun slot => (w.rows[slot]?).map fun p => (slot, p.position)

/-- Reading a point that was removed is a fault. -/
def particle (w : World α) (id : Nat) : Except Fault (Particle α) :=
  match w.particle? id with
  | some p => .ok p
  | none => .error (.removedPoint id)

/-- The place of a spring among those alive. -/
def place? (w : World α) (serial : Nat) : Option Nat := (w.links[serial]?).bind (·.place)

def springIsAlive (w : World α) (serial : Nat) : Bool := (w.place? serial).isSome

/-- A spring as a holder sees it now. -/
def spring (w : World α) (serial : Nat) : Spring := ⟨w.tag, serial, w.place? serial⟩

/-- How far apart the ends of a spring are. -/
def currentLength [Scalar α] (w : World α) (link : Link α) : Except Fault α := do
  let a ← w.particle link.a
  let b ← w.particle link.b
  return a.position.distance b.position

/-- Does a holder's point belong to this world and live? -/
def owns (w : World α) (p : Point α) : Bool := p.home == w.tag && p.isAlive

end World
end Arboretum
