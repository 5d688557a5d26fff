import Arboretum.Vec

namespace Arboretum

/-- A point of a world as its holder sees it: the world it belongs to, its number there and, while
it is alive, its slot and position. -/
structure Point (α : Type) where
  home : Nat
  id : Nat
  seat : Option (Nat × Vec α)

namespace Point

variable {α : Type}

def isAlive (p : Point α) : Bool := p.seat.isSome

def slot? (p : Point α) : Option Nat := p.seat.map (·.1)

/-- A removed point has no slot to read. -/
def slot (p : Point α) : Except Fault Nat :=
  match p.seat with
  | some (slot, _) => .ok slot
  | none => .error (.removedPoint p.id)

def position (p : Point α) : Except Fault (Vec α) :=
  match p.seat with
  | some (_, spot) => .ok spot
  | none => .error (.removedPoint p.id)

/-- Are two holders looking at one point? -/
def same (p q : Point α) : Bool := p.home == q.home && p.id == q.id

end Point

/-- A spring of a world as its holder sees it; `place` is where the world lists it, while it is
alive. -/
structure Spring where
  home : Nat
  serial : Nat
  place : Option Nat

end Arboretum
