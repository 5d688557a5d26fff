import Arboretum.Vec

namespace Arboretum

/-- What the keys do. -/
inductive Control where
  | theme
  | several
  | clear
  | reset
  | wind
  | attractor
  | debug
  | journal
  | pause
  | speed (level : Nat)
  deriving DecidableEq, Repr

def Control.ofKey? (key : String) : Option Control :=
  match key with
  | "t" => some theme
  | "m" => some several
  | "c" => some clear
  | "r" => some reset
  | "w" => some wind
  | "a" => some attractor
  | "d" => some debug
  | "l" => some journal
  | "space" => some pause
  | "0" => some (speed 0)
  | "1" => some (speed 1)
  | "2" => some (speed 2)
  | "3" => some (speed 3)
  | "4" => some (speed 4)
  | _ => none

/-- What a user did. The first button plants, the third attracts. -/
inductive Event (α : Type) where
  | quit
  | down (button : Int) (spot : Vec α)
  | up (button : Int)
  | moved (spot : Vec α)
  | key (key : String)

/-- The real time since the last frame, in milliseconds, and what happened in it. -/
structure Moment (α : Type) where
  elapsed : α
  events : List (Event α)

def Event.isQuit {α : Type} : Event α → Bool
  | quit => true
  | _ => false

def Moment.quits {α : Type} (m : Moment α) : Bool := m.events.any Event.isQuit

end Arboretum
