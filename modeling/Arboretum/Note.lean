import Arboretum.Clock.Speed
import Arboretum.Force.Pull
import Arboretum.Geometry
import Arboretum.Growth.Stage
import Arboretum.World.Point

/-!
What the simulation has to say about its work. A note holds the facts; its wording is decided
elsewhere.
-/
namespace Arboretum

inductive Note (α : Type) where
  -- the clock
  | clockReset
  | clockPaused (paused : Bool)
  | speedSet (speed : Speed)
  | unknownSpeed (level : Int)
  -- grammars
  | iterationsClamped (grammar : String) (asked kept : Int)
  | ruleNotPairs (grammar symbol : String)
  | ruleNegative (grammar symbol : String)
  | ruleOverweight (grammar symbol : String) (total : α)
  | ruleUnsupported (grammar symbol kind : String)
  | generatorAnswered (symbol : Char) (kind : String)
  | productionCut (grammar : String) (length generation limit : Nat)
  | unknownPreset (name : String)
  -- worlds
  | weightless (mass : α)
  | worldGrew (before after : Nat)
  | strangerRemoved (point : Option (Point α))
  | strangerPushed (point : Option (Point α))
  | springWithoutEnd
  | springAbroad
  | springToItself (id : Nat)
  | strangeSpringRemoved
  -- bodies of plants
  | segmentCollapsed (index : Option Int) (cell : Cell)
  | segmentUnlinked (index : Option Int)
  | bracesSkipped (count : Nat)
  | nothingToHangFrom (fruits : Nat)
  | fruitUnhung (spot : Vec α)
  -- growth
  | rootedAgain (stage : Stage)
  | braced (count built total : Nat)
  | fruitsHung (count total : Nat)
  -- plants
  | planted (id : Int) (kind : String) (spot : Vec α) (segments fruits : Nat) (scale : α)
  | destroyedTwice (id : Int)
  | destroyed (id : Int) (growth : α)
  -- forces
  | pullIgnored (pull : Pull α)
  | attractorStrength (strength : α)
  | attractorRadius (radius : α)
  | attractorEnabled (enabled : Bool)
  | windEnabled (enabled : Bool)
  -- the garden
  | unknownTheme (theme current : String)
  | themeSet (theme : String)
  | plantingFailed (kind : Option String) (spot : Vec α) (cause : Fault)
  | gardenFull (capacity : Int) (oldest : Int)
  | scheduled (count : Nat)
  | plantingSkipped
  | destroyFailed (id : Int) (cause : Fault)
  | gardenCleared
  | updateFailed (id : Int) (cause : Fault)
  | renderFailed (id : Int) (cause : Fault)
  -- anything else
  | said (message : String)

namespace Note

/-- Notes of interest only to who looks for faults. -/
def isDebug {α : Type} : Note α → Bool
  | worldGrew .. | segmentCollapsed .. | bracesSkipped _ | braced .. | fruitsHung .. | planted ..
  | destroyed .. | gardenFull .. | plantingSkipped => true
  | said message => message.startsWith "DEBUG"
  | _ => false

end Note
end Arboretum
