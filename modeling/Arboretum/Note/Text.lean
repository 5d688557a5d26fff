import Arboretum.Decimal.Shortest
import Arboretum.Note
import Arboretum.Text.Quoted

/-!
The wording of notes.
-/
namespace Arboretum

open Decimal

def Fault.shown (f : Fault) : String := f.kind ++ "(" ++ Text.quoted f.message ++ ")"

def Point.shown (p : Point Float) : String :=
  let state := match p.seat with
    | some (_, spot) => "(" ++ fixed 2 spot.x ++ ", " ++ fixed 2 spot.y ++ ")"
    | none => "removed"
  s!"PointMass(id={p.id}, {state})"

def Pull.shown (s : Pull Float) : String :=
  "ForceSource((" ++ fixed 1 s.centre.x ++ ", " ++ fixed 1 s.centre.y ++ "), r=" ++
    shortest s.radius ++ ", s=" ++ shortest s.strength ++ ")"

namespace Note

def orNone (s : Option String) : String := s.getD "None"

def switched (on : Bool) : String := if on then "enabled" else "disabled"

/-- A rule that cannot be applied leaves its symbol as it is. -/
def rulePassed (grammar symbol reason : String) : String :=
  s!"WARNING: Grammar '" ++ grammar ++ "' rule for '" ++ symbol ++ "' " ++ reason ++ "; '" ++
    symbol ++ "' will pass through."

def text : Note Float → String
  | clockReset => "Event: Simulation clock reset."
  | clockPaused paused => "Event: Simulation " ++ (if paused then "paused" else "resumed") ++ "."
  | speedSet speed => s!"Event: Simulation speed set to level {speed.level} ({speed.text})."
  | unknownSpeed level => s!"WARNING: Ignoring unknown speed level {level}."
  | iterationsClamped grammar asked kept =>
    "WARNING: Grammar '" ++ grammar ++ s!"' asked for {asked} iterations; clamped to {kept}."
  | ruleNotPairs grammar symbol =>
    rulePassed grammar symbol "is not a list of (replacement, probability) pairs (...)"
  | ruleNegative grammar symbol => rulePassed grammar symbol "has a negative probability"
  | ruleOverweight grammar symbol total =>
    "WARNING: Grammar '" ++ grammar ++ "' rule for '" ++ symbol ++ "' sums to " ++
      fixed 3 total ++ "; later choices are unreachable."
  | ruleUnsupported grammar symbol kind =>
    rulePassed grammar symbol ("has unsupported type " ++ kind)
  | generatorAnswered symbol kind =>
    "WARNING: Generator rule for '" ++ String.singleton symbol ++ "' returned " ++ kind ++
      "; keeping the symbol."
  | productionCut grammar length generation limit =>
    "WARNING: L-system '" ++ grammar ++ s!"' production reached {length} symbols at iteration " ++
      s!"{generation}; truncating to {limit}."
  | unknownPreset name => "WARNING: Unknown plant type '" ++ name ++ "'; using 'simple'."
  | weightless mass =>
    "WARNING: Point mass requested with non-positive mass " ++ shortest mass ++ "; using 0.01."
  | worldGrew before after =>
    s!"DEBUG: PhysicsWorld growing from {before} to {after} point masses"
  | strangerRemoved point =>
    "WARNING: Attempted to remove a point mass that is not in this world: " ++
      orNone (point.map Point.shown)
  | strangerPushed point =>
    "WARNING: Attempted to apply force to a point mass that is not in this world: " ++
      orNone (point.map Point.shown)
  | springWithoutEnd => "WARNING: Attempted to create spring with a missing point mass."
  | springAbroad => "WARNING: Attempted to create spring between point masses of another world."
  | springToItself id => s!"WARNING: Attempted to create spring from point mass {id} to itself."
  | strangeSpringRemoved => "WARNING: Attempted to remove a spring that is not in this world."
  | segmentCollapsed index cell =>
    "DEBUG: Segment " ++ orNone (index.map toString) ++
      s!" collapses to a single point at ({cell.x}, {cell.y}); not linked."
  | segmentUnlinked index =>
    "WARNING: Segment " ++ orNone (index.map toString) ++ " could not be linked; skipping it."
  | bracesSkipped count => s!"DEBUG: Skipped {count} angle constraints with zero-length segments."
  | nothingToHangFrom fruits => s!"WARNING: No point masses to hang {fruits} fruits from."
  | fruitUnhung spot =>
    "WARNING: No anchor found for fruit at (" ++ fixed 1 spot.x ++ ", " ++ fixed 1 spot.y ++ ")."
  | rootedAgain stage =>
    "WARNING: place_root() called in stage '" ++ stage.name ++ "'; ignoring."
  | braced count built total =>
    s!"DEBUG: Added {count} angle constraints at {built}/{total} segments."
  | fruitsHung count total => s!"DEBUG: Attached {count} of {total} fruits."
  | planted id kind spot segments fruits scale =>
    s!"DEBUG ({id}): Planted '" ++ kind ++ "' at (" ++ fixed 0 spot.x ++ ", " ++ fixed 0 spot.y ++
      s!") with {segments} segments, {fruits} fruits, scale " ++ fixed 2 scale ++ "."
  | destroyedTwice id => s!"WARNING: Plant {id} destroyed twice; ignoring."
  | destroyed id growth => s!"DEBUG ({id}): Destroyed at growth " ++ fixed 2 growth ++ "."
  | pullIgnored pull => "WARNING: Ignoring " ++ pull.shown ++ " with non-positive radius."
  | attractorStrength strength =>
    "Event: Attractor strength set to " ++ fixed 4 strength ++ "."
  | attractorRadius radius => "Event: Attractor radius set to " ++ fixed 0 radius ++ "."
  | attractorEnabled enabled => "Event: Attractor " ++ switched enabled ++ "."
  | windEnabled enabled => "Event: Wind " ++ switched enabled ++ "."
  | unknownTheme theme current =>
    "WARNING: Unknown theme '" ++ theme ++ "'; keeping '" ++ current ++ "'."
  | themeSet theme => "Event: Garden theme set to '" ++ theme ++ "'."
  | plantingFailed kind spot cause =>
    "ERROR: Could not create '" ++ orNone kind ++ "' plant at (" ++ fixed 0 spot.x ++ ", " ++
      fixed 0 spot.y ++ "): " ++ cause.shown
  | gardenFull capacity oldest =>
    s!"DEBUG: Garden full ({capacity}); removing oldest plant {oldest}."
  | scheduled count => s!"Event: Scheduled {count} plantings."
  | plantingSkipped => "DEBUG: Scheduled planting skipped by the planting cooldown."
  | destroyFailed id cause => s!"ERROR: Failed to destroy plant {id}: " ++ cause.shown
  | gardenCleared => "Event: Garden cleared."
  | updateFailed id cause =>
    s!"ERROR: Plant {id} failed to update: " ++ cause.shown ++ ". Removing it."
  | renderFailed id cause => s!"ERROR: Plant {id} failed to render: " ++ cause.shown
  | said message => message

end Note
end Arboretum
