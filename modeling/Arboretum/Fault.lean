/-!
Why an operation stopped. Every operation of the library that can stop names its cause here; the
class and wording of a cause, as the journal quotes them, are decided in one place.
-/
namespace Arboretum

inductive Fault where
  /-- Something that is not a number was asked for its integer. -/
  | notANumber
  /-- An infinite number was asked for its integer. -/
  | infinite
  /-- An integer lies beyond the range of numbers. -/
  | tooLarge
  /-- An infinite heading has no direction. -/
  | noDirection
  | divisionByZero
  /-- A colour to be shifted has fewer than three channels. -/
  | fewChannels (given : Nat)
  /-- There is no box around no points. -/
  | noPoints
  /-- A choice fell outside a list of options. -/
  | outsideOptions
  /-- A choice fell outside the table of presets. -/
  | outsidePresets
  /-- A choice fell farther out than a place can lie. -/
  | noPlace
  /-- The oldest plant of an empty bed was asked for. -/
  | emptyBed
  /-- A point or a spring was asked for something and is none. -/
  | nothingGiven
  /-- A slot lies outside the rows of a world. -/
  | noSlot (slot : Nat) (capacity : Nat)
  /-- A point was read after it had been removed. -/
  | removedPoint (id : Nat)
  /-- A plant was used after it had been destroyed. -/
  | destroyedPlant (id : Int) (action : String)
  /-- A stop that a generator or a drill asked for. -/
  | requested (message : String)
  /-- A generation count that is no integer. -/
  | unreadableCount (shown : String)
  /-- A generation count of a kind that cannot be counted. -/
  | uncountable (kind : String)
  | unknownLevel (level : Int)
  /-- A world was asked to have room for fewer than no points. -/
  | negativeRoom
  /-- A world was asked to have room for more points than can be numbered. -/
  | countlessRoom
  /-- A world was asked to have room for more points than fit anywhere. -/
  | noMemory
  /-- A point was handed down through too many nodes of an index. -/
  | tooDeep
  deriving DecidableEq, Repr

namespace Fault

/-- The class under which a cause is reported. -/
def kind : Fault → String
  | notANumber | noDirection | fewChannels _ | noPoints | removedPoint _ | requested _
  | unreadableCount _ | negativeRoom | countlessRoom => "ValueError"
  | infinite | tooLarge => "OverflowError"
  | divisionByZero => "ZeroDivisionError"
  | outsideOptions | outsidePresets | noPlace | emptyBed | noSlot .. => "IndexError"
  | destroyedPlant .. => "PlantStateError"
  | uncountable _ => "TypeError"
  | unknownLevel _ => "KeyError"
  | tooDeep => "RecursionError"
  | noMemory => "MemoryError"
  | nothingGiven => "AttributeError"

def message : Fault → String
  | notANumber => "cannot convert float NaN to integer"
  | infinite => "cannot convert float infinity to integer"
  | tooLarge => "int too large to convert to float"
  | noDirection => "math domain error"
  | divisionByZero => "float division by zero"
  | fewChannels given => s!"not enough values to unpack (expected 3, got {given})"
  | noPoints => "min() arg is an empty sequence"
  | outsideOptions | emptyBed => "list index out of range"
  | outsidePresets => "tuple index out of range"
  | noPlace => "cannot fit 'int' into an index-sized integer"
  | noSlot slot capacity => s!"index {slot} is out of bounds for axis 0 with size {capacity}"
  | removedPoint id => s!"Point mass {id} has been removed from its physics world."
  | destroyedPlant id action => s!"Plant {id} has been destroyed and cannot be {action}."
  | requested message => message
  | unreadableCount shown => s!"invalid literal for int() with base 10: {shown}"
  | uncountable kind =>
    s!"int() argument must be a string, a bytes-like object or a real number, not '" ++ kind ++ "'"
  | unknownLevel level => s!"{level}"
  | negativeRoom => "negative dimensions are not allowed"
  | countlessRoom => "Maximum allowed dimension exceeded"
  | noMemory => "Unable to allocate"
  | tooDeep => "maximum recursion depth exceeded"
  | nothingGiven => "nothing was given"

end Fault
end Arboretum
