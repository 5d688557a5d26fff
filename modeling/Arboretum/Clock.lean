import Arboretum.Action
import Arboretum.Note

namespace Arboretum

/-- The simulation clock. Real time is scaled by the speed, then spent in fixed ticks. -/
structure Clock (α : Type) where
  seconds : α
  ticks : Nat
  paused : Bool
  speed : Speed

namespace Clock

variable {α : Type} [Scalar α]

/-- The length of a tick: a sixtieth of a second. -/
def tick : α := 1 / 60.0

def new (speed : Speed) : Clock α := ⟨0, 0, false, speed⟩

def atLevel (level : Int) : Except Fault (Clock α) :=
  match Speed.ofLevel? level with
  | some speed => .ok (new speed)
  | none => .error (.unknownLevel level)

/-- The simulated time that an interval of real time is worth. -/
def scaled (c : Clock α) (real : α) : α := if c.paused then 0 else real * c.speed.factor

def advance (dt : α) (c : Clock α) : Clock α :=
  { c with seconds := c.seconds + dt, ticks := c.ticks + 1 }

/-- Back to zero; pause and speed are kept. -/
def rewind (c : Clock α) : Clock α := { c with seconds := 0, ticks := 0 }

def reset : Action (Note α) (Clock α) Unit := do
  Action.modify rewind
  Action.note .clockReset

def togglePause : Action (Note α) (Clock α) Unit := do
  Action.modify fun c => { c with paused := !c.paused }
  let c ← Action.read
  Action.note (.clockPaused c.paused)

def setSpeed (level : Int) : Action (Note α) (Clock α) Unit := do
  match Speed.ofLevel? level with
  | none => Action.note (.unknownSpeed level)
  | some speed =>
    Action.modify fun c => { c with speed := speed }
    Action.note (.speedSet speed)

/-- An integer with at least two digits. -/
def twoDigits (n : Int) : String :=
  if 0 ≤ n && n < 10 then s!"0{n}" else toString n

/-- What the display shows: minutes and seconds, ticks and speed. -/
def display (c : Clock α) : Except Fault String := do
  let whole ← Scalar.truncate c.seconds
  let speed := if c.paused then "PAUSED" else c.speed.text
  return "Time: " ++ twoDigits (whole.fdiv 60) ++ ":" ++ twoDigits (whole.fmod 60) ++
    s!" | Tick: {c.ticks} | Speed: " ++ speed

end Clock
end Arboretum
