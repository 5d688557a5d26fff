import Arboretum.Drawing.Garden
import Arboretum.Force.Attractor
import Arboretum.Session.Control

/-!
A session: a garden on a screen, driven by real time and a user. Real time is scaled by the clock's
speed and spent in whole ticks; what does not fill a tick is carried over to the next frame.
-/
namespace Arboretum

/-- The status text over a garden. -/
def Garden.status {α : Type} [Scalar α] (g : Garden α) (a : Attractor α) (debug : Bool) :
    Except Fault (List String) := do
  let time ← g.clock.display
  let switched (on : Bool) : String := if on then "on" else "off"
  return [time,
    s!"Plants: {g.plants.length}/{g.maxPlants} | Theme: " ++ g.theme.name,
    s!"Particles: {g.world.count} | Springs: {g.world.springs.size}",
    "Wind: " ++ switched g.wind.enabled ++ " | Attractor: " ++ switched a.enabled ++
      " | Debug: " ++ switched debug]

structure Session (α : Type) where
  garden : Garden α
  attractor : Attractor α
  debug : Bool
  /-- Does the journal take debug notes? -/
  verbose : Bool
  /-- Scaled time that has not been spent in ticks. -/
  accumulator : α

/-- What a frame put on the screen. -/
structure Screen (α : Type) where
  status : List String
  drawing : Drawing α
  ticks : Nat
  plants : Nat
  pending : Nat

namespace Session

variable {α : Type} [Scalar α]

def width : α := 1024.0
def height : α := 720.0

def new (draws : Draws α) : Session α where
  garden := Garden.new width height Garden.defaultMaxPlants Garden.defaultCooldown
    Growth.defaultRate Plant.defaultScaleRange Growth.defaultDivisor draws true
  attractor := Attractor.default
  debug := false
  verbose := true
  accumulator := 0

abbrev Playing (α ρ : Type) : Type := Action (Entry α) (Session α) ρ

/-- Runs an operation on the garden; a journal that is not verbose drops its debug notes. -/
def gardening {ρ : Type} (x : Garden.Tending α ρ) : Playing α ρ := fun s =>
  (x.filterNotes fun e => s.verbose || !e.note.isDebug).on (·.garden)
    (fun garden s => { s with garden }) s

def clocking {ρ : Type} (x : Action (Note α) (Clock α) ρ) : Playing α ρ :=
  gardening (Garden.tending (·.clock) (fun clock g => { g with clock }) x)

def attracting {ρ : Type} (x : Action (Note α) (Attractor α) ρ) : Playing α ρ :=
  (x.on (·.attractor) (fun attractor s => { s with attractor })).mapNotes
    fun n s => Entry.stamp (some s.garden.clock) n

def say (message : String) : Playing α Unit := gardening (Garden.say (.said message))

def command : Control → Playing α Unit
  | .theme => do let _ ← gardening Garden.cycleTheme
  | .several => do let _ ← gardening (Garden.schedule Garden.maxScheduled none)
  | .clear => gardening Garden.clear
  | .reset => gardening Garden.reset
  | .wind => do let _ ← gardening Garden.toggleWind
  | .attractor => do let _ ← attracting Attractor.toggle
  | .debug => Action.modify fun s => { s with debug := !s.debug }
  | .journal => Action.modify fun s => { s with verbose := !s.verbose }
  | .pause => clocking Clock.togglePause
  | .speed level => clocking (Clock.setSpeed level)

def handle : Event α → Playing α Unit
  | .quit => return
  | .down button spot => do
    if button = 1 then
      let s ← Action.read
      let _ ← gardening (Garden.createPlant ⟨spot.x, s.garden.groundY⟩ none none)
    else if button = 3 then
      Action.modify fun s => { s with attractor := s.attractor.press spot }
  | .up button => do
    if button = 3 then Action.modify fun s => { s with attractor := s.attractor.release }
  | .moved spot => Action.modify fun s => { s with attractor := s.attractor.move spot }
  | .key key =>
    match Control.ofKey? key with
    | some control => command control
    | none => return

/-- The most ticks of a frame; a backlog beyond them is dropped. -/
def maxTicks : Nat := 5

/-- The longest real time that a frame may stand for. -/
def maxDelta : α := 0.25

/-- Spends the accumulated time in ticks, up to a number of them. Returns how many were left. -/
def spend : Nat → Playing α Nat
  | 0 => return 0
  | left + 1 => do
    let s ← Action.read
    if Clock.tick ≤ s.accumulator then
      gardening do
        Action.modify fun g => s.attractor.sources.foldl (fun g pull => g.addSource pull) g
        Garden.update Clock.tick
      Action.modify fun s => { s with accumulator := s.accumulator - Clock.tick }
      spend left
    else return left + 1

def screen : Playing α (Screen α) := do
  let s ← Action.read
  let status ← Action.ofExcept (s.garden.status s.attractor s.debug)
  let drawing ← gardening (Drawing.garden ⟨true, s.debug, s.attractor.sources, status⟩)
  let g := s.garden
  return ⟨status, drawing, g.clock.ticks, g.plants.length, g.pending.length⟩

/-- One frame: the events, the ticks that are due, and the screen. -/
def frame (m : Moment α) : Playing α (Screen α) := do
  let delta := Scalar.least (m.elapsed / 1000.0) maxDelta
  let _ ← Action.forEach m.events handle
  Action.modify fun s =>
    { s with accumulator := s.accumulator + s.garden.clock.scaled delta }
  let left ← spend maxTicks
  if left = 0 then Action.modify fun s => { s with accumulator := 0 }
  screen

def greeting : Playing α Unit := do
  say "--- Procedural Garden Start ---"
  say "Initializing pygame..."
  say "Opening a 1024x720 window."
  say "Window and HUD font ready."
  say "Garden ready. Entering main loop."
  say ("CONTROLS: [LMB] Plant, [RMB] Attract, [T] Theme, [M] Plant several, [C] Clear, " ++
    "[R] Reset, [W] Wind, [A] Attractor, [D] Debug, [L] Debug log, [SPACE] Pause, [0-4] Speed.")

def farewell : Playing α Unit := do
  gardening Garden.clear
  say "Main loop ended; garden cleared."
  say "Shutting down pygame..."
  say "Shutdown complete."
  say "--- Procedural Garden Exit ---"

/-- Plays some moments up to the first that quits; if none does, one more that quits at once. Each
frame comes with the entries since the last. -/
def play (opening : Playing α Unit) :
    List (Moment α) → Playing α (List (Screen α × List (Entry α)))
  | [] => do return [← (do opening; frame ⟨0, [.quit]⟩).collect]
  | m :: rest => do
    let shown ← (do opening; frame m).collect
    if m.quits then return [shown]
    return shown :: (← play (pure ()) rest)

/-- A whole session. Its own entries are those after the last frame. -/
def run (moments : List (Moment α)) : Playing α (List (Screen α × List (Entry α))) := do
  let shown ← play greeting moments
  farewell
  return shown

end Session
end Arboretum
