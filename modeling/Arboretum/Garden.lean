import Arboretum.Force.Wind
import Arboretum.Garden.Theme
import Arboretum.Journal
import Arboretum.Plant.Frame

/-!
A bed of plants that share one world. A tick runs in a fixed order: the plantings that are due, the
growth of every plant, the forces, one step of the world, and the clock. A plant that fails is taken
out and does not stop the others.
-/
namespace Arboretum

/-- A planting that is due at a time of the clock; without a kind the theme decides. -/
structure Pending (α : Type) where
  due : α
  kind : Option String

structure Garden (α : Type) where
  width : α
  height : α
  maxPlants : Int
  /-- The least time between two plantings. -/
  cooldown : α
  rate : α
  scaleRange : α × α
  divisor : α
  draws : Draws α
  clock : Clock α
  /-- Does the journal keep this garden's clock? -/
  clocked : Bool
  world : World α
  wind : Wind α
  /-- The plants in the bed, oldest first. -/
  plants : List (Plant α)
  /-- The plants that were taken out of the bed, in that order. -/
  retired : List (Plant α)
  theme : Theme
  lastPlanting : Option α
  /-- The plantings to come, by due time. -/
  pending : List (Pending α)
  /-- The fields that act in the next tick only. -/
  sources : List (Pull α)

namespace Garden

variable {α : Type} [Scalar α]

/-- The ground lies this far above the lower edge. -/
def groundMargin : α := 10.0

def groundY (g : Garden α) : α := g.height - groundMargin

def defaultMaxPlants : Int := 18
def defaultCooldown : α := 0.6

def new (width height : α) (maxPlants : Int) (cooldown rate : α) (scaleRange : α × α) (divisor : α)
    (draws : Draws α) (clocked : Bool) : Garden α where
  width := width
  height := height
  maxPlants := maxPlants
  cooldown := cooldown
  rate := rate
  scaleRange := scaleRange
  divisor := divisor
  draws := draws
  clock := Clock.new .normal
  clocked := clocked
  world := World.new 0 { Setting.default with bounds := some ⟨0, ⟨width, height⟩⟩ }
    World.defaultCapacity
  wind := Wind.default (height - groundMargin)
  plants := []
  retired := []
  theme := .mixed
  lastPlanting := none
  pending := []
  sources := []

/-- The clock that stamps the notes about this garden. -/
def journalClock (g : Garden α) : Option (Clock α) := if g.clocked then some g.clock else none

abbrev Tending (α ρ : Type) : Type := Action (Entry α) (Garden α) ρ

/-- Runs an operation on a part of a garden; its notes are stamped with the garden's clock. -/
def tending {σ ρ : Type} (get : Garden α → σ) (set : σ → Garden α → Garden α)
    (x : Action (Note α) σ ρ) : Tending α ρ :=
  (x.on get set).mapNotes fun n g => Entry.stamp g.journalClock n

def say (n : Note α) : Tending α Unit := tending id (fun g _ => g) (Action.note n)

def inWorld {ρ : Type} (x : Action (Note α) (World α) ρ) : Tending α ρ :=
  tending (·.world) (fun world g => { g with world }) x

def drawing {ρ : Type} (x : Action (Note α) (Draws α) ρ) : Tending α ρ :=
  tending (·.draws) (fun draws g => { g with draws }) x

/-- Looks after a plant that is not in the bed. -/
def caring {ρ : Type} (p : Plant α) (x : Plant.Care α ρ) :
    Tending α (Except Fault ρ × Plant α) :=
  tending (fun g => (g.world, p)) (fun (world, _) g => { g with world }) (Plant.tried x)

/-- Looks after a plant that stands between others in the bed. -/
def caringAmong {ρ : Type} (before : List (Plant α)) (p : Plant α) (after : List (Plant α))
    (x : Plant.Care α ρ) : Tending α (Except Fault ρ × Plant α) :=
  tending (fun g => (g.world, p))
    (fun (world, p) g => { g with world, plants := before ++ p :: after }) (Plant.tried x)

/-! ### Themes -/

def setTheme (name : String) : Tending α Bool := do
  match Theme.ofName? name with
  | some theme =>
    Action.modify fun g => { g with theme }
    say (.themeSet name)
    return true
  | none =>
    let g ← Action.read
    say (.unknownTheme name g.theme.name)
    return false

def cycleTheme : Tending α String := do
  Action.modify fun g => { g with theme := g.theme.next }
  let g ← Action.read
  say (.themeSet g.theme.name)
  return g.theme.name

/-- The kind of plant that the theme asks for; a mixed garden draws it. -/
def pickKind : Tending α String := do
  match (← Action.read).theme with
  | .only p => return p.name
  | .mixed => return (← drawing Preset.choose).name

/-! ### Planting -/

/-- Destroys a plant that has left the bed. That this may fail is only noted. -/
def retire (p : Plant α) : Tending α Unit := do
  let (outcome, p) ← caring p Plant.destroy
  match outcome with
  | .ok () => pure ()
  | .error cause => say (.destroyFailed p.id cause)
  Action.modify fun g => { g with retired := g.retired ++ [p] }

/-- Takes the oldest plant out of a full bed. -/
def evictOldest : Tending α Unit := do
  let g ← Action.read
  match g.plants with
  | [] => Action.fail .emptyBed
  | oldest :: rest =>
    say (.gardenFull g.maxPlants oldest.id)
    Action.modify fun g => { g with plants := rest }
    retire oldest

/-- Is it too early for another planting? -/
def isCooling (g : Garden α) : Bool :=
  match g.lastPlanting with
  | some last => g.clock.seconds - last < g.cooldown
  | none => false

/-- Plants something in the garden's world, outside the bed. -/
def grow (spot : Vec α) (seed : Seed α) : Tending α (Plant α) := do
  let g ← Action.read
  tending (fun g => (g.world, g.draws)) (fun (world, draws) g => { g with world, draws })
    (Plant.plant {
      spot, seed
      rate := g.rate
      divisor := g.divisor
      scale := none
      scaleRange := g.scaleRange
      ownsWorld := false })

/-- Plants in the bed. There is no plant while the planting cooldown runs, nor when the planting
fails, which is noted. A full bed loses its oldest plant. -/
def createPlant (spot : Vec α) (kind : Option String) (grammar : Option (Grammar α)) :
    Tending α (Option (Plant α)) := do
  let g ← Action.read
  if g.isCooling then return none
  let (kind, seed) ← match grammar, kind with
    | some grammar, kind => pure (kind, Seed.grammar grammar)
    | none, some kind => pure (some kind, Seed.ofKind kind)
    | none, none => do
      let kind ← pickKind
      pure (some kind, Seed.ofKind kind)
  match ← (grow spot seed).attempt with
  | .error cause =>
    say (.plantingFailed kind spot cause)
    return none
  | .ok p =>
    if g.maxPlants ≤ g.plants.length then evictOldest
    Action.modify fun g =>
      { g with lastPlanting := some g.clock.seconds, plants := g.plants ++ [p] }
    return some p

def maxScheduled : Int := 4

/-- The time between two plantings of one schedule. -/
def interval : α := 0.8

/-- Queues some plantings one after the other, from now on. Returns how many. -/
def schedule (asked : Int) (kind : Option String) : Tending α Nat := do
  let count := (max 0 (min asked maxScheduled)).toNat
  Action.modify fun g =>
    let new := (List.range count).map fun i => ⟨g.clock.seconds + (i : α) * interval, kind⟩
    { g with pending := (g.pending ++ new).mergeSort fun a b => a.due ≤ b.due }
  say (.scheduled count)
  return count

/-- Carries out the pending plantings that are due, somewhere on the ground away from the edges. -/
def plantDue (now : α) : List (Pending α) → Tending α Unit
  | [] => return
  | entry :: rest => do
    if entry.due ≤ now then
      Action.modify fun g => { g with pending := rest }
      let g ← Action.read
      let x ← drawing (Draws.uniform (g.width * 0.1) (g.width * 0.9))
      let planted ← createPlant ⟨x, g.groundY⟩ entry.kind none
      if planted.isNone then say .plantingSkipped
      plantDue now rest

/-- Takes plants out of the bed, one after the other. -/
def uproot : List (Plant α) → Tending α Unit
  | [] => return
  | p :: rest => do
    Action.modify fun g => { g with plants := rest }
    retire p
    uproot rest

/-- Takes every plant out and forgets the pending plantings. -/
def clear : Tending α Unit := do
  let g ← Action.read
  uproot g.plants
  Action.modify fun g => { g with pending := [] }
  say .gardenCleared

/-- Clears the garden and rewinds its clock. -/
def reset : Tending α Unit := do
  clear
  Action.modify fun g => { g with lastPlanting := none, clock := g.clock.rewind }
  say .clockReset

/-! ### Ticks -/

/-- Lets the plants after some others grow, one after the other; one that fails is retired. -/
def tendFrom (dt : α) (before : List (Plant α)) : List (Plant α) → Tending α Unit
  | [] => return
  | p :: after => do
    let (outcome, p) ← caringAmong before p after (Plant.update dt)
    match outcome with
    | .ok () => tendFrom dt (before ++ [p]) after
    | .error cause =>
      say (.updateFailed p.id cause)
      Action.modify fun g => { g with plants := before ++ after }
      retire p
      tendFrom dt before after

def tendAll (dt : α) : Tending α Unit := do
  let g ← Action.read
  tendFrom dt [] g.plants

/-- The points of all plants that forces can move. -/
def movable (g : Garden α) : Except Fault (List Nat) := do
  return (← g.plants.mapM (·.movable g.world)).flatten

/-- Lets the queued fields and the wind act on points. -/
def applyForces (points : List Nat) : Tending α Unit := do
  let g ← Action.read
  if !g.sources.isEmpty then
    let _ ← inWorld (World.pull points g.sources)
    Action.modify fun g => { g with sources := [] }
  tending (fun g => (g.wind, g.draws)) (fun (wind, draws) g => { g with wind, draws }) Wind.update
  let g ← Action.read
  let _ ← inWorld (g.wind.apply points g.clock.ticks)

def update (dt : α) : Tending α Unit := do
  let g ← Action.read
  plantDue g.clock.seconds g.pending
  tendAll dt
  let g ← Action.read
  let points ← Action.ofExcept g.movable
  applyForces points
  Action.modify fun g => { g with world := g.world.step dt, clock := g.clock.advance dt }

/-- What there is to draw; a plant that cannot be drawn is noted and left out. -/
def frames : Tending α (List (Frame α)) := do
  let g ← Action.read
  let views ← Action.forEach g.plants fun p =>
    match p.frame g.world with
    | .ok frame => pure (some frame)
    | .error cause => do
      say (.renderFailed p.id cause)
      pure none
  return views.filterMap id

def addSource (s : Pull α) (g : Garden α) : Garden α := { g with sources := g.sources ++ [s] }

def toggleWind : Tending α Bool :=
  tending (·.wind) (fun wind g => { g with wind }) Wind.toggle

end Garden
end Arboretum
