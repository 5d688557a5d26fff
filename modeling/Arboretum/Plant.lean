import Arboretum.Grammar.Preset
import Arboretum.Graph.Brace
import Arboretum.Graph.Fruit
import Arboretum.Graph.Release
import Arboretum.Growth
import Arboretum.Walk
import Arboretum.World.Step

/-!
One growing plant: a grammar expanded and walked once into a skeleton, then grown into a world. A
plant either owns its world and steps it, or shares one that its owner steps.
-/
namespace Arboretum

/-- Operations of a plant that a drill makes fail, with the message of the failure. -/
structure Drill where
  update : Option String
  destroy : Option String
  frame : Option String
  movable : Option String

def Drill.none : Drill := ⟨.none, .none, .none, .none⟩

/-- Stops where a drill says so. -/
def Drill.check (drill : Option String) : Except Fault Unit :=
  match drill with
  | some message => .error (.requested message)
  | .none => .ok ()

structure Plant (α : Type) where
  id : Int
  kind : String
  grammar : Grammar α
  stemThickness : α
  scale : α
  ownsWorld : Bool
  graph : Graph α
  growth : Growth α
  destroyed : Bool
  drill : Drill

/-- What a plant grows from. -/
inductive Seed (α : Type) where
  | grammar (g : Grammar α)
  | random
  | preset (name : String)

namespace Seed

variable {α : Type} [Scalar α]

def ofKind (kind : String) : Seed α := if kind == "random" then .random else .preset kind

/-- The grammar of a seed and the thickness of its stem, which a random seed draws. -/
def choose : Seed α → Action (Note α) (Draws α) (Grammar α × α)
  | grammar g => return (g, g.stemThickness)
  | random => do
    let p ← Preset.choose
    let thickness ← Draws.uniform 3.0 5.0
    return (p.grammar, thickness)
  | preset name => do
    let g ← Preset.named name
    return (g, g.stemThickness)

end Seed

/-- How a plant is to be planted. Without a scale, one is drawn from a range. -/
structure Planting (α : Type) where
  spot : Vec α
  seed : Seed α
  rate : α
  divisor : α
  scale : Option α
  scaleRange : α × α
  ownsWorld : Bool

namespace Plant

variable {α : Type} [Scalar α]

def defaultScaleRange : α × α := (0.6, 1.8)

/-- Builds a plant's body in its world. -/
def crew : Crew α (World α × Graph α) where
  build s index := do let _ ← Graph.materialize s (some index)
  brace segments := do return (← Graph.addBraces segments).length
  hang fruits := do return (← Graph.hangAll fruits).length

abbrev Care (α ρ : Type) : Type := Action (Note α) (World α × Plant α) ρ

/-- Runs a step of the growth plan on a plant in its world. -/
def growing {ρ : Type} (x : Growth.Plan α (World α × Graph α) ρ) : Care α ρ :=
  x.on (fun (w, p) => (p.growth, (w, p.graph)))
    (fun (growth, (w, graph)) (_, p) => (w, { p with growth, graph }))

/-- Runs an operation on the body of a plant in its world. -/
def building {ρ : Type} (x : Graph.Build α ρ) : Care α ρ :=
  x.on (fun (w, p) => (w, p.graph)) (fun (w, graph) (_, p) => (w, { p with graph }))

/-- The outcome of an operation on a plant, and the plant that it leaves. -/
def tried {ρ : Type} (x : Care α ρ) : Care α (Except Fault ρ × Plant α) := do
  let outcome ← x.attempt
  let (_, p) ← Action.read
  return (outcome, p)

/-- A scale that was asked for, or one drawn from the range. -/
def drawScale (order : Planting α) : Action (Note α) (Draws α) α :=
  match order.scale with
  | some scale => return scale
  | none => Draws.uniform order.scaleRange.1 order.scaleRange.2

/-- Grows a skeleton from a seed; nothing of it is built yet. -/
def sow (order : Planting α) : Action (Note α) (Draws α) (Plant α) := do
  let id ← Draws.integer 1000 9999
  let (grammar, stemThickness) ← order.seed.choose
  let (_, walk) ← Walk.ofGrammar grammar
  let scale ← drawScale order
  let growth ← Action.ofExcept
    (Growth.new walk.segments walk.fruits.toList order.rate order.divisor)
  return {
    id, grammar, stemThickness, scale, growth
    kind := grammar.name
    ownsWorld := order.ownsWorld
    graph := Graph.new order.spot scale
    destroyed := false
    drill := Drill.none }

/-- Plants: sows, then builds the roots. -/
def plant (order : Planting α) : Action (Note α) (World α × Draws α) (Plant α) := do
  let p ← (sow order).onSnd
  let (outcome, p) ← (tried (growing (Growth.placeRoots crew))).on
    (fun (w, _) => (w, p)) (fun (w, _) (_, d) => (w, d))
  let _ ← Action.ofExcept outcome
  Action.note (.planted p.id p.kind order.spot p.growth.total p.growth.fruits.length p.scale)
  return p

/-- A destroyed plant cannot be used. -/
def checkAlive (p : Plant α) (action : String) : Except Fault Unit :=
  if p.destroyed then .error (.destroyedPlant p.id action) else .ok ()

/-- One tick of growth; a plant that owns its world steps it. -/
def update (dt : α) : Care α Unit := do
  let (_, p) ← Action.read
  Action.ofExcept (Drill.check p.drill.update)
  Action.ofExcept (p.checkAlive "updated")
  let _ ← growing (Growth.advance crew)
  if p.ownsWorld then Action.modify fun (w, p) => (w.step dt, p)

/-- The points of a plant that forces can move. -/
def movable (w : World α) (p : Plant α) : Except Fault (List Nat) := do
  Drill.check p.drill.movable
  return if p.destroyed then [] else p.graph.movable w

/-- Removes everything of a plant from its world. -/
def destroy : Care α Unit := do
  let (_, p) ← Action.read
  Action.ofExcept (Drill.check p.drill.destroy)
  if p.destroyed then Action.note (.destroyedTwice p.id)
  else
    building Graph.release
    Action.modify fun (w, p) => (w, { p with destroyed := true })
    Action.note (.destroyed p.id p.growth.growth)

end Plant
end Arboretum
