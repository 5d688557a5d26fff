import Arboretum.Action
import Arboretum.Note
import Arboretum.Skeleton

/-!
The growth of a plant, from its skeleton to a fully built body. Segments are built in the order of
the skeleton, a bounded batch a tick; the braces follow when most of them stand, the fruits when all
do. What builds is a crew; the plan only decides what is due.
-/
namespace Arboretum

structure Growth (α : Type) where
  segments : Array (Segment α)
  fruits : List (Fruit α)
  /-- The fraction gained in a tick. -/
  rate : α
  divisor : Nat
  stage : Stage
  growth : α
  /-- Which segments have been built. -/
  built : Array Bool
  count : Nat
  braced : Bool
  fruited : Bool
  /-- Every segment before this one has been built. -/
  cursor : Nat

/-- Who carries out what a plan decides, on a state of their own. -/
structure Crew (α σ : Type) where
  build : Segment α → Nat → Action (Note α) σ Unit
  /-- Braces the given segments and answers with how many braces were made. -/
  brace : List (Segment α) → Action (Note α) σ Nat
  hang : List (Fruit α) → Action (Note α) σ Nat

namespace Growth

variable {α σ : Type} [Scalar α]

def defaultRate : α := 0.03
def defaultDivisor : α := 50.0

def new (segments : Array (Segment α)) (fruits : List (Fruit α)) (rate divisor : α) :
    Except Fault (Growth α) := do
  let divisor ← Scalar.truncate divisor
  return {
    segments, fruits, rate
    divisor := max 1 divisor.toNat
    stage := .seeded
    growth := 0
    built := Array.replicate segments.size false
    count := 0
    braced := false
    fruited := false
    cursor := 0 }

def total (g : Growth α) : Nat := g.segments.size

/-- The most segments that a tick builds. -/
def batchSize (g : Growth α) : Nat := max 1 (g.total / g.divisor)

def isComplete (g : Growth α) : Bool := g.stage == .steady

def isBuilt (g : Growth α) (index : Nat) : Bool := g.built.getD index false

def builtSegments (g : Growth α) : List (Segment α) :=
  ((g.segments.toList.zip g.built.toList).filter (·.2)).map (·.1)

abbrev Plan (α σ ρ : Type) : Type := Action (Note α) (Growth α × σ) ρ

def plan : Plan α σ (Growth α) := fun s => ⟨.ok s.1, s, []⟩

def record (f : Growth α → Growth α) : Plan α σ Unit := Action.modify fun (g, s) => (f g, s)

/-- Lets the crew build a segment, and marks it when they are done. -/
def build (crew : Crew α σ) (index : Nat) : Plan α σ Unit := do
  let g ← plan
  match g.segments[index]? with
  | none => pure ()
  | some s =>
    (crew.build s index).onSnd
    record fun g => { g with built := g.built.setIfInBounds index true, count := g.count + 1 }

def rootCount : Nat := 3

/-- The first segments of the trunk. -/
def roots (g : Growth α) : List Nat :=
  ((List.range g.total).filter fun i =>
    match g.segments[i]? with
    | some s => s.depth == 0
    | none => false).take rootCount

/-- Builds the roots, so that a plant is anchored from its first frame. Returns how many. -/
def placeRoots (crew : Crew α σ) : Plan α σ Nat := do
  let g ← plan
  if g.stage ≠ .seeded then
    Action.note (.rootedAgain g.stage)
    return 0
  let _ ← Action.forEach g.roots (build crew)
  record fun g => { g with stage := .rooted }
  return g.roots.length

/-- Builds from the cursor on, up to a budget; passes over what stands already. -/
def buildBatch (crew : Crew α σ) (budget : Int) (done : Nat) : Nat → Plan α σ Nat
  | 0 => return done
  | left + 1 => do
    let g ← plan
    if (done : Int) < budget && g.cursor < g.total then
      let stands := g.isBuilt g.cursor
      if !stands then build crew g.cursor
      record fun g => { g with cursor := g.cursor + 1 }
      buildBatch crew budget (if stands then done else done + 1) left
    else return done

/-- No segments beyond the roots are built up to this fraction. -/
def startFraction : α := 0.1

def gain (g : Growth α) : Growth α :=
  { g with
    stage := if g.stage = .seeded || g.stage = .rooted then .growing else g.stage
    growth := Scalar.least 1 (g.growth + g.rate) }

/-- Builds the segments that are due at the present growth. -/
def buildDue (crew : Crew α σ) : Plan α σ Nat := do
  let g ← plan
  if startFraction < g.growth then
    let target ← Action.ofExcept (Scalar.floor (g.growth * (g.total : α)))
    let budget := min (g.batchSize : Int) (target - g.count)
    buildBatch crew budget 0 (g.total - g.cursor)
  else return 0

/-- The braces are due when this fraction of the segments stands. -/
def braceFraction : α := 0.8

def bracesDue (g : Growth α) : Bool :=
  !g.braced && decide (braceFraction * (g.total : α) ≤ (g.count : α))

def brace (crew : Crew α σ) : Plan α σ Unit := do
  let g ← plan
  if g.bracesDue then
    let made ← (crew.brace g.builtSegments).onSnd
    record fun g => { g with braced := true, stage := .braced }
    Action.note (.braced made g.count g.total)

def fruitsDue (g : Growth α) : Bool := g.braced && !g.fruited && g.count == g.total

/-- Hangs the fruits. Nothing is left to build after them. -/
def hang (crew : Crew α σ) : Plan α σ Unit := do
  let g ← plan
  if g.fruitsDue then
    let hung ← (crew.hang g.fruits).onSnd
    record fun g => { g with fruited := true, stage := .fruited }
    Action.note (.fruitsHung hung g.fruits.length)
    record fun g => { g with stage := .steady }

/-- One tick of growth. Returns how many segments it built. -/
def advance (crew : Crew α σ) : Plan α σ Nat := do
  let g ← plan
  if g.stage = .steady then return 0
  record gain
  let done ← buildDue crew
  brace crew
  hang crew
  return done

/-- The newest part of what is revealed fades in. -/
def fadeFraction : α := 0.1

/-- How much is revealed of what lies at a fraction of the skeleton, from 0 to 1. -/
def revealed (g : Growth α) (fraction : α) : α :=
  let t := fraction / g.growth
  if 1 < t then 0
  else if 1 - fadeFraction < t then (1 - t) / fadeFraction
  else 1

/-- How much of a segment is revealed. -/
def segmentRatio (g : Growth α) (index : Int) : Except Fault α :=
  if g.growth ≤ 0 || g.total = 0 then .ok 0
  else (Scalar.quotient index g.total).map g.revealed

/-- Fruits show from this growth on. -/
def fruitReveal : α := 0.7

def fruitRatio (g : Growth α) : α :=
  if g.growth < fruitReveal then 0
  else Scalar.clamp (remap g.growth fruitReveal 1 0 1) 0 1

end Growth
end Arboretum
