import Arboretum.Grammar
import Arboretum.Skeleton

/-!
The walk of a pen along a production. Brackets save and restore the pen; the angle step is not part
of it, so `<` and `>` hold for the rest of the walk.
-/
namespace Arboretum

structure Pen (α : Type) where
  position : Vec α
  heading : α
  thickness : α
  colour : Colour

structure Walk (α : Type) where
  pen : Pen α
  saved : List (Pen α)
  angleStep : α
  segments : Array (Segment α)
  fruits : Array (Fruit α)

namespace Walk

variable {α ν : Type} [Scalar α]

/-- What a walk is told apart from its production. -/
structure Traits (α : Type) where
  angle : α
  stepLength : α
  fruitProbability : α
  fruitColour : Colour
  stemColour : Colour
  colourVaries : Bool

def Traits.default (angle : α) : Traits α where
  angle := angle
  stepLength := 10.0
  fruitProbability := 0
  fruitColour := Grammar.defaultFruitColour
  stemColour := Grammar.defaultStemColour
  colourVaries := false

def Traits.ofGrammar (g : Grammar α) : Traits α where
  angle := g.angle
  stepLength := 10.0
  fruitProbability := g.fruitProbability
  fruitColour := g.fruitColour
  stemColour := g.stemColour
  colourVaries := g.colourVaries

/-- The pen starts at the origin, heading up. -/
def start (t : Traits α) : Walk α where
  pen := ⟨⟨0, 0⟩, -Scalar.pi / 2.0, 1, t.stemColour⟩
  saved := []
  angleStep := t.angle
  segments := #[]
  fruits := #[]

/-- Trunk segments that start at this height or below it are anchored. -/
def rootLine : α := -1

def forward (stepLength : α) (w : Walk α) : Except Fault (Pen α) := do
  let (dx, dy) ← Scalar.direction w.pen.heading
  let p := w.pen.position
  return { w.pen with position := ⟨p.x + dx * stepLength, p.y + dy * stepLength⟩ }

def draw (stepLength : α) (w : Walk α) : Except Fault (Walk α) := do
  let pen ← w.forward stepLength
  let segment : Segment α :=
    { start := w.pen.position
      tip := pen.position
      depth := w.saved.length
      thickness := pen.thickness
      heading := pen.heading
      colour := pen.colour
      isRoot := w.saved.isEmpty && decide (rootLine ≤ w.pen.position.y) }
  return { w with pen := pen, segments := w.segments.push segment }

/-- A turn is the angle step times a random factor. -/
def turn (w : Walk α) : Action ν (Draws α) α := do
  let factor ← Draws.uniform 0.8 3.0
  return w.angleStep * factor

def bearFruit (t : Traits α) (w : Walk α) : Action ν (Draws α) (Walk α) := do
  let luck ← Draws.next
  if luck < t.fruitProbability then
    let size ← Draws.uniform 5.0 12.0
    return { w with fruits := w.fruits.push ⟨w.pen.position, size, t.fruitColour, w.pen.heading⟩ }
  else return w

/-- Follows one symbol; a symbol without a meaning is passed over. -/
def follow (t : Traits α) (w : Walk α) (symbol : Char) : Action ν (Draws α) (Walk α) :=
  match symbol with
  | 'F' | 'G' => Action.ofExcept (w.draw t.stepLength)
  | 'f' => do
    let pen ← Action.ofExcept (w.forward t.stepLength)
    return { w with pen := pen }
  | '+' => do
    let angle ← w.turn
    return { w with pen := { w.pen with heading := w.pen.heading + angle } }
  | '-' => do
    let angle ← w.turn
    return { w with pen := { w.pen with heading := w.pen.heading - angle } }
  | '<' => return { w with angleStep := w.angleStep * 0.8 }
  | '>' => return { w with angleStep := w.angleStep * 1.25 }
  | '[' =>
    return { w with
      saved := w.pen :: w.saved
      pen := { w.pen with thickness := w.pen.thickness * 0.75 } }
  | ']' =>
    match w.saved with
    | [] => return w
    | pen :: saved => return { w with pen := pen, saved := saved }
  | '!' => return { w with pen := { w.pen with thickness := w.pen.thickness * 0.8 } }
  | '\"' => return { w with pen := { w.pen with thickness := w.pen.thickness * 1.2 } }
  | '*' => w.bearFruit t
  | 'c' =>
    if t.colourVaries then do
      let colour ← w.pen.colour.shift
      return { w with pen := { w.pen with colour := colour } }
    else return w
  | _ => return w

def followAll (t : Traits α) (w : Walk α) : List Char → Action ν (Draws α) (Walk α)
  | [] => return w
  | symbol :: word => do
    let w ← w.follow t symbol
    followAll t w word

def along (t : Traits α) (word : List Char) : Action ν (Draws α) (Walk α) :=
  (start t).followAll t word

/-- The word that a grammar produces and the walk along it. -/
def ofGrammar (g : Grammar α) : Action (Note α) (Draws α) (List Char × Walk α) := do
  let word ← g.expand
  let walk ← along (Traits.ofGrammar g) word
  return (word, walk)

end Walk
end Arboretum
