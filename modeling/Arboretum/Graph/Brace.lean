import Arboretum.Graph

/-!
Braces: weak springs between the tips of segments that leave one joint, as long as the tips are
apart at the drawn opening. No pair of points gets two.
-/
namespace Arboretum.Graph

variable {α : Type} [Scalar α]

/-- The pairs of a list, each in the order of the list. -/
def pairs {β : Type} : List β → List (β × β)
  | [] => []
  | x :: xs => xs.map (x, ·) ++ pairs xs

/-- Adds a segment to the group of its cell. -/
def addToGroup (cell : Cell) (s : Segment α) :
    List (Cell × List (Segment α)) → List (Cell × List (Segment α))
  | [] => [(cell, [s])]
  | (c, group) :: rest =>
    if c = cell then (c, group ++ [s]) :: rest else (c, group) :: addToGroup cell s rest

/-- Segments by the cell that they start in. -/
def grouped (groups : List (Cell × List (Segment α))) :
    List (Segment α) → Except Fault (List (Cell × List (Segment α)))
  | [] => .ok groups
  | s :: rest => do grouped (addToGroup (← Cell.of s.start) s groups) rest

/-- The pairs of segments that leave a common joint of the body. -/
def openings (g : Graph α) (groups : List (Cell × List (Segment α))) :
    List (Segment α × Segment α) :=
  (groups.filter fun group => (g.joint? group.1).isSome).flatMap fun group => pairs group.2

/-- Scaled lengths below this have no direction. -/
def leastLength : α := 0.000001

/-- The distance at which a brace holds two tips: the side opposite the drawn opening. -/
def braceLength (g : Graph α) (a b : Segment α) : Except Fault α :=
  oppositeSide (a.length * g.scale) (b.length * g.scale) (Scalar.abs (a.heading - b.heading))

inductive Braced where
  | made (serial : Nat)
  /-- One of the segments is too short to have a direction. -/
  | degenerate
  /-- There is nothing to hold, or it is held already. -/
  | passed

def brace (a b : Segment α) : Build α Braced := do
  let (w, g) ← reading
  let endA ← (g.joint? ·) <$> Action.ofExcept (Cell.of a.tip)
  let endB ← (g.joint? ·) <$> Action.ofExcept (Cell.of b.tip)
  match endA, endB with
  | some p, some q =>
    let pair := (min p q, max p q)
    if p = q || g.braced.contains pair then return .passed
    if a.length * g.scale < leastLength || b.length * g.scale < leastLength then
      return .degenerate
    let rest ← Action.ofExcept (g.braceLength a b)
    let depth : α ← Action.ofExcept (Scalar.ofInt a.depth)
    let made ← inWorld (World.addSpring (some (w.point p)) (some (w.point q))
      (braceStiffness depth) (some rest) World.defaultDamping)
    match made with
    | none => return .passed
    | some serial =>
      record fun g => { g with braced := pair :: g.braced, braces := g.braces ++ [serial] }
      return .made serial
  | _, _ => return .passed

def Braced.serial? : Braced → Option Nat
  | made serial => some serial
  | _ => none

def Braced.isDegenerate : Braced → Bool
  | degenerate => true
  | _ => false

/-- Braces every opening between the given segments; returns the new braces. -/
def addBraces (segments : List (Segment α)) : Build α (List Nat) := do
  let groups ← Action.ofExcept (grouped [] segments)
  let (_, g) ← reading
  let outcomes ← Action.forEach (g.openings groups) fun (a, b) => brace a b
  let skipped := outcomes.countP Braced.isDegenerate
  if 0 < skipped then Action.note (.bracesSkipped skipped)
  return outcomes.filterMap Braced.serial?

end Arboretum.Graph
