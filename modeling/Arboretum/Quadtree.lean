import Arboretum.Action
import Arboretum.Quadtree.Box

/-!
An index of points by place. A node holds points up to its capacity and hands the others to its four
quarters. The search for the nearest point looks through a square window, which doubles until the
point it finds lies within its inscribed circle or the window covers the whole index.
-/
namespace Arboretum

inductive Quadtree (α β : Type) where
  | leaf (box : Box α) (held : List (Vec α × β))
  | split (box : Box α) (held : List (Vec α × β))
      (upperRight upperLeft lowerRight lowerLeft : Quadtree α β)

namespace Quadtree

variable {α β : Type} [Scalar α]

def box : Quadtree α β → Box α
  | leaf box _ => box
  | split box .. => box

/-- Offers a point to four quarters in turn; the first that takes it keeps it. -/
def offer (box : Box α) (held : List (Vec α × β)) (insert : Box α → Bool × Quadtree α β) :
    Bool × Quadtree α β :=
  let (taken, a) := insert box.upperRight
  if taken then
    (true,
      split box held a (leaf box.upperLeft []) (leaf box.lowerRight []) (leaf box.lowerLeft []))
  else
    let (taken, b) := insert box.upperLeft
    if taken then (true, split box held a b (leaf box.lowerRight []) (leaf box.lowerLeft []))
    else
      let (taken, c) := insert box.lowerRight
      if taken then (true, split box held a b c (leaf box.lowerLeft []))
      else
        let (taken, d) := insert box.lowerLeft
        (taken, split box held a b c d)

/-- A new node with one point. Where nodes hold nothing the point sinks until the quarters are too
small to be told apart; `depth` bounds that descent. -/
def sprout (capacity : Nat) (p : Vec α × β) : Nat → Box α → Bool × Quadtree α β
  | depth, box =>
    if !box.contains p.1 then (false, leaf box [])
    else if 0 < capacity then (true, leaf box [p])
    else
      match depth with
      | 0 => (false, leaf box [])
      | depth + 1 => offer box [] (sprout capacity p depth)

/-- More halvings than any extent of machine numbers survives. -/
def maxDepth : Nat := 2200

/-- Adds a point; `false` when no node would take it. A node that was split stays split. -/
def insert (capacity : Nat) (p : Vec α × β) : Quadtree α β → Bool × Quadtree α β
  | leaf box held =>
    if !box.contains p.1 then (false, leaf box held)
    else if held.length < capacity then (true, leaf box (held ++ [p]))
    else offer box held (sprout capacity p maxDepth)
  | split box held a b c d =>
    if !box.contains p.1 then (false, split box held a b c d)
    else if held.length < capacity then (true, split box (held ++ [p]) a b c d)
    else
      let (taken, a) := insert capacity p a
      if taken then (true, split box held a b c d)
      else
        let (taken, b) := insert capacity p b
        if taken then (true, split box held a b c d)
        else
          let (taken, c) := insert capacity p c
          if taken then (true, split box held a b c d)
          else
            let (taken, d) := insert capacity p d
            (taken, split box held a b c d)

/-- No point is handed down through more nodes than this. -/
def maxNesting : Nat := 330

/-- How often a point is handed on: once by each full node that it lies in. -/
def descent (capacity : Nat) (p : Vec α) : Quadtree α β → Nat
  | leaf box held => if box.contains p && capacity ≤ held.length then 1 else 0
  | split box held a b c d =>
    if box.contains p && capacity ≤ held.length then
      1 + max (max (a.descent capacity p) (b.descent capacity p))
        (max (c.descent capacity p) (d.descent capacity p))
    else 0

/-- Is a point handed down through a number of boxes, each a quarter of the one before? -/
def sinks (p : Vec α) : Nat → Box α → Bool
  | 0, box => box.contains p
  | levels + 1, box =>
    box.contains p && (sinks p levels box.upperRight || sinks p levels box.upperLeft ||
      sinks p levels box.lowerRight || sinks p levels box.lowerLeft)

/-- Is a point handed on too often? Where nodes hold nothing it may sink without end. -/
def buries (capacity : Nat) (p : Vec α) (tree : Quadtree α β) : Bool :=
  if capacity = 0 then sinks p maxNesting tree.box else maxNesting < tree.descent capacity p

def within (range : Box α) (held : List (Vec α × β)) : List (Vec α × β) :=
  held.filter fun p => range.contains p.1

/-- The points in a range: those of a node, then those of its quarters. -/
def query (range : Box α) : Quadtree α β → List (Vec α × β)
  | leaf box held => if box.meets range then within range held else []
  | split box held a b c d =>
    if box.meets range then
      within range held ++ a.query range ++ b.query range ++ c.query range ++ d.query range
    else []

/-- The first of the points that are closest to a place. -/
def closest (place : Vec α) : List (Vec α × β) → Option (Vec α × β)
  | [] => none
  | p :: ps => some (ps.foldl
      (fun best q => if place.distance q.1 < place.distance best.1 then q else best) p)

/-- From this half size on a window covers the whole box. -/
def coveringHalf (b : Box α) (place : Vec α) : α :=
  Scalar.greatest (Scalar.abs (place.x - b.centre.x) + b.half.x)
    (Scalar.abs (place.y - b.centre.y) + b.half.y)

def searchFrom (tree : Quadtree α β) (place : Vec α) (covering half : α) : Nat → Option (Vec α × β)
  | 0 => none
  | fuel + 1 =>
    match closest place (tree.query ⟨place, ⟨half, half⟩⟩) with
    | some best =>
      if place.distance best.1 ≤ half || covering ≤ half then some best
      else searchFrom tree place covering (half * 2.0) fuel
    | none =>
      if covering ≤ half then none else searchFrom tree place covering (half * 2.0) fuel

/-- How many windows there are up to the covering one. -/
def windows (covering half : α) : Nat :=
  match Scalar.floor (covering / half) with
  | .ok ratio => (ratio.toNat + 1).log2 + 3
  | .error _ => maxDepth

end Quadtree

/-- A quadtree with the number of points that it took. -/
structure PointIndex (α β : Type) where
  capacity : Nat
  tree : Quadtree α β
  size : Nat

namespace PointIndex

variable {α β : Type} [Scalar α]

def defaultCapacity : Nat := 4

def empty (box : Box α) (capacity : Nat) : PointIndex α β := ⟨capacity, .leaf box [], 0⟩

def insert (t : PointIndex α β) (p : Vec α) (item : β) : Bool × PointIndex α β :=
  let (taken, tree) := t.tree.insert t.capacity (p, item)
  (taken, { t with tree := tree, size := if taken then t.size + 1 else t.size })

/-- Adds a point that does not come to lie too deep. -/
def offer (t : PointIndex α β) (p : Vec α) (item : β) : Except Fault (Bool × PointIndex α β) :=
  if t.tree.buries t.capacity p then .error .tooDeep else .ok (t.insert p item)

/-- Offers points one after the other; tells which were taken. -/
def offerAll {ν : Type} : List (Vec α × β) → Action ν (PointIndex α β) (List Bool)
  | [] => return []
  | (p, item) :: rest => do
    let t ← Action.read
    let (taken, t) ← Action.ofExcept (t.offer p item)
    Action.modify fun _ => t
    return taken :: (← offerAll rest)

def insertAll (t : PointIndex α β) : List (Vec α × β) → Except Fault (PointIndex α β)
  | [] => .ok t
  | (p, item) :: rest => do
    let (_, t) ← t.offer p item
    t.insertAll rest

def query (t : PointIndex α β) (range : Box α) : List (Vec α × β) := t.tree.query range

def defaultHalf : α := 8.0

def nearest (t : PointIndex α β) (place : Vec α) (half : α) : Option (Vec α × β) :=
  if t.size = 0 then none
  else
    let covering := Quadtree.coveringHalf t.tree.box place
    t.tree.searchFrom place covering half (Quadtree.windows covering half)

end PointIndex
end Arboretum
