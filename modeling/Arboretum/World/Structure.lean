import Arboretum.Action
import Arboretum.Note
import Arboretum.World

/-!
Making and removing points and springs. Whatever is removed is replaced by the last of its kind, so
that the slots in use and the places of springs stay without gaps.
-/
namespace Arboretum

/-- Takes out an entry and puts the last one in its place. -/
def swapRemove {β : Type} (xs : Array β) (i : Nat) : Array β :=
  match xs.back? with
  | some last => (xs.setIfInBounds i last).pop
  | none => xs

namespace World

variable {α : Type} [Scalar α]

/-- The mass of a point that was asked for without any. -/
def leastMass : α := 0.01

/-- Doubles the rows; the new ones repeat the old. -/
def double (w : World α) : World α := { w with rows := w.rows ++ w.rows }

/-- Seats a new point in the next slot. -/
def seat (w : World α) (p : Particle α) : World α :=
  let slot := w.count
  { w with
    rows := w.rows.setIfInBounds slot p
    bodies := w.bodies.push w.slots.size
    slots := w.slots.push (some slot) }

def addPoint (spot : Vec α) (mass : α) (pinned : Bool) : Action (Note α) (World α) Nat := do
  let weightless := decide (mass ≤ 0)
  if weightless then Action.note (.weightless mass)
  let w ← Action.read
  if w.count = w.capacity then
    Action.note (.worldGrew w.capacity (2 * w.capacity))
    Action.modify double
  let w ← Action.read
  if w.capacity ≤ w.count then Action.fail (.noSlot w.count w.capacity)
  Action.modify (seat · (.atRest spot (if weightless then leastMass else mass) pinned))
  return w.slots.size

/-- Pins a slot where its point is now. -/
def pinSlot (w : World α) (slot : Nat) : World α :=
  { w with rows := w.rows.modify slot fun p => { p with pinned := true, previous := p.position } }

/-- Pins a point. Which world the point belongs to is not asked: the slot is this world's. -/
def pin (p : Point α) : Action (Note α) (World α) Unit := do
  let slot ← Action.ofExcept p.slot
  let w ← Action.read
  if w.capacity ≤ slot then Action.fail (.noSlot slot w.capacity)
  Action.modify (pinSlot · slot)

/-- Takes a spring out of the list; the last one moves to its place. -/
def unlink (w : World α) (serial place : Nat) : World α :=
  let links := match w.springs.back? with
    | some last => w.links.modify last fun l => { l with place := some place }
    | none => w.links
  { w with
    links := links.modify serial fun l => { l with place := none }
    springs := swapRemove w.springs place
    wires := none }

/-- The serial number and place of a holder's spring, if this world lists it there. -/
def listed? (w : World α) (s : Spring) : Option (Nat × Nat) :=
  match s.place with
  | some place =>
    if s.home == w.tag && w.springs[place]? == some s.serial then some (s.serial, place) else none
  | none => none

def removeSpring (s : Option Spring) : Action (Note α) (World α) Bool := do
  let w ← Action.read
  match s.bind w.listed? with
  | none =>
    Action.note .strangeSpringRemoved
    return false
  | some (serial, place) =>
    Action.modify (unlink · serial place)
    return true

/-- The springs alive that end at a point, in order. -/
def springsAt (w : World α) (id : Nat) : List Nat :=
  w.springs.toList.filter fun serial =>
    match w.links[serial]? with
    | some l => l.a == id || l.b == id
    | none => false

/-- Takes out the springs with the given serial numbers. -/
def unlinkAll (w : World α) (serials : List Nat) : World α :=
  serials.foldl (fun w serial =>
    match w.place? serial with
    | some place => w.unlink serial place
    | none => w) w

/-- Takes a point out of its slot; the last point moves there. -/
def unseat (w : World α) (id slot : Nat) : World α :=
  let last := w.count - 1
  let slots := match w.bodies.back? with
    | some lastId => w.slots.setIfInBounds lastId (some slot)
    | none => w.slots
  { w with
    rows := match w.rows[last]? with
      | some row => w.rows.setIfInBounds slot row
      | none => w.rows
    bodies := swapRemove w.bodies slot
    slots := slots.setIfInBounds id none
    wires := none }

/-- Removes a point together with every spring that ends at it. -/
def removePoint (p : Option (Point α)) : Action (Note α) (World α) Bool := do
  let w ← Action.read
  match p with
  | some point =>
    match w.owns point, w.slot? point.id with
    | true, some slot =>
      Action.modify fun w => (w.unlinkAll (w.springsAt point.id)).unseat point.id slot
      return true
    | _, _ =>
      Action.note (.strangerRemoved p)
      return false
  | none =>
    Action.note (.strangerRemoved none)
    return false

def defaultDamping : α := 0.03

def maxStiffness : α := 1

/-- Lists a new spring after the others. -/
def link (w : World α) (a b : Nat) (stiffness damping rest : α) : World α :=
  { w with
    links := w.links.push ⟨a, b, stiffness, damping, rest, some w.springs.size⟩
    springs := w.springs.push w.links.size
    wires := none }

/-- A missing or negative rest length is the distance of the ends. -/
def restLength (a b : Vec α) (rest : Option α) : α :=
  match rest with
  | some r => if r < 0 then a.distance b else r
  | none => a.distance b

/-- Connects two different points of this world; otherwise says why not and leaves the world as it
is. -/
def addSpring (a b : Option (Point α)) (stiffness : α) (rest : Option α) (damping : α) :
    Action (Note α) (World α) (Option Nat) := do
  match a, b with
  | some p, some q =>
    match p.seat, q.seat with
    | some (_, spotP), some (_, spotQ) =>
      let w ← Action.read
      if p.home != w.tag || q.home != w.tag then
        Action.note .springAbroad
        return none
      if p.same q then
        Action.note (.springToItself p.id)
        return none
      let stiffness := Scalar.least (Scalar.greatest stiffness 0) maxStiffness
      Action.modify (link · p.id q.id stiffness damping (restLength spotP spotQ rest))
      return some w.links.size
    | _, _ =>
      Action.note .springWithoutEnd
      return none
  | _, _ =>
    Action.note .springWithoutEnd
    return none

/-- Adds to the force on a slot, which the next step consumes. -/
def pushSlot (w : World α) (slot : Nat) (force : Vec α) : World α :=
  { w with rows := w.rows.modify slot fun p => { p with force := p.force + force } }

def push (p : Option (Point α)) (force : Vec α) : Action (Note α) (World α) Bool := do
  let w ← Action.read
  match p with
  | some point =>
    match w.owns point, w.slot? point.id with
    | true, some slot =>
      Action.modify (pushSlot · slot force)
      return true
    | _, _ =>
      Action.note (.strangerPushed p)
      return false
  | none =>
    Action.note (.strangerPushed none)
    return false

/-- The force on a point since the last step. Which world the point belongs to is not asked: the
slot is this world's. -/
def forceOn (w : World α) (p : Point α) : Except Fault (Vec α) := do
  let slot ← p.slot
  match w.rows[slot]? with
  | some row => return row.force
  | none => .error (.noSlot slot w.capacity)

end World
end Arboretum
