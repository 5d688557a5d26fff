import Arboretum.Draws
import Arboretum.Force.Apply
import Arboretum.Geometry

/-!
Wind: a horizontal force that eases towards a target, which is drawn anew now and then. It pushes
higher and lighter points harder.
-/
namespace Arboretum

structure Wind (α : Type) where
  groundY : α
  top : α
  cap : α
  easing : α
  retarget : α
  enabled : Bool
  force : α
  target : α

namespace Wind

variable {α : Type} [Scalar α]

def defaultCap : α := 0.00025
def defaultEasing : α := 0.01
def defaultRetarget : α := 0.5

def new (groundY top cap easing retarget : α) : Wind α :=
  ⟨groundY, top, cap, easing, retarget, true, 0, 0⟩

def default (groundY : α) : Wind α := new groundY 0 defaultCap defaultEasing defaultRetarget

def toggle : Action (Note α) (Wind α) Bool := do
  let w ← Action.read
  let enabled := !w.enabled
  Action.modify fun w => { w with enabled }
  Action.note (.windEnabled enabled)
  return enabled

def ease (w : Wind α) : Wind α := { w with force := w.force + (w.target - w.force) * w.easing }

/-- One tick of wind: the force eases towards the target, then the target may change. -/
def update : Action (Note α) (Wind α × Draws α) Unit := do
  let (w, _) ← Action.read
  if w.enabled then
    Action.modify fun (w, d) => (w.ease, d)
    let luck ← Draws.next.onSnd
    if luck < w.retarget then
      let target ← (Draws.uniform (-w.cap) w.cap).onSnd
      Action.modify fun (w, d) => ({ w with target }, d)

def heightFactor (w : Wind α) (y : α) : α := remap y w.groundY w.top 0.5 2.0

def massFactor (mass : α) : α := remap mass 0.1 2.0 1.5 0.5

/-- The phase of the ripple moves with the tick. -/
def ripple (x tick : α) : α := Scalar.sin (x * 0.01 + tick * 0.01) * 0.2

def push (w : Wind α) (tick : α) (p : Particle α) : Vec α :=
  let horizontal := w.force * w.heightFactor p.position.y * massFactor p.mass
  ⟨horizontal, horizontal * ripple p.position.x tick⟩

/-- Pushes every free point; returns how many. -/
def apply (wind : Wind α) (points : List Nat) (tick : Int) : Action (Note α) (World α) Nat := do
  if !wind.enabled || wind.force == 0 then return 0
  let w ← Action.read
  let free := w.free points
  if free.isEmpty then return 0
  let tick ← Action.ofExcept (Scalar.ofInt tick)
  World.pushAll (free.map fun (id, p) => (id, wind.push tick p))
  return free.length

end Wind
end Arboretum
