import Arboretum.Scalar

namespace Arboretum

structure Vec (α : Type) where
  x : α
  y : α
  deriving Repr, Inhabited

namespace Vec

variable {α : Type} [Scalar α]

instance : Add (Vec α) := ⟨fun a b => ⟨a.x + b.x, a.y + b.y⟩⟩
instance : Sub (Vec α) := ⟨fun a b => ⟨a.x - b.x, a.y - b.y⟩⟩
instance : Neg (Vec α) := ⟨fun a => ⟨-a.x, -a.y⟩⟩
instance : Zero (Vec α) := ⟨⟨0, 0⟩⟩

def scale (a : Vec α) (k : α) : Vec α := ⟨a.x * k, a.y * k⟩

def divideBy (a : Vec α) (k : α) : Vec α := ⟨a.x / k, a.y / k⟩

def dot (a b : Vec α) : α := a.x * b.x + a.y * b.y

/-- The length that the solver uses: the root of the sum of the squares. -/
def norm (a : Vec α) : α := Scalar.sqrt (a.dot a)

/-- The distance between two points, without overflow on the way. -/
def distance (a b : Vec α) : α := Scalar.hypot (b.x - a.x) (b.y - a.y)

end Vec
end Arboretum
