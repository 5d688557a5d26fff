namespace Arboretum

/-- The stages of a plant's growth, in order. -/
inductive Stage where
  | seeded
  | rooted
  | growing
  | braced
  | fruited
  | steady
  deriving DecidableEq, Repr

namespace Stage

def rank : Stage → Nat
  | seeded => 0
  | rooted => 1
  | growing => 2
  | braced => 3
  | fruited => 4
  | steady => 5

def name : Stage → String
  | seeded => "seeded"
  | rooted => "root_placed"
  | growing => "growing"
  | braced => "constraints_applied"
  | fruited => "fruits_applied"
  | steady => "steady"

end Stage
end Arboretum
