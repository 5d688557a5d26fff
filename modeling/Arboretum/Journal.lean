import Arboretum.Clock

namespace Arboretum

/-- A note with the reading of the clock at which it was written, if the journal keeps a clock. -/
structure Entry (α : Type) where
  reading : Option (α × Nat)
  note : Note α

namespace Entry

variable {α : Type}

def stamp (clock : Option (Clock α)) (n : Note α) : Entry α :=
  ⟨clock.map fun c => (c.seconds, c.ticks), n⟩

end Entry
end Arboretum
