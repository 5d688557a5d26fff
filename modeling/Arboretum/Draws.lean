import Arboretum.Action
import Arboretum.Power
import Arboretum.Scalar

/-!
Random numbers as a stream: which number the next draw gives depends only on how many were taken.
-/
namespace Arboretum

structure Draws (α : Type) where
  draw : Nat → α
  taken : Nat

namespace Draws

/-- A step `x ↦ factor * x + offset` on words. -/
structure Affine where
  factor : UInt64
  offset : UInt64

def Affine.apply (f : Affine) (x : UInt64) : UInt64 := f.factor * x + f.offset

/-- First `f`, then `g`. -/
def Affine.andThen (f g : Affine) : Affine :=
  ⟨g.factor * f.factor, g.factor * f.offset + g.offset⟩

/-- A step taken `n` times, by doubling. -/
def Affine.iterate (f : Affine) (n : Nat) : Affine :=
  if _positive : 0 < n then
    let half := f.iterate (n / 2)
    let whole := half.andThen half
    if n % 2 = 0 then whole else whole.andThen f
  else ⟨1, 0⟩
termination_by n

def generator : Affine := ⟨6364136223846793005, 1442695040888963407⟩

variable {α β ν : Type} [Scalar α]

/-- The top 53 bits of a word as a number from 0 up to, but not including, 1. -/
def unit (word : UInt64) : α := ((word >>> 11).toNat : α) / (twoTo 53 : α)

def seeded (seed : UInt64) : Draws α := ⟨fun i => unit ((generator.iterate (i + 1)).apply seed), 0⟩

/-- The given draws over and over. -/
def cycle (draws : Array α) : Draws α := ⟨fun i => draws.getD (i % draws.size) 0, 0⟩

def next : Action ν (Draws α) α := fun s =>
  ⟨.ok (s.draw s.taken), { s with taken := s.taken + 1 }, []⟩

def uniform (low high : α) : Action ν (Draws α) α := do
  let u ← next
  return low + (high - low) * u

def integer (low high : Int) : Action ν (Draws α) Int := do
  let u ← next
  let steps ← Action.ofExcept (Scalar.floor (u * ((high - low + 1 : Int) : α)))
  return low + steps

/-- The entry at a place of a list; places below zero count from its end. -/
def entry? (xs : List β) (place : Int) : Option β :=
  let place := if place < 0 then place + xs.length else place
  if place < 0 then none else xs[place.toNat]?

/-- Places are words of 64 bits with a sign. -/
def isPlace (n : Int) : Bool := -9223372036854775808 ≤ n && n < 9223372036854775808

def choose (xs : List β) (outside : Fault) : Action ν (Draws α) β := do
  let u ← next
  let place ← Action.ofExcept (Scalar.floor (u * (xs.length : α)))
  if !isPlace place then Action.fail .noPlace
  match entry? xs place with
  | some x => return x
  | none => Action.fail outside

end Draws
end Arboretum
