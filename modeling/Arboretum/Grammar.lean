import Arboretum.Colour
import Arboretum.Grammar.Rule

/-!
Grammars of plants and their expansion: every symbol of a word is replaced at once, generation
after generation, and a production is cut where it grows too long.
-/
namespace Arboretum

structure Grammar (α : Type) where
  name : String
  start : List Char
  rules : List (String × Rule α)
  angle : α
  iterations : Nat
  fruitProbability : α
  colourVaries : Bool
  stemColour : Colour
  leafColour : Colour
  fruitColour : Colour
  stemThickness : α

namespace Grammar

variable {α σ : Type} [Scalar α]

/-- A grammar as it is asked for. -/
structure Draft (α : Type) where
  name : String
  start : String
  rules : List (String × Value α)
  angle : α
  iterations : Value α
  fruitProbability : α
  colourVaries : Bool
  stemColour : Colour
  leafColour : Colour
  fruitColour : Colour
  stemThickness : α

def defaultStemColour : Colour := [80, 120, 40]
def defaultLeafColour : Colour := [100, 220, 50]
def defaultFruitColour : Colour := [255, 50, 50]

def Draft.default : Draft α where
  name := "custom"
  start := "F"
  rules := [("F", .text "FF+[+F]-[-F]")]
  angle := Scalar.pi / 7.0
  iterations := .integer 2
  fruitProbability := 0
  colourVaries := false
  stemColour := defaultStemColour
  leafColour := defaultLeafColour
  fruitColour := defaultFruitColour
  stemThickness := 4.0

/-- Productions grow exponentially; more generations than these are never run. -/
def maxIterations : Int := 4

def maxLength : Nat := 2000

def keptRules [Written α] (grammar : String) :
    List (String × Value α) → Action (Note α) σ (List (String × Rule α))
  | [] => return []
  | (symbol, value) :: rest => do
    let rule? ← Rule.ofValue grammar symbol value
    let kept ← keptRules grammar rest
    return match rule? with
      | some rule => (symbol, rule) :: kept
      | none => kept

/-- Checks a draft. Only its count of generations, or a weight out of range, can stop it. -/
def ofDraft [Written α] (d : Draft α) : Action (Note α) σ (Grammar α) := do
  let asked ← Action.ofExcept d.iterations.toCount
  let kept := max 0 (min asked maxIterations)
  if kept ≠ asked then Action.note (.iterationsClamped d.name asked kept)
  let rules ← keptRules d.name d.rules
  return { d with start := d.start.toList, rules, iterations := kept.toNat }

def rule? (g : Grammar α) (symbol : Char) : Option (Rule α) :=
  (g.rules.find? fun r => r.1 == String.singleton symbol).map (·.2)

/-- Replaces a symbol; one without a rule stays as it is. -/
def replaceSymbol (g : Grammar α) (symbol : Char) : Action (Note α) (Draws α) (List Char) :=
  match g.rule? symbol with
  | some rule => rule.replace symbol
  | none => return [symbol]

/-- Replaces every symbol of a word, from the left. -/
def replaceAll (g : Grammar α) : List Char → Action (Note α) (Draws α) (List Char)
  | [] => return []
  | symbol :: word => do
    let new ← g.replaceSymbol symbol
    let rest ← replaceAll g word
    return new ++ rest

/-- Runs the generations that are left. The one that overshoots the limit is the last. -/
def generations (g : Grammar α) (word : List Char) (generation : Nat) :
    Nat → Action (Note α) (Draws α) (List Char)
  | 0 => return word
  | left + 1 => do
    let new ← g.replaceAll word
    if maxLength < new.length then
      Action.note (.productionCut g.name new.length (generation + 1) maxLength)
      return new.take maxLength
    generations g new (generation + 1) left

/-- The production of a grammar; a start beyond the limit is cut too. -/
def expand (g : Grammar α) : Action (Note α) (Draws α) (List Char) := do
  let word ← g.generations g.start 0 g.iterations
  return word.take maxLength

end Grammar
end Arboretum
