import Arboretum.Draws
import Arboretum.Grammar.Value
import Arboretum.Note

/-!
Rules of a grammar: what a symbol may be replaced by. A rule is kept if it is a word, a generator,
or a list of weighted words with weights that are not negative; every other entry is dropped with a
note, and its symbol stays as it is.
-/
namespace Arboretum

/-- A function of the numbers to come: its answer, unless it stops, and how many of them it took. -/
structure Generator (α : Type) where
  answer : (Nat → α) → Except Fault (Value α) × Nat

def Generator.ask {α ν : Type} (g : Generator α) : Action ν (Draws α) (Value α) := fun d =>
  let (answer, took) := g.answer fun i => d.draw (d.taken + i)
  ⟨answer, { d with taken := d.taken + took }, []⟩

namespace Value

variable {α : Type} [Scalar α]

/-- A function that answers one of some options. -/
def pick (options : List (Value α)) : Value α := function fun stream =>
  let drawn : Report (Note α) _ _ := Draws.choose options .outsideOptions ⟨stream, 0⟩
  (drawn.result, drawn.state.taken)

/-- A function that stops with a message. -/
def stop (message : String) : Value α := function fun _ => (.error (.requested message), 0)

end Value

inductive Rule (α : Type) where
  | fixed (word : List Char)
  | weighted (choices : List (List Char × α))
  | generator (g : Generator α)

namespace Rule

variable {α σ : Type} [Scalar α]

/-- A weighted word: an entry of two parts, the first of which can be written and the second of
which is a number. -/
def choice? [Written α] (entry : Value α) : Except Fault (Option (List Char × α)) :=
  match entry.parts with
  | some [word, weight] =>
    match word.written? with
    | some written => do return (← weight.toScalar?).map (written.toList, ·)
    | none => .ok none
  | _ => .ok none

/-- The weighted words of a list, if all of its entries are. The first entry that is none ends the
reading. -/
def choices? [Written α] : List (Value α) → Except Fault (Option (List (List Char × α)))
  | [] => .ok (some [])
  | entry :: entries => do
    match ← choice? entry with
    | none => return none
    | some c => return (← choices? entries).map (c :: ·)

def total (choices : List (List Char × α)) : α := choices.foldl (fun sum c => sum + c.2) 0

/-- How far the weights may sum above one before it is remarked on. -/
def tolerance : α := 0.000000001

def keep (grammar symbol : String) (choices : List (List Char × α)) :
    Action (Note α) σ (Option (Rule α)) := do
  if choices.any fun c => c.2 < 0 then
    Action.note (.ruleNegative grammar symbol)
    return none
  if 1 + tolerance < total choices then
    Action.note (.ruleOverweight grammar symbol (total choices))
  return some (weighted choices)

def ofValue [Written α] (grammar symbol : String) :
    Value α → Action (Note α) σ (Option (Rule α))
  | .text word => return some (fixed word.toList)
  | .function answer => return some (generator ⟨answer⟩)
  | .list entries => do
    match ← Action.ofExcept (choices? entries) with
    | none =>
      Action.note (.ruleNotPairs grammar symbol)
      return none
    | some choices => keep grammar symbol choices
  | other => do
    Action.note (.ruleUnsupported grammar symbol other.kind)
    return none

/-- The word that a draw chooses: the first whose weight, with those before it, exceeds the draw. -/
def chosen (draw : α) (below : α) : List (List Char × α) → Option (List Char)
  | [] => none
  | (word, weight) :: rest =>
    if draw < below + weight then some word else chosen draw (below + weight) rest

/-- Replaces one symbol. Weights that sum below one leave a gap in which it stays. -/
def replace (symbol : Char) : Rule α → Action (Note α) (Draws α) (List Char)
  | fixed word => return word
  | weighted choices => do
    let draw ← Draws.next
    return (chosen draw 0 choices).getD [symbol]
  | generator g => do
    match ← g.ask with
    | .text word => return word.toList
    | other =>
      Action.note (.generatorAnswered symbol other.kind)
      return [symbol]

end Rule
end Arboretum
