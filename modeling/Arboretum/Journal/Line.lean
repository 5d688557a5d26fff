import Arboretum.Binary64
import Arboretum.Journal
import Arboretum.Note.Text

/-!
Lines of the journal. A line opens with the reading of the clock once the clock has left zero.
-/
namespace Arboretum.Entry

/-- Minutes, seconds and ticks. The seconds of a clock past all bounds cannot be told. -/
def stampText (seconds : Float) (ticks : Nat) : Except Fault String := do
  let minutes ← Binary64.floorDiv seconds 60.0
  let rest := Decimal.fixed 2 (Scalar.floorMod seconds 60.0)
  return "[t=" ++ Decimal.padLeft 3 '0' (toString minutes) ++ ":" ++ Decimal.padLeft 5 '0' rest ++
    " #" ++ Decimal.padLeft 6 '0' (toString ticks) ++ "]"

def stampOf (e : Entry Float) : Except Fault String :=
  match e.reading with
  | some (seconds, ticks) => if 0.0 < seconds then stampText seconds ticks else .ok "[Sim Start]"
  | none => .ok "[Sim Start]"

def line (e : Entry Float) : Except Fault String := do
  let stamp ← e.stampOf
  return stamp ++ " " ++ e.note.text

/-- The lines of some entries. -/
def lines (entries : List (Entry Float)) : List String :=
  entries.filterMap fun e => e.line.toOption

/-- An operation whose entries are written as it goes. One that cannot be written stops it. -/
def written {σ ρ : Type} (x : Action (Entry Float) σ ρ) : Action String σ ρ := x.written line

end Arboretum.Entry
