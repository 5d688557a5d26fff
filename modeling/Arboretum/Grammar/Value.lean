import Arboretum.Decimal.Numeral
import Arboretum.Power
import Arboretum.Text.Quoted

/-!
What a grammar may be written with before it is checked: rules and counts of any kind.
-/
namespace Arboretum

inductive Value (α : Type) where
  | text (s : String)
  | integer (n : Int)
  | number (x : α)
  | truth (b : Bool)
  | nothing
  | list (items : List (Value α))
  | table (entries : List (String × Value α))
  /-- Answers a stream of numbers to come, or stops, and says how many of them it took. -/
  | function (answer : (Nat → α) → Except Fault (Value α) × Nat)
  deriving Inhabited

namespace Value

variable {α : Type} [Scalar α]

/-- The name of the kind of a value, as the journal writes it. -/
def kind : Value α → String
  | text _ => "str"
  | integer _ => "int"
  | number _ => "float"
  | truth _ => "bool"
  | nothing => "NoneType"
  | list _ => "list"
  | table _ => "dict"
  | function _ => "function"

/-- A value as it is written inside another one. -/
def shown [Written α] : Value α → String
  | text s => Text.quoted s
  | integer n => toString n
  | number x => Written.text x
  | truth b => if b then "True" else "False"
  | nothing => "None"
  | list items => "[" ++ ", ".intercalate (items.map shown) ++ "]"
  | table entries => "\x7b" ++ ", ".intercalate (entries.map entry) ++ "\x7d"
  | function _ => "<function>"
where
  entry : String × Value α → String
    | (k, v) => Text.quoted k ++ ": " ++ shown v

/-- A value as a word of symbols: a text as it stands, anything else as it is written. -/
def word [Written α] : Value α → String
  | text s => s
  | other => other.shown

/-- Integers of too many digits are never written, alone or in a list or a table. -/
def isWritable : Value α → Bool
  | integer n => n.natAbs < tenTo Decimal.Numeral.maxDigits
  | list items => (items.map isWritable).all id
  | table entries => (entries.map entry).all id
  | _ => true
where
  entry : String × Value α → Bool
    | (_, v) => isWritable v

/-- A value as a word of symbols, if it can be written. -/
def written? [Written α] (v : Value α) : Option String := if v.isWritable then some v.word else none

/-- What a value holds when it is taken apart: the entries of a list, the characters of a text, the
keys of a table. -/
def parts : Value α → Option (List (Value α))
  | list items => some items
  | text s => some (s.toList.map fun c => text (String.singleton c))
  | table entries => some (entries.map fun (k, _) => text k)
  | _ => none

/-- A value as a number. `none` says that it has none; an integer may be out of range. -/
def toScalar? : Value α → Except Fault (Option α)
  | text s => .ok ((Decimal.Numeral.read? s).map Decimal.Numeral.toScalar)
  | integer n => (Scalar.ofInt n).map some
  | number x => .ok (some x)
  | truth b => .ok (some (if b then 1 else 0))
  | _ => .ok none

/-- A value as a count of generations, before it is brought into range. -/
def toCount : Value α → Except Fault Int
  | text s =>
    match Decimal.Numeral.integer? s with
    | some n => .ok n
    | none => .error (.unreadableCount (Text.quoted s))
  | integer n => .ok n
  | number x => Scalar.truncate x
  | truth b => .ok (if b then 1 else 0)
  | other => .error (.uncountable other.kind)

end Value
end Arboretum
